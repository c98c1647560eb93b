import Thompson.Arena.Path
import Thompson.Automaton.Acceptance
import Thompson.Compiler.Run
import Thompson.Expr.Language
import Thompson.Surface.Markers
import Thompson.Surface.Operators
import Thompson.Proofs.Acceptance
import Thompson.Proofs.Finish
import Thompson.Proofs.Build
import Thompson.Proofs.Region
import Thompson.Proofs.Part
import Thompson.Proofs.Schedule
import Thompson.Proofs.Machine
import Thompson.Proofs.Compilation
import Thompson.Proofs.Brackets
import Thompson.Proofs.Verdict
import Thompson.Proofs.Grammar
import Thompson.Proofs.Readability
import Thompson.Proofs.Outcome
import Thompson.Proofs.Relocation
import Thompson.Proofs.Construction
import Thompson.Proofs.Block
import Thompson.Proofs.Decoding
import Thompson.Proofs.Regrouping
import Thompson.Proofs.Notation
import Thompson.Proofs.SizeLimit
import Thompson.Proofs.Placement
import Thompson.Proofs.Trim
import Thompson.Proofs.Backtracking
import Thompson.Proofs.Preference
import Thompson.Proofs.Guard
import Thompson.Proofs.Heads
import Thompson.Proofs.NormalForm
import Thompson.Proofs.Renumbering
import Thompson.Proofs.Copies
import Thompson.Proofs.Interleaving
import Thompson.Proofs.Completion
import Thompson.Proofs.Preorder
import Thompson.Proofs.SilentCycle
import Thompson.Proofs.Conservation
import Thompson.Proofs.Log
import Thompson.Proofs.Quotation
import Thompson.Proofs.Dump
