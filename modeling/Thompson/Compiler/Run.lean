import Thompson.Automaton.WellFormed
import Thompson.Compiler.Basic
import Thompson.Compiler.Error
import Thompson.Compiler.Record

namespace Thompson

inductive Failure where
  | rejected (error : CompileError)
  | fault (fault : Fault)
deriving DecidableEq

structure Machine where
  arena : Arena := {}
  stack : List Fragment := []
deriving DecidableEq

namespace Machine

def apply (machine : Machine) (position : Nat) (token : Token) : Except Failure Machine :=
  match machine with
  | ⟨arena, stack⟩ =>
    match token.rule? stack with
    | none =>
      .error (.rejected (.missingOperand token.toChar position token.arity stack.length))
    | some (rule, rest) =>
      match arena.build rule with
      | (_, .error fault) => .error (.fault fault)
      | (grown, .ok fragment) => .ok ⟨grown, fragment :: rest⟩

def conclude (machine : Machine) : Except Failure Automaton :=
  match machine.stack with
  | [fragment] => (machine.arena.finish fragment).mapError .fault
  | stack => .error (.rejected (.danglingOperands stack.length))

end Machine

structure Trace where
  records : List Record
  result : Except Failure Automaton

def Trace.cons (record : Record) (trace : Trace) : Trace :=
  ⟨record :: trace.records, trace.result⟩

namespace Compiler

/-- A token is recorded once it is applied, before the size of the arena is checked. -/
def run (compiler : Compiler) (machine : Machine) (position : Nat) : List Token → Trace
  | [] =>
    match machine.conclude with
    | .ok automaton => ⟨[.finished position automaton.size], .ok automaton⟩
    | .error failure => ⟨[], .error failure⟩
  | token :: rest =>
    match machine.apply position token with
    | .error failure => ⟨[], .error failure⟩
    | .ok machine =>
      let size := machine.arena.size
      .cons (.applied token position size) <|
        match compiler.exceeded? size with
        | some limit => ⟨[], .error (.rejected (.tooBig limit))⟩
        | none => compiler.run machine (position + 1) rest

def compileEmpty (compiler : Compiler) : Except Failure Automaton :=
  match ({} : Arena).build .empty with
  | (_, .error fault) => .error (.fault fault)
  | (arena, .ok fragment) =>
    match compiler.exceeded? arena.size with
    | some limit => .error (.rejected (.tooBig limit))
    | none => (arena.finish fragment).mapError .fault

def trace (compiler : Compiler) (tokens : List Token) : Trace :=
  .cons .started <|
    match tokens with
    | [] => ⟨[], compiler.compileEmpty⟩
    | _ => compiler.run {} 0 tokens

def compile (compiler : Compiler) (tokens : List Token) : Except Failure Automaton :=
  (compiler.trace tokens).result

end Compiler

end Thompson
