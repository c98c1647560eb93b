import Thompson.Token

namespace Thompson

inductive Level where
  | debug
  | trace
deriving DecidableEq

def Level.describe : Level → String
  | debug => "DEBUG"
  | trace => "TRACE"

inductive Record where
  | started
  | applied (token : Token) (position states : Nat)
  | finished (tokens states : Nat)
deriving DecidableEq

namespace Record

def level : Record → Level
  | applied .. => .trace
  | started | finished .. => .debug

def message : Record → String
  | started => "compiling postfix expression into a Thompson NFA"
  | applied token position states =>
    s!"applied {token.describe} at position {position}, NFA has {states} states"
  | finished tokens states => s!"compiled {tokens} tokens into an NFA with {states} states"

def line (record : Record) : String :=
  s!"{record.level.describe} thompson_nfa::compiler {record.message}"

end Record

end Thompson
