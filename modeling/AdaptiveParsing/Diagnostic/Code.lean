/-!
The codes that syntax errors and abandoned parses are filed under. A code starting in one is a
syntax error that the parser recovers from; one starting in nine ends the parse.
-/

namespace AdaptiveParsing

/-- What went wrong, as a searchable code. -/
inductive ErrorCode where
  /-- No alternative of a decision fits the input. -/
  | noViableAlternative
  /-- The current token is not the one expected. -/
  | mismatchedInput
  /-- Recovery dropped a token. -/
  | extraneousInput
  /-- Recovery conjured a token. -/
  | missingToken
  /-- A predicate does not hold. -/
  | failedPredicate
  /-- Rules are nested too deep. -/
  | nestingTooDeep
  /-- The parse was given up at its first error. -/
  | cancelled
deriving DecidableEq, Hashable, Inhabited, Repr

namespace ErrorCode

def all : List ErrorCode :=
  [noViableAlternative, mismatchedInput, extraneousInput, missingToken, failedPredicate,
    nestingTooDeep, cancelled]

def text : ErrorCode → String
  | noViableAlternative => "E1001"
  | mismatchedInput => "E1002"
  | extraneousInput => "E1003"
  | missingToken => "E1004"
  | failedPredicate => "E1005"
  | nestingTooDeep => "E9001"
  | cancelled => "E9002"

/-- One line for a list of codes. -/
def description : ErrorCode → String
  | noViableAlternative => "no viable alternative"
  | mismatchedInput => "mismatched input"
  | extraneousInput => "extraneous input"
  | missingToken => "missing token"
  | failedPredicate => "failed predicate"
  | nestingTooDeep => "rule nesting too deep"
  | cancelled => "parse cancelled"

/-- Ends the parse. -/
def isFatal : ErrorCode → Bool
  | nestingTooDeep | cancelled => true
  | _ => false

/-- The parser recovers from it. -/
def isSyntaxError (c : ErrorCode) : Bool := !c.isFatal

def ofText? (s : String) : Option ErrorCode := all.find? fun c => c.text == s

theorem ofText?_text (c : ErrorCode) : ofText? c.text = some c := by cases c <;> decide

end ErrorCode

end AdaptiveParsing
