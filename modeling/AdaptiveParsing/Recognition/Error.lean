import AdaptiveParsing.Diagnostic.Basic
import AdaptiveParsing.Network.Basic
import AdaptiveParsing.Token.Basic
/-!
What can go wrong while input is matched against a grammar. A recognition error is a mismatch that
the parser can recover from; a failure is what an unfinished rule hands to its caller; a syntax
error is what remains of a mismatch once it has been reported.
-/

namespace AdaptiveParsing

/-- The number of a rule invocation in its forest. -/
abbrev InvocationId := Nat

/-- Why the input did not match. -/
inductive MismatchKind where
  /-- No alternative of the decision takes the input that begins at `start`. -/
  | noViableAlternative (decision : DecisionId) (start : Token)
  /-- The current token is none of those expected. -/
  | inputMismatch
  /-- A condition on the way does not hold. -/
  | failedPredicate (rule : RuleId) (predicate : String)
deriving DecidableEq, Hashable, Inhabited, Repr

namespace MismatchKind

def message : MismatchKind → String
  | noViableAlternative decision _ => "no viable alternative for decision " ++ toString decision
  | inputMismatch => "mismatched input"
  | failedPredicate rule predicate =>
    "rule " ++ toString rule ++ " failed predicate " ++ predicate

def code : MismatchKind → ErrorCode
  | noViableAlternative _ _ => .noViableAlternative
  | inputMismatch => .mismatchedInput
  | failedPredicate _ _ => .failedPredicate

end MismatchKind

/-- A mismatch between input and grammar, and where the parser stood. -/
structure RecognitionError where
  kind : MismatchKind
  /-- The token the parser was looking at. -/
  offending : Token
  state : Option StateId := none
  invocation : Option InvocationId := none
  /-- The types that would have been accepted. -/
  expected : TokenSet := ∅
deriving DecidableEq, Inhabited, Repr

namespace RecognitionError

def code (e : RecognitionError) : ErrorCode := e.kind.code

def message (e : RecognitionError) : String :=
  e.kind.message ++ " at " ++ toString e.offending.line ++ ":" ++ toString e.offending.column

end RecognitionError

/-- Why a rule did not complete. -/
inductive ParseFailure where
  /-- A mismatch on its way to the rule that recovers from it. -/
  | recognition (e : RecognitionError)
  /-- Invocations are nested as deep as they may be. -/
  | nestingTooDeep (rule : String) (limit : Nat)
  /-- The parse is given up because of a mismatch. -/
  | cancelled (e : RecognitionError)
deriving DecidableEq, Inhabited, Repr

namespace ParseFailure

/-- A rule can report it and go on. -/
def isRecoverable : ParseFailure → Bool
  | recognition _ => true
  | _ => false

def code : ParseFailure → ErrorCode
  | recognition e => e.code
  | nestingTooDeep _ _ => .nestingTooDeep
  | cancelled _ => .cancelled

/-- The mismatch behind it, if there is one. -/
def mismatch? : ParseFailure → Option RecognitionError
  | recognition e | cancelled e => some e
  | nestingTooDeep _ _ => none

def message : ParseFailure → String
  | recognition e => e.message
  | nestingTooDeep rule limit =>
    "rule `" ++ rule ++ "` nested deeper than " ++ toString limit ++ " invocations"
  | cancelled e => "parse cancelled: " ++ e.message

def toDiagnostic (f : ParseFailure) : Diagnostic :=
  let d : Diagnostic :=
    { code := f.code, severity := if f.isRecoverable then .error else .fatal, message := f.message }
  match f.mismatch? with
  | some e => d.addLabel { span := e.offending.span, message := "parsing stopped here" }
  | none => d.addNote "rule nesting is limited to keep the native stack bounded"

end ParseFailure

/-- A mismatch as it was reported. -/
structure SyntaxError where
  code : ErrorCode
  message : String
  span : Span
  /-- The index of the offending token, if it was in the input. -/
  tokenIndex : Option Nat
  line : Nat
  column : Nat
  /-- The rules being parsed, the innermost first. -/
  context : List String := []
  /-- Where the decision began, unless it began at the offending token. -/
  decisionStart : Option Span := none
deriving DecidableEq, Inhabited, Repr

namespace SyntaxError

/-- An error at a token. -/
def ofToken (code : ErrorCode) (message : String) (offending : Token) : SyntaxError where
  code := code
  message := message
  span := offending.span
  tokenIndex := offending.index
  line := offending.line
  column := offending.column

/-- Keeps `start` as the place the decision began, unless it is the offending token. -/
def withDecisionStart (e : SyntaxError) (start : Token) : SyntaxError :=
  if start.index = e.tokenIndex then e else { e with decisionStart := some start.span }

/-- Errors with one key are repeats of each other. -/
def key (e : SyntaxError) : ErrorCode × Option Nat := (e.code, e.tokenIndex)

def headline (e : SyntaxError) : String :=
  "line " ++ toString e.line ++ ":" ++ toString e.column ++ " " ++ e.message

/-- What the offending token is called in a diagnostic. -/
def labelText : ErrorCode → String
  | .extraneousInput => "unexpected token"
  | .missingToken => "expected a token here"
  | .failedPredicate => "predicate failed here"
  | _ => ""

/-- The note that names the rules being parsed, the outermost first. -/
def contextNote? (e : SyntaxError) : Option String :=
  e.context.head?.map fun rule =>
    "while parsing `" ++ rule ++ "` (" ++ " > ".intercalate e.context.reverse ++ ")"

def toDiagnostic (e : SyntaxError) : Diagnostic where
  code := e.code
  message := e.message
  labels :=
    { span := e.span, message := labelText e.code } ::
      (e.decisionStart.map fun start =>
        { span := start, message := "decision started here", isPrimary := false }).toList
  notes := e.contextNote?.toList

end SyntaxError

end AdaptiveParsing
