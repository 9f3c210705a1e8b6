import AdaptiveParsing.Text.Span
import AdaptiveParsing.Text.Escape
import AdaptiveParsing.Token.Names
/-!
Tokens as a lexer hands them over. A token's index is its place in the token sequence; a token
conjured by error recovery was never in the input and has none.
-/

namespace AdaptiveParsing

/-- The channel a parser reads from unless told otherwise. -/
abbrev defaultChannel : Nat := 0

/-- A token, with the place it was read at. Lines count from one, columns from zero. -/
structure Token where
  kind : TokenType
  text : Option String := none
  span : Span := {}
  line : Nat := 1
  column : Nat := 0
  channel : Nat := defaultChannel
  index : Option Nat := none
deriving DecidableEq, Hashable, Inhabited, Repr

namespace Token

/-- The mark at the end of an input. -/
def endOfInput : Token := { kind := TokenType.eof, text := some "<EOF>" }

def isEof (t : Token) : Bool := t.kind.isEof

/-- A token that was missing from the input, placed where `near` begins. -/
def conjure (kind : TokenType) (text : String) (near : Token) : Token where
  kind := kind
  text := some text
  span := .point near.span.start
  line := near.line
  column := near.column

def isConjured (t : Token) : Bool := t.index.isNone

/-- The text of the token, or the name of its type if the lexer kept none. -/
def display (t : Token) (names : Vocabulary) : String :=
  t.text.getD (names.displayName t.kind)

/-- The token as error messages show it: quoted, on one line. -/
def errorDisplay (t : Token) (names : Vocabulary) : String :=
  Text.quote <| t.text.getD <|
    if t.isEof then "<EOF>" else "<" ++ names.displayName t.kind ++ ">"

/-- The text a token adds to the source it was read from; the end of input adds none. -/
def sourceText (t : Token) : String := if t.isEof then "" else t.text.getD ""

theorem isConjured_conjure (k : TokenType) (s : String) (near : Token) :
    (conjure k s near).isConjured = true := rfl

end Token

end AdaptiveParsing
