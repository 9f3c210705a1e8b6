import AdaptiveParsing.Token.Kind
/-!
The names of token types. A literal name is the quoted spelling of a fixed token, a symbolic name
the name the lexer knows it by; a type may have either, both or none.
-/

namespace AdaptiveParsing

/-- Names by token type. The reserved types and type zero have none. -/
structure Vocabulary where
  literals : Array (Option String) := #[]
  symbols : Array (Option String) := #[]
deriving DecidableEq, Inhabited, Repr

namespace Vocabulary

/-- The greatest type the tables speak of, or zero. -/
def maxType (v : Vocabulary) : TokenType := (max v.literals.size v.symbols.size - 1 : Nat)

/-- Appends `name` to `table` as entry `slot`, with unnamed entries in between. -/
def extend (table : Array (Option String)) (slot : Nat) (name : Option String) :
    Array (Option String) :=
  (table ++ Array.replicate (slot - table.size) none).push name

/-- Names the next free type. -/
def define (v : Vocabulary) (literal symbol : Option String) : TokenType × Vocabulary :=
  let next := v.maxType + 1
  (next, { literals := extend v.literals next.toNat literal
           symbols := extend v.symbols next.toNat symbol })

/-- The entry of a table for a type that a lexer gives out. -/
def entry? (table : Array (Option String)) (t : TokenType) : Option String :=
  if t < TokenType.firstUser then none else (table[t.toNat]?).join

def literal? (v : Vocabulary) (t : TokenType) : Option String := entry? v.literals t

def symbol? (v : Vocabulary) (t : TokenType) : Option String := entry? v.symbols t

/-- The literal name, else the symbolic name, else the number. -/
def displayName (v : Vocabulary) (t : TokenType) : String :=
  if t = TokenType.eof then "<EOF>"
  else if t = TokenType.epsilon then "<EPSILON>"
  else (v.literal? t <|> v.symbol? t).getD (toString t)

/-- The first type with this symbolic name, else the first with this literal name. -/
def typeOf? (v : Vocabulary) (name : String) : Option TokenType :=
  (v.symbols.findIdx? (· == some name) <|> v.literals.findIdx? (· == some name)).map
    fun (i : Nat) => (i : Int)

theorem define_type (v : Vocabulary) (l s : Option String) :
    (v.define l s).1 = v.maxType + 1 := rfl

end Vocabulary

end AdaptiveParsing
