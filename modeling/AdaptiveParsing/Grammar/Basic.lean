import AdaptiveParsing.Network.Basic
/-!
Grammars as they are written down: token names, and rules whose bodies are built from tokens, calls
and the usual operators. A rule that refers to itself at its left edge is written as a list of
operator alternatives instead, those that bind tightest first.
-/

namespace AdaptiveParsing

/-- A fragment of a rule. -/
inductive Element where
  | token (t : TokenType)
  /-- One token of these types. -/
  | set (types : List TokenType)
  /-- One token of any other type. -/
  | notSet (types : List TokenType)
  /-- One token of any type. -/
  | wildcard
  | rule (r : RuleId)
  | seq (items : List Element)
  | alt (alternatives : List Element)
  /-- Zero or one. -/
  | opt (e : Element)
  /-- Zero or more. -/
  | star (e : Element)
  /-- One or more. -/
  | plus (e : Element)
  /-- A condition that does not look at the invocation it is in. -/
  | predicate (index : Nat)
  /-- A condition that does. -/
  | contextPredicate (index : Nat)
  | action (index : Nat)
  | epsilon
deriving Inhabited, Repr

/-- How operators of one alternative group. -/
inductive Associativity where
  | left
  | right
deriving DecidableEq, Inhabited, Repr

/-- One alternative of a left-recursive rule. -/
inductive OperatorAlternative where
  /-- An operand on either side. -/
  | binary (associativity : Associativity) (operator : List Element)
  /-- An operand on the left. -/
  | suffix (items : List Element)
  /-- An operand on the right. -/
  | prefixed (items : List Element)
  /-- No operand at either end. -/
  | primary (items : List Element)
deriving Inhabited, Repr

/-- What a rule stands for. -/
inductive RuleBody where
  | plain (body : Element)
  | leftRecursive (alternatives : List OperatorAlternative)
deriving Inhabited, Repr

/-- A rule under its name; one that is only mentioned has no body yet. -/
structure GrammarRule where
  name : String
  body : Option RuleBody := none
deriving Inhabited, Repr

structure Grammar where
  names : Vocabulary := {}
  rules : Array GrammarRule := #[]
deriving Inhabited, Repr

namespace Grammar

/-- Names a token type by a symbol. -/
def addToken (g : Grammar) (symbol : String) : TokenType × Grammar :=
  let (t, names) := g.names.define none (some symbol)
  (t, { g with names })

/-- Names a token type by its spelling, and by a symbol if it has one. -/
def addLiteral (g : Grammar) (spelling : String) (symbol : Option String) : TokenType × Grammar :=
  let (t, names) := g.names.define (some ("'" ++ spelling ++ "'")) symbol
  (t, { g with names })

/-- The rule of that name, which is added if there is none. -/
def addRule (g : Grammar) (name : String) : RuleId × Grammar :=
  match g.rules.findIdx? fun r => r.name == name with
  | some r => (r, g)
  | none => (g.rules.size, { g with rules := g.rules.push { name } })

/-- Gives a rule its body, in place of any it had. -/
def define (g : Grammar) (r : RuleId) (body : RuleBody) : Grammar :=
  { g with rules := g.rules.modify r fun rule => { rule with body := some body } }

end Grammar

end AdaptiveParsing
