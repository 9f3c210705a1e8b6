import AdaptiveParsing.Grammar.Basic
import AdaptiveParsing.Token.Basic
import Mathlib
/-!
Precedence climbing. A left-recursive rule whose alternatives are operands and operators of one token each
describes expressions: an operand, and then operators with an operand after each of them. Which operands
belong to which operator is told by a function that knows nothing of networks (`climb`), and by rules for
what it does (`Climbs`). Main statement: from floor zero no operator is left over (`climb_zero`).
-/

namespace AdaptiveParsing

/-- An alternative of one token: an operand, or an operator between two operands. -/
inductive InfixAlternative where
  | operand (t : TokenType)
  | operator (associativity : Associativity) (t : TokenType)
deriving DecidableEq, Inhabited, Repr

/-- How tightly an operator binds, and how it groups. -/
structure Binding where
  token : TokenType
  level : Int
  associativity : Associativity
deriving DecidableEq, Inhabited, Repr

/-- The least level of an operator in the right operand. -/
def Binding.floor (b : Binding) : Int :=
  match b.associativity with
  | .left => b.level + 1
  | .right => b.level

namespace InfixAlternative

/-- The alternative of a left-recursive rule. -/
def alternative : InfixAlternative → OperatorAlternative
  | operand t => .primary [.token t]
  | operator associativity t => .binary associativity [.token t]

def operands : List InfixAlternative → List TokenType
  | [] => []
  | operand t :: rest => t :: operands rest
  | operator _ _ :: rest => operands rest

/-- The operators, those that are listed earlier at higher levels. -/
def bindings : List InfixAlternative → List Binding
  | [] => []
  | operand _ :: rest => bindings rest
  | operator associativity t :: rest => ⟨t, rest.length + 1, associativity⟩ :: bindings rest

theorem pos_bindings {l : List InfixAlternative} {b : Binding} (h : b ∈ bindings l) :
    0 < b.level := by
  induction l with
  | nil => cases h
  | cons a rest ih =>
    cases a with
    | operand t => exact ih h
    | operator associativity t =>
      rcases List.mem_cons.1 h with rfl | h
      · exact Int.natCast_succ_pos _
      · exact ih h

end InfixAlternative

/-- An expression over tokens. -/
inductive Expr where
  | operand (t : Token)
  | binary (left : Expr) (operator : Token) (right : Expr)
deriving DecidableEq, Inhabited, Repr

/-- How many right operands are inside of each other. -/
def Expr.nesting : Expr → Nat
  | operand _ => 0
  | binary left _ right => max left.nesting (right.nesting + 1)

/-- The tokens of operators and operands in turn. -/
def interleave (rest : List (Token × Token)) : List Token := rest.flatMap fun p => [p.1, p.2]

/-- The operator of this type. -/
def Binding.find? (table : List Binding) (t : TokenType) : Option Binding :=
  table.find? fun b => b.token == t

/-- Extends an expression by the operators that follow it, each with its operand, down to a floor. The
answer has what is left of the operators from the first one below the floor on. -/
def climb (table : List Binding) (floor : Int) (left : Expr) (rest : List (Token × Token)) :
    Expr × { last : List (Token × Token) // last.length ≤ rest.length } :=
  match rest with
  | [] => (left, ⟨[], Nat.le_refl _⟩)
  | (op, x) :: more =>
    match Binding.find? table op.kind with
    | none => (left, ⟨(op, x) :: more, Nat.le_refl _⟩)
    | some b =>
      if floor ≤ b.level then
        let (right, ⟨after, h⟩) := climb table b.floor (.operand x) more
        let (whole, ⟨last, h'⟩) := climb table floor (.binary left op right) after
        (whole, ⟨last, Nat.le_succ_of_le (Nat.le_trans h' h)⟩)
      else (left, ⟨(op, x) :: more, Nat.le_refl _⟩)
termination_by rest.length

/-- What climbing does: it stops, or it takes an operator with its right operand and goes on. -/
inductive Climbs (table : List Binding) :
    Int → Expr → List (Token × Token) → Expr → List (Token × Token) → Prop
  | stop {floor : Int} {left : Expr} {rest : List (Token × Token)}
      (h : ∀ op x more b, rest = (op, x) :: more → Binding.find? table op.kind = some b →
        b.level < floor) : Climbs table floor left rest left rest
  | round {floor : Int} {left right whole : Expr} {op x : Token} {b : Binding}
      {more after last : List (Token × Token)} (hb : Binding.find? table op.kind = some b)
      (hfloor : floor ≤ b.level) (hright : Climbs table b.floor (.operand x) more right after)
      (h : Climbs table floor (.binary left op right) after whole last) :
      Climbs table floor left ((op, x) :: more) whole last

variable {table : List Binding} {floor : Int} {left whole : Expr}
  {rest last : List (Token × Token)}

theorem climbs_climb (table : List Binding) (floor : Int) (left : Expr)
    (rest : List (Token × Token)) :
    Climbs table floor left rest (climb table floor left rest).1
      (climb table floor left rest).2.1 := by
  fun_induction climb table floor left rest with
  | case1 => exact .stop nofun
  | case2 floor left op x more hb =>
    refine .stop fun op' x' more' b h hb' => ?_
    cases h
    rw [hb] at hb'
    cases hb'
  | case3 floor left op x more b hb hfloor right after h hright whole last h' hwhole ih₁ ih₂ =>
    rw [hright] at ih₁
    rw [hwhole] at ih₂
    exact .round hb hfloor ih₁ ih₂
  | case4 floor left op x more b hb hfloor =>
    refine .stop fun op' x' more' b' h hb' => ?_
    cases h
    rw [hb] at hb'
    cases hb'
    exact Int.not_le.1 hfloor

namespace Climbs

/-- The expression that is extended is inside of the whole. -/
theorem nesting_le (h : Climbs table floor left rest whole last) : left.nesting ≤ whole.nesting := by
  induction h with
  | stop => exact Nat.le_refl _
  | round _ _ _ _ _ ih => exact Nat.le_trans (Nat.le_max_left _ _) ih

/-- What is left over is an end of what there was. -/
theorem suffix (h : Climbs table floor left rest whole last) : last <:+ rest := by
  induction h with
  | stop => exact List.suffix_refl _
  | round _ _ _ _ ih₁ ih₂ => exact (ih₂.trans ih₁).trans (List.suffix_cons _ _)

/-- What is left over begins with an operator below the floor. -/
theorem level_lt (h : Climbs table floor left rest whole last) :
    ∀ op x more b, last = (op, x) :: more → Binding.find? table op.kind = some b →
      b.level < floor := by
  induction h with
  | stop h => exact h
  | round _ _ _ _ _ ih => exact ih

end Climbs

/-- From floor zero, operators of the table are not left over. -/
theorem climb_zero {l : List InfixAlternative} {rest : List (Token × Token)}
    (h : ∀ p ∈ rest, (Binding.find? (InfixAlternative.bindings l) p.1.kind).isSome = true)
    (left : Expr) : (climb (InfixAlternative.bindings l) 0 left rest).2.1 = [] := by
  have hc := climbs_climb (InfixAlternative.bindings l) 0 left rest
  generalize hlast : (climb (InfixAlternative.bindings l) 0 left rest).2.1 = last at hc
  cases last with
  | nil => rfl
  | cons p more =>
    obtain ⟨b, hb⟩ := Option.isSome_iff_exists.1 (h p (hc.suffix.subset (.head _)))
    have hpos := InfixAlternative.pos_bindings (List.mem_of_find?_eq_some hb)
    have hlow := hc.level_lt p.1 p.2 more b rfl hb
    omega

end AdaptiveParsing
