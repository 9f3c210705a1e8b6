/-!
A count of live nested invocations under a fixed ceiling.
-/

namespace AdaptiveParsing

/-- How many invocations are live and how many may be. -/
structure NestingLimit where
  depth : Nat := 0
  limit : Nat := 10000
deriving DecidableEq, Inhabited, Repr

/-- The ceiling that one more level would have passed. -/
structure NestingExceeded where
  limit : Nat
deriving DecidableEq, Repr

def NestingExceeded.message (e : NestingExceeded) : String :=
  "recursion depth limit of " ++ toString e.limit ++ " exceeded"

namespace NestingLimit

/-- One more level, unless the ceiling is reached. -/
def enter (n : NestingLimit) : Except NestingExceeded NestingLimit :=
  if n.limit ≤ n.depth then .error ⟨n.limit⟩ else .ok { n with depth := n.depth + 1 }

/-- One level less, or none if there is none. -/
def exit (n : NestingLimit) : NestingLimit := { n with depth := n.depth - 1 }

def reset (n : NestingLimit) : NestingLimit := { n with depth := 0 }

variable {n m : NestingLimit}

theorem enter_eq_ok_iff : n.enter = .ok m ↔ n.depth < n.limit ∧ m = { n with depth := n.depth + 1 } := by
  unfold enter; split <;> grind

theorem exit_of_enter (h : n.enter = .ok m) : m.exit = n := by
  obtain ⟨-, rfl⟩ := enter_eq_ok_iff.1 h; rfl

end NestingLimit

end AdaptiveParsing
