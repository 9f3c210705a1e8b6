import AdaptiveParsing.Recognition.Error
/-!
Configurations: where one way through the network stands after some lookahead. A configuration
belongs to the alternative it started with and knows the calls it made on the way; once these have
returned it is placed relative to the invocation that made the decision.
-/

namespace AdaptiveParsing

/-- A call made during lookahead: where it returns to, and the floor of its caller. -/
structure Frame where
  returnState : StateId
  precedence : Int
deriving DecidableEq, Hashable, Inhabited, Repr

/-- Where a configuration is once its own calls have returned. -/
inductive Placement where
  /-- In the invocation that made the decision. -/
  | inside
  /-- In some caller of that rule; which one is not known. -/
  | follow
  /-- In some caller that entered a left-recursive rule with floor zero. -/
  | outermostFollow
  /-- In a live invocation around the one that made the decision. -/
  | invocation (id : InvocationId)
  /-- Past the outermost invocation. -/
  | root
deriving DecidableEq, Hashable, Inhabited, Repr

/-- A configuration apart from its alternative. -/
structure ConfigKey where
  state : StateId
  /-- The lowest operator level that may be taken. -/
  precedence : Int
  /-- The calls the lookahead is inside, innermost first. -/
  stack : List Frame := []
  placement : Placement := .inside
deriving DecidableEq, Hashable, Inhabited, Repr

namespace ConfigKey

/-- At another state, all else unchanged. -/
def moveTo (k : ConfigKey) (s : StateId) : ConfigKey := { k with state := s }

/-- The lookahead has left the rule that made the decision. -/
def hasLeft (k : ConfigKey) : Bool := k.placement != .inside

/-- The lookahead is in the very invocation that made the decision, so what predicates ask about it
can be answered. -/
def isLocal (k : ConfigKey) : Bool := k.stack.isEmpty && k.placement == .inside

end ConfigKey

/-- The place of a placement in the order of keys. -/
def Placement.rank : Placement → List Int
  | inside => [0]
  | follow => [1]
  | outermostFollow => [2]
  | invocation id => [3, (id : Int)]
  | root => [4]

/-- A stack in the order of keys, outermost call first; a stack comes before those that extend it. -/
def Frame.rankAll : List Frame → List Int
  | [] => [0]
  | f :: rest => 1 :: (f.returnState : Int) :: f.precedence :: rankAll rest

/-- Keys are ordered by state, precedence, stack and placement: by this list of numbers. -/
def ConfigKey.rank (k : ConfigKey) : List Int :=
  (k.state : Int) :: k.precedence :: (Frame.rankAll k.stack.reverse ++ k.placement.rank)

/-- Lists of numbers in the order of a dictionary: the first is the second, or stands before it. -/
def lexLe : List Int → List Int → Bool
  | [], _ => true
  | _ :: _, [] => false
  | a :: as, b :: bs => decide (a < b) || (decide (a = b) && lexLe as bs)

/-- One way through the network, and the alternative it started with. -/
structure Config where
  key : ConfigKey
  alt : Nat
deriving DecidableEq, Hashable, Inhabited, Repr

theorem lexLe_refl (as : List Int) : lexLe as as = true := by
  induction as <;> simp_all [lexLe]

theorem lexLe_total (as bs : List Int) : (lexLe as bs || lexLe bs as) = true := by
  induction as generalizing bs with
  | nil => simp [lexLe]
  | cons a as ih => cases bs with
    | nil => simp [lexLe]
    | cons b bs => grind [lexLe]

theorem lexLe_trans (as bs cs : List Int) (h : lexLe as bs = true) (h' : lexLe bs cs = true) :
    lexLe as cs = true := by
  induction as generalizing bs cs with
  | nil => simp [lexLe]
  | cons a as ih => cases bs <;> cases cs <;> grind [lexLe]

theorem lexLe_antisymm {as bs : List Int} (h : lexLe as bs = true) (h' : lexLe bs as = true) :
    as = bs := by
  induction as generalizing bs with
  | nil => cases bs <;> simp_all [lexLe]
  | cons a as ih => cases bs <;> grind [lexLe]

theorem Placement.rank_injective {p q : Placement} (h : p.rank = q.rank) : p = q := by
  cases p <;> cases q <;> simp_all only [rank, List.cons.injEq, Int.natCast_inj, reduceCtorEq] <;>
    lia

/-- No list of numbers is the rank of two stacks, whatever stands behind it. -/
theorem Frame.rankAll_append_inj {s t : List Frame} {a b : List Int}
    (h : rankAll s ++ a = rankAll t ++ b) : s = t ∧ a = b := by
  induction s generalizing t with
  | nil => cases t <;> simp_all [rankAll]
  | cons f s ih =>
    cases t with
    | nil => simp [rankAll] at h
    | cons g t =>
      simp only [rankAll, List.cons_append, List.cons.injEq, Int.natCast_inj, true_and] at h
      obtain ⟨h1, h2, h3⟩ := h
      obtain ⟨rfl, rfl⟩ := ih h3
      cases f; cases g; simp_all

/-- Keys of one rank are equal. -/
theorem ConfigKey.rank_injective {k l : ConfigKey} (h : k.rank = l.rank) : k = l := by
  simp only [rank, List.cons.injEq, Int.natCast_inj] at h
  obtain ⟨h1, h2, h3⟩ := h
  obtain ⟨h4, h5⟩ := Frame.rankAll_append_inj h3
  have h6 := Placement.rank_injective h5
  cases k; cases l
  simp_all

end AdaptiveParsing
