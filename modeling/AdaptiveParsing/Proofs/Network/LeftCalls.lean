import AdaptiveParsing.Network.LeftRecursion
import Mathlib
/-!
The search for left recursion is complete. A walk over the edges that take no token sees all that can
be reached (`Draft.seen_freeWalk`), the nullable rules are closed under what that makes nullable
(`Draft.nullable_closed`), and a search that finds no cycle leaves none (`Draft.acyclic_of_search`).
Main statement: in a draft without left recursion no rule comes back to itself by calls before any
token (`Draft.not_leftCalls`).
-/

namespace AdaptiveParsing

section

variable (state : StateId → NetworkState) (nullable : RuleId → Prop)

/-- An edge leads here before any token is taken: past a call, if the rule called is nullable. -/
inductive FreeEdge (t : Transition) : StateId → Prop
  | edge (hc : t.call? = none) (hk : t.isConsuming = false) : FreeEdge t t.target
  | call {r : RuleId} {follow : StateId} {precedence : Int} (hk : t.kind = .rule r follow precedence)
      (hr : nullable r) : FreeEdge t follow

/-- What can be reached from `a` within its rule before any token is taken. -/
inductive FreeFrom (a : StateId) : StateId → Prop
  | refl : FreeFrom a a
  | step {s s' : StateId} {t : Transition} (h : FreeFrom a s) (ht : t ∈ (state s).transitions)
      (he : FreeEdge nullable t s') : FreeFrom a s'

end

theorem FreeFrom.congr {state state' : StateId → NetworkState} {nullable : RuleId → Prop}
    {a s : StateId} (hedges : ∀ s, (state s).transitions = (state' s).transitions)
    (h : FreeFrom state nullable a s) : FreeFrom state' nullable a s := by
  induction h with
  | refl => exact .refl
  | step _ ht he ih => exact .step ih (hedges _ ▸ ht) he

namespace Draft

variable {d : Draft} {known : Array Bool} {w : FreeWalk} {s x : StateId} {pending : List StateId}

/-- The rules that are known to be nullable. -/
def Known (known : Array Bool) (r : RuleId) : Prop := known.getD r false = true

/-- One edge of a step of the walk. -/
def freeEdge (known : Array Bool) (w : FreeWalk) (t : Transition) : FreeWalk :=
  match t.kind with
  | .rule r follow _ =>
    { w with
      calls := r :: w.calls
      pending := if known.getD r false then follow :: w.pending else w.pending }
  | kind => if kind.isConsuming then w else { w with pending := t.target :: w.pending }

theorem freeEdge_spec (w : FreeWalk) (t : Transition) :
    (∀ x, FreeEdge (Known known) t x → x ∈ (freeEdge known w t).pending) ∧
      (∀ x ∈ w.pending, x ∈ (freeEdge known w t).pending) ∧
      (∀ r follow precedence, t.kind = .rule r follow precedence →
        r ∈ (freeEdge known w t).calls) ∧
      (∀ r ∈ w.calls, r ∈ (freeEdge known w t).calls) ∧
      (freeEdge known w t).seen = w.seen ∧
      (freeEdge known w t).pending.length ≤ w.pending.length + 1 := by
  unfold freeEdge
  cases hk : t.kind with
  | rule r follow precedence =>
    dsimp only
    refine ⟨?_, ?_, ?_, fun c hc => .tail _ hc, rfl, ?_⟩
    · intro x hx
      cases hx with
      | edge hc _ => simp [Transition.call?, hk] at hc
      | call hk' hr =>
        rw [hk] at hk'
        cases hk'
        unfold Known at hr
        rw [if_pos hr]
        exact .head _
    · intro x hx
      split
      · exact .tail _ hx
      · exact hx
    · intro c follow' precedence' he
      cases he
      exact .head _
    · split <;> simp
  | _ =>
    dsimp only [EdgeKind.isConsuming]
    refine ⟨?_, ?_, ?_, fun c hc => ?_, ?_, ?_⟩
    · intro x hx
      cases hx with
      | edge hc he => simp_all [Transition.isConsuming, EdgeKind.isConsuming]
      | call hk' hr =>
        rw [hk] at hk'
        cases hk'
    · simp_all
    · simp
    · simpa using hc
    · simp
    · simp

theorem foldl_freeEdge (l : List Transition) (w : FreeWalk) :
    (∀ t ∈ l, ∀ x, FreeEdge (Known known) t x → x ∈ (l.foldl (freeEdge known) w).pending) ∧
      (∀ x ∈ w.pending, x ∈ (l.foldl (freeEdge known) w).pending) ∧
      (∀ t ∈ l, ∀ r follow precedence, t.kind = .rule r follow precedence →
        r ∈ (l.foldl (freeEdge known) w).calls) ∧
      (∀ r ∈ w.calls, r ∈ (l.foldl (freeEdge known) w).calls) ∧
      (l.foldl (freeEdge known) w).seen = w.seen ∧
      (l.foldl (freeEdge known) w).pending.length ≤ w.pending.length + l.length := by
  induction l generalizing w with
  | nil => simp
  | cons t l ih =>
    obtain ⟨h₁, h₂, h₃, h₄, h₅, h₆⟩ := @freeEdge_spec known w t
    obtain ⟨i₁, i₂, i₃, i₄, i₅, i₆⟩ := ih (freeEdge known w t)
    rw [List.foldl_cons]
    refine ⟨?_, fun x hx => i₂ x (h₂ x hx), ?_, fun r hr => i₄ r (h₄ r hr), i₅.trans h₅, ?_⟩
    · intro u hu x hx
      rcases List.mem_cons.1 hu with rfl | hu
      · exact i₂ x (h₁ x hx)
      · exact i₁ u hu x hx
    · intro u hu r follow precedence hk
      rcases List.mem_cons.1 hu with rfl | hu
      · exact i₄ r (h₃ r follow precedence hk)
      · exact i₃ u hu r follow precedence hk
    · rw [List.length_cons]
      omega

theorem freeStep_cons (hw : w.pending = s :: pending) :
    d.freeStep known w = if w.seen.contains s then { w with pending } else
      (d.state s).transitions.foldl (freeEdge known) { w with pending, seen := w.seen.insert s } := by
  unfold freeStep
  rw [hw]
  rfl

/-- A walk underway: nothing that can be reached from what it has seen is forgotten. -/
structure Walks (d : Draft) (known : Array Bool) (a : StateId) (w : FreeWalk) : Prop where
  start : w.seen.contains a = true ∨ a ∈ w.pending
  next : ∀ s, w.seen.contains s = true → ∀ t ∈ (d.state s).transitions, ∀ x,
    FreeEdge (Known known) t x → w.seen.contains x = true ∨ x ∈ w.pending
  calls : ∀ s, w.seen.contains s = true → ∀ t ∈ (d.state s).transitions, ∀ r follow precedence,
    t.kind = .rule r follow precedence → r ∈ w.calls

/-- How many edges leave the states that a walk has not seen. -/
def unseenEdges (d : Draft) (seen : Std.HashSet StateId) : Nat :=
  ∑ s ∈ (Finset.range d.states.size).filter (fun s => seen.contains s = false),
    (d.state s).transitions.length

theorem Walks.step {a : StateId} (h : Walks d known a w) : Walks d known a (d.freeStep known w) := by
  cases hw : w.pending with
  | nil =>
    have : d.freeStep known w = w := by
      unfold freeStep
      rw [hw]
    rwa [this]
  | cons s pending =>
    rw [freeStep_cons hw]
    split
    · rename_i hs
      have hmem : ∀ x, w.seen.contains x = true ∨ x ∈ w.pending →
          w.seen.contains x = true ∨ x ∈ pending := by
        rintro x (hx | hx)
        · exact .inl hx
        · rw [hw] at hx
          rcases List.mem_cons.1 hx with rfl | hx
          · exact .inl hs
          · exact .inr hx
      exact ⟨hmem a h.start, fun x hx t ht y hy => hmem y (h.next x hx t ht y hy), h.calls⟩
    · obtain ⟨h₁, h₂, h₃, h₄, h₅, -⟩ := @foldl_freeEdge known (d.state s).transitions
        { w with pending, seen := w.seen.insert s }
      generalize (d.state s).transitions.foldl (freeEdge known)
        { w with pending, seen := w.seen.insert s } = w' at h₁ h₂ h₃ h₄ h₅
      have hin : ∀ x, w'.seen.contains x = true ↔ s = x ∨ w.seen.contains x = true := by
        intro x
        rw [h₅]
        simp
      have hmem : ∀ x, w.seen.contains x = true ∨ x ∈ w.pending →
          w'.seen.contains x = true ∨ x ∈ w'.pending := by
        rintro x (hx | hx)
        · exact .inl ((hin x).2 (.inr hx))
        · rw [hw] at hx
          rcases List.mem_cons.1 hx with rfl | hx
          · exact .inl ((hin x).2 (.inl rfl))
          · exact .inr (h₂ x hx)
      refine ⟨hmem a h.start, ?_, ?_⟩
      · intro x hx t ht y hy
        rcases (hin x).1 hx with rfl | hx
        · exact .inr (h₁ t ht y hy)
        · exact hmem y (h.next x hx t ht y hy)
      · intro x hx t ht r follow precedence hk
        rcases (hin x).1 hx with rfl | hx
        · exact h₃ t ht r follow precedence hk
        · exact h₄ r (h.calls x hx t ht r follow precedence hk)

theorem unseenEdges_insert {seen : Std.HashSet StateId} (hs : seen.contains s = false) :
    d.unseenEdges (seen.insert s) + (d.state s).transitions.length ≤ d.unseenEdges seen ∨
      (d.state s).transitions = [] := by
  by_cases hlt : s < d.states.size
  · left
    have hmem : s ∈ (Finset.range d.states.size).filter (fun s => seen.contains s = false) :=
      Finset.mem_filter.2 ⟨Finset.mem_range.2 hlt, hs⟩
    have herase : (Finset.range d.states.size).filter (fun x => (seen.insert s).contains x = false) =
        ((Finset.range d.states.size).filter (fun s => seen.contains s = false)).erase s := by
      ext x
      simp only [Finset.mem_filter, Finset.mem_erase, Std.HashSet.contains_insert,
        Bool.or_eq_false_iff, beq_eq_false_iff_ne]
      constructor
      · rintro ⟨h₁, h₂, h₃⟩
        exact ⟨h₂.symm, h₁, h₃⟩
      · rintro ⟨h₁, h₂, h₃⟩
        exact ⟨h₂, h₁.symm, h₃⟩
    unfold unseenEdges
    rw [herase, Finset.sum_erase_add _ _ hmem]
  · right
    have : d.state s = default := by
      simp [state, Array.getD_eq_getD_getElem?, Array.getElem?_eq_none (Nat.le_of_not_lt hlt)]
    rw [this]
    rfl

theorem unseenEdges_insert_le (seen : Std.HashSet StateId) :
    d.unseenEdges (seen.insert s) ≤ d.unseenEdges seen := by
  refine Finset.sum_le_sum_of_subset fun x hx => ?_
  simp only [Finset.mem_filter, Std.HashSet.contains_insert, Bool.or_eq_false_iff] at hx ⊢
  exact ⟨hx.1, hx.2.2⟩

/-- A walk comes to its end: every edge adds a pending state at most once. -/
theorem Walks.run {a : StateId} {fuel : Nat} (h : Walks d known a w)
    (hfuel : w.pending.length + d.unseenEdges w.seen ≤ fuel) :
    Walks d known a (d.freeRun known fuel w) ∧ (d.freeRun known fuel w).pending = [] := by
  induction fuel generalizing w with
  | zero => exact ⟨h, List.eq_nil_of_length_eq_zero (by rw [freeRun]; omega)⟩
  | succ fuel ih =>
    unfold freeRun
    split
    · rename_i he
      exact ⟨h, List.isEmpty_iff.1 he⟩
    · rename_i he
      refine ih h.step ?_
      cases hw : w.pending with
      | nil => simp [hw] at he
      | cons s pending =>
        rw [hw, List.length_cons] at hfuel
        rw [freeStep_cons hw]
        split
        · dsimp only
          omega
        · rename_i hs
          obtain ⟨-, -, -, -, h₅, h₆⟩ := @foldl_freeEdge known (d.state s).transitions
            { w with pending, seen := w.seen.insert s }
          rw [h₅]
          dsimp only at h₆ ⊢
          rcases unseenEdges_insert (d := d) (by simpa using hs) with hle | hnone
          · omega
          · have := d.unseenEdges_insert_le (s := s) w.seen
            rw [hnone, List.length_nil] at h₆
            rw [hnone, List.foldl_nil]
            dsimp only
            omega

theorem foldl_length_eq (l : List NetworkState) (k : Nat) :
    l.foldl (fun n s => n + s.transitions.length) k =
      k + ∑ i ∈ Finset.range l.length, (l.getD i default).transitions.length := by
  induction l generalizing k with
  | nil => simp
  | cons s l ih =>
    rw [List.foldl_cons, ih, List.length_cons, Finset.sum_range_succ']
    simp only [List.getD_cons_succ, List.getD_cons_zero]
    omega

theorem edgeCount_eq (d : Draft) :
    d.edgeCount = ∑ s ∈ Finset.range d.states.size, (d.state s).transitions.length := by
  rw [edgeCount, ← Array.foldl_toList, foldl_length_eq]
  simp only [Array.length_toList, Nat.zero_add]
  refine Finset.sum_congr rfl fun s _ => ?_
  rw [state, Array.getD_eq_getD_getElem?, List.getD_eq_getElem?_getD, Array.getElem?_toList]

theorem walks_freeWalk (a : StateId) :
    Walks d known a (d.freeWalk known a) ∧ (d.freeWalk known a).pending = [] := by
  refine Walks.run ⟨.inr (.head _), ?_, ?_⟩ ?_
  · simp
  · simp
  · rw [freeBound, edgeCount_eq]
    simp [unseenEdges, Nat.add_comm]

/-- A walk sees all that can be reached. -/
theorem seen_freeWalk {a : StateId} (h : FreeFrom d.state (Known known) a x) :
    (d.freeWalk known a).seen.contains x = true := by
  obtain ⟨hw, hp⟩ := @walks_freeWalk d known a
  induction h with
  | refl =>
    rcases hw.start with h | h
    · exact h
    · simp [hp] at h
  | step _ ht he ih =>
    rcases hw.next _ ih _ ht _ he with h | h
    · exact h
    · simp [hp] at h

/-- The step of a round for one rule. -/
def nullableStep (d : Draft) (known : Array Bool) (r : RuleId) : Array Bool :=
  if known.getD r false then known
  else if (d.freeWalk known (d.rule r).start).seen.contains (d.rule r).stop then known.set! r true
  else known

theorem nullableStep_of_not_seen {r : RuleId}
    (h : (d.freeWalk known (d.rule r).start).seen.contains (d.rule r).stop = false) :
    d.nullableStep known r = known := by
  unfold nullableStep
  rw [h]
  split <;> rfl

theorem known_nullableStep {r c : RuleId} (h : Known known c) : Known (d.nullableStep known r) c := by
  unfold nullableStep
  split
  · exact h
  · split
    · unfold Known at h ⊢
      simp only [Array.getD_eq_getD_getElem?, Array.set!_eq_setIfInBounds,
        Array.getElem?_setIfInBounds] at h ⊢
      split
      · split <;> simp_all
      · exact h
    · exact h

theorem size_nullableStep (r : RuleId) : (d.nullableStep known r).size = known.size := by
  unfold nullableStep
  split
  · rfl
  · split <;> simp

theorem known_foldl (l : List RuleId) {c : RuleId} (h : Known known c) :
    Known (l.foldl d.nullableStep known) c := by
  induction l generalizing known with
  | nil => exact h
  | cons r l ih => exact ih (known_nullableStep h)

theorem size_foldl (l : List RuleId) : (l.foldl d.nullableStep known).size = known.size := by
  induction l generalizing known with
  | nil => rfl
  | cons r l ih => rw [List.foldl_cons, ih, size_nullableStep]

/-- A round that finds nothing new has nothing to find. -/
theorem nullableStep_of_foldl {l : List RuleId} (h : l.foldl d.nullableStep known = known)
    {r : RuleId} (hr : r ∈ l) : d.nullableStep known r = known := by
  induction l with
  | nil => cases hr
  | cons c l ih =>
    have hc : d.nullableStep known c = known := by
      by_contra hne
      have hset : d.nullableStep known c = known.set! c true ∧ ¬ Known known c := by
        unfold nullableStep at hne ⊢
        unfold Known
        split at hne
        · exact absurd rfl hne
        · split at hne <;> simp_all
      by_cases hlt : c < known.size
      · have : Known (d.nullableStep known c) c := by
          rw [hset.1, Known]
          simp [Array.getD_eq_getD_getElem?, hlt]
        have := known_foldl (d := d) l this
        rw [List.foldl_cons] at h
        rw [h] at this
        exact hset.2 this
      · refine hne (hset.1.trans ?_)
        rw [Array.set!_eq_setIfInBounds, Array.setIfInBounds_eq_of_size_le (Nat.le_of_not_lt hlt)]
    rcases List.mem_cons.1 hr with rfl | hr
    · exact hc
    · rw [List.foldl_cons, hc] at h
      exact ih h hr

/-- The rules not known to be nullable. -/
def unknown (known : Array Bool) : Finset RuleId :=
  (Finset.range known.size).filter fun r => known.getD r false = false

theorem card_unknown_lt {known' : Array Bool} (hsize : known'.size = known.size)
    (hmono : ∀ c, Known known c → Known known' c) (hne : known' ≠ known) :
    (unknown known').card < (unknown known).card := by
  have hsub : unknown known' ⊆ unknown known := by
    intro r hr
    simp only [unknown, Finset.mem_filter, hsize] at hr ⊢
    refine ⟨hr.1, ?_⟩
    by_contra hk
    have := hmono r (by simpa [Known] using hk)
    rw [Known, hr.2] at this
    cases this
  refine Finset.card_lt_card (Finset.ssubset_iff_subset_ne.2 ⟨hsub, fun he => hne ?_⟩)
  refine Array.ext hsize fun i h₁ h₂ => ?_
  have := congrArg (i ∈ ·) he
  simp only [unknown, Finset.mem_filter, Finset.mem_range, h₁, h₂, true_and, eq_iff_iff,
    Array.getD_eq_getD_getElem?, Array.getElem?_eq_getElem, Option.getD_some] at this
  cases h : known'[i] <;> cases h' : known[i] <;> simp_all

theorem nullableRound_nullableFrom {fuel : Nat} (h : (unknown known).card < fuel) :
    d.nullableRound (d.nullableFrom fuel known) = d.nullableFrom fuel known ∧
      (d.nullableFrom fuel known).size = known.size := by
  induction fuel generalizing known with
  | zero => cases h
  | succ fuel ih =>
    unfold nullableFrom
    dsimp only
    have hround : d.nullableRound known = (List.range d.rules.size).foldl d.nullableStep known := rfl
    have hsize : (d.nullableRound known).size = known.size := by
      rw [hround, size_foldl]
    split
    · rename_i he
      exact ⟨eq_of_beq he, rfl⟩
    · rename_i he
      have hlt := card_unknown_lt hsize
        (fun c hc => by rw [hround]; exact known_foldl _ hc) (by simpa using he)
      obtain ⟨h₁, h₂⟩ := @ih (d.nullableRound known) (by omega)
      exact ⟨h₁, h₂.trans hsize⟩

/-- A rule whose stop can be reached before any token is known to be nullable. -/
theorem nullable_closed {r : RuleId} (hr : r < d.rules.size)
    (h : FreeFrom d.state (Known d.nullableRules) (d.rule r).start (d.rule r).stop) :
    Known d.nullableRules r := by
  have hcard : (unknown (Array.replicate d.rules.size false)).card < d.rules.size + 1 := by
    refine Nat.lt_succ_of_le (Nat.le_trans (Finset.card_filter_le _ _) ?_)
    simp
  obtain ⟨hround, hsize⟩ := nullableRound_nullableFrom (d := d) hcard
  have hstep := nullableStep_of_foldl (d := d) hround (List.mem_range.2 hr)
  have hseen := seen_freeWalk h
  rw [Array.size_replicate] at hsize
  unfold nullableRules at hseen ⊢
  generalize d.nullableFrom (d.rules.size + 1) (Array.replicate d.rules.size false) = known at *
  by_contra hk
  unfold nullableStep at hstep
  unfold Known at hk
  rw [if_neg hk, if_pos hseen] at hstep
  rw [← hstep] at hk
  simp [Array.getD_eq_getD_getElem?, hsize, hr] at hk

/-- If no rule can be passed while no rule is taken for nullable, none is nullable. -/
theorem nullableRules_of_stop {n : Nat} (hn : d.rules.size = n) (h : ∀ r < n,
    (d.freeWalk (Array.replicate n false) (d.rule r).start).seen.contains (d.rule r).stop = false) :
    d.nullableRules = Array.replicate n false := by
  have hstep : ∀ r < n, d.nullableStep (Array.replicate n false) r = Array.replicate n false :=
    fun r hr => nullableStep_of_not_seen (h r hr)
  have hfold : ∀ rules : List RuleId, (∀ r ∈ rules, r < n) →
      rules.foldl d.nullableStep (Array.replicate n false) = Array.replicate n false := by
    intro rules hlt
    induction rules with
    | nil => rfl
    | cons r rules ih =>
      rw [List.foldl_cons, hstep r (hlt r List.mem_cons_self)]
      exact ih fun r hr => hlt r (List.mem_cons_of_mem _ hr)
  have hround : d.nullableRound (Array.replicate n false) = Array.replicate n false :=
    hfold (List.range d.rules.size) fun r hr => hn ▸ List.mem_range.1 hr
  unfold nullableRules nullableFrom
  dsimp only
  rw [hn, hround, if_pos (by simp)]

/-- The calls of `a` lead to `b`. -/
def Leads (calls : Array (List RuleId)) (a b : RuleId) : Prop := b ∈ calls.getD a []

/-- Finished rules lead to finished rules, and not back to themselves. -/
structure Searched (calls : Array (List RuleId)) (search : CycleSearch) : Prop where
  closed : ∀ r, search.finished.contains r = true → ∀ c, Leads calls r c →
    search.finished.contains c = true
  acyclic : ∀ r, search.finished.contains r = true → ¬ Relation.TransGen (Leads calls) r r

variable {calls : Array (List RuleId)} {search : CycleSearch} {path : List RuleId} {r : RuleId}
  {fuel : Nat}

theorem Searched.finished_of_reach (h : Searched calls search) {a b : RuleId}
    (ha : search.finished.contains a = true) (hab : Relation.ReflTransGen (Leads calls) a b) :
    search.finished.contains b = true := by
  induction hab with
  | refl => exact ha
  | tail _ hc ih => exact h.closed _ ih _ hc

theorem Searched.insert (h : Searched calls search)
    (hr : ∀ c, Leads calls r c → search.finished.contains c = true) :
    Searched calls { search with finished := search.finished.insert r } := by
  cases hin : search.finished.contains r with
  | true =>
    have hsame : ∀ x, (search.finished.insert r).contains x = search.finished.contains x := by
      intro x
      rw [Std.HashSet.contains_insert]
      by_cases hx : r = x
      · subst hx
        simp [hin]
      · simp [hx]
    refine ⟨?_, ?_⟩
    · intro a ha c hc
      rw [hsame] at ha ⊢
      exact h.closed a ha c hc
    · intro a ha
      rw [hsame] at ha
      exact h.acyclic a ha
  | false =>
    have hmem : ∀ x, (search.finished.insert r).contains x = true ↔
        r = x ∨ search.finished.contains x = true := by
      intro x
      simp
    refine ⟨?_, ?_⟩
    · intro a ha c hc
      rw [hmem] at ha ⊢
      rcases ha with rfl | ha
      · exact .inr (hr c hc)
      · exact .inr (h.closed a ha c hc)
    · intro a ha hcycle
      rcases (hmem a).1 ha with rfl | ha
      · -- a cycle would stay among the rules finished before
        obtain ⟨c, hc, hback⟩ := Relation.TransGen.head'_iff.1 hcycle
        have := h.finished_of_reach (hr c hc) hback
        rw [hin] at this
        cases this
      · exact h.acyclic a ha hcycle

theorem isSome_findCycle (h : search.cycle.isSome = true) :
    (findCycle calls fuel path r search).cycle.isSome = true := by
  cases fuel with
  | zero => exact h
  | succ fuel =>
    unfold findCycle
    rw [if_pos (by simp [h])]
    exact h

/-- A visit of `r` from `s` to `s'` has finished it and kept what was finished. -/
structure Visits (calls : Array (List RuleId)) (r : RuleId) (s s' : CycleSearch) : Prop where
  searched : Searched calls s'
  kept : ∀ c, s.finished.contains c = true → s'.finished.contains c = true
  finished : s'.finished.contains r = true

/-- Visits in a row finish all of their rules, if none closes a cycle. -/
theorem visits_foldl {visit : CycleSearch → RuleId → CycleSearch} {l : List RuleId}
    (hsome : ∀ s c, s.cycle.isSome = true → (visit s c).cycle.isSome = true)
    (hvisit : ∀ c ∈ l, ∀ s, Searched calls s → (visit s c).cycle = none →
      Visits calls c s (visit s c))
    (h : Searched calls search) (hnone : (l.foldl visit search).cycle = none) :
    Searched calls (l.foldl visit search) ∧
      (∀ c, search.finished.contains c = true →
        (l.foldl visit search).finished.contains c = true) ∧
      ∀ c ∈ l, (l.foldl visit search).finished.contains c = true := by
  induction l generalizing search with
  | nil => exact ⟨h, fun _ hc => hc, fun _ hc => absurd hc (by simp)⟩
  | cons c l ih =>
    have hkeep : ∀ (l : List RuleId) s, s.cycle.isSome = true →
        (l.foldl visit s).cycle.isSome = true := by
      intro l
      induction l with
      | nil => exact fun s hs => hs
      | cons c l ihl => exact fun s hs => ihl _ (hsome s c hs)
    rw [List.foldl_cons] at hnone ⊢
    have hfirst : (visit search c).cycle = none := by
      by_contra hne
      have := hkeep l _ (Option.isSome_iff_ne_none.2 hne)
      rw [hnone] at this
      cases this
    have hv := hvisit c (.head _) search h hfirst
    obtain ⟨j₁, j₂, j₃⟩ := ih (fun c hc => hvisit c (.tail _ hc)) hv.searched hnone
    refine ⟨j₁, fun a ha => j₂ a (hv.kept a ha), fun a ha => ?_⟩
    rcases List.mem_cons.1 ha with rfl | ha
    · exact j₂ _ hv.finished
    · exact j₃ a ha

/-- The path of a search: distinct rules, all of which make calls. -/
structure OnPath (calls : Array (List RuleId)) (path : List RuleId) : Prop where
  nodup : path.Nodup
  lt : ∀ p ∈ path, p < calls.size

/-- A search that closes no cycle has finished the rule it began with. -/
theorem visits_findCycle (h : Searched calls search) (hp : OnPath calls path)
    (hfuel : calls.size + 2 ≤ fuel + path.length)
    (hnone : (findCycle calls fuel path r search).cycle = none) :
    Visits calls r search (findCycle calls fuel path r search) := by
  induction fuel generalizing path r search with
  | zero =>
    have hle : path.length ≤ calls.size := by
      have := (List.toFinset_card_of_nodup hp.nodup).symm.trans_le
        (Finset.card_le_card (t := Finset.range calls.size) fun p hp' =>
          Finset.mem_range.2 (hp.lt p (List.mem_toFinset.1 hp')))
      rwa [Finset.card_range] at this
    omega
  | succ fuel ih =>
    unfold findCycle at hnone ⊢
    cases hcycle : search.cycle with
    | some cycle =>
      rw [if_pos (by simp [hcycle]), hcycle] at hnone
      cases hnone
    | none =>
      cases hfin : search.finished.contains r with
      | true =>
        rw [if_pos (by simp)]
        exact ⟨h, fun c hc => hc, hfin⟩
      | false =>
        have hgo : ¬ (search.cycle.isSome || search.finished.contains r) = true := by
          rw [hcycle, hfin]
          simp
        rw [if_neg hgo] at hnone
        rw [if_neg (by simp)]
        cases hpath : path.contains r with
        | true =>
          rw [if_pos hpath] at hnone
          cases hnone
        | false =>
          have hnew : ¬ path.contains r = true := by
            rw [hpath]
            simp
          rw [if_neg hnew] at hnone
          rw [if_neg (by simp)]
          dsimp only at hnone ⊢
          obtain ⟨h₁, h₂, h₃⟩ := @visits_foldl calls search
            (fun search c => findCycle calls fuel (r :: path) c search) (calls.getD r [])
            (fun _ _ => isSome_findCycle) (fun c hc s hs hn => by
              have hrlt : r < calls.size := by
                by_contra hlt
                rw [Array.getD_eq_getD_getElem?,
                  Array.getElem?_eq_none (Nat.le_of_not_lt hlt)] at hc
                cases hc
              refine ih hs ⟨List.nodup_cons.2 ⟨by simpa using hpath, hp.nodup⟩, ?_⟩
                (by rw [List.length_cons]; omega) hn
              intro p hp'
              rcases List.mem_cons.1 hp' with rfl | hp'
              · exact hrlt
              · exact hp.lt p hp') h (by
                by_contra hne
                rw [if_pos (Option.isSome_iff_ne_none.2 hne)] at hnone
                exact hne hnone)
          split at hnone
          · rename_i hsome
            rw [hnone] at hsome
            cases hsome
          · rename_i hsome
            rw [if_neg hsome]
            refine ⟨h₁.insert h₃, fun c hc => ?_, ?_⟩
            · rw [Std.HashSet.contains_insert, h₂ c hc, Bool.or_true]
            · simp

/-- Calls before any token: from a rule to those that it can call before it takes one. -/
def LeftCalls (d : Draft) (a b : RuleId) : Prop :=
  a < d.rules.size ∧ ∃ s, FreeFrom d.state (Known d.nullableRules) (d.rule a).start s ∧
    ∃ t ∈ (d.state s).transitions, ∃ follow precedence, t.kind = .rule b follow precedence

theorem leads_of_leftCalls {a b : RuleId} (h : d.LeftCalls a b) : Leads d.leftCalls a b := by
  obtain ⟨ha, s, hs, t, ht, follow, precedence, hk⟩ := h
  obtain ⟨hw, -⟩ := @walks_freeWalk d d.nullableRules (d.rule a).start
  have := hw.calls s (seen_freeWalk hs) t ht b follow precedence hk
  have hrule : d.rule a = d.rules[a] := by simp [rule, Array.getD_eq_getD_getElem?, ha]
  rw [hrule] at this
  simpa [Leads, leftCalls, Array.getD_eq_getD_getElem?, ha] using this

/-- Without left recursion no rule comes back to itself by calls before any token. -/
theorem not_leftCalls (h : d.leftRecursion? = none) (r : RuleId) :
    ¬ Relation.TransGen d.LeftCalls r r := by
  have hsize : d.leftCalls.size = d.rules.size := by simp [leftCalls]
  obtain ⟨hs, -, hin⟩ := @visits_foldl d.leftCalls {}
    (fun search r => findCycle d.leftCalls (d.rules.size + 2) [] r search) (List.range d.rules.size)
    (fun _ _ => isSome_findCycle) (fun c _ s hs hn =>
      visits_findCycle hs ⟨.nil, by simp⟩ (by rw [hsize, List.length_nil]) hn) ⟨by simp, by simp⟩ h
  intro hcycle
  have hcycle' : Relation.TransGen (Leads d.leftCalls) r r := by
    refine Relation.TransGen.mono ?_ _ _ hcycle
    exact fun _ _ hab => leads_of_leftCalls hab
  obtain ⟨c, ⟨hr, -⟩, -⟩ := Relation.TransGen.head'_iff.1 hcycle
  exact hs.acyclic r (hin r (List.mem_range.2 hr)) hcycle'

end Draft

end AdaptiveParsing
