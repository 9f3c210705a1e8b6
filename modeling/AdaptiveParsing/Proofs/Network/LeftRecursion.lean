import AdaptiveParsing.Proofs.Network.Compiled
import AdaptiveParsing.Proofs.Network.LeftCalls
import Mathlib
/-!
The search for left recursion is exact. What a walk has seen it could reach (`Draft.treads_freeWalk`), a
rule that is taken for nullable can be passed (`Draft.passable_nullableRules`), and a cycle that the search
reports is one (`Draft.finds_findCycle`). With the other half, that nothing is missed, a draft without
other faults is refused for left recursion just when some rule comes back to itself before any token, and
the rules named are such a way back. Main statement: `Grammar.leftRecursion_iff`.
-/

namespace AdaptiveParsing

namespace Draft

/-- A way from a state that takes no token: along the edges of its rule, and past a call if there is such
a way through the whole of the rule called. -/
inductive Passes (d : Draft) : StateId → StateId → Prop
  | refl (s : StateId) : Passes d s s
  | edge {a s : StateId} {t : Transition} (h : Passes d a s) (ht : t ∈ (d.state s).transitions)
      (hc : t.call? = none) (hk : t.isConsuming = false) : Passes d a t.target
  | call {a s follow : StateId} {t : Transition} {r : RuleId} {precedence : Int} (h : Passes d a s)
      (ht : t ∈ (d.state s).transitions) (hk : t.kind = .rule r follow precedence)
      (hr : Passes d (d.rule r).start (d.rule r).stop) : Passes d a follow

/-- Rule `a` comes to a call of rule `b` before it takes a token. -/
def BeginsWith (d : Draft) (a b : RuleId) : Prop :=
  a < d.rules.size ∧ ∃ s, d.Passes (d.rule a).start s ∧
    ∃ t ∈ (d.state s).transitions, ∃ follow precedence, t.kind = .rule b follow precedence

variable {d : Draft} {known : Array Bool} {w : FreeWalk} {a s x : StateId} {r : RuleId}

/-- The rules taken for nullable can be passed. -/
def Passable (d : Draft) (known : Array Bool) : Prop :=
  ∀ r, Known known r → d.Passes (d.rule r).start (d.rule r).stop

theorem Passable.passes (h : d.Passable known) (hf : FreeFrom d.state (Known known) a x) :
    d.Passes a x := by
  induction hf with
  | refl => exact .refl a
  | step _ ht he ih =>
    cases he with
    | edge hc hk => exact .edge ih ht hc hk
    | call hk hr => exact .call ih ht hk (h _ hr)

/-- A way that takes no token is one past nullable rules. -/
theorem Sound.freeFrom (hd : d.Sound) (h : d.Passes a x) :
    FreeFrom d.state (Known d.nullableRules) a x := by
  induction h with
  | refl => exact .refl
  | edge _ ht hc hk ih => exact ih.step ht (.edge hc hk)
  | call _ ht hk _ ih ih_rule => exact ih.step ht (.call hk (nullable_closed (hd.call ht hk).1 ih_rule))

/-- A walk underway is only where it could come to. -/
structure Treads (d : Draft) (known : Array Bool) (a : StateId) (w : FreeWalk) : Prop where
  seen : ∀ x, w.seen.contains x = true → FreeFrom d.state (Known known) a x
  pending : ∀ x ∈ w.pending, FreeFrom d.state (Known known) a x
  calls : ∀ r ∈ w.calls, ∃ s, FreeFrom d.state (Known known) a s ∧
    ∃ t ∈ (d.state s).transitions, ∃ follow precedence, t.kind = .rule r follow precedence

theorem Treads.edge (h : Treads d known a w) (hs : FreeFrom d.state (Known known) a s) {t : Transition}
    (ht : t ∈ (d.state s).transitions) : Treads d known a (freeEdge known w t) := by
  unfold freeEdge
  cases hk : t.kind with
  | rule r follow precedence =>
    refine ⟨h.seen, ?_, ?_⟩
    · intro x hx
      dsimp only at hx
      split at hx
      · rename_i hknown
        rcases List.mem_cons.1 hx with rfl | hx
        · exact hs.step ht (.call hk hknown)
        · exact h.pending x hx
      · exact h.pending x hx
    · intro c hc
      rcases List.mem_cons.1 hc with rfl | hc
      · exact ⟨s, hs, t, ht, follow, precedence, hk⟩
      · exact h.calls c hc
  | atom _ | range _ _ | set _ | notSet _ | wildcard => exact h
  | epsilon | predicate _ _ _ | precedence _ | action _ _ =>
    refine ⟨h.seen, ?_, h.calls⟩
    intro x hx
    rcases List.mem_cons.1 hx with rfl | hx
    · refine hs.step ht (.edge ?_ ?_)
      · simp [Transition.call?, hk]
      · simp [Transition.isConsuming, EdgeKind.isConsuming, hk]
    · exact h.pending x hx

theorem Treads.edges (h : Treads d known a w) (hs : FreeFrom d.state (Known known) a s)
    (l : List Transition) (hl : ∀ t ∈ l, t ∈ (d.state s).transitions) :
    Treads d known a (l.foldl (freeEdge known) w) := by
  induction l generalizing w with
  | nil => exact h
  | cons t l ih => exact ih (h.edge hs (hl t (.head _))) fun u hu => hl u (.tail _ hu)

theorem Treads.step (h : Treads d known a w) : Treads d known a (d.freeStep known w) := by
  cases hw : w.pending with
  | nil =>
    unfold freeStep
    rw [hw]
    exact h
  | cons s pending =>
    rw [freeStep_cons hw]
    have hs : FreeFrom d.state (Known known) a s := h.pending s (by simp [hw])
    have hpending : ∀ x ∈ pending, FreeFrom d.state (Known known) a x := by
      intro x hx
      exact h.pending x (by simp [hw, hx])
    split
    · exact ⟨h.seen, hpending, h.calls⟩
    · refine Treads.edges (w := { w with pending, seen := w.seen.insert s }) ⟨?_, hpending, h.calls⟩ hs
        _ fun t ht => ht
      intro x hx
      rw [Std.HashSet.contains_insert, Bool.or_eq_true, beq_iff_eq] at hx
      rcases hx with rfl | hx
      · exact hs
      · exact h.seen x hx

theorem Treads.run (h : Treads d known a w) (fuel : Nat) :
    Treads d known a (d.freeRun known fuel w) := by
  induction fuel generalizing w with
  | zero => exact h
  | succ fuel ih =>
    unfold freeRun
    split
    · exact h
    · exact ih h.step

/-- A walk sees nothing else than what can be reached. -/
theorem treads_freeWalk (a : StateId) : Treads d known a (d.freeWalk known a) := by
  refine Treads.run ⟨?_, ?_, ?_⟩ _
  · simp
  · intro x hx
    rw [List.mem_singleton.1 hx]
    exact .refl
  · simp

/-- A rule is taken for nullable only if it can be passed. -/
theorem Passable.nullableStep (h : d.Passable known) (r : RuleId) :
    d.Passable (d.nullableStep known r) := by
  unfold Draft.nullableStep
  split
  · exact h
  · split
    · rename_i hseen
      intro c hc
      by_cases he : c = r
      · subst he
        exact h.passes ((treads_freeWalk _).seen _ hseen)
      · refine h c ?_
        unfold Known at hc ⊢
        rwa [Array.set!_eq_setIfInBounds, Array.getD_eq_getD_getElem?,
          Array.getElem?_setIfInBounds_ne (Ne.symm he), ← Array.getD_eq_getD_getElem?] at hc
    · exact h

theorem Passable.foldl (h : d.Passable known) (l : List RuleId) :
    d.Passable (l.foldl d.nullableStep known) := by
  induction l generalizing known with
  | nil => exact h
  | cons r l ih => exact ih (h.nullableStep r)

theorem Passable.nullableFrom (h : d.Passable known) (fuel : Nat) :
    d.Passable (d.nullableFrom fuel known) := by
  induction fuel generalizing known with
  | zero => exact h
  | succ fuel ih =>
    unfold Draft.nullableFrom
    dsimp only
    split
    · exact h
    · exact ih (h.foldl (List.range d.rules.size))

/-- The nullable rules can be passed without a token. -/
theorem passable_nullableRules (d : Draft) : d.Passable d.nullableRules := by
  refine Passable.nullableFrom ?_ _
  intro r hr
  unfold Known at hr
  rw [Array.getD_eq_getD_getElem?, Array.getElem?_replicate] at hr
  split at hr <;> cases hr

theorem leads_leftCalls_iff (hd : d.Sound) {a b : RuleId} :
    Leads d.leftCalls a b ↔ d.BeginsWith a b := by
  constructor
  · intro h
    unfold Leads leftCalls at h
    by_cases ha : a < d.rules.size
    · have hrule : d.rules[a] = d.rule a := by simp [rule, Array.getD_eq_getD_getElem?, ha]
      have hcall : b ∈ (d.freeWalk d.nullableRules (d.rule a).start).calls := by
        simpa [Array.getD_eq_getD_getElem?, ha, hrule] using h
      obtain ⟨s, hs, hcalls⟩ := (treads_freeWalk _).calls b hcall
      exact ⟨ha, s, d.passable_nullableRules.passes hs, hcalls⟩
    · simp [Array.getD_eq_getD_getElem?, ha] at h
  · rintro ⟨ha, s, hs, hcalls⟩
    exact leads_of_leftCalls ⟨ha, s, hd.freeFrom hs, hcalls⟩

/-- Rules that lead around, as the search names them: the first is named again at the end. -/
def Circular (leads : RuleId → RuleId → Prop) (rules : List RuleId) : Prop :=
  ∃ r between, rules = r :: between ++ [r] ∧ rules.IsChain leads

variable {calls : Array (List RuleId)} {path rules : List RuleId} {search : CycleSearch} {fuel : Nat}

/-- A rule met again on the path to it closes a cycle. -/
theorem circular_of_contains (h : (r :: path).IsChain fun a b => Leads calls b a)
    (hr : path.contains r = true) :
    Circular (Leads calls) (r :: (path.takeWhile (· != r)).reverse ++ [r]) := by
  obtain ⟨before, rest, rfl, hnew⟩ := List.eq_append_cons_of_mem (a := r) (by simpa using hr)
  have htake : (before ++ r :: rest).takeWhile (· != r) = before := by
    rw [List.takeWhile_append_of_pos, List.takeWhile_cons_of_neg (by simp), List.append_nil]
    intro c hc
    rw [bne_iff_ne]
    rintro rfl
    exact hnew hc
  rw [htake]
  refine ⟨r, before.reverse, rfl, ?_⟩
  rw [← List.cons_append, List.isChain_split] at h
  have hreverse : r :: before.reverse ++ [r] = (r :: before ++ [r]).reverse := by simp
  rw [hreverse, List.isChain_reverse]
  exact h.1

/-- The cycle that a search has found is one. -/
def Finds (calls : Array (List RuleId)) (search : CycleSearch) : Prop :=
  ∀ rules, search.cycle = some rules → Circular (Leads calls) rules

theorem finds_foldl {visit : CycleSearch → RuleId → CycleSearch} {l : List RuleId}
    (hvisit : ∀ c ∈ l, ∀ s, Finds calls s → Finds calls (visit s c)) (h : Finds calls search) :
    Finds calls (l.foldl visit search) := by
  induction l generalizing search with
  | nil => exact h
  | cons c l ih => exact ih (fun c hc => hvisit c (.tail _ hc)) (hvisit c (.head _) search h)

/-- A search that goes on from a path of calls finds only cycles. -/
theorem finds_findCycle (hpath : (r :: path).IsChain fun a b => Leads calls b a)
    (h : Finds calls search) : Finds calls (findCycle calls fuel path r search) := by
  induction fuel generalizing path r search with
  | zero => exact h
  | succ fuel ih =>
    unfold findCycle
    split
    · exact h
    · split
      · rename_i hcontains
        intro rules hrules
        obtain rfl := Option.some.inj hrules
        exact circular_of_contains hpath hcontains
      · have hfold := @finds_foldl calls search
          (fun search c => findCycle calls fuel (r :: path) c search) (calls.getD r [])
          (fun c hc s hs => ih (.cons_cons hc hpath) hs) h
        dsimp only
        split <;> exact hfold

theorem circular_leftRecursion? (h : d.leftRecursion? = some rules) :
    Circular (Leads d.leftCalls) rules := by
  have hempty : Finds d.leftCalls {} := by
    intro rules hrules
    cases hrules
  exact finds_foldl (fun c _ s hs => finds_findCycle (.singleton c) hs) hempty rules h

/-- Circular rules lead back to the first of them. -/
theorem Circular.transGen {leads : RuleId → RuleId → Prop} (h : Circular leads rules) :
    ∃ r, Relation.TransGen leads r r := by
  obtain ⟨r, between, rfl, hchain⟩ := h
  have htrans : (r :: (between ++ [r])).IsChain (Relation.TransGen leads) :=
    hchain.imp fun _ _ => Relation.TransGen.single
  exact ⟨r, htrans.rel_cons (by simp)⟩

/-- A draft without other faults has left recursion just if some rule comes back to itself before any
token, and the rules that are named show how. -/
theorem leftRecursion?_iff (hd : d.Sound) :
    ((∃ rules, d.leftRecursion? = some rules) ↔ ∃ r, Relation.TransGen d.BeginsWith r r) ∧
      ∀ rules, d.leftRecursion? = some rules → Circular d.BeginsWith rules := by
  have hleads : Leads d.leftCalls = d.BeginsWith := by
    funext a b
    exact propext (leads_leftCalls_iff hd)
  have hcircular : ∀ rules, d.leftRecursion? = some rules → Circular d.BeginsWith rules := by
    intro rules hrules
    rw [← hleads]
    exact circular_leftRecursion? hrules
  refine ⟨⟨fun ⟨rules, hrules⟩ => (hcircular rules hrules).transGen, ?_⟩, hcircular⟩
  rintro ⟨r, hcycle⟩
  by_contra hnone
  refine not_leftCalls (Option.eq_none_iff_forall_ne_some.2 fun rules h => hnone ⟨rules, h⟩) r ?_
  refine Relation.TransGen.mono ?_ _ _ hcycle
  rintro a b ⟨ha, s, hs, hcalls⟩
  exact ⟨ha, s, hd.freeFrom hs, hcalls⟩

end Draft

/-- A grammar whose draft has no other fault is refused for left recursion just if some rule comes to a
call of itself before it takes a token. The rules that are named then are such a way: the first is the
last, and each comes to a call of the next. -/
theorem Grammar.leftRecursion_iff {g : Grammar} {d : Draft} (hg : g.draft = .ok d) (hd : d.Sound) :
    ((∃ names, g.compile = .error (.leftRecursion names)) ↔
        ∃ r, Relation.TransGen d.BeginsWith r r) ∧
      ∀ names, g.compile = .error (.leftRecursion names) →
        ∃ r between, names = (r :: between ++ [r]).map (fun r => (d.rule r).name) ∧
          (r :: between ++ [r]).IsChain d.BeginsWith := by
  obtain ⟨hiff, hcircular⟩ := Draft.leftRecursion?_iff hd
  have hcompile : ∀ names, g.compile = .error (.leftRecursion names) ↔
      ∃ rules, d.leftRecursion? = some rules ∧ names = rules.map fun r => (d.rule r).name := by
    intro names
    unfold compile Draft.build
    rw [hg]
    dsimp only [bind, Except.bind]
    rw [hd.check_eq]
    cases hleft : d.leftRecursion? with
    | none => exact ⟨nofun, fun ⟨_, h, _⟩ => nomatch h⟩
    | some rules =>
      constructor
      · intro h
        cases h
        exact ⟨rules, rfl, rfl⟩
      · rintro ⟨_, h, rfl⟩
        cases h
        rfl
  refine ⟨Iff.trans ?_ hiff, ?_⟩
  · constructor
    · rintro ⟨names, h⟩
      obtain ⟨rules, hrules, -⟩ := (hcompile names).1 h
      exact ⟨rules, hrules⟩
    · rintro ⟨rules, hrules⟩
      exact ⟨_, (hcompile _).2 ⟨rules, hrules, rfl⟩⟩
  · intro names h
    obtain ⟨rules, hrules, rfl⟩ := (hcompile names).1 h
    obtain ⟨r, between, rfl, hchain⟩ := hcircular rules hrules
    exact ⟨r, between, rfl, hchain⟩

/-- `a` is `n` and `b`, `n` is nothing, and `b` is `a` and X. -/
def roundabout : Grammar :=
  let (x, g) := ({} : Grammar).addToken "X"
  let (a, g) := g.addRule "a"
  let (n, g) := g.addRule "n"
  let (b, g) := g.addRule "b"
  ((g.define a (.plain (.seq [.rule n, .rule b]))).define n (.plain .epsilon)).define b
    (.plain (.seq [.rule a, .token x]))

/-- The draft of `roundabout`, its states listed rule by rule after the starts and the stops. -/
def roundaboutDraft : Draft where
  states := #[
    { kind := .ruleStart, rule := 0, transitions := [.epsilon 6] }, { kind := .ruleStop, rule := 0 },
    { kind := .ruleStart, rule := 1, transitions := [.epsilon 10] }, { kind := .ruleStop, rule := 1 },
    { kind := .ruleStart, rule := 2, transitions := [.epsilon 12] }, { kind := .ruleStop, rule := 2 },
    { kind := .basic, rule := 0, transitions := [⟨2, .rule 1 7 0⟩] },
    { kind := .basic, rule := 0, transitions := [.epsilon 8] },
    { kind := .basic, rule := 0, transitions := [⟨4, .rule 2 9 0⟩] },
    { kind := .basic, rule := 0, transitions := [.epsilon 1] },
    { kind := .basic, rule := 1, transitions := [.epsilon 11] },
    { kind := .basic, rule := 1, transitions := [.epsilon 3] },
    { kind := .basic, rule := 2, transitions := [⟨0, .rule 0 13 0⟩] },
    { kind := .basic, rule := 2, transitions := [.epsilon 14] },
    { kind := .basic, rule := 2, transitions := [⟨15, .atom 1⟩] },
    { kind := .basic, rule := 2, transitions := [.epsilon 5] }]
  rules := #[
    { name := "a", start := 0, stop := 1, defined := true },
    { name := "n", start := 2, stop := 3, defined := true },
    { name := "b", start := 4, stop := 5, defined := true }]
  maxType := 1

theorem draft_roundabout : roundabout.draft = .ok roundaboutDraft := by cbv

theorem sound_roundaboutDraft : roundaboutDraft.Sound := by
  refine ⟨forM_eq_ok_iff.1 ?_, Draft.forM_checkState_iff.1 ?_⟩
  · rfl
  · rfl

/-- Past `n`, rule `a` comes to `b`, which begins with `a`. -/
theorem transGen_roundaboutDraft : Relation.TransGen roundaboutDraft.BeginsWith 0 0 := by
  have hstep : ∀ {a s x}, roundaboutDraft.Passes a s → .epsilon x ∈ (roundaboutDraft.state s).transitions →
      roundaboutDraft.Passes a x := fun h ht => .edge h ht rfl rfl
  have hn : roundaboutDraft.Passes 2 3 :=
    hstep (hstep (hstep (.refl 2) (x := 10) (.head _)) (x := 11) (.head _)) (.head _)
  have ha : roundaboutDraft.Passes 0 8 := by
    refine hstep (s := 7) (.call (s := 6) ?_ (.head _) rfl hn) (.head _)
    exact hstep (.refl 0) (.head _)
  have hb : roundaboutDraft.Passes 4 12 := hstep (.refl 4) (.head _)
  have hab : roundaboutDraft.BeginsWith 0 2 := ⟨by decide, 8, ha, _, .head _, 9, 0, rfl⟩
  have hba : roundaboutDraft.BeginsWith 2 0 := ⟨by decide, 12, hb, _, .head _, 13, 0, rfl⟩
  exact .tail (.single hab) hba

theorem leftRecursion_roundabout : ∃ names, roundabout.compile = .error (.leftRecursion names) :=
  (Grammar.leftRecursion_iff draft_roundabout sound_roundaboutDraft).1.2 ⟨0, transGen_roundaboutDraft⟩

end AdaptiveParsing
