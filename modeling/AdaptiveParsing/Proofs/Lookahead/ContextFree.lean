import AdaptiveParsing.Lookahead.Predict
import Mathlib
/-!
Lookahead without the callers depends on the network and the floor alone, as long as no predicate is
asked. Main statements: the sets reached from one set by two simulations of a network are equal
unless predicates were asked (`reach_eq`), and so are the sets a decision starts with (`startSet_eq`).
A network without predicates asks none (`predicated_reach_of_free`).
-/

namespace AdaptiveParsing

/-- The edge is a condition of the user's. -/
def EdgeKind.isPredicate : EdgeKind → Bool
  | predicate _ _ _ => true
  | _ => false

theorem ConfigSet.predicated_ofList (cs : List Config) (p : Bool) :
    (ConfigSet.ofList cs p).predicated = p := rfl

theorem ConfigSet.predicated_filterStates (s : ConfigSet) (keep : StateId → Bool) :
    (s.filterStates keep).predicated = s.predicated := rfl

theorem ConfigSet.predicated_filterPrecedence (s : ConfigSet) :
    s.filterPrecedence.predicated = s.predicated := rfl

/-- No edge of the network is a condition of the user's. -/
def Network.PredicateFree (n : Network) : Prop :=
  ∀ s ∈ n.states, ∀ t ∈ s.transitions, t.kind.isPredicate = false

instance (n : Network) : Decidable n.PredicateFree := by
  unfold Network.PredicateFree; infer_instance

theorem Network.mem_states_of_edge {n : Network} {s : StateId} {t : Transition}
    (ht : t ∈ (n.state s).transitions) : ∃ here ∈ n.states, t ∈ here.transitions := by
  unfold Network.state at ht
  rw [Array.getD_eq_getD_getElem?] at ht
  cases hs : n.states[s]? with
  | none =>
    rw [hs] at ht
    cases ht
  | some here =>
    rw [hs] at ht
    exact ⟨here, Array.mem_of_getElem? hs, ht⟩

theorem Network.PredicateFree.isPredicate {n : Network} (h : n.PredicateFree) {s : StateId}
    {t : Transition} (ht : t ∈ (n.state s).transitions) : t.kind.isPredicate = false := by
  obtain ⟨here, hs, ht⟩ := mem_states_of_edge ht
  exact h here hs t ht

theorem Network.PredicateFree.asks {n : Network} (h : n.PredicateFree) {s : StateId} {t : Transition}
    (ht : t ∈ (n.state s).transitions) (k : ConfigKey) : k.asks t.kind = false := by
  have hp := h.isPredicate ht
  cases hk : t.kind <;> simp_all [ConfigKey.asks, EdgeKind.isPredicate]

namespace Simulation

variable {sim sim' : Simulation} {c : Config} {t : Transition} {w : Closure} {set : ConfigSet}
  {fuel : Nat} {seeds : List Config} {asked full : Bool} {d : DecisionId}

theorem follow?_eq (sim sim' : Simulation) (h : c.key.asks t.kind = false) : sim.follow? c t = sim'.follow? c t := by
  unfold follow?
  split <;> simp_all

theorem filterMap_follow?_eq (sim sim' : Simulation) {l : List Transition}
    (h : (l.any fun t => c.key.asks t.kind) = false) :
    l.filterMap (sim.follow? c) = l.filterMap (sim'.follow? c) := by
  induction l with
  | nil => rfl
  | cons t l ih =>
    rw [List.any_cons, Bool.or_eq_false_iff] at h
    rw [List.filterMap_cons, List.filterMap_cons, ih h.2, follow?_eq sim sim' h.1]

theorem leave_eq (hn : sim.network = sim'.network) (rule : RuleId) :
    sim.leave false c rule = sim'.leave false c rule := by
  simp [leave, unknownReturns, hn]

/-- At the end of a rule, outside its own calls, a configuration goes on at each return of the rule, with
floor zero. -/
theorem exists_mem_leave {rule : RuleId} {back : StateId} (hstack : c.key.stack = [])
    (hback : back ∈ sim.network.followStates rule) :
    ∃ next key, sim.leave false c rule = .inl next ∧ { c with key } ∈ next ∧ key.state = back ∧
      key.precedence = 0 ∧ key.stack = [] := by
  have hmem : ∃ key ∈ sim.unknownReturns rule, key.state = back ∧ key.precedence = 0 ∧ key.stack = [] :=
    ⟨_, List.mem_map.2 ⟨back, hback, rfl⟩, rfl, rfl, rfl⟩
  obtain ⟨key, hkey, hspec⟩ := hmem
  unfold leave
  simp only [hstack, Bool.false_eq_true, if_false]
  cases hl : sim.unknownReturns rule with
  | nil =>
    rw [hl] at hkey
    cases hkey
  | cons first rest => exact ⟨_, key, rfl, List.mem_map.2 ⟨key, hl ▸ hkey, rfl⟩, hspec⟩

theorem closureStep_eq (hn : sim.network = sim'.network)
    (h : (sim.closureStep false w).predicated = false) :
    sim.closureStep false w = sim'.closureStep false w := by
  unfold closureStep at h ⊢
  cases hp : w.pending with
  | nil => rfl
  | cons c pending =>
    simp only [hp, ← hn, ← leave_eq hn] at h ⊢
    split
    · rfl
    · split
      · rfl
      · split
        · rfl
        · rename_i hseen hstop hcons
          simp only [hseen, hstop, hcons, Bool.false_eq_true, if_false, Bool.or_eq_false_iff] at h
          rw [filterMap_follow?_eq sim sim' h.2]

/-- Once a predicate was asked, that is not forgotten. -/
theorem predicated_closureStep (h : w.predicated = true) :
    (sim.closureStep full w).predicated = true := by
  unfold closureStep
  split
  · exact h
  · split
    · exact h
    · simp only
      split
      · split <;> exact h
      · split <;> simp [h]

theorem predicated_closureRun (h : w.predicated = true) :
    (sim.closureRun full fuel w).predicated = true := by
  induction fuel generalizing w with
  | zero => exact h
  | succ fuel ih =>
    unfold closureRun
    split
    · exact h
    · exact ih (predicated_closureStep h)

theorem closureRun_eq (hn : sim.network = sim'.network)
    (h : (sim.closureRun false fuel w).predicated = false) :
    sim.closureRun false fuel w = sim'.closureRun false fuel w := by
  induction fuel generalizing w with
  | zero => rfl
  | succ fuel ih =>
    unfold closureRun at h ⊢
    split
    · rfl
    · rename_i hw
      rw [if_neg hw] at h
      have hs : (sim.closureStep false w).predicated = false := by
        by_contra hs
        rw [predicated_closureRun (by simpa using hs)] at h
        cases h
      rw [← closureStep_eq hn hs, ih h]

theorem closure_eq (hn : sim.network = sim'.network)
    (h : (sim.closure false seeds asked).predicated = false) :
    sim.closure false seeds asked = sim'.closure false seeds asked := by
  have hb : sim.closureBound false seeds = sim'.closureBound false seeds := by
    simp [closureBound, hn]
  rw [closure, closure, ← hb]
  exact closureRun_eq hn h

/-- A closure that asks nothing began with nothing asked. -/
theorem asked_of_closure (h : (sim.closure full seeds asked).predicated = false) :
    asked = false := by
  by_contra hne
  rw [closure, predicated_closureRun (by simpa using hne)] at h
  cases h

theorem predicated_reach (full : Bool) (set : ConfigSet) (t : TokenType) :
    (sim.reach full set t).predicated =
      (sim.closure full (sim.taken set t) set.predicated).predicated := by
  unfold reach
  simp only
  split
  · rw [ConfigSet.predicated_filterStates, ConfigSet.predicated_ofList]
  · rw [ConfigSet.predicated_ofList]

theorem reach_eq (sim sim' : Simulation) {t : TokenType} (hn : sim.network = sim'.network)
    (h : (sim.reach false set t).predicated = false) :
    sim.reach false set t = sim'.reach false set t := by
  rw [predicated_reach] at h
  have hc := closure_eq hn h
  have ht : sim.taken set t = sim'.taken set t := by simp only [taken, hn]
  have he : sim.atEnd set t = sim'.atEnd set t := by simp only [atEnd, hn]
  simp only [reach, hc, ← ht, ← he, ← hn]

/-- The key of the configuration that stands at a decision. -/
def startKey (sim : Simulation) (d : DecisionId) : ConfigKey :=
  { state := sim.network.decisionState d, precedence := sim.floor }

/-- What leaves the state of a decision. -/
def startEdges (sim : Simulation) (d : DecisionId) : List Transition :=
  (sim.network.state (sim.network.decisionState d)).transitions

/-- The configurations past each of the edges, numbered from one. -/
def startSeeds (sim : Simulation) (d : DecisionId) : List Config :=
  (sim.startEdges d).zipIdx.filterMap fun (t, i) => sim.follow? ⟨sim.startKey d, i + 1⟩ t

/-- The closure that a decision starts with, before the loop of operators is filtered. -/
def startClosure (sim : Simulation) (full : Bool) (d : DecisionId) : ConfigSet :=
  let w := sim.closure full (sim.startSeeds d)
    ((sim.startEdges d).any fun t => (sim.startKey d).asks t.kind)
  .ofList w.found w.predicated

theorem startSet_eq_startClosure (full : Bool) (d : DecisionId) :
    sim.startSet full d =
      if (sim.network.state (sim.network.decisionState d)).precedenceDecision && !full then
        (sim.startClosure full d).filterPrecedence
      else sim.startClosure full d := rfl

theorem predicated_startClosure (sim : Simulation) (full : Bool) (d : DecisionId) :
    (sim.startClosure full d).predicated =
      (sim.closure full (sim.startSeeds d)
        ((sim.startEdges d).any fun t => (sim.startKey d).asks t.kind)).predicated := by
  rw [startClosure, ConfigSet.predicated_ofList]

theorem startSeeds_eq (hn : sim.network = sim'.network) (hf : sim.floor = sim'.floor)
    (h : ((sim.startEdges d).any fun t => (sim.startKey d).asks t.kind) = false) :
    sim.startSeeds d = sim'.startSeeds d := by
  have hk : sim'.startKey d = sim.startKey d := by simp only [startKey, hn, hf]
  have he : sim'.startEdges d = sim.startEdges d := by simp only [startEdges, hn]
  unfold startSeeds
  rw [hk, he]
  generalize sim.startEdges d = l at h
  generalize 0 = i
  induction l generalizing i with
  | nil => rfl
  | cons t l ih =>
    rw [List.any_cons, Bool.or_eq_false_iff] at h
    have ht := follow?_eq sim sim' (c := ⟨sim.startKey d, i + 1⟩) h.1
    simp only [List.zipIdx_cons, List.filterMap_cons, ht, ih h.2]

theorem startClosure_eq (hn : sim.network = sim'.network) (hf : sim.floor = sim'.floor)
    (h : (sim.startClosure false d).predicated = false) :
    sim.startClosure false d = sim'.startClosure false d := by
  have hk : sim'.startKey d = sim.startKey d := by simp only [startKey, hn, hf]
  have he : sim'.startEdges d = sim.startEdges d := by simp only [startEdges, hn]
  have hw := predicated_startClosure sim false d ▸ h
  have hs := startSeeds_eq hn hf (asked_of_closure hw)
  unfold startClosure
  rw [hk, he, ← hs, ← closure_eq hn hw]

theorem startSet_eq (sim sim' : Simulation) (hn : sim.network = sim'.network) (hf : sim.floor = sim'.floor)
    (h : (sim.startSet false d).predicated = false) :
    sim.startSet false d = sim'.startSet false d := by
  rw [startSet_eq_startClosure] at h
  have hc : (sim.startClosure false d).predicated = false := by
    split at h
    · rwa [ConfigSet.predicated_filterPrecedence] at h
    · exact h
  rw [startSet_eq_startClosure, startSet_eq_startClosure, ← startClosure_eq hn hf hc, ← hn]

theorem any_asks_of_free (hn : sim.network.PredicateFree) (s : StateId) (k : ConfigKey) :
    ((sim.network.state s).transitions.any fun t => k.asks t.kind) = false := by
  rw [List.any_eq_false]
  intro t ht
  rw [hn.asks ht]
  decide

theorem predicated_closureStep_of_free (hn : sim.network.PredicateFree) :
    (sim.closureStep full w).predicated = w.predicated := by
  unfold closureStep
  split
  · rfl
  · split
    · rfl
    · simp only
      split
      · split <;> rfl
      · split
        · rfl
        · simp only [any_asks_of_free hn, Bool.or_false]

theorem predicated_closure_of_free (hn : sim.network.PredicateFree) :
    (sim.closure full seeds asked).predicated = asked := by
  suffices h : ∀ fuel w, (sim.closureRun full fuel w).predicated = w.predicated from h _ _
  intro fuel
  induction fuel with
  | zero => exact fun w => rfl
  | succ fuel ih =>
    intro w
    unfold closureRun
    split
    · rfl
    · rw [ih, predicated_closureStep_of_free hn]

theorem predicated_reach_of_free (hn : sim.network.PredicateFree) (t : TokenType) :
    (sim.reach full set t).predicated = set.predicated := by
  rw [predicated_reach, predicated_closure_of_free hn]

theorem predicated_startSet_of_free (hn : sim.network.PredicateFree) :
    (sim.startSet full d).predicated = false := by
  have hc : (sim.startClosure full d).predicated = false := by
    rw [predicated_startClosure, predicated_closure_of_free hn]
    exact any_asks_of_free hn _ _
  rw [startSet_eq_startClosure]
  split
  · exact (ConfigSet.predicated_filterPrecedence _).trans hc
  · exact hc

end Simulation

end AdaptiveParsing
