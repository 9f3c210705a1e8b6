import AdaptiveParsing.Proofs.Lookahead.Choices
import AdaptiveParsing.Proofs.Lookahead.Transparency
/-!
What the automata of a parser hold after any predictions and clearings. No set is held twice, since
every state is found by its entries, and no edge leaves the generation it was made in
(`Automaton.Indexed`). Together with the record of lookahead this makes every state, start and edge
a function of the network alone (`Automaton.Exact`). Main statement:
`PredictionCache.History.automata_exact`.
-/

namespace AdaptiveParsing

theorem ConfigSet.Ordered.nodup_keys {es : List (ConfigKey × AltSet)} (h : Ordered es) :
    (es.map Prod.fst).Nodup :=
  List.pairwise_map.2 (h.1.imp fun hef => hef.2)

/-- Entries in order are the same exactly when the members are. -/
theorem ConfigSet.Ordered.entries_eq_iff {set set' : ConfigSet} (h : Ordered set.entries)
    (h' : Ordered set'.entries) : set.entries = set'.entries ↔ ∀ c : Config, c ∈ set ↔ c ∈ set' := by
  constructor
  · intro heq c
    show c.alt ∈ (set.entries.lookup c.key).getD ∅ ↔ c.alt ∈ (set'.entries.lookup c.key).getD ∅
    rw [heq]
  · intro hsame
    refine h.eq_of_listed_iff h' fun k alt => ?_
    rw [← h.mem_lookup, ← h'.mem_lookup]
    exact hsame ⟨k, alt⟩

namespace Automaton

/-- States know their numbers and are found by their entries, and edges stay in their generation. -/
structure Indexed (a : Automaton) : Prop where
  id_eq : ∀ (i : Nat) (s : AutomatonState), a.states[i]? = some s → s.id = some ⟨a.generation, i⟩
  found : ∀ (i : Nat) (s : AutomatonState), a.states[i]? = some s →
    a.byEntries[s.configs.entries]? = some ⟨a.generation, i⟩
  edges : ∀ id t id', a.edgeAt id t = some (.target id') → id'.generation = id.generation

variable {a b : Automaton} {s : AutomatonState} {id : AutomatonStateId} {t : TokenType}
  {set : ConfigSet} {verdict : Option Nat × Bool}

theorem indexed_empty : Indexed {} := by
  constructor <;> simp [edgeAt]

namespace Indexed

theorem recordMiss (h : a.Indexed) : a.recordMiss.Indexed := ⟨h.id_eq, h.found, h.edges⟩

theorem recordHit (h : a.Indexed) : a.recordHit.Indexed := ⟨h.id_eq, h.found, h.edges⟩

theorem clear (h : a.Indexed) : a.clear.Indexed := by
  refine ⟨?_, ?_, h.edges⟩ <;> simp [Automaton.clear]

theorem setStart (h : a.Indexed) (floor : Int) : (a.setStart floor s).Indexed := by
  unfold Automaton.setStart
  split <;> exact ⟨h.id_eq, h.found, h.edges⟩

theorem id_of_state? (h : a.Indexed) (hs : a.state? id = some s) : s.id = some id := by
  obtain ⟨hg, hi⟩ := state?_eq_some_iff.1 hs
  rw [h.id_eq _ _ hi, ← hg]

/-- An edge between states of the automaton is one of its generation. -/
theorem addEdge (h : a.Indexed) (hs : a.state? id = some s) {e : AutomatonEdge}
    (he : ∀ id', e = .target id' → ∃ s', a.state? id' = some s') : (a.addEdge s t e).Indexed := by
  have hid := h.id_of_state? hs
  have hedge := edgeAt_addEdge (a := a) hid t e
  refine ⟨?_, ?_, ?_⟩
  · simpa only [Automaton.addEdge, hid] using h.id_eq
  · simpa only [Automaton.addEdge, hid] using h.found
  · intro id₁ t₁ id₂ h₁
    rw [hedge] at h₁
    split at h₁
    · rename_i heq
      obtain ⟨s', hs'⟩ := he id₂ (by simpa using h₁)
      rw [← heq.1, (state?_eq_some_iff.1 hs).1, (state?_eq_some_iff.1 hs').1]
    · exact h.edges _ _ _ h₁

/-- A set that is not found is not one of the states, so it becomes one without a twin. -/
theorem withFresh (h : a.Indexed) (hset : a.byEntries[set.entries]?.bind a.state? = none) :
    (a.withFresh set verdict).Indexed := by
  have hother : ∀ (i : Nat) (s : AutomatonState), a.states[i]? = some s →
      s.configs.entries ≠ set.entries := by
    intro i s hs heq
    have hknown := h.found i s hs
    rw [heq] at hknown
    simp [hknown, state?, hs] at hset
  refine ⟨?_, ?_, h.edges⟩
  · intro i s hs
    rw [Automaton.withFresh, Array.getElem?_push] at hs
    split at hs
    · rename_i hi
      obtain rfl := Option.some.inj hs
      rw [hi]
      rfl
    · exact h.id_eq _ _ hs
  · intro i s hs
    rw [Automaton.withFresh, Array.getElem?_push] at hs
    rw [Automaton.withFresh, Std.HashMap.getElem?_insert]
    split at hs
    · rename_i hi
      obtain rfl := Option.some.inj hs
      have hsame : (set.entries == (a.fresh set verdict).configs.entries) = true := beq_iff_eq.2 rfl
      rw [if_pos hsame, hi]
    · have hne := hother i s hs
      rw [if_neg (by simpa using hne.symm)]
      exact h.found i s hs

theorem addState (h : a.Indexed) (set : ConfigSet) (prediction : Option Nat) (needsContext : Bool) :
    let r := a.addState set prediction needsContext
    r.2.Indexed ∧ r.2.Extends a ∧ ∃ id, r.1.id = some id ∧ r.2.state? id = some r.1 := by
  cases hk : a.byEntries[set.entries]?.bind a.state? with
  | none =>
    rw [addState_of_unknown hk]
    exact ⟨h.withFresh hk, extends_withFresh, _, rfl, state?_fresh⟩
  | some s =>
    rw [addState_of_known hk]
    obtain ⟨id, -, hs⟩ := Option.bind_eq_some_iff.1 hk
    exact ⟨h, .refl a, id, h.id_of_state? hs, hs⟩

/-- States with the same entries are the same. -/
theorem eq_of_entries (h : a.Indexed) {i j : Nat} {s s' : AutomatonState}
    (hs : a.states[i]? = some s) (hs' : a.states[j]? = some s')
    (he : s.configs.entries = s'.configs.entries) : i = j := by
  have hi := h.found i s hs
  rw [he, h.found j s' hs'] at hi
  simpa using hi.symm

end Indexed

end Automaton

namespace Simulation

open Automaton

variable {sim : Simulation} {d : DecisionId} {a : Automaton} {s : AutomatonState} {t : TokenType}

/-- What lookahead leaves behind: an index still, that holds the states it goes on with. -/
structure Yields (a : Automaton) (r : Option AutomatonState × Automaton) : Prop where
  indexed : r.2.Indexed
  grows : r.2.Extends a
  held : ∀ s, r.1 = some s → r.2.Held s

theorem yields_computeTarget (ha : a.Indexed) (hs : a.Held s) :
    Yields a (sim.computeTarget a s t) := by
  have hm := ha.recordMiss
  have hx : a.recordMiss.Extends a := ⟨rfl, fun _ _ h => h⟩
  unfold computeTarget
  simp only
  split
  · refine ⟨?_, extends_addEdge.trans hx, by simp⟩
    obtain hid | ⟨id, -, hst⟩ := hs
    · simpa only [Automaton.addEdge, hid] using hm
    · exact hm.addEdge hst (by simp)
  · split
    · refine ⟨hm, hx, ?_⟩
      rintro _ ⟨⟩
      exact .inl rfl
    · rename_i hkeep
      simp only [Bool.or_eq_true, Option.isNone_iff_eq_none, not_or, Bool.not_eq_true] at hkeep
      obtain hid | ⟨id, hid, hst⟩ := hs
      · exact absurd hid hkeep.2
      · have hadd := hm.addState (sim.reach false s.configs t)
          (sim.verdict (sim.reach false s.configs t)).1 (sim.verdict (sim.reach false s.configs t)).2
        generalize a.recordMiss.addState (sim.reach false s.configs t) _ _ = r at hadd
        obtain ⟨hind, hext, id', hid', hst'⟩ := hadd
        simp only [hid']
        refine ⟨hind.addEdge (hext.state? hst) ?_, extends_addEdge.trans (hext.trans hx), ?_⟩
        · rintro _ ⟨⟩
          exact ⟨_, hst'⟩
        · rintro _ ⟨⟩
          exact .inr ⟨id', hid', extends_addEdge.state? hst'⟩

theorem yields_target (ha : a.Indexed) (hs : a.Held s) : Yields a (sim.target a s t) := by
  have hx : a.recordHit.Extends a := ⟨rfl, fun _ _ h => h⟩
  unfold target
  split
  · exact ⟨ha.recordHit, hx, by simp⟩
  · rename_i id he
    split
    · rename_i s' hs'
      refine ⟨ha.recordHit, hx, ?_⟩
      rintro _ ⟨⟩
      exact .inr ⟨id, ha.id_of_state? hs', hs'⟩
    · exact yields_computeTarget ha hs
  · exact yields_computeTarget ha hs

theorem indexed_startState (ha : a.Indexed) :
    (sim.startState d a).2.Indexed ∧ (sim.startState d a).2.Held (sim.startState d a).1 := by
  unfold startState
  split
  · rename_i s hs
    obtain ⟨id, -, hst⟩ := Option.bind_eq_some_iff.1 hs
    exact ⟨ha.recordHit, .inr ⟨id, ha.id_of_state? hst, hst⟩⟩
  · simp only
    split
    · exact ⟨ha.recordMiss, .inl rfl⟩
    · obtain ⟨hind, -, id, hid, hst⟩ := ha.recordMiss.addState (sim.startSet false d) none false
      exact ⟨hind.setStart _, .inr ⟨id, hid, extends_setStart.state? hst⟩⟩

theorem indexed_predictFrom (mode : PredictionMode) (start : Nat) (ha : a.Indexed) (hs : a.Held s)
    (input : TokenCursor) : (sim.predictFrom d mode start a s input).2.1.Indexed := by
  fun_induction predictFrom sim d mode start a s input with
  | case1 a s input a' h => exact (h ▸ yields_target (t := input.kind) ha hs).indexed
  | case2 a s input s' a' h hctx p input' hp =>
    exact (h ▸ yields_target (t := input.kind) ha hs).indexed
  | case3 a s input s' a' h hctx alt hp => exact (h ▸ yields_target (t := input.kind) ha hs).indexed
  | case4 a s input s' a' h hctx hp heof => exact (h ▸ yields_target (t := input.kind) ha hs).indexed
  | case5 a s input s' a' h hctx hp heof ih =>
    have hk : Yields a (some s', a') := h ▸ yields_target (t := input.kind) ha hs
    exact ih hk.indexed (hk.held s' rfl)

/-- Lookahead keeps the index. -/
theorem indexed_predict (ha : a.Indexed) (mode : PredictionMode) (input : TokenCursor) :
    (sim.predict d mode a input).2.1.Indexed := by
  obtain ⟨hind, hheld⟩ : (sim.startState d a).2.Indexed ∧
      (sim.startState d a).2.Held (sim.startState d a).1 := indexed_startState ha
  exact indexed_predictFrom mode input.position hind hheld input

end Simulation

namespace Automaton

variable {n : Network} {d : DecisionId} {floors : Int → Prop} {a : Automaton}

theorem History.indexed (h : History n d floors a) : a.Indexed := by
  induction h with
  | empty => exact indexed_empty
  | clear _ ih => exact ih.clear
  | predict _ sim _ _ mode input ih => exact Simulation.indexed_predict ih mode input

/-- Every state, start and edge is what the network alone makes of it, whatever the predicates and
the callers were when it was found out. -/
structure Exact (n : Network) (d : DecisionId) (a : Automaton) : Prop where
  keys : ∀ (i : Nat) (s : AutomatonState), a.states[i]? = some s →
    (s.configs.entries.map Prod.fst).Nodup
  unpredicated : ∀ (i : Nat) (s : AutomatonState), a.states[i]? = some s →
    s.configs.predicated = false
  distinct : ∀ (i j : Nat) (s s' : AutomatonState), a.states[i]? = some s → a.states[j]? = some s' →
    (∀ c : Config, c ∈ s.configs ↔ c ∈ s'.configs) → i = j
  prediction : ∀ (i : Nat) (s : AutomatonState) (alt : Nat), a.states[i]? = some s →
    s.prediction = some alt → ∃ c : Config, c ∈ s.configs ∧ c.alt = alt
  start : ∀ (floor : Int) (s : AutomatonState), a.start? floor = some s →
    ∀ sim : Simulation, sim.network = n → sim.floor = floor → s.configs = sim.startSet false d
  edge : ∀ (i : Nat) (s : AutomatonState) (t : TokenType) (id : AutomatonStateId),
    a.states[i]? = some s → a.edge? s t = some (.target id) → ∃ s', a.state? id = some s' ∧
      ∀ sim : Simulation, sim.network = n → s'.configs = sim.reach false s.configs t

theorem ordered_of_met {set : ConfigSet} (h : n.Met d floors set) : ConfigSet.Ordered set.entries := by
  cases h with
  | first => exact Simulation.ordered_startSet d
  | next => exact Simulation.ordered_reach _ _

theorem state?_of_states {i : Nat} {s : AutomatonState} (h : a.states[i]? = some s) :
    a.state? ⟨a.generation, i⟩ = some s := state?_eq_some_iff.2 ⟨rfl, h⟩

/-- A verdict names an alternative of the set it is about. -/
theorem alt_of_verdict {sim : Simulation} {set : ConfigSet} {alt : Nat} (ho : ConfigSet.Ordered set.entries)
    (h : (sim.verdict set).1 = some alt) : ∃ c : Config, c ∈ set ∧ c.alt = alt := by
  have halts : alt ∈ set.alts := by
    unfold Simulation.verdict at h
    split at h
    · rename_i hu
      obtain rfl := Option.some.inj h
      unfold ConfigSet.uniqueAlt? AltSet.single? at hu
      split at hu
      · rename_i hl
        rw [AltSet.mem_iff, hl]
        simpa using hu.symm
      · cases hu
    · split at h
      · exact AltSet.mem_iff.2 (List.mem_of_mem_head? (Option.mem_def.2 h))
      · cases h
  obtain ⟨k, hk⟩ := ConfigSet.mem_alts.1 halts
  exact ⟨⟨k, alt⟩, ho.mem_lookup.2 hk, rfl⟩

theorem Indexed.exact (h : a.Indexed) (hr : a.Recorded n d floors) : a.Exact n d := by
  have hmet : ∀ (i : Nat) (s : AutomatonState), a.states[i]? = some s → n.Met d floors s.configs :=
    fun i s hs => hr.met _ _ (state?_of_states hs)
  refine ⟨?_, ?_, ?_, ?_, ?_, ?_⟩
  · intro i s hs
    exact (ordered_of_met (hmet i s hs)).nodup_keys
  · exact fun i s hs => (hmet i s hs).predicated
  · intro i j s s' hs hs' hsame
    have ho := ordered_of_met (hmet i s hs)
    have ho' := ordered_of_met (hmet j s' hs')
    exact h.eq_of_entries hs hs' ((ho.entries_eq_iff ho').2 hsame)
  · intro i s alt hs hp
    obtain hv | ⟨hv, -⟩ := hr.verdict _ _ (state?_of_states hs)
    · exact alt_of_verdict (ordered_of_met (hmet i s hs)) (by rw [← hv, hp])
    · rw [hp] at hv
      cases hv
  · rintro floor s hs sim rfl rfl
    obtain ⟨id, hid, hst⟩ := Option.bind_eq_some_iff.1 hs
    have hc := (hr.starts _ _ hid).2 _ hst
    have hp := (hr.met _ _ hst).predicated
    exact hc.trans (Simulation.firstSet_eq_startSet (by rwa [hc] at hp))
  · intro i s t id hs he
    rw [edge?_eq_edgeAt (hr.id_eq i s hs)] at he
    obtain ⟨hissued, hto⟩ := hr.targets _ _ _ he
    have hgen : id.generation = a.generation := h.edges _ _ _ he
    have hlt : id.index < a.states.size := by
      obtain hold | ⟨-, hlt⟩ := hissued
      · omega
      · exact hlt
    have hs' : a.state? id = some a.states[id.index] :=
      state?_eq_some_iff.2 ⟨hgen, Array.getElem?_eq_getElem hlt⟩
    refine ⟨_, hs', ?_⟩
    rintro sim rfl
    have hc := (hto s _ (state?_of_states hs) hs').1
    have hp := (hr.met _ _ hs').predicated
    exact hc.trans (Simulation.nextSet_eq_reach (by rwa [hc] at hp))

end Automaton

namespace PredictionCache

/-- The automata of one engine: new ones, and what predictions at any decisions, with any predicates,
callers, floors, modes and inputs, and clearings make of them. -/
inductive History (n : Network) : PredictionCache → Prop
  | fresh : History n (ofNetwork n)
  | clear {c : PredictionCache} (h : History n c) : History n c.clear
  | predict {c : PredictionCache} {d : DecisionId} {a : Automaton} (h : History n c)
      (ha : c.get? d = some a) (sim : Simulation) (hn : sim.network = n) (mode : PredictionMode)
      (input : TokenCursor) : History n (c.set d (sim.predict d mode a input).2.1)

variable {n : Network} {c : PredictionCache} {d : DecisionId} {a : Automaton}

theorem get?_ofNetwork (h : (ofNetwork n).get? d = some a) : a = {} := by
  simp only [get?, ofNetwork, Array.getElem?_replicate] at h
  split at h
  · exact (Option.some.inj h).symm
  · cases h

theorem get?_clear (h : c.clear.get? d = some a) : ∃ b, c.get? d = some b ∧ a = b.clear := by
  simp only [get?, clear, Array.getElem?_map, Option.map_eq_some_iff] at h
  obtain ⟨b, hb, rfl⟩ := h
  exact ⟨b, hb, rfl⟩

theorem get?_set {e : DecisionId} {b : Automaton} (h : (c.set d a).get? e = some b) :
    (d = e ∧ b = a) ∨ c.get? e = some b := by
  simp only [get?, set, Array.getElem?_setIfInBounds] at h
  split at h
  · rename_i he
    split at h
    · exact .inl ⟨he, (Option.some.inj h).symm⟩
    · cases h
  · exact .inr h

/-- Each automaton of an engine has a history of its own. -/
theorem History.automaton (h : History n c) :
    ∀ d a, c.get? d = some a → Automaton.History n d (fun _ => True) a := by
  induction h with
  | fresh =>
    intro d a ha
    exact get?_ofNetwork ha ▸ .empty
  | clear _ ih =>
    intro d a ha
    obtain ⟨b, hb, rfl⟩ := get?_clear ha
    exact (ih d b hb).clear
  | predict _ hb sim hn mode input ih =>
    intro e a ha
    obtain ⟨rfl, rfl⟩ | ha := get?_set ha
    · exact (ih _ _ hb).predict sim hn trivial mode input
    · exact ih e a ha

/-- Whatever was predicted and cleared before, the automata of an engine hold what the network
alone makes of them. -/
theorem History.automata_exact (h : History n c) (ha : c.get? d = some a) : a.Exact n d :=
  (h.automaton d a ha).indexed.exact (h.automaton d a ha).recorded

/-- A condition that fails is asked between a start that is recorded and one after a clearing. -/
theorem exact_conditional :
    let failed := ((conditionalSimulation false).predict 0 .ll {} inputA).2.1
    let held := ((conditionalSimulation true).predict 0 .sll failed.clear inputA).2.1
    let c := (((ofNetwork conditionalNetwork).set 0 failed).clear).set 0 held
    conditional.compile = .ok ⟨conditionalNetwork, conditional.names⟩ ∧
      c.History conditionalNetwork ∧ c.get? 0 = some held ∧ held.Exact conditionalNetwork 0 := by
  intro failed held c
  have h₁ : ((ofNetwork conditionalNetwork).set 0 failed).History conditionalNetwork :=
    .predict .fresh rfl (conditionalSimulation false) rfl .ll inputA
  have h₂ : c.History conditionalNetwork :=
    have hfailed : ((ofNetwork conditionalNetwork).set 0 failed).clear.get? 0 = some failed.clear := by
      simp [get?, clear, set, ofNetwork, conditionalNetwork]
    .predict h₁.clear hfailed (conditionalSimulation true) rfl .sll inputA
  have hheld : c.get? 0 = some held := by
    simp [c, get?, clear, set, ofNetwork, conditionalNetwork]
  exact ⟨compile_conditional, h₂, hheld, h₂.automata_exact hheld⟩

end PredictionCache

end AdaptiveParsing
