import AdaptiveParsing.Proofs.Lookahead.ContextFree
/-!
What an automaton holds after any lookahead. Every state is a set that lookahead comes to, every
edge leads to the set that one more token leads to, and every start is the set of its floor
(`Automaton.Recorded`). An edge to nowhere can be relied on only if predicates never make a dead end
of what is none without them (`Network.DeadEndsAgree`). Main statement: lookahead keeps the record
(`recorded_predict`).
-/

namespace AdaptiveParsing

namespace Network

/-- Lookahead with nothing known of the parse but the floor. -/
def bare (n : Network) (floor : Int) : Simulation :=
  { network := n, predicates := .always, forest := {}, invocation := none, floor }

/-- The set that decision `d` starts with at a floor. -/
def firstSet (n : Network) (d : DecisionId) (floor : Int) : ConfigSet :=
  (n.bare floor).startSet false d

/-- The set that a token leads to. -/
def nextSet (n : Network) (set : ConfigSet) (t : TokenType) : ConfigSet :=
  (n.bare 0).reach false set t

/-- Lookahead goes on from this set: it has no verdict, or it is a set to start with. -/
def Open (n : Network) (d : DecisionId) (floors : Int → Prop) (set : ConfigSet) : Prop :=
  ((n.bare 0).verdict set).1 = none ∨ ∃ floor, floors floor ∧ set = n.firstSet d floor

/-- The sets that lookahead for `d` comes to while no predicate is asked. -/
inductive Met (n : Network) (d : DecisionId) (floors : Int → Prop) : ConfigSet → Prop
  | first {floor : Int} (hf : floors floor) (hp : (n.firstSet d floor).predicated = false) :
      Met n d floors (n.firstSet d floor)
  | next {set : ConfigSet} {t : TokenType} (hs : Met n d floors set) (ho : n.Open d floors set)
      (hp : (n.nextSet set t).predicated = false) (he : (n.nextSet set t).isEmpty = false) :
      Met n d floors (n.nextSet set t)

/-- A token that leaves lookahead without configurations under some predicates does so under all. -/
def DeadEndsAgree (n : Network) (d : DecisionId) (floors : Int → Prop) : Prop :=
  ∀ (set : ConfigSet) (t : TokenType) (sim sim' : Simulation), n.Met d floors set →
    n.Open d floors set → sim.network = n → sim'.network = n →
      (sim.reach false set t).isEmpty = true → (sim'.reach false set t).isEmpty = true

variable {n : Network} {d : DecisionId} {floors : Int → Prop} {set : ConfigSet}

theorem Met.predicated (h : n.Met d floors set) : set.predicated = false := by
  cases h <;> assumption

/-- Without predicates there is nothing that dead ends could depend on. -/
theorem PredicateFree.deadEndsAgree (h : n.PredicateFree) : n.DeadEndsAgree d floors := by
  intro set t sim sim' hm _ hn hn' he
  have hp : (sim.reach false set t).predicated = false := by
    rw [Simulation.predicated_reach_of_free (hn ▸ h), hm.predicated]
  rwa [← sim.reach_eq sim' (hn.trans hn'.symm) hp]

end Network

namespace Simulation

variable {sim : Simulation} {d : DecisionId} {set : ConfigSet} {t : TokenType}

theorem reach_eq_nextSet (h : (sim.reach false set t).predicated = false) :
    sim.reach false set t = sim.network.nextSet set t :=
  reach_eq _ _ rfl h

theorem nextSet_eq_reach (h : (sim.network.nextSet set t).predicated = false) :
    sim.network.nextSet set t = sim.reach false set t :=
  reach_eq (sim.network.bare 0) sim rfl h

theorem firstSet_eq_startSet (h : (sim.network.firstSet d sim.floor).predicated = false) :
    sim.network.firstSet d sim.floor = sim.startSet false d :=
  startSet_eq (sim.network.bare sim.floor) sim rfl rfl h

theorem startSet_eq_firstSet (h : (sim.startSet false d).predicated = false) :
    sim.startSet false d = sim.network.firstSet d sim.floor :=
  startSet_eq _ _ rfl rfl h

/-- A verdict looks at nothing but the network. -/
theorem verdict_eq (sim sim' : Simulation) (hn : sim.network = sim'.network) :
    sim.verdict set = sim'.verdict set := by
  simp only [verdict, hn]

end Simulation

namespace Automaton

/-- A number that the automaton has given out, in this generation or an earlier one. -/
def Issued (a : Automaton) (id : AutomatonStateId) : Prop :=
  id.generation < a.generation ∨ id.generation = a.generation ∧ id.index < a.states.size

/-- Where a token leads from the state of that number. -/
def edgeAt (a : Automaton) (id : AutomatonStateId) (t : TokenType) : Option AutomatonEdge :=
  (a.edges.getD id ∅)[t]?

/-- What an automaton for decision `d` holds. -/
structure Recorded (n : Network) (d : DecisionId) (floors : Int → Prop) (a : Automaton) : Prop where
  id_eq : ∀ (i : Nat) (s : AutomatonState), a.states[i]? = some s → s.id = some ⟨a.generation, i⟩
  met : ∀ id s, a.state? id = some s → n.Met d floors s.configs
  /-- A state has the verdict of its set, or it was first met as a start and has none. -/
  verdict : ∀ id s, a.state? id = some s →
    (s.prediction, s.needsContext) = (n.bare 0).verdict s.configs ∨
      (s.prediction, s.needsContext) = (none, false) ∧
        ∃ floor, floors floor ∧ s.configs = n.firstSet d floor
  entries : ∀ (es : List (ConfigKey × AltSet)) (id : AutomatonStateId), a.byEntries[es]? = some id →
    a.Issued id ∧ ∀ s, a.state? id = some s → s.configs.entries = es
  starts : ∀ (floor : Int) (id : AutomatonStateId), a.starts[floor]? = some id →
    a.Issued id ∧ ∀ s, a.state? id = some s → s.configs = n.firstSet d floor
  sources : ∀ id t e, a.edgeAt id t = some e → a.Issued id
  targets : ∀ id t id', a.edgeAt id t = some (.target id') →
    a.Issued id' ∧ ∀ s s', a.state? id = some s → a.state? id' = some s' →
      s'.configs = n.nextSet s.configs t ∧ s'.configs.isEmpty = false
  errors : n.DeadEndsAgree d floors → ∀ id t s, a.edgeAt id t = some .error → a.state? id = some s →
    ∀ sim : Simulation, sim.network = n → (sim.reach false s.configs t).isEmpty = true

variable {n : Network} {d : DecisionId} {floors : Int → Prop} {a b : Automaton}
  {s : AutomatonState} {id : AutomatonStateId} {t : TokenType} {set : ConfigSet}

theorem state?_eq_some_iff :
    a.state? id = some s ↔ id.generation = a.generation ∧ a.states[id.index]? = some s := by
  unfold state?
  split <;> simp_all

theorem issued_of_state? (h : a.state? id = some s) : a.Issued id := by
  obtain ⟨hg, hi⟩ := state?_eq_some_iff.1 h
  exact .inr ⟨hg, (Array.getElem?_eq_some_iff.1 hi).1⟩

theorem edge?_eq_edgeAt (h : s.id = some id) : a.edge? s t = a.edgeAt id t := by
  simp [edge?, edgesOf, edgeAt, h]

theorem edge?_eq_none (h : s.id = none) : a.edge? s t = none := by
  simp [edge?, edgesOf, h]

theorem edgeAt_addEdge (h : s.id = some id) (t : TokenType) (e : AutomatonEdge)
    (id' : AutomatonStateId) (t' : TokenType) :
    (a.addEdge s t e).edgeAt id' t' = if id = id' ∧ t = t' then some e else a.edgeAt id' t' := by
  simp only [addEdge, h, edgeAt, Std.HashMap.getD_eq_getD_getElem?, Std.HashMap.getElem?_alter]
  by_cases hid : id = id'
  · subst hid
    by_cases ht : t = t'
    · simp [ht]
    · simp [ht, Std.HashMap.getElem?_insert]
  · simp [hid]

/-- The states of an automaton and the numbers it has given out stay as they are. -/
structure Extends (b a : Automaton) : Prop where
  generation : b.generation = a.generation
  states : ∀ (i : Nat) (s : AutomatonState), a.states[i]? = some s → b.states[i]? = some s

theorem Extends.refl (a : Automaton) : a.Extends a := ⟨rfl, fun _ _ h => h⟩

theorem Extends.trans {c : Automaton} (h : c.Extends b) (h' : b.Extends a) : c.Extends a :=
  ⟨h.generation.trans h'.generation, fun i s hs => h.states i s (h'.states i s hs)⟩

theorem Extends.state? (h : b.Extends a) (hs : a.state? id = some s) : b.state? id = some s := by
  obtain ⟨hg, hi⟩ := state?_eq_some_iff.1 hs
  exact state?_eq_some_iff.2 ⟨hg.trans h.generation.symm, h.states _ _ hi⟩

theorem recorded_empty : Recorded n d floors {} := by
  constructor <;> simp [state?, edgeAt]

namespace Recorded

theorem recordMiss (h : Recorded n d floors a) : Recorded n d floors a.recordMiss :=
  ⟨h.id_eq, h.met, h.verdict, h.entries, h.starts, h.sources, h.targets, h.errors⟩

theorem recordHit (h : Recorded n d floors a) : Recorded n d floors a.recordHit :=
  ⟨h.id_eq, h.met, h.verdict, h.entries, h.starts, h.sources, h.targets, h.errors⟩

/-- A state knows its number. -/
theorem id_of_state? (h : Recorded n d floors a) (hs : a.state? id = some s) : s.id = some id := by
  obtain ⟨hg, hi⟩ := state?_eq_some_iff.1 hs
  rw [h.id_eq _ _ hi, ← hg]

theorem addEdge (h : Recorded n d floors a) (hs : a.state? id = some s) {e : AutomatonEdge}
    (htarget : ∀ id', e = .target id' → ∃ s', a.state? id' = some s' ∧
      s'.configs = n.nextSet s.configs t ∧ s'.configs.isEmpty = false)
    (herror : n.DeadEndsAgree d floors → e = .error →
      ∀ sim : Simulation, sim.network = n → (sim.reach false s.configs t).isEmpty = true) :
    Recorded n d floors (a.addEdge s t e) := by
  have hid := h.id_of_state? hs
  have hedge := edgeAt_addEdge (a := a) hid t e
  have hsame : ∀ id, (a.addEdge s t e).state? id = a.state? id := by
    intro id'
    simp [Automaton.addEdge, hid, Automaton.state?]
  have hgiven : ∀ id, (a.addEdge s t e).Issued id ↔ a.Issued id := by
    intro id'
    simp [Automaton.addEdge, hid, Issued]
  have hg : (a.addEdge s t e).generation = a.generation := by simp [Automaton.addEdge, hid]
  have hst : (a.addEdge s t e).states = a.states := by simp [Automaton.addEdge, hid]
  have hby : (a.addEdge s t e).byEntries = a.byEntries := by simp [Automaton.addEdge, hid]
  have hstart : (a.addEdge s t e).starts = a.starts := by simp [Automaton.addEdge, hid]
  constructor
  · rw [hst, hg]
    exact h.id_eq
  · simpa only [hsame] using h.met
  · simpa only [hsame] using h.verdict
  · simpa only [hsame, hgiven, hby] using h.entries
  · simpa only [hsame, hgiven, hstart] using h.starts
  · intro id' t' e' he
    rw [hedge] at he
    rw [hgiven]
    split at he
    · rename_i heq
      exact heq.1 ▸ issued_of_state? hs
    · exact h.sources _ _ _ he
  · intro id' t' id'' he
    rw [hedge] at he
    simp only [hgiven, hsame]
    split at he
    · rename_i heq
      obtain ⟨s', hs', hc⟩ := htarget id'' (by simpa using he)
      refine ⟨issued_of_state? hs', fun s₁ s₂ h₁ h₂ => ?_⟩
      rw [← heq.1, hs, Option.some.injEq] at h₁
      rw [hs', Option.some.injEq] at h₂
      rw [← h₁, ← h₂, ← heq.2]
      exact hc
    · exact h.targets _ _ _ he
  · intro hu id' t' s' he hs'
    rw [hedge] at he
    rw [hsame] at hs'
    split at he
    · rename_i heq
      rw [← heq.1, hs, Option.some.injEq] at hs'
      rw [← hs', ← heq.2]
      exact herror hu (by simpa using he)
    · exact h.errors hu _ _ _ he hs'

theorem setStart (h : Recorded n d floors a) (hs : a.state? id = some s) {floor : Int}
    (hc : s.configs = n.firstSet d floor) : Recorded n d floors (a.setStart floor s) := by
  have hid := h.id_of_state? hs
  simp only [Automaton.setStart, hid]
  refine ⟨h.id_eq, h.met, h.verdict, h.entries, ?_, h.sources, h.targets, h.errors⟩
  intro floor' id' he
  rw [Std.HashMap.getElem?_alter] at he
  split at he
  · rename_i heq
    obtain rfl : floor = floor' := by simpa using heq
    have hnew : a.Issued id ∧ ∀ s, a.state? id = some s → s.configs = n.firstSet d floor := by
      refine ⟨issued_of_state? hs, fun s' hs' => ?_⟩
      rw [hs, Option.some.injEq] at hs'
      exact hs' ▸ hc
    split at he
    · obtain rfl := Option.some.inj he
      exact hnew
    · rename_i old hold
      split at he
      · obtain rfl := Option.some.inj he
        exact h.starts _ _ hold
      · obtain rfl := Option.some.inj he
        exact hnew
  · exact h.starts _ _ he

end Recorded

/-- A number that was not given out yet names no state. -/
theorem issued_push (h : a.Issued id) (s : AutomatonState) :
    id.generation < a.generation ∨
      id.generation = a.generation ∧ id.index < (a.states.push s).size := by
  obtain h | ⟨hg, hi⟩ := h
  · exact .inl h
  · exact .inr ⟨hg, by rw [Array.size_push]; omega⟩

theorem addState_of_known {prediction : Option Nat} {needsContext : Bool}
    (h : a.byEntries[set.entries]?.bind a.state? = some s) :
    a.addState set prediction needsContext = (s, a) := by
  simp [addState, h]

/-- The state that is added for a new set. -/
def fresh (a : Automaton) (set : ConfigSet) (verdict : Option Nat × Bool) : AutomatonState :=
  { id := some ⟨a.generation, a.states.size⟩, configs := set, prediction := verdict.1
    needsContext := verdict.2 }

/-- The automaton with a state for a new set. -/
def withFresh (a : Automaton) (set : ConfigSet) (verdict : Option Nat × Bool) : Automaton :=
  { a with
    states := a.states.push (a.fresh set verdict)
    byEntries := a.byEntries.insert set.entries ⟨a.generation, a.states.size⟩ }

theorem addState_of_unknown {prediction : Option Nat} {needsContext : Bool}
    (h : a.byEntries[set.entries]?.bind a.state? = none) :
    a.addState set prediction needsContext =
      (a.fresh set (prediction, needsContext), a.withFresh set (prediction, needsContext)) := by
  simp [addState, h, fresh, withFresh]

variable {verdict : Option Nat × Bool}

theorem extends_withFresh : (a.withFresh set verdict).Extends a := by
  refine ⟨rfl, fun i s hs => ?_⟩
  have hi := (Array.getElem?_eq_some_iff.1 hs).1
  rw [withFresh, Array.getElem?_push, if_neg (by omega), hs]

theorem state?_withFresh (h : (a.withFresh set verdict).state? id = some s) :
    a.state? id = some s ∨ id = ⟨a.generation, a.states.size⟩ ∧ s = a.fresh set verdict := by
  obtain ⟨hg, hi⟩ := state?_eq_some_iff.1 h
  rw [withFresh, Array.getElem?_push] at hi
  split at hi
  · rename_i hsize
    right
    obtain ⟨generation, index⟩ := id
    exact ⟨by simp_all [withFresh], (Option.some.inj hi).symm⟩
  · exact .inl (state?_eq_some_iff.2 ⟨hg, hi⟩)

theorem state?_fresh :
    (a.withFresh set verdict).state? ⟨a.generation, a.states.size⟩ = some (a.fresh set verdict) := by
  simp [state?_eq_some_iff, withFresh]

theorem not_issued_fresh : ¬ a.Issued ⟨a.generation, a.states.size⟩ := by
  simp [Issued]

theorem Recorded.withFresh (h : Recorded n d floors a) (hm : n.Met d floors set)
    (hv : verdict = (n.bare 0).verdict set ∨
      verdict = (none, false) ∧ ∃ floor, floors floor ∧ set = n.firstSet d floor) :
    Recorded n d floors (a.withFresh set verdict) := by
  have hissued : ∀ id, a.Issued id → (a.withFresh set verdict).Issued id :=
    fun id hid => issued_push hid _
  have hold : ∀ {id s}, a.Issued id → (a.withFresh set verdict).state? id = some s →
      a.state? id = some s := by
    intro id s hid hs
    obtain hs | ⟨rfl, -⟩ := state?_withFresh hs
    · exact hs
    · exact absurd hid not_issued_fresh
  constructor
  · intro i s hs
    rw [Automaton.withFresh, Array.getElem?_push] at hs
    split at hs
    · rename_i hi
      obtain rfl := Option.some.inj hs
      rw [hi]
      rfl
    · exact h.id_eq _ _ hs
  · intro id s hs
    obtain hs | ⟨-, rfl⟩ := state?_withFresh hs
    · exact h.met _ _ hs
    · exact hm
  · intro id s hs
    obtain hs | ⟨-, rfl⟩ := state?_withFresh hs
    · exact h.verdict _ _ hs
    · exact hv
  · intro es id he
    rw [Automaton.withFresh, Std.HashMap.getElem?_insert] at he
    split at he
    · rename_i heq
      obtain rfl := Option.some.inj he
      refine ⟨.inr ⟨rfl, by simp [Automaton.withFresh]⟩, fun s hs => ?_⟩
      rw [state?_fresh, Option.some.injEq] at hs
      rw [← hs, ← eq_of_beq heq]
      rfl
    · obtain ⟨hi, hes⟩ := h.entries _ _ he
      exact ⟨hissued _ hi, fun s hs => hes s (hold hi hs)⟩
  · intro floor id he
    obtain ⟨hi, hes⟩ := h.starts _ _ he
    exact ⟨hissued _ hi, fun s hs => hes s (hold hi hs)⟩
  · exact fun id t e he => hissued _ (h.sources _ _ _ he)
  · intro id t id' he
    obtain ⟨hi, hes⟩ := h.targets _ _ _ he
    exact ⟨hissued _ hi, fun s s' hs hs' =>
      hes s s' (hold (h.sources _ _ _ he) hs) (hold hi hs')⟩
  · exact fun hu id t s he hs => h.errors hu _ _ _ he (hold (h.sources _ _ _ he) hs)

/-- Adding a set gives a state that holds it, with the verdict or with none from its time as a
start. -/
theorem Recorded.addState (h : Recorded n d floors a) (hm : n.Met d floors set)
    (prediction : Option Nat) (needsContext : Bool)
    (hv : (prediction, needsContext) = (n.bare 0).verdict set ∨
      (prediction, needsContext) = (none, false) ∧
        ∃ floor, floors floor ∧ set = n.firstSet d floor) :
    let r := a.addState set prediction needsContext
    Recorded n d floors r.2 ∧ r.2.Extends a ∧ r.1.configs = set ∧
      ∃ id, r.1.id = some id ∧ r.2.state? id = some r.1 := by
  cases hk : a.byEntries[set.entries]?.bind a.state? with
  | none =>
    rw [addState_of_unknown hk]
    exact ⟨h.withFresh hm hv, extends_withFresh, rfl, _, rfl, state?_fresh⟩
  | some s =>
    rw [addState_of_known hk]
    obtain ⟨id, hid, hs⟩ := Option.bind_eq_some_iff.1 hk
    refine ⟨h, .refl a, ?_, id, h.id_of_state? hs, hs⟩
    have he := (h.entries _ _ hid).2 s hs
    have hp := (h.met _ _ hs).predicated
    have hp' := hm.predicated
    show s.configs = set
    cases hc : s.configs
    cases set
    simp_all

/-- The state is one of the automaton, or one that no automaton holds. -/
def Held (a : Automaton) (s : AutomatonState) : Prop :=
  s.id = none ∨ ∃ id, s.id = some id ∧ a.state? id = some s

theorem Held.extends (h : a.Held s) (hb : b.Extends a) : b.Held s := by
  obtain h | ⟨id, hid, hs⟩ := h
  · exact .inl h
  · exact .inr ⟨id, hid, hb.state? hs⟩

/-- A state to look ahead from. -/
def Ready (n : Network) (d : DecisionId) (floors : Int → Prop) (a : Automaton)
    (s : AutomatonState) : Prop :=
  s.id = none ∨ ∃ id, s.id = some id ∧ a.state? id = some s ∧ n.Open d floors s.configs

/-- A state without a verdict is one to look ahead from. -/
theorem Held.ready (h : a.Held s) (ha : Recorded n d floors a) (hp : s.prediction = none) :
    Ready n d floors a s := by
  refine h.imp_right ?_
  rintro ⟨id, hid, hs⟩
  refine ⟨id, hid, hs, (ha.verdict _ _ hs).imp (fun hv => ?_) And.right⟩
  rw [← hv, hp]

theorem extends_addEdge {e : AutomatonEdge} : (a.addEdge s t e).Extends a := by
  unfold addEdge
  split <;> exact ⟨rfl, fun _ _ h => h⟩

theorem extends_setStart {floor : Int} : (a.setStart floor s).Extends a := by
  unfold setStart
  split <;> exact ⟨rfl, fun _ _ h => h⟩

/-- Clearing leaves nothing but edges between states that are not found any more. -/
theorem Recorded.clear (h : Recorded n d floors a) : Recorded n d floors a.clear := by
  have hissued : ∀ id, a.Issued id → a.clear.Issued id := by
    intro id hid
    left
    show id.generation < a.generation + 1
    obtain h | ⟨h, -⟩ := hid <;> omega
  have hnone : ∀ id s, a.clear.state? id ≠ some s := by
    intro id s hs
    simp [state?_eq_some_iff, Automaton.clear] at hs
  constructor
  · simp [Automaton.clear]
  · exact fun id s hs => absurd hs (hnone id s)
  · exact fun id s hs => absurd hs (hnone id s)
  · simp [Automaton.clear]
  · simp [Automaton.clear]
  · exact fun id t e he => hissued _ (h.sources _ _ _ he)
  · exact fun id t id' he =>
      ⟨hissued _ (h.targets _ _ _ he).1, fun s s' hs => absurd hs (hnone id s)⟩
  · exact fun _ id t s he hs => absurd hs (hnone id s)

end Automaton

namespace Simulation

open Automaton

variable {sim : Simulation} {d : DecisionId} {floors : Int → Prop} {a : Automaton}
  {s : AutomatonState} {t : TokenType}

/-- What lookahead finds past a token: the set reached, with its verdict, or with none if the set was
first met as a start. A dead end is one if predicates make none. -/
def Finds (sim : Simulation) (d : DecisionId) (floors : Int → Prop) (set : ConfigSet)
    (t : TokenType) (a : Automaton) : Option AutomatonState → Prop
  | none => sim.network.DeadEndsAgree d floors → (sim.reach false set t).isEmpty = true
  | some s =>
    a.Held s ∧ s.configs = sim.reach false set t ∧ s.configs.isEmpty = false ∧
      ((s.prediction, s.needsContext) = sim.verdict s.configs ∨
        (s.prediction, s.needsContext) = (none, false) ∧ s.configs.predicated = false ∧
          sim.network.Met d floors set ∧ sim.network.Open d floors set ∧
            ∃ floor, floors floor ∧ s.configs = sim.network.firstSet d floor)

theorem computeTarget_spec (ha : Recorded sim.network d floors a)
    (hs : Ready sim.network d floors a s) :
    let r := sim.computeTarget a s t
    Recorded sim.network d floors r.2 ∧ r.2.Extends a ∧
      sim.Finds d floors s.configs t r.2 r.1 := by
  have hm := ha.recordMiss
  have hx : a.recordMiss.Extends a := ⟨rfl, fun _ _ h => h⟩
  unfold computeTarget
  simp only
  split
  · rename_i hempty
    refine ⟨?_, extends_addEdge.trans hx, fun _ => hempty⟩
    obtain hid | ⟨id, hid, hst, ho⟩ := hs
    · simpa only [Automaton.addEdge, hid] using hm
    · exact hm.addEdge hst (by simp) fun hu _ sim' hn =>
        hu _ t sim sim' (ha.met _ _ hst) ho rfl hn hempty
  · rename_i hne
    have hne : (sim.reach false s.configs t).isEmpty = false := by simpa using hne
    split
    · exact ⟨hm, hx, .inl rfl, rfl, hne, .inl rfl⟩
    · rename_i hkeep
      simp only [Bool.or_eq_true, Option.isNone_iff_eq_none, not_or, Bool.not_eq_true] at hkeep
      obtain hid | ⟨id, hid, hst, ho⟩ := hs
      · exact absurd hid hkeep.2
      · have heq := reach_eq_nextSet hkeep.1
        have hmet := heq ▸ (ha.met _ _ hst).next (t := t) ho (heq ▸ hkeep.1) (heq ▸ hne)
        have hadd := hm.addState hmet (sim.verdict (sim.reach false s.configs t)).1
          (sim.verdict (sim.reach false s.configs t)).2 (.inl rfl)
        generalize a.recordMiss.addState (sim.reach false s.configs t) _ _ = r at hadd
        obtain ⟨hrec, hext, hconf, id', hid', hst'⟩ := hadd
        simp only [hid']
        have hst₁ : r.2.state? id = some s := hext.state? hst
        refine ⟨hrec.addEdge hst₁ ?_ (by simp), extends_addEdge.trans (hext.trans hx),
          .inr ⟨id', hid', extends_addEdge.state? hst'⟩, hconf, hconf ▸ hne, ?_⟩
        · intro id'' h
          obtain rfl := AutomatonEdge.target.inj h
          exact ⟨_, hst', hconf.trans heq, hconf ▸ hne⟩
        · exact (hrec.verdict _ _ hst').imp_right fun h =>
            ⟨h.1, (hrec.met _ _ hst').predicated, ha.met _ _ hst, ho, h.2⟩

theorem target_spec (ha : Recorded sim.network d floors a) (hs : Ready sim.network d floors a s) :
    let r := sim.target a s t
    Recorded sim.network d floors r.2 ∧ r.2.Extends a ∧
      sim.Finds d floors s.configs t r.2 r.1 := by
  have hx : a.recordHit.Extends a := ⟨rfl, fun _ _ h => h⟩
  obtain hid | ⟨id, hid, hst, ho⟩ := hs
  · simp only [target, edge?_eq_none hid]
    exact computeTarget_spec ha (.inl hid)
  · unfold target
    rw [edge?_eq_edgeAt hid]
    split
    · rename_i he
      exact ⟨ha.recordHit, hx, fun hu => ha.errors hu _ _ _ he hst sim rfl⟩
    · rename_i id' he
      split
      · rename_i s' hs'
        obtain ⟨hc, hne⟩ := (ha.targets _ _ _ he).2 _ _ hst hs'
        have hp := (ha.met _ _ hs').predicated
        exact ⟨ha.recordHit, hx, .inr ⟨id', ha.id_of_state? hs', hs'⟩,
          hc.trans (nextSet_eq_reach (by rwa [hc] at hp)), hne,
          (ha.verdict _ _ hs').imp_right fun h => ⟨h.1, hp, ha.met _ _ hst, ho, h.2⟩⟩
      · exact computeTarget_spec ha (.inr ⟨id, hid, hst, ho⟩)
    · exact computeTarget_spec ha (.inr ⟨id, hid, hst, ho⟩)

theorem startState_spec (hf : floors sim.floor) (ha : Recorded sim.network d floors a) :
    let r := sim.startState d a
    Recorded sim.network d floors r.2 ∧ r.2.Extends a ∧ Ready sim.network d floors r.2 r.1 ∧
      r.1.configs = sim.startSet false d := by
  unfold startState
  split
  · rename_i s hs
    obtain ⟨id, hid, hst⟩ := Option.bind_eq_some_iff.1 hs
    have hc := (ha.starts _ _ hid).2 _ hst
    refine ⟨ha.recordHit, ⟨rfl, fun _ _ h => h⟩,
      .inr ⟨id, ha.id_of_state? hst, hst, .inr ⟨_, hf, hc⟩⟩, ?_⟩
    have hp := (ha.met _ _ hst).predicated
    exact hc.trans (firstSet_eq_startSet (by rwa [hc] at hp))
  · have hm := ha.recordMiss
    have hx : a.recordMiss.Extends a := ⟨rfl, fun _ _ h => h⟩
    simp only
    split
    · exact ⟨hm, hx, .inl rfl, rfl⟩
    · rename_i hp
      have hp : (sim.startSet false d).predicated = false := by simpa using hp
      have heq := startSet_eq_firstSet hp
      have hmet := heq ▸ Network.Met.first (d := d) hf (heq ▸ hp)
      have hadd := hm.addState hmet none false (.inr ⟨rfl, _, hf, heq⟩)
      generalize a.recordMiss.addState (sim.startSet false d) none false = r at hadd
      obtain ⟨hrec, hext, hconf, id, hid, hst⟩ := hadd
      exact ⟨hrec.setStart hst (hconf.trans heq), extends_setStart.trans (hext.trans hx),
        .inr ⟨id, hid, extends_setStart.state? hst, .inr ⟨_, hf, hconf.trans heq⟩⟩, hconf⟩

theorem recorded_predictFrom (mode : PredictionMode) (start : Nat)
    (ha : Recorded sim.network d floors a) (hs : Ready sim.network d floors a s)
    (input : TokenCursor) :
    Recorded sim.network d floors (sim.predictFrom d mode start a s input).2.1 := by
  fun_induction predictFrom sim d mode start a s input with
  | case1 a s input a' h => exact (h ▸ target_spec (t := input.kind) ha hs).1
  | case2 a s input s' a' h hctx p input' hp =>
    exact (h ▸ target_spec (t := input.kind) ha hs).1
  | case3 a s input s' a' h hctx alt hp => exact (h ▸ target_spec (t := input.kind) ha hs).1
  | case4 a s input s' a' h hctx hp heof => exact (h ▸ target_spec (t := input.kind) ha hs).1
  | case5 a s input s' a' h hctx hp heof ih =>
    have hspec := h ▸ target_spec (t := input.kind) ha hs
    exact ih hspec.1 (hspec.2.2.1.ready hspec.1 hp)

/-- Lookahead keeps the record. -/
theorem recorded_predict (hf : floors sim.floor) (ha : Recorded sim.network d floors a)
    (mode : PredictionMode) (input : TokenCursor) :
    Recorded sim.network d floors (sim.predict d mode a input).2.1 := by
  obtain ⟨hrec, -, hready, -⟩ := startState_spec hf ha
  exact recorded_predictFrom mode input.position hrec hready input

end Simulation

end AdaptiveParsing
