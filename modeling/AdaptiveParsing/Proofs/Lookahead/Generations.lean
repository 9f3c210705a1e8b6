import AdaptiveParsing.Proofs.Lookahead.Store
import AdaptiveParsing.Proofs.Token.Mirror
/-!
Lookahead does not depend on how its states are numbered. Two automata may hold the same states, starts
and edges under the numbers of different generations (`Automaton.Renumbers`): a new one and one that was
used and cleared do. Then each step of lookahead finds the same on both and keeps them so. Main
statements: `PredictionCache.History.renumbers_clear` and `Simulation.predict_mirrors`.
-/

namespace AdaptiveParsing

namespace Automaton

/-- The same number in the generations `g` and `g'`, or numbers that were given out before. -/
def SameNumber (g g' : Nat) (id id' : AutomatonStateId) : Prop :=
  id.generation = g ∧ id'.generation = g' ∧ id.index = id'.index ∨
    id.generation < g ∧ id'.generation < g'

/-- The same state, numbered in the generations `g` and `g'`. -/
structure SameState (g g' : Nat) (s s' : AutomatonState) : Prop where
  id : Option.Rel (fun id id' => ∃ i, id = ⟨g, i⟩ ∧ id' = ⟨g', i⟩) s.id s'.id
  configs : s.configs = s'.configs
  prediction : s.prediction = s'.prediction
  needsContext : s.needsContext = s'.needsContext

/-- The same edge, to a state numbered in the generations `g` and `g'`. -/
inductive SameEdge (g g' : Nat) : AutomatonEdge → AutomatonEdge → Prop
  | error : SameEdge g g' .error .error
  | target {id id' : AutomatonStateId} (h : SameNumber g g' id id') :
      SameEdge g g' (.target id) (.target id')

/-- The automata hold the same, each under the numbers of its own generation. -/
structure Renumbers (a b : Automaton) : Prop where
  states : ∀ i : Nat,
    Option.Rel (SameState a.generation b.generation) a.states[i]? b.states[i]?
  entries : ∀ es : List (ConfigKey × AltSet),
    Option.Rel (SameNumber a.generation b.generation) a.byEntries[es]? b.byEntries[es]?
  starts : ∀ floor : Int,
    Option.Rel (SameNumber a.generation b.generation) a.starts[floor]? b.starts[floor]?
  edges : ∀ (i : Nat) (t : TokenType), Option.Rel (SameEdge a.generation b.generation)
    (a.edgeAt ⟨a.generation, i⟩ t) (b.edgeAt ⟨b.generation, i⟩ t)

variable {a b : Automaton} {s s' : AutomatonState} {id id' : AutomatonStateId} {t : TokenType}
  {set : ConfigSet} {n : Network} {d : DecisionId} {floors : Int → Prop}

theorem sameNumber_refl (h : a.Issued id) : SameNumber a.generation a.generation id id := by
  obtain h | ⟨h, -⟩ := h
  · exact .inr ⟨h, h⟩
  · exact .inl ⟨h, h, rfl⟩

/-- An automaton that lookahead has filled agrees with itself. -/
theorem Recorded.renumbers (h : a.Recorded n d floors) : a.Renumbers a := by
  refine ⟨fun i => ?_, fun es => ?_, fun floor => ?_, fun i t => ?_⟩
  · cases hs : a.states[i]? with
    | none => exact .none
    | some s =>
      refine .some ⟨?_, rfl, rfl, rfl⟩
      rw [h.id_eq i s hs]
      exact .some ⟨i, rfl, rfl⟩
  · cases he : a.byEntries[es]? with
    | none => exact .none
    | some id => exact .some (sameNumber_refl (h.entries _ _ he).1)
  · cases he : a.starts[floor]? with
    | none => exact .none
    | some id => exact .some (sameNumber_refl (h.starts _ _ he).1)
  · cases he : a.edgeAt ⟨a.generation, i⟩ t with
    | none => exact .none
    | some e =>
      cases e with
      | error => exact .some .error
      | target id => exact .some (.target (sameNumber_refl (h.targets _ _ _ he).1))

/-- A cleared automaton holds what a new one does, but for edges that no state has any more. -/
theorem Recorded.renumbers_clear (h : a.Recorded n d floors) : a.clear.Renumbers {} := by
  refine ⟨fun i => ?_, fun es => ?_, fun floor => ?_, fun i t => ?_⟩
  · simp [Automaton.clear]
  · simp [Automaton.clear]
  · simp [Automaton.clear]
  · have hold : a.clear.edgeAt ⟨a.clear.generation, i⟩ t = none := by
      cases he : a.clear.edgeAt ⟨a.clear.generation, i⟩ t with
      | none => rfl
      | some e =>
        -- only numbers of the generations before have edges
        have hissued := h.sources _ _ _ (show a.edgeAt ⟨a.generation + 1, i⟩ t = some e from he)
        simp [Issued] at hissued
    have hnew : ({} : Automaton).edgeAt ⟨0, i⟩ t = none := by simp [edgeAt]
    rw [hold, hnew]
    exact .none

theorem History.renumbers (h : History n d floors a) : a.Renumbers a := h.recorded.renumbers

theorem History.renumbers_clear (h : History n d floors a) : a.clear.Renumbers {} :=
  h.recorded.renumbers_clear

namespace Renumbers

theorem size_eq (h : a.Renumbers b) : a.states.size = b.states.size := by
  have hiff : ∀ i, i < a.states.size ↔ i < b.states.size := by
    intro i
    have hi := h.states i
    rcases Nat.lt_or_ge i a.states.size with hlt | hge
    · rw [Array.getElem?_eq_getElem hlt] at hi
      generalize hb : b.states[i]? = x at hi
      cases hi
      exact ⟨fun _ => (Array.getElem?_eq_some_iff.1 hb).1, fun _ => hlt⟩
    · rw [Array.getElem?_eq_none hge] at hi
      generalize hb : b.states[i]? = x at hi
      cases hi
      have := Array.getElem?_eq_none_iff.1 hb
      lia
  exact Nat.le_antisymm (Nat.le_of_not_lt fun hlt => Nat.lt_irrefl _ ((hiff _).1 hlt))
    (Nat.le_of_not_lt fun hlt => Nat.lt_irrefl _ ((hiff _).2 hlt))

theorem recordHit (h : a.Renumbers b) : a.recordHit.Renumbers b.recordHit :=
  ⟨h.states, h.entries, h.starts, h.edges⟩

theorem recordMiss (h : a.Renumbers b) : a.recordMiss.Renumbers b.recordMiss :=
  ⟨h.states, h.entries, h.starts, h.edges⟩

/-- A number finds the same state, or none, in both. -/
theorem state? (h : a.Renumbers b) (hid : SameNumber a.generation b.generation id id') :
    Option.Rel (SameState a.generation b.generation) (a.state? id) (b.state? id') := by
  unfold Automaton.state?
  obtain ⟨hg, hg', hi⟩ | ⟨hg, hg'⟩ := hid
  · rw [if_pos hg, if_pos hg', hi]
    exact h.states _
  · rw [if_neg (Nat.ne_of_lt hg), if_neg (Nat.ne_of_lt hg')]
    exact .none

theorem start? (h : a.Renumbers b) (floor : Int) :
    Option.Rel (SameState a.generation b.generation) (a.start? floor) (b.start? floor) :=
  option_rel_bind (h.starts floor) fun _ _ => h.state?

theorem edge? (h : a.Renumbers b) (hs : SameState a.generation b.generation s s') (t : TokenType) :
    Option.Rel (SameEdge a.generation b.generation) (a.edge? s t) (b.edge? s' t) := by
  have hid := hs.id
  generalize hi : s.id = x at hid
  generalize hi' : s'.id = y at hid
  cases hid with
  | none =>
    rw [edge?_eq_none hi, edge?_eq_none hi']
    exact .none
  | some hid =>
    obtain ⟨i, rfl, rfl⟩ := hid
    rw [edge?_eq_edgeAt hi, edge?_eq_edgeAt hi']
    exact h.edges i t

theorem addEdge (h : a.Renumbers b) (hs : SameState a.generation b.generation s s') (t : TokenType)
    {e e' : AutomatonEdge} (he : SameEdge a.generation b.generation e e') :
    (a.addEdge s t e).Renumbers (b.addEdge s' t e') := by
  have hid := hs.id
  generalize hi : s.id = x at hid
  generalize hi' : s'.id = y at hid
  cases hid with
  | none =>
    simp only [Automaton.addEdge, hi, hi']
    exact h
  | some hid =>
    obtain ⟨i, rfl, rfl⟩ := hid
    have hedge := edgeAt_addEdge (a := a) hi t e
    have hedge' := edgeAt_addEdge (a := b) hi' t e'
    simp only [Automaton.addEdge, hi, hi'] at hedge hedge' ⊢
    refine ⟨h.states, h.entries, h.starts, fun j t₁ => ?_⟩
    rw [hedge, hedge']
    by_cases hsame : i = j ∧ t = t₁
    · obtain ⟨rfl, rfl⟩ := hsame
      rw [if_pos ⟨rfl, rfl⟩, if_pos ⟨rfl, rfl⟩]
      exact .some he
    · rw [if_neg fun hc => hsame ⟨by simpa using hc.1, hc.2⟩,
        if_neg fun hc => hsame ⟨by simpa using hc.1, hc.2⟩]
      exact h.edges j t₁

theorem setStart (h : a.Renumbers b) (hs : SameState a.generation b.generation s s') (floor : Int) :
    (a.setStart floor s).Renumbers (b.setStart floor s') := by
  have hid := hs.id
  generalize hi : s.id = x at hid
  generalize hi' : s'.id = y at hid
  cases hid with
  | none =>
    simp only [Automaton.setStart, hi, hi']
    exact h
  | some hid =>
    obtain ⟨i, rfl, rfl⟩ := hid
    simp only [Automaton.setStart, hi, hi']
    refine ⟨h.states, h.entries, fun f => ?_, h.edges⟩
    rw [Std.HashMap.getElem?_alter, Std.HashMap.getElem?_alter]
    split
    · have hold := h.starts floor
      generalize a.starts[floor]? = x at hold
      generalize b.starts[floor]? = y at hold
      cases hold with
      | none => exact .some (.inl ⟨rfl, rfl, rfl⟩)
      | some hold =>
        dsimp only
        -- what was the start of this generation stays, on both sides
        obtain ⟨hg, hg', hi⟩ | ⟨hg, hg'⟩ := hold
        · rw [if_pos hg, if_pos hg']
          exact .some (.inl ⟨hg, hg', hi⟩)
        · rw [if_neg (Nat.ne_of_lt hg), if_neg (Nat.ne_of_lt hg')]
          exact .some (.inl ⟨rfl, rfl, rfl⟩)
    · exact h.starts f

theorem addState (h : a.Renumbers b) (set : ConfigSet) (prediction : Option Nat)
    (needsContext : Bool) :
    let r := a.addState set prediction needsContext
    let r' := b.addState set prediction needsContext
    SameState a.generation b.generation r.1 r'.1 ∧ r.2.Renumbers r'.2 ∧
      r.2.generation = a.generation ∧ r'.2.generation = b.generation := by
  have hfound : Option.Rel (SameState a.generation b.generation)
      (a.byEntries[set.entries]?.bind a.state?) (b.byEntries[set.entries]?.bind b.state?) :=
    option_rel_bind (h.entries _) fun _ _ => h.state?
  generalize hk : a.byEntries[set.entries]?.bind a.state? = x at hfound
  generalize hk' : b.byEntries[set.entries]?.bind b.state? = y at hfound
  cases hfound with
  | some hs =>
    rw [addState_of_known hk, addState_of_known hk']
    exact ⟨hs, h, rfl, rfl⟩
  | none =>
    rw [addState_of_unknown hk, addState_of_unknown hk']
    have hfresh : SameState a.generation b.generation (a.fresh set (prediction, needsContext))
        (b.fresh set (prediction, needsContext)) :=
      ⟨.some ⟨a.states.size, rfl, by rw [h.size_eq]⟩, rfl, rfl, rfl⟩
    refine ⟨hfresh, ⟨fun i => ?_, fun es => ?_, h.starts, h.edges⟩, rfl, rfl⟩
    · rw [withFresh, withFresh, Array.getElem?_push, Array.getElem?_push, h.size_eq]
      split
      · exact .some hfresh
      · exact h.states i
    · rw [withFresh, withFresh, Std.HashMap.getElem?_insert, Std.HashMap.getElem?_insert]
      split
      · exact .some (.inl ⟨rfl, rfl, h.size_eq⟩)
      · exact h.entries es

end Renumbers

end Automaton

namespace PredictionCache

variable {n : Network} {c : PredictionCache}

/-- There is an automaton for each decision all along. -/
theorem History.size_eq (h : History n c) : c.automata.size = n.decisions.size := by
  induction h with
  | fresh => simp [ofNetwork]
  | clear _ ih => simpa [PredictionCache.clear] using ih
  | predict _ _ _ _ _ _ ih => simpa [PredictionCache.set] using ih

theorem History.renumbers (h : History n c) (d : DecisionId) :
    Option.Rel Automaton.Renumbers (c.get? d) (c.get? d) := by
  cases ha : c.get? d with
  | none => exact .none
  | some a => exact .some (h.automaton d a ha).renumbers

/-- A cleared cache is like a new one. -/
theorem History.renumbers_clear (h : History n c) (d : DecisionId) :
    Option.Rel Automaton.Renumbers (c.clear.get? d) ((ofNetwork n).get? d) := by
  have hsize := h.size_eq
  have hnew : (ofNetwork n).get? d = if d < n.decisions.size then some {} else none := by
    simp [get?, ofNetwork, Array.getElem?_replicate]
  have hclear : c.clear.get? d = (c.get? d).map Automaton.clear := by
    simp [get?, PredictionCache.clear]
  rw [hnew, hclear]
  cases ha : c.get? d with
  | none =>
    have hge : c.automata.size ≤ d := Array.getElem?_eq_none_iff.1 ha
    rw [if_neg (by lia)]
    exact .none
  | some a =>
    have hlt : d < c.automata.size := (Array.getElem?_eq_some_iff.1 ha).1
    rw [if_pos (by lia)]
    exact .some (h.automaton d a ha).renumbers_clear

end PredictionCache

namespace Simulation

/-- The simulations differ in the forest only, and not in what lookahead sees of it. -/
structure SameView (sim sim' : Simulation) : Prop where
  network : sim.network = sim'.network
  invocation : sim.invocation = sim'.invocation
  floor : sim.floor = sim'.floor
  answers : sim.predicates sim.forest = sim'.predicates sim'.forest
  size : sim.forest.size = sim'.forest.size
  parent : ∀ id, (sim.forest.get id).parent = (sim'.forest.get id).parent
  caller : ∀ id, (sim.forest.get id).caller = (sim'.forest.get id).caller
  precedence : ∀ id, (sim.forest.get id).precedence = (sim'.forest.get id).precedence

variable {sim sim' : Simulation} {d : DecisionId} {a b : Automaton} {s s' : AutomatonState}
  {t : TokenType}

namespace SameView

theorem follow? (h : sim.SameView sim') : sim.follow? = sim'.follow? := by
  funext c t
  simp only [Simulation.follow?, h.answers, h.invocation]

theorem leave (h : sim.SameView sim') : sim.leave = sim'.leave := by
  funext full c rule
  have hreturn : sim.liveReturn? = sim'.liveReturn? := by
    funext id
    simp only [liveReturn?, h.network, h.parent, h.caller, h.precedence]
  have hlive : sim.liveInvocation? = sim'.liveInvocation? := by
    funext placement
    simp only [liveInvocation?, h.invocation]
  have hunknown : sim.unknownReturns = sim'.unknownReturns := by
    funext rule
    simp only [unknownReturns, h.network]
  simp only [Simulation.leave, hreturn, hlive, hunknown]

theorem closure (h : sim.SameView sim') : sim.closure = sim'.closure := by
  funext full seeds predicated
  have hstep : sim.closureStep full = sim'.closureStep full := by
    funext w
    simp only [closureStep, h.follow?, h.leave, h.network]
  have hrun : ∀ fuel w, sim.closureRun full fuel w = sim'.closureRun full fuel w := by
    intro fuel
    induction fuel with
    | zero => exact fun _ => rfl
    | succ fuel ih =>
      intro w
      simp only [closureRun, hstep, ih]
  have hbound : sim.closureBound full seeds = sim'.closureBound full seeds := by
    simp only [closureBound, h.network, h.size]
  rw [Simulation.closure, Simulation.closure, hbound, hrun]

theorem startSet (h : sim.SameView sim') : sim.startSet = sim'.startSet := by
  funext full d
  simp only [Simulation.startSet, h.closure, h.follow?, h.network, h.floor]

theorem reach (h : sim.SameView sim') : sim.reach = sim'.reach := by
  funext full set t
  simp only [Simulation.reach, taken, atEnd, h.closure, h.network]

theorem verdict (h : sim.SameView sim') : sim.verdict = sim'.verdict := by
  funext set
  exact sim.verdict_eq sim' h.network

end SameView

/-- What a step finds on two automata: the same state or none, and they still hold the same. -/
structure SameFind (a b : Automaton) (r r' : Option AutomatonState × Automaton) : Prop where
  state : Option.Rel (Automaton.SameState a.generation b.generation) r.1 r'.1
  automata : r.2.Renumbers r'.2
  generation : r.2.generation = a.generation
  generation' : r'.2.generation = b.generation

theorem generation_addEdge {e : AutomatonEdge} : (a.addEdge s t e).generation = a.generation :=
  Automaton.extends_addEdge.1

theorem computeTarget_renumbers (hv : sim.SameView sim') (h : a.Renumbers b)
    (hs : Automaton.SameState a.generation b.generation s s') (t : TokenType) :
    SameFind a b (sim.computeTarget a s t) (sim'.computeTarget b s' t) := by
  have hid : s.id.isNone = s'.id.isNone := by
    have hid := hs.id
    generalize s.id = x at hid ⊢
    generalize s'.id = y at hid ⊢
    cases hid <;> rfl
  have hm := h.recordMiss
  unfold computeTarget
  simp only [hv.reach, hv.verdict, ← hs.configs, ← hid]
  split
  · exact ⟨.none, hm.addEdge hs t .error, generation_addEdge, generation_addEdge⟩
  · split
    · exact ⟨.some ⟨.none, rfl, rfl, rfl⟩, hm, rfl, rfl⟩
    · obtain ⟨hstate, hadd, hg, hg'⟩ := hm.addState (sim'.reach false s.configs t)
        (sim'.verdict (sim'.reach false s.configs t)).1 (sim'.verdict (sim'.reach false s.configs t)).2
      generalize a.recordMiss.addState (sim'.reach false s.configs t) _ _ = r at *
      generalize b.recordMiss.addState (sim'.reach false s.configs t) _ _ = r' at *
      obtain ⟨s₁, a₁⟩ := r
      obtain ⟨s₂, b₁⟩ := r'
      have hnumber := hstate.id
      dsimp only at hnumber ⊢
      generalize s₁.id = x at hnumber ⊢
      generalize s₂.id = y at hnumber ⊢
      cases hnumber with
      | none => exact ⟨.some hstate, hadd, hg, hg'⟩
      | some hnumber =>
        obtain ⟨i, rfl, rfl⟩ := hnumber
        refine ⟨.some hstate, hadd.addEdge ?_ t (.target (.inl ⟨?_, ?_, rfl⟩)),
          generation_addEdge.trans hg, generation_addEdge.trans hg'⟩
        · rw [hg, hg']
          exact hs
        · exact hg.symm
        · exact hg'.symm

theorem target_renumbers (hv : sim.SameView sim') (h : a.Renumbers b)
    (hs : Automaton.SameState a.generation b.generation s s') (t : TokenType) :
    SameFind a b (sim.target a s t) (sim'.target b s' t) := by
  have hedge := h.edge? hs t
  have hcompute := computeTarget_renumbers hv h hs t
  unfold target
  generalize a.edge? s t = e at hedge ⊢
  generalize b.edge? s' t = e' at hedge ⊢
  cases hedge with
  | none => exact hcompute
  | some hedge =>
    cases hedge with
    | error => exact ⟨.none, h.recordHit, rfl, rfl⟩
    | target hid =>
      have hstate := h.state? hid
      dsimp only
      generalize a.state? _ = x at hstate ⊢
      generalize b.state? _ = y at hstate ⊢
      cases hstate with
      | none => exact hcompute
      | some hstate => exact ⟨.some hstate, h.recordHit, rfl, rfl⟩

theorem startState_renumbers (hv : sim.SameView sim') (h : a.Renumbers b) (d : DecisionId) :
    let r := sim.startState d a
    let r' := sim'.startState d b
    SameFind a b (some r.1, r.2) (some r'.1, r'.2) := by
  have hstart := h.start? sim'.floor
  have hm := h.recordMiss
  unfold startState
  simp only [hv.startSet, hv.floor]
  generalize a.start? sim'.floor = x at hstart ⊢
  generalize b.start? sim'.floor = y at hstart ⊢
  cases hstart with
  | some hs => exact ⟨.some hs, h.recordHit, rfl, rfl⟩
  | none =>
    dsimp only
    split
    · exact ⟨.some ⟨.none, rfl, rfl, rfl⟩, hm, rfl, rfl⟩
    · obtain ⟨hstate, hadd, hg, hg'⟩ := hm.addState (sim'.startSet false d) none false
      have hstate' := hstate
      rw [show a.recordMiss.generation = _ from hg.symm,
        show b.recordMiss.generation = _ from hg'.symm] at hstate'
      refine ⟨.some hstate, hadd.setStart hstate' _, ?_, ?_⟩
      · exact Automaton.extends_setStart.1.trans hg
      · exact Automaton.extends_setStart.1.trans hg'

end Simulation

/-- The same outcome of lookahead, at indices that stand for each other. -/
inductive Prediction.Mirrors (m : Mirror) : Prediction → Prediction → Prop
  | alternative (alt : Nat) : Mirrors m (.alternative alt) (.alternative alt)
  | noViable {start start' offending offending' : Nat} (hs : m.index start start')
      (ho : m.index offending offending') :
      Mirrors m (.noViable start offending) (.noViable start' offending')
  | unsettled : Mirrors m .unsettled .unsettled

namespace Simulation

variable {m : Mirror} {sim sim' : Simulation} {d : DecisionId} {a b : Automaton}
  {s s' : AutomatonState} {c c' : TokenCursor}

theorem deadEnd_mirrors (hn : sim.network = sim'.network) {start start' offending offending' : Nat}
    (hs : m.index start start') (ho : m.index offending offending') (set : ConfigSet) :
    (sim.deadEnd set start offending).Mirrors m (sim'.deadEnd set start' offending') := by
  unfold deadEnd
  rw [hn]
  split
  · exact .alternative _
  · exact .noViable hs ho

theorem predictInContext_mirrors (hm : m.Faithful) (hv : sim.SameView sim') {start start' : Nat}
    (hs : m.index start start') (set : ConfigSet) (c : TokenCursor) :
    ∀ c', m.cursor c c' →
      (sim.predictInContext start set c).1.Mirrors m (sim'.predictInContext start' set c').1 ∧
        m.cursor (sim.predictInContext start set c).2 (sim'.predictInContext start' set c').2 := by
  fun_induction predictInContext sim start set c with
  | case1 set c configs hempty =>
    intro c' hc
    rw [predictInContext.eq_def sim', ← hm.kind_cursor hc, ← hv.reach, if_pos hempty]
    exact ⟨deadEnd_mirrors hv.network hs (hm.position hc) set, hc⟩
  | case2 set c configs hempty alt hsettled =>
    intro c' hc
    rw [predictInContext.eq_def sim', ← hm.kind_cursor hc, ← hv.reach, if_neg hempty, hsettled]
    exact ⟨.alternative alt, hc⟩
  | case3 set c configs hempty hsettled heof =>
    intro c' hc
    rw [predictInContext.eq_def sim', ← hm.kind_cursor hc, ← hv.reach, if_neg hempty, hsettled]
    dsimp only
    rw [dif_pos (hm.isEof (hm.current hc) ▸ heof)]
    exact ⟨.unsettled, hc⟩
  | case4 set c configs hempty hsettled heof ih =>
    intro c' hc
    rw [predictInContext.eq_def sim', ← hm.kind_cursor hc, ← hv.reach, if_neg hempty, hsettled]
    dsimp only
    rw [dif_neg (hm.isEof (hm.current hc) ▸ heof)]
    exact ih _ (hm.consume hc)

/-- Lookahead on both automata comes to the same outcome, and they still hold the same. -/
structure SameRun (m : Mirror) (r r' : Prediction × Automaton × TokenCursor) :
    Prop where
  prediction : r.1.Mirrors m r'.1
  automata : r.2.1.Renumbers r'.2.1
  cursor : m.cursor r.2.2 r'.2.2

theorem predictFrom_mirrors (hm : m.Faithful) (hv : sim.SameView sim') (mode : PredictionMode)
    {start start' : Nat} (hs : m.index start start') (h : a.Renumbers b)
    (hstate : Automaton.SameState a.generation b.generation s s') (hc : m.cursor c c') :
    SameRun m (sim.predictFrom d mode start a s c) (sim'.predictFrom d mode start' b s' c') := by
  induction hn : c.remaining using Nat.strongRecOn generalizing a b s s' c c' with
  | ind n ih =>
    obtain ⟨hto, ha, hg, hg'⟩ := target_renumbers hv h hstate c.kind
    rw [predictFrom.eq_def sim, predictFrom.eq_def sim', ← hm.kind_cursor hc]
    generalize sim.target a s c.kind = r at hto ha hg ⊢
    generalize sim'.target b s' c.kind = r' at hto ha hg' ⊢
    obtain ⟨x, a₁⟩ := r
    obtain ⟨y, b₁⟩ := r'
    cases hto with
    | none =>
      rw [← hstate.configs]
      exact ⟨deadEnd_mirrors hv.network hs (hm.position hc) _, ha, hc⟩
    | some hto =>
      dsimp only
      rw [← hto.needsContext, ← hto.prediction]
      split
      · obtain ⟨hp, hc₁⟩ := predictInContext_mirrors hm hv hs (sim.startSet true d) (c.seek start) _
          (hm.seek hc hs)
        rw [← hv.startSet]
        exact ⟨hp, ha, hc₁⟩
      · split
        · exact ⟨.alternative _, ha, hc⟩
        · by_cases heof : c.current.isEof = true
          · rw [dif_pos heof, dif_pos (hm.isEof (hm.current hc) ▸ heof)]
            exact ⟨.unsettled, ha, hc⟩
          · rw [dif_neg heof, dif_neg (hm.isEof (hm.current hc) ▸ heof)]
            have hless := TokenCursor.remaining_consume_lt (by simpa using heof)
            refine ih _ (hn ▸ hless) ha ?_ (hm.consume hc) rfl
            rw [hg, hg']
            exact hto

/-- Lookahead comes to the same outcome on automata that hold the same, and keeps them so. -/
theorem predict_mirrors (hm : m.Faithful) (hv : sim.SameView sim') (d : DecisionId)
    (mode : PredictionMode) (h : a.Renumbers b) (hc : m.cursor c c') :
    SameRun m (sim.predict d mode a c) (sim'.predict d mode b c') := by
  obtain ⟨hstart, ha, hg, hg'⟩ := startState_renumbers hv h d
  rw [← hg, ← hg'] at hstart
  exact predictFrom_mirrors hm hv mode (hm.position hc) ha (Option.rel_some_some.1 hstart) hc

end Simulation

end AdaptiveParsing
