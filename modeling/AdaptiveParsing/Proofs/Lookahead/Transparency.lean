import AdaptiveParsing.Grammar.Lowering
import AdaptiveParsing.Proofs.Lookahead.Record
import AdaptiveParsing.Proofs.Lookahead.Saturation
/-!
What lookahead remembers does not show. Main statement: however many predictions were made before, a
prediction has the outcome it would have if nothing were recorded (`predict_after_history`). Two
things have to be kept out for that: a step that predicates leave without configurations, since the
dead end is recorded whatever the predicates say later (`dead_end_outlives_predicates`); and a set
with a verdict that is also a set to start with, since a start is recorded without one.
-/

namespace AdaptiveParsing

/-- What is recorded for one prediction holds for the others. -/
structure Network.Repeatable (n : Network) (d : DecisionId) (floors : Int → Prop) : Prop where
  dead_ends : n.DeadEndsAgree d floors
  /-- A set to start with is met again only where nothing is decided. -/
  starts : ∀ (set : ConfigSet) (t : TokenType) (floor : Int), n.Met d floors set →
    n.Open d floors set → floors floor → (n.nextSet set t).predicated = false →
      (n.nextSet set t).isEmpty = false → n.nextSet set t = n.firstSet d floor →
        (n.bare 0).verdict (n.nextSet set t) = (none, false)

/-- Without predicates it is enough that nothing is decided at the start. -/
theorem Network.PredicateFree.repeatable {n : Network} {d : DecisionId} {floors : Int → Prop}
    (h : n.PredicateFree)
    (hs : ∀ floor, floors floor → (n.bare 0).verdict (n.firstSet d floor) = (none, false)) :
    n.Repeatable d floors :=
  ⟨h.deadEndsAgree, fun _ _ floor _ _ hf _ _ he => he ▸ hs floor hf⟩

/-- The automata that predictions of decision `d` leave, from an empty one on. -/
inductive Automaton.History (n : Network) (d : DecisionId) (floors : Int → Prop) : Automaton → Prop
  | empty : History n d floors {}
  | clear {a : Automaton} (h : History n d floors a) : History n d floors a.clear
  | predict {a : Automaton} (h : History n d floors a) (sim : Simulation) (hn : sim.network = n)
      (hf : floors sim.floor) (mode : PredictionMode) (input : TokenCursor) :
      History n d floors (sim.predict d mode a input).2.1

variable {n : Network} {d : DecisionId} {floors : Int → Prop} {a : Automaton}

theorem Automaton.History.recorded (h : History n d floors a) : a.Recorded n d floors := by
  induction h with
  | empty => exact recorded_empty
  | clear _ ih => exact ih.clear
  | predict _ sim hn hf mode input ih =>
    subst hn
    exact sim.recorded_predict hf ih mode input

namespace Simulation

open Automaton

variable {sim sim' : Simulation} {s : AutomatonState} {set : ConfigSet} {t : TokenType}
  {mode : PredictionMode} {input : TokenCursor}

/-- Prediction from a set of configurations on that neither looks anything up nor records it. -/
def unrecorded (sim : Simulation) (d : DecisionId) (mode : PredictionMode) (start : Nat)
    (set : ConfigSet) (input : TokenCursor) : Prediction :=
  let next := sim.reach false set input.kind
  if next.isEmpty then sim.deadEnd set start input.position
  else if (sim.verdict next).2 && mode == .ll then
    (sim.predictInContext start (sim.startSet true d) (input.seek start)).1
  else
    match (sim.verdict next).1 with
    | some alt => .alternative alt
    | none =>
      if _ : input.current.isEof then .unsettled
      else unrecorded sim d mode start next input.consume
termination_by input.remaining
decreasing_by exact TokenCursor.remaining_consume_lt (by simpa using ‹¬input.current.isEof = true›)

/-- Under `Repeatable` a state that is found has the verdict of the set that was reached. -/
theorem verdict_of_finds (hr : sim.network.Repeatable d floors)
    (h : sim.Finds d floors set t a (some s)) :
    s.configs = sim.reach false set t ∧ (sim.reach false set t).isEmpty = false ∧
      s.prediction = (sim.verdict (sim.reach false set t)).1 ∧
        s.needsContext = (sim.verdict (sim.reach false set t)).2 := by
  obtain ⟨-, hc, hne, hv⟩ := h
  rw [hc] at hne hv
  refine ⟨hc, hne, ?_⟩
  obtain hv | ⟨hv, hp, hm, ho, floor, hf, hs⟩ := hv
  · exact ⟨congrArg Prod.fst hv, congrArg Prod.snd hv⟩
  · have hn := reach_eq_nextSet hp
    rw [hn] at hp hne hs
    rw [hn, sim.verdict_eq (sim.network.bare 0) rfl, hr.starts _ _ _ hm ho hf hp hne hs]
    exact ⟨congrArg Prod.fst hv, congrArg Prod.snd hv⟩

/-- Under `Repeatable` lookahead that records has the outcome of lookahead that does not. -/
theorem predictFrom_eq_unrecorded (hr : sim.network.Repeatable d floors) (mode : PredictionMode)
    (start : Nat) (ha : a.Recorded sim.network d floors)
    (hs : Automaton.Ready sim.network d floors a s) (input : TokenCursor) :
    (sim.predictFrom d mode start a s input).1 =
      sim.unrecorded d mode start s.configs input := by
  fun_induction predictFrom sim d mode start a s input with
  | case1 a s input a' h =>
    have hempty : (sim.reach false s.configs input.kind).isEmpty = true :=
      (h ▸ target_spec (t := input.kind) ha hs).2.2 hr.dead_ends
    rw [unrecorded, if_pos hempty]
  | case2 a s input s' a' h hctx p input' hp =>
    obtain ⟨-, hne, -, hneed⟩ := verdict_of_finds hr
      (h ▸ target_spec (t := input.kind) ha hs).2.2
    rw [unrecorded, if_neg (by simp [hne]), if_pos (by rwa [← hneed]), hp]
  | case3 a s input s' a' h hctx alt hp =>
    obtain ⟨-, hne, hpred, hneed⟩ := verdict_of_finds hr
      (h ▸ target_spec (t := input.kind) ha hs).2.2
    rw [unrecorded, if_neg (by simp [hne]), if_neg (by rwa [← hneed]), ← hpred, hp]
  | case4 a s input s' a' h hctx hp heof =>
    obtain ⟨-, hne, hpred, hneed⟩ := verdict_of_finds hr
      (h ▸ target_spec (t := input.kind) ha hs).2.2
    rw [unrecorded, if_neg (by simp [hne]), if_neg (by rwa [← hneed]), ← hpred, hp]
    simp [heof]
  | case5 a s input s' a' h hctx hp heof ih =>
    obtain ⟨hrec, -, hfind⟩ := h ▸ target_spec (t := input.kind) ha hs
    obtain ⟨hc, hne, hpred, hneed⟩ := verdict_of_finds hr hfind
    rw [ih hrec (hfind.1.ready hrec hp), unrecorded.eq_def sim d mode start s.configs,
      if_neg (by simp [hne]), if_neg (by rwa [← hneed]), ← hpred, hp, hc]
    simp [heof]

theorem predict_eq_unrecorded (hr : sim.network.Repeatable d floors) (hf : floors sim.floor)
    (mode : PredictionMode) (ha : a.Recorded sim.network d floors) (input : TokenCursor) :
    (sim.predict d mode a input).1 =
      sim.unrecorded d mode input.position (sim.startSet false d) input := by
  obtain ⟨hrec, -, hheld, hc⟩ := startState_spec hf ha
  rw [← hc]
  exact predictFrom_eq_unrecorded hr mode input.position hrec hheld input

/-- Whatever was predicted before, with whatever predicates, a prediction has the outcome it would
have if nothing were recorded. -/
theorem predict_after_history (sim : Simulation) (hr : sim.network.Repeatable d floors)
    (hf : floors sim.floor) (ha : Automaton.History sim.network d floors a) (mode : PredictionMode) (input : TokenCursor) :
    (sim.predict d mode a input).1 = (sim.predict d mode {} input).1 := by
  rw [predict_eq_unrecorded hr hf mode ha.recorded input,
    predict_eq_unrecorded hr hf mode Automaton.recorded_empty input]

end Simulation

open Simulation

/-- The network of a rule that is the token A followed by B or by C. -/
def forkedNetwork : Network where
  states := #[⟨.ruleStart, 0, [⟨10, .epsilon⟩], none, false⟩, ⟨.ruleStop, 0, [], none, false⟩,
    ⟨.basic, 0, [⟨3, .atom 1⟩], none, false⟩, ⟨.basic, 0, [⟨4, .epsilon⟩], none, false⟩,
    ⟨.basic, 0, [⟨5, .atom 2⟩], none, false⟩, ⟨.basic, 0, [⟨11, .epsilon⟩], none, false⟩,
    ⟨.basic, 0, [⟨7, .atom 1⟩], none, false⟩, ⟨.basic, 0, [⟨8, .epsilon⟩], none, false⟩,
    ⟨.basic, 0, [⟨9, .atom 3⟩], none, false⟩, ⟨.basic, 0, [⟨11, .epsilon⟩], none, false⟩,
    ⟨.blockStart, 0, [⟨2, .epsilon⟩, ⟨6, .epsilon⟩], some 0, false⟩,
    ⟨.blockEnd, 0, [⟨1, .epsilon⟩], none, false⟩]
  rules := #[⟨"s", 0, 1, false⟩]
  decisions := #[10]
  maxType := 3
  ruleFollow := #[[]]
  returnPrecedence := .replicate 12 none
  edgeCount := 12

/-- Input that the first alternative takes, and input that the second takes. -/
def inputAB : TokenCursor := .ofTokens #[{ kind := 1 }, { kind := 2 }] defaultChannel

def inputAC : TokenCursor := .ofTokens #[{ kind := 1 }, { kind := 3 }] defaultChannel

theorem repeatable_forked : forkedNetwork.Repeatable 0 (· = 0) := by
  refine Network.PredicateFree.repeatable (by decide) ?_
  rintro floor rfl
  have hs : forkedNetwork.firstSet 0 0 =
      .ofList [⟨{ state := 2, precedence := 0 }, 1⟩, ⟨{ state := 6, precedence := 0 }, 2⟩] false := by
    rw [Network.firstSet, startSet_eq_startClosure, if_neg (by cbv; decide), startClosure,
      closure_eq_closureRun (k := 20) (by decide) (by cbv)]
    cbv
  rw [hs]
  cbv

theorem predict_inputAC_after_inputAB :
    ((forkedNetwork.bare 0).predict 0 .ll
      ((forkedNetwork.bare 0).predict 0 .ll {} inputAB).2.1 inputAC).1 =
        ((forkedNetwork.bare 0).predict 0 .ll {} inputAC).1 := by
  have ha : Automaton.History forkedNetwork 0 (· = 0)
      ((forkedNetwork.bare 0).predict 0 .ll {} inputAB).2.1 :=
    .predict .empty (forkedNetwork.bare 0) (by rfl) (by rfl) .ll inputAB
  exact predict_after_history (forkedNetwork.bare 0) repeatable_forked rfl ha .ll inputAC

namespace Simulation

open Automaton

variable {sim sim' : Simulation} {s : AutomatonState} {set : ConfigSet} {t : TokenType}
  {mode : PredictionMode} {input : TokenCursor}

/-- The automaton after the start of decision `d` was found out first. -/
def startRecord (sim : Simulation) (d : DecisionId) : AutomatonState × Automaton :=
  let s := ({} : Automaton).fresh (sim.startSet false d) (none, false)
  (s, (({} : Automaton).recordMiss.withFresh (sim.startSet false d) (none, false)).setStart
    sim.floor s)

theorem startState_empty (hp : (sim.startSet false d).predicated = false) :
    sim.startState d {} = sim.startRecord d := by
  simp [startState, start?, hp, startRecord, recordMiss, addState, fresh, withFresh]

/-- A first step with a verdict decides, unless the callers have to be looked at. -/
theorem predict_of_verdict {alt : Nat} {needsContext : Bool}
    (hp : (sim.startSet false d).predicated = false)
    (hfull : (sim.reach false (sim.startSet false d) input.kind).isEmpty = false)
    (hne : (sim.reach false (sim.startSet false d) input.kind).entries ≠
      (sim.startSet false d).entries)
    (hv : sim.verdict (sim.reach false (sim.startSet false d) input.kind) =
      (some alt, needsContext)) :
    (sim.predict d mode {} input).1 = if needsContext && mode == .ll then
      (sim.predictInContext input.position (sim.startSet true d) (input.seek input.position)).1
      else .alternative alt := by
  obtain ⟨s, a, ht, hs, hn⟩ : ∃ s a, sim.target (sim.startRecord d).2 (sim.startRecord d).1
      input.kind = (some s, a) ∧ s.prediction = some alt ∧ s.needsContext = needsContext := by
    generalize hset : sim.reach false (sim.startSet false d) input.kind = set at hv hne hfull
    have hnew : ((∅ : Std.HashMap (List (ConfigKey × AltSet)) AutomatonStateId).insert
        (sim.startSet false d).entries ⟨0, 0⟩)[set.entries]? = none := by
      simp [hne.symm]
    simp [target, edge?, edgesOf, startRecord, fresh, setStart, withFresh, recordMiss,
      computeTarget, hset, hfull, hv, addState, hnew]
    cases set.predicated <;> simp
  rw [predict, startState_empty hp]
  simp only
  rw [predictFrom, ht]
  dsimp only
  rw [hn, hs]
  split <;> rfl

/-- A first step that leaves one alternative decides for it. -/
theorem predict_of_unique {alt : Nat} (hp : (sim.startSet false d).predicated = false)
    (hu : (sim.reach false (sim.startSet false d) input.kind).uniqueAlt? = some alt)
    (hne : (sim.reach false (sim.startSet false d) input.kind).entries ≠
      (sim.startSet false d).entries) :
    (sim.predict d mode {} input).1 = .alternative alt := by
  have hfull : (sim.reach false (sim.startSet false d) input.kind).isEmpty = false := by
    generalize sim.reach false (sim.startSet false d) input.kind = set at hu
    cases he : set.isEmpty with
    | false => rfl
    | true =>
      have hnil : set.entries = [] := by simpa [ConfigSet.isEmpty] using he
      simp [ConfigSet.uniqueAlt?, ConfigSet.alts, hnil, AltSet.single?] at hu
  have hv : sim.verdict (sim.reach false (sim.startSet false d) input.kind) = (some alt, false) := by
    simp [verdict, hu]
  have := @predict_of_verdict d sim mode input alt false hp hfull hne hv
  simpa using this

/-- A first step that is left without configurations is a dead end from then on, whatever the
predicates say. -/
theorem dead_end_replayed (sim sim' : Simulation) (hf : sim'.floor = sim.floor)
    (hp : (sim.startSet false d).predicated = false)
    (he : (sim.reach false (sim.startSet false d) input.kind).isEmpty = true) :
    (sim'.predict d mode (sim.predict d mode {} input).2.1 input).1 =
      sim'.deadEnd (sim.startSet false d) input.position input.position := by
  have hfirst : sim.predict d mode {} input =
      (sim.deadEnd (sim.startSet false d) input.position input.position,
        (sim.startRecord d).2.recordMiss.addEdge (sim.startRecord d).1 input.kind .error, input) := by
    have ht : sim.target (sim.startRecord d).2 (sim.startRecord d).1 input.kind =
        (none, (sim.startRecord d).2.recordMiss.addEdge (sim.startRecord d).1 input.kind .error) := by
      simp [target, edge?, edgesOf, startRecord, fresh, setStart, withFresh, recordMiss,
        computeTarget, he]
    rw [predict, startState_empty hp]
    simp only
    rw [predictFrom, ht]
    rfl
  have hstart : sim'.startState d (sim.predict d mode {} input).2.1 =
      ((sim.startRecord d).1, (sim.predict d mode {} input).2.1.recordHit) := by
    rw [hfirst]
    simp [startState, start?, startRecord, hf, addEdge, setStart, fresh, withFresh, recordMiss,
      state?]
  have ht : sim'.target (sim.predict d mode {} input).2.1.recordHit (sim.startRecord d).1
      input.kind = (none, (sim.predict d mode {} input).2.1.recordHit.recordHit) := by
    rw [hfirst]
    simp [target, edge?, edgesOf, startRecord, fresh, setStart, withFresh, recordMiss, recordHit,
      addEdge]
  rw [predict, hstart]
  simp only
  rw [predictFrom, ht]
  rfl

end Simulation

/-- `s` is the token A under a condition, or the token B. -/
def conditional : Grammar :=
  let (a, g) := ({} : Grammar).addToken "A"
  let (b, g) := g.addToken "B"
  let (s, g) := g.addRule "s"
  g.define s (.plain (.alt [.seq [.token a, .predicate 0], .token b]))

def conditionalNetwork : Network where
  states := #[⟨.ruleStart, 0, [⟨8, .epsilon⟩], none, false⟩, ⟨.ruleStop, 0, [], none, false⟩,
    ⟨.basic, 0, [⟨3, .atom 1⟩], none, false⟩, ⟨.basic, 0, [⟨4, .epsilon⟩], none, false⟩,
    ⟨.basic, 0, [⟨5, .predicate 0 0 false⟩], none, false⟩, ⟨.basic, 0, [⟨9, .epsilon⟩], none, false⟩,
    ⟨.basic, 0, [⟨7, .atom 2⟩], none, false⟩, ⟨.basic, 0, [⟨9, .epsilon⟩], none, false⟩,
    ⟨.blockStart, 0, [⟨2, .epsilon⟩, ⟨6, .epsilon⟩], some 0, false⟩,
    ⟨.blockEnd, 0, [⟨1, .epsilon⟩], none, false⟩]
  rules := #[⟨"s", 0, 1, false⟩]
  decisions := #[8]
  maxType := 2
  nextTokens := #[.ofList [1, 2], .ofList [-2], .ofList [1], .ofList [-2], .ofList [-2], .ofList [-2],
    .ofList [2], .ofList [-2], .ofList [1, 2], .ofList [-2]]
  ruleFollow := #[[]]
  returnPrecedence := .replicate 10 none
  edgeCount := 10

set_option maxRecDepth 20000 in
theorem compile_conditional :
    conditional.compile = .ok ⟨conditionalNetwork, conditional.names⟩ := by cbv

/-- Lookahead of `conditional` with one answer to its condition. -/
def conditionalSimulation (holds : Bool) : Simulation :=
  { conditionalNetwork.bare 0 with predicates := fun _ _ _ _ => holds }

theorem startSet_conditional (holds : Bool) :
    (conditionalSimulation holds).startSet false 0 =
      .ofList [⟨{ state := 2, precedence := 0 }, 1⟩, ⟨{ state := 6, precedence := 0 }, 2⟩] false := by
  rw [startSet_eq_startClosure, if_neg (by cbv; decide), startClosure,
    closure_eq_closureRun (k := 20) (by decide) (by cbv)]
  cbv

theorem reach_conditional (holds : Bool) :
    (conditionalSimulation holds).reach false ((conditionalSimulation holds).startSet false 0) 1 =
      .ofList (if holds then [⟨{ state := 1, precedence := 0 }, 1⟩] else []) true := by
  rw [startSet_conditional, reach]
  cases holds <;> rw [closure_eq_closureRun (k := 20) (by decide) (by cbv)] <;> cbv

/-- The input A. -/
def inputA : TokenCursor := .ofTokens #[{ kind := 1 }] defaultChannel

/-- Once its condition failed, `conditional` finds no way to go on with A, even when the condition
holds. -/
theorem dead_end_outlives_predicates :
    conditional.compile = .ok ⟨conditionalNetwork, conditional.names⟩ ∧
      ((conditionalSimulation true).predict 0 .ll
        ((conditionalSimulation false).predict 0 .ll {} inputA).2.1 inputA).1 = .noViable 0 0 ∧
      ((conditionalSimulation true).predict 0 .ll {} inputA).1 = .alternative 1 := by
  have hkind : inputA.kind = 1 := by cbv
  have hp (holds : Bool) : ((conditionalSimulation holds).startSet false 0).predicated = false := by
    rw [startSet_conditional, ConfigSet.predicated_ofList]
  refine ⟨compile_conditional, ?_, ?_⟩
  · have he : ((conditionalSimulation false).reach false
        ((conditionalSimulation false).startSet false 0) inputA.kind).isEmpty = true := by
      rw [hkind, reach_conditional]
      cbv
    rw [dead_end_replayed (conditionalSimulation false) (conditionalSimulation true) rfl (hp false) he,
      startSet_conditional]
    cbv
  · have ht : (conditionalSimulation true).target ((conditionalSimulation true).startRecord 0).2
        ((conditionalSimulation true).startRecord 0).1 inputA.kind =
          (some { configs := .ofList [⟨{ state := 1, precedence := 0 }, 1⟩] true
                  prediction := some 1 },
            ((conditionalSimulation true).startRecord 0).2.recordMiss) := by
      have hr := reach_conditional true
      have he : Automaton.edge? ((conditionalSimulation true).startRecord 0).2
          ((conditionalSimulation true).startRecord 0).1 inputA.kind = none := by
        simp [Automaton.edge?, Automaton.edgesOf, startRecord, Automaton.fresh, Automaton.setStart,
          Automaton.withFresh, Automaton.recordMiss]
      have hs : ((conditionalSimulation true).startRecord 0).1.configs =
        (conditionalSimulation true).startSet false 0 := rfl
      rw [target, he]
      simp only
      rw [computeTarget, hkind, hs, hr]
      generalize ((conditionalSimulation true).startRecord 0).2 = a
      generalize ((conditionalSimulation true).startRecord 0).1 = previous
      cbv
    rw [predict, startState_empty (hp true)]
    simp only
    rw [predictFrom, ht]
    rfl

end AdaptiveParsing
