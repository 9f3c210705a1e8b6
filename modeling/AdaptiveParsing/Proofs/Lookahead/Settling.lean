import AdaptiveParsing.Proofs.Lookahead.Transparency
import AdaptiveParsing.Lookahead.ConfigSet.Canonical
/-!
When lookahead comes to a verdict. The cursor does not move past the end of input, so all depends on
the set that the end of input leads to: taking it again changes nothing (`reach_eof_of_stop`), and a
verdict on such a set there always is (`isSome_verdict_of_stop`). Only a set that was recorded as a
start, without a verdict, is met again without one. Main statement: predictions settle, after any
history, exactly if no start set has nothing but the ends of rules (`settles_iff`).
-/

namespace AdaptiveParsing

namespace ConfigSet

variable {s : ConfigSet} {c : Config} {n : Network}

theorem mem_toList : c ∈ s.toList ↔ Listed s.entries c.key c.alt := by
  simp only [toList, List.mem_flatMap, List.mem_map, Prod.exists, Listed]
  constructor
  · rintro ⟨k, alts, hk, alt, ha, rfl⟩
    exact ⟨alts, hk, AltSet.mem_iff.2 ha⟩
  · rintro ⟨alts, hk, ha⟩
    exact ⟨c.key, alts, hk, c.alt, AltSet.mem_iff.1 ha, rfl⟩

/-- A set is built from its own members. -/
theorem ofList_toList (h : Ordered s.entries) : ofList s.toList s.predicated = s := by
  have he : gather (sortByKey s.toList) = s.entries := by
    refine (ordered_gather pairwise_sortByKey).eq_of_listed_iff h fun k alt => ?_
    rw [listed_gather, mem_sortByKey, mem_toList]
  rw [ofList, he]

theorem ordered_ofList {cs : List Config} {p : Bool} : Ordered (ofList cs p).entries :=
  ordered_gather pairwise_sortByKey

theorem ordered_filterStates (h : Ordered s.entries) (keep : StateId → Bool) :
    Ordered (s.filterStates keep).entries :=
  ⟨h.1.filter _, fun e he => h.2 e (List.mem_filter.1 he).1⟩

/-- The filter for loops of operators leaves entries out and alternatives out of entries. -/
theorem ordered_filterPrecedence (h : Ordered s.entries) : Ordered s.filterPrecedence.entries := by
  constructor
  · refine List.pairwise_filterMap.2 (h.1.imp ?_)
    intro e f hef e' he' f' hf'
    have key_eq : ∀ {e e' : ConfigKey × AltSet},
        (if e.1.placement != .outermostFollow && s.firstAltAt e.1.state e.1.stack then
          if e.2.contains 1 then some (e.1, AltSet.singleton 1) else none
        else some (e.1, e.2)) = some e' → e'.1 = e.1 := by
      intro e e' h
      split at h
      · split at h
        · rw [← Option.some.inj h]
        · cases h
      · rw [← Option.some.inj h]
    rwa [key_eq he', key_eq hf']
  · intro e he
    obtain ⟨f, hf, hfe⟩ := List.mem_filterMap.1 he
    dsimp only at hfe
    split at hfe
    · split at hfe
      · obtain rfl := Option.some.inj hfe
        exact ⟨1, by simp⟩
      · cases hfe
    · obtain rfl := Option.some.inj hfe
      exact h.2 f hf

theorem allAtRuleStop_iff :
    s.allAtRuleStop n = true ↔ ∀ e ∈ s.entries, (n.state e.1.state).isRuleStop = true := by
  simp [allAtRuleStop]

theorem allAtRuleStop_filterStates :
    (s.filterStates fun q => (n.state q).isRuleStop).allAtRuleStop n = true := by
  rw [allAtRuleStop_iff]
  intro e he
  exact (List.mem_filter.1 he).2

/-- Every member stands at the end of a rule. -/
theorem isRuleStop_of_mem_toList (hs : s.allAtRuleStop n = true) (hc : c ∈ s.toList) :
    (n.state c.key.state).isRuleStop = true := by
  obtain ⟨alts, hk, -⟩ := mem_toList.1 hc
  exact allAtRuleStop_iff.1 hs _ hk

theorem mem_alts {alt : Nat} : alt ∈ s.alts ↔ ∃ k, Listed s.entries k alt := by
  have fold : ∀ (es : List (ConfigKey × AltSet)) (all : AltSet),
      alt ∈ es.foldl (fun all e => all ∪ e.2) all ↔ alt ∈ all ∨ ∃ k, Listed es k alt := by
    intro es
    induction es with
    | nil => simp [Listed]
    | cons e es ih =>
      intro all
      rw [List.foldl_cons, ih, AltSet.mem_union, or_assoc]
      refine or_congr_right ⟨?_, ?_⟩
      · rintro (h | ⟨k, h⟩)
        · exact ⟨e.1, listed_cons.2 (.inl ⟨rfl, h⟩)⟩
        · exact ⟨k, listed_cons.2 (.inr h)⟩
      · rintro ⟨k, h⟩
        rcases listed_cons.1 h with ⟨-, h⟩ | h
        · exact .inl h
        · exact .inr ⟨k, h⟩
  rw [alts]
  refine (fold s.entries ∅).trans ?_
  simp

/-- A set that is not empty has a least alternative. -/
theorem isSome_min?_alts (h : Ordered s.entries) (hs : s.isEmpty = false) :
    s.alts.min?.isSome = true := by
  cases he : s.entries with
  | nil => simp [isEmpty, he] at hs
  | cons e es =>
    obtain ⟨alt, ha⟩ := h.2 e (by simp [he])
    have hm : alt ∈ s.alts := mem_alts.2 ⟨e.1, e.2, by simp [he], ha⟩
    rw [AltSet.min?, List.isSome_head?]
    exact List.ne_nil_of_mem (AltSet.mem_iff.1 hm)

end ConfigSet

namespace Simulation

variable {sim : Simulation} {set : ConfigSet} {full : Bool} {d : DecisionId} {floor : Int}

theorem closure_nil (asked : Bool) : (sim.closure full [] asked).found = [] ∧
    (sim.closure full [] asked).predicated = asked := by
  rw [closure, closureRun_of_pending (by rfl)]
  exact ⟨rfl, rfl⟩

/-- The end of input leaves configurations that are at the ends of rules where they are. -/
theorem reach_eof_of_stop (ho : ConfigSet.Ordered set.entries)
    (hs : set.allAtRuleStop sim.network = true) : sim.reach full set TokenType.eof = set := by
  have htaken : sim.taken set TokenType.eof = [] := by
    rw [taken, List.flatMap_eq_nil_iff]
    intro c hc
    simp [ConfigSet.isRuleStop_of_mem_toList hs hc]
  have hend : sim.atEnd set TokenType.eof = set.toList := by
    rw [atEnd, if_pos rfl, List.filter_eq_self]
    exact fun c hc => ConfigSet.isRuleStop_of_mem_toList hs hc
  have hkeep : set.filterStates (fun q => (sim.network.state q).isRuleStop) = set := by
    rw [ConfigSet.filterStates, List.filter_eq_self.2]
    exact ConfigSet.allAtRuleStop_iff.1 hs
  rw [reach, if_pos rfl, htaken, hend, (closure_nil _).1, (closure_nil _).2, List.nil_append,
    ConfigSet.ofList_toList ho, hkeep]

theorem ordered_reach (set : ConfigSet) (t : TokenType) :
    ConfigSet.Ordered (sim.reach full set t).entries := by
  rw [reach]
  split
  · exact ConfigSet.ordered_filterStates ConfigSet.ordered_ofList _
  · exact ConfigSet.ordered_ofList

theorem ordered_startSet (d : DecisionId) : ConfigSet.Ordered (sim.startSet full d).entries := by
  rw [startSet_eq_startClosure]
  split
  · exact ConfigSet.ordered_filterPrecedence ConfigSet.ordered_ofList
  · exact ConfigSet.ordered_ofList

/-- The end of input leaves only configurations at the ends of rules. -/
theorem allAtRuleStop_reach_eof (set : ConfigSet) :
    (sim.reach full set TokenType.eof).allAtRuleStop sim.network = true := by
  rw [reach, if_pos rfl]
  exact ConfigSet.allAtRuleStop_filterStates

/-- There is a verdict on configurations at the ends of rules. -/
theorem isSome_verdict_of_stop (ho : ConfigSet.Ordered set.entries) (hne : set.isEmpty = false)
    (hs : set.allAtRuleStop sim.network = true) : (sim.verdict set).1.isSome = true := by
  unfold verdict
  split
  · rfl
  · have hc : set.isConflict sim.network = true := by rw [ConfigSet.isConflict, hs, Bool.true_or]
    rw [if_pos hc]
    exact ConfigSet.isSome_min?_alts ho hne

end Simulation

/-- A start without anything to look ahead for: all configurations are at the ends of rules, with no
predicate asked. -/
def Network.Stalls (n : Network) (d : DecisionId) (floor : Int) : Prop :=
  (n.firstSet d floor).predicated = false ∧ (n.firstSet d floor).isEmpty = false ∧
    (n.firstSet d floor).allAtRuleStop n = true

/-- The empty input. -/
def inputEnd : TokenCursor := .ofTokens #[] defaultChannel

namespace Simulation

open Automaton

variable {sim : Simulation} {d : DecisionId} {floors : Int → Prop} {a : Automaton}
  {s : AutomatonState} {n : Network} {floor : Int}

/-- With the live callers the end of input always gives a verdict. -/
theorem predictInContext_settles (start : Nat) (previous : ConfigSet) (input : TokenCursor) :
    (sim.predictInContext start previous input).1 ≠ .unsettled := by
  fun_induction predictInContext sim start previous input with
  | case1 previous input configs he => grind [deadEnd]
  | case2 previous input configs he alt h => simp
  | case3 previous input configs he h heof =>
    have hk : input.kind = TokenType.eof := TokenType.isEof_iff.1 heof
    simp [ConfigSet.settledAlt?, hk] at h
  | case4 previous input configs he h heof ih => exact ih

/-- A state met past the end of input has a verdict, or it is a start that stalls. -/
theorem stalls_of_finds {set : ConfigSet} (h : sim.Finds d floors set TokenType.eof a (some s))
    (hp : s.prediction = none) : ∃ floor, floors floor ∧ sim.network.Stalls d floor := by
  obtain ⟨-, hc, hne, hv⟩ := h
  have hstop : s.configs.allAtRuleStop sim.network = true := hc ▸ allAtRuleStop_reach_eof set
  rcases hv with hv | ⟨-, hpred, -, -, floor, hf, hs⟩
  · have hsome := isSome_verdict_of_stop (hc ▸ ordered_reach set _) hne hstop
    rw [← hv, hp] at hsome
    cases hsome
  · exact ⟨floor, hf, hs ▸ hpred, hs ▸ hne, hs ▸ hstop⟩

theorem predictFrom_settles (hd : ∀ floor, floors floor → ¬ sim.network.Stalls d floor)
    (mode : PredictionMode) (start : Nat) (ha : Recorded sim.network d floors a)
    (hs : Ready sim.network d floors a s) (input : TokenCursor) :
    (sim.predictFrom d mode start a s input).1 ≠ .unsettled := by
  fun_induction predictFrom sim d mode start a s input with
  | case1 a s input a' h => grind [deadEnd]
  | case2 a s input s' a' h hctx p input' hp =>
    have hfull := sim.predictInContext_settles start (sim.startSet true d) (input.seek start)
    rwa [hp] at hfull
  | case3 a s input s' a' h hctx alt hp => simp
  | case4 a s input s' a' h hctx hp heof =>
    have hk : input.kind = TokenType.eof := TokenType.isEof_iff.1 heof
    obtain ⟨-, -, hfind⟩ := h ▸ target_spec (t := input.kind) ha hs
    obtain ⟨floor, hf, hstall⟩ := stalls_of_finds (hk ▸ hfind) hp
    exact absurd hstall (hd floor hf)
  | case5 a s input s' a' h hctx hp heof ih =>
    obtain ⟨hrec, -, hfind⟩ := h ▸ target_spec (t := input.kind) ha hs
    exact ih hrec (hfind.1.ready hrec hp)

/-- A start that stalls is recorded, and found again when the end of input was taken. -/
theorem unsettled_of_stalls (mode : PredictionMode) (h : n.Stalls d floor) :
    ((n.bare floor).predict d mode {} inputEnd).1 = .unsettled := by
  obtain ⟨hp, hne, hstop⟩ := h
  have hp : ((n.bare floor).startSet false d).predicated = false := hp
  have hne : ((n.bare floor).startSet false d).isEmpty = false := hne
  have hreach : (n.bare floor).reach false ((n.bare floor).startSet false d) TokenType.eof =
      (n.bare floor).startSet false d := reach_eof_of_stop (ordered_startSet d) hstop
  have htarget : ((n.bare floor).target ((n.bare floor).startRecord d).2
      ((n.bare floor).startRecord d).1 TokenType.eof).1 = some ((n.bare floor).startRecord d).1 := by
    simp [target, edge?, edgesOf, startRecord, fresh, setStart, withFresh, recordMiss, computeTarget,
      hreach, hne, hp, addState, state?]
  rw [predict, startState_empty hp]
  dsimp only
  have hkind : inputEnd.kind = TokenType.eof := by cbv
  have heof : inputEnd.current.isEof = true := by cbv
  rw [predictFrom, hkind]
  split
  · rename_i hr
    rw [hr] at htarget
    cases htarget
  · rename_i s' a' hr
    rw [hr] at htarget
    obtain rfl := Option.some.inj htarget
    simp [startRecord, fresh, heof]

/-- Predictions settle, whatever was predicted before, exactly if no start set stalls. -/
theorem settles_iff (n : Network) (d : DecisionId) (floors : Int → Prop) :
    (∀ (sim : Simulation) (a : Automaton) (mode : PredictionMode) (input : TokenCursor),
      sim.network = n → floors sim.floor → History n d floors a →
        (sim.predict d mode a input).1 ≠ .unsettled) ↔
      ∀ floor, floors floor → ¬ n.Stalls d floor := by
  constructor
  · intro h floor hf hs
    exact h (n.bare floor) {} .ll inputEnd rfl hf .empty (unsettled_of_stalls .ll hs)
  · rintro hd sim a mode input rfl hf ha
    obtain ⟨hrec, -, hready, -⟩ := startState_spec hf ha.recorded
    exact predictFrom_settles hd mode input.position hrec hready input

end Simulation

/-- `s` is the empty word, if there is one. -/
def maybeEmpty : Grammar :=
  let (s, g) := ({} : Grammar).addRule "s"
  g.define s (.plain (.opt .epsilon))

def maybeEmptyNetwork : Network where
  states := #[⟨.ruleStart, 0, [⟨4, .epsilon⟩], none, false⟩, ⟨.ruleStop, 0, [], none, false⟩,
    ⟨.basic, 0, [⟨3, .epsilon⟩], none, false⟩, ⟨.basic, 0, [⟨5, .epsilon⟩], none, false⟩,
    ⟨.blockStart, 0, [⟨2, .epsilon⟩, ⟨5, .epsilon⟩], some 0, false⟩,
    ⟨.blockEnd, 0, [⟨1, .epsilon⟩], none, false⟩]
  rules := #[⟨"s", 0, 1, false⟩]
  decisions := #[4]
  nextTokens := #[.ofList [-2], .ofList [-2], .ofList [-2], .ofList [-2], .ofList [-2], .ofList [-2]]
  ruleFollow := #[[]]
  returnPrecedence := .replicate 6 none
  edgeCount := 6

set_option maxRecDepth 20000 in
theorem compile_maybeEmpty :
    maybeEmpty.compile = .ok ⟨maybeEmptyNetwork, maybeEmpty.names⟩ := by cbv

theorem stalls_maybeEmpty : maybeEmptyNetwork.Stalls 0 0 := by
  have hs : maybeEmptyNetwork.firstSet 0 0 = .ofList [⟨{ state := 1, precedence := 0 }, 1⟩,
      ⟨{ state := 1, precedence := 0 }, 2⟩] false := by
    rw [Network.firstSet, Simulation.startSet_eq_startClosure, if_neg (by cbv; decide),
      Simulation.startClosure, Simulation.closure_eq_closureRun (k := 20) (by decide) (by cbv)]
    cbv
  rw [Network.Stalls, hs]
  cbv

/-- At the end of input it is never decided whether there is an empty word. -/
theorem unsettled_maybeEmpty :
    maybeEmpty.compile = .ok ⟨maybeEmptyNetwork, maybeEmpty.names⟩ ∧
      ((maybeEmptyNetwork.bare 0).predict 0 .ll {} inputEnd).1 = .unsettled :=
  ⟨compile_maybeEmpty, Simulation.unsettled_of_stalls .ll stalls_maybeEmpty⟩

end AdaptiveParsing
