import AdaptiveParsing.Proofs.Recognition.Standing
/-!
The counters and stacks of a parse agree with its live invocations. The nesting depth, the floors and the
callers are changed in different places; moves and returns keep them in step with the chain of invocations from
the innermost one outwards (`Counted.shift`). Main statement: `Interpreter.parse_in_step`.
-/

namespace AdaptiveParsing

open Relation AdaptiveParsing.Parser

variable {env : Setting} {G : Guide}

/-- Those of the invocations that are of left-recursive rules. -/
def Setting.recursiveIn (env : Setting) (f : Forest) (ids : List InvocationId) : List InvocationId :=
  ids.filter fun id => (env.network.rule (f.get id).rule).leftRecursive

section

variable {f : Forest} {done : List InvocationId} {pending : List Child} {a : Station}
  {stations rest : List Station} {w : List Token}

theorem Guide.floors_eq (hnet : env.network = G.network) (f : Forest) (stations : List Station) :
    G.floors f stations = (env.recursiveIn f (stations.map Station.id)).map
      (fun id => (f.get id).precedence) ++ [0] := by
  induction stations with
  | nil => rfl
  | cons a rest ih =>
    rw [Guide.floors_cons, ih]
    simp only [Setting.recursiveIn, Guide.recursive, hnet, List.map_cons, List.filter_cons]
    split <;> rfl

theorem Guide.length_callers (hnet : env.network = G.network) (f : Forest)
    (stations : List Station) :
    (G.callers f stations).length = (env.recursiveIn f (stations.map Station.id)).length := by
  induction stations with
  | nil => rfl
  | cons a rest ih =>
    rw [Guide.callers_cons]
    simp only [Setting.recursiveIn, hnet] at ih ⊢
    rw [List.map_cons, List.filter_cons]
    cases hrec : G.recursive f a.id <;> simp_all [Guide.recursive]

/-- Every live invocation but the outermost one was called along an edge. -/
theorem Threads.called (hnet : env.network = G.network)
    (h : Threads G f done pending (a :: rest) w) :
    ∀ id ∈ ((a :: rest).map Station.id).dropLast, ∃ s, (f.get id).caller = some s ∧
      ∃ t ∈ (env.network.state s).transitions, ∃ follow precedence,
        t.kind = .rule (f.get id).rule follow precedence := by
  induction rest generalizing a pending w with
  | nil =>
    intro id hid
    cases hid
  | cons b rest ih =>
    obtain ⟨_, _, -, -, ⟨-, hcaller, t, ht, follow, precedence, hk, -⟩, hrest⟩ := h
    intro id hid
    rw [List.map_cons, List.map_cons, List.dropLast_cons_cons] at hid
    rcases List.mem_cons.1 hid with rfl | hid
    · exact ⟨b.state, hcaller, t, hnet ▸ ht, follow, precedence, hk⟩
    · exact ih hrest id hid

end

/-- The counters of a parse, by its live invocations. -/
structure Counted (env : Setting) (G : Guide) (scene : Scene) : Prop where
  floors : scene.interpreter.recognizer.floors =
    G.floors scene.interpreter.recognizer.forest scene.stations
  depth : scene.interpreter.recognizer.nesting.depth = scene.stations.length
  limit : scene.interpreter.recognizer.nesting.limit = env.config.maxDepth
  le : scene.stations.length ≤ env.config.maxDepth

namespace Interpreter

variable {i i' : Interpreter} {a b : Station} {rest : List Station} {rule c : RuleId}
  {precedence : Int} {root id : InvocationId}

/-- Opening an invocation counts it, within the limit. -/
theorem nesting_enter (h : i.enter env c precedence = (.ok id, i')) :
    i'.recognizer.nesting.depth = i.recognizer.nesting.depth + 1 ∧
      i'.recognizer.nesting.limit = i.recognizer.nesting.limit ∧
      i.recognizer.nesting.depth < i.recognizer.nesting.limit := by
  have hopen : ∀ {n : NestingLimit}, i.recognizer.nesting.enter = .ok n →
      n.depth = i.recognizer.nesting.depth + 1 ∧ n.limit = i.recognizer.nesting.limit ∧
        i.recognizer.nesting.depth < i.recognizer.nesting.limit := by
    intro n hn
    obtain ⟨hlt, rfl⟩ := NestingLimit.enter_eq_ok_iff.1 hn
    exact ⟨rfl, rfl, hlt⟩
  unfold enter at h
  cases hl : (env.network.rule c).leftRecursive with
  | true =>
    rw [if_pos hl] at h
    dsimp only [run, Parser.enterRecursion, Parser.onRecognizer, Recognizer.enterRecursion,
      Recognizer.enter] at h
    cases hn : i.parser.recognizer.nesting.enter with
    | error e =>
      simp only [recognizer, hn] at h
      cases h
    | ok n =>
      simp only [recognizer, hn] at h
      cases h
      exact hopen hn
  | false =>
    rw [if_neg (by simp [hl])] at h
    dsimp only [run, Parser.enterRule, Parser.onRecognizer, Recognizer.enterRule,
      Recognizer.enter] at h
    cases hn : i.parser.recognizer.nesting.enter with
    | error e =>
      simp only [hn] at h
      cases h
    | ok n =>
      simp only [hn] at h
      cases h
      have hadd : ∀ (r : Recognizer) (c : Child), (r.addChild c).nesting = r.nesting := by
        intro r c
        unfold Recognizer.addChild
        split <;> rfl
      obtain ⟨hdepth, hlimit, hlt⟩ := hopen hn
      refine ⟨?_, ?_, hlt⟩
      · exact (congrArg NestingLimit.depth (hadd _ _)).trans hdepth
      · exact (congrArg NestingLimit.limit (hadd _ _)).trans hlimit

/-- Leaving an invocation takes it off the count. -/
theorem nesting_leaveRule (hinv : i.recognizer.invocation = some id) (rule : RuleId) :
    (i.leaveRule env rule).recognizer.nesting = i.recognizer.nesting.exit := by
  cases h : (env.network.rule rule).leftRecursive with
  | true =>
    rw [leaveRule_recursive h]
    show (i.recognizer.unrollRecursion _).2.nesting = _
    unfold Recognizer.unrollRecursion
    simp only [hinv]
  | false =>
    rw [leaveRule_plain h]
    show i.recognizer.exitRule.nesting = _
    unfold Recognizer.exitRule
    simp only [hinv]

/-- Closing the outermost invocation leaves none. -/
theorem counters_finish (hnet : env.network = G.network)
    (hinv : i.recognizer.invocation = some a.id)
    (hcalled : Called G i.recognizer.forest a.id none)
    (hout : Outermost G i.recognizer.forest rule root a)
    (hcallers : i.callers = G.callers i.recognizer.forest [a])
    (hfloors : i.recognizer.floors = G.floors i.recognizer.forest [a]) :
    let i' := (i.finish env rule root).2
    i'.recognizer.invocation = none ∧ i'.recognizer.state = none ∧ i'.callers = [] ∧
      i'.recognizer.floors = [0] ∧ i'.recognizer.nesting = i.recognizer.nesting.exit := by
  obtain ⟨hparent, hcaller⟩ := hcalled
  have hrec : G.recursive i.recognizer.forest a.id = (env.network.rule rule).leftRecursive := by
    unfold Guide.recursive
    rw [hout.1, hnet]
  rw [Guide.callers_cons, hrec] at hcallers
  rw [Guide.floors_cons, hrec] at hfloors
  unfold finish
  cases hl : (env.network.rule rule).leftRecursive with
  | true =>
    rw [hl] at hcallers hfloors
    have hhead : i.callers.head?.getD (none, none) = (none, none) := by
      rw [hcallers]
      rfl
    rw [if_pos rfl]
    dsimp only [unroll, onRecognizer]
    rw [hhead]
    show (i.recognizer.unrollRecursion none).2.invocation = none ∧
      (i.recognizer.unrollRecursion none).2.state = none ∧ i.callers.tail = [] ∧
      (i.recognizer.unrollRecursion none).2.floors = [0] ∧
      (i.recognizer.unrollRecursion none).2.nesting = _
    unfold Recognizer.unrollRecursion
    simp only [hinv, hcaller, hfloors, hcallers]
    exact ⟨trivial, trivial, rfl, rfl, trivial⟩
  | false =>
    rw [hl] at hcallers hfloors
    rw [if_neg Bool.false_ne_true]
    dsimp only [onRecognizer]
    show i.recognizer.exitRule.invocation = none ∧ i.recognizer.exitRule.state = none ∧
      i.callers = [] ∧ i.recognizer.exitRule.floors = [0] ∧ i.recognizer.exitRule.nesting = _
    unfold Recognizer.exitRule
    simp only [hinv, hparent, hcaller]
    exact ⟨trivial, trivial, hcallers, hfloors, trivial⟩

end Interpreter

/-- Every shift keeps count. -/
theorem Counted.shift {rule : RuleId} {root : InvocationId} {first : TokenCursor}
    {scene scene' : Scene} (hnet : env.network = G.network)
    (h : scene.Tracked env G rule root first) (h' : scene'.Tracked env G rule root first)
    (hc : Counted env G scene) (hs : Shift env G scene scene') : Counted env G scene' := by
  have hlt := h.woven.lt
  obtain ⟨hfloors, hdepth, hlimit, hle⟩ := hc
  cases hs with
  | deed hd hg hadded hp =>
    have hsame := hd.samePlace
    refine ⟨?_, ?_, ?_, hle⟩
    · exact hsame.floors.trans (hfloors.trans (G.floors_extends hg.toExtends hlt).symm)
    · exact (congrArg NestingLimit.depth hsame.nesting).trans hdepth
    · exact (congrArg NestingLimit.limit hsame.nesting).trans hlimit
  | goTo hs => exact ⟨hfloors, hdepth, hlimit, hle⟩
  | @round i a rest done w s hmark =>
    have heq := Recognizer.pushRecursion_eq s (G.network.state a.state).rule h.invocation
    obtain ⟨_, _, -, hst, -⟩ := h.woven.threads
    obtain ⟨he, -, hnew, -, -⟩ := Forest.alloc_modify hst.lt
      (i.recognizer.forest.nextRound (G.network.state a.state).rule a.id)
      (g := Invocation.handOver i.recognizer.input.previousIndex i.recognizer.forest.size s)
      (fun _ => rfl) fun _ => rfl
    have hrest : ∀ b ∈ rest, b.id < i.recognizer.forest.size := fun b hb => hlt b (.tail _ hb)
    have hforest : (i.recognizer.pushRecursion s (G.network.state a.state).rule).2.forest =
        i.recognizer.forest.pushRound (G.network.state a.state).rule a.id s
          i.recognizer.input.previousIndex := by rw [heq]
    refine ⟨?_, ?_, ?_, hle⟩
    · show (i.recognizer.pushRecursion s (G.network.state a.state).rule).2.floors =
        G.floors (i.recognizer.pushRecursion s (G.network.state a.state).rule).2.forest _
      have hrule : ((i.recognizer.forest.nextRound (G.network.state a.state).rule a.id).rule) =
        (i.recognizer.forest.get a.id).rule := hst.state_rule
      rw [hforest]
      unfold Forest.pushRound
      rw [heq, Guide.floors_cons, G.floors_extends he hrest]
      simp only [Guide.recursive, hnew, hrule]
      exact hfloors
    · show (i.recognizer.pushRecursion s (G.network.state a.state).rule).2.nesting.depth = _
      rw [heq]
      exact hdepth
    · show (i.recognizer.pushRecursion s (G.network.state a.state).rule).2.nesting.limit = _
      rw [heq]
      exact hlimit
  | @enter i i' a rest done w t c follow precedence id hc ht hk he =>
    have hen := Interpreter.enters_of_enter he
    obtain ⟨hdepth', hlimit', hlt'⟩ := Interpreter.nesting_enter he
    obtain ⟨hext, -, hrule, hfloor, -⟩ := hen.facts hnet h.invocation h.state hlt
    rw [← hen.id_eq] at hrule hfloor
    simp only at hdepth hlimit hle
    refine ⟨?_, ?_, hlimit'.trans hlimit, ?_⟩
    · show i'.recognizer.floors = G.floors i'.recognizer.forest _
      have hrec : G.recursive i'.recognizer.forest id = (env.network.rule c).leftRecursive := by
        unfold Guide.recursive
        rw [hrule, hnet]
      rw [Guide.floors_cons, hrec, hen.floors, G.floors_extends hext hlt, hfloor, ← hfloors, ← hnet]
      split <;> rfl
    · show i'.recognizer.nesting.depth = (a :: rest).length + 1
      omega
    · show (a :: rest).length + 1 ≤ env.config.maxDepth
      omega

/-- Leaving an invocation keeps count. -/
theorem Counted.leave {rule : RuleId} {root : InvocationId} {first : TokenCursor} {i : Interpreter}
    {a b : Station} {rest : List Station} {done : List InvocationId} {w : List Token}
    {follow : StateId} (hnet : env.network = G.network)
    (h : Tracked env G rule root first i (a :: b :: rest) done w)
    (hc : Counted env G ⟨i, a :: b :: rest, done, w⟩) :
    Counted env G ⟨i.leaveRule env (G.network.state a.state).rule, { b with state := follow } :: rest,
      a.id :: done, w⟩ := by
  have hlt := h.woven.lt
  obtain ⟨hfloors, hdepth, hlimit, hle⟩ := hc
  obtain ⟨_, _, -, hst, ⟨hparent, hcaller, -⟩, -⟩ := h.woven.threads
  have hb : b.id < i.recognizer.forest.size := hlt b (.tail _ (.head _))
  obtain ⟨hl, -, hf⟩ := Interpreter.leaves_leaveRule hnet hst.lt hb
    (h.woven.ne_innermost.1 b (.head _)) hst.state_rule hparent hcaller h.invocation h.callers
  have hn := @Interpreter.nesting_leaveRule env i a.id h.invocation (G.network.state a.state).rule
  simp only [List.length_cons] at hdepth hle
  refine ⟨?_, ?_, ?_, ?_⟩
  · refine (hf hfloors).trans ?_
    exact (G.floors_extends hl.extends_forest fun c hc => hlt c (.tail _ hc)).symm
  · show (i.leaveRule env (G.network.state a.state).rule).recognizer.nesting.depth = rest.length + 1
    rw [hn]
    show i.recognizer.nesting.depth - 1 = rest.length + 1
    omega
  · show (i.leaveRule env (G.network.state a.state).rule).recognizer.nesting.limit = _
    rw [hn]
    exact hlimit
  · show rest.length + 1 ≤ env.config.maxDepth
    omega

namespace Interpreter

variable {i i' : Interpreter} {rule : RuleId} {root first : InvocationId} {fuel : Nat} {g : Grammar}

/-- The counters and stacks agree with the chain of invocations from the innermost one outwards: there is
one level of nesting for each of them, within the limit, one floor and one caller for each that is of a
left-recursive rule, the state is one of the rule of the innermost one, and each but the outermost one was
called along an edge to its rule. -/
structure InStep (env : Setting) (i : Interpreter) (chain : List InvocationId) : Prop where
  outwards : i.recognizer.forest.Chain i.recognizer.invocation chain
  depth : i.recognizer.nesting.depth = chain.length
  depth_le : i.recognizer.nesting.depth ≤ env.config.maxDepth
  floors : i.recognizer.floors = (env.recursiveIn i.recognizer.forest chain).map
    (fun id => (i.recognizer.forest.get id).precedence) ++ [0]
  callers : i.callers.length = (env.recursiveIn i.recognizer.forest chain).length
  state : ∃ id s, chain.head? = some id ∧ i.recognizer.state = some s ∧
    (env.network.state s).rule = (i.recognizer.forest.get id).rule
  called : ∀ id ∈ chain.dropLast, ∃ s, (i.recognizer.forest.get id).caller = some s ∧
    ∃ t ∈ (env.network.state s).transitions, ∃ follow precedence,
      t.kind = .rule (i.recognizer.forest.get id).rule follow precedence

end Interpreter

theorem Tracked.inStep {rule : RuleId} {root : InvocationId} {first : TokenCursor} {i : Interpreter}
    {a : Station} {rest : List Station} {done : List InvocationId} {w : List Token}
    (hnet : env.network = G.network) (h : Tracked env G rule root first i (a :: rest) done w)
    (hc : Counted env G ⟨i, a :: rest, done, w⟩) : i.InStep env ((a :: rest).map Station.id) := by
  have hthreads := h.woven.threads
  obtain ⟨_, _, -, hst, -⟩ := h.woven.threads
  constructor
  case outwards =>
    have hinv : i.recognizer.invocation = some a.id := h.invocation
    rw [hinv]
    exact hthreads.chain
  case depth =>
    rw [List.length_map]
    exact hc.depth
  case depth_le => exact Nat.le_trans (Nat.le_of_eq hc.depth) hc.le
  case floors => exact hc.floors.trans (G.floors_eq hnet _ _)
  case callers =>
    rw [h.callers]
    exact G.length_callers hnet _ _
  case state => exact ⟨a.id, a.state, rfl, h.state, hnet ▸ hst.state_rule⟩
  case called => exact hthreads.called hnet

namespace Interpreter

variable {i i' : Interpreter} {rule : RuleId} {g : Grammar}

/-- The counters of a parse agree with its first invocation. -/
theorem counted_enter {i₀ : Interpreter} {first : InvocationId} {leaves : List Token}
    (hnet : env.network = G.network) (hi : i.Fresh)
    (hnesting : i.recognizer.nesting = { limit := env.config.maxDepth })
    (hen : i.enter env rule 0 = (.ok first, i₀)) :
    Counted env G ⟨i₀, [⟨first, (G.network.rule rule).start⟩], [], leaves⟩ := by
  obtain ⟨hdepth, hlimit, hlt⟩ := nesting_enter hen
  have hfirst := enters_of_enter hen
  have hinv : i.recognizer.invocation = ([] : List Station).head?.map Station.id := hi.invocation
  obtain ⟨-, -, hr, hfloor, -⟩ := hfirst.facts hnet hinv hi.state (by simp)
  rw [← hfirst.id_eq] at hr hfloor
  rw [hnesting] at hdepth hlimit hlt
  have hrec : G.recursive i₀.recognizer.forest first = (env.network.rule rule).leftRecursive := by
    unfold Guide.recursive
    rw [hr, hnet]
  refine ⟨?_, hdepth, hlimit, hlt⟩
  show i₀.recognizer.floors = G.floors i₀.recognizer.forest _
  rw [Guide.floors_cons, hrec, hfirst.floors, hfloor, hi.floors, ← hnet]
  split <;> rfl

/-- A parse from a fresh parser keeps its counters and stacks in step with its live invocations at every
step, whatever errors it recovers from. If it ends well, no invocation is left, no state, no level of
nesting, no caller and no floor but the zero. -/
theorem parse_in_step {tokens : Array Token} {channel start : Nat} (hg : g.compile = .ok env.grammar)
    (hrule : rule < g.rules.size) (hi : i.Fresh)
    (hnesting : i.recognizer.nesting = { limit := env.config.maxDepth })
    (hinput : i.recognizer.input = (TokenCursor.ofTokens tokens channel).seek start) :
    (∀ first i₀ j, i.enter env rule 0 = (.ok first, i₀) → ReflTransGen (Follows env rule first) i₀ j →
      ∃ chain, j.InStep env chain) ∧
    ∀ fuel root i', i.parse env fuel rule = some (.ok root, i') →
      i'.recognizer.invocation = none ∧ i'.recognizer.state = none ∧ i'.callers = [] ∧
        i'.recognizer.floors = [0] ∧ i'.recognizer.nesting.depth = 0 := by
  obtain ⟨G, hnet, -, -, hG⟩ := Grammar.exists_guide hg fun _ _ _ _ _ => True
  have hnet' : env.network = G.network := hnet.symm
  have hsize : rule < G.network.rules.size := by
    rw [hnet, (Grammar.shaped_compile hg).2]
    exact hrule
  obtain ⟨hstop, hindex⟩ := stopped_of_input hinput
  obtain ⟨hsteps, -, hends⟩ := along_parse hG hnet' hsize hi hstop hindex
    (counted_enter hnet' hi hnesting) (Counted.shift hnet') fun _ _ h hc _ _ => hc.leave hnet' h
  refine ⟨?_, ?_⟩
  · intro first i₀ j hen hj
    obtain ⟨a, rest, done, w, h, hc⟩ := hsteps first i₀ j hen hj
    exact ⟨_, h.inStep hnet' hc⟩
  · intro fuel root i' hrun
    obtain ⟨first, -, j, a, done, w, -, -, h, hc, hfin⟩ := hends fuel root i' hrun
    obtain ⟨_, _, -, -, hcalled, -⟩ := h.woven.threads
    obtain ⟨hinv, hstate, hcallers, hfloors, hexit⟩ := @counters_finish env G j a rule first hnet'
      h.invocation hcalled (h.outermost a rfl) h.callers hc.floors
    rw [hfin] at hinv hstate hcallers hfloors hexit
    refine ⟨hinv, hstate, hcallers, hfloors, ?_⟩
    rw [hexit]
    show j.recognizer.nesting.depth - 1 = 0
    rw [show j.recognizer.nesting.depth = 1 from hc.depth]

end Interpreter

/-- The parse of A A B by `nested` is in step from its first invocation to its end. -/
theorem in_step_stray : ∃ i₀ i', beforeStray.enter nestedSetting 0 0 = (.ok 0, i₀) ∧
    (∃ chain, i₀.InStep nestedSetting chain) ∧
    beforeStray.parse nestedSetting 20 0 = some (.ok 0, i') ∧ i'.recognizer.invocation = none ∧
      i'.recognizer.nesting.depth = 0 := by
  have hrun : (beforeStray.parse nestedSetting 20 0).map Prod.fst = some (.ok 0) := by cbv
  have hsize : nested.rules.size = 2 := by cbv
  obtain ⟨hsteps, hends⟩ := @Interpreter.parse_in_step nestedSetting beforeStray 0 nested
    #[{ kind := 1 }, { kind := 1 }, { kind := 2 }] defaultChannel 0 compile_nested
    (by rw [hsize]; decide) ⟨rfl, rfl, rfl, rfl, rfl, rfl, rfl⟩ rfl rfl
  cases hparse : beforeStray.parse nestedSetting 20 0 with
  | none =>
    rw [hparse] at hrun
    cases hrun
  | some p =>
    rw [hparse] at hrun
    obtain ⟨outcome, i'⟩ := p
    obtain rfl := Option.some.inj hrun
    obtain ⟨hinv, -, -, -, hdepth⟩ := hends 20 0 i' hparse
    have hen : beforeStray.enter nestedSetting 0 0 =
      (.ok 0, (beforeStray.enter nestedSetting 0 0).2) := rfl
    exact ⟨_, i', hen, hsteps 0 _ _ hen .refl, rfl, hinv, hdepth⟩

end AdaptiveParsing
