import AdaptiveParsing.Proofs.Recognition.Lockstep
import AdaptiveParsing.Proofs.Recognition.Policies
/-!
A parser that is reset is like a new one. Whatever was parsed before, a reset leaves three things behind:
the number of the generation in each automaton, what was counted or told to others, and calls that an
abandoned parse never returned from. No parse depends on the first two (`Interpreter.Mirrors.parse`), and
none returns from more calls than it makes (`Interpreter.parse_atop`). Main statement:
`Interpreter.parse_reset`.
-/

namespace AdaptiveParsing

open AdaptiveParsing.Parser

namespace Mirror

variable {f f' : Forest}

theorem eq_of_mirrors_kind {k k' : MismatchKind} (h : k.Mirrors same k') : k = k' := by
  cases h with
  | noViableAlternative d h => exact congrArg _ h
  | inputMismatch => rfl
  | failedPredicate rule predicate => rfl

theorem eq_of_mirrors_mismatch {e e' : RecognitionError} (h : e.Mirrors same e') : e = e' := by
  obtain ⟨hk, ho, hs, hi, he⟩ := h
  have hkind := eq_of_mirrors_kind hk
  cases e
  cases e'
  simp_all [same]

theorem eq_of_mirrors_child {c c' : Child} (h : c.Mirrors same c') : c = c' := by
  cases h with
  | rule id => rfl
  | token h => exact congrArg _ h
  | error h => exact congrArg _ h

theorem eq_of_option_rel {α : Type} {R : α → α → Prop} {x y : Option α} (h : Option.Rel R x y)
    (hr : ∀ a b, R a b → a = b) : x = y := by
  cases h with
  | none => rfl
  | some h => exact congrArg some (hr _ _ h)

theorem eq_of_mirrors_invocation {i i' : Invocation} (h : i.Mirrors same i') : i = i' := by
  have hchildren : i.children = i'.children := by
    have hall := h.children.imp fun _ _ => eq_of_mirrors_child
    rw [List.forall₂_eq_eq_eq] at hall
    exact Array.toList_inj.1 hall
  have hstart := eq_of_option_rel h.start fun _ _ h => h
  have hstop := eq_of_option_rel h.stop fun _ _ h => h
  have herror := eq_of_option_rel h.error fun _ _ => eq_of_mirrors_mismatch
  obtain ⟨h₁, h₂, h₃, h₄, -, -, -, -⟩ := h
  cases i
  cases i'
  simp_all

/-- Forests in which every number stands for the same invocation are the same. -/
theorem eq_of_mirrors_forest (h : f.Mirrors same f') : f = f' := by
  have hnodes : f.nodes = f'.nodes := by
    refine Array.ext h.size fun i hi hi' => ?_
    have hget := eq_of_mirrors_invocation (h.get i)
    simpa [Forest.get, Array.getD_eq_getD_getElem?, hi, hi'] using hget
  cases f
  cases f'
  exact congrArg _ hnodes

theorem eq_of_mirrors_halt {halt halt' : Halt} (h : halt.Mirrors same halt') : halt = halt' := by
  cases h with
  | unsettled d => rfl
  | failure h =>
    cases h with
    | recognition h => rw [eq_of_mirrors_mismatch h]
    | nestingTooDeep rule limit => rfl
    | cancelled h => rw [eq_of_mirrors_mismatch h]

theorem eq_of_sameOutcome {α : Type} {x y : Except Halt α} (h : SameOutcome same Eq x y) : x = y := by
  cases h with
  | ok h => rw [h]
  | error h => rw [eq_of_mirrors_halt h]

end Mirror

namespace ParseMirror

/-- Nothing stands for anything but itself. -/
def same : ParseMirror := { Mirror.same with error := Eq }

theorem faithful_same (env : Setting) : same.Faithful env where
  toFaithful := Mirror.faithful_same
  predicates h := congrArg _ (Mirror.eq_of_mirrors_forest h)
  code h := congrArg _ h
  tokenIndex h := by
    cases h
    exact option_rel_refl (fun _ => rfl) _
  context h context := by
    cases h
    rfl
  ofToken h code message := congrArg _ h
  describe := by
    intro p p' hinput e e' d start start' he hs hk hk'
    obtain rfl := Mirror.eq_of_mirrors_mismatch he
    have hinput : p.recognizer.input = p'.recognizer.input := hinput
    show p.describe env e = p'.describe env e
    simp only [Parser.describe, hk, Parser.decisionText, hinput]

end ParseMirror

/-- What a deed does beside the tree: the cursor stays or takes a token, and no limit changes. -/
theorem Parser.Deed.sides {env : Setting} {p p' : Parser} (h : Deed env p p')
    (hs : p.recognizer.input.Stopped) :
    (p'.recognizer.input = p.recognizer.input ∨
        p'.recognizer.input = p.recognizer.input.consume) ∧
      p'.recognizer.nesting.limit = p.recognizer.nesting.limit := by
  cases h with
  | note _ h _ =>
    rw [h]
    exact ⟨.inl rfl, rfl⟩
  | predict d =>
    show ((p.recognizer.predict env d).2.input = _ ∨ _) ∧ (p.recognizer.predict env d).2.nesting.limit = _
    rw [Recognizer.predict_snd hs]
    exact ⟨.inl rfl, rfl⟩
  | consume =>
    refine ⟨.inr p.input_consume, ?_⟩
    show (Recognizer.consume env p.recognizer _).nesting.limit = _
    unfold Recognizer.consume
    dsimp only
    split
    · exact (Recognizer.onlyTree_addChild _ _).limit
    · split
      · exact (Recognizer.onlyTree_addChild _ _).limit
      · rfl
  | conjure _ =>
    have ht := p.recognizer.onlyTree_addChild (.error ‹_›)
    exact ⟨.inl ht.input, ht.limit⟩
  | blame e everywhere =>
    have ht := p.recognizer.onlyTree_recordError e everywhere
    exact ⟨.inl ht.input, ht.limit⟩
  | report e =>
    unfold reportOnce Recognizer.notify
    split
    · exact ⟨.inl rfl, rfl⟩
    · dsimp only
      split <;> exact ⟨.inl rfl, rfl⟩

namespace Interpreter

/-- With calls below its own that are not returned from any more. -/
def atop (i : Interpreter) (stale : List (Option InvocationId × Option StateId)) : Interpreter :=
  { i with callers := i.callers ++ stale }

variable {env : Setting} {i i' : Interpreter} {stale : List (Option InvocationId × Option StateId)}
  {rule : RuleId} {root : InvocationId}

theorem enter_atop (c : RuleId) (precedence : Int) : (i.atop stale).enter env c precedence =
    ((i.enter env c precedence).1, (i.enter env c precedence).2.atop stale) := by
  unfold enter
  split
  · dsimp only [run, atop]
    generalize Parser.enterRecursion env c precedence i.parser = result
    obtain ⟨halt | id, p⟩ := result <;> rfl
  · rfl

theorem followEdge_atop (s : NetworkState) (t : Transition) : (i.atop stale).followEdge env s t =
    ((i.followEdge env s t).1, (i.followEdge env s t).2.atop stale) := by
  unfold followEdge
  cases t.kind with
  | rule c _ precedence =>
    dsimp only
    rw [enter_atop]
    generalize i.enter env c precedence = result
    obtain ⟨halt | id, j⟩ := result <;> rfl
  | _ =>
    dsimp only [run, atop]
    generalize passEdge env s t i.parser = result
    obtain ⟨halt | u, p⟩ := result <;> rfl

theorem visit_atop (s : NetworkState) : (i.atop stale).visit env s =
    ((i.visit env s).1, (i.visit env s).2.atop stale) := by
  unfold visit
  dsimp only [run]
  rw [show (i.atop stale).parser = i.parser from rfl]
  generalize chooseEdge env s i.parser = result
  obtain ⟨halt | alt, p⟩ := result
  · rfl
  · dsimp only
    split
    · exact followEdge_atop (i := { i with parser := p }) s _
    · rfl

theorem unroll_atop (h : i.callers ≠ []) : (i.atop stale).unroll =
    (i.unroll.1, i.unroll.2.1, i.unroll.2.2.atop stale) := by
  obtain ⟨parser, callers⟩ := i
  cases callers with
  | nil => exact absurd rfl h
  | cons c callers => rfl

theorem leaveRule_atop (h : (env.network.rule rule).leftRecursive = true → i.callers ≠ []) :
    (i.atop stale).leaveRule env rule = (i.leaveRule env rule).atop stale := by
  cases hrec : (env.network.rule rule).leftRecursive with
  | true =>
    rw [leaveRule_recursive hrec, leaveRule_recursive hrec, unroll_atop (h hrec)]
    rfl
  | false =>
    rw [leaveRule_plain hrec, leaveRule_plain hrec]
    rfl

theorem finish_atop (h : (env.network.rule rule).leftRecursive = true → i.callers ≠ []) :
    (i.atop stale).finish env rule root =
      ((i.finish env rule root).1, (i.finish env rule root).2.atop stale) := by
  unfold finish
  split
  · rename_i hrec
    rw [unroll_atop (h hrec)]
  · rfl

end Interpreter

/-- What a step leads to, with calls below its own. -/
def Progress.atop (stale : List (Option InvocationId × Option StateId)) : Progress → Progress
  | .running i => .running (i.atop stale)
  | .finished outcome i => .finished outcome (i.atop stale)

namespace Interpreter

variable {env : Setting} {i i' : Interpreter} {stale : List (Option InvocationId × Option StateId)}
  {rule : RuleId} {root : InvocationId}

theorem step_atop
    (hcallers : ∀ s, i.recognizer.state = some s →
      (env.network.rule (env.network.state s).rule).leftRecursive = true → i.callers ≠ [])
    (hout : ∀ s, i.recognizer.state = some s → i.isOutermost = true →
      (env.network.state s).rule = rule) :
    step env rule root (i.atop stale) = (step env rule root i).atop stale := by
  have hsame : (i.atop stale).recognizer = i.recognizer := rfl
  have hsameOut : (i.atop stale).isOutermost = i.isOutermost := rfl
  unfold step
  rw [hsame, hsameOut]
  cases hst : i.recognizer.state with
  | none => rfl
  | some s =>
    dsimp only
    split
    · split
      · rename_i ho
        rw [finish_atop fun hrec => hcallers s hst (by rwa [hout s hst ho])]
        rfl
      · rw [leaveRule_atop (hcallers s hst)]
        rfl
    · rw [visit_atop]
      generalize i.visit env (env.network.state s) = result
      obtain ⟨((e | ⟨name, limit⟩ | e) | d) | u, j⟩ := result
      · dsimp only
        rw [show (j.atop stale).recoverFrom env (env.network.state s) e =
          ((j.recoverFrom env (env.network.state s) e).1,
            (j.recoverFrom env (env.network.state s) e).2.atop stale) from rfl]
        generalize j.recoverFrom env (env.network.state s) e = result
        obtain ⟨halt | u, k⟩ := result <;> rfl
      all_goals rfl

variable {G : Guide} {first : TokenCursor} {a : Station} {rest : List Station}
  {done : List InvocationId} {w : List Token} {g : Grammar} {fuel : Nat}

/-- Where the live invocations are tracked, each left-recursive one has its call. -/
theorem runFor_atop (hG : G.Fits) (hnet : env.network = G.network)
    (hindex : ∀ t ∈ first.tokens, t.isConjured = false)
    (h : Tracked env G rule root first i (a :: rest) done w) :
    runFor env rule root fuel (i.atop stale) =
      (runFor env rule root fuel i).map fun x => (x.1, x.2.atop stale) := by
  induction fuel generalizing i a rest done w with
  | zero => rfl
  | succ fuel ih =>
    obtain ⟨_, _, -, hst, -⟩ := h.woven.threads
    have hstate : ∀ s, i.recognizer.state = some s → s = a.state := fun s hs =>
      Option.some.inj (hs.symm.trans h.state)
    have hstep : step env rule root (i.atop stale) = (step env rule root i).atop stale := by
      refine step_atop (fun s hs hrec => ?_) fun s hs ho => ?_
      · obtain rfl := hstate s hs
        rw [hnet, hst.state_rule] at hrec
        rw [h.callers]
        unfold Guide.callers Guide.recursive
        rw [if_pos hrec]
        exact List.cons_ne_nil _ _
      · obtain rfl := hstate s hs
        obtain rfl := h.single ho
        rw [hnet, hst.state_rule]
        exact (h.outermost a rfl).1
    unfold runFor
    rw [hstep]
    generalize hprogress : step env rule root i = progress
    cases progress with
    | finished outcome j => rfl
    | running j =>
      obtain ⟨a', rest', done', w', h'⟩ := h.turns hG hnet hindex (turns_step.1 j hprogress)
      exact ih h'

/-- A parse from a new parser does not look at calls that were left open before it. -/
theorem parse_atop (hg : g.compile = .ok env.grammar) (hrule : rule < g.rules.size) (hi : i.Fresh)
    (hstop : i.recognizer.input.Stopped)
    (hindex : ∀ t ∈ i.recognizer.input.tokens, t.isConjured = false) :
    (i.atop stale).parse env fuel rule =
      (i.parse env fuel rule).map fun x => (x.1, x.2.atop stale) := by
  obtain ⟨G, hnet, -, -, hG⟩ := Grammar.exists_guide hg fun _ _ _ _ _ => True
  have hsize : rule < G.network.rules.size := by
    rw [hnet, (Grammar.shaped_compile hg).2]
    exact hrule
  unfold parse
  rw [enter_atop]
  generalize hen : i.enter env rule 0 = result
  obtain ⟨halt | root, j⟩ := result
  · rfl
  · exact runFor_atop hG hnet.symm hindex (tracked_enter hG hnet.symm hsize hi hstop hen)

/-- An interpreter that has parsed nothing. -/
def new (env : Setting) (input : TokenCursor) (policy : RecoveryPolicy) : Interpreter :=
  { parser := { recognizer := .start env input (.ofNetwork env.network), strategy := { policy } } }

/-- Back to the first token. -/
def reset (i : Interpreter) : Interpreter := { i with parser := i.parser.reset }

/-- Forgets what lookahead has found out. -/
def forget (i : Interpreter) : Interpreter :=
  { i with parser := i.parser.modifyRecognizer fun r => { r with cache := r.cache.clear } }

/-- What parses of any rules with any outcomes make of a new interpreter, and resets among them. -/
inductive Used (env : Setting) (input : TokenCursor) (policy : RecoveryPolicy) : Interpreter → Prop
  | new : Used env input policy (new env input policy)
  | parse {i i' : Interpreter} {fuel : Nat} {rule : RuleId} {outcome : Except Halt InvocationId}
      (h : Used env input policy i) (hrun : i.parse env fuel rule = some (outcome, i')) :
      Used env input policy i'
  | reset {i : Interpreter} (h : Used env input policy i) : Used env input policy i.reset
  | forget {i : Interpreter} (h : Used env input policy i) : Used env input policy i.forget

/-- What stays through all parses of one input. -/
structure Serves (env : Setting) (input : TokenCursor) (policy : RecoveryPolicy) (i : Interpreter) :
    Prop where
  along : input.Along i.recognizer.input
  stopped : i.recognizer.input.Stopped
  cache : PredictionCache.History env.network i.recognizer.cache
  limit : i.recognizer.nesting.limit = env.config.maxDepth
  policy : i.parser.strategy.policy = policy

namespace Serves

variable {input : TokenCursor} {policy : RecoveryPolicy}

theorem of_onlyTree (h : Serves env input policy i) (ht : i.recognizer.OnlyTree i'.recognizer)
    (hp : i'.parser.strategy = i.parser.strategy) : Serves env input policy i' where
  along := ht.input ▸ h.along
  stopped := ht.input ▸ h.stopped
  cache := ht.cache ▸ h.cache
  limit := ht.limit.trans h.limit
  policy := hp ▸ h.policy

theorem deed (h : Serves env input policy i) {p : Parser} (hd : Deed env i.parser p) :
    Serves env input policy { i with parser := p } := by
  obtain ⟨hinput, hlimit⟩ := hd.sides h.stopped
  have hturn : Turns env i { i with parser := p } := .single (.move (.deed hd))
  have hcache : PredictionCache.History env.network p.recognizer.cache :=
    history_turns hturn h.cache
  have hpolicy : p.strategy.policy = policy := (policy_deeds (.single hd)).trans h.policy
  refine ⟨?_, ?_, hcache, hlimit.trans h.limit, hpolicy⟩
  · show input.Along p.recognizer.input
    rcases hinput with hsame | hnext
    · exact hsame ▸ h.along
    · exact hnext ▸ h.along.trans i.recognizer.input.along_consume
  · show p.recognizer.input.Stopped
    rcases hinput with hsame | hnext
    · exact hsame ▸ h.stopped
    · exact hnext ▸ h.stopped.consume

theorem turns (h : Serves env input policy i) (ht : Turns env i i') :
    Serves env input policy i' := by
  induction ht with
  | refl => exact h
  | tail _ ht ih =>
    rcases ht.deed_or_onlyTree with ⟨p, hd, rfl⟩ | ⟨htree, hp⟩
    · exact ih.deed hd
    · exact ih.of_onlyTree htree hp

/-- A parse of any rule with any outcome. -/
theorem parse {fuel : Nat} {outcome : Except Halt InvocationId} (h : Serves env input policy i)
    (hrun : i.parse env fuel rule = some (outcome, i')) : Serves env input policy i' := by
  unfold Interpreter.parse at hrun
  generalize hen : i.enter env rule 0 = result at hrun
  obtain ⟨halt | root, i₀⟩ := result
  · cases hrun
    rwa [(enter_eq_error hen).1]
  · obtain ⟨htree, hp⟩ := @onlyTree_enter env i rule 0
    rw [hen] at htree hp
    obtain ⟨j, hsteps, hfin⟩ := follows_runFor hrun
    have hj := (h.of_onlyTree htree hp).turns (turns_of_follows hsteps)
    cases outcome with
    | error halt => exact hj.turns (turns_step.2 halt i' hfin)
    | ok id =>
      rcases step_finished hfin with hnone | ⟨s, -, -, -, hclose⟩
      · rw [step_of_none hnone] at hfin
        cases hfin
        exact hj
      · have htree := @onlyTree_finish env j rule root
        have hp : (j.finish env rule root).2.parser.strategy = j.parser.strategy := by
          unfold finish
          split <;> rfl
        rw [hclose] at htree hp
        exact hj.of_onlyTree htree hp

end Serves

variable {input : TokenCursor} {policy : RecoveryPolicy}

theorem Used.serves (h : Used env input policy i) (hs : input.Stopped) :
    Serves env input policy i := by
  induction h with
  | new => exact ⟨.refl input, hs, .fresh, rfl, rfl⟩
  | parse _ hrun ih => exact ih.parse hrun
  | @reset i _ ih =>
    exact ⟨ih.along.trans (i.recognizer.input.along_moveTo 0), i.recognizer.input.stopped_moveTo 0,
      ih.cache, ih.limit, ih.policy⟩
  | forget _ ih => exact ⟨ih.along, ih.stopped, ih.cache.clear, ih.limit, ih.policy⟩

/-- What was used and is reset mirrors what is new, but for calls left open. -/
theorem Serves.mirrors_new {tokens : Array Token} {channel : Nat}
    (h : Serves env (.ofTokens tokens channel) policy i) :
    Interpreter.Mirrors .same { i.reset.forget with callers := [] }
      (new env (.ofTokens tokens channel) policy) := by
  have hinput : i.recognizer.input.seek 0 = .ofTokens tokens channel := by
    rw [h.along.seek 0]
    rfl
  have hnesting : i.recognizer.nesting.reset = { limit := env.config.maxDepth } := by
    rw [← h.limit]
    rfl
  have hstrategy : i.parser.strategy.reset = { policy } := by
    rw [← h.policy]
    rfl
  refine ⟨⟨⟨hinput, h.cache.renumbers_clear, .empty, rfl, rfl, rfl, hnesting, .nil, rfl⟩, ?_⟩, rfl⟩
  show Strategy.Mirrors _ i.parser.strategy.reset { policy }
  rw [hstrategy]
  exact ⟨rfl, rfl, .none, rfl, rfl⟩

/-- What is seen of a parse once it is over. -/
structure Result where
  outcome : Except Halt InvocationId
  forest : Forest
  errors : Array SyntaxError
  index : Nat
  matchedEof : Bool
  recovering : Bool

def result (x : Except Halt InvocationId × Interpreter) : Result where
  outcome := x.1
  forest := x.2.recognizer.forest
  errors := x.2.recognizer.errors
  index := x.2.recognizer.input.position
  matchedEof := x.2.recognizer.matchedEof
  recovering := x.2.parser.strategy.recovering

/-- Parses in step come to the same result if nothing stands for anything but itself. -/
theorem result_eq_of_lockstep {x y : Except Halt InvocationId × Interpreter}
    (h : Lockstep Mirror.same (Interpreter.Mirrors .same) Eq x y) : result x = result y := by
  obtain ⟨ho, hp, -⟩ := h
  have hinput : x.2.recognizer.input = y.2.recognizer.input := hp.recognizer.input
  have hforest : x.2.recognizer.forest = y.2.recognizer.forest :=
    Mirror.eq_of_mirrors_forest hp.recognizer.forest
  have herrors : x.2.recognizer.errors = y.2.recognizer.errors := by
    have hall : List.Forall₂ Eq x.2.recognizer.errors.toList y.2.recognizer.errors.toList :=
      hp.recognizer.errors
    rw [List.forall₂_eq_eq_eq] at hall
    exact Array.toList_inj.1 hall
  have heof : x.2.recognizer.matchedEof = y.2.recognizer.matchedEof := hp.recognizer.matchedEof
  simp only [result, Mirror.eq_of_sameOutcome ho, hforest, herrors, hinput, heof,
    hp.strategy.recovering]

variable {tokens : Array Token} {channel : Nat}

/-- After a reset that also forgets what lookahead has found out, a parse comes to the same result as
the parse of a new interpreter, whatever was parsed before and however that ended. -/
theorem parse_reset (hg : g.compile = .ok env.grammar) (hrule : rule < g.rules.size)
    (h : Used env (.ofTokens tokens channel) policy i) (fuel : Nat) :
    (i.reset.forget.parse env fuel rule).map result =
      ((new env (.ofTokens tokens channel) policy).parse env fuel rule).map result := by
  have hserves := h.serves (TokenCursor.stopped_ofTokens tokens channel)
  have hmirrors := hserves.mirrors_new
  have hsplit : i.reset.forget =
      atop { i.reset.forget with callers := [] } i.callers := rfl
  have hinput : ({ i.reset.forget with callers := [] } : Interpreter).recognizer.input =
      .ofTokens tokens channel := hmirrors.parser.recognizer.input
  have hfresh : Fresh { i.reset.forget with callers := [] } := ⟨rfl, rfl, rfl, rfl, rfl, rfl, rfl⟩
  have hatop := @parse_atop env _ i.callers rule g fuel hg hrule hfresh
    (hinput ▸ TokenCursor.stopped_ofTokens tokens channel)
    (fun t ht => isConjured_of_mem_ofTokens (hinput ▸ ht))
  rw [hsplit, hatop, Option.map_map]
  have hstep := hmirrors.parse (ParseMirror.faithful_same env) fuel rule
  generalize Interpreter.parse env fuel rule _ = x at hstep ⊢
  generalize Interpreter.parse env fuel rule _ = y at hstep ⊢
  cases hstep with
  | none => rfl
  | some hstep =>
    have hsame := result_eq_of_lockstep hstep
    exact congrArg some hsame

end Interpreter

/-- A parser that has not begun and will bail, at the input A A B. -/
def bailingAtStray : Interpreter :=
  .new nestedSetting (.ofTokens #[{ kind := 1 }, { kind := 1 }, { kind := 2 }] defaultChannel) .bail

/-- The parse of A A B by `nested` is given up inside the invocations it has opened. After a reset it
comes to the same result again. -/
theorem reset_stray : ∃ halt i', bailingAtStray.parse nestedSetting 20 0 = some (.error halt, i') ∧
    i'.recognizer.invocation.isSome = true ∧
    (i'.reset.forget.parse nestedSetting 20 0).map Interpreter.result =
      (bailingAtStray.parse nestedSetting 20 0).map Interpreter.result := by
  have hrun : (bailingAtStray.parse nestedSetting 20 0).map
      (fun x => (x.1.toBool, x.2.recognizer.invocation.isSome)) = some (false, true) := by cbv
  cases hparse : bailingAtStray.parse nestedSetting 20 0 with
  | none =>
    rw [hparse] at hrun
    cases hrun
  | some x =>
    rw [hparse] at hrun
    obtain ⟨outcome, i'⟩ := x
    obtain ⟨hout, hopen⟩ := Prod.mk.inj (Option.some.inj hrun)
    have hsize : nested.rules.size = 2 := by cbv
    cases outcome with
    | ok id => cases hout
    | error halt =>
      refine ⟨halt, i', rfl, hopen, ?_⟩
      rw [← hparse]
      exact Interpreter.parse_reset compile_nested (by rw [hsize]; decide) (.parse .new hparse) 20

end AdaptiveParsing
