import AdaptiveParsing.Proofs.Recognition.TwoStage
/-!
What a parse that bails does at a state whose edge is known. What lookahead has learned so far makes no
difference to it, and so is left open (`Interpreter.Like`). One lemma for each kind of edge says how the
parse gets past it (`Along`), and one lemma for each kind of state where it goes on (`Advances`). Main
statement: such ways make a run (`Advances.runFor`).
-/

namespace AdaptiveParsing

open AdaptiveParsing.Parser

/-- The current token is one that was asked for, and is taken. -/
def Recognizer.take (env : Setting) (r : Recognizer) : Recognizer :=
  Recognizer.consume env { r with matchedEof := r.input.kind.isEof || r.matchedEof } false

theorem Recognizer.input_take {env : Setting} (r : Recognizer) : (r.take env).input = r.input.consume := by
  exact Parser.input_takeMatch ⟨{ r with matchedEof := r.input.kind.isEof || r.matchedEof }, {}⟩

/-- What taking a token does in an invocation. -/
theorem Recognizer.take_eq {env : Setting} {r : Recognizer} {id : InvocationId}
    (htree : env.config.buildTrees = true) (h : r.invocation = some id) : r.take env = { r with
      input := r.input.consume
      forest := r.forest.addChild id (.token r.input.current)
      matchedEof := r.input.kind.isEof || r.matchedEof } := by
  unfold take consume
  rw [if_neg Bool.false_ne_true, if_pos htree]
  unfold addChild
  rw [h]

/-- An ordinary rule is entered if there may be one more invocation. -/
theorem Recognizer.enterRule_eq {env : Setting} {r : Recognizer} (rule : RuleId)
    (h : r.nesting.depth < r.nesting.limit) : r.enterRule env rule =
      (.ok r.forest.size, { ({ r with
        nesting := { r.nesting with depth := r.nesting.depth + 1 }
        forest := (r.forest.alloc (r.newInvocation rule 0)).2 }.addChild (.rule r.forest.size)) with
          invocation := some r.forest.size
          state := some (env.network.rule rule).start }) := by
  unfold enterRule enter
  rw [NestingLimit.enter_eq_ok_iff.2 ⟨h, rfl⟩]
  rfl

theorem Recognizer.enterRecursion_eq {env : Setting} {r : Recognizer} (rule : RuleId) (precedence : Int)
    (h : r.nesting.depth < r.nesting.limit) : r.enterRecursion env rule precedence =
      (.ok r.forest.size, { r with
        nesting := { r.nesting with depth := r.nesting.depth + 1 }
        forest := (r.forest.alloc (r.newInvocation rule precedence)).2
        floors := precedence :: r.floors
        invocation := some r.forest.size
        state := some (env.network.rule rule).start }) := by
  unfold enterRecursion enter
  rw [NestingLimit.enter_eq_ok_iff.2 ⟨h, rfl⟩]
  rfl

theorem Recognizer.nesting_exitRule {r : Recognizer} {id : InvocationId} (h : r.invocation = some id) :
    r.exitRule.nesting = r.nesting.exit := by
  unfold exitRule
  rw [h]

theorem Recognizer.nesting_unrollRecursion {r : Recognizer} {id : InvocationId}
    (parent : Option InvocationId) (h : r.invocation = some id) :
    (r.unrollRecursion parent).2.nesting = r.nesting.exit := by
  unfold unrollRecursion
  rw [h]

/-- A state with one edge, a call, is followed by where the call returns to. -/
theorem Network.followOf?_of_call {n : Network} {a b back : StateId} {rule : RuleId} {precedence : Int}
    (h : (n.state a).transitions = [⟨b, .rule rule back precedence⟩]) : n.followOf? a = some back := by
  unfold followOf?
  rw [h]
  rfl

namespace Interpreter

/-- Another recognizer with the same strategy and callers. -/
def change (i : Interpreter) (f : Recognizer → Recognizer) : Interpreter :=
  { i with parser := i.parser.modifyRecognizer f }

/-- A parse that bails, has met no error and is where the other one is, but for what it has learned. -/
structure Like (env : Setting) (i j : Interpreter) : Prop where
  recognizer : i.recognizer = { j.recognizer with cache := i.recognizer.cache }
  callers : i.callers = j.callers
  bailing : i.parser.Bailing
  stopped : j.recognizer.input.Stopped
  earned : i.recognizer.cache.Earned env.network
  size : env.network.decisions.size ≤ i.recognizer.cache.size

/-- A parse goes from here to there. -/
def Advances (env : Setting) (j j' : Interpreter) : Prop :=
  ∀ i : Interpreter, i.Like env j →
    ∃ i', Relation.ReflTransGen (Goes env) i i' ∧ i'.Like env j'

/-- The edge leads from here to there. -/
def Along (env : Setting) (here : NetworkState) (t : Transition) (j j' : Interpreter) : Prop :=
  ∀ i : Interpreter, i.Like env j → ∃ i', i.followEdge env here t = (.ok (), i') ∧ i'.Like env j'

variable {env : Setting} {i j j' j'' : Interpreter} {here : NetworkState} {t : Transition}
  {a b : StateId} {d : DecisionId} {alt : Nat}

namespace Advances

theorem refl (env : Setting) (j : Interpreter) : Advances env j j := fun i hi => ⟨i, .refl, hi⟩

theorem trans (h : Advances env j j') (h' : Advances env j' j'') : Advances env j j'' := by
  intro i hi
  obtain ⟨i', hgoes, hi'⟩ := h i hi
  obtain ⟨i'', hgoes', hi''⟩ := h' i' hi'
  exact ⟨i'', hgoes.trans hgoes', hi''⟩

/-- A run from the end of some steps makes a run from their beginning. -/
theorem runFor {rule : RuleId} {root : InvocationId} {i i' : Interpreter} {fuel : Nat}
    {result : Except Halt InvocationId × Interpreter}
    (h : Relation.ReflTransGen (Goes env) i i')
    (hrun : Interpreter.runFor env rule root fuel i' = some result) :
    ∃ fuel, Interpreter.runFor env rule root fuel i = some result := by
  induction h using Relation.ReflTransGen.head_induction_on with
  | refl => exact ⟨fuel, hrun⟩
  | head hgoes _ ih =>
    obtain ⟨fuel, hrun⟩ := ih
    refine ⟨fuel + 1, ?_⟩
    unfold Interpreter.runFor
    rw [hgoes.step]
    exact hrun

end Advances

namespace Like

theorem state (h : i.Like env j) : i.recognizer.state = j.recognizer.state := by rw [h.recognizer]

theorem input (h : i.Like env j) : i.recognizer.input = j.recognizer.input := by rw [h.recognizer]

theorem invocation (h : i.Like env j) : i.recognizer.invocation = j.recognizer.invocation := by
  rw [h.recognizer]

theorem forest (h : i.Like env j) : i.recognizer.forest = j.recognizer.forest := by rw [h.recognizer]

/-- What changes the recognizer, whatever it has learned, keeps a parse like the other. -/
theorem change (h : i.Like env j) {f : Recognizer → Recognizer}
    (hf : ∀ r cache, f { r with cache } = { f r with cache }) (herrors : ∀ r, (f r).errors = r.errors)
    (hinput : (f j.recognizer).input.Stopped) :
    Like env (i.change f) (j.change f) := by
  have hr : f i.recognizer = { f j.recognizer with cache := i.recognizer.cache } := by
    rw [h.recognizer]
    exact hf _ _
  refine ⟨?_, h.callers, h.bailing.modify (herrors _), hinput, ?_, ?_⟩
  · show f i.recognizer = { f j.recognizer with cache := (f i.recognizer).cache }
    rw [hr]
  · show (f i.recognizer).cache.Earned env.network
    rw [hr]
    exact h.earned
  · show env.network.decisions.size ≤ (f i.recognizer).cache.size
    rw [hr]
    exact h.size

theorem withCallers (h : i.Like env j) (callers : List (Option InvocationId × Option StateId)) :
    Like env { i with callers } { j with callers } :=
  ⟨h.recognizer, rfl, h.bailing, h.stopped, h.earned, h.size⟩

theorem goTo (h : i.Like env j) (state : Option StateId) :
    Like env (i.goTo state) (j.goTo state) :=
  h.change (fun _ _ => rfl) (fun _ => rfl) h.stopped

end Like

/-- A state with one edge is left along it. -/
theorem Along.single (h : Along env (env.network.state a) t j j') (hn : env.network.Checked)
    (hs : j.recognizer.state = some a) (ht : (env.network.state a).transitions = [t]) :
    Advances env j j' := by
  intro i hi
  obtain ⟨i', hf, hi'⟩ := h i hi
  have hmem : t ∈ (env.network.state a).transitions := by
    rw [ht]
    exact .head _
  refine ⟨i', .single ⟨a, hi.state.trans hs, .inr ⟨hn.not_stop hmem, ?_⟩⟩, hi'⟩
  have hch : chooseEdge env (env.network.state a) i.parser = (.ok 1, i.parser) :=
    chooseEdge_of_single fun d hd => by rw [ht]; exact Nat.le_refl 1
  unfold visit Interpreter.run
  rw [hch]
  dsimp only
  rw [ht]
  exact hf

/-- A decision leaves a state along an edge that lookahead without the callers comes to. -/
theorem advances_decided {P : Nat → Prop} (hmode : env.config.mode = .sll) (hn : env.network.Checked)
    (hs : j.recognizer.state = some a) (hd : (env.network.state a).decision = some d)
    (hlt : d < env.network.decisions.size) (hlen : 1 < (env.network.state a).transitions.length)
    (hp : ∀ known, Automaton.Recorded env.network d (fun _ => True) known → ∃ alt, P alt ∧
      ((j.recognizer.simulation env d).predict d .sll known j.recognizer.input.mark.2).1 =
        .alternative (alt + 1))
    (h : ∀ alt, P alt → ∃ t j₁, (env.network.state a).transitions[alt]? = some t ∧
      Along env (env.network.state a) t j j₁ ∧ Advances env j₁ j') : Advances env j j' := by
  intro i hi
  obtain ⟨known, hknown⟩ : ∃ known, i.recognizer.cache.get? d = some known :=
    ⟨_, Array.getElem?_eq_getElem (Nat.lt_of_lt_of_le hlt hi.size)⟩
  have hhistory := hi.earned d known hknown
  have hsim : i.recognizer.simulation env d = j.recognizer.simulation env d := by
    rw [hi.recognizer]
    rfl
  obtain ⟨alt, halt, hpredict⟩ := hp known hhistory.recorded
  obtain ⟨t, j₁, ht, halong, hadvances⟩ := h alt halt
  rw [← hsim, ← hi.input, ← hmode] at hpredict
  have hchosen := Recognizer.predict_eq (hi.input ▸ hi.stopped) hknown hpredict rfl
  have hsync : sync env i.parser = (.ok (), i.parser) := by
    unfold sync
    rw [if_pos (by simp [hi.bailing.bails])]
  have hch := Interpreter.chooseEdge_of_predict hd hlen hsync hchosen
  generalize hlearned : ((i.recognizer.simulation env d).predict d env.config.mode known
    i.recognizer.input.mark.2).2.1 = learned at hch
  have hearned : (i.recognizer.cache.set d learned).Earned env.network := by
    rw [← hlearned]
    exact hi.earned.set (hhistory.predict (i.recognizer.simulation env d) rfl trivial _ _)
  let k : Interpreter := { i with parser := { i.parser with
    recognizer := { i.recognizer with cache := i.recognizer.cache.set d learned } } }
  have hk : k.Like env j := by
    refine ⟨?_, hi.callers, ⟨hi.bailing.silent, hi.bailing.bails, hi.bailing.steady⟩, hi.stopped,
      hearned, ?_⟩
    · show ({ i.recognizer with cache := i.recognizer.cache.set d learned } : Recognizer) =
        { j.recognizer with cache := i.recognizer.cache.set d learned }
      rw [hi.recognizer]
    · exact Nat.le_trans hi.size (Nat.le_of_eq Array.size_setIfInBounds.symm)
  obtain ⟨i₁, hf, hi₁⟩ := halong k hk
  have hgoes : Goes env i i₁ := by
    refine ⟨a, hi.state.trans hs, .inr ⟨hn.not_stop (List.mem_of_getElem? ht), ?_⟩⟩
    unfold visit Interpreter.run
    rw [hch]
    dsimp only [Recognizer.outcome]
    rw [Nat.add_sub_cancel, ht]
    exact hf
  obtain ⟨i', hrest, hi'⟩ := hadvances i₁ hi₁
  exact ⟨i', .head hgoes hrest, hi'⟩

theorem followEdge_of_passEdge {p : Parser} (hk : ∀ rule follow precedence, t.kind ≠ .rule rule follow precedence)
    (h : passEdge env here t i.parser = (.ok (), p)) :
    i.followEdge env here t = (.ok (), Interpreter.goTo { i with parser := p } (some t.target)) := by
  unfold followEdge Interpreter.run
  cases hkind : t.kind with
  | rule rule follow precedence => exact absurd hkind (hk rule follow precedence)
  | _ =>
    dsimp only
    rw [h]

theorem passEdge_epsilon (here : NetworkState) (b : StateId) (p : Parser) :
    passEdge env here (.epsilon b) p = (.ok (),
      if here.precedenceDecision && (env.network.state b).kind != .loopEnd then
        p.modifyRecognizer fun r =>
          (r.pushRecursion (env.network.rule here.rule).start here.rule).2
      else p) := by
  have hrun : ∀ (c : Prop) [Decidable c] (f : Parser → Parser),
      (if c then modify f else pure () : ParserM Unit) p = (.ok (), if c then f p else p) := by
    intro c _ f
    split <;> rfl
  exact hrun _ _

/-- Nothing happens on the way past an edge that takes nothing, unless it begins another round. -/
theorem along_epsilon (hround : here.precedenceDecision = false ∨
    (env.network.state b).kind = .loopEnd) :
    Along env here (.epsilon b) j (j.goTo (some b)) := by
  intro i hi
  refine ⟨_, followEdge_of_passEdge nofun ((passEdge_epsilon here b _).trans ?_), hi.goTo (some b)⟩
  rw [if_neg (by rcases hround with h | h <;> simp [h])]

/-- Another round begins on the way into a loop of operators. -/
theorem along_round (hloop : here.precedenceDecision = true)
    (hkind : (env.network.state b).kind ≠ .loopEnd) :
    Along env here (.epsilon b) j ((j.change fun r =>
      (r.pushRecursion (env.network.rule here.rule).start here.rule).2).goTo (some b)) := by
  intro i hi
  refine ⟨_, followEdge_of_passEdge nofun ((passEdge_epsilon here b _).trans ?_),
    (hi.change ?_ (fun r => r.errors_pushRecursion _ _) ?_).goTo (some b)⟩
  · rw [if_pos (by simp [hloop, hkind])]
  · rintro ⟨_, _, _, _ | _, _, _, _, _, _, _, _, _⟩ cache <;> rfl
  · rw [(j.recognizer.onlyTree_pushRecursion _ _).input]
    exact hi.stopped

theorem passEdge_atom {p : Parser} {k : TokenType} (hk : p.recognizer.input.kind = k) :
    passEdge env here ⟨b, .atom k⟩ p = (.ok (), ⟨p.recognizer.take env, p.strategy.endError⟩) := by
  subst hk
  show (matchToken env p.recognizer.input.kind >>= fun _ => pure PUnit.unit) p = _
  rw [bind_run, matchToken_run, if_pos rfl]
  unfold Recognizer.take
  cases p.recognizer.input.kind.isEof <;> rfl

/-- A token that comes next is taken. -/
theorem along_atom {k : TokenType} (hk : j.recognizer.input.kind = k) :
    Along env here ⟨b, .atom k⟩ j ((j.change fun r => r.take env).goTo (some b)) := by
  intro i hi
  have hpass := @passEdge_atom env here b i.parser k ((congrArg TokenCursor.kind hi.input).trans hk)
  have hlike := hi.change (f := fun r => r.take env) ?_ ?_ ?_
  · have hmatched : Like env { i with parser := ⟨i.recognizer.take env, i.parser.strategy.endError⟩ }
        (j.change fun r => r.take env) :=
      ⟨hlike.recognizer, hlike.callers, ⟨hlike.bailing.silent, hi.bailing.bails, rfl⟩,
        hlike.stopped, hlike.earned, hlike.size⟩
    exact ⟨_, followEdge_of_passEdge nofun hpass, hmatched.goTo (some b)⟩
  · rintro ⟨_, _, _, _ | _, _, _, _, _, _, _, _, _⟩ cache <;> unfold Recognizer.take Recognizer.consume <;>
      cases env.config.buildTrees <;> rfl
  · exact fun r => Recognizer.errors_consume _ _ _
  · rw [j.recognizer.input_take]
    exact hi.stopped.consume

/-- A state with one edge that takes nothing is left along it. -/
theorem advances_epsilon (hn : env.network.Checked) (hs : j.recognizer.state = some a)
    (ht : (env.network.state a).transitions = [.epsilon b])
    (hplain : (env.network.state a).precedenceDecision = false) :
    Advances env j (j.goTo (some b)) := (along_epsilon (.inl hplain)).single hn hs ht

/-- A state that takes the current token is left past it. -/
theorem advances_atom {k : TokenType} (hn : env.network.Checked) (hs : j.recognizer.state = some a)
    (ht : (env.network.state a).transitions = [⟨b, .atom k⟩]) (hk : j.recognizer.input.kind = k) :
    Advances env j ((j.change fun r => r.take env).goTo (some b)) := (along_atom hk).single hn hs ht

/-- A level that is not below the floor is passed. -/
theorem along_precedence {level : Int} (hp : j.recognizer.precedence ≤ level) :
    Along env here ⟨b, .precedence level⟩ j (j.goTo (some b)) := by
  intro i hi
  refine ⟨_, followEdge_of_passEdge nofun ?_, hi.goTo (some b)⟩
  have hp' : i.recognizer.precedence ≤ level := by
    rw [hi.recognizer]
    exact hp
  show Parser.checkPrecedence env level i.parser = _
  have hpermits : i.recognizer.checkPrecedence env level = .ok () := by
    unfold Recognizer.checkPrecedence Recognizer.permits
    rw [if_pos (decide_eq_true hp')]
  unfold Parser.checkPrecedence
  rw [get_run, show i.parser.recognizer.checkPrecedence env level = .ok () from hpermits]
  rfl

theorem enter_plain {rule : RuleId} (precedence : Int)
    (hrule : (env.network.rule rule).leftRecursive = false)
    (hdepth : i.recognizer.nesting.depth < i.recognizer.nesting.limit) :
    i.enter env rule precedence =
      (.ok i.recognizer.forest.size, i.change fun r => (r.enterRule env rule).2) := by
  have henter := @Recognizer.enterRule_eq env i.recognizer rule hdepth
  have hrun : Parser.enterRule env rule i.parser = (.ok i.recognizer.forest.size,
      i.parser.modifyRecognizer fun r => (r.enterRule env rule).2) := by
    show ((i.recognizer.enterRule env rule).1.mapError Halt.failure, _) = _
    rw [henter]
    rfl
  unfold enter Interpreter.run
  rw [if_neg (by simp [hrule]), hrun]
  rfl

theorem enter_recursive {rule : RuleId} (precedence : Int)
    (hrule : (env.network.rule rule).leftRecursive = true)
    (hdepth : i.recognizer.nesting.depth < i.recognizer.nesting.limit) :
    i.enter env rule precedence = (.ok i.recognizer.forest.size,
      { i.change fun r => (r.enterRecursion env rule precedence).2 with
        callers := (i.recognizer.invocation, i.recognizer.state) :: i.callers }) := by
  have henter := @Recognizer.enterRecursion_eq env i.recognizer rule precedence hdepth
  have hrun : Parser.enterRecursion env rule precedence i.parser = (.ok i.recognizer.forest.size,
      i.parser.modifyRecognizer fun r => (r.enterRecursion env rule precedence).2) := by
    show ((i.recognizer.enterRecursion env rule precedence).1.mapError Halt.failure, _) = _
    rw [henter]
    rfl
  unfold enter Interpreter.run
  rw [if_pos hrule]
  dsimp only
  rw [hrun]
  rfl

theorem followEdge_of_enter {i' : Interpreter} {rule : RuleId} {follow : StateId} {precedence : Int}
    {id : InvocationId} (h : i.enter env rule precedence = (.ok id, i')) :
    i.followEdge env here ⟨b, .rule rule follow precedence⟩ = (.ok (), i'.goTo (some b)) := by
  unfold followEdge
  dsimp only
  rw [h]
  rfl

/-- An ordinary rule is entered if there may be one more invocation. -/
theorem along_rule {rule : RuleId} {follow : StateId} {precedence : Int}
    (hrule : (env.network.rule rule).leftRecursive = false)
    (hdepth : j.recognizer.nesting.depth < j.recognizer.nesting.limit) :
    Along env here ⟨b, .rule rule follow precedence⟩ j
      ((j.change fun r => (r.enterRule env rule).2).goTo (some b)) := by
  intro i hi
  have hdepth' : i.recognizer.nesting.depth < i.recognizer.nesting.limit := by
    rw [hi.recognizer]
    exact hdepth
  refine ⟨_, followEdge_of_enter (enter_plain precedence hrule hdepth'),
    (hi.change ?_ (fun r => Recognizer.errors_enterRule _ r rule) ?_).goTo (some b)⟩
  · rintro ⟨_, _, _, _ | _, _, _, nesting, _, _, _, _, _⟩ cache <;>
      unfold Recognizer.enterRule Recognizer.enter <;> dsimp only <;> cases nesting.enter <;> rfl
  · rw [(j.recognizer.onlyTree_enterRule rule).input]
    exact hi.stopped

/-- A left-recursive rule is entered if there may be one more invocation. -/
theorem along_recursion {rule : RuleId} {follow : StateId} {precedence : Int}
    (hrule : (env.network.rule rule).leftRecursive = true)
    (hdepth : j.recognizer.nesting.depth < j.recognizer.nesting.limit) :
    Along env here ⟨b, .rule rule follow precedence⟩ j (Interpreter.goTo
      { j.change fun r => (r.enterRecursion env rule precedence).2 with
        callers := (j.recognizer.invocation, j.recognizer.state) :: j.callers } (some b)) := by
  intro i hi
  have hdepth' : i.recognizer.nesting.depth < i.recognizer.nesting.limit := by
    rw [hi.recognizer]
    exact hdepth
  have hlike := hi.change (f := fun r => (r.enterRecursion env rule precedence).2) ?_
    (fun r => Recognizer.errors_enterRecursion _ r rule precedence) ?_
  · have henter := enter_recursive precedence hrule hdepth'
    rw [hi.invocation, hi.state, hi.callers] at henter
    exact ⟨_, followEdge_of_enter henter, (hlike.withCallers _).goTo (some b)⟩
  · rintro ⟨_, _, _, _, _, _, nesting, _, _, _, _, _⟩ cache
    unfold Recognizer.enterRecursion Recognizer.enter
    dsimp only
    cases nesting.enter <;> rfl
  · rw [(j.recognizer.onlyTree_enterRecursion rule precedence).input]
    exact hi.stopped

/-- The end of a left-recursive rule, told from the caller that is next. -/
theorem leaveRule_unroll {rule : RuleId} (h : (env.network.rule rule).leftRecursive = true) :
    i.leaveRule env rule = Interpreter.goTo
      { i.change fun r => (r.unrollRecursion (i.callers.head?.getD (none, none)).1).2 with
        callers := i.callers.tail }
      ((i.callers.head?.getD (none, none)).2.bind env.network.followOf?) := by
  rw [leaveRule_recursive h]
  rfl

/-- At the end of a rule that was called the parse goes on where the call returns to. -/
theorem advances_leaveRule {id : InvocationId} (hs : j.recognizer.state = some a)
    (hstop : (env.network.state a).isRuleStop = true) (hinv : j.recognizer.invocation = some id)
    (hcaller : (j.recognizer.forest.get id).caller.isSome = true) :
    Advances env j (j.leaveRule env (env.network.state a).rule) := by
  intro i hi
  have hout : i.isOutermost = false := by
    unfold isOutermost
    rw [hi.invocation, hinv, hi.forest]
    dsimp only
    rw [← Option.not_isSome, hcaller]
    rfl
  refine ⟨_, .single ⟨a, hi.state.trans hs, .inl ⟨hstop, hout, rfl⟩⟩, ?_⟩
  cases hrule : (env.network.rule (env.network.state a).rule).leftRecursive with
  | true =>
    rw [leaveRule_unroll hrule, leaveRule_unroll hrule, hi.callers]
    have hlike := hi.change (f := fun r =>
      (r.unrollRecursion (j.callers.head?.getD (none, none)).1).2) ?_
      (fun r => r.errors_unrollRecursion _) ?_
    · exact (hlike.withCallers _).goTo _
    · rintro ⟨_, _, _, _ | _, _, _, _, _, _, _, _, _⟩ cache <;> rfl
    · rw [(j.recognizer.onlyTree_unrollRecursion _).input]
      exact hi.stopped
  | false =>
    rw [leaveRule_plain hrule, leaveRule_plain hrule]
    refine hi.change (f := fun r =>
      { r.exitRule with state := r.exitRule.state.bind env.network.followOf? }) ?_
      (fun r => r.errors_exitRule) ?_
    · rintro ⟨_, _, _, _ | _, _, _, _, _, _, _, _, _⟩ cache <;> rfl
    · show j.recognizer.exitRule.input.Stopped
      rw [j.recognizer.onlyTree_exitRule.input]
      exact hi.stopped

end Interpreter

end AdaptiveParsing
