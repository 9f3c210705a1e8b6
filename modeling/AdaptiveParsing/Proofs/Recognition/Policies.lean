import AdaptiveParsing.Proofs.Recognition.Cache
import AdaptiveParsing.Proofs.Recognition.Silence
import AdaptiveParsing.Proofs.Recognition.Yield
/-!
The two policies on one input. While nothing is wrong they do the same (`Parser.Twins`): the check before a
decision does nothing where the decision comes to an alternative, since lookahead takes no token that the
table of next tokens lacks, and recovery is not asked for. The first error ends a parse that bails. Main
statement: `Interpreter.bail_agrees_with_recover`.
-/

namespace AdaptiveParsing

open AdaptiveParsing.Parser

variable {env : Setting}

namespace Parser

/-- Two parsers with one recognizer, without a report so far: one that bails and one that recovers. -/
structure Twins (p q : Parser) : Prop where
  same : q.recognizer = p.recognizer
  silent : p.Silent
  bails : p.strategy.policy = .bail
  recovers : q.strategy.policy = .recover
  steady : p.strategy.recovering = false
  calm : q.strategy.recovering = false

/-- What the one does without an error the other does, if it does it without a report. -/
structure Agree {α : Type} (x y : Except Halt α × Parser) : Prop where
  recover_of_bail : ∀ a p, x = (.ok a, p) → ∃ q, y = (.ok a, q) ∧ Twins p q
  bail_of_recover : ∀ a q, y = (.ok a, q) → q.Silent → ∃ p, x = (.ok a, p) ∧ Twins p q

variable {p q : Parser} {α β : Type}

theorem Agree.ok (h : Twins p q) (a : α) : Agree (.ok a, p) (.ok a, q) := by
  refine ⟨?_, ?_⟩
  · rintro _ _ ⟨⟩
    exact ⟨q, rfl, h⟩
  · rintro _ _ ⟨⟩ -
    exact ⟨p, rfl, h⟩

theorem Agree.error {e e' : Halt} : Agree (.error e, p) ((.error e', q) : Except Halt α × Parser) := by
  refine ⟨?_, ?_⟩
  · rintro _ _ ⟨⟩
  · rintro _ _ ⟨⟩

/-- A change of the recognizer that reports nothing keeps the parsers twins. -/
theorem Twins.modify (h : Twins p q) {f : Recognizer → Recognizer}
    (hf : (f p.recognizer).errors = p.recognizer.errors) :
    Twins (p.modifyRecognizer f) (q.modifyRecognizer f) :=
  ⟨congrArg f h.same, hf.trans h.silent, h.bails, h.recovers, h.steady, h.calm⟩

theorem Twins.takeMatch (h : Twins p q) :
    Agree (Parser.takeMatch env p) (Parser.takeMatch env q) := by
  have hmatch : Twins p.reportMatch q.reportMatch :=
    ⟨h.same, h.silent, h.bails, h.recovers, rfl, rfl⟩
  have hconsume : Twins (p.reportMatch.consume env) (q.reportMatch.consume env) :=
    hmatch.modify (f := fun r => r.consume env false) (Recognizer.errors_consume env _ _)
  have hcurrent : q.reportMatch.recognizer.input.current = p.reportMatch.recognizer.input.current := by
    rw [hmatch.same]
  unfold Parser.takeMatch
  dsimp only
  rw [hcurrent]
  exact .ok hconsume _

/-- Recovery in place ends a parse that bails, and reports an error in one that recovers. -/
theorem Twins.recoverToken (h : Twins p q) :
    Agree (Parser.recoverToken env p) (Parser.recoverToken env q) := by
  have hbail : ∃ halt, (Parser.recoverToken env p).1 = .error halt := by
    rw [recoverToken_run]
    unfold recoverInline
    rw [h.bails]
    exact ⟨_, rfl⟩
  refine ⟨fun a p' hp => ?_, fun a q' hq hs => ?_⟩
  · obtain ⟨halt, hp'⟩ := hbail
    rw [hp] at hp'
    cases hp'
  · have hs' : (Parser.recoverToken env q).2.Silent := by
      rw [hq]
      exact hs
    obtain ⟨halt, hq'⟩ := recoverToken_of_silent (fun _ => h.calm) hs'
    rw [hq] at hq'
    cases hq'

/-- A match that takes the token on a condition, or recovers. -/
theorem Twins.match (env : Setting) (h : Twins p q) {m : ParserM Token} {f : Recognizer → Recognizer}
    {c : Recognizer → Prop} [∀ r, Decidable (c r)]
    (hm : ∀ p, m p = if c p.recognizer then Parser.takeMatch env (p.modifyRecognizer f)
      else Parser.recoverToken env p)
    (hf : ∀ r, (f r).errors = r.errors) :
    Agree ((discard m : ParserM Unit) p) ((discard m : ParserM Unit) q) := by
  have hagree : Agree (m p) (m q) := by
    rw [hm p, hm q, h.same]
    split
    · exact (h.modify (hf _)).takeMatch
    · exact h.recoverToken
  show Agree ((m >>= fun _ => pure PUnit.unit) p) ((m >>= fun _ => pure PUnit.unit) q)
  rw [bind_run, bind_run]
  refine ⟨fun a p' hp => ?_, fun a q' hq hs => ?_⟩
  · generalize m p = x at hp hagree
    obtain ⟨halt | t, p₁⟩ := x
    · cases hp
    · cases hp
      obtain ⟨q', hq', h'⟩ := hagree.recover_of_bail t _ rfl
      rw [hq']
      exact ⟨q', rfl, h'⟩
  · generalize m q = y at hq hagree
    obtain ⟨halt | t, q₁⟩ := y
    · cases hq
    · cases hq
      obtain ⟨p', hp', h'⟩ := hagree.bail_of_recover t _ rfl hs
      rw [hp']
      exact ⟨p', rfl, h'⟩

theorem Twins.predict (h : Twins p q) (d : DecisionId) :
    Agree (Parser.predict env d p) (Parser.predict env d q) := by
  have htwins : Twins (Parser.predict env d p).2 (Parser.predict env d q).2 := by
    refine ⟨?_, (p.recognizer.sameTree_predict env d).errors.trans h.silent, h.bails, h.recovers,
      h.steady, h.calm⟩
    show (q.recognizer.predict env d).2 = (p.recognizer.predict env d).2
    rw [h.same]
  have houtcome : (Parser.predict env d q).1 = (Parser.predict env d p).1 := by
    show ((q.recognizer.predict env d).1).mapError id = ((p.recognizer.predict env d).1).mapError id
    rw [h.same]
  generalize Parser.predict env d p = x at htwins houtcome
  generalize Parser.predict env d q = y at htwins houtcome
  obtain ⟨halt | alt, p'⟩ := x
  · obtain ⟨_, q'⟩ := y
    cases houtcome
    exact .error
  · obtain ⟨_, q'⟩ := y
    cases houtcome
    exact .ok htwins alt

/-- What is known of the input and of lookahead before a decision. -/
structure Informed (env : Setting) (p : Parser) : Prop where
  earned : p.recognizer.cache.Earned env.network
  kind : TokenType.epsilon ≤ p.recognizer.input.kind

/-- Where the current token may come next, the check before a decision changes nothing but the place
errors are described from. -/
theorem sync_of_next {s : StateId} (hs : q.recognizer.state = some s)
    (h : q.recognizer.input.kind ∈ env.network.nextTokensAt s ∨
      TokenType.epsilon ∈ env.network.nextTokensAt s) :
    ∃ point, sync env q = (.ok (), { q with strategy := { q.strategy with syncPoint := point } }) := by
  unfold sync
  split
  · exact ⟨q.strategy.syncPoint, rfl⟩
  · rw [hs]
    dsimp only
    by_cases hk : q.recognizer.input.kind ∈ env.network.nextTokensAt s
    · rw [if_pos hk]
      exact ⟨none, rfl⟩
    · rw [if_neg hk, if_pos (h.resolve_left hk)]
      exact ⟨_, rfl⟩

theorem policy_deeds {p p' : Parser} (h : Deeds env p p') :
    p'.strategy.policy = p.strategy.policy := by
  induction h with
  | refl => rfl
  | tail _ hd ih =>
    rw [← ih]
    cases hd with
    | note hp _ _ => exact hp
    | report e =>
      unfold reportOnce
      split <;> rfl
    | _ => rfl

/-- Reports an error and stops the parse for good. -/
def giveUp (env : Setting) (p : Parser) (e : RecognitionError) : Parser :=
  ((p.reportError env e).cancel e).2

theorem handle_bail (hp : p.strategy.policy = .bail) (e : RecognitionError) :
    handle env (.error (.failure (.recognition e))) p = (.error (.failure (.cancelled e)),
      (p.modifyRecognizer fun r => r.recordError e false).giveUp env e) := by
  show Parser.recover env e ((p.modifyRecognizer fun r => r.recordError e false).reportError env e) = _
  have hp' : ((p.modifyRecognizer fun r => r.recordError e false).reportError env
      e).strategy.policy = .bail := (policy_deeds (.single (.report _))).trans hp
  unfold Parser.recover
  rw [hp']
  rfl

end Parser

namespace Interpreter

variable {g : Grammar} {p q : Parser} {i j : Interpreter} {s : StateId} {t : Transition}

/-- An edge is chosen by lookahead. -/
theorem chooseEdge_of_predict {d : DecisionId} {here : NetworkState} {p p' : Parser} {r : Recognizer}
    {outcome : Except Halt Nat} (hd : here.decision = some d) (hlen : 1 < here.transitions.length)
    (hsync : sync env p = (.ok (), p')) (hp : p'.recognizer.predict env d = (outcome, r)) :
    chooseEdge env here p = (outcome, { p' with recognizer := r }) := by
  have hpredict : Parser.predict env d p' = (outcome, { p' with recognizer := r }) := by
    show (Except.mapError id (p'.recognizer.predict env d).1,
      ({ p' with recognizer := (p'.recognizer.predict env d).2 } : Parser)) = _
    rw [hp]
    cases outcome <;> rfl
  unfold chooseEdge
  rw [hd]
  dsimp only
  rw [if_pos hlen, bind_run, hsync]
  exact hpredict

/-- Both choose the same edge, or one of them meets an error. -/
theorem agree_chooseEdge (hg : g.compile = .ok env.grammar) (h : Parser.Twins p q)
    (hinf : p.Informed env) (hs : p.recognizer.state = some s) :
    Parser.Agree (chooseEdge env (env.network.state s) p)
      (chooseEdge env (env.network.state s) q) := by
  unfold chooseEdge
  cases hd : (env.network.state s).decision with
  | none => exact .ok h 1
  | some d =>
    dsimp only
    by_cases hlen : 1 < (env.network.state s).transitions.length
    · rw [if_pos hlen, bind_run, bind_run]
      have hsync : sync env p = (.ok (), p) := by
        unfold sync
        rw [if_pos (by simp [h.bails])]
      rw [hsync]
      dsimp only
      refine ⟨fun alt p' hp => ?_, fun alt q' hq hs' => ?_⟩
      · -- lookahead has found the token acceptable
        obtain ⟨hok, -⟩ := predict_eq_ok hp
        have hnext := Recognizer.next_of_decided hg hinf.earned hinf.kind hlen hd hok
        rw [← h.same] at hnext hs
        obtain ⟨point, hq⟩ := sync_of_next hs hnext
        rw [hq]
        have h' : Parser.Twins p { q with strategy := { q.strategy with syncPoint := point } } :=
          ⟨h.same, h.silent, h.bails, h.recovers, h.steady, h.calm⟩
        exact (h'.predict d).recover_of_bail alt p' hp
      · have htidy : q.Tidy := fun _ => h.calm
        have hpolicy := policy_deeds (@deeds_sync env q)
        have hleads := @leads_sync env q
        have hsilent := @sync_of_silent env q htidy
        generalize sync env q = y at hq hpolicy hleads hsilent
        obtain ⟨halt | u, q₁⟩ := y
        · cases hq
        · dsimp only at hq hpolicy hleads hsilent
          have hs₁ : q₁.Silent := by
            have hl := @honest_predict env d q₁
            rw [hq] at hl
            exact hl.silent hs'
          have h' : Parser.Twins p q₁ :=
            ⟨(hsilent hs₁).trans h.same, h.silent, h.bails, hpolicy.trans h.recovers, h.steady,
              hleads.tidy htidy hs₁⟩
          exact (h'.predict d).bail_of_recover alt q' hq hs'
    · rw [if_neg hlen]
      exact .ok h 1

/-- Both pass the edge, or one of them meets an error. -/
theorem agree_passEdge (h : Parser.Twins p q) (s : NetworkState) (t : Transition) :
    Parser.Agree (passEdge env s t p) (passEdge env s t q) := by
  unfold passEdge
  cases t.kind with
  | epsilon =>
    dsimp only
    split
    · exact .ok (h.modify (Recognizer.errors_pushRecursion _ _ _)) ()
    · exact .ok h ()
  | atom k =>
    refine h.match env (f := fun r => if k.isEof then { r with matchedEof := true } else r)
      (c := fun r => r.input.kind = k) (fun p => ?_) fun r => ?_
    · rw [matchToken_run]
      cases k.isEof <;> rfl
    · cases k.isEof <;> rfl
  | range _ _ | set _ | notSet _ =>
    dsimp only
    generalize env.network.label? _ = label
    cases label with
    | none => exact .ok h ()
    | some types =>
      exact h.match env (f := id) (c := fun r => r.input.kind ∈ types)
        (fun _ => matchSet_run types) fun _ => rfl
  | wildcard =>
    exact h.match env (f := id) (c := fun r => TokenType.firstUser ≤ r.input.kind)
      (fun _ => matchAny_run) fun _ => rfl
  | rule _ _ _ => exact .ok h ()
  | predicate r index _ =>
    dsimp only
    rw [get_run, get_run, h.same]
    cases p.recognizer.holds env r index
    · exact .error
    · exact .ok h ()
  | action r index => exact .ok (h.modify rfl) ()
  | precedence level =>
    dsimp only
    unfold Parser.checkPrecedence
    rw [get_run, get_run, h.same]
    cases p.recognizer.checkPrecedence env level with
    | error e => exact .error
    | ok u => exact .ok h ()

/-- Two interpreters that differ in the policies of their parsers only. -/
structure Twins (i j : Interpreter) : Prop where
  parsers : Parser.Twins i.parser j.parser
  callers : j.callers = i.callers

/-- What the one does without an error the other does, if it does it without a report. -/
structure Agree {α : Type} (x y : Except Halt α × Interpreter) : Prop where
  recover_of_bail : ∀ a i, x = (.ok a, i) → ∃ j, y = (.ok a, j) ∧ Twins i j
  bail_of_recover : ∀ a j, y = (.ok a, j) → j.parser.Silent → ∃ i, x = (.ok a, i) ∧ Twins i j

theorem Agree.error {α : Type} {e e' : Halt} :
    Agree (.error e, i) ((.error e', j) : Except Halt α × Interpreter) := by
  refine ⟨?_, ?_⟩
  · rintro _ _ ⟨⟩
  · rintro _ _ ⟨⟩

theorem Agree.ok {α : Type} (h : Twins i j) (a : α) : Agree (.ok a, i) (.ok a, j) := by
  refine ⟨?_, ?_⟩
  · rintro _ _ ⟨⟩
    exact ⟨j, rfl, h⟩
  · rintro _ _ ⟨⟩ -
    exact ⟨i, rfl, h⟩

theorem Twins.run {α : Type} (h : Twins i j) {m : ParserM α}
    (hm : Parser.Agree (m i.parser) (m j.parser)) : Agree (i.run m) (j.run m) := by
  unfold Interpreter.run
  generalize m i.parser = x at hm
  generalize m j.parser = y at hm
  obtain ⟨outcome, p⟩ := x
  obtain ⟨outcome', q⟩ := y
  refine ⟨?_, ?_⟩
  · rintro a _ ⟨⟩
    obtain ⟨q', hq, h'⟩ := hm.recover_of_bail a p rfl
    cases hq
    exact ⟨_, rfl, h', h.callers⟩
  · rintro a _ ⟨⟩ hs
    obtain ⟨p', hp, h'⟩ := hm.bail_of_recover a q rfl hs
    cases hp
    exact ⟨_, rfl, h', h.callers⟩

/-- What comes after an agreement, errors apart. -/
theorem Agree.bind {α β : Type} {x y : Except Halt α × Interpreter}
    {f : Except Halt α × Interpreter → Except Halt β × Interpreter} (h : Agree x y)
    (herror : ∀ halt i, ∃ halt', (f (.error halt, i)).1 = .error halt')
    (hleads : ∀ (a : α) (j : Interpreter), j.parser.Leads (f (.ok a, j)).2.parser)
    (hf : ∀ a i j, Twins i j → Agree (f (.ok a, i)) (f (.ok a, j))) : Agree (f x) (f y) := by
  refine ⟨fun b i' hx => ?_, fun b j' hy hs => ?_⟩
  · obtain ⟨halt | a, i⟩ := x
    · obtain ⟨_, hhalt⟩ := herror halt i
      rw [hx] at hhalt
      cases hhalt
    · obtain ⟨j, rfl, htwins⟩ := h.recover_of_bail a i rfl
      exact (hf a i j htwins).recover_of_bail b i' hx
  · obtain ⟨halt | a, j⟩ := y
    · obtain ⟨_, hhalt⟩ := herror halt j
      rw [hy] at hhalt
      cases hhalt
    · have hl := hleads a j
      rw [hy] at hl
      obtain ⟨i, rfl, htwins⟩ := h.bail_of_recover a j rfl (hl.silent hs)
      exact (hf a i j htwins).bail_of_recover b j' hy hs

/-- Calls do not depend on the policy. -/
theorem Twins.enter (h : Twins i j) (c : RuleId) (precedence : Int) :
    (j.enter env c precedence).1 = (i.enter env c precedence).1 ∧
      Twins (i.enter env c precedence).2 (j.enter env c precedence).2 := by
  obtain ⟨⟨hsame, hsilent, h₁, h₂, h₃, h₄⟩, hcallers⟩ := h
  obtain ⟨⟨r, σ⟩, callers⟩ := i
  obtain ⟨⟨_, τ⟩, _⟩ := j
  cases hsame
  cases hcallers
  unfold Interpreter.enter
  split
  · have herrors := Recognizer.errors_enterRecursion env r c precedence
    dsimp only [Interpreter.run, Parser.enterRecursion, Parser.onRecognizer]
    generalize Recognizer.enterRecursion env r c precedence = result at herrors
    obtain ⟨_ | id, r'⟩ := result <;>
      exact ⟨rfl, ⟨rfl, herrors.trans hsilent, h₁, h₂, h₃, h₄⟩, rfl⟩
  · exact ⟨rfl, ⟨rfl, (Recognizer.errors_enterRule env r c).trans hsilent, h₁, h₂, h₃, h₄⟩, rfl⟩

theorem Twins.goTo (h : Twins i j) (state : Option StateId) : Twins (i.goTo state) (j.goTo state) :=
  ⟨h.parsers.modify (f := fun r => { r with state }) rfl, h.callers⟩

/-- Returns do not depend on the policy. -/
theorem Twins.leaveRule (h : Twins i j) (rule : RuleId) :
    Twins (i.leaveRule env rule) (j.leaveRule env rule) := by
  obtain ⟨⟨hsame, hsilent, h₁, h₂, h₃, h₄⟩, hcallers⟩ := h
  obtain ⟨⟨r, σ⟩, callers⟩ := i
  obtain ⟨⟨_, τ⟩, _⟩ := j
  cases hsame
  cases hcallers
  cases hrec : (env.network.rule rule).leftRecursive with
  | true =>
    rw [leaveRule_recursive hrec, leaveRule_recursive hrec]
    exact ⟨⟨rfl, (Recognizer.errors_unrollRecursion r _).trans hsilent, h₁, h₂, h₃, h₄⟩, rfl⟩
  | false =>
    rw [leaveRule_plain hrec, leaveRule_plain hrec]
    exact ⟨⟨rfl, (Recognizer.errors_exitRule r).trans hsilent, h₁, h₂, h₃, h₄⟩, rfl⟩

theorem Twins.finish (h : Twins i j) (rule : RuleId) (root : InvocationId) :
    (j.finish env rule root).1 = (i.finish env rule root).1 ∧
      Twins (i.finish env rule root).2 (j.finish env rule root).2 := by
  obtain ⟨⟨hsame, hsilent, h₁, h₂, h₃, h₄⟩, hcallers⟩ := h
  obtain ⟨⟨r, σ⟩, callers⟩ := i
  obtain ⟨⟨_, τ⟩, _⟩ := j
  cases hsame
  cases hcallers
  unfold Interpreter.finish
  split
  · exact ⟨rfl, ⟨rfl, (Recognizer.errors_unrollRecursion r _).trans hsilent, h₁, h₂, h₃, h₄⟩, rfl⟩
  · exact ⟨rfl, ⟨rfl, (Recognizer.errors_exitRule r).trans hsilent, h₁, h₂, h₃, h₄⟩, rfl⟩

theorem agree_followEdge (h : Twins i j) (s : NetworkState) (t : Transition) :
    Agree (i.followEdge env s t) (j.followEdge env s t) := by
  rw [followEdge_eq, followEdge_eq]
  refine Agree.bind ?_ (fun halt i => ⟨halt, rfl⟩) (fun _ _ => leads_goTo _)
    fun _ _ _ htwins => .ok (htwins.goTo _) ()
  unfold cross
  cases t.kind with
  | rule c follow precedence =>
    obtain ⟨ho, htwins⟩ := @Twins.enter env i j h c precedence
    dsimp only
    generalize i.enter env c precedence = x at ho htwins
    generalize j.enter env c precedence = y at ho htwins
    obtain ⟨halt | id, i'⟩ := x
    · obtain ⟨_, j'⟩ := y
      cases ho
      exact .error
    · obtain ⟨_, j'⟩ := y
      cases ho
      exact .ok htwins ()
  | _ => exact h.run (agree_passEdge h.parsers s t)

/-- Follows the edge that was decided on, unless the parse has halted. -/
def followChosen (env : Setting) (s : NetworkState) (x : Except Halt Nat × Interpreter) :
    Except Halt Unit × Interpreter :=
  match x with
  | (.error halt, i) => (.error halt, i)
  | (.ok alt, i) => match s.transitions[alt - 1]? with
    | some t => i.followEdge env s t
    | none => (.error (.failure (.recognition (i.recognizer.inputMismatch env))), i)

theorem visit_eq (s : NetworkState) : i.visit env s = followChosen env s (i.run (chooseEdge env s)) := rfl

theorem agree_visit (hg : g.compile = .ok env.grammar) (h : Twins i j)
    (hinf : i.parser.Informed env) (hs : i.recognizer.state = some s) :
    Agree (i.visit env (env.network.state s)) (j.visit env (env.network.state s)) := by
  rw [visit_eq, visit_eq]
  refine Agree.bind (h.run (agree_chooseEdge hg h.parsers hinf hs)) (fun halt i => ⟨halt, rfl⟩)
    (fun alt j' => ?_) fun alt i' j' h' => ?_ <;> unfold followChosen
  · dsimp only
    cases (env.network.state s).transitions[alt - 1]? with
    | none => exact .refl _
    | some t => exact leads_followEdge _ t
  · dsimp only
    cases (env.network.state s).transitions[alt - 1]? with
    | none => exact .error
    | some t => exact agree_followEdge h' _ t

/-- A mismatch that reaches the end of its rule ends a parse that bails. -/
theorem recoverFrom_bail (hp : i.parser.strategy.policy = .bail) (s : NetworkState)
    (e : RecognitionError) :
    i.recoverFrom env s e = (.error (.failure (.cancelled e)),
      { i with parser := ((i.goTo (some (env.network.rule s.rule).stop)).parser.modifyRecognizer
        fun r => r.recordError e false).giveUp env e }) := by
  unfold recoverFrom Interpreter.run
  rw [handle_bail (by exact hp)]
  rfl

/-- A parse that bails does not go on from a mismatch. -/
theorem goes_of_bail {rule : RuleId} {root : InvocationId} {i' : Interpreter}
    (hp : i.parser.strategy.policy = .bail) (h : step env rule root i = .running i') :
    Goes env i i' := by
  rcases goes_or_recovers h with hgo | ⟨s, e, i₁, hs, -, hv, hr⟩
  · exact hgo
  · obtain ⟨hok, -⟩ | ⟨-, hd⟩ := moves_visit hs hv
    · cases hok
    · rw [recoverFrom_bail ((policy_deeds hd).trans hp)] at hr
      cases hr

variable {rule : RuleId} {root id : InvocationId} {i' j' : Interpreter}

theorem Twins.recognizer (h : Twins i j) : j.recognizer = i.recognizer := h.parsers.same

theorem Twins.isOutermost (h : Twins i j) : j.isOutermost = i.isOutermost := by
  unfold Interpreter.isOutermost
  rw [h.recognizer]

theorem Twins.goes (hg : g.compile = .ok env.grammar) (h : Twins i j)
    (hinf : i.parser.Informed env) :
    (∀ i', Goes env i i' → ∃ j', Goes env j j' ∧ Twins i' j') ∧
      ∀ j', Goes env j j' → j'.parser.Silent → ∃ i', Goes env i i' ∧ Twins i' j' := by
  refine ⟨?_, ?_⟩
  · rintro i' ⟨s, hs, ⟨hstop, hout, rfl⟩ | ⟨hstop, hv⟩⟩
    · refine ⟨_, ⟨s, ?_, .inl ⟨hstop, ?_, rfl⟩⟩, h.leaveRule _⟩
      · rw [h.recognizer, hs]
      · rw [h.isOutermost, hout]
    · obtain ⟨j', hv', h'⟩ := (agree_visit hg h hinf hs).recover_of_bail () i' hv
      refine ⟨j', ⟨s, ?_, .inr ⟨hstop, hv'⟩⟩, h'⟩
      rw [h.recognizer, hs]
  · rintro j' ⟨s, hs, ⟨hstop, hout, rfl⟩ | ⟨hstop, hv⟩⟩ hsilent
    all_goals rw [h.recognizer] at hs
    · rw [h.isOutermost] at hout
      exact ⟨_, ⟨s, hs, .inl ⟨hstop, hout, rfl⟩⟩, h.leaveRule _⟩
    · obtain ⟨i', hv', h'⟩ := (agree_visit hg h hinf hs).bail_of_recover () j' hv hsilent
      exact ⟨i', ⟨s, hs, .inr ⟨hstop, hv'⟩⟩, h'⟩

theorem step_of_none (h : i.recognizer.state = none) :
    step env rule root i = .finished (.ok root) i := by simp [step, h]

theorem step_of_finish (hs : i.recognizer.state = some s)
    (hstop : (env.network.state s).isRuleStop = true) (hout : i.isOutermost = true) :
    step env rule root i =
      .finished (.ok (i.finish env rule root).1) (i.finish env rule root).2 := by
  simp [step, hs, hstop, hout]

/-- Both end at the same place. -/
theorem Twins.ends (h : Twins i j) :
    (∀ i', step env rule root i = .finished (.ok id) i' →
      ∃ j', step env rule root j = .finished (.ok id) j' ∧ Twins i' j') ∧
      ∀ j', step env rule root j = .finished (.ok id) j' →
        ∃ i', step env rule root i = .finished (.ok id) i' ∧ Twins i' j' := by
  obtain ⟨hfinish, htwins⟩ := @Twins.finish env i j h rule root
  refine ⟨fun i' hi => ?_, fun j' hj => ?_⟩
  · obtain hnone | ⟨s, hs, hstop, hout, hclose⟩ := step_finished hi
    · rw [step_of_none hnone] at hi
      cases hi
      exact ⟨j, step_of_none (by rw [h.recognizer, hnone]), h⟩
    · have hstep := @step_of_finish env j s rule root (by rw [h.recognizer, hs]) hstop
        (by rw [h.isOutermost, hout])
      rw [hclose] at hfinish htwins
      rw [hfinish] at hstep
      exact ⟨_, hstep, htwins⟩
  · obtain hnone | ⟨s, hs, hstop, hout, hclose⟩ := step_finished hj
    · rw [step_of_none hnone] at hj
      rw [h.recognizer] at hnone
      cases hj
      exact ⟨i, step_of_none hnone, h⟩
    · rw [h.recognizer] at hs
      rw [h.isOutermost] at hout
      have hstep := @step_of_finish env i s rule root hs hstop hout
      rw [hclose] at hfinish htwins
      rw [← hfinish] at hstep
      exact ⟨_, hstep, htwins⟩

/-- Both come to the same end, if neither meets an error. -/
theorem Twins.runFor (hg : g.compile = .ok env.grammar) {fuel : Nat} (h : Twins i j)
    (hinf : ∀ k, Turns env i k → k.parser.Informed env) :
    (∀ i', runFor env rule root fuel i = some (.ok id, i') →
      ∃ j', runFor env rule root fuel j = some (.ok id, j') ∧ Twins i' j') ∧
      ∀ j', runFor env rule root fuel j = some (.ok id, j') → j'.parser.Silent →
        ∃ i', runFor env rule root fuel i = some (.ok id, i') ∧ Twins i' j' := by
  induction fuel generalizing i j with
  | zero =>
    refine ⟨?_, ?_⟩
    · rintro i' ⟨⟩
    · rintro j' ⟨⟩
  | succ fuel ih =>
    have hgoes := h.goes hg (hinf i .refl)
    have hnext : ∀ i₁ j₁, Goes env i i₁ → Twins i₁ j₁ → _ := fun i₁ j₁ hi h₁ =>
      ih h₁ fun k hk => hinf k (((@turns_step env i rule root).1 _ hi.step).trans hk)
    unfold Interpreter.runFor
    refine ⟨fun i' hi => ?_, fun j' hj hs => ?_⟩
    · generalize hstep : step env rule root i = x at hi
      cases x with
      | finished outcome i₁ =>
        cases hi
        obtain ⟨j', hj', h'⟩ := h.ends.1 _ hstep
        rw [hj']
        exact ⟨j', rfl, h'⟩
      | running i₁ =>
        have hgo := goes_of_bail h.parsers.bails hstep
        obtain ⟨j₁, hj₁, h₁⟩ := hgoes.1 i₁ hgo
        rw [hj₁.step]
        exact (hnext i₁ j₁ hgo h₁).1 i' hi
    · generalize hstep : step env rule root j = y at hj
      cases y with
      | finished outcome j₁ =>
        cases hj
        obtain ⟨i', hi', h'⟩ := h.ends.2 _ hstep
        rw [hi']
        exact ⟨i', rfl, h'⟩
      | running j₁ =>
        have hs₁ : j₁.parser.Silent := (leads_runFor hj).silent hs
        have hgo := step_running (fun _ => h.parsers.calm) hstep hs₁
        obtain ⟨i₁, hi₁, h₁⟩ := hgoes.2 j₁ hgo hs₁
        rw [hi₁.step]
        exact (hnext i₁ j₁ hi₁ h₁).2 j' hj hs

end Interpreter

end AdaptiveParsing
