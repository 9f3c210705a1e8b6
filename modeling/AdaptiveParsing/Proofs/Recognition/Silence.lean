import AdaptiveParsing.Recognition.Interpreter
import Mathlib
/-!
Parses that report nothing. A report is never taken back, and a parser that is recovering has
reported an error (`Parser.Leads`). So in a parse without reports every operation went the way it
goes when the input matches. Main statement: what a step of such a parse does
(`Interpreter.step_running`, `Interpreter.step_finished`).
-/

namespace AdaptiveParsing

namespace Recognizer

variable (env : Setting) (r : Recognizer)

@[simp] theorem errors_addChild (c : Child) : (r.addChild c).errors = r.errors := by
  unfold addChild
  split <;> rfl

@[simp] theorem errors_consume (inRecovery : Bool) : (r.consume env inRecovery).errors = r.errors := by
  unfold consume
  dsimp only
  split
  · simp
  · split <;> simp

@[simp] theorem errors_exitRule : r.exitRule.errors = r.errors := by
  unfold exitRule
  split <;> rfl

@[simp] theorem errors_pushRecursion (state : StateId) (rule : RuleId) :
    (r.pushRecursion state rule).2.errors = r.errors := by
  unfold pushRecursion
  split <;> rfl

@[simp] theorem errors_unrollRecursion (parent : Option InvocationId) :
    (r.unrollRecursion parent).2.errors = r.errors := by
  unfold unrollRecursion
  dsimp only
  cases r.invocation <;> rfl

@[simp] theorem errors_recordError (e : RecognitionError) (everywhere : Bool) :
    (r.recordError e everywhere).errors = r.errors := by
  unfold recordError
  split <;> rfl

@[simp] theorem errors_enterRule (rule : RuleId) : (r.enterRule env rule).2.errors = r.errors := by
  unfold enterRule enter
  split
  · rfl
  · simp

@[simp] theorem errors_enterRecursion (rule : RuleId) (precedence : Int) :
    (r.enterRecursion env rule precedence).2.errors = r.errors := by
  unfold enterRecursion enter
  split <;> rfl

/-- The recognizer has the tree, the place in the network and the floors of `r`. -/
structure SameTree (r' : Recognizer) : Prop where
  forest : r'.forest = r.forest
  invocation : r'.invocation = r.invocation
  state : r'.state = r.state
  floors : r'.floors = r.floors
  errors : r'.errors = r.errors

/-- Lookahead changes nothing but the cursor and the cache. -/
theorem sameTree_predict (d : DecisionId) : r.SameTree (r.predict env d).2 := by
  unfold predict
  split
  · exact ⟨rfl, rfl, rfl, rfl, rfl⟩
  · dsimp only
    split <;> exact ⟨rfl, rfl, rfl, rfl, rfl⟩

end Recognizer

namespace Parser

variable {env : Setting} {p p' p'' : Parser}

/-- Nothing has been reported. -/
def Silent (p : Parser) : Prop := p.recognizer.errors = #[]

/-- A parser that is recovering has reported an error. -/
def Tidy (p : Parser) : Prop := p.Silent → p.strategy.recovering = false

/-- From `p` to `p'` no report is taken back, and only a report starts recovery. -/
structure Leads (p p' : Parser) : Prop where
  silent : p'.Silent → p.Silent
  tidy : p.Tidy → p'.Tidy

theorem Leads.refl (p : Parser) : p.Leads p := ⟨id, id⟩

theorem Leads.trans (h : p.Leads p') (h' : p'.Leads p'') : p.Leads p'' :=
  ⟨h.silent ∘ h'.silent, h'.tidy ∘ h.tidy⟩

theorem Leads.of_errors (he : p'.recognizer.errors = p.recognizer.errors)
    (hr : p'.strategy.recovering = p.strategy.recovering ∨ p'.strategy.recovering = false) :
    p.Leads p' := by
  have hs : p'.Silent ↔ p.Silent := by rw [Silent, Silent, he]
  refine ⟨hs.1, fun ht h => ?_⟩
  rcases hr with hr | hr
  · rw [hr]
    exact ht (hs.1 h)
  · exact hr

theorem Leads.modifyRecognizer {f : Recognizer → Recognizer}
    (h : (f p.recognizer).errors = p.recognizer.errors) : p.Leads (p.modifyRecognizer f) :=
  .of_errors h (.inl rfl)

/-- A tidy parser that reports an error is not silent. -/
theorem not_silent_reportOnce (e : SyntaxError) (h : p.Tidy) : ¬ (p.reportOnce env e).Silent := by
  unfold reportOnce
  cases hr : p.strategy.recovering with
  | true =>
    intro hs
    have := h hs
    rw [hr] at this
    cases this
  | false =>
    simp only [Silent, Recognizer.notify, Bool.false_eq_true, if_false]
    split
    · rename_i hany
      intro hs
      rw [hs] at hany
      simp at hany
    · simp

theorem leads_reportOnce (e : SyntaxError) : p.Leads (p.reportOnce env e) := by
  refine ⟨?_, fun ht hs => absurd hs (not_silent_reportOnce e ht)⟩
  unfold reportOnce
  cases hr : p.strategy.recovering with
  | true => exact id
  | false =>
    simp only [Silent, Recognizer.notify, Bool.false_eq_true, if_false]
    split
    · exact id
    · simp

theorem leads_reportMatch : p.Leads p.reportMatch := .of_errors rfl (.inr rfl)

theorem leads_consume : p.Leads (p.consume env) :=
  .of_errors (Recognizer.errors_consume env _ _) (.inl rfl)

theorem leads_skipUpTo (types : TokenSet) (fuel : Nat) (p : Parser) :
    p.Leads (skipUpTo env types fuel p) := by
  induction fuel generalizing p with
  | zero => exact .refl p
  | succ fuel ih =>
    unfold skipUpTo
    dsimp only
    split
    · exact .refl p
    · exact leads_consume.trans (ih _)

theorem leads_resynchronize : p.Leads (p.resynchronize env) := by
  unfold resynchronize skipUntil
  refine @Leads.trans p (if p.isStuck then p.consume env else p) _ ?_ ?_
  · split
    · exact leads_consume
    · exact .refl p
  · generalize (if p.isStuck then p.consume env else p) = q
    dsimp only
    refine Leads.trans ?_ (leads_skipUpTo _ _ _)
    exact .of_errors rfl (.inl rfl)

theorem leads_cancel (e : RecognitionError) : p.Leads (p.cancel e).2 :=
  .of_errors (Recognizer.errors_recordError _ e true) (.inl rfl)

theorem leads_recover (e : RecognitionError) : p.Leads (recover env e p).2 := by
  unfold recover
  split
  · exact leads_cancel e
  · exact leads_resynchronize

theorem leads_deleteToken? : p.Leads (p.deleteToken? env).2 := by
  unfold deleteToken?
  split
  · exact (leads_reportOnce _).trans (leads_consume.trans leads_reportMatch)
  · exact .refl p

/-- Without a report no token is dropped. -/
theorem deleteToken?_of_silent (ht : p.Tidy) (hs : (p.deleteToken? env).2.Silent) :
    p.deleteToken? env = (none, p) := by
  unfold deleteToken? at hs ⊢
  split
  · rename_i h
    rw [if_pos h] at hs
    have := (leads_consume.trans leads_reportMatch).silent hs
    exact absurd this (not_silent_reportOnce _ ht)
  · rfl

theorem leads_recoverInline : p.Leads (recoverInline env p).2 := by
  unfold recoverInline
  split
  · exact (leads_reportOnce _).trans (leads_cancel _)
  · have h := @leads_deleteToken? env p
    split
    · rename_i hd
      rw [hd] at h
      exact h.trans leads_consume
    · rename_i hd
      rw [hd] at h
      split
      · exact h.trans (leads_reportOnce _)
      · exact h

/-- Without a report a token that does not match stops the rule. -/
theorem recoverInline_of_silent (ht : p.Tidy) (hs : (recoverInline env p).2.Silent) :
    ∃ halt, (recoverInline env p).1 = .error halt := by
  unfold recoverInline at hs ⊢
  split
  · exact ⟨_, rfl⟩
  · rename_i hp
    rw [hp] at hs
    have hd : p.deleteToken? env = (none, p) := by
      refine deleteToken?_of_silent ht ?_
      have h := @leads_deleteToken? env p
      generalize p.deleteToken? env = result at hs h
      obtain ⟨t, p₁⟩ := result
      cases t with
      | some t => exact leads_consume.silent hs
      | none =>
        dsimp only at hs
        split at hs
        · exact (leads_reportOnce _).silent hs
        · exact hs
    rw [hd] at hs ⊢
    dsimp only at hs ⊢
    split
    · rename_i hi
      rw [if_pos hi] at hs
      exact absurd hs (not_silent_reportOnce _ ht)
    · exact ⟨_, rfl⟩

theorem leads_syncAt (s : StateId) : p.Leads (syncAt env s p).2 := by
  have h := @leads_deleteToken? env p
  unfold syncAt
  dsimp only
  split
  case h_5 | h_6 => exact (leads_reportOnce _).trans (leads_skipUpTo _ _ _)
  case h_7 => exact .refl p
  all_goals
    generalize p.deleteToken? env = result at h
    obtain ⟨t, p₁⟩ := result
    cases t <;> exact h

theorem leads_sync : p.Leads (sync env p).2 := by
  unfold sync
  split
  · exact .refl p
  · split
    · exact .refl p
    · dsimp only
      split
      · exact .of_errors rfl (.inl rfl)
      · split
        · exact .of_errors rfl (.inl rfl)
        · exact leads_syncAt _

/-- Without a report the check before a decision changes the point only that mismatches are described from,
if that. -/
theorem sync_eq_of_silent (ht : p.Tidy) (hs : (sync env p).2.Silent) : ∃ point,
    (sync env p).2 = { p with strategy := { p.strategy with syncPoint := point } } ∧
      (point = p.strategy.syncPoint ∨ point = none ∨
        ∃ s, p.recognizer.state = some s ∧ point = some (p.recognizer.invocation, s)) := by
  unfold sync at hs ⊢
  split
  · exact ⟨_, rfl, .inl rfl⟩
  · rename_i hp
    rw [if_neg hp] at hs
    split
    · exact ⟨_, rfl, .inl rfl⟩
    · rename_i s hstate
      rw [hstate] at hs
      dsimp only at hs ⊢
      split
      · exact ⟨_, rfl, .inr (.inl rfl)⟩
      · rename_i hm
        rw [if_neg hm] at hs
        split
        · refine ⟨_, rfl, ?_⟩
          cases p.strategy.syncPoint with
          | some point => exact .inl rfl
          | none => exact .inr (.inr ⟨s, hstate, rfl⟩)
        · rename_i he
          rw [if_neg he] at hs
          unfold syncAt at hs ⊢
          have hd : (p.deleteToken? env).2.Silent → p.deleteToken? env = (none, p) :=
            deleteToken?_of_silent ht
          dsimp only at hs ⊢
          split
          case h_5 hk | h_6 hk =>
            rw [hk] at hs
            exact absurd ((leads_skipUpTo _ _ _).silent hs) (not_silent_reportOnce _ ht)
          case h_7 => exact ⟨_, rfl, .inl rfl⟩
          all_goals
            rename_i hk
            rw [hk] at hs
            dsimp only at hs
            generalize p.deleteToken? env = result at hs hd
            obtain ⟨t, p₁⟩ := result
            cases t <;> cases hd hs
            exact ⟨_, rfl, .inl rfl⟩

theorem sync_of_silent (ht : p.Tidy) (hs : (sync env p).2.Silent) :
    (sync env p).2.recognizer = p.recognizer := by
  obtain ⟨point, heq, -⟩ := sync_eq_of_silent ht hs
  rw [heq]

theorem bind_run {α β : Type} (m : ParserM α) (f : α → ParserM β) (p : Parser) :
    (m >>= f) p = match m p with
      | (.ok a, p') => f a p'
      | (.error halt, p') => (.error halt, p') := by
  show (ExceptT.bindCont f (m p).1) (m p).2 = _
  rcases m p with ⟨halt | a, p'⟩ <;> rfl

theorem discard_run {α : Type} (m : ParserM α) (p : Parser) : (discard m : ParserM Unit) p =
    match m p with
    | (.ok _, q) => (.ok (), q)
    | (.error halt, q) => (.error halt, q) := by
  show (m >>= fun _ => pure PUnit.unit) p = _
  rw [bind_run]
  rfl

theorem get_run {β : Type} (f : Parser → ParserM β) (p : Parser) : (get >>= f) p = f p p := rfl

theorem recoverToken_run :
    recoverToken env p = match recoverInline env p with
      | (.ok t, p') => (.ok t, if t.isConjured then
          p'.modifyRecognizer fun r => r.addChild (.error t) else p')
      | (.error halt, p') => (.error halt, p') := by
  unfold recoverToken
  rw [bind_run]
  rcases recoverInline env p with ⟨halt | t, p'⟩
  · rfl
  · dsimp only
    cases t.isConjured <;> rfl

theorem leads_recoverToken : p.Leads (recoverToken env p).2 := by
  have h := @leads_recoverInline env p
  rw [recoverToken_run]
  generalize recoverInline env p = result at h
  obtain ⟨halt | t, p'⟩ := result
  · exact h
  · refine h.trans ?_
    dsimp only
    split
    · exact .modifyRecognizer (Recognizer.errors_addChild _ _)
    · exact .refl _

theorem recoverToken_of_silent (ht : p.Tidy) (hs : (recoverToken env p).2.Silent) :
    ∃ halt, (recoverToken env p).1 = .error halt := by
  have h := @leads_recoverInline env p
  have herr := @recoverInline_of_silent env _ ht
  rw [recoverToken_run] at hs ⊢
  generalize recoverInline env p = result at h herr hs
  obtain ⟨halt | t, p'⟩ := result
  · exact ⟨halt, rfl⟩
  · have hs' : p'.Silent := by
      dsimp only at hs
      split at hs
      · exact (Leads.modifyRecognizer (Recognizer.errors_addChild _ _)).silent hs
      · exact hs
    obtain ⟨halt, hh⟩ := herr hs'
    cases hh

theorem leads_takeMatch : p.Leads (takeMatch env p).2 := leads_reportMatch.trans leads_consume

theorem matchToken_run (k : TokenType) :
    matchToken env k p = if p.recognizer.input.kind = k then
        takeMatch env (if k.isEof then p.modifyRecognizer fun r => { r with matchedEof := true } else p)
      else recoverToken env p := by
  unfold matchToken
  rw [bind_run]
  show (if p.recognizer.input.kind = k then _ else recoverToken env) p = _
  split
  · cases k.isEof <;> rfl
  · rfl

theorem matchSet_run (types : TokenSet) :
    matchSet env types p =
      if p.recognizer.input.kind ∈ types then takeMatch env p else recoverToken env p := by
  unfold matchSet
  rw [bind_run]
  show (if p.recognizer.input.kind ∈ types then _ else recoverToken env) p = _
  split <;> rfl

theorem matchAny_run :
    matchAny env p = if TokenType.firstUser ≤ p.recognizer.input.kind then takeMatch env p
      else recoverToken env p := by
  unfold matchAny
  rw [bind_run]
  show (if TokenType.firstUser ≤ p.recognizer.input.kind then _ else recoverToken env) p = _
  split <;> rfl

theorem leads_handle (outcome : Except Halt Unit) : p.Leads (handle env outcome p).2 := by
  unfold handle
  split
  · rename_i e
    rw [bind_run]
    refine Leads.trans ?_ (leads_recover e)
    exact Leads.trans (.modifyRecognizer (Recognizer.errors_recordError _ e false))
      (leads_reportOnce _)
  · exact .refl p
  · exact .refl p

/-- A mismatch that is handled is reported. -/
theorem not_silent_handle (e : RecognitionError) (ht : p.Tidy) :
    ¬ (handle env (.error (.failure (.recognition e))) p).2.Silent := by
  unfold handle
  dsimp only
  rw [bind_run]
  intro hs
  have hs' := (leads_recover e).silent hs
  have ht' : (p.modifyRecognizer fun r => r.recordError e false).Tidy :=
    (Leads.modifyRecognizer (Recognizer.errors_recordError _ e false)).tidy ht
  exact not_silent_reportOnce _ ht' hs'

/-- Whatever a method does, it takes no report back, and only a report starts recovery. -/
def Honest {α : Type} (m : ParserM α) : Prop := ∀ p : Parser, p.Leads (m p).2

variable {α β : Type}

theorem Honest.bind {m : ParserM α} {f : α → ParserM β} (h : Honest m) (hf : ∀ a, Honest (f a)) :
    Honest (m >>= f) := by
  intro p
  have hm := h p
  rw [bind_run]
  generalize m p = result at hm
  obtain ⟨halt | a, p'⟩ := result
  · exact hm
  · exact hm.trans (hf a p')

theorem honest_pure (a : α) : Honest (pure a : ParserM α) := fun p => .refl p

theorem honest_matchToken (k : TokenType) : Honest (matchToken env k) := by
  intro p
  rw [matchToken_run]
  split
  · refine Leads.trans ?_ leads_takeMatch
    split
    · exact .modifyRecognizer rfl
    · exact .refl p
  · exact leads_recoverToken

theorem honest_matchSet (types : TokenSet) : Honest (matchSet env types) := by
  intro p
  rw [matchSet_run]
  split
  · exact leads_takeMatch
  · exact leads_recoverToken

theorem honest_matchAny : Honest (matchAny env) := by
  intro p
  rw [matchAny_run]
  split
  · exact leads_takeMatch
  · exact leads_recoverToken

theorem Honest.discard {m : ParserM α} (h : Honest m) : Honest (discard m) := by
  intro p
  have hm := h p
  show p.Leads ((m >>= fun _ => pure PUnit.unit) p).2
  rw [bind_run]
  generalize m p = result at hm
  obtain ⟨halt | a, p'⟩ := result <;> exact hm

theorem honest_predict (d : DecisionId) : Honest (predict env d) := fun p =>
  .of_errors (p.recognizer.sameTree_predict env d).errors (.inl rfl)

theorem checkPrecedence_run (level : Int) :
    checkPrecedence env level p = (match p.recognizer.checkPrecedence env level with
      | .ok () => pure ()
      | .error e => fail e : ParserM Unit) p := by
  unfold checkPrecedence
  rw [bind_run]
  rfl

theorem honest_checkPrecedence (level : Int) : Honest (checkPrecedence env level) := by
  intro p
  rw [checkPrecedence_run]
  cases p.recognizer.checkPrecedence env level <;> exact .refl p

theorem honest_modify {f : Recognizer → Recognizer} (h : ∀ r, (f r).errors = r.errors) :
    Honest (modify fun p => p.modifyRecognizer f) := fun p => .modifyRecognizer (h p.recognizer)

end Parser

open AdaptiveParsing.Parser

/-- The interpreter after a step. -/
def Progress.interpreter : Progress → Interpreter
  | running i => i
  | finished _ i => i

namespace Interpreter

variable {env : Setting} {i : Interpreter} {s : NetworkState} {t : Transition}

theorem honest_chooseEdge (s : NetworkState) : Honest (chooseEdge env s) := by
  unfold chooseEdge
  split
  · split
    · refine Honest.bind (fun p => leads_sync) fun _ => ?_
      exact honest_predict _
    · exact honest_pure 1
  · exact honest_pure 1

theorem honest_passEdge (s : NetworkState) (t : Transition) : Honest (passEdge env s t) := by
  unfold passEdge
  split
  · split
    · exact honest_modify fun r => Recognizer.errors_pushRecursion r _ _
    · exact honest_pure ()
  · exact (honest_matchToken _).discard
  · split
    · exact (honest_matchSet _).discard
    · exact honest_pure ()
  · split
    · exact (honest_matchSet _).discard
    · exact honest_pure ()
  · split
    · exact (honest_matchSet _).discard
    · exact honest_pure ()
  · exact honest_matchAny.discard
  · exact honest_pure ()
  · intro p
    rw [get_run]
    split
    · exact .refl p
    · exact .refl p
  · exact honest_modify fun _ => rfl
  · exact honest_checkPrecedence _

theorem leads_enter (rule : RuleId) (precedence : Int) :
    i.parser.Leads (i.enter env rule precedence).2.parser := by
  unfold enter
  split
  · have h : i.parser.Leads (enterRecursion env rule precedence i.parser).2 :=
      .of_errors (Recognizer.errors_enterRecursion env _ _ _) (.inl rfl)
    dsimp only [run]
    generalize enterRecursion env rule precedence i.parser = result at h
    obtain ⟨halt | id, p⟩ := result <;> exact h
  · exact .of_errors (Recognizer.errors_enterRule env _ _) (.inl rfl)

theorem leads_goTo (state : Option StateId) : i.parser.Leads (i.goTo state).parser :=
  .of_errors rfl (.inl rfl)

/-- Does what an edge asks for, and stays at the state it leaves. -/
def cross (env : Setting) (i : Interpreter) (s : NetworkState) (t : Transition) :
    Except Halt Unit × Interpreter :=
  match t.kind with
  | .rule rule _ precedence =>
    ((i.enter env rule precedence).1.map fun _ => (), (i.enter env rule precedence).2)
  | _ => i.run (passEdge env s t)

/-- Goes to a state, unless the parse has halted. -/
def arrive (target : StateId) (x : Except Halt Unit × Interpreter) : Except Halt Unit × Interpreter :=
  match x.1 with
  | .ok () => (.ok (), x.2.goTo (some target))
  | .error halt => (.error halt, x.2)

theorem followEdge_eq (s : NetworkState) (t : Transition) :
    i.followEdge env s t = arrive t.target (i.cross env s t) := rfl

theorem leads_arrive (target : StateId) (x : Except Halt Unit × Interpreter) :
    x.2.parser.Leads (arrive target x).2.parser := by
  obtain ⟨halt | u, i'⟩ := x
  · exact .refl _
  · exact leads_goTo _

theorem leads_followEdge (s : NetworkState) (t : Transition) :
    i.parser.Leads (i.followEdge env s t).2.parser := by
  rw [followEdge_eq]
  refine Leads.trans ?_ (leads_arrive _ _)
  unfold cross
  split
  · exact leads_enter _ _
  · exact honest_passEdge s t i.parser

theorem leads_visit (s : NetworkState) : i.parser.Leads (i.visit env s).2.parser := by
  have h := @honest_chooseEdge env s i.parser
  unfold visit
  dsimp only [run]
  generalize chooseEdge env s i.parser = result at h
  obtain ⟨halt | alt, p⟩ := result
  · exact h
  · dsimp only
    split
    · exact h.trans (leads_followEdge (i := { i with parser := p }) _ _)
    · exact h

theorem leads_recoverFrom (s : NetworkState) (e : RecognitionError) :
    i.parser.Leads (i.recoverFrom env s e).2.parser := by
  have h := leads_goTo (i := i) (some (env.network.rule s.rule).stop)
  exact h.trans (@leads_handle env _ (.error (.failure (.recognition e))))

/-- A mismatch on the way leaves a report. -/
theorem not_silent_recoverFrom (s : NetworkState) (e : RecognitionError) (ht : i.parser.Tidy) :
    ¬ (i.recoverFrom env s e).2.parser.Silent := by
  unfold recoverFrom
  refine not_silent_handle e ?_
  exact (Leads.modifyRecognizer rfl).tidy ht

theorem leads_unroll : i.parser.Leads (i.unroll).2.2.parser :=
  .of_errors (Recognizer.errors_unrollRecursion _ _) (.inl rfl)

theorem leaveRule_recursive {rule : RuleId} (h : (env.network.rule rule).leftRecursive = true) :
    i.leaveRule env rule = i.unroll.2.2.goTo (i.unroll.2.1.bind env.network.followOf?) := by
  unfold leaveRule
  rw [if_pos h]

theorem leaveRule_plain {rule : RuleId} (h : (env.network.rule rule).leftRecursive = false) :
    i.leaveRule env rule =
      { i with parser := i.parser.modifyRecognizer fun r =>
          { r.exitRule with state := r.exitRule.state.bind env.network.followOf? } } := by
  unfold leaveRule
  rw [if_neg (by simp [h])]
  rfl

theorem leads_leaveRule (rule : RuleId) : i.parser.Leads (i.leaveRule env rule).parser := by
  cases h : (env.network.rule rule).leftRecursive with
  | true =>
    rw [leaveRule_recursive h]
    exact leads_unroll.trans (leads_goTo _)
  | false =>
    rw [leaveRule_plain h]
    exact .of_errors (Recognizer.errors_exitRule _) (.inl rfl)

theorem leads_finish (rule : RuleId) (root : InvocationId) :
    i.parser.Leads (i.finish env rule root).2.parser := by
  unfold finish
  split
  · exact leads_unroll
  · exact .of_errors (Recognizer.errors_exitRule _) (.inl rfl)

/-- A step takes no report back. -/
theorem leads_step (rule : RuleId) (root : InvocationId) :
    i.parser.Leads (step env rule root i).interpreter.parser := by
  unfold step
  cases i.recognizer.state with
  | none => exact .refl _
  | some s =>
    dsimp only
    by_cases hstop : (env.network.state s).isRuleStop = true
    · rw [if_pos hstop]
      by_cases hout : i.isOutermost = true
      · rw [if_pos hout]
        exact leads_finish rule root
      · rw [if_neg hout]
        exact leads_leaveRule _
    · rw [if_neg hstop]
      have hv := @leads_visit env i (env.network.state s)
      generalize i.visit env (env.network.state s) = result at hv
      obtain ⟨halt | u, i₁⟩ := result
      · rcases halt with (e | ⟨_, _⟩ | e) | d
        · have hr := @leads_recoverFrom env i₁ (env.network.state s) e
          dsimp only
          generalize i₁.recoverFrom env (env.network.state s) e = recovered at hr
          obtain ⟨halt | u, i₂⟩ := recovered <;> exact Leads.trans hv hr
        all_goals exact hv
      · exact hv

theorem leads_runFor {rule : RuleId} {root : InvocationId} {fuel : Nat}
    {outcome : Except Halt InvocationId} {i' : Interpreter}
    (h : runFor env rule root fuel i = some (outcome, i')) : i.parser.Leads i'.parser := by
  induction fuel generalizing i with
  | zero => cases h
  | succ fuel ih =>
    unfold runFor at h
    have hl := @leads_step env i rule root
    generalize step env rule root i = progress at h hl
    cases progress with
    | finished outcome₁ i₁ =>
      cases h
      exact hl
    | running i₁ => exact Leads.trans hl (ih h)

/-- A step that ends well is at the end of the outermost invocation. -/
theorem step_finished {rule : RuleId} {root id : InvocationId} {i' : Interpreter}
    (h : step env rule root i = .finished (.ok id) i') :
    i.recognizer.state = none ∨ ∃ s, i.recognizer.state = some s ∧
      (env.network.state s).isRuleStop = true ∧ i.isOutermost = true ∧
      i.finish env rule root = (id, i') := by
  unfold step at h
  cases hstate : i.recognizer.state with
  | none => exact .inl rfl
  | some s =>
    rw [hstate] at h
    dsimp only at h
    cases hstop : (env.network.state s).isRuleStop with
    | true =>
      rw [if_pos hstop] at h
      cases hout : i.isOutermost with
      | true =>
        rw [if_pos hout] at h
        cases h
        exact .inr ⟨s, rfl, hstop, rfl, rfl⟩
      | false =>
        rw [if_neg (by simp [hout])] at h
        cases h
    | false =>
      rw [if_neg (by simp [hstop])] at h
      generalize i.visit env (env.network.state s) = result at h
      obtain ⟨halt | u, i₁⟩ := result
      · rcases halt with (e | ⟨_, _⟩ | e) | d
        · dsimp only at h
          generalize i₁.recoverFrom env (env.network.state s) e = recovered at h
          obtain ⟨halt | u, i₂⟩ := recovered <;> cases h
        all_goals cases h
      · cases h

/-- Where a step goes on that does not recover: out of an inner invocation, or along an edge. -/
def Goes (env : Setting) (i i' : Interpreter) : Prop :=
  ∃ s, i.recognizer.state = some s ∧
    ((env.network.state s).isRuleStop = true ∧ i.isOutermost = false ∧
        i' = i.leaveRule env (env.network.state s).rule ∨
      (env.network.state s).isRuleStop = false ∧
        i.visit env (env.network.state s) = (.ok (), i'))

theorem Goes.step {rule : RuleId} {root : InvocationId} {i' : Interpreter} (h : Goes env i i') :
    step env rule root i = .running i' := by
  obtain ⟨s, hs, ⟨hstop, hout, rfl⟩ | ⟨hstop, hv⟩⟩ := h
  · simp [Interpreter.step, hs, hstop, hout]
  · simp [Interpreter.step, hs, hstop, hv]

/-- A step that goes on does so, or it recovers from a mismatch. -/
theorem goes_or_recovers {rule : RuleId} {root : InvocationId} {i' : Interpreter}
    (h : step env rule root i = .running i') : Goes env i i' ∨
      ∃ s e i₁, i.recognizer.state = some s ∧ (env.network.state s).isRuleStop = false ∧
        i.visit env (env.network.state s) = (.error (.failure (.recognition e)), i₁) ∧
        i₁.recoverFrom env (env.network.state s) e = (.ok (), i') := by
  unfold Interpreter.step at h
  cases hstate : i.recognizer.state with
  | none =>
    rw [hstate] at h
    cases h
  | some s =>
    rw [hstate] at h
    dsimp only at h
    cases hstop : (env.network.state s).isRuleStop with
    | true =>
      rw [if_pos hstop] at h
      cases hout : i.isOutermost with
      | true =>
        rw [if_pos hout] at h
        cases h
      | false =>
        rw [if_neg (by simp [hout])] at h
        cases h
        exact .inl ⟨s, hstate, .inl ⟨hstop, hout, rfl⟩⟩
    | false =>
      rw [if_neg (by simp [hstop])] at h
      generalize hv : i.visit env (env.network.state s) = result at h
      obtain ⟨halt | u, i₁⟩ := result
      · rcases halt with (e | ⟨_, _⟩ | e) | d
        · dsimp only at h
          generalize hr : i₁.recoverFrom env (env.network.state s) e = recovered at h
          obtain ⟨halt | u, i₂⟩ := recovered
          · cases h
          · cases h
            exact .inr ⟨s, e, i₁, rfl, hstop, hv, hr⟩
        all_goals cases h
      · cases h
        exact .inl ⟨s, hstate, .inr ⟨hstop, hv⟩⟩

/-- A step that goes on without a report is at the end of an inner invocation or takes an edge. -/
theorem step_running {rule : RuleId} {root : InvocationId} {i' : Interpreter} (ht : i.parser.Tidy)
    (h : step env rule root i = .running i') (hs : i'.parser.Silent) : Goes env i i' := by
  rcases goes_or_recovers h with hgo | ⟨s, e, i₁, -, -, hv, hr⟩
  · exact hgo
  · -- a mismatch would have been reported
    have hleads := @leads_visit env i (env.network.state s)
    rw [hv] at hleads
    have hnot := @not_silent_recoverFrom env i₁ (env.network.state s) e (hleads.tidy ht)
    rw [hr] at hnot
    exact absurd hs hnot

end Interpreter

end AdaptiveParsing
