import AdaptiveParsing.Proofs.Recognition.Soundness
/-!
What a parse does, with errors or without. A rule method is a sequence of deeds (`Parser.Deed`): it looks
ahead, takes tokens, conjures them, and notes and reports errors. A step of the interpreter is a sequence
of moves (`Interpreter.Move`), namely deeds, ways within a rule, rounds and calls, or it leaves an
invocation. So what every such turn keeps, a parse keeps. Main statements: `Interpreter.moves_step` and
`Interpreter.follows_runFor`.
-/

namespace AdaptiveParsing

open Relation

variable {env : Setting}

namespace Recognizer

/-- The recognizers differ in the tree and in where they stand in the network only. -/
structure OnlyTree (r r' : Recognizer) : Prop where
  input : r'.input = r.input
  cache : r'.cache = r.cache
  errors : r'.errors = r.errors
  limit : r'.nesting.limit = r.nesting.limit
  matchedEof : r'.matchedEof = r.matchedEof

variable {r r' r'' : Recognizer}

theorem OnlyTree.refl (r : Recognizer) : r.OnlyTree r := ⟨rfl, rfl, rfl, rfl, rfl⟩

theorem OnlyTree.trans (h : r.OnlyTree r') (h' : r'.OnlyTree r'') : r.OnlyTree r'' :=
  ⟨h'.input.trans h.input, h'.cache.trans h.cache, h'.errors.trans h.errors,
    h'.limit.trans h.limit, h'.matchedEof.trans h.matchedEof⟩

variable (r)

theorem onlyTree_addChild (c : Child) : r.OnlyTree (r.addChild c) := by
  unfold addChild
  split <;> exact ⟨rfl, rfl, rfl, rfl, rfl⟩

theorem onlyTree_recordError (e : RecognitionError) (everywhere : Bool) :
    r.OnlyTree (r.recordError e everywhere) := by
  unfold recordError
  split <;> exact ⟨rfl, rfl, rfl, rfl, rfl⟩

theorem onlyTree_exitRule : r.OnlyTree r.exitRule := by
  unfold exitRule
  split <;> exact ⟨rfl, rfl, rfl, rfl, rfl⟩

theorem onlyTree_pushRecursion (s : StateId) (rule : RuleId) :
    r.OnlyTree (r.pushRecursion s rule).2 := by
  unfold pushRecursion
  split <;> exact ⟨rfl, rfl, rfl, rfl, rfl⟩

theorem onlyTree_unrollRecursion (parent : Option InvocationId) :
    r.OnlyTree (r.unrollRecursion parent).2 := by
  unfold unrollRecursion
  dsimp only
  cases r.invocation <;> exact ⟨rfl, rfl, rfl, rfl, rfl⟩

theorem onlyTree_enterRule (rule : RuleId) : r.OnlyTree (r.enterRule env rule).2 := by
  unfold enterRule enter
  split
  · exact .refl r
  · rename_i nesting hn
    obtain ⟨-, rfl⟩ := NestingLimit.enter_eq_ok_iff.1 hn
    obtain ⟨h₁, h₂, h₃, h₄, h₅⟩ := onlyTree_addChild
      { r with
        nesting := { r.nesting with depth := r.nesting.depth + 1 }
        forest := (r.forest.alloc (r.newInvocation rule 0)).2 }
      (.rule (r.forest.alloc (r.newInvocation rule 0)).1)
    exact ⟨h₁, h₂, h₃, h₄, h₅⟩

theorem onlyTree_enterRecursion (rule : RuleId) (precedence : Int) :
    r.OnlyTree (r.enterRecursion env rule precedence).2 := by
  unfold enterRecursion enter
  split
  · exact .refl r
  · rename_i nesting hn
    obtain ⟨-, rfl⟩ := NestingLimit.enter_eq_ok_iff.1 hn
    exact ⟨rfl, rfl, rfl, rfl, rfl⟩

end Recognizer

/-- The end of input is a child of the innermost invocation, if tokens become children. -/
def Recognizer.TookEof (env : Setting) (r : Recognizer) : Prop :=
  env.config.buildTrees = true → ∀ id, r.invocation = some id → id < r.forest.size →
    ∃ t ∈ r.input.tokens, t.isEof = true ∧ .token t ∈ (r.forest.get id).children.toList

theorem Parser.input_consume (p : Parser) :
    (p.consume env).recognizer.input = p.recognizer.input.consume := by
  unfold Parser.consume Parser.modifyRecognizer Recognizer.consume
  dsimp only
  split
  · exact (Recognizer.onlyTree_addChild _ _).input
  · split
    · exact (Recognizer.onlyTree_addChild _ _).input
    · rfl

namespace Parser

/-- One thing that a rule method does to a parser, rounds, calls and returns apart. -/
inductive Deed (env : Setting) (p : Parser) : Parser → Prop
  /-- It is noted what the strategy is or that the end of input was matched, or an action is run. -/
  | note {p' : Parser} (hp : p'.strategy.policy = p.strategy.policy)
      (h : p'.recognizer = { p.recognizer with
        matchedEof := p'.recognizer.matchedEof, actions := p'.recognizer.actions })
      (heof : p'.recognizer.matchedEof = p.recognizer.matchedEof ∨
        p'.recognizer.matchedEof = true ∧ p.recognizer.TookEof env) : Deed env p p'
  | predict (d : DecisionId) : Deed env p (Parser.predict env d p).2
  | consume : Deed env p (p.consume env)
  /-- A token that is not in the input becomes a child. -/
  | conjure {t : Token} (h : t.isConjured = true) :
      Deed env p (p.modifyRecognizer fun r => r.addChild (.error t))
  | blame (e : RecognitionError) (everywhere : Bool) :
      Deed env p (p.modifyRecognizer fun r => r.recordError e everywhere)
  | report (e : SyntaxError) : Deed env p (p.reportOnce env e)

/-- A sequence of deeds. -/
abbrev Deeds (env : Setting) : Parser → Parser → Prop := ReflTransGen (Deed env)

variable {p p' : Parser} {α : Type}

theorem Deeds.note (h : Deeds env p p') {p'' : Parser}
    (hp : p''.strategy.policy = p'.strategy.policy)
    (hr : p''.recognizer = p'.recognizer) : Deeds env p p'' :=
  h.tail (.note hp (by rw [hr]) (.inl (by rw [hr])))

theorem deeds_skipUpTo (types : TokenSet) (fuel : Nat) (p : Parser) :
    Deeds env p (skipUpTo env types fuel p) := by
  induction fuel generalizing p with
  | zero => exact .refl
  | succ fuel ih =>
    unfold skipUpTo
    dsimp only
    split
    · exact .refl
    · exact .head .consume (ih _)

theorem deeds_resynchronize (p : Parser) : Deeds env p (p.resynchronize env) := by
  unfold resynchronize skipUntil
  have hdrop : Deeds env p (if p.isStuck then p.consume env else p) := by
    split
    · exact .single .consume
    · exact .refl
  generalize (if p.isStuck then p.consume env else p) = q at hdrop
  dsimp only
  refine hdrop.trans (ReflTransGen.trans ?_ (deeds_skipUpTo _ _ _))
  exact Deeds.note .refl rfl rfl

theorem deeds_recover (e : RecognitionError) (p : Parser) : Deeds env p (recover env e p).2 := by
  unfold recover
  split
  · exact .single (.blame e true)
  · exact deeds_resynchronize p

theorem deeds_deleteToken? (p : Parser) : Deeds env p (p.deleteToken? env).2 := by
  unfold deleteToken?
  split
  · have h : Deeds env p ((p.reportUnwanted env).consume env) := .tail (.single (.report _)) .consume
    exact h.note rfl rfl
  · exact .refl

theorem deeds_recoverInline (p : Parser) : Deeds env p (recoverInline env p).2 := by
  unfold recoverInline
  split
  · exact .tail (.single (.report _)) (.blame _ true)
  · have hdelete := @deeds_deleteToken? env p
    generalize p.deleteToken? env = result at hdelete
    obtain ⟨_ | t, p₁⟩ := result
    · dsimp only
      split
      · exact hdelete.tail (.report _)
      · exact hdelete
    · exact hdelete.tail .consume

theorem deeds_recoverToken (p : Parser) : Deeds env p (recoverToken env p).2 := by
  have h := @deeds_recoverInline env p
  rw [recoverToken_run]
  generalize recoverInline env p = result at h
  obtain ⟨halt | t, p₁⟩ := result
  · exact h
  · dsimp only
    split
    · rename_i ht
      exact h.tail (.conjure ht)
    · exact h

theorem deeds_syncAt (s : StateId) (p : Parser) : Deeds env p (syncAt env s p).2 := by
  have hdelete := @deeds_deleteToken? env p
  unfold syncAt
  dsimp only
  split
  case h_5 | h_6 => exact ReflTransGen.trans (.single (.report _)) (deeds_skipUpTo _ _ _)
  case h_7 => exact .refl
  all_goals
    generalize p.deleteToken? env = result at hdelete
    obtain ⟨t, p₁⟩ := result
    cases t <;> exact hdelete

theorem deeds_sync (p : Parser) : Deeds env p (sync env p).2 := by
  unfold sync
  split
  · exact .refl
  · split
    · exact .refl
    · dsimp only
      split
      · exact Deeds.note .refl rfl rfl
      · split
        · exact Deeds.note .refl rfl rfl
        · exact deeds_syncAt _ p

theorem deeds_takeMatch (p : Parser) : Deeds env p (takeMatch env p).2 := by
  have h : Deeds env p p.reportMatch := Deeds.note .refl rfl rfl
  exact h.tail .consume

/-- Taking a token is the same before and after it is noted that the end of input was matched. -/
theorem takeMatch_noted (p : Parser) :
    (takeMatch env (p.modifyRecognizer fun r => { r with matchedEof := true })).2 =
      (takeMatch env p).2.modifyRecognizer fun r => { r with matchedEof := true } := by
  unfold takeMatch
  dsimp only [consume, reportMatch, modifyRecognizer, Strategy.endError]
  congr 1
  unfold Recognizer.consume Recognizer.addChild
  dsimp only
  cases env.config.buildTrees <;> cases p.recognizer.invocation <;> rfl

/-- A token that is taken at the end of input is the end of input. -/
theorem tookEof_takeMatch (heof : p.recognizer.input.current.isEof = true) :
    (takeMatch env p).2.recognizer.TookEof env := by
  intro htree id hinv hlt
  have hsame := sameTree_takeMatch htree p
  have hinput : (takeMatch env p).2.recognizer.input = p.recognizer.input := by
    show (Recognizer.consume env p.recognizer false).input = _
    unfold Recognizer.consume
    rw [if_neg Bool.false_ne_true, if_pos htree, (Recognizer.onlyTree_addChild _ _).input]
    exact if_pos heof
  rw [hsame.invocation, (Recognizer.fields_addChild _ _).1] at hinv
  rw [hsame.forest, Recognizer.forest_addChild _ hinv] at hlt ⊢
  unfold Forest.addChild at hlt
  rw [Forest.size_modify] at hlt
  refine ⟨p.recognizer.input.current, ?_, heof, ?_⟩
  · rw [hinput]
    exact Array.getElem_mem _
  · rw [(Forest.touches_addChild _ hlt).2]
    exact List.mem_append_right _ (.head _)

theorem deeds_matchToken (k : TokenType) (p : Parser) : Deeds env p (matchToken env k p).2 := by
  rw [matchToken_run]
  split
  · rename_i hk
    split
    · rename_i heof
      rw [takeMatch_noted]
      have hcur : p.recognizer.input.current.isEof = true := by
        unfold Token.isEof
        rwa [show p.recognizer.input.current.kind = k from hk]
      exact (deeds_takeMatch p).tail (.note rfl rfl (.inr ⟨rfl, tookEof_takeMatch hcur⟩))
    · exact deeds_takeMatch p
  · exact deeds_recoverToken p

theorem deeds_matchSet (types : TokenSet) (p : Parser) :
    Deeds env p (matchSet env types p).2 := by
  rw [matchSet_run]
  split
  · exact deeds_takeMatch p
  · exact deeds_recoverToken p

theorem deeds_matchAny (p : Parser) : Deeds env p (matchAny env p).2 := by
  rw [matchAny_run]
  split
  · exact deeds_takeMatch p
  · exact deeds_recoverToken p

theorem snd_discard (m : ParserM α) (p : Parser) : ((discard m : ParserM Unit) p).2 = (m p).2 := by
  rw [discard_run]
  rcases m p with ⟨halt | a, p'⟩ <;> rfl

theorem deeds_handle (outcome : Except Halt Unit) (p : Parser) :
    Deeds env p (handle env outcome p).2 := by
  unfold handle
  split
  · rename_i e
    rw [bind_run]
    exact .head (.blame e false) (.head (.report _) (deeds_recover e _))
  · exact .refl
  · exact .refl

end Parser

open AdaptiveParsing.Parser

namespace Interpreter

variable {p : Parser} {i i' : Interpreter} {s : NetworkState} {t : Transition}

theorem deeds_chooseEdge (s : NetworkState) (p : Parser) :
    Deeds env p (chooseEdge env s p).2 := by
  unfold chooseEdge
  cases s.decision with
  | none => exact .refl
  | some d =>
    dsimp only
    split
    · have hsync := @deeds_sync env p
      rw [bind_run]
      generalize sync env p = result at hsync
      obtain ⟨halt | u, p₁⟩ := result
      · exact hsync
      · exact hsync.tail (.predict d)
    · exact .refl

/-- Passing an edge is a sequence of deeds, or it begins another round. -/
theorem deeds_passEdge (s : NetworkState) (t : Transition) (p : Parser) :
    Deeds env p (passEdge env s t p).2 ∨ s.precedenceDecision = true ∧
      passEdge env s t p = (.ok (), p.modifyRecognizer fun r =>
        (r.pushRecursion (env.network.rule s.rule).start s.rule).2) := by
  unfold passEdge
  cases hk : t.kind with
  | epsilon =>
    dsimp only
    split
    · rename_i hround
      rw [Bool.and_eq_true] at hround
      exact .inr ⟨hround.1, rfl⟩
    · exact .inl .refl
  | atom k => exact .inl (by rw [snd_discard]; exact deeds_matchToken k p)
  | range _ _ | set _ | notSet _ =>
    left
    dsimp only
    generalize env.network.label? _ = label
    cases label with
    | none => exact .refl
    | some types =>
      dsimp only
      rw [snd_discard]
      exact deeds_matchSet types p
  | wildcard => exact .inl (by rw [snd_discard]; exact deeds_matchAny p)
  | rule _ _ _ => exact .inl .refl
  | predicate r index _ =>
    left
    dsimp only
    rw [get_run]
    cases p.recognizer.holds env r index <;> exact .refl
  | action _ _ => exact .inl (.single (.note rfl rfl (.inl rfl)))
  | precedence level =>
    left
    dsimp only
    unfold Parser.checkPrecedence
    rw [get_run]
    cases p.recognizer.checkPrecedence env level <;> exact .refl

/-- One thing that a parse does, short of leaving an invocation. -/
inductive Move (env : Setting) (i : Interpreter) : Interpreter → Prop
  | deed {p : Parser} (h : Deed env i.parser p) : Move env i { i with parser := p }
  /-- To where an edge leads. -/
  | pass {s : StateId} {t : Transition} (hs : i.recognizer.state = some s)
      (ht : t ∈ (env.network.state s).transitions) (hcall : t.call? = none) :
      Move env i (i.goTo (some t.target))
  /-- To the end of the rule. -/
  | skip {s : StateId} (hs : i.recognizer.state = some s) :
      Move env i (i.goTo (some (env.network.rule (env.network.state s).rule).stop))
  | round {s : StateId} (hs : i.recognizer.state = some s)
      (hmark : (env.network.state s).precedenceDecision = true) :
      Move env i { i with parser := i.parser.modifyRecognizer fun r =>
        (r.pushRecursion (env.network.rule (env.network.state s).rule).start
          (env.network.state s).rule).2 }
  | enter {s : StateId} {t : Transition} {c : RuleId} {follow : StateId} {precedence : Int}
      {id : InvocationId} {i₁ : Interpreter} (hs : i.recognizer.state = some s)
      (ht : t ∈ (env.network.state s).transitions) (hk : t.kind = .rule c follow precedence)
      (he : i.enter env c precedence = (.ok id, i₁)) : Move env i (i₁.goTo (some t.target))

/-- One thing that a parse does. -/
inductive Turn (env : Setting) (i : Interpreter) : Interpreter → Prop
  | move {i' : Interpreter} (h : Move env i i') : Turn env i i'
  | leave {s : StateId} (hs : i.recognizer.state = some s)
      (hstop : (env.network.state s).isRuleStop = true) (hout : i.isOutermost = false) :
      Turn env i (i.leaveRule env (env.network.state s).rule)

/-- A sequence of moves. -/
abbrev Moves (env : Setting) : Interpreter → Interpreter → Prop := ReflTransGen (Move env)

/-- A sequence of turns. -/
abbrev Turns (env : Setting) : Interpreter → Interpreter → Prop := ReflTransGen (Turn env)

theorem Moves.turns (h : Moves env i i') : Turns env i i' :=
  ReflTransGen.mono (fun _ _ => Turn.move) _ _ h

theorem onlyTree_enter (c : RuleId) (precedence : Int) :
    i.recognizer.OnlyTree (i.enter env c precedence).2.recognizer ∧
      (i.enter env c precedence).2.parser.strategy = i.parser.strategy := by
  unfold enter
  split
  · have h := @Recognizer.onlyTree_enterRecursion env i.recognizer c precedence
    dsimp only [run, Parser.enterRecursion, Parser.onRecognizer]
    generalize hr : Recognizer.enterRecursion env i.recognizer c precedence = result at h
    rw [show Recognizer.enterRecursion env i.parser.recognizer c precedence = result from hr]
    obtain ⟨_ | id, r⟩ := result <;> exact ⟨h, rfl⟩
  · exact ⟨i.recognizer.onlyTree_enterRule c, rfl⟩

theorem onlyTree_leaveRule (rule : RuleId) :
    i.recognizer.OnlyTree (i.leaveRule env rule).recognizer ∧
      (i.leaveRule env rule).parser.strategy = i.parser.strategy := by
  cases h : (env.network.rule rule).leftRecursive with
  | true =>
    rw [leaveRule_recursive h]
    obtain ⟨h₁, h₂, h₃, h₄, h₅⟩ := i.recognizer.onlyTree_unrollRecursion (i.callers.head?.getD (none, none)).1
    exact ⟨⟨h₁, h₂, h₃, h₄, h₅⟩, rfl⟩
  | false =>
    rw [leaveRule_plain h]
    obtain ⟨h₁, h₂, h₃, h₄, h₅⟩ := i.recognizer.onlyTree_exitRule
    exact ⟨⟨h₁, h₂, h₃, h₄, h₅⟩, rfl⟩

theorem onlyTree_finish (rule : RuleId) (root : InvocationId) :
    i.recognizer.OnlyTree (i.finish env rule root).2.recognizer := by
  unfold finish
  split
  · obtain ⟨h₁, h₂, h₃, h₄, h₅⟩ := i.recognizer.onlyTree_unrollRecursion (i.callers.head?.getD (none, none)).1
    exact ⟨h₁, h₂, h₃, h₄, h₅⟩
  · exact i.recognizer.onlyTree_exitRule

/-- A turn is a deed, or it changes the tree and the place in the network only. -/
theorem Turn.deed_or_onlyTree (h : Turn env i i') :
    (∃ p, Deed env i.parser p ∧ i' = { i with parser := p }) ∨
      i.recognizer.OnlyTree i'.recognizer ∧ i'.parser.strategy = i.parser.strategy := by
  rcases h with (h | _ | _ | _ | @⟨_, _, c, _, precedence, _, _, _, _, _, he⟩) | _
  · exact .inl ⟨_, h, rfl⟩
  · exact .inr ⟨⟨rfl, rfl, rfl, rfl, rfl⟩, rfl⟩
  · exact .inr ⟨⟨rfl, rfl, rfl, rfl, rfl⟩, rfl⟩
  · exact .inr ⟨i.recognizer.onlyTree_pushRecursion _ _, rfl⟩
  · have h := @onlyTree_enter env i c precedence
    rw [he] at h
    obtain ⟨⟨h₁, h₂, h₃, h₄, h₅⟩, h₆⟩ := h
    exact .inr ⟨⟨h₁, h₂, h₃, h₄, h₅⟩, h₆⟩
  · exact .inr (onlyTree_leaveRule _)

theorem moves_of_deeds (h : Deeds env i.parser p) : Moves env i { i with parser := p } := by
  induction h with
  | refl => exact .refl
  | @tail q p _ hd ih => exact ih.tail (.deed (i := { i with parser := q }) hd)

/-- Deeds stay at the state of the network. -/
theorem state_deeds {p p' : Parser} (h : Deeds env p p') :
    p'.recognizer.state = p.recognizer.state := by
  induction h with
  | refl => rfl
  | @tail q p' _ hd ih =>
    rw [← ih]
    cases hd with
    | note _ h _ => rw [h]
    | predict d => exact (q.recognizer.sameTree_predict env d).state
    | consume =>
      show (Recognizer.consume env q.recognizer _).state = _
      unfold Recognizer.consume
      dsimp only
      split
      · exact (Recognizer.fields_addChild _ _).2.1
      · split
        · exact (Recognizer.fields_addChild _ _).2.1
        · rfl
    | conjure _ => exact (Recognizer.fields_addChild _ _).2.1
    | blame e everywhere =>
      show (q.recognizer.recordError e everywhere).state = _
      unfold Recognizer.recordError
      split <;> rfl
    | report e =>
      unfold reportOnce Recognizer.notify
      split
      · rfl
      · dsimp only
        split <;> rfl

/-- An invocation that cannot be opened leaves all as it is. -/
theorem enter_eq_error {c : RuleId} {precedence : Int} {halt : Halt}
    (h : i.enter env c precedence = (.error halt, i')) :
    i' = i ∧ ∃ name limit, halt = .failure (.nestingTooDeep name limit) := by
  unfold enter at h
  cases hl : (env.network.rule c).leftRecursive with
  | true =>
    rw [if_pos hl] at h
    dsimp only [run, Parser.enterRecursion, Parser.onRecognizer, Recognizer.enterRecursion,
      Recognizer.enter] at h
    cases hn : i.parser.recognizer.nesting.enter with
    | error e =>
      simp only [recognizer, hn] at h
      cases h
      exact ⟨rfl, _, _, rfl⟩
    | ok nesting =>
      simp only [recognizer, hn] at h
      cases h
  | false =>
    rw [if_neg (by simp [hl])] at h
    dsimp only [run, Parser.enterRule, Parser.onRecognizer, Recognizer.enterRule,
      Recognizer.enter] at h
    cases hn : i.parser.recognizer.nesting.enter with
    | error e =>
      simp only [hn] at h
      cases h
      exact ⟨rfl, _, _, rfl⟩
    | ok nesting =>
      simp only [hn] at h
      cases h

/-- Following an edge is a sequence of moves, and of deeds if it does not end well. -/
theorem moves_followEdge {st : StateId} (hs : i.recognizer.state = some st)
    (ht : t ∈ (env.network.state st).transitions) {outcome : Except Halt Unit}
    (h : i.followEdge env (env.network.state st) t = (outcome, i')) :
    (outcome = .ok () ∧ Moves env i i') ∨
      i'.callers = i.callers ∧ Deeds env i.parser i'.parser := by
  rcases outcome with halt | u
  · right
    unfold followEdge at h
    cases hk : t.kind with
    | rule c follow precedence =>
      rw [hk] at h
      dsimp only at h
      generalize he : i.enter env c precedence = entered at h
      obtain ⟨halt' | id, i₁⟩ := entered
      · cases h
        rw [(enter_eq_error he).1]
        exact ⟨rfl, .refl⟩
      · cases h
    | _ =>
      rw [hk] at h
      dsimp only [run] at h
      have hp := @deeds_passEdge env (env.network.state st) t i.parser
      generalize passEdge env (env.network.state st) t i.parser = passed at h hp
      obtain ⟨halt' | u, p⟩ := passed
      · cases h
        rcases hp with hd | ⟨-, he⟩
        · exact ⟨rfl, hd⟩
        · cases he
      · cases h
  · refine .inl ⟨rfl, ?_⟩
    rcases followEdge_eq_ok h with ⟨c, follow, precedence, id, i₁, hk, he, rfl⟩ | ⟨hcall, p, hp, rfl⟩
    · exact .single (.enter hs ht hk he)
    · rcases @deeds_passEdge env (env.network.state st) t i.parser with hd | ⟨hm, he⟩
      · rw [hp] at hd
        exact (moves_of_deeds hd).tail (.pass ((state_deeds hd).trans hs) ht hcall)
      · rw [hp] at he
        cases he
        refine .tail (.single (.round hs hm)) (.pass (s := st) ?_ ht hcall)
        show (i.recognizer.pushRecursion _ _).2.state = _
        unfold Recognizer.pushRecursion
        split <;> exact hs

/-- So is leaving a state. -/
theorem moves_visit {st : StateId} (hs : i.recognizer.state = some st) {outcome : Except Halt Unit}
    (h : i.visit env (env.network.state st) = (outcome, i')) :
    (outcome = .ok () ∧ Moves env i i') ∨
      i'.callers = i.callers ∧ Deeds env i.parser i'.parser := by
  have hd := @deeds_chooseEdge env (env.network.state st) i.parser
  unfold visit at h
  dsimp only [run] at h
  generalize chooseEdge env (env.network.state st) i.parser = result at h hd
  obtain ⟨halt | alt, p⟩ := result
  · cases h
    exact .inr ⟨rfl, hd⟩
  · dsimp only at h
    split at h
    · rename_i t ht
      have hst : ({ i with parser := p } : Interpreter).recognizer.state = some st :=
        (state_deeds hd).trans hs
      rcases moves_followEdge hst (List.mem_of_getElem? ht) h with ⟨rfl, hf⟩ | ⟨hc, hf⟩
      · exact .inl ⟨rfl, (moves_of_deeds hd).trans hf⟩
      · exact .inr ⟨hc, hd.trans hf⟩
    · cases h
      exact .inr ⟨rfl, hd⟩

theorem moves_recoverFrom {st : StateId} (hs : i.recognizer.state = some st)
    (e : RecognitionError) {outcome : Except Halt Unit}
    (h : i.recoverFrom env (env.network.state st) e = (outcome, i')) : Moves env i i' := by
  have hd := @deeds_handle env (.error (.failure (.recognition e)))
    (i.goTo (some (env.network.rule (env.network.state st).rule).stop)).parser
  have hi : i' = { i with parser := (handle env (.error (.failure (.recognition e)))
      (i.goTo (some (env.network.rule (env.network.state st).rule).stop)).parser).2 } :=
    (Prod.mk.inj h).2.symm
  rw [hi]
  exact .head (.skip hs) (moves_of_deeds hd)

/-- A visit that does not end well is a sequence of deeds. -/
theorem moves_of_deeds_of_callers (hc : i'.callers = i.callers) (hd : Deeds env i.parser i'.parser) :
    Moves env i i' := by
  have h := moves_of_deeds hd
  rw [← hc] at h
  exact h

/-- A step that goes on leaves an invocation, or it is a sequence of moves. So is one that ends in a
failure. -/
theorem moves_step {rule : RuleId} {root : InvocationId} :
    (∀ i', step env rule root i = .running i' → Moves env i i' ∨
      ∃ s, i.recognizer.state = some s ∧ (env.network.state s).isRuleStop = true ∧
        i.isOutermost = false ∧ i' = i.leaveRule env (env.network.state s).rule) ∧
      ∀ halt i', step env rule root i = .finished (.error halt) i' → Moves env i i' := by
  unfold step
  cases hst : i.recognizer.state with
  | none => exact ⟨fun _ h => (by cases h), fun _ _ h => (by cases h)⟩
  | some st =>
    dsimp only
    cases hstop : (env.network.state st).isRuleStop with
    | true =>
      rw [if_pos rfl]
      cases hout : i.isOutermost with
      | true =>
        rw [if_pos rfl]
        exact ⟨fun _ h => (by cases h), fun _ _ h => (by cases h)⟩
      | false =>
        rw [if_neg (by simp)]
        refine ⟨fun _ h => ?_, fun _ _ h => (by cases h)⟩
        cases h
        exact .inr ⟨st, rfl, hstop, rfl, rfl⟩
    | false =>
      rw [if_neg (by simp)]
      generalize hv : i.visit env (env.network.state st) = result
      obtain ⟨halt | u, i₁⟩ := result
      · rcases moves_visit hst hv with ⟨hok, -⟩ | ⟨hc, hd⟩
        · cases hok
        have h₁ := moves_of_deeds_of_callers hc hd
        have hst₁ : i₁.recognizer.state = some st := (state_deeds hd).trans hst
        rcases halt with (e | ⟨rule, limit⟩ | e) | d
        · dsimp only
          generalize hr : i₁.recoverFrom env (env.network.state st) e = recovered
          obtain ⟨halt | u, i₂⟩ := recovered
          · refine ⟨fun _ h => (by cases h), fun _ _ h => ?_⟩
            cases h
            exact h₁.trans (moves_recoverFrom hst₁ e hr)
          · refine ⟨fun _ h => ?_, fun _ _ h => (by cases h)⟩
            cases h
            exact .inl (h₁.trans (moves_recoverFrom hst₁ e hr))
        all_goals
          refine ⟨fun _ h => (by cases h), fun _ _ h => ?_⟩
          cases h
          exact h₁
      · refine ⟨fun _ h => ?_, fun _ _ h => (by cases h)⟩
        cases h
        left
        rcases moves_visit hst hv with ⟨-, h⟩ | ⟨hc, hd⟩
        · exact h
        · exact moves_of_deeds_of_callers hc hd

/-- A step that goes on is a sequence of turns, and so is one that ends in a failure. -/
theorem turns_step {rule : RuleId} {root : InvocationId} :
    (∀ i', step env rule root i = .running i' → Turns env i i') ∧
      ∀ halt i', step env rule root i = .finished (.error halt) i' → Turns env i i' := by
  refine ⟨fun i' h => ?_, fun halt i' h => Moves.turns (moves_step.2 halt i' h)⟩
  rcases moves_step.1 i' h with hmoves | ⟨s, hs, hstop, hout, rfl⟩
  · exact Moves.turns hmoves
  · exact .single (.leave hs hstop hout)

theorem turns_of_follows {rule : RuleId} {root : InvocationId}
    (h : ReflTransGen (Follows env rule root) i i') : Turns env i i' := by
  induction h with
  | refl => exact .refl
  | tail _ hstep ih => exact ih.trans (turns_step.1 _ hstep)

/-- A run is a sequence of steps and a last one. -/
theorem follows_runFor {rule : RuleId} {root : InvocationId} {fuel : Nat}
    {outcome : Except Halt InvocationId} (h : runFor env rule root fuel i = some (outcome, i')) :
    ∃ j, ReflTransGen (Follows env rule root) i j ∧
      step env rule root j = .finished outcome i' := by
  induction fuel generalizing i with
  | zero => cases h
  | succ fuel ih =>
    unfold runFor at h
    generalize hstep : step env rule root i = progress at h
    cases progress with
    | finished outcome i₁ =>
      cases h
      exact ⟨i, .refl, hstep⟩
    | running i₁ =>
      obtain ⟨j, hj, hfin⟩ := ih h
      exact ⟨j, .head hstep hj, hfin⟩

end Interpreter

end AdaptiveParsing
