import AdaptiveParsing.Proofs.Recognition.Course
import AdaptiveParsing.Proofs.Recognition.Damage
import AdaptiveParsing.Proofs.Recognition.Policies
import AdaptiveParsing.Proofs.Recognition.Resuming
/-!
What is left to do before the input is at its end. A parser never moves back, and what recovery remembers of
the current token stays while the token is there (`Parser.Retains`), so that the tokens that are left and the
states in which recovery was not yet entered at the current one (`Parser.effort`) never get more. Main
statement: `Interpreter.effort_recoverFrom_lt`, that recovery leaves less.
-/

namespace AdaptiveParsing

open AdaptiveParsing.Parser

variable {env : Setting}

theorem TokenCursor.Along.current {s s' : TokenCursor} (h : s.Along s')
    (hp : s'.position = s.position) : s'.current = s.current := by
  unfold TokenCursor.current
  simp only [h.tokens, hp]

namespace Parser

variable {n : Network} {p q q' : Parser} {s : StateId}

theorem Deed.input (h : Deed env p q) (hstop : p.recognizer.input.Stopped) :
    q.recognizer.input = p.recognizer.input ∨
      q.recognizer.input = p.recognizer.input.consume := by
  cases h with
  | note _ h _ =>
    rw [h]
    exact .inl rfl
  | predict d => exact .inl (Recognizer.input_predict hstop d)
  | consume => exact .inr p.input_consume
  | conjure _ => exact .inl (p.recognizer.onlyTree_addChild _).input
  | blame e everywhere => exact .inl (p.recognizer.onlyTree_recordError e everywhere).input
  | report e => exact .inl (input_reportOnce e)

theorem Deeds.along (h : Deeds env p q) (hstop : p.recognizer.input.Stopped) :
    p.recognizer.input.Along q.recognizer.input ∧ q.recognizer.input.Stopped := by
  induction h with
  | refl => exact ⟨.refl _, hstop⟩
  | @tail q q' _ hd ih =>
    obtain ⟨hal, hst⟩ := ih
    rcases hd.input hst with hi | hi
    · rw [hi]
      exact ⟨hal, hst⟩
    · rw [hi]
      exact ⟨hal.trans q.recognizer.input.along_consume, hst.consume⟩

/-- The input only moves on, and what recovery remembers of the current token stays while it is there,
unless it is the end of input. -/
structure Retains (p q : Parser) : Prop where
  along : p.recognizer.input.Along q.recognizer.input
  position : p.recognizer.input.position ≤ q.recognizer.input.position
  remembers : p.recognizer.input.current.isEof = false → ∀ s,
    p.Remembers p.recognizer.input.position s → q.Remembers p.recognizer.input.position s

theorem Retains.trans (h : p.Retains q) (h' : q.Retains q') : p.Retains q' := by
  refine ⟨h.along.trans h'.along, Nat.le_trans h.position h'.position, fun heof s hs => ?_⟩
  rcases Nat.lt_or_eq_of_le h.position with hlt | heq
  · exact .inl (Nat.lt_of_lt_of_le hlt h'.position)
  · have hcurrent := h.along.current heq.symm
    have hq := h.remembers heof s hs
    rw [heq] at hq ⊢
    exact h'.remembers (hcurrent ▸ heof) s hq

theorem Onward.retains (h : p.Onward q) (ha : p.recognizer.input.Along q.recognizer.input) :
    p.Retains q :=
  ⟨ha, h.position, fun _ _ hs => h.remembers hs⟩

theorem retains_of_eq (hi : q.recognizer.input = p.recognizer.input) (hs : q.strategy = p.strategy) :
    p.Retains q := by
  refine Onward.retains ⟨?_, ?_, ?_, ?_⟩ ?_
  · rw [hs]
  · rw [hs]
  · rw [hs]
  · rw [hi]
  · rw [hi]
    exact .refl _

theorem Retains.refl (p : Parser) : p.Retains p := retains_of_eq rfl rfl

/-- Taking the current token, whatever is forgotten with it. -/
theorem retains_of_consume (hi : q.recognizer.input = p.recognizer.input.consume) : p.Retains q := by
  cases heof : p.recognizer.input.current.isEof with
  | true =>
    have hstay : p.recognizer.input.consume = p.recognizer.input := if_pos heof
    rw [hstay] at hi
    refine ⟨?_, ?_, fun hno => absurd hno (by simp [heof])⟩
    · rw [hi]
      exact .refl _
    · rw [hi]
  | false =>
    have hlt := TokenCursor.position_lt_consume heof
    rw [← hi] at hlt
    refine ⟨?_, Nat.le_of_lt hlt, fun _ _ _ => .inl hlt⟩
    rw [hi]
    exact p.recognizer.input.along_consume

theorem retains_reportOnce (e : SyntaxError) : p.Retains (p.reportOnce env e) := by
  refine (p.onward_reportOnce e).retains ?_
  rw [input_reportOnce]
  exact .refl _

theorem retains_deleteToken? : p.Retains (p.deleteToken? env).2 := by
  unfold deleteToken?
  split
  · refine retains_of_consume ?_
    show ((p.reportUnwanted env).consume env).recognizer.input = _
    rw [input_consume]
    exact congrArg TokenCursor.consume (input_reportOnce _)
  · exact .refl p

section

variable (hstop : p.recognizer.input.Stopped)

include hstop

theorem retains_resynchronize : p.Retains (p.resynchronize env) := by
  obtain ⟨noted, hmoved, -, -, -, -, hle⟩ := @resynchronize_cases env p
  exact ⟨(p.deeds_resynchronize.along hstop).1, Nat.le_trans hmoved hle, fun _ _ hs => hs.resynchronize⟩

theorem retains_sync : p.Retains (sync env p).2 := by
  cases hp : p.strategy.policy with
  | bail =>
    unfold sync
    rw [hp]
    exact .refl p
  | recover =>
    by_cases hforgets : Request.sync.Forgets env p
    · obtain ⟨t, ht⟩ := hforgets
      have hdelete := @retains_deleteToken? env p
      rwa [ht] at hdelete
    · rcases onward_perform hp hforgets with honward | heq
      · exact honward.retains ((p.deeds_sync).along hstop).1
      · rw [show (sync env p).2 = p.resynchronize env from heq]
        exact retains_resynchronize hstop

theorem retains_recoverInline : p.Retains (recoverInline env p).2 := by
  have hreport : ∀ e, p.Retains (p.giveUp env e) := fun e =>
    (retains_reportOnce _).trans (retains_of_eq (Recognizer.onlyTree_recordError _ _ _).input rfl)
  cases hp : p.strategy.policy with
  | bail =>
    unfold recoverInline
    rw [hp]
    exact hreport _
  | recover =>
    by_cases hforgets : Request.recoverInline.Forgets env p
    · have hdelete := @retains_deleteToken? env p
      have hsome : (p.deleteToken? env).1.isSome = true := hforgets
      unfold recoverInline
      rw [hp]
      dsimp only
      generalize p.deleteToken? env = result at hdelete hsome
      obtain ⟨t, q⟩ := result
      obtain ⟨t, rfl⟩ := Option.isSome_iff_exists.1 hsome
      exact hdelete.trans (retains_of_consume q.input_consume)
    · rcases onward_perform hp hforgets with honward | heq
      · exact honward.retains ((p.deeds_recoverInline).along hstop).1
      · rw [show (recoverInline env p).2 = p.resynchronize env from heq]
        exact retains_resynchronize hstop

theorem retains_recoverToken : p.Retains (recoverToken env p).2 := by
  have h := @retains_recoverInline env p hstop
  rw [recoverToken_run]
  generalize recoverInline env p = result at h
  obtain ⟨halt | t, q⟩ := result
  · exact h
  · refine h.trans ?_
    dsimp only
    split
    · exact retains_of_eq (Recognizer.onlyTree_addChild _ _).input rfl
    · exact .refl q

theorem retains_match {m : ParserM Token} {c : Prop} [Decidable c] {q : Parser}
    (hq : q.recognizer.input = p.recognizer.input)
    (hm : m p = if c then takeMatch env q else recoverToken env p) :
    p.Retains ((discard m : ParserM Unit) p).2 := by
  rw [snd_discard, hm]
  split
  · refine retains_of_consume ?_
    rw [input_takeMatch, hq]
  · exact retains_recoverToken hstop

end

/-- Recovery at a token that is not the end of input, in a state that is not remembered, remembers it, or
moves on. -/
theorem remembers_or_moves (hs : p.recognizer.state = some s)
    (heof : p.recognizer.input.current.isEof = false) :
    p.recognizer.input.position < (p.resynchronize env).recognizer.input.position ∨
      ¬ p.Remembers p.recognizer.input.position s ∧
        (p.resynchronize env).Remembers p.recognizer.input.position s := by
  by_cases hr : p.Remembers p.recognizer.input.position s
  · exact .inl (hr.position_lt hs heof)
  · refine .inr ⟨hr, remembers_resynchronize ?_⟩
    rw [hs]
    exact List.mem_append_left _ (.head _)

instance (p : Parser) (i : Nat) (s : StateId) : Decidable (p.Remembers i s) :=
  inferInstanceAs (Decidable (_ ∨ _))

/-- The states in which recovery was not yet entered at the current token. -/
def untried (n : Network) (p : Parser) : Finset StateId :=
  if p.recognizer.input.current.isEof then ∅
  else (Finset.range n.states.size).filter fun s => ¬ p.Remembers p.recognizer.input.position s

/-- What is left: tokens, and ways to fail at the current one. -/
def effort (n : Network) (p : Parser) : Nat :=
  p.recognizer.input.remaining * (n.states.size + 1) + (p.untried n).card

theorem card_untried_le (n : Network) (p : Parser) : (p.untried n).card ≤ n.states.size := by
  unfold untried
  split
  · exact Nat.zero_le _
  · exact (Finset.card_filter_le _ _).trans (Nat.le_of_eq (Finset.card_range _))

theorem effort_lt_of_moved (ha : p.recognizer.input.Along q.recognizer.input)
    (h : p.recognizer.input.position < q.recognizer.input.position) : q.effort n < p.effort n := by
  have hlt := q.recognizer.input.position_lt
  have hless : q.recognizer.input.remaining + 1 ≤ p.recognizer.input.remaining := by
    unfold TokenCursor.remaining
    rw [ha.tokens] at hlt ⊢
    omega
  have hcard := q.card_untried_le n
  unfold effort
  calc q.recognizer.input.remaining * (n.states.size + 1) + (q.untried n).card
      < (q.recognizer.input.remaining + 1) * (n.states.size + 1) := by
        rw [Nat.succ_mul]
        omega
    _ ≤ p.recognizer.input.remaining * (n.states.size + 1) := Nat.mul_le_mul_right _ hless
    _ ≤ _ := Nat.le_add_right _ _

/-- Where the input stays, nothing is untried that was not so before. -/
theorem Retains.untried_subset (h : p.Retains q)
    (hp : q.recognizer.input.position = p.recognizer.input.position) : q.untried n ⊆ p.untried n := by
  have hcurrent := h.along.current hp
  unfold untried
  rw [hcurrent]
  split
  · exact Finset.Subset.refl _
  · rename_i heof
    intro s hs
    rw [Finset.mem_filter] at hs ⊢
    refine ⟨hs.1, fun hr => hs.2 ?_⟩
    rw [hp]
    exact h.remembers (by simpa using heof) s hr

theorem remaining_eq (ha : p.recognizer.input.Along q.recognizer.input)
    (hp : q.recognizer.input.position = p.recognizer.input.position) :
    q.recognizer.input.remaining = p.recognizer.input.remaining := by
  unfold TokenCursor.remaining
  rw [ha.tokens, hp]

theorem Retains.effort_le (h : p.Retains q) : q.effort n ≤ p.effort n := by
  rcases Nat.lt_or_eq_of_le h.position with hlt | heq
  · exact Nat.le_of_lt (effort_lt_of_moved h.along hlt)
  · unfold effort
    rw [remaining_eq h.along heq.symm]
    exact Nat.add_le_add_left (Finset.card_le_card (h.untried_subset heq.symm)) _

/-- Recovery leaves less to do, unless the input is at its end. -/
theorem effort_resynchronize_lt (hstop : p.recognizer.input.Stopped) (hs : p.recognizer.state = some s)
    (hlt : s < n.states.size) (heof : p.recognizer.input.current.isEof = false) :
    (p.resynchronize env).effort n < p.effort n := by
  have hkeeps := @retains_resynchronize env p hstop
  rcases Nat.lt_or_eq_of_le hkeeps.position with hmoved | heq
  · exact effort_lt_of_moved hkeeps.along hmoved
  · obtain hmoved | ⟨hnew, hknown⟩ := @remembers_or_moves env p s hs heof
    · omega
    · have hsub := hkeeps.untried_subset (n := n) heq.symm
      have hbefore : s ∈ p.untried n := by
        unfold untried
        rw [if_neg (by simp [heof])]
        exact Finset.mem_filter.2 ⟨Finset.mem_range.2 hlt, hnew⟩
      have hafter : s ∉ (p.resynchronize env).untried n := by
        unfold untried
        rw [hkeeps.along.current heq.symm, if_neg (by simp [heof])]
        intro hmem
        rw [← heq] at hmem
        exact (Finset.mem_filter.1 hmem).2 hknown
      have hcard := Finset.card_lt_card (Finset.ssubset_iff_of_subset hsub |>.2 ⟨s, hbefore, hafter⟩)
      unfold effort
      rw [remaining_eq hkeeps.along heq.symm]
      omega

end Parser

namespace Interpreter

variable {p q : Parser} {i j : Interpreter} {here : NetworkState} {t : Transition}

theorem retains_chooseEdge (hstop : p.recognizer.input.Stopped) :
    p.Retains (chooseEdge env here p).2 := by
  unfold chooseEdge
  cases here.decision with
  | none => exact .refl p
  | some d =>
    dsimp only
    split
    · have hsync := @retains_sync env p hstop
      have hdeeds := @deeds_sync env p
      rw [bind_run]
      generalize sync env p = result at hsync hdeeds
      obtain ⟨halt | u, q⟩ := result
      · exact hsync
      · exact hsync.trans (retains_of_eq (Recognizer.input_predict (hdeeds.along hstop).2 d) rfl)
    · exact .refl p

theorem retains_passEdge (hstop : p.recognizer.input.Stopped) :
    p.Retains (passEdge env here t p).2 := by
  unfold passEdge
  cases hk : t.kind with
  | epsilon =>
    dsimp only
    split
    · exact retains_of_eq (Recognizer.onlyTree_pushRecursion _ _ _).input rfl
    · exact .refl p
  | atom k =>
    refine retains_match hstop ?_ (matchToken_run k)
    split <;> rfl
  | range _ _ | set _ | notSet _ =>
    dsimp only
    generalize env.network.label? _ = label
    cases label with
    | none => exact .refl p
    | some types => exact retains_match hstop rfl (matchSet_run types)
  | wildcard => exact retains_match hstop rfl matchAny_run
  | rule _ _ _ => exact .refl p
  | predicate c index _ =>
    dsimp only
    rw [get_run]
    cases p.recognizer.holds env c index <;> exact .refl p
  | action _ _ => exact retains_of_eq rfl rfl
  | precedence level =>
    dsimp only
    unfold Parser.checkPrecedence
    rw [get_run]
    cases p.recognizer.checkPrecedence env level <;> exact .refl p

theorem retains_visit (hstop : i.recognizer.input.Stopped) :
    i.parser.Retains (i.visit env here).2.parser := by
  have hchoose := @retains_chooseEdge env i.parser here hstop
  have hdeeds := @deeds_chooseEdge env here i.parser
  unfold visit
  dsimp only [run]
  generalize chooseEdge env here i.parser = result at hchoose hdeeds
  obtain ⟨halt | alt, p⟩ := result
  · exact hchoose
  · have hstop' := (hdeeds.along hstop).2
    dsimp only
    split
    · rename_i t _
      refine hchoose.trans ?_
      unfold followEdge
      cases hk : t.kind with
      | rule c follow precedence =>
        have hside := @onlyTree_enter env { i with parser := p } c precedence
        dsimp only
        generalize ({ i with parser := p } : Interpreter).enter env c precedence = entered at hside
        obtain ⟨halt | id, k⟩ := entered <;> exact retains_of_eq hside.1.input hside.2
      | _ =>
        have hpass := @retains_passEdge env p here t hstop'
        dsimp only [run]
        generalize passEdge env here t p = passed at hpass
        obtain ⟨halt | u, q⟩ := passed <;> exact hpass.trans (retains_of_eq rfl rfl)
    · exact hchoose

/-- Recovery from a mismatch leaves less to do, unless the input was at its end. -/
theorem effort_recoverFrom_lt {n : Network} {s : StateId} {e : RecognitionError} {k : Interpreter}
    (hstop : i.recognizer.input.Stopped) (hstate : i.recognizer.state = some s)
    (hv : i.visit env (env.network.state s) = (.error (.failure (.recognition e)), k))
    (hr : k.recoverFrom env (env.network.state s) e = (.ok (), j))
    (hlt : (env.network.rule (env.network.state s).rule).stop < n.states.size)
    (heof : i.recognizer.input.current.isEof = false) : j.parser.effort n < i.parser.effort n := by
  have hvisit := @retains_visit env i (env.network.state s) hstop
  rw [hv] at hvisit
  have hstopped : k.recognizer.input.Stopped := by
    rcases moves_visit hstate hv with ⟨hok, -⟩ | ⟨-, hd⟩
    · cases hok
    · exact (hd.along hstop).2
  obtain ⟨q, hq, hinput, hsame, hat⟩ : ∃ q : Parser, Parser.recover env e q = (.ok (), j.parser) ∧
      q.recognizer.input = k.recognizer.input ∧ k.parser.Retains q ∧
      q.recognizer.state = some (env.network.rule (env.network.state s).rule).stop := by
    let noted := (k.goTo (some (env.network.rule (env.network.state s).rule).stop)).parser.modifyRecognizer
      fun r => r.recordError e false
    have hnoted : noted.recognizer.input = k.recognizer.input :=
      (Recognizer.onlyTree_recordError _ _ _).input
    refine ⟨noted.reportError env e, ?_, ?_, ?_, ?_⟩
    · exact congrArg (fun o => (o.1, o.2.parser)) hr
    · exact (input_reportOnce _).trans hnoted
    · exact (retains_of_eq hnoted rfl).trans (retains_reportOnce _)
    · refine (noted.samePlace_reportOnce _).state.trans ?_
      exact (Recognizer.samePlace_recordError _ e false).state
  have hafter := hvisit.trans hsame
  have hrecovered : j.parser = q.resynchronize env := by
    unfold Parser.recover at hq
    split at hq
    · cases hq
    · exact (Prod.mk.inj hq).2.symm
  have hqstop : q.recognizer.input.Stopped := hinput ▸ hstopped
  have hj : q.Retains j.parser := hrecovered ▸ retains_resynchronize hqstop
  rcases Nat.lt_or_eq_of_le hafter.position with hmoved | heq
  · exact Nat.lt_of_le_of_lt hj.effort_le (effort_lt_of_moved hafter.along hmoved)
  · have hcurrent := hafter.along.current heq.symm
    rw [hrecovered]
    exact Nat.lt_of_lt_of_le (effort_resynchronize_lt hqstop hat hlt (hcurrent ▸ heof)) hafter.effort_le

end Interpreter

end AdaptiveParsing
