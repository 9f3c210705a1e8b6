import AdaptiveParsing.Proofs.Completion.Finishing
import AdaptiveParsing.Proofs.Network.Idling
import AdaptiveParsing.Proofs.Recognition.Bail
import AdaptiveParsing.Proofs.Recognition.Effort
import AdaptiveParsing.Proofs.Recognition.InPlace
import AdaptiveParsing.Proofs.Recognition.Whereabouts
/-!
When a parse comes to an end. A step leaves less to do (`Parser.effort`), or the states of the live
invocations wander while the input stays where it is (`Network.acc_wanders`), or it falters: it gets past a
token that is not there, or gives up a rule at the end of input. If no state comes back to itself within its
rule while the input stays, a parse therefore ends or falters without end, and one that bails, which cannot
falter, ends. Main statement: `Interpreter.parse_ends`. A loop whose body can be left without a token goes
round for ever (`parse_idle`).
-/

namespace AdaptiveParsing

open AdaptiveParsing.Parser Relation

variable {env : Setting}

namespace Interpreter

variable {p q : Parser} {i j : Interpreter} {here : NetworkState} {t : Transition}

/-- A token that the edge takes is taken. -/
theorem input_passEdge_of_takes (ht : env.network.Takes t.kind p.recognizer.input.current) :
    (passEdge env here t p).2.recognizer.input = p.recognizer.input.consume := by
  have htake : ∀ {m : ParserM Token} {q : Parser}, q.recognizer.input = p.recognizer.input →
      m p = takeMatch env q → ((discard m : ParserM Unit) p).2.recognizer.input =
        p.recognizer.input.consume := by
    intro m q hq hm
    rw [snd_discard, hm, input_takeMatch, hq]
  unfold passEdge
  cases hk : t.kind with
  | atom k =>
    rw [hk] at ht
    refine htake ?_ ((matchToken_run k).trans (if_pos ht))
    split <;> rfl
  | range _ _ | set _ | notSet _ =>
    rw [hk] at ht
    obtain ⟨types, hl, hmem⟩ := ht
    dsimp only
    rw [hl]
    exact htake rfl ((matchSet_run types).trans (if_pos hmem))
  | wildcard =>
    rw [hk] at ht
    exact htake rfl (matchAny_run.trans (if_pos ht))
  | _ =>
    rw [hk] at ht
    cases ht

/-- An edge that takes the end of input matches it. -/
theorem matches_eof_of_takes {n : Network} {k : EdgeKind} {token : Token} (ht : n.Takes k token)
    (heof : token.isEof = true) : n.Matches k TokenType.eof := by
  have hkind : token.kind = TokenType.eof := TokenType.isEof_iff.1 heof
  cases k with
  | atom a => exact ht.symm.trans hkind
  | range _ _ | set _ | notSet _ =>
    obtain ⟨types, hl, hmem⟩ := ht
    rw [hkind] at hmem
    exact Network.matches_of_label hl hmem
  | wildcard =>
    have hle : TokenType.firstUser ≤ token.kind := ht
    rw [hkind] at hle
    exact absurd hle (by decide)
  | _ => cases ht

/-- Passing an edge that is not a call moves on in the input, or the edge is one on which the input can stay,
or the token that it takes is not there. -/
theorem idle_or_moves (hcall : t.call? = none) :
    env.network.Idle t ∨
      p.recognizer.input.position < (passEdge env here t p).2.recognizer.input.position ∨
      t.isConsuming = true ∧ ¬ env.network.Takes t.kind p.recognizer.input.current := by
  cases hconsuming : t.isConsuming with
  | false => exact .inl ⟨hcall, by simp [hconsuming]⟩
  | true =>
    by_cases ht : env.network.Takes t.kind p.recognizer.input.current
    · cases heof : p.recognizer.input.current.isEof with
      | true => exact .inl ⟨hcall, fun _ => matches_eof_of_takes ht heof⟩
      | false =>
        rw [input_passEdge_of_takes ht]
        exact .inr (.inl (TokenCursor.position_lt_consume heof))
    · exact .inr (.inr ⟨rfl, ht⟩)

/-- The step gets past the edge of a token that is not there and stays where it is in the input, or it gives
up a rule at the end of the input. -/
def Falters (env : Setting) (i j : Interpreter) : Prop := ∃ s, i.recognizer.state = some s ∧
  (env.network.state s).isRuleStop = false ∧ ((i.visit env (env.network.state s) = (.ok (), j) ∧
      j.recognizer.input.position = i.recognizer.input.position ∧
      ∃ t ∈ (env.network.state s).transitions, t.isConsuming = true ∧
        ¬ env.network.Takes t.kind i.recognizer.input.current) ∨
    i.recognizer.input.current.isEof = true ∧
      ∃ halt, (i.visit env (env.network.state s)).1 = .error halt)

/-- A state that is left is left along one of its edges. -/
theorem exists_edge_of_visit (h : i.visit env here = (.ok (), j)) : ∃ alt p t,
    chooseEdge env here i.parser = (.ok alt, p) ∧ t ∈ here.transitions ∧
      ({ i with parser := p } : Interpreter).followEdge env here t = (.ok (), j) := by
  unfold visit at h
  dsimp only [run] at h
  generalize hch : chooseEdge env here i.parser = result at h
  obtain ⟨halt | alt, p⟩ := result
  · cases h
  · dsimp only at h
    split at h
    · rename_i t ht
      exact ⟨alt, p, t, rfl, List.mem_of_getElem? ht, h⟩
    · cases h

end Interpreter

section

variable {G : Guide} {rule : RuleId} {root : InvocationId} {first : TokenCursor} {i i' : Interpreter}
  {a : Station} {rest : List Station} {done : List InvocationId} {w : List Token} {t : Transition}

/-- Following an edge moves the innermost invocation along it, or opens another. -/
theorem Tracked.followEdge (hG : G.Fits) (hnet : env.network = G.network)
    (hindex : ∀ t ∈ first.tokens, t.isConjured = false)
    (h : Tracked env G rule root first i (a :: rest) done w)
    (hc : Counted env G ⟨i, a :: rest, done, w⟩) (ht : t ∈ (G.network.state a.state).transitions)
    (hf : i.followEdge env (G.network.state a.state) t = (.ok (), i')) :
    ∃ a' rest' done' w', Tracked env G rule root first i' (a' :: rest') done' w' ∧
      Counted env G ⟨i', a' :: rest', done', w'⟩ ∧
      ((∃ c follow precedence id j, t.kind = .rule c follow precedence ∧
          i.enter env c precedence = (.ok id, j) ∧ i' = j.goTo (some t.target) ∧
          (a' :: rest').map Station.state =
            (G.network.rule c).start :: a.state :: rest.map Station.state) ∨
        t.call? = none ∧ (∃ p, Interpreter.passEdge env (G.network.state a.state) t i.parser = (.ok (), p) ∧
          i' = ({ i with parser := p } : Interpreter).goTo (some t.target)) ∧
          (a' :: rest').map Station.state = t.target :: rest.map Station.state) := by
  have hlocated := h.located hc
  obtain ⟨hrule_lt, hstate, -⟩ := hlocated.linked
  rcases Interpreter.followEdge_eq_ok hf with ⟨c, follow, precedence, id, j, hk, he, rfl⟩ |
    ⟨hcall, p, hp, rfl⟩
  · obtain ⟨hrule, htarget⟩ := hG.call a.state t ht c follow precedence hk
    have h' := h.enter hG hnet hrule he
      (by
        rintro _ ⟨⟩
        exact ⟨t, ht, follow, hk⟩)
      (by rintro ⟨⟩)
    have hc' := hc.shift hnet h h' (.enter hrule ht hk he)
    have hat : j.goTo (some t.target) = j := by
      rw [htarget]
      exact Interpreter.goTo_of_state h'.state
    rw [hat]
    exact ⟨_, _, done, w, h', hc', .inl ⟨c, follow, precedence, id, j, hk, he, hat.symm, rfl⟩⟩
  · have hnext := ((hG.rule _ hrule_lt).next a.state hstate t ht).2
    rw [Transition.next_eq_target hcall, ← hstate] at hnext
    rcases @Interpreter.deeds_passEdge env (G.network.state a.state) t i.parser with hd | ⟨hmark, heq⟩
    · rw [hp] at hd
      obtain ⟨w', h', hc', -⟩ := h.deeds hnet hindex hc hd
      have h'' := h'.goTo hnext
      exact ⟨_, _, _, _, h'', hc'.shift hnet h' h'' (.goTo hnext), .inr ⟨hcall, ⟨p, hp, rfl⟩, rfl⟩⟩
    · rw [hp] at heq
      obtain rfl := (Prod.mk.inj heq).2
      have h' := h.round (s := (env.network.rule (G.network.state a.state).rule).start) hG hmark
      have hc' := hc.shift hnet h h' (.round hmark)
      have h'' := h'.goTo hnext
      exact ⟨_, _, _, _, h'', hc'.shift hnet h' h'' (.goTo hnext), .inr ⟨hcall, ⟨_, hp, rfl⟩, rfl⟩⟩

/-- There is less to do, or as much at most and the states of the live invocations wander. -/
def Interpreter.Proceeds (env : Setting) (n : Network) (i i' : Interpreter)
    (stations stations' : List Station) : Prop :=
  i'.parser.effort n < i.parser.effort n ∨ i'.parser.effort n ≤ i.parser.effort n ∧
    n.WandersWithin env.config.maxDepth (stations.map Station.state) (stations'.map Station.state)

theorem Counted.proceeds (hc : Counted env G ⟨i', a :: rest, done, w⟩) (hkeeps : i.parser.Retains i'.parser)
    {stations : List Station} (hw : G.network.Wanders (stations.map Station.state)
      ((a :: rest).map Station.state)) : i.Proceeds env G.network i' stations (a :: rest) := by
  refine .inr ⟨hkeeps.effort_le, hw, ?_⟩
  rw [List.length_map]
  exact hc.le

section

variable (hG : G.Fits) (hnet : env.network = G.network) (hindex : ∀ t ∈ first.tokens, t.isConjured = false)
  (h : Tracked env G rule root first i (a :: rest) done w)
  (hc : Counted env G ⟨i, a :: rest, done, w⟩)

include hG hnet h hc

/-- Leaving an invocation leaves no more to do. -/
theorem Tracked.proceeds_leave (hstate : i.recognizer.state = some a.state)
    (hend : (G.network.state a.state).isRuleStop = true) (hout : i.isOutermost = false) :
    ∃ a' rest' done' w',
      Tracked env G rule root first (i.leaveRule env (G.network.state a.state).rule) (a' :: rest') done' w' ∧
      Counted env G ⟨i.leaveRule env (G.network.state a.state).rule, a' :: rest', done', w'⟩ ∧
      i.Proceeds env G.network (i.leaveRule env (G.network.state a.state).rule) (a :: rest)
        (a' :: rest') := by
  obtain ⟨-, b, outer, follow, rfl, hfollow, h'⟩ := h.returns hG hnet hstate hout
  have hside := @Interpreter.onlyTree_leaveRule env i (G.network.state a.state).rule
  have hc' : Counted env G ⟨i.leaveRule env (G.network.state a.state).rule,
    { b with state := follow } :: outer, a.id :: done, w⟩ := hc.leave hnet h
  exact ⟨_, _, _, _, h', hc', hc'.proceeds (retains_of_eq hside.1.input hside.2) (.leave hend hfollow)⟩

include hindex

/-- Leaving a state leaves no more to do, or it falters. -/
theorem Tracked.proceeds_visit (hend : (G.network.state a.state).isRuleStop = false)
    (hv : i.visit env (G.network.state a.state) = (.ok (), i')) :
    ∃ a' rest' done' w', Tracked env G rule root first i' (a' :: rest') done' w' ∧
      Counted env G ⟨i', a' :: rest', done', w'⟩ ∧
      (i.Falters env i' ∨ i.Proceeds env G.network i' (a :: rest) (a' :: rest')) := by
  obtain ⟨alt, p, t, hch, ht, hf⟩ := Interpreter.exists_edge_of_visit hv
  have hchoose := @Interpreter.retains_chooseEdge env i.parser (G.network.state a.state) h.stopped
  have hdeeds := @Interpreter.deeds_chooseEdge env (G.network.state a.state) i.parser
  rw [hch] at hchoose hdeeds
  obtain ⟨w₁, h₁, hc₁, -⟩ := h.deeds hnet hindex hc hdeeds
  obtain ⟨a', rest', done', w', h', hc', hcase⟩ := h₁.followEdge hG hnet hindex hc₁ ht hf
  refine ⟨a', rest', done', w', h', hc', ?_⟩
  rcases hcase with ⟨c, follow, precedence, id, j, hk, he, rfl, hstates⟩ | ⟨hcall, ⟨q, hq, rfl⟩, hstates⟩
  · have hside := @Interpreter.onlyTree_enter env { i with parser := p } c precedence
    rw [he] at hside
    have hkeeps : i.parser.Retains (j.goTo (some t.target)).parser :=
      hchoose.trans (retains_of_eq hside.1.input hside.2)
    exact .inr (hc'.proceeds hkeeps (hstates ▸ .call ht hk))
  · have hpass := @Interpreter.retains_passEdge env p (G.network.state a.state) t
      (hdeeds.along h.stopped).2
    have hcases := @Interpreter.idle_or_moves env p (G.network.state a.state) t hcall
    rw [hq] at hpass hcases
    have hkeeps : i.parser.Retains (({ i with parser := q } : Interpreter).goTo (some t.target)).parser :=
      hchoose.trans (hpass.trans (retains_of_eq rfl rfl))
    by_cases hmoved : i.recognizer.input.position < q.recognizer.input.position
    · exact .inr (.inl (effort_lt_of_moved hkeeps.along hmoved))
    · rcases hcases with hidle | hmoves | ⟨hconsuming, hno⟩
      · rw [hnet] at hidle
        exact .inr (hc'.proceeds hkeeps (hstates ▸ .pass ht hidle))
      · exact absurd (Nat.lt_of_le_of_lt hchoose.position hmoves) hmoved
      · have hstay : q.recognizer.input.position = i.recognizer.input.position :=
          Nat.le_antisymm (Nat.le_of_not_lt hmoved) hkeeps.position
        have hp : p.recognizer.input.position = i.recognizer.input.position :=
          Nat.le_antisymm (hstay ▸ hpass.position) hchoose.position
        rw [hchoose.along.current hp] at hno
        rw [← hnet] at hend hv ht
        exact .inl ⟨a.state, h.state, hend, .inl ⟨hv, hstay, t, ht, hconsuming, hno⟩⟩

/-- Recovering at the end of the rule leaves less to do, or it falters. -/
theorem Tracked.proceeds_recover {e : RecognitionError} {k : Interpreter}
    (hstep : Interpreter.step env rule root i = .running i')
    (hend : (env.network.state a.state).isRuleStop = false)
    (hv : i.visit env (env.network.state a.state) = (.error (.failure (.recognition e)), k))
    (hr : k.recoverFrom env (env.network.state a.state) e = (.ok (), i')) :
    ∃ a' rest' done' w', Tracked env G rule root first i' (a' :: rest') done' w' ∧
      Counted env G ⟨i', a' :: rest', done', w'⟩ ∧
      (i.Falters env i' ∨ i.Proceeds env G.network i' (a :: rest) (a' :: rest')) := by
  have hmoves : Interpreter.Moves env i i' := by
    rcases Interpreter.moves_step.1 i' hstep with hm | ⟨s, hs, hstops, -⟩
    · exact hm
    · obtain rfl : a.state = s := Option.some.inj (h.state.symm.trans hs)
      rw [hend] at hstops
      cases hstops
  obtain ⟨a', rest', done', w', h', hc'⟩ := h.moves (P := Counted env G) hG hnet hindex
    (fun h h' hc hs => hc.shift hnet h h' hs) hc hmoves
  refine ⟨a', rest', done', w', h', hc', ?_⟩
  cases heof : i.recognizer.input.current.isEof with
  | true => exact .inl ⟨a.state, h.state, hend, .inr ⟨heof, _, congrArg Prod.fst hv⟩⟩
  | false =>
    obtain ⟨hlt, hrule, -⟩ := (h.located hc).linked
    refine .inr (.inl (Interpreter.effort_recoverFrom_lt h.stopped h.state hv hr ?_ heof))
    rw [hnet, hrule]
    exact (hG.rule _ hlt).stop_lt

/-- A step that goes on leaves no more to do, or it falters. -/
theorem Tracked.step (hstep : Interpreter.step env rule root i = .running i') :
    ∃ a' rest' done' w', Tracked env G rule root first i' (a' :: rest') done' w' ∧
      Counted env G ⟨i', a' :: rest', done', w'⟩ ∧
      (i.Falters env i' ∨ i.Proceeds env G.network i' (a :: rest) (a' :: rest')) := by
  rcases Interpreter.goes_or_recovers hstep with
    ⟨s, hstate, ⟨hend, hout, rfl⟩ | ⟨hend, hv⟩⟩ | ⟨s, e, k, hstate, hend, hv, hr⟩
  · obtain rfl : s = a.state := Option.some.inj (hstate.symm.trans h.state)
    rw [hnet] at hend ⊢
    obtain ⟨a', rest', done', w', h', hc', hproceeds⟩ := h.proceeds_leave hG hnet hc hstate hend hout
    exact ⟨a', rest', done', w', h', hc', .inr hproceeds⟩
  · obtain rfl : s = a.state := Option.some.inj (hstate.symm.trans h.state)
    rw [hnet] at hend hv
    exact h.proceeds_visit hG hnet hindex hc hend hv
  · obtain rfl : s = a.state := Option.some.inj (hstate.symm.trans h.state)
    exact h.proceeds_recover hG hnet hindex hc hstep hend hv hr

end

end

namespace Interpreter

variable {G : Guide} {g : Grammar} {rule : RuleId} {root : InvocationId} {first : TokenCursor}
  {i j j' : Interpreter} {a : Station} {rest : List Station} {done : List InvocationId}
  {w : List Token} {k l : Nat}

/-- Steps lead from one interpreter to another, and so many of them falter. -/
inductive Faltered (env : Setting) (rule : RuleId) (root : InvocationId) (i : Interpreter) :
    Nat → Interpreter → Prop
  | refl : Faltered env rule root i 0 i
  | step {k : Nat} {j j' : Interpreter} (h : Faltered env rule root i k j)
      (hs : Follows env rule root j j') : Faltered env rule root i k j'
  | falter {k : Nat} {j j' : Interpreter} (h : Faltered env rule root i k j)
      (hs : Follows env rule root j j') (hf : j.Falters env j') :
      Faltered env rule root i (k + 1) j'

theorem Faltered.trans (h : Faltered env rule root i k j) (h' : Faltered env rule root j l j') :
    Faltered env rule root i (k + l) j' := by
  induction h' with
  | refl => exact h
  | step _ hs ih => exact ih.step hs
  | falter _ hs hf ih => exact ih.falter hs hf

theorem Faltered.follows (h : Faltered env rule root i k j) :
    ReflTransGen (Follows env rule root) i j := by
  induction h with
  | refl => exact .refl
  | step _ hs ih => exact ih.tail hs
  | falter _ hs _ ih => exact ih.tail hs

/-- The run from here comes to an end. -/
def Ends (env : Setting) (rule : RuleId) (root : InvocationId) (i : Interpreter) : Prop :=
  ∃ fuel answer, runFor env rule root fuel i = some answer

theorem Ends.step (h : Ends env rule root j) (hs : Follows env rule root i j) :
    Ends env rule root i := by
  obtain ⟨fuel, answer, hrun⟩ := h
  refine ⟨fuel + 1, answer, ?_⟩
  unfold runFor
  rw [show Interpreter.step env rule root i = .running j from hs]
  exact hrun

theorem Ends.follows (h : Ends env rule root j) (hs : ReflTransGen (Follows env rule root) i j) :
    Ends env rule root i := by
  induction hs using ReflTransGen.head_induction_on with
  | refl => exact h
  | head hs _ ih => exact ih.step hs

/-- A run comes to an end or falters. -/
theorem ends_or_falters (hG : G.Fits) (hn : G.network.Checked) (hloop : G.network.LoopsAdvance)
    (hnet : env.network = G.network) (hindex : ∀ t ∈ first.tokens, t.isConjured = false)
    (h : Tracked env G rule root first i (a :: rest) done w)
    (hc : Counted env G ⟨i, a :: rest, done, w⟩) :
    Ends env rule root i ∨ ∃ j, Faltered env rule root i 1 j := by
  induction heffort : i.parser.effort G.network using Nat.strong_induction_on
    generalizing i a rest done w with
  | _ effort less =>
    generalize hstates : (a :: rest).map Station.state = states
    -- as long as there is no less to do, the states of the live invocations wander
    induction G.network.acc_wanders hG.toShaped hn hloop env.config.maxDepth states
      generalizing i a rest done w with
    | _ states _ ih =>
      cases hstep : Interpreter.step env rule root i with
      | finished outcome j =>
        refine .inl ⟨1, (outcome, j), ?_⟩
        unfold runFor
        rw [hstep]
      | running j =>
        obtain ⟨a', rest', done', w', h', hc', hcase⟩ := h.step hG hnet hindex hc hstep
        have hlater : Ends env rule root j ∨ (∃ l, Faltered env rule root j 1 l) →
            Ends env rule root i ∨ ∃ l, Faltered env rule root i 1 l := by
          rintro (hends | ⟨l, hl⟩)
          · exact .inl (hends.step hstep)
          · have hhead : Faltered env rule root i 0 j := .step .refl hstep
            exact .inr ⟨l, hhead.trans hl⟩
        rcases hcase with hfalters | hless | ⟨hle, hwanders⟩
        · exact .inr ⟨j, .falter .refl hstep hfalters⟩
        · exact hlater (less _ (heffort ▸ hless) h' hc' rfl)
        · rcases Nat.lt_or_eq_of_le hle with hless | heq
          · exact hlater (less _ (heffort ▸ hless) h' hc' rfl)
          · rw [hstates] at hwanders
            exact hlater (ih _ hwanders h' hc' (heq.trans heffort) rfl)

/-- The policy stays the same. -/
theorem policy_turns (h : Turns env i j) : j.parser.strategy.policy = i.parser.strategy.policy := by
  induction h with
  | refl => rfl
  | tail _ ht ih =>
    rcases ht.deed_or_onlyTree with ⟨p, hd, rfl⟩ | ⟨-, hs⟩
    · exact (policy_deeds (.single hd)).trans ih
    · rw [hs, ih]

/-- A parse that bails ends where it would falter. -/
theorem not_falters_of_bail (hn : env.network.Checked) (hp : i.parser.strategy.policy = .bail)
    (h : Follows env rule root i j) : ¬ i.Falters env j := by
  rintro ⟨s, hstate, hend, hfalters⟩
  obtain ⟨s', hstate', hgo⟩ := goes_of_bail hp h
  obtain rfl : s = s' := Option.some.inj (hstate.symm.trans hstate')
  rcases hgo with ⟨hstop, -⟩ | ⟨-, hv⟩
  · rw [hend] at hstop
    cases hstop
  · rcases hfalters with ⟨-, -, t, ht, hconsuming, hno⟩ | ⟨-, halt, herror⟩
    · have hlabel : (env.network.label? t.kind).isSome = true :=
        EdgeKind.label?_isSome.trans hconsuming
      obtain ⟨types, hl⟩ := Option.isSome_iff_exists.1 hlabel
      rw [visit_of_mismatch hn ht hl hno] at hv
      unfold run at hv
      rw [discard_run, recoverToken_bail hp] at hv
      cases hv
    · rw [hv] at herror
      cases herror

/-- So it never falters. -/
theorem Faltered.eq_zero (hn : env.network.Checked) (hp : i.parser.strategy.policy = .bail)
    (h : Faltered env rule root i k j) : k = 0 := by
  induction h with
  | refl => rfl
  | step _ _ ih => exact ih
  | falter h hs hf _ =>
    have hpolicy := (policy_turns (turns_of_follows h.follows)).trans hp
    exact absurd hf (not_falters_of_bail hn hpolicy hs)

theorem Ends.parses {i₀ : Interpreter} (h : Ends env rule root i₀)
    (hen : i.enter env rule 0 = (.ok root, i₀)) :
    ∃ fuel answer, i.parse env fuel rule = some answer := by
  obtain ⟨fuel, answer, hrun⟩ := h
  refine ⟨fuel, answer, ?_⟩
  unfold parse
  rw [hen]
  exact hrun

/-- A parse comes to an end, or falters so many times. -/
theorem parses_or_falters {tokens : Array Token} {channel start : Nat}
    (hg : g.compile = .ok env.grammar) (hloop : env.network.LoopsAdvance) (hrule : rule < g.rules.size)
    (hi : i.Fresh) (hnesting : i.recognizer.nesting = { limit := env.config.maxDepth })
    (hinput : i.recognizer.input = (TokenCursor.ofTokens tokens channel).seek start) (k : Nat) :
    (∃ fuel answer, i.parse env fuel rule = some answer) ∨ ∃ root i₀ j,
      i.enter env rule 0 = (.ok root, i₀) ∧ Faltered env rule root i₀ k j := by
  obtain ⟨G, hnet, -, -, hG⟩ := Grammar.exists_guide hg fun _ _ _ _ _ => True
  have hnet' : env.network = G.network := hnet.symm
  have hn : G.network.Checked := hnet ▸ Grammar.checked_compile hg
  have hsize : rule < G.network.rules.size := by
    rw [hnet, (Grammar.shaped_compile hg).2]
    exact hrule
  obtain ⟨hstop, hindex⟩ := stopped_of_input hinput
  obtain ⟨hsteps, -, -⟩ := along_parse hG hnet' hsize hi hstop hindex
    (counted_enter hnet' hi hnesting) (Counted.shift hnet') fun _ _ h hc _ _ => hc.leave hnet' h
  generalize hen : i.enter env rule 0 = entered
  obtain ⟨halt | root, i₀⟩ := entered
  · refine .inl ⟨0, (.error halt, i₀), ?_⟩
    unfold parse
    rw [hen]
  · induction k with
    | zero => exact .inr ⟨root, i₀, i₀, rfl, .refl⟩
    | succ k ih =>
      rcases ih with hends | ⟨_, _, j, hsame, hj⟩
      · exact .inl hends
      · cases hsame
        obtain ⟨a, rest, done, w, h, hc⟩ := hsteps root i₀ j hen hj.follows
        rcases ends_or_falters hG hn (hnet ▸ hloop) hnet' hindex h hc with hends | ⟨l, hl⟩
        · exact .inl ((hends.follows hj.follows).parses hen)
        · exact .inr ⟨root, i₀, l, rfl, hj.trans hl⟩

/-- If no state comes back to itself within its rule while the input stays where it is, then a parse comes to
an end, or else it falters again and again: it gets past tokens that are not there, or gives up rules at the
end of the input, more often than any number. A parse that bails comes to an end. -/
theorem parse_ends {tokens : Array Token} {channel start : Nat} (hg : g.compile = .ok env.grammar)
    (hloop : env.network.LoopsAdvance) (hrule : rule < g.rules.size) (hi : i.Fresh)
    (hnesting : i.recognizer.nesting = { limit := env.config.maxDepth })
    (hinput : i.recognizer.input = (TokenCursor.ofTokens tokens channel).seek start) :
    (i.parser.strategy.policy = .bail → ∃ fuel answer, i.parse env fuel rule = some answer) ∧
      ∀ k, (∃ fuel answer, i.parse env fuel rule = some answer) ∨ ∃ root i₀ j,
        i.enter env rule 0 = (.ok root, i₀) ∧ Faltered env rule root i₀ k j := by
  have hmany := fun k => parses_or_falters hg hloop hrule hi hnesting hinput k
  refine ⟨fun hp => ?_, hmany⟩
  rcases hmany 1 with hends | ⟨root, i₀, j, hen, hj⟩
  · exact hends
  · have hentered := (@onlyTree_enter env i rule 0).2
    rw [hen] at hentered
    have hpolicy : i₀.parser.strategy.policy = .bail := by rw [hentered, hp]
    exact absurd (hj.eq_zero (Grammar.checked_compile hg) hpolicy) (by decide)

/-- What always goes on never ends. -/
theorem runFor_eq_none {P : Interpreter → Prop}
    (hP : ∀ i, P i → ∃ j, step env rule root i = .running j ∧ P j) (hi : P i) (fuel : Nat) :
    runFor env rule root fuel i = none := by
  induction fuel generalizing i with
  | zero => rfl
  | succ fuel ih =>
    obtain ⟨j, hstep, hj⟩ := hP i hi
    unfold runFor
    rw [hstep]
    exact ih hj

/-- At a decision that the table of next tokens does not object to, a parse goes along the edge without a
token that lookahead finds. -/
theorem step_of_prediction {s target : StateId} {d : DecisionId} {alt : Nat} {a : Automaton}
    (hs : i.recognizer.state = some s) (hstop : (env.network.state s).isRuleStop = false)
    (hd : (env.network.state s).decision = some d) (hlen : 1 < (env.network.state s).transitions.length)
    (hedge : (env.network.state s).transitions[alt - 1]? = some ⟨target, .epsilon⟩)
    (hplain : (env.network.state s).precedenceDecision = false)
    (hnext : TokenType.epsilon ∈ env.network.nextTokensAt s) (hinput : i.recognizer.input.Stopped)
    (ha : i.recognizer.cache.get? d = some a)
    (hp : ((i.recognizer.simulation env d).predict d env.config.mode a
      i.recognizer.input.mark.2).1 = .alternative alt) :
    ∃ point, step env rule root i = .running { i with parser :=
      { recognizer := { i.recognizer with
          state := some target
          cache := i.recognizer.cache.set d ((i.recognizer.simulation env d).predict d env.config.mode a
            i.recognizer.input.mark.2).2.1 }
        strategy := { i.parser.strategy with syncPoint := point } } } := by
  obtain ⟨point, hsync⟩ := sync_of_next hs (.inr hnext)
  have hchoose := chooseEdge_of_predict hd hlen hsync (Recognizer.predict_eq hinput ha hp rfl)
  refine ⟨point, ?_⟩
  unfold step
  rw [hs]
  dsimp only
  rw [if_neg (by simp [hstop]), visit_eq]
  unfold followChosen run
  rw [hchoose]
  dsimp only [Recognizer.outcome]
  rw [hedge]
  unfold followEdge run passEdge
  dsimp only
  rw [hplain]
  rfl

end Interpreter

/-- Every round of the loop of `twoFloors` takes an operator, so its parses end if they bail. -/
theorem parse_ends_twoFloors : ∃ c, twoFloors.compile = .ok c ∧ c.network.LoopsAdvance ∧
    (∃ fuel answer, ((beforeTokens { grammar := c } #[{ kind := 1 }, { kind := 3 }]).under .bail).parse
      { grammar := c } fuel 0 = some answer) ∧
    ∀ k, (∃ fuel answer, (beforeTokens { grammar := c } #[{ kind := 1 }, { kind := 3 }]).parse
        { grammar := c } fuel 0 = some answer) ∨ ∃ root i₀ j,
      (beforeTokens { grammar := c } #[{ kind := 1 }, { kind := 3 }]).enter { grammar := c } 0 0 =
        (.ok root, i₀) ∧ Interpreter.Faltered { grammar := c } 0 root i₀ k j := by
  obtain ⟨nextTokens, hcompile⟩ := compile_twoFloors
  have hloop : (twoFloorsGrammar nextTokens).network.LoopsAdvance :=
    Network.loopsAdvance_of_rank
      ([2, 0, 0, 3, 2, 1, 0, 5, 0, 7, 6, 5, 0, 5, 1, 4, 1, 0, 6, 3, 2, 5, 4, 1].getD · 0)
      (show ∀ s < 24, ∀ t ∈ (twoFloorsDraft.skeleton.state s).transitions,
        twoFloorsDraft.skeleton.Idle t ∨ t.call? ≠ none → _ by decide)
  have hrule : 0 < twoFloors.rules.size := by
    rw [show twoFloors.rules.size = 1 by cbv]
    decide
  have hends := fun policy => @Interpreter.parse_ends { grammar := twoFloorsGrammar nextTokens } twoFloors 0
    ((beforeTokens { grammar := twoFloorsGrammar nextTokens }
      #[{ kind := 1 }, { kind := 3 }]).under policy) #[{ kind := 1 }, { kind := 3 }] defaultChannel 0
    hcompile hloop hrule ⟨rfl, rfl, rfl, rfl, rfl, rfl, rfl⟩ rfl rfl
  exact ⟨_, hcompile, hloop, (hends .bail).1 rfl, (hends .recover).2⟩

/-- The network of `idle` with its decisions and its table of next tokens. -/
def idleNetwork : Network where
  states := #[⟨.ruleStart, 0, [⟨6, .epsilon⟩], none, false⟩, ⟨.ruleStop, 0, [], none, false⟩,
    ⟨.basic, 0, [⟨3, .atom 1⟩], none, false⟩, ⟨.basic, 0, [⟨5, .epsilon⟩], none, false⟩,
    ⟨.blockStart, 0, [⟨2, .epsilon⟩, ⟨5, .epsilon⟩], some 0, false⟩,
    ⟨.blockEnd, 0, [⟨8, .epsilon⟩], none, false⟩,
    ⟨.starLoopEntry, 0, [⟨7, .epsilon⟩, ⟨10, .epsilon⟩], some 1, false⟩,
    ⟨.starBlockStart, 0, [⟨4, .epsilon⟩], none, false⟩, ⟨.blockEnd, 0, [⟨9, .epsilon⟩], none, false⟩,
    ⟨.starLoopBack, 0, [⟨6, .epsilon⟩], none, false⟩, ⟨.loopEnd, 0, [⟨1, .epsilon⟩], none, false⟩]
  rules := #[⟨"s", 0, 1, false⟩]
  decisions := #[4, 6]
  maxType := 1
  nextTokens := #[.ofList [1, -2], .ofList [-2], .ofList [1], .ofList [1, -2], .ofList [1, -2],
    .ofList [1, -2], .ofList [1, -2], .ofList [1, -2], .ofList [1, -2], .ofList [1, -2], .ofList [-2]]
  ruleFollow := #[[]]
  returnPrecedence := .replicate 11 none
  edgeCount := 12

def idleSetting : Setting := { grammar := ⟨idleNetwork, idle.names⟩ }

set_option maxRecDepth 20000 in
theorem compile_idleNetwork : idle.compile = .ok idleSetting.grammar := by
  rw [Grammar.compile_of_check draft_idle check_idle]
  cbv

/-- At the end of an empty input, in the first invocation. -/
def idleAtStart : Interpreter := ((beforeTokens idleSetting #[]).enter idleSetting 0 0).2

/-- Lookahead for a decision there. -/
def idleSimulation (d : DecisionId) : Simulation := idleAtStart.recognizer.simulation idleSetting d

section

open Simulation

theorem firstSet_idle : idleNetwork.firstSet 0 0 = .ofList
    [⟨{ state := 1, precedence := 0 }, 2⟩, ⟨{ state := 2, precedence := 0 }, 1⟩,
      ⟨{ state := 2, precedence := 0 }, 2⟩] false := by
  rw [Network.firstSet, startSet_eq_startClosure, if_neg (by cbv; decide), startClosure,
    closure_eq_closureRun (k := 40) (by decide) (by cbv)]
  cbv

theorem firstSet_idleLoop : idleNetwork.firstSet 1 0 = .ofList
    [⟨{ state := 1, precedence := 0 }, 1⟩, ⟨{ state := 1, precedence := 0 }, 2⟩,
      ⟨{ state := 2, precedence := 0 }, 1⟩] false := by
  rw [Network.firstSet, startSet_eq_startClosure, if_neg (by cbv; decide), startClosure,
    closure_eq_closureRun (k := 40) (by decide) (by cbv)]
  cbv

theorem repeatable_idle {d : DecisionId} (hd : d < 2) : idleNetwork.Repeatable d (· = 0) := by
  refine Network.PredicateFree.repeatable (by decide) ?_
  rintro floor rfl
  interval_cases d
  · rw [firstSet_idle]
    cbv
  · rw [firstSet_idleLoop]
    cbv

/-- What lookahead finds in the loop does not depend on what it has recorded. -/
theorem unrecorded_idle {d : DecisionId} (hd : d < 2) {a : Automaton}
    (ha : a.Recorded idleNetwork d (· = 0)) (hplain : (idleNetwork.firstSet d 0).predicated = false)
    (input : TokenCursor) : ((idleSimulation d).predict d .ll a input).1 =
      (idleSimulation d).unrecorded d .ll input.position (idleNetwork.firstSet d 0) input := by
  have hfloor : (idleSimulation d).floor = 0 := by interval_cases d <;> rfl
  have hfirst : (idleSimulation d).startSet false d = idleNetwork.firstSet d 0 := by
    have hset := @firstSet_eq_startSet (idleSimulation d) d
    rw [hfloor] at hset
    exact (hset hplain).symm
  rw [← hfirst]
  exact @predict_eq_unrecorded d (· = 0) a (idleSimulation d) (repeatable_idle hd) hfloor .ll ha input

variable {a : Automaton} {input : TokenCursor}

/-- At the end of input the body is left without a token. -/
theorem predict_idle (ha : a.Recorded idleNetwork 0 (· = 0)) (hk : input.kind = TokenType.eof) :
    ((idleSimulation 0).predict 0 .ll a input).1 = .alternative 2 := by
  have hreach : (idleSimulation 0).reach false (idleNetwork.firstSet 0 0) TokenType.eof = .ofList
      [⟨{ state := 1, precedence := 0 }, 2⟩] false := by
    rw [firstSet_idle, reach, closure_eq_closureRun (k := 40) (by decide) (by cbv)]
    cbv
  have hverdict : (idleSimulation 0).verdict (.ofList [⟨{ state := 1, precedence := 0 }, 2⟩] false) =
      (some 2, false) := by cbv
  rw [unrecorded_idle (by decide) ha (by rw [firstSet_idle]; rfl), unrecorded, hk, hreach, hverdict]
  rw [if_neg (by cbv; decide), if_neg (by decide)]

/-- And the loop is entered again: both alternatives come to the end of the rule, and this is the first. -/
theorem predict_idleLoop (ha : a.Recorded idleNetwork 1 (· = 0)) (hk : input.kind = TokenType.eof)
    (hback : (input.seek input.position).kind = TokenType.eof) :
    ((idleSimulation 1).predict 1 .ll a input).1 = .alternative 1 := by
  have hreach : (idleSimulation 1).reach false (idleNetwork.firstSet 1 0) TokenType.eof = .ofList
      [⟨{ state := 1, precedence := 0 }, 1⟩, ⟨{ state := 1, precedence := 0 }, 2⟩] false := by
    rw [firstSet_idleLoop, reach, closure_eq_closureRun (k := 40) (by decide) (by cbv)]
    cbv
  have hcontext : (idleSimulation 1).reach true ((idleSimulation 1).startSet true 1) TokenType.eof =
      .ofList [⟨{ state := 1, precedence := 0, placement := .root }, 1⟩,
        ⟨{ state := 1, precedence := 0, placement := .root }, 2⟩] false := by
    rw [startSet_eq_startClosure, if_neg (by cbv; decide), startClosure,
      closure_eq_closureRun (k := 40) (by decide) (by cbv)]
    rw [reach, closure_eq_closureRun (k := 40) (by decide) (by cbv)]
    cbv
  rw [unrecorded_idle (by decide) ha (by rw [firstSet_idleLoop]; rfl), unrecorded, hk, hreach]
  rw [if_neg (by cbv; decide), if_pos (by cbv), predictInContext, hback, hcontext]
  rw [if_neg (by cbv; decide), show ConfigSet.settledAlt? _ TokenType.eof = some 1 by cbv]

end

/-- In the first invocation, with what the strategy and lookahead remember. -/
def idleAt (s : StateId) (strategy : Strategy) (cache : PredictionCache) : Interpreter :=
  ⟨⟨{ idleAtStart.recognizer with state := some s, cache }, strategy⟩, []⟩

/-- Somewhere in the loop, with what predictions in this network have left. -/
def GoesRound (i : Interpreter) : Prop :=
  ∃ s ∈ [0, 6, 7, 4, 5, 8, 9], ∃ strategy cache, i = idleAt s strategy cache ∧
    cache.automata.size = 2 ∧ ∀ d a, cache.get? d = some a → Automaton.History idleNetwork d (· = 0) a

/-- A round never comes to an end. -/
theorem step_goesRound (root : InvocationId) (i : Interpreter) (hi : GoesRound i) :
    ∃ j, Interpreter.step idleSetting 0 root i = .running j ∧ GoesRound j := by
  obtain ⟨s, hs, strategy, cache, rfl, hsize, hpast⟩ := hi
  have hstopped : idleAtStart.recognizer.input.Stopped := (Interpreter.stopped_of_input rfl).1
  have hkind : idleAtStart.recognizer.input.mark.2.kind = TokenType.eof := by cbv
  have hback : (idleAtStart.recognizer.input.mark.2.seek
      idleAtStart.recognizer.input.mark.2.position).kind = TokenType.eof := by cbv
  have hplain : ∀ s' ∈ [0, 6, 7, 4, 5, 8, 9], GoesRound (idleAt s' strategy cache) := fun s' hs' =>
    ⟨s', hs', strategy, cache, rfl, hsize, hpast⟩
  have hlearned : ∀ s' ∈ [0, 6, 7, 4, 5, 8, 9], ∀ strategy' d a,
      Automaton.History idleNetwork d (· = 0) a →
        GoesRound (idleAt s' strategy' (cache.set d a)) := by
    intro s' hs' strategy' d a ha
    refine ⟨s', hs', strategy', _, rfl, Array.size_setIfInBounds.trans hsize, fun e b hb => ?_⟩
    obtain ⟨rfl, rfl⟩ | hb := PredictionCache.get?_set hb
    · exact ha
    · exact hpast e b hb
  have hknown : ∀ d < 2, ∃ a, cache.get? d = some a := fun d hd =>
    ⟨_, Array.getElem?_eq_getElem (hsize ▸ hd)⟩
  fin_cases hs
  · exact ⟨_, rfl, hplain 6 (by decide)⟩
  · obtain ⟨a, ha⟩ := hknown 1 (by decide)
    obtain ⟨point, hstep⟩ := @Interpreter.step_of_prediction idleSetting 0 root (idleAt 6 strategy cache)
      6 7 1 1 a rfl rfl rfl (by decide) rfl rfl (by decide) hstopped ha
      (predict_idleLoop (hpast 1 a ha).recorded hkind hback)
    exact ⟨_, hstep, hlearned 7 (by decide) _ 1 _ ((hpast 1 a ha).predict (idleSimulation 1) rfl rfl .ll _)⟩
  · exact ⟨_, rfl, hplain 4 (by decide)⟩
  · obtain ⟨a, ha⟩ := hknown 0 (by decide)
    obtain ⟨point, hstep⟩ := @Interpreter.step_of_prediction idleSetting 0 root (idleAt 4 strategy cache)
      4 5 0 2 a rfl rfl rfl (by decide) rfl rfl (by decide) hstopped ha
      (predict_idle (hpast 0 a ha).recorded hkind)
    exact ⟨_, hstep, hlearned 5 (by decide) _ 0 _ ((hpast 0 a ha).predict (idleSimulation 0) rfl rfl .ll _)⟩
  · exact ⟨_, rfl, hplain 8 (by decide)⟩
  · exact ⟨_, rfl, hplain 9 (by decide)⟩
  · exact ⟨_, rfl, hplain 6 (by decide)⟩

/-- With a body that can be left without a token a loop goes round without end: no parse of the empty input
ever ends, whether it would bail or recover. -/
theorem parse_never_ends : idle.compile = .ok idleSetting.grammar ∧ ∀ policy fuel,
    ((beforeTokens idleSetting #[]).under policy).parse idleSetting fuel 0 = none := by
  refine ⟨compile_idleNetwork, fun policy fuel => ?_⟩
  have hempty : ∀ d a, (PredictionCache.ofNetwork idleNetwork).get? d = some a →
      Automaton.History idleNetwork d (· = 0) a := fun d a ha =>
    PredictionCache.get?_ofNetwork ha ▸ .empty
  exact Interpreter.runFor_eq_none (step_goesRound 0)
    ⟨0, by decide, { policy }, .ofNetwork idleNetwork, rfl, rfl, hempty⟩ fuel

end AdaptiveParsing
