import AdaptiveParsing.Proofs.Lookahead.Ending
import AdaptiveParsing.Proofs.Recognition.Places
import AdaptiveParsing.Proofs.Recognition.Yield
/-!
The way that a parse without reports takes. Each of its steps is a move of the place of its live
invocations, which takes its word from the input (`Network.Moves`), so a parse that ends well has taken a
way from where it began. Main statements: `Sound.moves_followEdge`, `Sound.moves_leave`, and what is before
the cursor if the rest of the parse ends well (`Network.Closes.clears_of_moves`).
-/

namespace AdaptiveParsing

open AdaptiveParsing.Parser

variable {env : Setting} {t : Transition}

section

variable {p p' : Parser} {s : NetworkState}

theorem Parser.input_takeMatch (p : Parser) :
    (takeMatch env p).2.recognizer.input = p.recognizer.input.consume := by
  show (Recognizer.consume env p.recognizer false).input = _
  unfold Recognizer.consume
  rw [if_neg Bool.false_ne_true]
  split
  · rw [(Recognizer.onlyTree_addChild _ _).input]
  · rfl

/-- Without a report, choosing an edge leaves the input as it is. -/
theorem Interpreter.input_chooseEdge {alt : Nat} (ht : p.Tidy) (hstop : p.recognizer.input.Stopped)
    (h : chooseEdge env s p = (.ok alt, p')) (hs : p'.Silent) :
    p'.recognizer.input = p.recognizer.input := by
  rcases chooseEdge_eq_ok ht h hs with ⟨d, q, -, -, -, -, -, rfl⟩ | ⟨-, -, rfl⟩
  · exact Recognizer.input_predict hstop d
  · rfl

/-- Without a report, an edge that is passed is one that is open, passing it moves the cursor if it takes a
token, and where mismatches are described from stays. -/
theorem Interpreter.passEdge_eq_ok (ht : p.Tidy) (h : passEdge env s t p = (.ok (), p'))
    (hs : p'.Silent) : (t.call? = none → p.recognizer.Admits env t.kind) ∧
      (p'.recognizer.input =
        if t.isConsuming then p.recognizer.input.consume else p.recognizer.input) ∧
      p'.strategy.syncPoint = p.strategy.syncPoint := by
  unfold passEdge at h
  unfold Transition.isConsuming Recognizer.Admits
  cases hk : t.kind with
  | epsilon =>
    rw [hk] at h
    dsimp only at h
    split at h
    · cases h
      exact ⟨fun _ => trivial, (Recognizer.onlyTree_pushRecursion _ _ _).input, rfl⟩
    · cases h
      exact ⟨fun _ => trivial, rfl, rfl⟩
  | atom k =>
    rw [hk] at h
    obtain ⟨hm, rfl⟩ := match_eq_ok ht (matchToken_run k) h hs
    rw [input_takeMatch]
    refine ⟨fun _ => hm, ?_, ?_⟩ <;> split <;> rfl
  | range _ _ | set _ | notSet _ =>
    rw [hk] at h
    obtain ⟨hm, rfl⟩ := match_eq_ok ht (matchSet_run _) h hs
    exact ⟨fun _ => ⟨_, rfl, hm⟩, input_takeMatch p, rfl⟩
  | wildcard =>
    rw [hk] at h
    obtain ⟨hm, rfl⟩ := match_eq_ok ht matchAny_run h hs
    exact ⟨fun _ => hm, input_takeMatch p, rfl⟩
  | rule c follow precedence =>
    rw [hk] at h
    cases h
    refine ⟨fun hcall => ?_, rfl, rfl⟩
    simp [Transition.call?, hk] at hcall
  | predicate c index dependent =>
    rw [hk] at h
    dsimp only at h
    rw [get_run] at h
    by_cases hh : p.recognizer.holds env c index = true
    · rw [hh] at h
      cases h
      exact ⟨fun _ => hh, rfl, rfl⟩
    · rw [Bool.not_eq_true] at hh
      rw [hh] at h
      cases h
  | action c index =>
    rw [hk] at h
    cases h
    exact ⟨fun _ => trivial, rfl, rfl⟩
  | precedence level =>
    rw [hk] at h
    dsimp only at h
    unfold Parser.checkPrecedence at h
    rw [get_run] at h
    by_cases hl : p.recognizer.permits level = true
    · simp only [Recognizer.checkPrecedence, hl] at h
      cases h
      exact ⟨fun _ => by simpa [Recognizer.permits] using hl, rfl, rfl⟩
    · simp only [Recognizer.checkPrecedence, hl] at h
      cases h

end

namespace Network

/-- A move leads to a place like `p'`, and takes its word from the input. -/
def Moves (n : Network) (move : List TokenType → Place → Prop) (p' : Place)
    (input input' : TokenCursor) : Prop :=
  ∃ w q, move w q ∧ n.Alike p' q ∧
    (w = [] ∧ input' = input ∨ w = [input.kind] ∧ input' = input.consume)

variable {n : Network} {s : RuleId} {q e : StateId} {p p' : Place} {levels : RuleId → Int → Prop}
  {alt : Nat} {input input' : TokenCursor} {move move' : List TokenType → Place → Prop}

theorem Moves.imp (h : n.Moves move p' input input') (himp : ∀ w q, move w q → move' w q) :
    n.Moves move' p' input input' := by
  obtain ⟨w, q, hm, h⟩ := h
  exact ⟨w, q, himp w q hm, h⟩

theorem Alike.returnStates (h : n.Alike p p') :
    p'.returns.map Frame.returnState = p.returns.map Frame.returnState := by
  have hreturns := h.returns
  generalize p.returns = fs at hreturns
  generalize p'.returns = gs at hreturns
  induction hreturns with
  | nil => rfl
  | cons hf _ ih => rw [List.map_cons, List.map_cons, hf.1, ih]

theorem Alike.outermost (h : n.Alike p p') : p'.outermost = p.outermost := by
  unfold Place.outermost
  rw [← List.getLast?_map, ← List.getLast?_map, h.returnStates, h.state]

theorem Alike.ongoing (h : n.Alike p p') (hgo : n.Ongoing s e p) : n.Ongoing s e p' := by
  unfold Ongoing
  rwa [h.outermost]

theorem Alike.closed (h : n.Alike p p') (hc : n.Closed s e p) : n.Closed s e p' := by
  obtain ⟨hr, hstate⟩ := hc
  have hreturns := h.returns
  rw [hr, List.forall₂_nil_left_iff] at hreturns
  refine ⟨hreturns, ?_⟩
  rwa [h.state]

theorem Alike.clears (h : n.Alike p p') (hshape : n.Shaped levels) (hn : n.Checked)
    (hin : n.Inside s p) (hc : n.Clears s e p input) : n.Clears s e p' input := by
  obtain ⟨w, q, hr, hend, hw⟩ := hc
  obtain ⟨q', hr', hlike⟩ := h.reads hshape hn hin hr
  exact ⟨w, q', hr', hlike.ends hend,
    hw.imp (fun ⟨hgo, he⟩ => ⟨h.ongoing hgo, he⟩) fun ⟨hcl, he⟩ => ⟨h.closed hcl, he⟩⟩

section

variable (h : n.Closes s q e) (hshape : n.Shaped levels) (hn : n.Checked)

include h hshape hn

/-- After a move the outermost invocation has still to take the end of input, or is past it. -/
theorem Closes.ongoing_or_closed_of_moves (hin : n.Inside s p) (hp : n.Ongoing s e p ∨ n.Closed s e p)
    (hm : n.Moves (n.Step p) p' input input') : n.Ongoing s e p' ∨ n.Closed s e p' := by
  obtain ⟨w, r, hs, hlike, -⟩ := hm
  rcases hp with hgo | hcl
  · rcases h.step_ongoing hshape hn hin hgo hs with ⟨hgo', -⟩ | ⟨-, hcl'⟩
    · exact .inl (hlike.symm.ongoing hgo')
    · exact .inr (hlike.symm.closed hcl')
  · exact .inr (hlike.symm.closed (h.step_closed hshape hn hcl hs).2)

/-- If the rest of the way is right for what is left of the input, the whole way was right. -/
theorem Closes.clears_of_moves (hin : n.Inside s p) (hin' : n.Inside s p')
    (hp : n.Ongoing s e p ∨ n.Closed s e p) (hm : n.Moves (n.Step p) p' input input')
    (hclears : n.Clears s e p' input') : n.Clears s e p input := by
  obtain ⟨w, r, hs, hlike, hinput⟩ := hm
  exact h.clears_of_step hshape hn hin hp hs hinput (hlike.clears hshape hn hin' hclears)

/-- If the rest of the way past one of several edges is right, the alternative of this edge takes what is
left of the input. -/
theorem Closes.reached_of_moves (hin : n.Inside s p) (hin' : n.Inside s p') (hgo : n.Ongoing s e p)
    (hlen : 1 < (n.state p.state).transitions.length) (halt : 1 ≤ alt)
    (ht : (n.state p.state).transitions[alt - 1]? = some t)
    (hm : n.Moves (n.Via t p) p' input input') (hclears : n.Clears s e p' input') :
    ∃ r, n.Reached (n.Begins p) input.types alt r ∧ n.Ends r := by
  have hmem := List.mem_of_getElem? ht
  obtain ⟨w, r, hvia, hlike, hinput⟩ := hm
  obtain ⟨v, r', hr, hend, hv⟩ := hlike.clears hshape hn hin' hclears
  cases hvia with
  | take hmatch =>
    -- an edge that takes a token has no others beside it
    rw [hn.single p.state t hmem (isConsuming_of_matches hmatch)] at hlen
    exact absurd hlen (by simp)
  | free hfollow =>
    obtain rfl : input' = input := by
      rcases hinput with ⟨-, heq⟩ | ⟨hnil, -⟩
      · exact heq
      · cases hnil
    refine ⟨r', ⟨r, ⟨alt - 1, t, ht, by omega, hfollow⟩, ?_⟩, hend⟩
    rcases h.step_ongoing hshape hn hin hgo (.free hmem hfollow) with ⟨hgo', -⟩ | ⟨hnil, -⟩
    · rcases hv with ⟨-, rfl⟩ | ⟨⟨hnil, hstate⟩, -⟩
      · exact hr
      · obtain ⟨he, hs⟩ := hgo'
        rw [Place.outermost_of_nil hnil] at he hs
        exact (hstate.elim he hs).elim
    · cases hnil

end

end Network

variable {G : Guide} {rule : RuleId} {root : InvocationId} {i i' : Interpreter} {a b : Station}
  {rest : List Station} {done : List InvocationId}

/-- Without a report, following an edge is a move along the edge. -/
theorem Sound.moves_followEdge (hG : G.Fits) (hnet : env.network = G.network)
    (htree : env.config.buildTrees = true) (hears : G.Hears env i) (hfree : G.network.PredicateFree)
    (h : Sound G rule root i (a :: rest) done)
    (hle : TokenType.firstUser ≤ i.recognizer.input.kind →
      i.recognizer.input.kind ≤ G.network.maxType)
    (ht : t ∈ (G.network.state a.state).transitions) (htidy : i.parser.Tidy)
    (hf : i.followEdge env (G.network.state a.state) t = (.ok (), i')) (hs : i'.parser.Silent) :
    ∃ a' rest' done', Sound G rule root i' (a' :: rest') done' ∧
      G.network.Moves (G.network.Via t (G.place i.recognizer.forest a rest))
        (G.place i'.recognizer.forest a' rest') i.recognizer.input i'.recognizer.input := by
  have hinput : i'.recognizer.input =
      if t.isConsuming then i.recognizer.input.consume else i.recognizer.input := by
    rcases Interpreter.followEdge_eq_ok hf with ⟨c, follow, precedence, id, j, hk, he, rfl⟩ |
      ⟨-, p, hp, rfl⟩
    · have hside := (@Interpreter.onlyTree_enter env i c precedence).1
      rw [he] at hside
      unfold Transition.isConsuming
      rw [hk]
      exact hside.input
    · obtain ⟨-, hpassed, -⟩ := Interpreter.passEdge_eq_ok htidy hp hs
      exact hpassed
  rcases h.followEdge hG hnet htree hears ht htidy hf hs with
    ⟨c, follow, precedence, id, j, hk, hen, hforest, h'⟩ | ⟨-, a', done', r', hpass, hcontinues, h'⟩
  · obtain ⟨q, hvia, hlike⟩ := h.located.via_enter hG hnet ht hk hen
    rw [hforest] at hlike
    refine ⟨_, _, _, h', [], q, hvia, hlike, .inl ⟨rfl, ?_⟩⟩
    rw [hinput, if_neg (by simp [Transition.isConsuming, EdgeKind.isConsuming, hk])]
  · have hvia := h.located.via_admitted hG hnet hle ht hpass.admits (hfree.isPredicate ht)
    have hplace := hcontinues.place (G := G) fun b hb => h.grown.lt b (.tail _ hb)
    refine ⟨_, _, _, h', _, _, hvia, hplace ▸ .refl _, ?_⟩
    unfold Transition.word
    rw [hinput]
    split
    · exact .inr ⟨rfl, rfl⟩
    · exact .inl ⟨rfl, rfl⟩

/-- A return is a move of the place. -/
theorem Sound.moves_leave (hG : G.Fits) (hnet : env.network = G.network)
    (h : Sound G rule root i (a :: b :: rest) done)
    (hstop : (G.network.state a.state).isRuleStop = true) :
    let i' := i.leaveRule env (G.network.state a.state).rule
    ∃ b' done', Sound G rule root i' (b' :: rest) done' ∧
      G.network.Moves (G.network.Step (G.place i.recognizer.forest a (b :: rest)))
        (G.place i'.recognizer.forest b' rest) i.recognizer.input i'.recognizer.input := by
  obtain ⟨-, hc, -⟩ := h.grown.live
  obtain ⟨follow, hfollow⟩ := hG.followOf?_of_called hc
  obtain ⟨he, h'⟩ := h.leave hG hnet hstop hfollow
  have hside := (@Interpreter.onlyTree_leaveRule env i (G.network.state a.state).rule).1
  exact ⟨_, _, h', [], _, h.located.step_leave hstop hfollow he, .refl _, .inl ⟨rfl, hside.input⟩⟩

end AdaptiveParsing
