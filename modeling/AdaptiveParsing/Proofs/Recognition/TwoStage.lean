import AdaptiveParsing.Proofs.Lookahead.Choices
import AdaptiveParsing.Proofs.Recognition.Bail
import AdaptiveParsing.Proofs.Recognition.Course
/-!
Parsing in two stages: first without the callers and without recovery, and only if that fails with both.
If the first parse ends well, each alternative that was chosen leads to the end of the input, so lookahead
with the callers chooses it as well (`Course.predict_inMode`), and the second parse would go the same way.
Main statement: `Interpreter.two_stages`.
-/

namespace AdaptiveParsing

open AdaptiveParsing.Parser

/-- The setting with lookahead in this mode. -/
def Setting.inMode (env : Setting) (mode : PredictionMode) : Setting :=
  { env with config := { env.config with mode } }

variable {env : Setting} {G : Guide} {s : RuleId} {q e : StateId} {root id : InvocationId}
  {i i' : Interpreter} {a b a' : Station} {rest rest' : List Station} {done done' : List InvocationId}
  {t : Transition} {mode mode' : PredictionMode} {d : DecisionId} {alt : Nat}

namespace Parser

theorem skipUpTo_inMode (types : TokenSet) (fuel : Nat) (p : Parser) :
    skipUpTo (env.inMode mode) types fuel p = skipUpTo (env.inMode mode') types fuel p := by
  induction fuel generalizing p with
  | zero => rfl
  | succ fuel ih =>
    unfold skipUpTo
    rw [ih]
    rfl

/-- The check before a decision does not depend on the mode. -/
theorem sync_inMode (p : Parser) : sync (env.inMode mode) p = sync (env.inMode mode') p := by
  have hskip : ∀ p types, skipUntil (env.inMode mode) p types = skipUntil (env.inMode mode') p types :=
    fun p types => skipUpTo_inMode types _ p
  have hsyncAt : ∀ s, syncAt (env.inMode mode) s p = syncAt (env.inMode mode') s p := by
    intro s
    unfold syncAt
    simp only [hskip]
    rfl
  unfold sync
  simp only [hsyncAt]
  rfl

end Parser

namespace Interpreter

theorem leaveRule_inMode (i : Interpreter) (rule : RuleId) :
    i.leaveRule (env.inMode mode) rule = i.leaveRule (env.inMode mode') rule := rfl

theorem finish_inMode (i : Interpreter) (rule : RuleId) (root : InvocationId) :
    i.finish (env.inMode mode) rule root = i.finish (env.inMode mode') rule root := rfl

theorem enter_inMode (i : Interpreter) (rule : RuleId) (precedence : Int) :
    i.enter (env.inMode mode) rule precedence = i.enter (env.inMode mode') rule precedence := rfl

theorem chooseEdge_of_single {here : NetworkState} {p : Parser}
    (h : ∀ d, here.decision = some d → here.transitions.length ≤ 1) :
    chooseEdge env here p = (.ok 1, p) := by
  unfold chooseEdge
  cases hd : here.decision with
  | none => rfl
  | some d =>
    dsimp only
    rw [if_neg (Nat.not_lt.2 (h d hd))]
    rfl

end Interpreter

/-- A sound parse of rule `s` that has reported nothing, with what it has learned. The types of its input
are not above those of the grammar. -/
structure Course (G : Guide) (s : RuleId) (e : StateId) (root : InvocationId)
    (i : Interpreter) (a : Station) (rest : List Station) (done : List InvocationId) : Prop where
  sound : Sound G s root i (a :: rest) done
  tidy : i.parser.Tidy
  earned : i.recognizer.cache.Earned G.network
  stopped : i.recognizer.input.Stopped
  bounded : ∀ token ∈ i.recognizer.input.tokens,
    TokenType.firstUser ≤ token.kind → token.kind ≤ G.network.maxType
  ending : G.network.Ongoing s e (G.place i.recognizer.forest a rest) ∨
    G.network.Closed s e (G.place i.recognizer.forest a rest)

/-- What a parse is about: a grammar without conditions that closes with the end of input. -/
structure Guide.Closing (G : Guide) (s : RuleId) (q e : StateId) : Prop where
  fits : G.Fits
  checked : G.network.Checked
  free : G.network.PredicateFree
  closes : G.network.Closes s q e
  held : ∀ id children s r index, G.held id children s r index

section

variable (hG : G.Closing s q e) (hnet : env.network = G.network)

include hG

theorem Course.inside (h : Course G s e root i a rest done) :
    G.network.Inside s (G.place i.recognizer.forest a rest) := h.sound.inside hG.fits hG.checked

/-- A parse stays on its course with every move of its place. -/
theorem Course.moves (h : Course G s e root i a rest done)
    (h' : Sound G s root i' (a' :: rest') done') (htidy : i'.parser.Tidy)
    (hearned : i'.recognizer.cache.Earned G.network)
    (hm : G.network.Moves (G.network.Step (G.place i.recognizer.forest a rest))
      (G.place i'.recognizer.forest a' rest') i.recognizer.input i'.recognizer.input) :
    Course G s e root i' a' rest' done' := by
  have hending := hG.closes.ongoing_or_closed_of_moves hG.fits.toShaped hG.checked (h.inside hG)
    h.ending hm
  obtain ⟨w, q, -, -, ⟨-, hinput⟩ | ⟨-, hinput⟩⟩ := hm
  · exact ⟨h', htidy, hearned, hinput ▸ h.stopped, hinput ▸ h.bounded, hending⟩
  · refine ⟨h', htidy, hearned, hinput ▸ h.stopped.consume, ?_, hending⟩
    rw [hinput, (TokenCursor.along_consume _).tokens]
    exact h.bounded

/-- Where there are several edges the end of input has yet to come. -/
theorem Course.ongoing (h : Course G s e root i a rest done)
    (hlen : 1 < (G.network.state a.state).transitions.length) :
    G.network.Ongoing s e (G.place i.recognizer.forest a rest) := by
  refine h.ending.resolve_right ?_
  rintro ⟨-, hstate⟩
  have hstate : a.state = e ∨ a.state = (G.network.rule s).stop := hstate
  rcases hstate with he | hs
  · rw [he, hG.closes.exit] at hlen
    exact absurd hlen (by simp)
  · have hstop := (hG.fits.rule s hG.closes.lt).stop_kind
    rw [hs, hG.checked.last _ (by simp [NetworkState.isRuleStop, hstop])] at hlen
    exact absurd hlen (by simp)

include hnet

/-- An alternative that leads to the end of the input is chosen with the callers as well. -/
theorem Course.predict_inMode (h : Course G s e root i a rest done)
    (hgo : G.network.Ongoing s e (G.place i.recognizer.forest a rest))
    (hd : G.network.decisionState d = a.state)
    (hm : ∃ r, G.network.Reached (G.network.Begins (G.place i.recognizer.forest a rest))
      i.recognizer.input.types alt r ∧ G.network.Ends r)
    (hok : (i.recognizer.predict (env.inMode .sll) d).1 = .ok alt) :
    i.recognizer.predict (env.inMode .ll) d = i.recognizer.predict (env.inMode .sll) d := by
  obtain ⟨known, hknown, hsll⟩ := Recognizer.alternative_of_predict hok
  have hfloor := h.sound.located.simulation_floor hG.fits hnet hd
  have houter : (i.recognizer.simulation env d).Outer (some a.id)
      (rest.map (G.frame i.recognizer.forest)) := h.sound.grown.live.linked.outer hG.fits hnet rfl
  have hinv : i.recognizer.invocation = some a.id := h.sound.invocation
  have hplace : G.place i.recognizer.forest a rest = ⟨G.network.decisionState d,
      (i.recognizer.simulation env d).floor, rest.map (G.frame i.recognizer.forest)⟩ := by
    rw [hd, hfloor]
    rfl
  have hinside := h.inside hG
  rw [hplace] at hinside hm hgo
  rw [← hinv] at houter
  rw [← TokenCursor.types_mark] at hm
  have hquiet : ∀ u alt p, TokenType.eof ∉ u → G.network.Reached (G.network.Begins _) u alt p →
      ¬ G.network.Ends p := fun u alt p heof hr =>
    hG.closes.not_ends hG.fits.toShaped hG.checked hinside hgo hr heof
  have hnil := hG.closes.followStates_eq_nil hG.checked
  have hrecorded := (h.earned d known hknown).recorded
  have hshape := hG.fits.toShaped
  have hchecked := hG.checked
  have hfree := hG.free
  rw [← hnet] at hinside hm hquiet hnil hrecorded hshape hchecked hfree
  have hstop : i.recognizer.input.mark.2.Stopped := h.stopped
  obtain ⟨hll, hlearned⟩ := @Simulation.predict_ll_eq (i.recognizer.simulation env d) s G.levels d
    (fun _ => True) known alt hchecked hshape hnil _ _ hfree houter trivial hrecorded hinside hstop
    hquiet hm hsll
  have hll' := @Recognizer.predict_eq (env.inMode .ll) _ d known _ _ h.stopped hknown hll hlearned
  have hsll' := @Recognizer.predict_eq (env.inMode .sll) _ d known _ _ h.stopped hknown hsll rfl
  exact hll'.trans hsll'.symm

/-- If the rest of the parse is right past the edge that was chosen, it is chosen with the callers as
well. -/
theorem Course.chooseEdge_inMode {p : Parser} (h : Course G s e root i a rest done)
    (hch : Interpreter.chooseEdge (env.inMode .sll) (G.network.state a.state) i.parser = (.ok alt, p))
    (hp : p.Silent) (hm : 1 < (G.network.state a.state).transitions.length → 1 ≤ alt →
      ∃ r, G.network.Reached (G.network.Begins (G.place i.recognizer.forest a rest))
        i.recognizer.input.types alt r ∧ G.network.Ends r) :
    Interpreter.chooseEdge (env.inMode .ll) (G.network.state a.state) i.parser = (.ok alt, p) := by
  rcases Interpreter.chooseEdge_eq_ok h.tidy hch hp with
    ⟨d, p₁, hd, hlen, hsync, hrec, hok, rfl⟩ | ⟨hsingle, rfl, rfl⟩
  · have hdecision := hG.checked.decision a.state d hlen hd
    obtain ⟨known, hknown, hsll⟩ := Recognizer.alternative_of_predict hok
    have hrecorded := (h.earned d known hknown).recorded
    rw [← hnet] at hrecorded
    have hedge := Simulation.edge_of_predict trivial hrecorded hsll
    have hpredict := h.predict_inMode hG hnet (h.ongoing hG hlen) hdecision (hm hlen hedge.1) hok
    refine Interpreter.chooseEdge_of_predict hd hlen (Parser.sync_inMode _ ▸ hsync) ?_
    rw [hrec]
    exact hpredict.trans (Prod.ext hok rfl)
  · exact Interpreter.chooseEdge_of_single hsingle

/-- Leaving a state without a report keeps the parse on its course. If the rest of it is right, then so it
was from here on, and with the callers the state would have been left in the same way. -/
theorem Course.visit (htree : env.config.buildTrees = true) (h : Course G s e root i a rest done)
    (hv : i.visit (env.inMode .sll) (G.network.state a.state) = (.ok (), i'))
    (hs : i'.parser.Silent) :
    ∃ a' rest' done', Course G s e root i' a' rest' done' ∧
      (G.network.Clears s e (G.place i'.recognizer.forest a' rest') i'.recognizer.input →
        G.network.Clears s e (G.place i.recognizer.forest a rest) i.recognizer.input ∧
          i.visit (env.inMode .ll) (G.network.state a.state) = (.ok (), i')) := by
  have hnet' : (env.inMode .sll).network = G.network := hnet
  have hstate : i.recognizer.state = some a.state := h.sound.state
  obtain ⟨alt, p, t, hch, hedge, hf, hp, htidy, hsame⟩ := Interpreter.visit_eq_ok h.tidy hv hs
  have hmem := List.mem_of_getElem? hedge
  have hinput := Interpreter.input_chooseEdge h.tidy h.stopped hch hp
  have hle : TokenType.firstUser ≤ p.recognizer.input.kind →
      p.recognizer.input.kind ≤ G.network.maxType := by
    rw [hinput]
    exact h.bounded i.recognizer.input.current (Array.getElem_mem _)
  have h₁ : Sound G s root { i with parser := p } (a :: rest) done := h.sound.sameTree hsame rfl
  obtain ⟨a', rest', done', h', hmoves⟩ := h₁.moves_followEdge hG.fits hnet' htree
    (fun _ _ _ _ _ _ _ => hG.held _ _ _ _ _) hG.free hle hmem htidy hf hs
  have hplace : G.place p.recognizer.forest a rest = G.place i.recognizer.forest a rest := by
    rw [hsame.forest]
  have hmoves : G.network.Moves (G.network.Via t (G.place i.recognizer.forest a rest))
      (G.place i'.recognizer.forest a' rest') i.recognizer.input i'.recognizer.input := by
    have hinput : i.recognizer.input = p.recognizer.input := hinput.symm
    rw [← hplace, hinput]
    exact hmoves
  have hsteps := hmoves.imp fun w q hvia => hvia.step hmem
  have hturns : Interpreter.Turns (env.inMode .sll) i i' := by
    rw [← hnet'] at hv
    rcases Interpreter.moves_visit hstate hv with ⟨-, hmoves⟩ | ⟨hc, hd⟩
    · exact Interpreter.Moves.turns hmoves
    · exact Interpreter.Moves.turns (Interpreter.moves_of_deeds_of_callers hc hd)
  have hearned := Interpreter.earned_turns hturns (by rw [hnet']; exact h.earned)
  rw [hnet'] at hearned
  have htidy' : i'.parser.Tidy := by
    have hleads := @Interpreter.leads_visit (env.inMode .sll) i (G.network.state a.state)
    rw [hv] at hleads
    exact hleads.tidy h.tidy
  have hcourse := h.moves hG h' htidy' hearned hsteps
  refine ⟨a', rest', done', hcourse, fun hclears => ⟨?_, ?_⟩⟩
  · exact hG.closes.clears_of_moves hG.fits.toShaped hG.checked (h.inside hG) (hcourse.inside hG)
      h.ending hsteps hclears
  · have hch' := h.chooseEdge_inMode hG hnet hch hp fun hlen halt =>
      hG.closes.reached_of_moves hG.fits.toShaped hG.checked (h.inside hG) (hcourse.inside hG)
        (h.ongoing hG hlen) hlen halt hedge hmoves hclears
    unfold Interpreter.visit Interpreter.run
    rw [hch']
    dsimp only
    rw [hedge]
    exact hf

/-- A run without the callers that ends well and reports nothing takes what is left of the input, and
with the callers it goes the same. -/
theorem Course.runFor_inMode (htree : env.config.buildTrees = true) {fuel : Nat}
    (h : Course G s e root i a rest done)
    (hrun : Interpreter.runFor (env.inMode .sll) s root fuel i = some (.ok id, i'))
    (hs : i'.parser.Silent) :
    G.network.Clears s e (G.place i.recognizer.forest a rest) i.recognizer.input ∧
      Interpreter.runFor (env.inMode .ll) s root fuel i = some (.ok id, i') := by
  have hnet' : (env.inMode .sll).network = G.network := hnet
  induction fuel generalizing i a rest done with
  | zero => cases hrun
  | succ fuel ih =>
    unfold Interpreter.runFor at hrun
    have hleads := @Interpreter.leads_step (env.inMode .sll) i s root
    generalize hstep : Interpreter.step (env.inMode .sll) s root i = progress at hrun hleads
    cases progress with
    | finished outcome i₁ =>
      cases hrun
      rcases Interpreter.step_finished hstep with hnone | ⟨st, hst, hstop, hout, hfin⟩
      · rw [h.sound.state] at hnone
        cases hnone
      · obtain ⟨_, _, heq, rfl, -⟩ := h.sound.innermost hst
        cases heq
        have hends : G.network.Ends (G.place i.recognizer.forest a rest) := by
          refine ⟨?_, hnet' ▸ hstop⟩
          rw [Interpreter.isOutermost_of_sound h.sound, List.isEmpty_iff] at hout
          rw [hout]
          rfl
        have hclosed := h.ending.resolve_left fun hgo =>
          hG.closes.not_ends_of_ongoing hG.fits.toShaped (h.inside hG) hgo hends
        refine ⟨⟨[], _, .refl, hends, .inr ⟨hclosed, rfl⟩⟩, ?_⟩
        have hlast := @Interpreter.step_of_finish (env.inMode .ll) i _ s root hst hstop hout
        rw [Interpreter.finish_inMode, hfin] at hlast
        unfold Interpreter.runFor
        rw [hlast]
    | running i₁ =>
      dsimp only at hrun
      have hs₁ : i₁.parser.Silent := (Interpreter.leads_runFor hrun).silent hs
      suffices hnext : ∃ a' rest' done', Course G s e root i₁ a' rest' done' ∧
          (G.network.Clears s e (G.place i₁.recognizer.forest a' rest') i₁.recognizer.input →
            G.network.Clears s e (G.place i.recognizer.forest a rest) i.recognizer.input ∧
              Interpreter.Goes (env.inMode .ll) i i₁) by
        obtain ⟨a', rest', done', hcourse, hback⟩ := hnext
        obtain ⟨hclears, hll⟩ := ih hcourse hrun
        obtain ⟨hclears', hgoes⟩ := hback hclears
        refine ⟨hclears', ?_⟩
        unfold Interpreter.runFor
        rw [hgoes.step]
        exact hll
      obtain ⟨st, hst, ⟨hstop, hout, hi₁⟩ | ⟨hstop, hv⟩⟩ := Interpreter.step_running h.tidy hstep hs₁
      · obtain ⟨_, _, heq, rfl, -⟩ := h.sound.innermost hst
        cases heq
        have hout' := hout
        rw [Interpreter.isOutermost_of_sound h.sound] at hout'
        cases rest with
        | nil => cases hout'
        | cons b rest =>
          have hstop' : (G.network.state a.state).isRuleStop = true := hnet' ▸ hstop
          rw [hnet'] at hi₁
          obtain ⟨b', done', h', hmoves⟩ := h.sound.moves_leave hG.fits hnet' hstop'
          rw [← hi₁] at h' hmoves
          have hearned : i₁.recognizer.cache.Earned G.network := by
            rw [hi₁, (Interpreter.onlyTree_leaveRule _).1.cache]
            exact h.earned
          have hcourse := h.moves hG h' (hleads.tidy h.tidy) hearned hmoves
          refine ⟨b', rest, done', hcourse, fun hclears => ⟨?_, ?_⟩⟩
          · exact hG.closes.clears_of_moves hG.fits.toShaped hG.checked (h.inside hG)
              (hcourse.inside hG) h.ending hmoves hclears
          · refine ⟨a.state, hst, .inl ⟨hstop, hout, ?_⟩⟩
            rw [hi₁]
            exact hnet ▸ Interpreter.leaveRule_inMode i _
      · obtain ⟨_, _, heq, rfl, -⟩ := h.sound.innermost hst
        cases heq
        rw [hnet'] at hv
        obtain ⟨a', rest', done', hcourse, hback⟩ := h.visit hG hnet htree hv hs₁
        refine ⟨a', rest', done', hcourse, fun hclears => ?_⟩
        obtain ⟨hclears', hll⟩ := hback hclears
        refine ⟨hclears', a.state, hst, .inr ⟨hstop, ?_⟩⟩
        rw [← hnet] at hll
        exact hll

end

namespace Interpreter

/-- A parse from a fresh parser is on its course from its first invocation on. -/
theorem course_enter {i₀ : Interpreter} (hG : G.Closing s q e) (hnet : env.network = G.network)
    (hi : i.Fresh) (hstop : i.recognizer.input.Stopped) (hearned : i.recognizer.cache.Earned G.network)
    (hbounded : ∀ token ∈ i.recognizer.input.tokens,
      TokenType.firstUser ≤ token.kind → token.kind ≤ G.network.maxType)
    (hen : i.enter env s 0 = (.ok id, i₀)) :
    Course G s e id i₀ ⟨id, (G.network.rule s).start⟩ [] [] := by
  have hempty : Sound G s id i [] [] := by
    refine ⟨⟨trivial, .nil, List.nodup_nil, ?_⟩, hi.invocation, hi.state, hi.floors, hi.callers, ?_⟩
    · intro id hid
      cases hid
    · intro a ha
      cases ha
  have hside := (@onlyTree_enter env i s 0).1
  have hleads := @leads_enter env i s 0
  rw [hen] at hside hleads
  refine ⟨?_, hleads.tidy fun _ => hi.recovering, ?_, ?_, ?_, Network.ongoing_or_closed rfl⟩
  · refine hempty.enter hG.fits hnet hG.closes.lt (enters_of_enter hen) ?_ fun _ => ⟨rfl, rfl, rfl⟩
    intro a ha
    cases ha
  · rw [hside.cache]
    exact hearned
  · rw [hside.input]
    exact hstop
  · rw [hside.input]
    exact hbounded

/-- What a parse that recovers, without the callers, leaves without an error is what it leaves with them. -/
theorem parse_inMode {g : Grammar} {items : List Element} {tokens : Array Token}
    {channel start fuel : Nat} (hg : g.compile = .ok env.grammar) (hclosed : g.ClosedBy s items)
    (hfree : g.PredicateFree) (htree : env.config.buildTrees = true) (hi : i.Fresh)
    (hinput : i.recognizer.input = (TokenCursor.ofTokens tokens channel).seek start)
    (hkinds : ∀ t ∈ tokens, t.kind ≤ env.network.maxType)
    (hcache : i.recognizer.cache.Earned env.network)
    (hrun : (i.under .recover).parse (env.inMode .sll) fuel s = some (.ok root, i'))
    (hquiet : i'.recognizer.errors = #[]) :
    (i.under .recover).parse (env.inMode .ll) fuel s = some (.ok root, i') := by
  obtain ⟨G, hnet, hheld, -, hfits⟩ := Grammar.exists_guide hg fun _ _ _ _ _ => True
  obtain ⟨q, e, hcloses⟩ := Grammar.closes_compile hg hclosed
  have hG : G.Closing s q e := by
    refine ⟨hfits, ?_, ?_, ?_, fun _ _ _ _ _ => hheld ▸ trivial⟩
    · rw [hnet]
      exact Grammar.checked_compile hg
    · rw [hnet]
      exact Grammar.predicateFree_compile hg hfree
    · rw [hnet]
      exact hcloses
  have hstop : i.recognizer.input.Stopped := by
    rw [hinput]
    exact TokenCursor.stopped_moveTo _ _
  have hbounded : ∀ token ∈ i.recognizer.input.tokens,
      TokenType.firstUser ≤ token.kind → token.kind ≤ G.network.maxType := by
    intro token hmem huser
    rw [hinput] at hmem
    rcases @kind_of_mem_ofTokens tokens channel token hmem with heof | ⟨u, hu, heq⟩
    · rw [heof] at huser
      exact absurd huser (by decide)
    · rw [heq, hnet]
      exact hkinds u hu
  have hfresh : (i.under .recover).Fresh :=
    ⟨hi.forest, hi.invocation, hi.state, hi.floors, hi.errors, hi.callers, rfl⟩
  unfold parse at hrun ⊢
  rw [@enter_inMode env .ll .sll]
  generalize hen : (i.under .recover).enter (env.inMode .sll) s 0 = result at hrun ⊢
  obtain ⟨halt | first, i₀⟩ := result
  · cases hrun
  · have hcourse := course_enter (i := i.under .recover) hG hnet.symm hfresh hstop
      (by rw [hnet]; exact hcache) hbounded hen
    exact (hcourse.runFor_inMode hG hnet.symm htree hrun hquiet).2

end Interpreter

/-- `s` is one of X, `c`, X, `c` and a type that sets of types do not hold, then any token and the end of
input; `c` is X W. -/
def overlapping : Grammar :=
  let (x, g) := ({} : Grammar).addToken "X"
  let (w, g) := g.addToken "W"
  let (s, g) := g.addRule "s"
  let (c, g) := g.addRule "c"
  let body := .alt [.token x, .rule c, .token x, .rule c, .token (-5)]
  (g.define s (.plain (.seq [body, .wildcard, .token TokenType.eof]))).define c
    (.plain (.seq [.token x, .token w]))

theorem rules_overlapping : overlapping.rules = #[
    ⟨"s", some (.plain (.seq [.alt [.token 1, .rule 1, .token 1, .rule 1, .token (-5)], .wildcard,
      .token TokenType.eof]))⟩,
    ⟨"c", some (.plain (.seq [.token 1, .token 2]))⟩] := by cbv

/-- The leaves of the two rules. -/
theorem leaf_overlapping {r : RuleId} {leaf : Element} (h : overlapping.HasLeaf r leaf) :
    r = 0 ∧ leaf ∈ [Element.token 1, .rule 1, .token 1, .rule 1, .token (-5), .wildcard,
      .token TokenType.eof] ∨ r = 1 ∧ leaf ∈ [Element.token 1, .token 2] := by
  obtain ⟨rule, body, hrule, hbody, hleaf⟩ := h
  rw [rules_overlapping] at hrule
  match r, hrule with
  | 0, hrule =>
    cases hrule
    cases hbody
    exact .inl ⟨rfl, hleaf⟩
  | 1, hrule =>
    cases hrule
    cases hbody
    exact .inr ⟨rfl, hleaf⟩
  | _ + 2, hrule => cases hrule

theorem predicateFree_overlapping : overlapping.PredicateFree := by
  intro r leaf h
  rcases leaf_overlapping h with ⟨-, hleaf⟩ | ⟨-, hleaf⟩ <;>
    exact (by decide : ∀ leaf ∈ _, Element.isPredicate leaf = false) leaf hleaf

theorem closedBy_overlapping : overlapping.ClosedBy 0
    [.alt [.token 1, .rule 1, .token 1, .rule 1, .token (-5)], .wildcard] where
  body := by
    rw [rules_overlapping]
    exact ⟨_, rfl, rfl⟩
  items := by decide
  others := by
    intro r leaf hr h
    rcases leaf_overlapping h with ⟨rfl, -⟩ | ⟨-, hleaf⟩
    · exact absurd rfl hr
    · exact (by decide : ∀ leaf ∈ _, Element.takesEof leaf = false) leaf hleaf
  uncalled := by
    intro r leaf h
    rcases leaf_overlapping h with ⟨-, hleaf⟩ | ⟨-, hleaf⟩ <;>
      exact (by decide : ∀ leaf ∈ _, Element.callee? leaf ≠ some 0) leaf hleaf

def overlappingNetwork : Network where
  states := #[⟨.ruleStart, 0, [⟨14, .epsilon⟩], none, false⟩, ⟨.ruleStop, 0, [], none, false⟩,
    ⟨.ruleStart, 1, [⟨20, .epsilon⟩], none, false⟩, ⟨.ruleStop, 1, [], none, false⟩,
    ⟨.basic, 0, [⟨5, .atom 1⟩], none, false⟩, ⟨.basic, 0, [⟨15, .epsilon⟩], none, false⟩,
    ⟨.basic, 0, [⟨2, .rule 1 7 0⟩], none, false⟩, ⟨.basic, 0, [⟨15, .epsilon⟩], none, false⟩,
    ⟨.basic, 0, [⟨9, .atom 1⟩], none, false⟩, ⟨.basic, 0, [⟨15, .epsilon⟩], none, false⟩,
    ⟨.basic, 0, [⟨2, .rule 1 11 0⟩], none, false⟩, ⟨.basic, 0, [⟨15, .epsilon⟩], none, false⟩,
    ⟨.basic, 0, [⟨13, .atom (-5)⟩], none, false⟩, ⟨.basic, 0, [⟨15, .epsilon⟩], none, false⟩,
    ⟨.blockStart, 0, [⟨4, .epsilon⟩, ⟨6, .epsilon⟩, ⟨8, .epsilon⟩, ⟨10, .epsilon⟩, ⟨12, .epsilon⟩],
      some 0, false⟩,
    ⟨.blockEnd, 0, [⟨16, .epsilon⟩], none, false⟩, ⟨.basic, 0, [⟨17, .wildcard⟩], none, false⟩,
    ⟨.basic, 0, [⟨18, .epsilon⟩], none, false⟩, ⟨.basic, 0, [⟨19, .atom (-1)⟩], none, false⟩,
    ⟨.basic, 0, [⟨1, .epsilon⟩], none, false⟩, ⟨.basic, 1, [⟨21, .atom 1⟩], none, false⟩,
    ⟨.basic, 1, [⟨22, .epsilon⟩], none, false⟩, ⟨.basic, 1, [⟨23, .atom 2⟩], none, false⟩,
    ⟨.basic, 1, [⟨3, .epsilon⟩], none, false⟩]
  rules := #[⟨"s", 0, 1, false⟩, ⟨"c", 2, 3, false⟩]
  decisions := #[14]
  maxType := 2
  nextTokens := #[.ofList [1], .ofList [-2], .ofList [1], .ofList [-2], .ofList [1], .ofList [1, 2],
    .ofList [1], .ofList [1, 2], .ofList [1], .ofList [1, 2], .ofList [1], .ofList [1, 2], .ofList [],
    .ofList [1, 2], .ofList [1], .ofList [1, 2], .ofList [1, 2], .ofList [-1], .ofList [-1],
    .ofList [-2], .ofList [1], .ofList [2], .ofList [2], .ofList [-2]]
  ruleFollow := #[[], [7, 11]]
  returnPrecedence := #[none, none, none, none, none, none, none, some 0, none, none, none, some 0,
    none, none, none, none, none, none, none, none, none, none, none, none]
  edgeCount := 26

def overlappingSetting : Setting := { grammar := ⟨overlappingNetwork, overlapping.names⟩ }

def overlappingDraft : Draft := overlapping.draft.toOption.getD {}

set_option maxRecDepth 20000 in
theorem leftRecursion_overlappingDraft : overlappingDraft.leftRecursion? = none := by
  have hnullable : overlappingDraft.nullableRules = Array.replicate 2 false := by
    refine Draft.nullableRules_of_stop (by cbv) fun r hr => ?_
    obtain rfl | rfl : r = 0 ∨ r = 1 := by omega
    · cbv
    · cbv
  unfold Draft.leftRecursion? Draft.leftCalls
  rw [hnullable]
  cbv

set_option maxRecDepth 20000 in
theorem compile_overlapping : overlapping.compile = .ok overlappingSetting.grammar := by
  have hdraft : overlapping.draft = .ok overlappingDraft := by cbv
  have hcheck : overlappingDraft.check = .ok () := by
    unfold Draft.check
    rw [leftRecursion_overlappingDraft]
    cbv
  rw [Grammar.compile_of_check hdraft hcheck]
  cbv

section

variable {sim : Simulation} (hnet : sim.network = overlappingNetwork) (hfloor : sim.floor = 0)

include hnet hfloor

theorem startSet_overlapping (full : Bool) : sim.startSet full 0 = .ofList
    [⟨{ state := 4, precedence := 0 }, 1⟩, ⟨{ state := 8, precedence := 0 }, 3⟩,
      ⟨{ state := 12, precedence := 0 }, 5⟩, ⟨{ state := 20, precedence := 0, stack := [⟨7, 0⟩] }, 2⟩,
      ⟨{ state := 20, precedence := 0, stack := [⟨11, 0⟩] }, 4⟩] false := by
  obtain ⟨n, _, _, _, _⟩ := sim
  cases hnet
  cases hfloor
  rw [Simulation.startSet_eq_startClosure, if_neg (by cbv; decide), Simulation.startClosure,
    Simulation.closure_eq_closureRun (k := 40) (by decide) (by cbv)]
  cases full <;> cbv

/-- After X two alternatives are left at each of two states. -/
theorem reach_overlapping (full : Bool) : sim.reach full (sim.startSet full 0) 1 = .ofList
    [⟨{ state := 16, precedence := 0 }, 1⟩, ⟨{ state := 16, precedence := 0 }, 3⟩,
      ⟨{ state := 22, precedence := 0, stack := [⟨7, 0⟩] }, 2⟩,
      ⟨{ state := 22, precedence := 0, stack := [⟨11, 0⟩] }, 4⟩] false := by
  rw [startSet_overlapping hnet hfloor]
  obtain ⟨n, _, _, _, _⟩ := sim
  cases hnet
  cases hfloor
  rw [Simulation.reach, Simulation.closure_eq_closureRun (k := 40) (by decide) (by cbv)]
  cases full <;> cbv

theorem reach_foreign_overlapping : sim.reach false (sim.startSet false 0) (-5) =
    .ofList [⟨{ state := 16, precedence := 0 }, 5⟩] false := by
  rw [startSet_overlapping hnet hfloor]
  obtain ⟨n, _, _, _, _⟩ := sim
  cases hnet
  cases hfloor
  rw [Simulation.reach, Simulation.closure_eq_closureRun (k := 40) (by decide) (by cbv)]
  cbv

theorem verdict_overlapping :
    sim.verdict (sim.reach false (sim.startSet false 0) 1) = (some 1, true) := by
  rw [reach_overlapping hnet hfloor]
  unfold Simulation.verdict
  rw [hnet]
  cbv

/-- In the conflict after X, it depends on the mode whether the callers are looked at. -/
theorem predict_overlapping {input : TokenCursor} (mode : PredictionMode) (hk : input.kind = 1) :
    (sim.predict 0 mode {} input).1 = if mode == .ll then
      (sim.predictInContext input.position (sim.startSet true 0) (input.seek input.position)).1
      else .alternative 1 := by
  refine @Simulation.predict_of_verdict 0 sim mode input 1 true ?_ ?_ ?_ ?_
  · rw [startSet_overlapping hnet hfloor]
    cbv
  · rw [hk, reach_overlapping hnet hfloor]
    cbv
  · rw [hk, reach_overlapping hnet hfloor, startSet_overlapping hnet hfloor]
    cbv
    decide
  · rw [hk, verdict_overlapping hnet hfloor]

theorem predict_foreign_overlapping {input : TokenCursor} (mode : PredictionMode)
    (hk : input.kind = -5) : (sim.predict 0 mode {} input).1 = .alternative 5 := by
  refine @Simulation.predict_of_unique 0 sim mode input 5 ?_ ?_ ?_
  · rw [startSet_overlapping hnet hfloor]
    cbv
  · rw [hk, reach_foreign_overlapping hnet hfloor]
    cbv
  · rw [hk, reach_foreign_overlapping hnet hfloor, startSet_overlapping hnet hfloor]
    cbv
    decide

/-- With the callers it goes on after X, and no alternative takes a type above those of the grammar. -/
theorem predictInContext_overlapping {input : TokenCursor} (start : Nat) (hk : input.kind = 1)
    (heof : input.current.isEof = false) (hnext : input.consume.kind = 3) :
    (sim.predictInContext start (sim.startSet true 0) input).1 =
      .noViable start input.consume.position := by
  unfold Simulation.predictInContext
  rw [hk, reach_overlapping hnet hfloor]
  dsimp only
  rw [if_neg (by cbv; decide), show ConfigSet.settledAlt? _ 1 = none by cbv]
  dsimp only
  rw [dif_neg (by simp [heof])]
  unfold Simulation.predictInContext
  rw [hnext]
  obtain ⟨n, _, _, _, _⟩ := sim
  cases hnet
  cases hfloor
  rw [Simulation.reach, Simulation.closure_eq_closureRun (k := 40) (by decide) (by cbv)]
  dsimp only
  rw [if_pos (by cbv)]
  cbv

end

/-- The parser at the decision of `overlapping`. -/
def atOverlapping (policy : RecoveryPolicy) (tokens : Array Token) : Interpreter :=
  (((beforeTokens overlappingSetting tokens).under policy).enter overlappingSetting 0 0).2.goTo
    (some 14)

namespace Interpreter

variable {tokens : Array Token} {mode : PredictionMode} {policy : RecoveryPolicy}

theorem parse_overlapping (fuel : Nat) :
    ((beforeTokens (overlappingSetting.inMode mode) tokens).under policy).parse
      (overlappingSetting.inMode mode) (fuel + 1) 0 =
        runFor (overlappingSetting.inMode mode) 0 0 fuel (atOverlapping policy tokens) := by
  have hfirst : Goes (overlappingSetting.inMode mode)
      (((beforeTokens overlappingSetting tokens).under policy).enter overlappingSetting 0 0).2
      (atOverlapping policy tokens) := ⟨0, rfl, .inr ⟨rfl, rfl⟩⟩
  have henter : (((beforeTokens (overlappingSetting.inMode mode) tokens).under policy).enter
      (overlappingSetting.inMode mode) 0 0) = (.ok 0,
        (((beforeTokens overlappingSetting tokens).under policy).enter overlappingSetting 0 0).2) := rfl
  unfold parse
  rw [henter]
  dsimp only
  rw [runFor, hfirst.step]

theorem floor_atOverlapping :
    ((atOverlapping policy tokens).recognizer.simulation overlappingSetting 0).floor = 0 := by
  unfold Recognizer.simulation
  dsimp only
  rw [if_neg (by decide)]

/-- Lookahead at the decision changes nothing but the cache. -/
theorem predict_atOverlapping {p : Prediction}
    (hp : (((atOverlapping policy tokens).recognizer.simulation overlappingSetting 0).predict 0 mode {}
      (atOverlapping policy tokens).recognizer.input.mark.2).1 = p) :
    ∃ cache, let r := { (atOverlapping policy tokens).recognizer with cache }
      (atOverlapping policy tokens).recognizer.predict (overlappingSetting.inMode mode) 0 =
        (r.outcome (overlappingSetting.inMode mode) 0 p, r) := by
  have hstop : (atOverlapping policy tokens).recognizer.input.Stopped := TokenCursor.stopped_moveTo _ _
  have hcache : (atOverlapping policy tokens).recognizer.cache.get? 0 = some {} := rfl
  exact ⟨_, @Recognizer.predict_eq (overlappingSetting.inMode mode) _ 0 _ _ _ hstop hcache hp rfl⟩

/-- A parse that bails goes on at the alternative that lookahead finds. -/
theorem goes_overlapping {alt : Nat} {target : StateId}
    (hedge : (overlappingNetwork.state 14).transitions[alt - 1]? = some ⟨target, .epsilon⟩)
    (hp : (((atOverlapping .bail tokens).recognizer.simulation overlappingSetting 0).predict 0 mode {}
      (atOverlapping .bail tokens).recognizer.input.mark.2).1 = .alternative alt) :
    ∃ cache, Goes (overlappingSetting.inMode mode) (atOverlapping .bail tokens) (goTo
      { parser := { (atOverlapping .bail tokens).parser with
          recognizer := { (atOverlapping .bail tokens).recognizer with cache } } } (some target)) := by
  obtain ⟨cache, hpredict⟩ := predict_atOverlapping hp
  have hchoose := @chooseEdge_of_predict (overlappingSetting.inMode mode) 0
    (overlappingNetwork.state 14) (atOverlapping .bail tokens).parser _ _ _ rfl (by decide) rfl hpredict
  refine ⟨cache, 14, rfl, .inr ⟨rfl, ?_⟩⟩
  unfold visit run
  rw [show (overlappingSetting.inMode mode).network.state 14 = overlappingNetwork.state 14 from rfl,
    hchoose]
  dsimp only [Recognizer.outcome]
  rw [hedge]
  rfl

/-- What can be seen of how a parse ends. -/
theorem exists_of_map {parsed : Option (Except Halt InvocationId × Interpreter)}
    {outcome : Except Halt InvocationId} {n : Nat}
    (h : parsed.map (fun p => (p.1, p.2.recognizer.errors.size)) = some (outcome, n)) :
    ∃ i', parsed = some (outcome, i') ∧ i'.recognizer.errors.size = n := by
  obtain ⟨⟨_, i'⟩, hparse, hp⟩ := Option.map_eq_some_iff.1 h
  obtain ⟨rfl, hn⟩ := Prod.mk.inj hp
  exact ⟨i', hparse, hn⟩

/-- A parse that bails ends as it does from the alternative that lookahead finds. -/
theorem sll_overlapping {alt : Nat} {target : StateId}
    (hedge : (overlappingNetwork.state 14).transitions[alt - 1]? = some ⟨target, .epsilon⟩)
    (hp : (((atOverlapping .bail tokens).recognizer.simulation overlappingSetting 0).predict 0 .sll {}
      (atOverlapping .bail tokens).recognizer.input.mark.2).1 = .alternative alt)
    (hrest : ∀ cache, (runFor (overlappingSetting.inMode .sll) 0 0 18 (goTo
      { parser := { (atOverlapping .bail tokens).parser with
          recognizer := { (atOverlapping .bail tokens).recognizer with cache } } } (some target))).map
        (fun p => (p.1, p.2.recognizer.errors.size)) = some (.ok 0, 0)) :
    ∃ i', ((beforeTokens (overlappingSetting.inMode .sll) tokens).under .bail).parse
      (overlappingSetting.inMode .sll) 20 0 = some (.ok 0, i') ∧ i'.recognizer.errors.size = 0 := by
  obtain ⟨cache, hgoes⟩ := goes_overlapping hedge hp
  rw [parse_overlapping, runFor, hgoes.step]
  exact exists_of_map (hrest cache)

end Interpreter

/-- That is the one error of the parse with the callers that recovers. -/
theorem ll_overlapping : ∃ i',
    ((beforeTokens (overlappingSetting.inMode .ll) #[{ kind := 1 }, { kind := 3 }]).under
      .recover).parse (overlappingSetting.inMode .ll) 20 0 = some (.ok 0, i') ∧
        i'.recognizer.errors.size = 1 := by
  generalize htokens : (#[{ kind := 1 }, { kind := 3 }] : Array Token) = tokens
  have hkind : (atOverlapping .recover tokens).recognizer.input.mark.2.kind = 1 := by
    subst htokens
    cbv
  have hpredict := @predict_overlapping ((atOverlapping .recover tokens).recognizer.simulation
    overlappingSetting 0) rfl Interpreter.floor_atOverlapping _ .ll hkind
  rw [if_pos (by decide), @predictInContext_overlapping ((atOverlapping .recover
    tokens).recognizer.simulation overlappingSetting 0) rfl Interpreter.floor_atOverlapping _ _
      (by subst htokens; cbv) (by subst htokens; cbv) (by subst htokens; cbv)] at hpredict
  obtain ⟨cache, hrecognizer⟩ := Interpreter.predict_atOverlapping hpredict
  have hsync : Parser.sync (overlappingSetting.inMode .ll) (atOverlapping .recover tokens).parser =
      (.ok (), (atOverlapping .recover tokens).parser) := by
    subst htokens
    cbv
  have hchoose := @Interpreter.chooseEdge_of_predict (overlappingSetting.inMode .ll) 0
    (overlappingNetwork.state 14) _ _ _ _ rfl (by decide) hsync hrecognizer
  have hrest : (Interpreter.runFor (overlappingSetting.inMode .ll) 0 0 19
      (atOverlapping .recover tokens)).map (fun p => (p.1, p.2.recognizer.errors.size)) =
        some (.ok 0, 1) := by
    rw [Interpreter.runFor]
    unfold Interpreter.step
    rw [show (atOverlapping .recover tokens).recognizer.state = some 14 from rfl]
    dsimp only
    rw [if_neg (by decide)]
    unfold Interpreter.visit Interpreter.run
    rw [show (overlappingSetting.inMode .ll).network.state 14 = overlappingNetwork.state 14 from rfl,
      hchoose]
    subst htokens
    cbv
  rw [Interpreter.parse_overlapping]
  exact Interpreter.exists_of_map hrest

end AdaptiveParsing
