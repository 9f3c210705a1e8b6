import AdaptiveParsing.Proofs.Lookahead.FirstToken
import AdaptiveParsing.Proofs.Lookahead.Store
import AdaptiveParsing.Proofs.Recognition.Turns
/-!
What a parse knows from lookahead. Its cache holds what predictions have found out, those of the parse
and those before it (`PredictionCache.Earned`), so a decision that comes to an alternative says of the
next token what lookahead says of it. Main statements: `Recognizer.next_of_decided` and
`Interpreter.earned_turns`.
-/

namespace AdaptiveParsing

open AdaptiveParsing.Parser

/-- What predictions in the network, and clearing, make of empty automata. -/
def PredictionCache.Earned (n : Network) (c : PredictionCache) : Prop :=
  ∀ d a, c.get? d = some a → Automaton.History n d (fun _ => True) a

theorem PredictionCache.earned_ofNetwork (n : Network) : (ofNetwork n).Earned n := by
  intro d a h
  exact get?_ofNetwork h ▸ .empty

theorem PredictionCache.Earned.set {n : Network} {c : PredictionCache} (h : c.Earned n)
    {d : DecisionId} {a : Automaton} (ha : Automaton.History n d (fun _ => True) a) :
    (c.set d a).Earned n := by
  intro e b hb
  obtain ⟨rfl, rfl⟩ | hb := get?_set hb
  · exact ha
  · exact h e b hb

variable {env : Setting} {r : Recognizer} {d : DecisionId}

/-- A decision changes its automaton, if it has one, by lookahead. -/
theorem Recognizer.cache_predict (r : Recognizer) (d : DecisionId) :
    (r.predict env d).2.cache = r.cache ∨ ∃ a, r.cache.get? d = some a ∧
      (r.predict env d).2.cache = r.cache.set d
        ((r.simulation env d).predict d env.config.mode a r.input.mark.2).2.1 := by
  unfold predict
  cases ha : r.cache.get? d with
  | none => exact .inl rfl
  | some a =>
    refine .inr ⟨a, rfl, ?_⟩
    dsimp only
    split <;> rfl

/-- A decision comes to the alternative that lookahead finds. -/
theorem Recognizer.alternative_of_predict {alt : Nat} (h : (r.predict env d).1 = .ok alt) :
    ∃ a, r.cache.get? d = some a ∧
      ((r.simulation env d).predict d env.config.mode a r.input.mark.2).1 = .alternative alt := by
  unfold predict at h
  cases ha : r.cache.get? d with
  | none =>
    rw [ha] at h
    cases h
  | some a =>
    rw [ha] at h
    refine ⟨a, rfl, ?_⟩
    unfold TokenCursor.speculate at h
    dsimp only at h
    generalize (r.simulation env d).predict d env.config.mode a r.input.mark.2 = result at h ⊢
    obtain ⟨p, a', input⟩ := result
    dsimp only at h
    cases p with
    | alternative alt' =>
      cases h
      rfl
    | noViable _ _ => cases h
    | unsettled => cases h

/-- If a decision comes to an alternative, the current token can come next there, or the rule can
end. -/
theorem Recognizer.next_of_predict {levels : RuleId → Int → Prop} (hs : env.network.Shaped levels)
    (hc : env.network.Checked) (hcache : r.cache.Earned env.network)
    (hkind : TokenType.epsilon ≤ r.input.kind) {alt : Nat} (h : (r.predict env d).1 = .ok alt) :
    r.input.kind ∈ env.network.following (env.network.decisionState d) none ∨
      TokenType.epsilon ∈ env.network.following (env.network.decisionState d) none := by
  obtain ⟨a, ha, hp⟩ := alternative_of_predict h
  have hnext := fun hkind =>
    Simulation.next_of_predict hs hc trivial (hcache d a ha).recorded hkind hp
  exact hnext hkind

/-- A first decision for which one token leaves one alternative. -/
theorem Recognizer.predict_of_unique {alt : Nat} (hc : r.cache.get? d = some {})
    (hp : ((r.simulation env d).startSet false d).predicated = false)
    (hu : ((r.simulation env d).reach false ((r.simulation env d).startSet false d)
      r.input.kind).uniqueAlt? = some alt)
    (hne : ((r.simulation env d).reach false ((r.simulation env d).startSet false d)
      r.input.kind).entries ≠ ((r.simulation env d).startSet false d).entries) :
    (r.predict env d).1 = .ok alt := by
  have hpredict := @Simulation.predict_of_unique d (r.simulation env d) env.config.mode
    r.input.mark.2 alt hp hu hne
  unfold predict
  rw [hc]
  unfold TokenCursor.speculate
  dsimp only
  generalize (r.simulation env d).predict d env.config.mode {} r.input.mark.2 = result at hpredict
  obtain ⟨p, a, input⟩ := result
  cases hpredict
  rfl

/-- At a state with a decision the table of next tokens says as much. -/
theorem Recognizer.next_of_decided {g : Grammar} (hg : g.compile = .ok env.grammar)
    (hcache : r.cache.Earned env.network) (hkind : TokenType.epsilon ≤ r.input.kind) {s : StateId}
    (hlen : 1 < (env.network.state s).transitions.length)
    (hd : (env.network.state s).decision = some d) {alt : Nat} (h : (r.predict env d).1 = .ok alt) :
    r.input.kind ∈ env.network.nextTokensAt s ∨
      TokenType.epsilon ∈ env.network.nextTokensAt s := by
  have hchecked : env.network.Checked := Grammar.checked_compile hg
  have hlt : s < env.network.states.size := by
    by_contra hge
    have hstate : env.network.state s = default := by
      unfold Network.state
      rw [Array.getD_eq_getD_getElem?, Array.getElem?_eq_none (Nat.le_of_not_lt hge)]
      rfl
    rw [hstate] at hlen
    cases hlen
  have htable : env.network.nextTokensAt s = env.network.following s none :=
    Grammar.nextTokensAt_compile hg hlt
  have hnext := next_of_predict (Grammar.shaped_compile hg).1 hchecked hcache hkind h
  rwa [hchecked.decision s d hlen hd, ← htable] at hnext

/-- A deed leaves the cache as it is, or it is a decision. -/
theorem Parser.Deed.cache {p p' : Parser} (h : Deed env p p') :
    p'.recognizer.cache = p.recognizer.cache ∨ ∃ d a, p.recognizer.cache.get? d = some a ∧
      p'.recognizer.cache = p.recognizer.cache.set d ((p.recognizer.simulation env d).predict d
        env.config.mode a p.recognizer.input.mark.2).2.1 := by
  cases h with
  | note _ h _ =>
    left
    rw [h]
  | predict d => exact (p.recognizer.cache_predict d).imp_right fun ⟨a, ha⟩ => ⟨d, a, ha⟩
  | consume =>
    left
    show (Recognizer.consume env p.recognizer _).cache = _
    unfold Recognizer.consume
    dsimp only
    split
    · exact (Recognizer.onlyTree_addChild _ _).cache
    · split
      · exact (Recognizer.onlyTree_addChild _ _).cache
      · rfl
  | conjure _ => exact .inl (p.recognizer.onlyTree_addChild _).cache
  | blame e everywhere => exact .inl (p.recognizer.onlyTree_recordError e everywhere).cache
  | report e =>
    left
    unfold reportOnce Recognizer.notify
    split
    · rfl
    · dsimp only
      split <;> rfl

namespace Interpreter

variable {i i' : Interpreter}

/-- What decisions keep of the cache, a parse keeps. -/
theorem cache_turns {P : PredictionCache → Prop}
    (hP : ∀ c d a (sim : Simulation) mode input, P c → c.get? d = some a →
      sim.network = env.network → P (c.set d (sim.predict d mode a input).2.1))
    (h : Turns env i i') (hc : P i.recognizer.cache) : P i'.recognizer.cache := by
  induction h with
  | refl => exact hc
  | tail _ ht ih =>
    rcases ht.deed_or_onlyTree with ⟨p, hd, rfl⟩ | ⟨htree, -⟩
    · rcases hd.cache with hsame | ⟨d, a, ha, hset⟩
      · exact (hsame ▸ ih : P p.recognizer.cache)
      · exact (hset ▸ hP _ d a _ _ _ ih ha rfl : P p.recognizer.cache)
    · exact htree.cache ▸ ih

theorem earned_turns (h : Turns env i i') (hc : i.recognizer.cache.Earned env.network) :
    i'.recognizer.cache.Earned env.network :=
  cache_turns (fun _ d a sim mode input hc ha hn =>
    hc.set (.predict (hc d a ha) sim hn trivial mode input)) h hc

theorem history_turns (h : Turns env i i')
    (hc : PredictionCache.History env.network i.recognizer.cache) :
    PredictionCache.History env.network i'.recognizer.cache :=
  cache_turns (fun _ _ _ sim mode input hc ha hn => hc.predict ha sim hn mode input) h hc

end Interpreter

end AdaptiveParsing
