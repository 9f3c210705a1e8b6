import AdaptiveParsing.Proofs.Lookahead.Coverage
import AdaptiveParsing.Proofs.Lookahead.Settling
import AdaptiveParsing.Proofs.Network.Following
/-!
What a verdict says of the first token. The configurations lookahead starts with are where ways without a
token lead, or have left the rule, which can end then. So if lookahead comes to an alternative, the first
token is among the types that can come next, or the empty word is. Main statement:
`Simulation.next_of_predict`.
-/

namespace AdaptiveParsing

open Automaton

namespace ConfigSet

/-- An alternative that came to the end of its rule did so somewhere. -/
theorem listed_of_finishedAlt? {s : ConfigSet} {n : Network} {alt : Nat}
    (h : s.finishedAlt? n = some alt) :
    ∃ k, Listed s.entries k alt ∧ (k.hasLeft = true ∨ (n.state k.state).isRuleStop = true) := by
  have hmem := List.min?_mem h
  obtain ⟨⟨k, alts⟩, he, hm⟩ := List.mem_filterMap.1 hmem
  obtain ⟨hin, hk⟩ := List.mem_filter.1 he
  exact ⟨k, ⟨alts, hin, (AltSet.min?_eq_some hm).1⟩, by simpa using hk⟩

theorem exists_listed {s : ConfigSet} (ho : Ordered s.entries) (h : s.isEmpty = false) :
    ∃ k alt, Listed s.entries k alt := by
  cases hs : s.entries with
  | nil => simp [isEmpty, hs] at h
  | cons e es =>
    obtain ⟨alt, ha⟩ := ho.2 e (by simp [hs])
    exact ⟨e.1, alt, e.2, .head _, ha⟩

end ConfigSet

open ConfigSet

namespace Simulation

variable {sim : Simulation} {d : DecisionId} {c c' : Config} {t : Transition} {a : StateId}
  {k : ConfigKey} {alt : Nat} {seeds next : List Config} {levels : RuleId → Int → Prop}

/-- The configuration is where a way from `a` leads without a token, unless it has left the rule, which
can end then. -/
def Drifted (n : Network) (a : StateId) (k : ConfigKey) : Prop :=
  n.Exits a [] ∨ k.placement = .inside ∧ n.Drifts a [] k.state (k.stack.map Frame.returnState)

theorem Drifted.follow (h : Drifted sim.network a c.key)
    (ht : t ∈ (sim.network.state c.key.state).transitions) (hf : sim.follow? c t = some c') :
    Drifted sim.network a c'.key := by
  rcases h with he | ⟨hp, hdrifts⟩
  · exact .inl he
  refine .inr ?_
  unfold follow? at hf
  cases hk : t.kind with
  | epsilon | action _ _ =>
    simp only [hk, Option.some.injEq] at hf
    subst hf
    exact ⟨hp, hdrifts.free ht (by simp [Transition.call?, hk])
      (by simp [Transition.isConsuming, EdgeKind.isConsuming, hk])⟩
  | rule r follow precedence =>
    simp only [hk, Option.some.injEq] at hf
    subst hf
    exact ⟨hp, hdrifts.call ht hk⟩
  | precedence level =>
    simp only [hk] at hf
    split at hf
    · cases hf
      exact ⟨hp, hdrifts.free ht (by simp [Transition.call?, hk])
        (by simp [Transition.isConsuming, EdgeKind.isConsuming, hk])⟩
    · cases hf
  | predicate r index dependent =>
    have hmoved : c' = { c with key := c.key.moveTo t.target } := by
      simp only [hk] at hf
      split_ifs at hf <;> cases hf <;> rfl
    subst hmoved
    exact ⟨hp, hdrifts.free ht (by simp [Transition.call?, hk])
      (by simp [Transition.isConsuming, EdgeKind.isConsuming, hk])⟩
  | atom _ | range _ _ | set _ | notSet _ | wildcard => simp [hk] at hf

/-- A configuration at the end of a rule that returns nowhere has left, and the rule can end. -/
theorem Drifted.exits (h : Drifted sim.network a k)
    (hstop : (sim.network.state k.state).isRuleStop = true) (hs : k.stack = []) :
    sim.network.Exits a [] := by
  rcases h with he | ⟨-, hdrifts⟩
  · exact he
  · rw [hs] at hdrifts
    exact ⟨k.state, hdrifts, hstop⟩

theorem Drifted.expand (h : Drifted sim.network a c.key) (he : sim.expand false c = .inl next)
    (hc : c' ∈ next) : Drifted sim.network a c'.key := by
  unfold Simulation.expand at he
  dsimp only at he
  cases hstop : (sim.network.state c.key.state).isRuleStop with
  | true =>
    rw [if_pos hstop] at he
    unfold leave at he
    cases hs : c.key.stack with
    | nil => exact .inl (h.exits hstop hs)
    | cons f stack =>
      rw [hs] at he
      cases he
      cases List.mem_singleton.1 hc
      rcases h with hexits | ⟨hp, hdrifts⟩
      · exact .inl hexits
      · rw [hs, List.map_cons] at hdrifts
        exact .inr ⟨hp, hdrifts.back hstop⟩
  | false =>
    rw [if_neg (by simp [hstop])] at he
    split at he
    · cases he
    · cases he
      obtain ⟨t, ht, hf⟩ := List.mem_filterMap.1 hc
      exact h.follow ht hf

theorem Drifted.expands (hseeds : ∀ c ∈ seeds, Drifted sim.network a c.key)
    (h : sim.Expands false seeds c) : Drifted sim.network a c.key := by
  induction h with
  | seed hc => exact hseeds _ hc
  | step _ he hd ih => exact ih.expand he hd

/-- A configuration that waits for a token is where a way leads, unless the rule can end. -/
theorem Drifted.rest (h : Drifted sim.network a c.key) (he : sim.expand false c = .inr c') :
    sim.network.Exits a [] ∨ c'.key.placement = .inside ∧
      (sim.network.state c'.key.state).isRuleStop = false ∧
      sim.network.Drifts a [] c'.key.state (c'.key.stack.map Frame.returnState) := by
  unfold Simulation.expand at he
  dsimp only at he
  cases hstop : (sim.network.state c.key.state).isRuleStop with
  | true =>
    rw [if_pos hstop] at he
    unfold leave at he
    cases hs : c.key.stack with
    | nil => exact .inl (h.exits hstop hs)
    | cons f stack =>
      rw [hs] at he
      cases he
  | false =>
    rw [if_neg (by simp [hstop])] at he
    split at he
    · cases he
      exact h.imp_right fun ⟨hp, hdrifts⟩ => ⟨hp, hstop, hdrifts⟩
    · cases he

/-- What a decision starts with comes from its seeds. -/
theorem expands_of_startSet (h : Listed (sim.startSet false d).entries k alt) :
    ∃ c, sim.Expands false (sim.startSeeds d) c ∧ sim.expand false c = .inr ⟨k, alt⟩ := by
  have hstart : Listed (sim.startClosure false d).entries k alt := by
    rw [startSet_eq_startClosure] at h
    split at h
    · exact (listed_filterPrecedence.1 h).1
    · exact h
  have hfound := listed_ofList.1 hstart
  exact (explores_start.run _).found _ hfound

/-- The configurations a decision starts with wait where some way from its state leads, unless the rule
can end. -/
theorem drifts_startSet (h : Listed (sim.startSet false d).entries k alt) :
    sim.network.Exits (sim.network.decisionState d) [] ∨ k.placement = .inside ∧
      (sim.network.state k.state).isRuleStop = false ∧
      sim.network.Drifts (sim.network.decisionState d) [] k.state (k.stack.map Frame.returnState) := by
  obtain ⟨c, hexp, he⟩ := expands_of_startSet h
  have hseeds : ∀ c ∈ sim.startSeeds d, Drifted sim.network (sim.network.decisionState d) c.key := by
    intro c hcs
    obtain ⟨⟨t, i⟩, hti, hf⟩ := List.mem_filterMap.1 hcs
    have ht : t ∈ (sim.network.state (sim.network.decisionState d)).transitions :=
      (List.mem_zipIdx hti).2.2 ▸ List.getElem_mem _
    have hbegin : Drifted sim.network (sim.network.decisionState d) (sim.startKey d) :=
      .inr ⟨rfl, .refl⟩
    exact hbegin.follow (c := ⟨sim.startKey d, i + 1⟩) ht hf
  exact (Drifted.expands hseeds hexp).rest he

theorem mem_taken {set : ConfigSet} {token : TokenType} (h : c ∈ sim.taken set token) :
    ∃ k, Listed set.entries k c.alt ∧ ∃ t ∈ (sim.network.state k.state).transitions,
      sim.network.Matches t.kind token := by
  obtain ⟨c₀, hc₀, hc⟩ := List.mem_flatMap.1 h
  dsimp only at hc
  split at hc
  · cases hc
  · obtain ⟨t, ht, rfl⟩ := List.mem_map.1 hc
    obtain ⟨ht, hm⟩ := List.mem_filter.1 ht
    exact ⟨c₀.key, mem_toList.1 hc₀, t, ht, by simpa using hm⟩

/-- Where a token leads anywhere, some configuration takes it, or it is the end of input and some
configuration is at the end of a rule. -/
theorem exists_of_reach {set : ConfigSet} {token : TokenType}
    (h : (sim.reach false set token).isEmpty = false) :
    ∃ k alt, Listed set.entries k alt ∧
      ((∃ t ∈ (sim.network.state k.state).transitions, sim.network.Matches t.kind token) ∨
        (sim.network.state k.state).isRuleStop = true) := by
  cases htaken : sim.taken set token with
  | cons c rest =>
    have hc : c ∈ sim.taken set token := by
      rw [htaken]
      exact .head _
    obtain ⟨k, hk, ht⟩ := mem_taken hc
    exact ⟨k, c.alt, hk, .inl ht⟩
  | nil =>
    -- nothing was taken, so what is reached was at the end of a rule before
    obtain ⟨k, alt, hlisted⟩ := exists_listed (ordered_reach set token) h
    obtain ⟨hfound, hpred⟩ := @closure_nil sim false set.predicated
    have hend : Listed (ofList (sim.atEnd set token) set.predicated).entries k alt := by
      unfold reach at hlisted
      dsimp only at hlisted
      rw [htaken, hfound, hpred, List.nil_append] at hlisted
      split at hlisted
      · exact (listed_filterStates.1 hlisted).1
      · exact hlisted
    have hmem := listed_ofList.1 hend
    unfold atEnd at hmem
    split at hmem
    · obtain ⟨hl, hs⟩ := List.mem_filter.1 hmem
      exact ⟨k, alt, mem_toList.1 hl, .inr hs⟩
    · cases hmem

/-- If lookahead comes to an alternative, the first token can come next where the decision is made, or
the rule can end there; types below the empty word are in no table. -/
theorem next_of_predict {floors : Int → Prop} {a : Automaton} {mode : PredictionMode}
    {input : TokenCursor} (hs : sim.network.Shaped levels) (hc : sim.network.Checked)
    (hf : floors sim.floor) (ha : Recorded sim.network d floors a)
    (hkind : TokenType.epsilon ≤ input.kind)
    (h : (sim.predict d mode a input).1 = .alternative alt) :
    input.kind ∈ sim.network.following (sim.network.decisionState d) none ∨
      TokenType.epsilon ∈ sim.network.following (sim.network.decisionState d) none := by
  rw [Network.mem_following_iff hs hc (by simp), Network.mem_following_iff hs hc (by simp)]
  unfold predict at h
  obtain ⟨hr, -, hready, hset⟩ := startState_spec (d := d) hf ha
  generalize sim.startState d a = start at h hr hready hset
  obtain ⟨s, a₁⟩ := start
  dsimp only at h hr hready hset
  have hfinds := (target_spec (t := input.kind) hr hready).2.2
  rw [hset] at hfinds
  unfold predictFrom at h
  generalize sim.target a₁ s input.kind = target at h hfinds
  obtain ⟨_ | s', a₂⟩ := target
  · -- no alternative takes the token, so one had come to its end
    dsimp only at h
    unfold deadEnd at h
    split at h
    · rename_i hfin
      rw [hset] at hfin
      obtain ⟨k, hk, hend⟩ := listed_of_finishedAlt? hfin
      rcases drifts_startSet hk with hexits | ⟨hp, hstop, -⟩
      · exact .inr (.inr ⟨rfl, hexits⟩)
      · simp [ConfigKey.hasLeft, hp, hstop] at hend
    · cases h
  · obtain ⟨-, hreach, hne, -⟩ := hfinds
    rw [hreach] at hne
    obtain ⟨k, alt', hk, htake⟩ := exists_of_reach hne
    rcases drifts_startSet hk with hexits | ⟨-, hstop, hdrifts⟩
    · exact .inr (.inr ⟨rfl, hexits⟩)
    · rcases htake with ⟨t, ht, hm⟩ | hend
      · obtain ⟨types, hl, hx⟩ := Network.label?_of_matches hm hkind
        exact .inl (.inl ⟨_, _, hdrifts, t, ht, types, hl, hx⟩)
      · rw [hstop] at hend
        cases hend

end Simulation

end AdaptiveParsing
