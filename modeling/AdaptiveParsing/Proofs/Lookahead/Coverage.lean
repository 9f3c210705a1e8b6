import AdaptiveParsing.Proofs.Lookahead.Bound
import AdaptiveParsing.Proofs.Lookahead.Settling
import AdaptiveParsing.Proofs.Lookahead.Walks
/-!
Lookahead misses no way through the network. If single configurations keep up with places
(`Simulation.Shadows`), then the sets of lookahead keep up with all ways: wherever a way waits for its
next token or has ended there is a configuration of its alternative (`Simulation.Covers`). Main
statements: this holds at the start (`Shadows.covers_start`), and past every token
(`Shadows.covers_reach`).
-/

namespace AdaptiveParsing

namespace ConfigSet

theorem listed_ofList {cs : List Config} {p : Bool} {k : ConfigKey} {alt : Nat} :
    Listed (ofList cs p).entries k alt ↔ ⟨k, alt⟩ ∈ cs := by
  rw [ofList, listed_gather, mem_sortByKey]

theorem mem_toList_ofList {cs : List Config} {p : Bool} {c : Config} :
    c ∈ (ofList cs p).toList ↔ c ∈ cs := by
  rw [mem_toList, listed_ofList]

theorem listed_filterStates {s : ConfigSet} {keep : StateId → Bool} {k : ConfigKey} {alt : Nat} :
    Listed (s.filterStates keep).entries k alt ↔ Listed s.entries k alt ∧ keep k.state = true := by
  simp only [Listed, filterStates, List.mem_filter]
  constructor
  · rintro ⟨alts, ⟨h, hk⟩, ha⟩
    exact ⟨⟨alts, h, ha⟩, hk⟩
  · rintro ⟨⟨alts, h, ha⟩, hk⟩
    exact ⟨alts, ⟨h, hk⟩, ha⟩

theorem firstAltAt_iff {s : ConfigSet} {state : StateId} {stack : List Frame} :
    s.firstAltAt state stack = true ↔
      ∃ k, Listed s.entries k 1 ∧ k.state = state ∧ k.stack = stack := by
  rw [firstAltAt, List.any_eq_true]
  constructor
  · rintro ⟨e, he, h⟩
    simp only [Bool.and_eq_true, beq_iff_eq] at h
    exact ⟨e.1, ⟨e.2, he, h.1.2⟩, h.1.1, h.2⟩
  · rintro ⟨k, ⟨alts, he, hone⟩, rfl, rfl⟩
    refine ⟨(k, alts), he, ?_⟩
    simp only [beq_self_eq_true, Bool.true_and, Bool.and_true]
    exact hone

/-- The filter for loops of operators keeps another round, and of leaving the loop what goes to an outermost
caller or where no other round comes to. -/
theorem listed_filterPrecedence {s : ConfigSet} {k : ConfigKey} {alt : Nat} :
    Listed s.filterPrecedence.entries k alt ↔ Listed s.entries k alt ∧
      (alt = 1 ∨ k.placement = .outermostFollow ∨ s.firstAltAt k.state k.stack = false) := by
  constructor
  · rintro ⟨alts, hfilter, ha⟩
    obtain ⟨⟨l, more⟩, hm, hk⟩ := List.mem_filterMap.1 hfilter
    dsimp only at hk
    split at hk
    · split at hk
      · rename_i hone
        cases hk
        obtain rfl := AltSet.mem_singleton.1 ha
        exact ⟨⟨more, hm, hone⟩, .inl rfl⟩
      · cases hk
    · rename_i hkeep
      cases hk
      refine ⟨⟨alts, hm, ha⟩, .inr ?_⟩
      rw [Bool.and_eq_true, not_and_or] at hkeep
      exact hkeep.imp (by simp) (by simp)
  · rintro ⟨⟨alts, hm, ha⟩, hkeep⟩
    by_cases hf : (k.placement != .outermostFollow && s.firstAltAt k.state k.stack) = true
    · obtain rfl : alt = 1 := by
        simp only [Bool.and_eq_true, bne_iff_ne] at hf
        rcases hkeep with h | h | h
        · exact h
        · exact absurd h hf.1
        · rw [hf.2] at h
          cases h
      refine ⟨.singleton 1, List.mem_filterMap.2 ⟨_, hm, ?_⟩, by simp⟩
      have hone : alts.contains 1 = true := ha
      dsimp only
      rw [if_pos hf, if_pos hone]
    · refine ⟨alts, List.mem_filterMap.2 ⟨_, hm, ?_⟩, ha⟩
      dsimp only
      rw [if_neg hf]

theorem isEmpty_of_listed {s : ConfigSet} {k : ConfigKey} {alt : Nat} (h : Listed s.entries k alt) :
    s.isEmpty = false := by
  obtain ⟨alts, hk, -⟩ := h
  unfold isEmpty
  cases he : s.entries with
  | nil =>
    rw [he] at hk
    cases hk
  | cons e es => rfl

end ConfigSet

/-- The least of a set is in it, and is at most any other. -/
theorem AltSet.min?_eq_some {alts : AltSet} {a : Nat} (h : alts.min? = some a) :
    a ∈ alts ∧ ∀ b ∈ alts, a ≤ b := by
  have hasc := alts.ascending
  unfold AltSet.min? at h
  simp only [AltSet.mem_iff]
  cases hl : alts.toList with
  | nil =>
    rw [hl] at h
    cases h
  | cons b l =>
    rw [hl] at h hasc
    obtain rfl := Option.some.inj h
    refine ⟨.head _, ?_⟩
    intro c hc
    rcases List.mem_cons.1 hc with rfl | hc
    · exact Nat.le_refl _
    · exact Nat.le_of_lt ((List.pairwise_cons.1 hasc).1 c hc)

namespace Network

variable (n : Network)

/-- A way that began at one of the places of an alternative has come here with this word. -/
def Reached (S : Nat → Place → Prop) (v : List TokenType) (alt : Nat) (p : Place) : Prop :=
  ∃ p₀, S alt p₀ ∧ n.Reads p₀ v p

/-- The place is past an edge that leaves `p`: the edges are the alternatives, numbered from one. -/
def Begins (p : Place) (alt : Nat) (q : Place) : Prop :=
  ∃ i t, (n.state p.state).transitions[i]? = some t ∧ alt = i + 1 ∧ p.follow? t = some q

/-- The places that a token leads to. -/
def After (P : Nat → Place → Prop) (token : TokenType) (alt : Nat) (q : Place) : Prop :=
  ∃ p, P alt p ∧ ∃ t ∈ (n.state p.state).transitions, n.Matches t.kind token ∧
    q = { p with state := t.target }

/-- Some edge here takes a token. -/
def Waits (p : Place) : Prop := ∃ t ∈ (n.state p.state).transitions, t.isConsuming = true

variable {n : Network} {S : Nat → Place → Prop} {v w : List TokenType} {alt : Nat} {p q : Place}

theorem Reached.trans (h : n.Reached S v alt p) (hr : n.Reads p w q) : n.Reached S (v ++ w) alt q := by
  obtain ⟨p₀, hp, h⟩ := h
  exact ⟨p₀, hp, h.trans hr⟩

theorem follow?_of_isConsuming {t : Transition} (h : t.isConsuming = true) (p : Place) :
    p.follow? t = none := by
  unfold Transition.isConsuming EdgeKind.isConsuming at h
  unfold Place.follow?
  cases hk : t.kind <;> simp_all

theorem isConsuming_of_matches {k : EdgeKind} {token : TokenType} (h : n.Matches k token) :
    k.isConsuming = true := by
  cases k <;> first | rfl | cases h

theorem call?_of_matches {t : Transition} {token : TokenType} (h : n.Matches t.kind token) :
    t.call? = none := by
  unfold Transition.call?
  cases hk : t.kind with
  | rule _ _ _ =>
    rw [hk] at h
    cases h
  | _ => rfl

/-- A way that goes on with a token waits for it first. -/
theorem Reads.waits {token : TokenType} (h : n.Reads p (token :: w) q) :
    ∃ p', n.Waits p' ∧ n.Reads p [] p' ∧ ∃ t ∈ (n.state p'.state).transitions,
      n.Matches t.kind token ∧ n.Reads { p' with state := t.target } w q := by
  obtain ⟨p', t, ht, hm, hp, hr⟩ := h.cons_inv
  exact ⟨p', ⟨t, ht, isConsuming_of_matches hm⟩, hp, t, ht, hm, hr⟩

/-- Of an alternative that takes a token, some way waits for what comes after it. -/
theorem Reached.waits {token : TokenType} (h : n.Reached S (v ++ token :: w) alt p) :
    ∃ q, n.Waits q ∧ n.Reached S v alt q ∧ ∃ t ∈ (n.state q.state).transitions,
      n.Matches t.kind token ∧ n.Reads { q with state := t.target } w p := by
  obtain ⟨p₀, hS, hr⟩ := h
  obtain ⟨p₁, hr₁, hr₂⟩ := hr.split
  obtain ⟨q, hw, hq, t, ht, hm, hr₃⟩ := hr₂.waits
  refine ⟨q, hw, ⟨p₀, hS, ?_⟩, t, ht, hm, hr₃⟩
  have := hr₁.trans hq
  rwa [List.append_nil] at this

/-- To take one more token is to wait for it, take it, and go on. -/
theorem reached_after {token : TokenType} :
    n.Reached (n.After (n.Reached S v) token) [] alt p ↔ n.Reached S (v ++ [token]) alt p := by
  constructor
  · rintro ⟨q, ⟨p₁, ⟨p₀, hS, hr₀⟩, t, ht, hm, rfl⟩, hr⟩
    refine ⟨p₀, hS, ?_⟩
    have := (hr₀.trans (.single (.take ht hm))).trans hr
    rwa [List.append_nil] at this
  · intro h
    obtain ⟨q, -, hq, t, ht, hm, hr⟩ := h.waits
    exact ⟨_, ⟨q, hq, t, ht, hm, rfl⟩, hr⟩

/-- A state that waits has one edge, which takes a token. -/
theorem Checked.isConsuming_iff (hn : n.Checked) {s : StateId} :
    (n.state s).isConsuming = true ↔ ∃ t, (n.state s).transitions = [t] ∧ t.isConsuming = true := by
  unfold NetworkState.isConsuming
  constructor
  · intro h
    cases hl : (n.state s).transitions with
    | nil => simp [hl] at h
    | cons t rest =>
      have ht : t.isConsuming = true := by simpa [hl] using h
      have := hn.single s t (by simp [hl]) ht
      rw [hl] at this
      exact ⟨t, this, ht⟩
  · rintro ⟨t, hl, ht⟩
    simp [hl, ht]

end Network

namespace Simulation

open ConfigSet

section

variable (sim : Simulation) (full : Bool) (R : ConfigKey → Place → Prop)

/-- What a place does, the configurations that `R` puts there can do. -/
structure Shadows : Prop where
  state : ∀ {k p}, R k p → p.state = k.state
  follow : ∀ {c : Config} {p q t}, R c.key p → t ∈ (sim.network.state p.state).transitions →
    p.follow? t = some q → ∃ d, sim.follow? c t = some d ∧ d.alt = c.alt ∧ R d.key q
  back : ∀ {c : Config} {p f outer}, R c.key p → (sim.network.state p.state).isRuleStop = true →
    p.returns = f :: outer → ∃ next d, sim.expand full c = .inl next ∧ d ∈ next ∧ d.alt = c.alt ∧
      R d.key (.back f outer)
  ends : ∀ {c : Config} {p}, R c.key p → sim.network.Ends p →
    ∃ d, sim.expand full c = .inr d ∧ d.alt = c.alt ∧ R d.key p
  take : ∀ {k p t}, R k p → t ∈ (sim.network.state p.state).transitions → t.isConsuming = true →
    R (k.moveTo t.target) { p with state := t.target }

/-- Where a way waits or has ended, the set has a configuration of its alternative. -/
def Covers (set : ConfigSet) (P : Nat → Place → Prop) : Prop :=
  ∀ alt p, P alt p → sim.network.Waits p ∨ sim.network.Ends p →
    ∃ k, Listed set.entries k alt ∧ R k p

end

variable {sim : Simulation} {full : Bool} {R : ConfigKey → Place → Prop} {p q : Place} {c : Config}
  {seeds : List Config} {set : ConfigSet} {alt : Nat} {S : Nat → Place → Prop}
  {v : List TokenType} {levels : RuleId → Int → Prop} {token : TokenType}

/-- A step of the place is a step of the closure. -/
theorem Shadows.step (hR : sim.Shadows full R) (hn : sim.network.Checked) (h : R c.key p)
    (hs : sim.network.Step p [] q) :
    ∃ next d, sim.expand full c = .inl next ∧ d ∈ next ∧ d.alt = c.alt ∧ R d.key q := by
  cases hs with
  | @free _ t ht hfollow =>
    obtain ⟨d, hd, halt, hq⟩ := hR.follow h ht hfollow
    rw [hR.state h] at ht
    have hcons : (sim.network.state c.key.state).isConsuming = false := by
      by_contra hne
      obtain ⟨u, hu, hk⟩ := hn.isConsuming_iff.1 (by simpa using hne)
      rw [hu, List.mem_singleton] at ht
      subst ht
      rw [Network.follow?_of_isConsuming hk] at hfollow
      cases hfollow
    refine ⟨_, d, ?_, List.mem_filterMap.2 ⟨t, ht, hd⟩, halt, hq⟩
    unfold expand
    rw [if_neg (by simp [hn.not_stop ht]), if_neg (by simp [hcons])]
  | back hstop hr => exact hR.back h hstop hr

/-- Where the place waits or has ended, the closure finds the configuration. -/
theorem Shadows.rest (hR : sim.Shadows full R) (hn : sim.network.Checked) (h : R c.key p)
    (hrest : sim.network.Waits p ∨ sim.network.Ends p) :
    ∃ d, sim.expand full c = .inr d ∧ d.alt = c.alt ∧ R d.key p := by
  rcases hrest with ⟨t, ht, hk⟩ | hend
  · rw [hR.state h] at ht
    refine ⟨c, ?_, rfl, h⟩
    unfold expand
    rw [if_neg (by simp [hn.not_stop ht]), if_pos]
    exact hn.isConsuming_iff.2 ⟨t, hn.single _ t ht hk, hk⟩
  · exact hR.ends h hend

section

variable (hR : sim.Shadows full R) (hn : sim.network.Checked) (hshape : sim.network.Shaped levels)

include hR hn hshape

/-- A closure covers the ways that begin at its seeds, as far as they take no token. -/
theorem Shadows.covers_closure (asked predicated : Bool)
    (hseeds : ∀ alt p, S alt p → ∃ c ∈ seeds, c.alt = alt ∧ R c.key p) :
    sim.Covers R (.ofList (sim.closure full seeds asked).found predicated)
      (sim.network.Reached S []) := by
  have hpending : (sim.closure full seeds asked).pending = [] := pending_closure_nil hshape hn asked
  rintro alt p ⟨p₀, hS, hr⟩ hrest
  obtain ⟨c₀, hc₀, rfl, h₀⟩ := hseeds alt p₀ hS
  have hplace : ∃ c, sim.Expands full seeds c ∧ c.alt = c₀.alt ∧ R c.key p := by
    generalize hv : ([] : List TokenType) = v at hr
    clear hrest
    induction hr with
    | refl => exact ⟨c₀, .seed hc₀, rfl, h₀⟩
    | step _ hs ih =>
      obtain ⟨rfl, rfl⟩ := List.append_eq_nil_iff.1 hv.symm
      obtain ⟨c, hc, halt, hp⟩ := ih rfl
      obtain ⟨next, d, he, hd, halt', hq⟩ := hR.step hn hp hs
      exact ⟨d, .step hc he hd, halt'.trans halt, hq⟩
  obtain ⟨c, hc, halt, hp⟩ := hplace
  obtain ⟨d, he, halt', hs⟩ := hR.rest hn hp hrest
  refine ⟨d.key, ?_, hs⟩
  rw [listed_ofList, mem_found_closure hpending, ← halt, ← halt']
  exact ⟨c, hc, he⟩

theorem Shadows.covers_taken (asked predicated : Bool)
    (h : sim.Covers R set (sim.network.Reached S v)) (token : TokenType) :
    sim.Covers R (.ofList (sim.closure full (sim.taken set token) asked).found predicated)
      (sim.network.Reached S (v ++ [token])) := by
  intro alt p hP hrest
  refine hR.covers_closure (S := sim.network.After (sim.network.Reached S v) token) hn hshape asked
    predicated ?_ alt p (Network.reached_after.2 hP) hrest
  clear hP hrest
  rintro alt q ⟨p, hP, t, ht, hm, rfl⟩
  have hcons : t.isConsuming = true := Network.isConsuming_of_matches hm
  obtain ⟨k, hk, hp⟩ := h alt p hP (.inl ⟨t, ht, hcons⟩)
  refine ⟨⟨k.moveTo t.target, alt⟩, ?_, rfl, hR.take hp ht hcons⟩
  refine List.mem_flatMap.2 ⟨⟨k, alt⟩, ConfigSet.mem_toList.2 hk, ?_⟩
  rw [hR.state hp] at ht
  dsimp only
  rw [if_neg (by simp [hn.not_stop ht])]
  exact List.mem_map.2 ⟨t, List.mem_filter.2 ⟨ht, by simpa using hm⟩, rfl⟩

/-- What a token leads to covers the ways that take it. -/
theorem Shadows.covers_reach (h : sim.Covers R set (sim.network.Reached S v))
    (ht : token ≠ TokenType.eof) :
    sim.Covers R (sim.reach full set token) (sim.network.Reached S (v ++ [token])) := by
  rw [reach_of_ne_eof ht]
  exact hR.covers_taken hn hshape _ _ h token

/-- What has come to the end with the end of input stays. -/
theorem Shadows.covers_reach_eof (h : sim.Covers R set (sim.network.Reached S v))
    (hp : sim.network.Reached S (v ++ [TokenType.eof]) alt p) (hend : sim.network.Ends p) :
    ∃ k, Listed (sim.reach full set TokenType.eof).entries k alt ∧ R k p := by
  have htaken := hR.covers_taken hn hshape set.predicated set.predicated h TokenType.eof
  obtain ⟨k, hl, hs⟩ := htaken alt p hp (.inr hend)
  refine ⟨k, ?_, hs⟩
  unfold reach
  dsimp only
  rw [if_pos rfl, listed_filterStates, listed_ofList, List.mem_append]
  rw [listed_ofList] at hl
  refine ⟨.inl hl, ?_⟩
  rw [← hR.state hs]
  exact hend.2

/-- An alternative that leads to the end of input is still there past the next token. -/
theorem Shadows.listed_reach {w : List TokenType} (h : sim.Covers R set (sim.network.Reached S v))
    (hw : if token = TokenType.eof then w = [] else w ≠ [])
    (hp : sim.network.Reached S (v ++ token :: w) alt p) (hend : sim.network.Ends p) :
    ∃ k, Listed (sim.reach full set token).entries k alt := by
  by_cases ht : token = TokenType.eof
  · rw [if_pos ht] at hw
    subst ht hw
    obtain ⟨k, hk, -⟩ := hR.covers_reach_eof hn hshape h hp hend
    exact ⟨k, hk⟩
  · rw [if_neg ht] at hw
    obtain ⟨next, w, rfl⟩ := List.exists_cons_of_ne_nil hw
    rw [List.append_cons] at hp
    obtain ⟨q, hwait, hq, -⟩ := hp.waits
    obtain ⟨k, hk, -⟩ := hR.covers_reach hn hshape h ht alt q hq (.inl hwait)
    exact ⟨k, hk⟩

/-- A decision begins with the places past its edges. -/
theorem Shadows.covers_start (d : DecisionId) (h : R (sim.startKey d) p) :
    sim.Covers R (sim.startClosure full d)
      (sim.network.Reached (sim.network.Begins p) []) := by
  refine hR.covers_closure hn hshape _ _ ?_
  rintro alt q ⟨i, t, hi, rfl, hq⟩
  obtain ⟨d', hd, halt, hs⟩ := hR.follow (c := ⟨sim.startKey d, i + 1⟩) h (List.mem_of_getElem? hi) hq
  rw [hR.state h] at hi
  exact ⟨d', List.mem_filterMap.2 ⟨(t, i), List.mem_zipIdx_iff_getElem?.2 hi, hd⟩, halt, hs⟩

end

end Simulation

end AdaptiveParsing
