import AdaptiveParsing.Proofs.Lookahead.ContextFree
import AdaptiveParsing.Proofs.Lookahead.Walks
import AdaptiveParsing.Proofs.Network.Drafting
import AdaptiveParsing.Proofs.Network.Following
/-!
Ways through a network whose edges are under no condition. There the floors of the calls do not matter
(`Network.Reads.refloor`), and a way inside one invocation crosses edge after edge (`Network.Travels`).
Main statements: the words between a state and the end of its rule (`Network.spans_iff`), and the edges and
types that come next after a word (`Network.presents_iff`, `Network.offers_iff`), read from the first edge
on. Before any token they are told by the ways that take none (`Network.exits_iff_spans`,
`Network.meets_iff_offers`).
-/

namespace AdaptiveParsing

namespace Network

variable (n : Network)

/-- No edge of the network is under a condition. -/
def Ungated (n : Network) : Prop :=
  ∀ s ∈ n.states, ∀ t ∈ s.transitions, t.kind.isPredicate = false ∧ t.kind.isPrecedence = false

instance (n : Network) : Decidable n.Ungated := by
  unfold Network.Ungated; infer_instance

/-- What it takes to get past an edge, and where that leads: a free edge takes nothing, a call the word
of the rule it enters. -/
inductive Crosses (t : Transition) : List TokenType → StateId → Prop
  | free (hk : t.kind.isFree = true) : Crosses t [] t.target
  | take {token : TokenType} (hm : n.Matches t.kind token) : Crosses t [token] t.target
  | call {r : RuleId} {follow : StateId} {precedence : Int} {w : List TokenType}
      (hk : t.kind = .rule r follow precedence) (hc : n.Spans t.target 0 w) : Crosses t w follow

/-- Within one invocation a way leads from the first state to the second. -/
inductive Travels : StateId → List TokenType → StateId → Prop
  | refl {a : StateId} : Travels a [] a
  | step {a b s : StateId} {v w : List TokenType} {t : Transition}
      (ht : t ∈ (n.state a).transitions) (hx : n.Crosses t v b) (h : Travels b w s) :
      Travels a (v ++ w) s

/-- From the state, after the word, a token of this type can be taken before the invocation ends. -/
inductive Offers : StateId → List TokenType → TokenType → Prop
  | take {a : StateId} {token : TokenType} {t : Transition} (ht : t ∈ (n.state a).transitions)
      (hm : n.Matches t.kind token) : Offers a [] token
  | enter {a : StateId} {w : List TokenType} {token : TokenType} {t : Transition} {r : RuleId}
      {follow : StateId} {precedence : Int} (ht : t ∈ (n.state a).transitions)
      (hk : t.kind = .rule r follow precedence) (h : Offers t.target w token) : Offers a w token
  | step {a b : StateId} {v w : List TokenType} {token : TokenType} {t : Transition}
      (ht : t ∈ (n.state a).transitions) (hx : n.Crosses t v b) (h : Offers b w token) :
      Offers a (v ++ w) token

/-- After the word the edge comes next from the state, before the invocation ends; `fresh` tells whether it
is in a rule that is called after the word. -/
inductive Presents : StateId → List TokenType → Transition → Bool → Prop
  | here {a : StateId} {t : Transition} (ht : t ∈ (n.state a).transitions) : Presents a [] t false
  | enter {a : StateId} {w : List TokenType} {t u : Transition} {r : RuleId} {follow : StateId}
      {precedence : Int} {fresh : Bool} (ht : t ∈ (n.state a).transitions)
      (hk : t.kind = .rule r follow precedence) (h : Presents t.target w u fresh) :
      Presents a w u (fresh || w.isEmpty)
  | step {a b : StateId} {v w : List TokenType} {t u : Transition} {fresh : Bool}
      (ht : t ∈ (n.state a).transitions) (hx : n.Crosses t v b) (h : Presents b w u fresh) :
      Presents a (v ++ w) u fresh

variable {n : Network} {a b s : StateId} {v w : List TokenType} {t u : Transition} {p p' q : Place}
  {floor : Int} {token : TokenType} {fresh : Bool}

theorem Ungated.predicateFree (hu : n.Ungated) : n.PredicateFree :=
  fun s hs t ht => (hu s hs t ht).1

/-- An edge under no condition is free, a call, or takes a token. -/
theorem Ungated.kind (hu : n.Ungated) (ht : t ∈ (n.state s).transitions) :
    t.kind.isFree = true ∨ t.kind.isConsuming = true ∨
      ∃ r follow precedence, t.kind = .rule r follow precedence := by
  obtain ⟨here, hs, ht⟩ := mem_states_of_edge ht
  obtain ⟨h₁, h₂⟩ := hu here hs t ht
  cases hk : t.kind <;>
    simp_all [EdgeKind.isFree, EdgeKind.isConsuming, EdgeKind.isPredicate, EdgeKind.isPrecedence]

theorem Ungated.not_level (hu : n.Ungated) (ht : t ∈ (n.state s).transitions) (level : Int) :
    t.kind ≠ .precedence level := by
  intro hk
  obtain ⟨here, hs, ht⟩ := mem_states_of_edge ht
  have := (hu here hs t ht).2
  rw [hk] at this
  cases this

/-- A way read from its first step on. -/
theorem Reads.head (h : n.Step p v p') (h' : n.Reads p' w q) : n.Reads p (v ++ w) q :=
  (Reads.single h).trans h'

/-- Places that differ in nothing but their floors. -/
structure Level (p q : Place) : Prop where
  state : q.state = p.state
  returns : q.returns.map Frame.returnState = p.returns.map Frame.returnState

/-- Without levels a step does not look at the floors. -/
theorem Step.refloor (hu : n.Ungated) (h : n.Step p w p') (hl : Level p q) :
    ∃ q', n.Step q w q' ∧ Level p' q' := by
  obtain ⟨state, floor', returns⟩ := q
  obtain ⟨hstate, hreturns⟩ := hl
  dsimp only at hstate hreturns
  subst hstate
  cases h with
  | @free p' t ht hf =>
    unfold Place.follow? at hf
    cases hk : t.kind with
    | epsilon | action _ _ =>
      simp only [hk, Option.some.injEq] at hf
      subst hf
      exact ⟨⟨t.target, floor', returns⟩, .free ht (by simp [Place.follow?, hk]), rfl, hreturns⟩
    | rule r follow precedence =>
      simp only [hk, Option.some.injEq] at hf
      subst hf
      refine ⟨⟨t.target, precedence, ⟨follow, floor'⟩ :: returns⟩,
        .free ht (by simp [Place.follow?, hk]), rfl, ?_⟩
      simp [hreturns]
    | precedence level => exact absurd hk (hu.not_level ht level)
    | atom _ | range _ _ | set _ | notSet _ | wildcard | predicate _ _ _ => simp [hk] at hf
  | @back f outer hs hr =>
    cases returns with
    | nil => simp [hr] at hreturns
    | cons g rest =>
      rw [hr] at hreturns
      obtain ⟨hg, hrest⟩ := List.cons.inj hreturns
      exact ⟨.back g rest, .back hs rfl, hg, hrest⟩
  | @take t _ ht hm => exact ⟨⟨t.target, floor', returns⟩, .take ht hm, rfl, hreturns⟩

theorem Reads.refloor (hu : n.Ungated) (h : n.Reads p w p') (hl : Level p q) :
    ∃ q', n.Reads q w q' ∧ Level p' q' := by
  induction h with
  | refl => exact ⟨q, .refl, hl⟩
  | step _ hs ih =>
    obtain ⟨q₁, hq₁, hl₁⟩ := ih
    obtain ⟨q₂, hq₂, hl₂⟩ := hs.refloor hu hl₁
    exact ⟨q₂, .step hq₁ hq₂, hl₂⟩

/-- Without levels a rule takes the same words whatever floor it is entered with. -/
theorem Spans.refloor (hu : n.Ungated) (h : n.Spans a floor w) (floor' : Int) :
    n.Spans a floor' w := by
  obtain ⟨p, hp, hr, hs⟩ := h
  obtain ⟨q, hq, hstate, hreturns⟩ := hp.refloor (q := ⟨a, floor', []⟩) hu ⟨rfl, rfl⟩
  refine ⟨q, hq, ?_, by rw [hstate]; exact hs⟩
  rw [hr] at hreturns
  exact List.map_eq_nil_iff.1 hreturns

theorem Travels.single (ht : t ∈ (n.state a).transitions) (hx : n.Crosses t w b) :
    n.Travels a w b := by
  have := Travels.step ht hx .refl
  rwa [List.append_nil] at this

theorem Travels.trans (h : n.Travels a v b) (h' : n.Travels b w s) : n.Travels a (v ++ w) s := by
  induction h with
  | refl => exact h'
  | step ht hx _ ih =>
    rw [List.append_assoc]
    exact .step ht hx (ih h')

theorem Travels.presents (h : n.Travels a v b) (h' : n.Presents b w u fresh) :
    n.Presents a (v ++ w) u fresh := by
  induction h with
  | refl => exact h'
  | step ht hx _ ih =>
    rw [List.append_assoc]
    exact .step ht hx (ih h')

/-- A way inside one invocation is one over its edges. -/
theorem Runs.travels (hu : n.Ungated) (h : n.Runs floor a w s) : n.Travels a w s := by
  induction h with
  | refl => exact .refl
  | free _ ht hk ih =>
    have := ih.trans (.single ht (.free hk))
    rwa [List.append_nil] at this
  | level _ ht hk => exact absurd hk (hu.not_level ht _)
  | take _ ht hm ih => exact ih.trans (.single ht (.take hm))
  | call _ ht hk hc ih => exact ih.trans (.single ht (.call hk (hc.refloor hu 0)))

theorem Crosses.runs (hu : n.Ungated) (ht : t ∈ (n.state a).transitions) (h : n.Crosses t w b) :
    n.Runs floor a w b := by
  cases h with
  | free hk => exact .free .refl ht hk
  | take hm => exact .take .refl ht hm
  | @call _ _ precedence _ hk hc => exact .call .refl ht hk (hc.refloor hu precedence)

theorem Travels.reads (hu : n.Ungated) (h : n.Travels a w s) (floor : Int) :
    n.Reads ⟨a, floor, []⟩ w ⟨s, floor, []⟩ := by
  induction h with
  | refl => exact .refl
  | step ht hx _ ih => exact ((hx.runs hu ht).reads []).trans ih

theorem spans_iff (hu : n.Ungated) :
    n.Spans a floor w ↔ ∃ e, n.Travels a w e ∧ (n.state e).isRuleStop = true := by
  constructor
  · rintro ⟨p, hp, hr, hs⟩
    rcases hp.runs with ⟨-, -, hrun⟩ | ⟨s, t, ht, r, follow, precedence, v, u, q, -, rfl, -, -, -⟩
    · exact ⟨p.state, hrun.travels hu, hs⟩
    · simp [Place.under] at hr
  · rintro ⟨e, he, hs⟩
    exact ⟨⟨e, floor, []⟩, he.reads hu floor, rfl, hs⟩

/-- What comes next after a word, with the calls open where the edge is. -/
theorem presents_of_reads (hu : n.Ungated) (h : n.Reads ⟨a, floor, []⟩ w p)
    (ht : u ∈ (n.state p.state).transitions) : ∃ fresh, n.Presents a w u fresh := by
  induction hk : p.returns.length generalizing a floor w p with
  | zero =>
    have hr := List.eq_nil_of_length_eq_zero hk
    rcases h.runs with ⟨-, -, hrun⟩ | ⟨s, t, ht, r, follow, precedence, v, x, q, -, rfl, -, -, -⟩
    · have := (hrun.travels hu).presents (.here ht)
      rw [List.append_nil] at this
      exact ⟨_, this⟩
    · simp [Place.under] at hr
  | succ k ih =>
    rcases h.runs with ⟨hr, -, -⟩ | ⟨s, t, hcall, r, follow, precedence, v, x, q, hkind, rfl, rfl, hrun, hq⟩
    · rw [hr] at hk
      cases hk
    · have hlen : q.returns.length = k := by
        simpa [Place.under] using hk
      obtain ⟨fresh, hfresh⟩ := ih hq ht hlen
      exact ⟨_, (hrun.travels hu).presents (.enter hcall hkind hfresh)⟩

theorem Presents.reads (hu : n.Ungated) (h : n.Presents a w u fresh) (floor : Int) :
    ∃ p, n.Reads ⟨a, floor, []⟩ w p ∧ u ∈ (n.state p.state).transitions := by
  induction h generalizing floor with
  | here ht => exact ⟨_, .refl, ht⟩
  | @enter a w t u r follow precedence _ ht hk _ ih =>
    obtain ⟨p, hp, hnext⟩ := ih precedence
    have hcall : n.Step ⟨a, floor, []⟩ [] ⟨t.target, precedence, [⟨follow, floor⟩]⟩ :=
      .free ht (by simp [Place.follow?, hk])
    exact ⟨_, (Reads.single hcall).trans (hp.under [⟨follow, floor⟩]), hnext⟩
  | step ht hx _ ih =>
    obtain ⟨p, hp, hnext⟩ := ih floor
    exact ⟨p, ((hx.runs hu ht).reads []).trans hp, hnext⟩

/-- The edges that come next after a word are those where a way stands that takes it. -/
theorem presents_iff (hu : n.Ungated) (floor : Int) : (∃ fresh, n.Presents a w u fresh) ↔
    ∃ p, n.Reads ⟨a, floor, []⟩ w p ∧ u ∈ (n.state p.state).transitions := by
  constructor
  · rintro ⟨fresh, h⟩
    exact h.reads hu floor
  · rintro ⟨p, hp, ht⟩
    exact presents_of_reads hu hp ht

theorem Presents.offers (h : n.Presents a w u fresh) (hm : n.Matches u.kind token) :
    n.Offers a w token := by
  induction h with
  | here ht => exact .take ht hm
  | enter ht hk _ ih => exact .enter ht hk (ih hm)
  | step ht hx _ ih => exact .step ht hx (ih hm)

/-- A type comes next on some edge. -/
theorem Offers.presents (h : n.Offers a w token) :
    ∃ u fresh, n.Presents a w u fresh ∧ n.Matches u.kind token := by
  induction h with
  | take ht hm => exact ⟨_, _, .here ht, hm⟩
  | enter ht hk _ ih =>
    obtain ⟨u, fresh, h, hm⟩ := ih
    exact ⟨u, _, .enter ht hk h, hm⟩
  | step ht hx _ ih =>
    obtain ⟨u, fresh, h, hm⟩ := ih
    exact ⟨u, fresh, .step ht hx h, hm⟩

theorem offers_of_reads (hu : n.Ungated) (h : n.Reads ⟨a, floor, []⟩ w p)
    (ht : t ∈ (n.state p.state).transitions) (hm : n.Matches t.kind token) : n.Offers a w token := by
  obtain ⟨fresh, hpresents⟩ := presents_of_reads hu h ht
  exact hpresents.offers hm

theorem Offers.reads (hu : n.Ungated) (h : n.Offers a w token) (floor : Int) :
    ∃ p, n.Reads ⟨a, floor, []⟩ w p ∧
      ∃ t ∈ (n.state p.state).transitions, n.Matches t.kind token := by
  obtain ⟨u, fresh, hpresents, hm⟩ := h.presents
  obtain ⟨p, hp, ht⟩ := hpresents.reads hu floor
  exact ⟨p, hp, u, ht, hm⟩

/-- The types that can be taken after a word, over every way that takes it. -/
theorem offers_iff (hu : n.Ungated) (floor : Int) : n.Offers a w token ↔ ∃ p, n.Reads ⟨a, floor, []⟩ w p ∧
    ∃ t ∈ (n.state p.state).transitions, n.Matches t.kind token := by
  constructor
  · exact fun h => h.reads hu floor
  · rintro ⟨p, hp, t, ht, hm⟩
    exact offers_of_reads hu hp ht hm

/-- The first token of a word that a way takes is one that can come first. -/
theorem Travels.offers_head (hu : n.Ungated) (h : n.Travels a (token :: w) s) :
    n.Offers a [] token := by
  obtain ⟨q, t, ht, hm, hq, -⟩ := (h.reads hu 0).cons_inv
  exact offers_of_reads hu hq ht hm

theorem Offers.head (hu : n.Ungated) {next : TokenType} (h : n.Offers a (token :: w) next) :
    n.Offers a [] token := by
  obtain ⟨p, hp, -⟩ := h.reads hu 0
  obtain ⟨q, t, ht, hm, hq, -⟩ := hp.cons_inv
  exact offers_of_reads hu hq ht hm

/-- A way without a token is one that reads the empty word. -/
theorem Drifts.reads (hu : n.Ungated) (h : n.Drifts a [] s returns) :
    ∃ p, n.Reads ⟨a, 0, []⟩ [] p ∧ p.state = s ∧ p.returns.map Frame.returnState = returns := by
  induction h with
  | refl => exact ⟨⟨a, 0, []⟩, .refl, rfl, rfl⟩
  | @free s returns t _ ht hc hk ih =>
    obtain ⟨p, hp, rfl, hreturns⟩ := ih
    have hfree : p.follow? t = some { p with state := t.target } := by
      obtain hf | hf | ⟨r, follow, precedence, hf⟩ := hu.kind ht
      · cases hkind : t.kind <;> simp_all [EdgeKind.isFree, Place.follow?]
      · rw [Transition.isConsuming, hf] at hk
        cases hk
      · simp [Transition.call?, hf] at hc
    exact ⟨{ p with state := t.target }, .step hp (.free ht hfree), rfl, hreturns⟩
  | @call s follow returns t r precedence _ ht hk ih =>
    obtain ⟨p, hp, rfl, hreturns⟩ := ih
    refine ⟨⟨t.target, precedence, ⟨follow, p.floor⟩ :: p.returns⟩,
      .step hp (.free ht (by simp [Place.follow?, hk])), rfl, ?_⟩
    rw [List.map_cons, hreturns]
  | @back s back returns _ hstop ih =>
    obtain ⟨p, hp, rfl, hreturns⟩ := ih
    obtain ⟨f, rest, hf, rfl, rfl⟩ := List.map_eq_cons_iff.1 hreturns
    exact ⟨.back f rest, .step hp (.back hstop hf), rfl, rfl⟩

/-- What reads the empty word takes no token. -/
theorem Reads.drifts {floor : Int} {p : Place} (h : n.Reads ⟨a, floor, []⟩ [] p) :
    n.Drifts a [] p.state (p.returns.map Frame.returnState) := by
  generalize hw : ([] : List TokenType) = w at h
  induction h with
  | refl => exact .refl
  | @step p₁ p₂ v u _ hstep ih =>
    obtain ⟨rfl, rfl⟩ := List.append_eq_nil_iff.1 hw.symm
    have hp := ih rfl
    cases hstep with
    | @free _ t ht hf =>
      unfold Place.follow? at hf
      cases hk : t.kind with
      | epsilon | action _ _ =>
        simp only [hk, Option.some.injEq] at hf
        subst hf
        exact hp.free ht (by simp [Transition.call?, hk])
          (by simp [Transition.isConsuming, hk, EdgeKind.isConsuming])
      | rule r follow precedence =>
        simp only [hk, Option.some.injEq] at hf
        subst hf
        exact hp.call ht hk
      | precedence level =>
        simp only [hk] at hf
        split at hf
        · cases hf
          exact hp.free ht (by simp [Transition.call?, hk])
            (by simp [Transition.isConsuming, hk, EdgeKind.isConsuming])
        · cases hf
      | atom _ | range _ _ | set _ | notSet _ | wildcard | predicate _ _ _ => simp [hk] at hf
    | back hstop hr =>
      rw [hr] at hp
      exact hp.back hstop

theorem meets_iff_offers (hu : n.Ungated) (htoken : TokenType.epsilon ≤ token) :
    n.Meets a [] token ↔ n.Offers a [] token := by
  rw [offers_iff hu 0]
  constructor
  · rintro ⟨s, returns, h, t, ht, types, hlabel, hmem⟩
    obtain ⟨p, hp, rfl, -⟩ := h.reads hu
    exact ⟨p, hp, t, ht, matches_of_label hlabel hmem⟩
  · rintro ⟨p, hp, t, ht, hm⟩
    exact ⟨p.state, _, hp.drifts, t, ht, label?_of_matches hm htoken⟩

theorem exits_iff_spans (hu : n.Ungated) : n.Exits a [] ↔ n.Spans a 0 [] := by
  constructor
  · rintro ⟨e, h, hstop⟩
    obtain ⟨p, hp, rfl, hreturns⟩ := h.reads hu
    exact ⟨p, hp, List.map_eq_nil_iff.1 hreturns, hstop⟩
  · rintro ⟨p, hp, hreturns, hstop⟩
    have hdrifts := hp.drifts
    rw [hreturns] at hdrifts
    exact ⟨p.state, hdrifts, hstop⟩

end Network

end AdaptiveParsing
