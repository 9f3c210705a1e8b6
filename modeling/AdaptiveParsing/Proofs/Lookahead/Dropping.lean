import AdaptiveParsing.Proofs.Lookahead.Leaving
import AdaptiveParsing.Proofs.Lookahead.OneToken
/-!
What the filter for loops of operators drops. Lookahead without the callers leaves the loop for every caller
of the rule, and where another round comes to the same state with the same calls, that is kept only if the
last return was from an outermost invocation. In a network whose rounds are apart nothing is lost by it: a
way that is dropped has the same tokens before it as a way of another round (`Simulation.kept_or_round`).
-/

namespace AdaptiveParsing

/-- As many calls as these go back to the same states. -/
theorem Frame.Below.map_eq {fs gs outer : List Frame} (h : Frame.Below fs (gs ++ outer))
    (hlength : fs.length = gs.length) : fs.map Frame.returnState = gs.map Frame.returnState := by
  induction fs generalizing gs with
  | nil =>
    obtain rfl := List.eq_nil_of_length_eq_zero hlength.symm
    rfl
  | cons f fs ih =>
    cases gs with
    | nil => cases hlength
    | cons g gs =>
      obtain ⟨hstate, -, hrest⟩ := h
      rw [List.map_cons, List.map_cons, hstate, ih hrest (by simpa using hlength)]

namespace Simulation

open ConfigSet

/-- Where a configuration is placed that leaves rule `c` for `b` without known callers. -/
def placementAt (n : Network) (c : RuleId) (b : StateId) : Placement :=
  if (n.rule c).leftRecursive && n.returnPrecedenceAt b == some 0 then .outermostFollow else .follow

/-- The configuration has left rule `r`, where the way began at `p₀`. It came last from rule `c` to `b`,
and from there to `q` by calls of its own. -/
structure Gone (n : Network) (r : RuleId) (p₀ : Place) (k : ConfigKey) (c : RuleId) (b : StateId)
    (base : Int) (frames : List Frame) (q : Place) : Prop where
  returns : n.Returns r c b
  floor : 0 ≤ base
  way : n.Reads p₀ [] ⟨b, base, frames⟩
  here : n.Reads ⟨b, base, []⟩ [] q
  depth : k.stack.length = q.returns.length
  placement : k.placement = placementAt n c b

/-- A configuration without known callers keeps up with a way from `p₀`, the end of a loop of rule `r`: it is
on the way to the end of the rule, or it has left it. -/
structure Departs (n : Network) (s r : RuleId) (zone : StateId → Zone) (p₀ : Place) (k : ConfigKey)
    (p : Place) : Prop where
  above : Over n s k p
  way : n.Reads p₀ [] p
  cases : (k.stack = [] ∧ p.returns = p₀.returns ∧ (n.state p.state).rule = r ∧ zone p.state = .ended) ∨
    ∃ c b base frames q, p = q.under frames ∧ Gone n r p₀ k c b base frames q

variable {sim : Simulation} {s : RuleId} {k : ConfigKey} {p q p₀ : Place} {c : Config}
  {levels : RuleId → Int → Prop} {d : DecisionId} {frames : List Frame} {zone : StateId → Zone}
  {loop round exit : StateId} {w : List TokenType}

/-- A step of a place is a step of the configuration over it: the configuration makes the calls and the
returns of the place, or it has no call to return from and is placed anew. -/
theorem Over.step (hn : sim.network.Checked) (hshape : sim.network.Shaped levels)
    (h : Over sim.network s c.key p) (hs : sim.network.Step p [] q) :
    ∃ next d, sim.expand false c = .inl next ∧ d ∈ next ∧ d.alt = c.alt ∧ Over sim.network s d.key q ∧
      ((d.key.placement = c.key.placement ∧
          d.key.stack.length + p.returns.length = c.key.stack.length + q.returns.length) ∨
        c.key.stack = [] ∧ d.key.stack = [] ∧ (sim.network.state p.state).isRuleStop = true ∧
          (∃ f, p.returns = f :: q.returns) ∧
          q.state ∈ sim.network.followStates (sim.network.state p.state).rule ∧
          d.key.placement = placementAt sim.network (sim.network.state p.state).rule q.state) := by
  have hin := h.inside.step hshape hn hs
  cases hs with
  | @free _ t ht hfollow =>
    obtain ⟨d, hd, halt, hq⟩ := h.follow hin hfollow
    rw [h.state] at ht
    have hfree : t.isConsuming = false := by
      by_contra hne
      rw [Network.follow?_of_isConsuming (by simpa using hne)] at hfollow
      cases hfollow
    refine ⟨_, d, expand_of_edge hn rfl ht hfree, List.mem_filterMap.2 ⟨t, ht, hd⟩, halt, hq, .inl ?_⟩
    rcases follow?_eq_some hd with ⟨r, back, precedence, hk, rfl⟩ | ⟨hcall, -, rfl⟩
    · rcases Place.follow?_eq_some hfollow with ⟨_, _, _, -, rfl⟩ | ⟨hcall, -⟩
      · simp only [List.length_cons, true_and]
        omega
      · simp [Transition.call?, hk] at hcall
    · rcases Place.follow?_eq_some hfollow with ⟨_, _, _, hk, -⟩ | ⟨-, rfl⟩
      · simp [Transition.call?, hk] at hcall
      · exact ⟨rfl, rfl⟩
  | @back f outer hstop hr =>
    have hstop' := hstop
    rw [h.state] at hstop'
    have hreturns := h.returns
    have hnested := h.inside.nested
    rw [hr] at hreturns hnested
    cases hstack : c.key.stack with
    | cons g stack =>
      rw [hstack] at hreturns
      obtain ⟨hstate, hfloor, hreturns⟩ := hreturns
      refine ⟨[{ c with key := { c.key with state := g.returnState, precedence := g.precedence, stack } }],
        _, ?_, .head _, rfl, ⟨hin, hstate.symm, hfloor, hreturns⟩, .inl ⟨rfl, ?_⟩⟩
      · unfold expand leave
        rw [if_pos hstop', hstack]
      · simp only [hr, List.length_cons, Place.back]
        omega
    | nil =>
      obtain ⟨-, hback, hpos, -⟩ := hnested
      have hkey : (⟨f.returnState, 0, [], placementAt sim.network (sim.network.state p.state).rule
          f.returnState⟩ : ConfigKey) ∈ sim.unknownReturns (sim.network.state c.key.state).rule := by
        rw [← h.state]
        exact List.mem_map.2 ⟨f.returnState, hback, rfl⟩
      refine ⟨(sim.unknownReturns (sim.network.state c.key.state).rule).map fun key => { c with key },
        { c with key := ⟨f.returnState, 0, [], _⟩ }, ?_, List.mem_map_of_mem hkey, rfl,
        ⟨hin, rfl, hpos, trivial⟩, .inr ⟨rfl, rfl, hstop, ⟨f, hr⟩, hback, rfl⟩⟩
      rw [expand_of_isRuleStop hstop' hstack, if_neg (List.ne_nil_of_mem hkey)]

/-- What a closure without the callers finds is what it came to. -/
theorem eq_of_expand_inr {c' : Config} (he : sim.expand false c = .inr c') : c' = c := by
  unfold expand leave at he
  dsimp only at he
  split at he
  · split at he
    · cases he
    · rw [if_neg Bool.false_ne_true] at he
      split at he
      · exact (Sum.inr.inj he).symm
      · cases he
  · split at he
    · exact (Sum.inr.inj he).symm
    · cases he

/-- Without predicates a configuration goes one step of its own calls, or it has left them. -/
theorem expand_place {c' : Config} {next : List Config} (hf : sim.network.PredicateFree)
    (he : sim.expand false c = .inl next) (hc : c' ∈ next) : c'.alt = c.alt ∧
      (sim.network.Step ⟨c.key.state, c.key.precedence, c.key.stack⟩ []
          ⟨c'.key.state, c'.key.precedence, c'.key.stack⟩ ∨
        sim.network.Ends ⟨c.key.state, c.key.precedence, c.key.stack⟩) := by
  unfold expand at he
  dsimp only at he
  split at he
  · rename_i hstop
    unfold leave at he
    split at he
    · rename_i f stack hstack
      obtain rfl := Sum.inl.inj he
      obtain rfl := List.mem_singleton.1 hc
      exact ⟨rfl, .inl (.back hstop hstack)⟩
    · rename_i hstack
      rw [if_neg Bool.false_ne_true] at he
      split at he
      · cases he
      · obtain rfl := Sum.inl.inj he
        obtain ⟨key, -, rfl⟩ := List.mem_map.1 hc
        exact ⟨rfl, .inr ⟨hstack, hstop⟩⟩
  · split at he
    · cases he
    · obtain rfl := Sum.inl.inj he
      obtain ⟨t, ht, hfollow⟩ := List.mem_filterMap.1 hc
      have hp := hf.isPredicate ht
      unfold follow? at hfollow
      have hstep : c'.alt = c.alt ∧ (⟨c.key.state, c.key.precedence, c.key.stack⟩ : Place).follow? t =
          some ⟨c'.key.state, c'.key.precedence, c'.key.stack⟩ := by
        unfold Place.follow?
        cases hk : t.kind with
        | epsilon | action _ _ | rule _ _ _ =>
          rw [hk] at hfollow
          obtain rfl := Option.some.inj hfollow
          exact ⟨rfl, rfl⟩
        | precedence level =>
          simp only [hk] at hfollow
          split at hfollow
          · rename_i hl
            obtain rfl := Option.some.inj hfollow
            exact ⟨rfl, if_pos hl⟩
          · cases hfollow
        | predicate _ _ _ =>
          rw [hk] at hp
          cases hp
        | atom _ | range _ _ | set _ | notSet _ | wildcard => simp [hk] at hfollow
      exact ⟨hstep.1, .inl (.free ht hstep.2)⟩

section

variable (N : sim.network.Built levels) (L : sim.network.Loop levels zone loop round exit)

include N L

/-- The configuration keeps up with every step of the way. -/
theorem Departs.step (h : Departs sim.network s (sim.network.state loop).rule zone p₀ c.key p)
    (hs : sim.network.Step p [] q) : ∃ next d, sim.expand false c = .inl next ∧ d ∈ next ∧
      d.alt = c.alt ∧ Departs sim.network s (sim.network.state loop).rule zone p₀ d.key q := by
  obtain ⟨next, d, he, hd, halt, hover, hmoved⟩ := h.above.step N.checked N.shaped hs
  have hway : sim.network.Reads p₀ [] q := h.way.trans (.single hs)
  refine ⟨next, d, he, hd, halt, hover, hway, ?_⟩
  rcases h.cases with ⟨hstack, hreturns, hrule, hzone⟩ | ⟨c', b, base, frames, q₀, rfl, hgone⟩
  · rcases hmoved with ⟨-, hlength⟩ | ⟨-, hstack', hstop, ⟨f, hf⟩, hback, hplacement⟩
    · rw [hstack, List.length_nil] at hlength
      cases hs with
      | @free _ t ht hfollow =>
        obtain ⟨hk, hzone'⟩ := L.shape.ended p.state hrule hzone t ht
        obtain rfl : q = { p with state := t.target } := by
          unfold Place.follow? at hfollow
          rw [hk] at hfollow
          exact (Option.some.inj hfollow).symm
        have hrule' := N.next_rule ht
        rw [Transition.next_eq_target (by simp [Transition.call?, hk]), hrule] at hrule'
        exact .inl ⟨List.eq_nil_of_length_eq_zero (by simpa using hlength), hreturns, hrule', hzone'⟩
      | back _ hf =>
        rw [hf] at hlength
        simp only [List.length_cons, Place.back] at hlength
        omega
    · rw [hrule] at hback hplacement
      exact .inr ⟨_, q.state, q.floor, q.returns, ⟨q.state, q.floor, []⟩, rfl,
        .call hback, hover.inside.floor, hway, .refl, by rw [hstack'], hplacement⟩
  · have hdepth := hgone.depth
    rcases hs.under_inv with ⟨q', rfl, hs'⟩ | ⟨f, rest, rfl, hend, -, rfl⟩
    · rcases hmoved with ⟨hplacement, hlength⟩ | ⟨hstack, -, hstop, -⟩
      · refine .inr ⟨c', b, base, frames, q', rfl, hgone.returns, hgone.floor, hgone.way,
          hgone.here.trans (.single hs'), ?_, hplacement.trans hgone.placement⟩
        simp only [Place.under, List.length_append] at hlength
        omega
      · -- at a stop there is nothing but to return
        rw [hstack, List.length_nil] at hdepth
        cases hs' with
        | free ht _ =>
          rw [Place.under, N.checked.not_stop ht] at hstop
          cases hstop
        | back _ hr =>
          rw [hr] at hdepth
          cases hdepth
    · rcases hmoved with ⟨-, hlength⟩ | ⟨-, hstack', hstop, -, hback, hplacement⟩
      · rw [hdepth, hend.1] at hlength
        simp only [Place.under, hend.1, Place.back, List.nil_append, List.length_cons,
          List.length_nil] at hlength
        omega
      · have hrun : sim.network.Runs 0 b [] q₀.state := by
          rcases hgone.here.runs with ⟨-, -, hrun⟩ | ⟨_, _, _, _, _, _, _, _, _, _, rfl, -⟩
          · exact hrun.lower hgone.floor
          · have hnil := hend.1
            simp [Place.under] at hnil
        exact .inr ⟨_, f.returnState, f.precedence, rest, ⟨f.returnState, f.precedence, []⟩, rfl,
          hgone.returns.outward hrun hend.2 hback, hover.inside.floor, hway, .refl, by rw [hstack'],
          hplacement⟩

variable (hd : sim.network.decisionState d = loop)

include hd

omit N in
/-- A loop of operators starts past its two edges. -/
theorem mem_startSeeds_loop : c ∈ sim.startSeeds d ↔
    c = ⟨{ state := round, precedence := sim.floor }, 1⟩ ∨
      c = ⟨{ state := exit, precedence := sim.floor }, 2⟩ := by
  have hedges : (sim.network.state (sim.network.decisionState d)).transitions =
      [round, exit].map fun a => .epsilon (id a) := by
    rw [hd, L.edges]
    rfl
  rw [mem_startSeeds hedges]
  constructor
  · rintro ⟨i, a, hi, rfl⟩
    match i, hi with
    | 0, hi => exact .inl (by cases hi; rfl)
    | 1, hi => exact .inr (by cases hi; rfl)
  · rintro (rfl | rfl)
    · exact ⟨0, round, rfl, rfl⟩
    · exact ⟨1, exit, rfl, rfl⟩

/-- Wherever a way from the end of the loop waits there is a configuration that keeps up with it. -/
theorem exists_departs (hin : sim.network.Inside s ⟨exit, sim.floor, frames⟩)
    (hr : sim.network.Reads ⟨exit, sim.floor, frames⟩ [] p) (hwaits : sim.network.Waits p) :
    ∃ k, Listed (sim.startClosure false d).entries k 2 ∧
      Departs sim.network s (sim.network.state loop).rule zone ⟨exit, sim.floor, frames⟩ k p := by
  have hexit : (sim.network.state exit).rule = (sim.network.state loop).rule :=
    N.next_rule (a := loop) (t := .epsilon exit) (by simp [L.edges])
  have hplace : ∃ c, sim.Expands false (sim.startSeeds d) c ∧ c.alt = 2 ∧
      Departs sim.network s (sim.network.state loop).rule zone ⟨exit, sim.floor, frames⟩ c.key p := by
    generalize hw : ([] : List TokenType) = w at hr
    clear hwaits
    induction hr with
    | refl => exact ⟨_, .seed ((mem_startSeeds_loop L hd).2 (.inr rfl)), rfl,
        ⟨hin, rfl, Int.le_refl _, trivial⟩, .refl, .inl ⟨rfl, rfl, hexit, L.exit⟩⟩
    | step _ hs ih =>
      obtain ⟨rfl, rfl⟩ := List.append_eq_nil_iff.1 hw.symm
      obtain ⟨c, hc, halt, hdeparts⟩ := ih rfl
      obtain ⟨next, c', he, hc', halt', hdeparts'⟩ := hdeparts.step N L hs
      exact ⟨c', .step hc he hc', halt'.trans halt, hdeparts'⟩
  obtain ⟨c, hc, halt, hdeparts⟩ := hplace
  refine ⟨c.key, ?_, hdeparts⟩
  obtain ⟨t, ht, hk⟩ := hwaits
  rw [hdeparts.above.state] at ht
  rw [startClosure, listed_ofList, mem_found_closure (pending_closure_nil N.shaped N.checked _), ← halt]
  exact ⟨c, hc, expand_of_isConsuming N.checked (N.checked.single _ t ht hk) hk⟩

/-- A configuration of another round stands where a way of the round comes to, or the round comes to the loop
before any token. -/
theorem reads_of_listed (hf : sim.network.PredicateFree)
    (hl : Listed (sim.startClosure false d).entries k 1) :
    sim.network.Runs sim.floor round [] loop ∨
      sim.network.Reads ⟨round, sim.floor, []⟩ [] ⟨k.state, k.precedence, k.stack⟩ := by
  rw [startClosure, listed_ofList, mem_found_closure (pending_closure_nil N.shaped N.checked _)] at hl
  obtain ⟨c, hc, he⟩ := hl
  obtain rfl := eq_of_expand_inr he
  have hall : ∀ c, sim.Expands false (sim.startSeeds d) c → c.alt = 1 →
      sim.network.Runs sim.floor round [] loop ∨
        sim.network.Reads ⟨round, sim.floor, []⟩ [] ⟨c.key.state, c.key.precedence, c.key.stack⟩ := by
    intro c hc
    induction hc with
    | seed hc =>
      rcases (mem_startSeeds_loop L hd).1 hc with rfl | rfl
      · exact fun _ => .inr .refl
      · intro h
        cases h
    | @step c c' next _ he hc' ih =>
      obtain ⟨halt, hstep | hend⟩ := expand_place hf he hc'
      · exact fun h => (ih (halt ▸ h)).imp_right fun hr => hr.trans (.single hstep)
      · exact fun h => (ih (halt ▸ h)).elim .inl fun hr => .inl (L.runs_of_ends N.shaped hr hend)
  exact hall _ hc rfl

/-- Where the filter drops the end of a loop, there is another round that the same tokens lead to the same
end. -/
theorem kept_or_round (hf : sim.network.PredicateFree) (hapart : sim.network.RoundsApart)
    (hin : sim.network.Inside s ⟨loop, sim.floor, frames⟩)
    (hr : sim.network.Reads ⟨exit, sim.floor, frames⟩ [] p) (hwaits : sim.network.Waits p)
    (hw : sim.network.Reads p w q) (hend : sim.network.Ends q) :
    (∃ k, Listed (sim.startSet false d).entries k 2 ∧ Over sim.network s k p) ∨
      sim.network.Reads ⟨round, sim.floor, frames⟩ w q := by
  have hleave : sim.network.Step ⟨loop, sim.floor, frames⟩ [] ⟨exit, sim.floor, frames⟩ :=
    .free (t := .epsilon exit) (by simp [L.edges]) rfl
  obtain ⟨k, hk, hdeparts⟩ := exists_departs N L hd (hin.step N.shaped N.checked hleave) hr hwaits
  by_cases hkept : k.placement = .outermostFollow ∨
      (sim.startClosure false d).firstAltAt k.state k.stack = false
  · refine .inl ⟨k, ?_, hdeparts.above⟩
    rw [startSet_eq_startClosure, if_pos (by rw [hd, L.shape.loop_marked]; rfl)]
    exact listed_filterPrecedence.2 ⟨hk, .inr hkept⟩
  rw [not_or, Bool.not_eq_false, firstAltAt_iff] at hkept
  obtain ⟨hplacement, k₁, hk₁, hstate, hstack⟩ := hkept
  refine .inr ?_
  rcases reads_of_listed N L hd hf hk₁ with hskip | hround
  · exact (hskip.reads frames).trans ((Network.Reads.single hleave).trans (hr.trans hw))
  · rcases hdeparts.cases with ⟨-, -, hrule, hzone⟩ | ⟨c, b, base, outer, q₀, rfl, hgone⟩
    · obtain ⟨t, ht, hk⟩ := hwaits
      have hfree := (L.shape.ended p.state hrule hzone t ht).1
      simp [Transition.isConsuming, hfree, EdgeKind.isConsuming] at hk
    · have hmem := hgone.returns.mem
      have hreturns : k₁.stack.map Frame.returnState = q₀.returns.map Frame.returnState := by
        rw [hstack]
        exact hdeparts.above.returns.map_eq hgone.depth
      refine N.round_of_exit L hround hgone.way (N.follow_rule_lt hmem) hin.floor hgone.floor hgone.here
        (hstate.trans hdeparts.above.state.symm) hreturns hwaits (fun hsame => ?_) hw hend
      cases hl : (sim.network.rule c).leftRecursive with
      | false => exact hapart loop round exit L.shape.loop_marked L.edges c b hgone.returns hl hsame
      | true =>
        intro _ _ _ _
        refine N.quiet_of_operand L hmem ?_ hsame
        intro hprice
        rw [hgone.placement, placementAt, hl, hprice] at hplacement
        exact hplacement rfl

end

end Simulation

end AdaptiveParsing
