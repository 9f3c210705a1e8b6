import AdaptiveParsing.Proofs.Lookahead.InContext
/-!
Lookahead without the callers against lookahead with them. Where a rule ends, the former goes on at every
return of the rule, with floor zero, so that it covers all ways of the latter (`shadows_over`), except
that at a loop of operators it may drop the end of the loop. Main statement: an alternative that is
decided on without the callers, and that leads to the end of the input, is decided on with them as well
(`Simulation.predict_ll_eq`).
-/

namespace AdaptiveParsing

/-- These calls are the innermost of those, with floors that are not higher. -/
def Frame.Below : List Frame → List Frame → Prop
  | [], _ => True
  | _ :: _, [] => False
  | f :: fs, g :: gs =>
    f.returnState = g.returnState ∧ f.precedence ≤ g.precedence ∧ Frame.Below fs gs

namespace Place

/-- Where an edge leads that takes no token. -/
theorem follow?_eq_some {p q : Place} {t : Transition} (h : p.follow? t = some q) :
    (∃ r back precedence, t.kind = .rule r back precedence ∧
      q = ⟨t.target, precedence, ⟨back, p.floor⟩ :: p.returns⟩) ∨
    t.call? = none ∧ q = { p with state := t.target } := by
  unfold follow? at h
  cases hk : t.kind with
  | rule r back precedence =>
    rw [hk] at h
    exact .inl ⟨r, back, precedence, rfl, (Option.some.inj h).symm⟩
  | epsilon | action _ _ =>
    rw [hk] at h
    exact .inr ⟨by simp [Transition.call?, hk], (Option.some.inj h).symm⟩
  | precedence level =>
    simp only [hk] at h
    split at h
    · exact .inr ⟨by simp [Transition.call?, hk], (Option.some.inj h).symm⟩
    · cases h
  | atom _ | range _ _ | set _ | notSet _ | wildcard | predicate _ _ _ => simp [hk] at h

end Place

namespace Network

variable (n : Network)

/-- From a state the returns lead out of one rule after the other, the last of which is rule `s`. No
floor is below zero. -/
def Nested (s : RuleId) : StateId → List Frame → Prop
  | a, [] => (n.state a).rule < n.rules.size ∧ (n.state a).rule = s
  | a, f :: rest => (n.state a).rule < n.rules.size ∧
    f.returnState ∈ n.followStates (n.state a).rule ∧ 0 ≤ f.precedence ∧ Nested s f.returnState rest

/-- The place is in an invocation of rule `s`, or in the calls made from there. -/
structure Inside (s : RuleId) (p : Place) : Prop where
  floor : 0 ≤ p.floor
  nested : n.Nested s p.state p.returns

variable {n : Network} {s : RuleId} {a b : StateId} {frames : List Frame} {p q : Place}
  {w : List TokenType} {levels : RuleId → Int → Prop}

theorem Nested.lt (h : n.Nested s a frames) : (n.state a).rule < n.rules.size := by
  cases frames with
  | nil => exact h.1
  | cons f rest => exact h.1

theorem Nested.congr (h : n.Nested s a frames) (hr : (n.state b).rule = (n.state a).rule) :
    n.Nested s b frames := by
  cases frames with
  | nil =>
    unfold Nested
    rw [hr]
    exact h
  | cons f rest =>
    unfold Nested
    rw [hr]
    exact h

theorem Nested.next (h : n.Nested s a frames) (hshape : n.Shaped levels) {t : Transition}
    (ht : t ∈ (n.state a).transitions) : n.Nested s t.next frames :=
  h.congr ((hshape.rule _ h.lt).next a rfl t ht).2

/-- A way stays inside of the rule that it is in. -/
theorem Inside.step (h : n.Inside s p) (hshape : n.Shaped levels) (hn : n.Checked)
    (hs : n.Step p w q) : n.Inside s q := by
  cases hs with
  | @free _ t ht hfollow =>
    have hnext := h.nested.next hshape ht
    rcases Place.follow?_eq_some hfollow with ⟨r, back, precedence, hk, rfl⟩ | ⟨hcall, rfl⟩
    · obtain ⟨hr, htarget⟩ := hshape.call _ t ht r back precedence hk
      obtain ⟨-, -, hargument⟩ := hshape.alone _ t ht (by simp [Transition.call?, hk])
      have hrule : (n.state t.target).rule = r := by
        rw [htarget]
        exact (hshape.rule r hr).start_rule
      unfold Transition.argument at hargument
      unfold Transition.next at hnext
      rw [hk] at hargument hnext
      refine ⟨hargument, ?_, ?_, h.floor, hnext⟩
      · rw [hrule]
        exact hr
      · rw [hrule]
        exact hn.returns _ t ht r back precedence hk
    · rw [Transition.next_eq_target hcall] at hnext
      exact ⟨h.floor, hnext⟩
  | @back f outer _ hr =>
    have hnested := h.nested
    rw [hr] at hnested
    exact ⟨hnested.2.2.1, hnested.2.2.2⟩
  | @take t _ ht hm =>
    have hnext := h.nested.next hshape ht
    rw [Transition.next_eq_target (call?_of_matches hm)] at hnext
    exact ⟨h.floor, hnext⟩

theorem Inside.reads (h : n.Inside s p) (hshape : n.Shaped levels) (hn : n.Checked)
    (hr : n.Reads p w q) : n.Inside s q := by
  induction hr with
  | refl => exact h
  | step _ hs ih => exact ih.step hshape hn hs

/-- A loop of operators has two ways to go on. -/
theorem Shaped.choices (hshape : n.Shaped levels) (hlt : (n.state a).rule < n.rules.size)
    (hm : (n.state a).precedenceDecision = true) : (n.state a).transitions.length = 2 := by
  have hr := hshape.rule _ hlt
  cases hl : (n.rule (n.state a).rule).leftRecursive with
  | false =>
    have := (hr.plain hl).unmarked a rfl
    rw [hm] at this
    cases this
  | true =>
    obtain ⟨loop, zone, hz⟩ := hr.recursive hl
    obtain ⟨round, exit, he, -, -⟩ := hz.choices
    rw [hz.loop_only a rfl hm, he]
    rfl

end Network

namespace Simulation

open ConfigSet Automaton

section

variable (n : Network) (s : RuleId)

/-- A configuration without known callers stands over all places with its calls innermost and floors
that are not lower. -/
structure Over (k : ConfigKey) (p : Place) : Prop where
  inside : n.Inside s p
  state : p.state = k.state
  floor : k.precedence ≤ p.floor
  returns : Frame.Below k.stack p.returns

end

variable {sim : Simulation} {s : RuleId} {k : ConfigKey} {p q : Place} {c : Config}
  {levels : RuleId → Int → Prop} {d : DecisionId} {floors : Int → Prop} {a : Automaton}
  {set : ConfigSet} {S : Nat → Place → Prop} {v : List TokenType} {m : Nat}

theorem Over.follow {t : Transition} (h : Over sim.network s c.key p) (hq : sim.network.Inside s q)
    (hfollow : p.follow? t = some q) :
    ∃ d, sim.follow? c t = some d ∧ d.alt = c.alt ∧ Over sim.network s d.key q := by
  unfold Place.follow? at hfollow
  unfold Simulation.follow?
  cases hk : t.kind with
  | epsilon | action _ _ =>
    rw [hk] at hfollow
    obtain rfl := Option.some.inj hfollow
    exact ⟨_, rfl, rfl, hq, rfl, h.floor, h.returns⟩
  | rule r back precedence =>
    rw [hk] at hfollow
    obtain rfl := Option.some.inj hfollow
    exact ⟨_, rfl, rfl, hq, rfl, Int.le_refl _, rfl, h.floor, h.returns⟩
  | precedence level =>
    simp only [hk] at hfollow
    split at hfollow
    · rename_i hl
      obtain rfl := Option.some.inj hfollow
      exact ⟨_, if_pos (Int.le_trans h.floor hl), rfl, hq, rfl, h.floor, h.returns⟩
    · cases hfollow
  | atom _ | range _ _ | set _ | notSet _ | wildcard | predicate _ _ _ => simp [hk] at hfollow

/-- Where a rule ends, some return without known callers goes where the place goes. -/
theorem Over.back {f : Frame} {outer : List Frame} (h : Over sim.network s c.key p)
    (hq : sim.network.Inside s (.back f outer))
    (hstop : (sim.network.state p.state).isRuleStop = true) (hr : p.returns = f :: outer) :
    ∃ next d, sim.expand false c = .inl next ∧ d ∈ next ∧ d.alt = c.alt ∧
      Over sim.network s d.key (.back f outer) := by
  rw [h.state] at hstop
  have hexpand : sim.expand false c = sim.leave false c (sim.network.state c.key.state).rule := by
    unfold expand
    exact if_pos hstop
  have hreturns := h.returns
  have hnested := h.inside.nested
  rw [hr] at hreturns hnested
  rw [hexpand]
  cases hstack : c.key.stack with
  | cons g stack =>
    rw [hstack] at hreturns
    obtain ⟨hstate, hfloor, hreturns⟩ := hreturns
    unfold Simulation.leave
    rw [hstack]
    exact ⟨_, _, rfl, .head _, rfl, hq, hstate.symm, hfloor, hreturns⟩
  | nil =>
    -- the return is one of those of the rule
    obtain ⟨-, hback, hpos, -⟩ := hnested
    rw [h.state] at hback
    obtain ⟨next, key, he, hd, hstate, hprec, hstk⟩ := exists_mem_leave hstack hback
    refine ⟨next, { c with key }, he, hd, rfl, hq, hstate.symm, ?_, ?_⟩
    · show key.precedence ≤ f.precedence
      rw [hprec]
      exact hpos
    · show Frame.Below key.stack outer
      rw [hstk]
      trivial

/-- A configuration over the end of a way stays where it is. -/
theorem Over.ends (hs : sim.network.followStates s = []) (h : Over sim.network s c.key p)
    (hend : sim.network.Ends p) : sim.expand false c = .inr c := by
  obtain ⟨hreturns, hstop⟩ := hend
  rw [h.state] at hstop
  have hbelow := h.returns
  have hnested := h.inside.nested
  rw [hreturns] at hbelow hnested
  rw [h.state] at hnested
  have hstack : c.key.stack = [] := by
    cases hl : c.key.stack with
    | nil => rfl
    | cons g stack =>
      rw [hl] at hbelow
      cases hbelow
  unfold expand
  rw [if_pos hstop]
  unfold Simulation.leave
  rw [hstack, hnested.2]
  simp only [unknownReturns, hs, List.map_nil, Bool.false_eq_true, if_false]

/-- Configurations without known callers keep up with the places under them. -/
theorem shadows_over (hn : sim.network.Checked) (hshape : sim.network.Shaped levels)
    (hs : sim.network.followStates s = []) :
    sim.Shadows false (Over sim.network s) := by
  refine ⟨fun h => h.state, ?_, ?_, ?_, ?_⟩
  · intro c p q t h ht hfollow
    exact h.follow (h.inside.step hshape hn (.free ht hfollow)) hfollow
  · intro c p f outer h hstop hr
    exact h.back (h.inside.step hshape hn (.back hstop hr)) hstop hr
  · intro c p h hend
    exact ⟨c, h.ends hs hend, rfl, h⟩
  · intro k p t h ht hcons
    have hnext := h.inside.nested.next hshape ht
    have hcall : t.call? = none := by
      unfold Transition.isConsuming EdgeKind.isConsuming at hcons
      unfold Transition.call?
      cases hk : t.kind <;> simp_all
    rw [Transition.next_eq_target hcall] at hnext
    exact ⟨⟨h.inside.floor, hnext⟩, rfl, h.floor, h.returns⟩

/-- The alternatives that the filter for loops of operators keeps. -/
def Kept (n : Network) (p : Place) (alt : Nat) (q : Place) : Prop :=
  n.Begins p alt q ∧ ((n.state p.state).precedenceDecision = true → alt = 1)

section

variable (hn : sim.network.Checked) (hshape : sim.network.Shaped levels)
  (hs : sim.network.followStates s = [])

include hn hshape hs

/-- The set to start with covers the alternatives that are kept. -/
theorem covers_startSet (d : DecisionId) {frames : List Frame}
    (h : sim.network.Inside s ⟨sim.network.decisionState d, sim.floor, frames⟩) :
    sim.Covers (Over sim.network s) (sim.startSet false d) (sim.network.Reached
      (Kept sim.network ⟨sim.network.decisionState d, sim.floor, frames⟩) []) := by
  have hstart := (shadows_over hn hshape hs).covers_start hn hshape d
    (p := ⟨sim.network.decisionState d, sim.floor, frames⟩)
    ⟨h, rfl, Int.le_refl _, trivial⟩
  rintro alt q ⟨p₀, ⟨hb, halt⟩, hr⟩ hrest
  obtain ⟨k, hk, ho⟩ := hstart alt q ⟨p₀, hb, hr⟩ hrest
  refine ⟨k, ?_, ho⟩
  rw [startSet_eq_startClosure, Bool.not_false, Bool.and_true]
  split
  · rename_i hmark
    obtain rfl := halt hmark
    exact listed_filterPrecedence.2 ⟨hk, .inl rfl⟩
  · exact hk

/-- If lookahead without the callers ends in a conflict, its verdict is at most every alternative that
leads to the end and was not dropped. If lookahead with the callers then finds the same, it makes no
difference whether they are looked at. -/
theorem predictFrom_ll_eq {V : Nat → Prop} (start : Nat) (ha : Recorded sim.network d floors a)
    {state : AutomatonState} (hready : Ready sim.network d floors a state) (input : TokenCursor)
    (hcovers : sim.Covers (Over sim.network s) state.configs (sim.network.Reached S v))
    (hV : ∀ alt, V alt → ∃ p, sim.network.Reached S (v ++ input.types) alt p ∧ sim.network.Ends p)
    (hcontext : (∀ alt, V alt → m ≤ alt) →
      (sim.predictInContext start (sim.startSet true d) (input.seek start)).1 = .alternative m)
    (hsll : (sim.predictFrom d .sll start a state input).1 = .alternative m) :
    (sim.predictFrom d .ll start a state input).1 = .alternative m ∧
      (sim.predictFrom d .ll start a state input).2.1 =
        (sim.predictFrom d .sll start a state input).2.1 := by
  fun_induction predictFrom sim d .sll start a state input generalizing v with
  | case1 a state input a' h =>
    rw [predictFrom, h]
    exact ⟨hsll, rfl⟩
  | case2 a state input next a' h hctx p input' hp => simp at hctx
  | case3 a state input next a' h hctx alt hp =>
    obtain ⟨-, -, -, hc, hne, hverdict⟩ := h ▸ target_spec (t := input.kind) ha hready
    obtain rfl : alt = m := by simpa using hsll
    by_cases hneeds : next.needsContext = true
    · -- the verdict is the least alternative that is left
      have hmin : next.configs.alts.min? = some alt := by
        rcases hverdict with hv | ⟨hv, -⟩
        · unfold verdict at hv
          split at hv
          · rw [Prod.mk.injEq, hneeds] at hv
            cases hv.2
          · split at hv
            · rw [← (Prod.mk.inj hv).1, hp]
            · rw [Prod.mk.injEq, hneeds] at hv
              cases hv.2
        · rw [Prod.mk.injEq, hneeds] at hv
          cases hv.2
      have hleast : ∀ b, V b → alt ≤ b := by
        intro b hb
        obtain ⟨p, hreach, hend⟩ := hV b hb
        obtain ⟨w, hw⟩ := input.types_eq_cons
        rw [hw] at hreach
        have hwne : if input.kind = TokenType.eof then w = [] else w ≠ [] := by
          split
          · rename_i heof
            rw [TokenCursor.types_of_eof heof] at hw
            exact (List.cons.inj hw).2.symm
          · rename_i hne
            rw [TokenCursor.types_of_not_eof hne] at hw
            obtain ⟨u, hu⟩ := input.consume.types_eq_cons
            rw [← (List.cons.inj hw).2, hu]
            simp
        obtain ⟨k, hk⟩ := (shadows_over hn hshape hs).listed_reach hn hshape hcovers hwne hreach
          hend
        rw [← hc] at hk
        exact (AltSet.min?_eq_some hmin).2 b (mem_alts.2 ⟨k, hk⟩)
      rw [predictFrom, h]
      dsimp only
      rw [if_pos (by simp [hneeds])]
      exact ⟨hcontext hleast, rfl⟩
    · rw [predictFrom, h]
      dsimp only
      rw [if_neg (by simp [hneeds]), hp]
      exact ⟨rfl, rfl⟩
  | case4 a state input next a' h hctx hp heof => cases hsll
  | case5 a state input next a' h hctx hp heof ih =>
    obtain ⟨hrec, -, hfind⟩ := h ▸ target_spec (t := input.kind) ha hready
    have hne : input.kind ≠ TokenType.eof := fun he => heof (TokenCursor.isEof_current.2 he)
    have hneeds : next.needsContext = false := by
      obtain ⟨-, hc, hnonempty, hverdict⟩ := hfind
      rcases hverdict with hv | ⟨hv, -⟩
      · unfold verdict at hv
        split at hv
        · exact (Prod.mk.inj hv).2
        · split at hv
          · have hsome : next.configs.alts.min?.isSome = true := by
              refine isSome_min?_alts ?_ hnonempty
              rw [hc]
              exact ordered_reach _ _
            rw [← (Prod.mk.inj hv).1, hp] at hsome
            cases hsome
          · exact (Prod.mk.inj hv).2
      · exact (Prod.mk.inj hv).2
    have hcovers' := (shadows_over hn hshape hs).covers_reach hn hshape hcovers hne
    rw [← hfind.2.1] at hcovers'
    have htypes : v ++ input.types = (v ++ [input.kind]) ++ input.consume.types := by
      rw [TokenCursor.types_of_not_eof hne, List.append_assoc, List.singleton_append]
    have hih := ih hrec (hfind.1.ready hrec hp) hcovers' (by rwa [htypes] at hV)
      (by rwa [(TokenCursor.along_consume input).seek]) hsll
    rw [predictFrom, h]
    dsimp only
    rw [if_neg (by simp [hneeds]), hp]
    dsimp only
    rw [dif_neg heof]
    exact hih

/-- An alternative that leads to the end of the input, and that is decided on without the callers, is
decided on with them, and the same is recorded. -/
theorem predict_ll_eq {frames : List Frame} {input : TokenCursor}
    (hf : sim.network.PredicateFree) (ho : sim.Outer sim.invocation frames)
    (hfloor : floors sim.floor) (ha : Recorded sim.network d floors a)
    (h : sim.network.Inside s ⟨sim.network.decisionState d, sim.floor, frames⟩)
    (hinput : input.Stopped)
    (hquiet : ∀ u alt p, TokenType.eof ∉ u → sim.network.Reached (sim.network.Begins
      ⟨sim.network.decisionState d, sim.floor, frames⟩) u alt p → ¬ sim.network.Ends p)
    (hm : ∃ p, sim.network.Reached (sim.network.Begins
      ⟨sim.network.decisionState d, sim.floor, frames⟩) input.types m p ∧ sim.network.Ends p)
    (hsll : (sim.predict d .sll a input).1 = .alternative m) :
    (sim.predict d .ll a input).1 = .alternative m ∧
      (sim.predict d .ll a input).2.1 = (sim.predict d .sll a input).2.1 := by
  obtain ⟨hrec, -, hready, hconfigs⟩ := startState_spec (d := d) hfloor ha
  have hcovers := covers_startSet hn hshape hs d h
  rw [← hconfigs] at hcovers
  refine predictFrom_ll_eq hn hshape hs
    (V := fun alt => (∃ p, sim.network.Reached (Kept sim.network _) input.types alt p ∧
      sim.network.Ends p)) input.position hrec hready input hcovers (fun alt h => h) ?_ hsll
  intro hleast
  rw [hinput.seek]
  refine predictInContext_eq (v := []) hf hn hshape _ _ input (tracks_startSet hf hn hshape d ho)
    hquiet hm ?_
  rintro alt p ⟨p₀, hb, hr⟩ hend
  by_cases hkept : (sim.network.state (sim.network.decisionState d)).precedenceDecision = true → alt = 1
  · exact hleast alt ⟨p, ⟨p₀, ⟨hb, hkept⟩, hr⟩, hend⟩
  · -- what may have been dropped is the last of two alternatives
    rw [Classical.not_imp] at hkept
    obtain ⟨hmark, hne⟩ := hkept
    have hlength := hshape.choices h.nested.lt hmark
    have hle : ∀ b q, sim.network.Begins
        ⟨sim.network.decisionState d, sim.floor, frames⟩ b q → 1 ≤ b ∧ b ≤ 2 := by
      rintro b q ⟨i, t, hi, rfl, -⟩
      have hlt := (List.getElem?_eq_some_iff.1 hi).1
      rw [hlength] at hlt
      omega
    obtain ⟨q, ⟨q₀, hbm, -⟩, -⟩ := hm
    have h₁ := hle m q₀ hbm
    have h₂ := hle alt p₀ hb
    omega

end

end Simulation

end AdaptiveParsing
