import AdaptiveParsing.Proofs.Lookahead.Dropping
import AdaptiveParsing.Proofs.Lookahead.Ending
import AdaptiveParsing.Proofs.Lookahead.Transparency
/-!
Lookahead takes the least alternative that leads to the end of the input. Where some way of an alternative
is in the set to start with, the alternative stays in the sets of all tokens, so that lookahead does not fail
and a verdict for one alternative is a verdict for this one (`Simulation.predictFrom_eq`); a conflict is
settled with the callers. Main statement: `Simulation.predict_least`.
-/

namespace AdaptiveParsing

open ConfigSet

/-- Some way of this alternative takes the word and ends. -/
def Network.Viable (n : Network) (p : Place) (w : List TokenType) (alt : Nat) : Prop :=
  ∃ q, n.Reached (n.Begins p) w alt q ∧ n.Ends q

namespace Network

variable {n : Network} {s : RuleId} {q e a b : StateId} {levels : RuleId → Int → Prop}

/-- The states past the end of input: nothing leads to them but the edge that takes it. -/
def Past (n : Network) (s : RuleId) (e a : StateId) : Prop := a = e ∨ a = (n.rule s).stop

theorem Closes.not_past_next (h : n.Closes s q e) {t : Transition} (ht : t ∈ (n.state a).transitions)
    (ha : a ≠ e) (hk : t.isConsuming = false) : ¬ n.Past s e t.next := by
  have hq : a ≠ q := by
    rintro rfl
    rw [h.take, List.mem_singleton] at ht
    subst ht
    cases hk
  rw [Past, not_or]
  exact h.ongoing_next ha hq ht

theorem Closes.not_past_start (h : n.Closes s q e) (hshape : n.Shaped levels) {r : RuleId}
    (hr : r < n.rules.size) (hne : r ≠ s) : ¬ n.Past s e (n.rule r).start := by
  have hrule := (hshape.rule r hr).start_rule
  rintro (he | hs)
  · rw [he, h.exit_rule] at hrule
    exact hne hrule.symm
  · rw [hs, (hshape.rule s h.lt).stop_rule] at hrule
    exact hne hrule.symm

theorem Closes.not_past_follow (h : n.Closes s q e) (hn : n.Checked) {r : RuleId}
    (hb : b ∈ n.followStates r) : ¬ n.Past s e b := by
  obtain ⟨a, t, ht, precedence, hk⟩ := hn.returns_call r b hb
  have hnext : t.next = b := by rw [Transition.next, hk]
  have hae : a ≠ e := by
    rintro rfl
    rw [h.exit, List.mem_singleton] at ht
    subst ht
    cases hk
  rw [← hnext]
  exact h.not_past_next ht hae (by simp [Transition.isConsuming, hk, EdgeKind.isConsuming])

theorem Closes.not_past_of_ongoing {p : Place} (h : n.Closes s q e) (hshape : n.Shaped levels)
    (hn : n.Checked) (hin : n.Inside s p) (hgo : n.Ongoing s e p) : ¬ n.Past s e p.state := by
  intro hpast
  have hrule : (n.state p.state).rule = s := by
    rcases hpast with he | hs
    · rw [he, h.exit_rule]
    · rw [hs, (hshape.rule s h.lt).stop_rule]
  rw [Ongoing, Place.outermost_of_nil (h.outermost_of_rule hn hin hrule)] at hgo
  exact hpast.elim hgo.1 hgo.2

/-- Without a token a place that waits is not left. -/
theorem Waits.eq_of_reads {p p' : Place} (h : n.Waits p) (hn : n.Checked) (hr : n.Reads p [] p') :
    p' = p := by
  generalize hw : ([] : List TokenType) = w at hr
  induction hr with
  | refl => rfl
  | step _ hs ih =>
    obtain ⟨rfl, rfl⟩ := List.append_eq_nil_iff.1 hw.symm
    obtain rfl := ih rfl
    obtain ⟨t, ht, hk⟩ := h
    cases hs with
    | @free _ u hu hfollow =>
      rw [hn.single _ t ht hk, List.mem_singleton] at hu
      subst hu
      rw [follow?_of_isConsuming hk] at hfollow
      cases hfollow
    | back hstop _ =>
      rw [hn.not_stop ht] at hstop
      cases hstop

end Network

namespace Simulation

open Automaton

variable {sim : Simulation} {s : RuleId} {q e : StateId} {k : ConfigKey} {alt m : Nat} {c c' : Config}
  {levels : RuleId → Int → Prop} {d : DecisionId} {floors : Int → Prop} {a : Automaton}
  {set : ConfigSet} {S : Nat → Place → Prop} {v : List TokenType} {frames : List Frame}
  {next : List Config}

/-- Neither the configuration nor a return of its calls is past the end of input. -/
def Before (n : Network) (s : RuleId) (e : StateId) (k : ConfigKey) : Prop :=
  ¬ n.Past s e k.state ∧ ∀ f ∈ k.stack, ¬ n.Past s e f.returnState

section

variable (h : sim.network.Closes s q e) (hshape : sim.network.Shaped levels) (hn : sim.network.Checked)

include h hshape

theorem Before.follow {t : Transition} (hk : Before sim.network s e c.key)
    (ht : t ∈ (sim.network.state c.key.state).transitions) (hfollow : sim.follow? c t = some c') :
    Before sim.network s e c'.key := by
  obtain ⟨hstate, hstack⟩ := hk
  have hne : c.key.state ≠ e := fun he => hstate (.inl he)
  rcases follow?_eq_some hfollow with ⟨r, back, precedence, hk, rfl⟩ | ⟨hcall, hcons, rfl⟩
  · have hnext := h.not_past_next ht hne (by simp [Transition.isConsuming, hk, EdgeKind.isConsuming])
    rw [Transition.next, hk] at hnext
    obtain ⟨hr, htarget⟩ := hshape.call _ t ht r back precedence hk
    have hrs : r ≠ s := fun hrs => h.uncalled _ t ht back precedence (hrs ▸ hk)
    refine ⟨?_, ?_⟩
    · rw [htarget]
      exact h.not_past_start hshape hr hrs
    · intro g hg
      rcases List.mem_cons.1 hg with rfl | hg
      · exact hnext
      · exact hstack g hg
  · have hnext := h.not_past_next ht hne hcons
    rw [Transition.next_eq_target hcall] at hnext
    exact ⟨hnext, hstack⟩

include hn

/-- Without a token no configuration comes past the end of input. -/
theorem Before.expand (hk : Before sim.network s e c.key) (he : sim.expand false c = .inl next)
    (hc : c' ∈ next) : Before sim.network s e c'.key := by
  unfold Simulation.expand at he
  dsimp only at he
  split at he
  · unfold leave at he
    split at he
    · rename_i f stack hs
      obtain rfl := Sum.inl.inj he
      obtain rfl := List.mem_singleton.1 hc
      obtain ⟨-, hstack⟩ := hk
      rw [hs] at hstack
      exact ⟨hstack f (.head _), fun g hg => hstack g (.tail _ hg)⟩
    · rw [if_neg Bool.false_ne_true] at he
      split at he
      · cases he
      · obtain rfl := Sum.inl.inj he
        obtain ⟨key, hkey, rfl⟩ := List.mem_map.1 hc
        obtain ⟨b, hb, rfl⟩ := List.mem_map.1 hkey
        exact ⟨h.not_past_follow hn hb, nofun⟩
  · split at he
    · cases he
    · obtain rfl := Sum.inl.inj he
      obtain ⟨t, ht, hfollow⟩ := List.mem_filterMap.1 hc
      exact hk.follow h hshape ht hfollow

/-- No decision starts with a configuration past the end of input. -/
theorem before_of_listed (hd : ¬ sim.network.Past s e (sim.network.decisionState d))
    (hl : Listed (sim.startSet false d).entries k alt) : Before sim.network s e k := by
  have hstart : Listed (sim.startClosure false d).entries k alt := by
    rw [startSet_eq_startClosure] at hl
    split at hl
    · exact (listed_filterPrecedence.1 hl).1
    · exact hl
  have hall : ∀ c, sim.Expands false (sim.startSeeds d) c → Before sim.network s e c.key := by
    intro c hc
    induction hc with
    | seed hc =>
      obtain ⟨⟨t, i⟩, ht, hfollow⟩ := List.mem_filterMap.1 hc
      have hkey : Before sim.network s e (sim.startKey d) := ⟨hd, nofun⟩
      exact hkey.follow (c := ⟨sim.startKey d, i + 1⟩) h hshape
        (List.mem_of_getElem? (List.mem_zipIdx_iff_getElem?.1 ht)) hfollow
    | step _ he hc ih => exact ih.expand h hshape hn he hc
  rw [startClosure, listed_ofList, mem_found_closure (pending_closure_nil hshape hn _)] at hstart
  obtain ⟨c, hc, he⟩ := hstart
  obtain rfl := eq_of_expand_inr he
  exact hall _ hc

end

section

variable (hn : sim.network.Checked) (hshape : sim.network.Shaped levels)
  (hf : sim.network.PredicateFree) (hcloses : sim.network.Closes s q e)

include hn hshape hf hcloses

omit hf in
/-- The alternative is still there past the next token. -/
theorem listed_reach_of_reached {input : TokenCursor}
    (hcovers : sim.Covers (Over sim.network s) set (sim.network.Reached S v))
    (hm : ∃ p, sim.network.Reached S (v ++ input.types) m p ∧ sim.network.Ends p) :
    ∃ k, Listed (sim.reach false set input.kind).entries k m := by
  obtain ⟨p, hreach, hend⟩ := hm
  obtain ⟨w, hw⟩ := input.types_eq_cons
  rw [hw] at hreach
  refine (shadows_over hn hshape (hcloses.followStates_eq_nil hn)).listed_reach hn hshape hcovers ?_ hreach
    hend
  split
  · rename_i heof
    rw [TokenCursor.types_of_eof heof] at hw
    exact (List.cons.inj hw).2.symm
  · rename_i hne
    rw [TokenCursor.types_of_not_eof hne] at hw
    obtain ⟨u, hu⟩ := input.consume.types_eq_cons
    rw [← (List.cons.inj hw).2, hu]
    simp

omit hf in
/-- What the end of input leads to is not a set to start with: some configuration of it has come to the end
of the start rule. -/
theorem reach_eof_ne_firstSet (hd : ¬ sim.network.Past s e (sim.network.decisionState d))
    (hcovers : sim.Covers (Over sim.network s) set (sim.network.Reached S v))
    (hm : ∃ p, sim.network.Reached S (v ++ [TokenType.eof]) m p ∧ sim.network.Ends p) (floor : Int) :
    sim.reach false set TokenType.eof ≠ sim.network.firstSet d floor := by
  intro hfirst
  obtain ⟨p, hp, hend⟩ := hm
  obtain ⟨k, hk, hover⟩ := (shadows_over hn hshape (hcloses.followStates_eq_nil hn)).covers_reach_eof hn
    hshape hcovers hp hend
  rw [hfirst] at hk
  have hbefore := @before_of_listed (sim.network.bare floor) s q e k m levels d hcloses hshape hn hd hk
  have hnested := hover.inside.nested
  rw [hend.1] at hnested
  have hkind : (sim.network.state p.state).kind = .ruleStop := by
    simpa [NetworkState.isRuleStop] using hend.2
  have hstop := (hshape.rule s hcloses.lt).stop_only p.state hnested.2 hkind
  exact hbefore.1 (.inr (hover.state.symm.trans hstop))

/-- If the sets cover the ways of an alternative that leads to the end of the input, then lookahead takes this
alternative, as far as it does not come to a conflict. -/
theorem predictFrom_eq (hd : ¬ sim.network.Past s e (sim.network.decisionState d)) (start : Nat)
    (ha : Recorded sim.network d floors a) {state : AutomatonState}
    (hready : Ready sim.network d floors a state) (input : TokenCursor)
    (hcovers : sim.Covers (Over sim.network s) state.configs (sim.network.Reached S v))
    (hm : ∃ p, sim.network.Reached S (v ++ input.types) m p ∧ sim.network.Ends p)
    (hcontext : (sim.predictInContext start (sim.startSet true d) (input.seek start)).1 =
      .alternative m) :
    (sim.predictFrom d .ll start a state input).1 = .alternative m := by
  fun_induction predictFrom sim d .ll start a state input generalizing v with
  | case1 a state input a' h =>
    obtain ⟨-, -, hfind⟩ := h ▸ target_spec (t := input.kind) ha hready
    obtain ⟨k, hk⟩ := listed_reach_of_reached hn hshape hcloses hcovers hm
    have hempty := hfind hf.deadEndsAgree
    rw [isEmpty_of_listed hk] at hempty
    cases hempty
  | case2 a state input next a' h hctx p input' hp =>
    rw [hp] at hcontext
    exact hcontext
  | case3 a state input next a' h hctx alt hp =>
    obtain ⟨-, -, -, hc, -, hverdict⟩ := h ▸ target_spec (t := input.kind) ha hready
    have hneeds : next.needsContext = false := by simpa using hctx
    rcases hverdict with hv | ⟨hv, -⟩
    · rw [hp, hneeds] at hv
      unfold verdict at hv
      split at hv
      · rename_i b hunique
        obtain ⟨k, hk⟩ := listed_reach_of_reached hn hshape hcloses hcovers hm
        rw [← hc] at hk
        rw [Option.some.inj (Prod.mk.inj hv).1, uniqueAlt?_eq_some hunique hk]
      · split at hv
        · cases (Prod.mk.inj hv).2
        · cases (Prod.mk.inj hv).1
    · rw [hp] at hv
      cases (Prod.mk.inj hv).1
  | case4 a state input next a' h hctx hp heof =>
    have hkind : input.kind = TokenType.eof := TokenCursor.isEof_current.1 heof
    obtain ⟨-, -, -, hc, hne, hverdict⟩ := h ▸ target_spec (t := input.kind) ha hready
    rw [TokenCursor.types_of_eof hkind] at hm
    rw [hkind] at hc
    rcases hverdict with hv | ⟨-, -, -, -, floor, -, hfirst⟩
    · have hsome := isSome_verdict_of_stop (hc ▸ ordered_reach state.configs _) hne
        (hc ▸ allAtRuleStop_reach_eof state.configs)
      rw [← hv, hp] at hsome
      cases hsome
    · exact absurd (hc.symm.trans hfirst) (reach_eof_ne_firstSet hn hshape hcloses hd hcovers hm floor)
  | case5 a state input next a' h hctx hp heof ih =>
    obtain ⟨hrec, -, hfind⟩ := h ▸ target_spec (t := input.kind) ha hready
    have hne : input.kind ≠ TokenType.eof := fun he => heof (TokenCursor.isEof_current.2 he)
    have hcovers' := (shadows_over hn hshape (hcloses.followStates_eq_nil hn)).covers_reach hn hshape
      hcovers hne
    rw [← hfind.2.1] at hcovers'
    have htypes : v ++ input.types = (v ++ [input.kind]) ++ input.consume.types := by
      rw [TokenCursor.types_of_not_eof hne, List.append_assoc, List.singleton_append]
    rw [htypes] at hm
    refine ih hrec (hfind.1.ready hrec hp) hcovers' hm ?_
    rwa [(TokenCursor.along_consume input).seek]

end

section

variable (N : sim.network.Built levels) (hf : sim.network.PredicateFree)
  (hcloses : sim.network.Closes s q e)

include N hf

/-- The set to start with holds the place where some way of the least alternative waits. -/
theorem exists_held {w : List TokenType} (hapart : sim.network.RoundsApart)
    (hnil : sim.network.followStates s = [])
    (hin : sim.network.Inside s ⟨sim.network.decisionState d, sim.floor, frames⟩) (hw : w ≠ [])
    (hleast : IsLeast {alt | sim.network.Viable ⟨sim.network.decisionState d, sim.floor, frames⟩ w alt} m) :
    ∃ p r, sim.network.Waits p ∧ sim.network.Reads p w r ∧ sim.network.Ends r ∧
      ∃ k, Listed (sim.startSet false d).entries k m ∧ Over sim.network s k p := by
  obtain ⟨⟨r, hreach, hend⟩, hle⟩ := hleast
  obtain ⟨token, w, rfl⟩ := List.exists_cons_of_ne_nil hw
  obtain ⟨p, hwaits, hp, t, ht, hmatch, hr⟩ := hreach.waits (v := [])
  have hr : sim.network.Reads p (token :: w) r := (Network.Reads.single (.take ht hmatch)).trans hr
  refine ⟨p, r, hwaits, hr, hend, ?_⟩
  by_cases hkept : (sim.network.state (sim.network.decisionState d)).precedenceDecision = true → m = 1
  · obtain ⟨p₀, hb, hp⟩ := hp
    exact covers_startSet N.checked N.shaped hnil d hin m p ⟨p₀, ⟨hb, hkept⟩, hp⟩ (.inl hwaits)
  · -- the way leaves a loop of operators
    rw [Classical.not_imp] at hkept
    obtain ⟨hmark, hne⟩ := hkept
    obtain ⟨zone, round, exit, L⟩ := N.shaped.exists_loop hin.nested.lt hmark
    obtain ⟨p₀, ⟨i, u, hi, rfl, hfollow⟩, hp⟩ := hp
    have hedges := L.edges
    dsimp only at hi
    rw [hedges] at hi
    match i, hi with
    | 0, _ => exact absurd rfl hne
    | 1, hi =>
      obtain rfl := Option.some.inj hi
      obtain rfl := Option.some.inj hfollow
      rcases kept_or_round N L rfl hf hapart hin hp hwaits hr hend with hkept | hround
      · exact hkept
      · have hviable := hle (a := 1) ⟨r, ⟨_, ⟨0, .epsilon round, by simp [hedges], rfl, rfl⟩, hround⟩, hend⟩
        omega

include hcloses

/-- Of the alternatives that lead to the end with what is before the cursor, lookahead takes the least. -/
theorem predict_least {input : TokenCursor} (hapart : sim.network.RoundsApart)
    (ho : sim.Outer sim.invocation frames) (hfloor : floors sim.floor)
    (ha : Recorded sim.network d floors a)
    (hin : sim.network.Inside s ⟨sim.network.decisionState d, sim.floor, frames⟩)
    (hgo : sim.network.Ongoing s e ⟨sim.network.decisionState d, sim.floor, frames⟩)
    (hinput : input.Stopped) (hleast : IsLeast {alt | sim.network.Viable
      ⟨sim.network.decisionState d, sim.floor, frames⟩ input.types alt} m) :
    (sim.predict d .ll a input).1 = .alternative m := by
  obtain ⟨hrec, -, hready, hconfigs⟩ := startState_spec (d := d) hfloor ha
  have hnil := hcloses.followStates_eq_nil N.checked
  have hw : input.types ≠ [] := by
    obtain ⟨w, hw⟩ := input.types_eq_cons
    rw [hw]
    exact List.cons_ne_nil _ _
  obtain ⟨p, r, hwaits, hr, hend, k, hk, hover⟩ := exists_held N hf hapart hnil hin hw hleast
  have hcovers : sim.Covers (Over sim.network s) (sim.startSet false d)
      (sim.network.Reached (fun alt p' => alt = m ∧ p' = p) []) := by
    rintro alt p' ⟨p₀, ⟨rfl, rfl⟩, hp⟩ -
    rw [hwaits.eq_of_reads N.checked hp]
    exact ⟨k, hk, hover⟩
  rw [← hconfigs] at hcovers
  refine predictFrom_eq N.checked N.shaped hf hcloses (hcloses.not_past_of_ongoing N.shaped N.checked hin hgo)
    input.position hrec hready input hcovers ⟨r, ⟨p, ⟨rfl, rfl⟩, hr⟩, hend⟩ ?_
  rw [hinput.seek]
  exact predictInContext_eq (v := []) hf N.checked N.shaped _ _ input
    (tracks_startSet hf N.checked N.shaped d ho)
    (fun u alt p heof hp => hcloses.not_ends N.shaped N.checked hin hgo hp heof) hleast.1
    fun alt p hp hend => hleast.2 ⟨p, hp, hend⟩

end

end Simulation

end AdaptiveParsing
