import AdaptiveParsing.Proofs.Lookahead.Coverage
import AdaptiveParsing.Proofs.Token.Words
/-!
Lookahead with the live callers follows the ways through the network. A configuration stands at a place:
its own calls are the innermost returns, and the live invocations around it the others
(`Simulation.Stands`). The sets of lookahead hold the places at which a way waits for its next token
(`Simulation.Tracks`), so that of the alternatives that lead to the end of input the least one is taken.
Main statement: `Simulation.predictInContext_eq`.
-/

namespace AdaptiveParsing

namespace ConfigSet

open AltSet

variable {s : ConfigSet} {k : ConfigKey} {alt m : Nat} {t : TokenType}

theorem uniqueAlt?_eq_some {a : Nat} (h : s.uniqueAlt? = some a) (hl : Listed s.entries k alt) :
    alt = a := by
  have hm := mem_alts.2 ⟨k, hl⟩
  rw [AltSet.mem_iff] at hm
  unfold uniqueAlt? AltSet.single? at h
  split at h
  · rename_i b hb
    rw [hb] at hm
    obtain rfl := Option.some.inj h
    exact List.mem_singleton.1 hm
  · cases h

/-- The agreed alternative is the least one of every key. -/
theorem agreedAlt?_eq_some {a : Nat} (h : s.agreedAlt? = some a) :
    ∀ e ∈ s.entries, e.2.min? = some a := by
  unfold agreedAlt? at h
  cases he : s.entries with
  | nil =>
    intro e hm
    cases hm
  | cons e es =>
    rw [he] at h
    dsimp only at h
    cases hf : e.2.min? with
    | none => simp [hf] at h
    | some b =>
      simp only [hf, Option.bind_some] at h
      split at h
      · rename_i hall
        obtain rfl := Option.some.inj h
        intro e' hm
        rcases List.mem_cons.1 hm with rfl | hm
        · exact hf
        · simpa using List.all_eq_true.1 hall e' hm
      · cases h

/-- If one member is the least of those that can be right, every other of its key can be, and so can
every one at the end of input, then nothing else is settled on. -/
theorem settledAlt?_eq {V : Nat → Prop} (hm : Listed s.entries k m)
    (hkey : ∀ a, Listed s.entries k a → V a)
    (hend : t = TokenType.eof → ∀ l a, Listed s.entries l a → V a) (hmin : ∀ a, V a → m ≤ a)
    {a : Nat} (h : s.settledAlt? t = some a) : a = m := by
  have hmem := mem_alts.2 ⟨k, hm⟩
  unfold settledAlt? at h
  cases hu : s.uniqueAlt? with
  | some b =>
    simp only [hu, HOrElse.hOrElse, OrElse.orElse, Option.orElse, Option.some.injEq] at h
    rw [← h]
    exact (uniqueAlt?_eq_some hu hm).symm
  | none =>
    simp only [hu, HOrElse.hOrElse, OrElse.orElse, Option.orElse] at h
    cases hg : s.agreedAlt? with
    | some b =>
      simp only [hg, Option.some.injEq] at h
      subst h
      obtain ⟨alts, he, ha⟩ := hm
      obtain ⟨hb, hle⟩ := AltSet.min?_eq_some (agreedAlt?_eq_some hg _ he)
      exact Nat.le_antisymm (hle m ha) (hmin b (hkey b ⟨alts, he, hb⟩))
    | none =>
      simp only [hg] at h
      split at h
      · rename_i heof
        obtain rfl := Option.some.inj h
        cases hmin? : s.alts.min? with
        | none =>
          unfold AltSet.min? at hmin?
          rw [List.head?_eq_none_iff] at hmin?
          rw [AltSet.mem_iff, hmin?] at hmem
          cases hmem
        | some b =>
          obtain ⟨hb, hle⟩ := AltSet.min?_eq_some hmin?
          obtain ⟨l, hl⟩ := mem_alts.1 hb
          exact Nat.le_antisymm (hle m hmem) (hmin b (hend heof l b hl))
      · cases h

end ConfigSet

namespace Simulation

open ConfigSet

variable (sim : Simulation)

/-- Where the live invocations go on, from the one around a live invocation outwards. -/
inductive Outer : Option InvocationId → List Frame → Prop
  | root {id : Option InvocationId} (h : id.bind sim.liveReturn? = none) : Outer id []
  | caller {id : Option InvocationId} {key : ConfigKey} {frames : List Frame}
      (h : id.bind sim.liveReturn? = some key)
      (ho : Outer (sim.liveInvocation? key.placement) frames) :
      Outer id (⟨key.state, key.precedence⟩ :: frames)

/-- A configuration of lookahead with the live callers stands at a place. -/
structure Stands (k : ConfigKey) (p : Place) : Prop where
  state : p.state = k.state
  floor : p.floor = k.precedence
  returns : ∃ frames, sim.Outer (sim.liveInvocation? k.placement) frames ∧
    p.returns = k.stack ++ frames

/-- The members of a set stand where the ways of their alternatives have come to. -/
def Keeps (set : ConfigSet) (P : Nat → Place → Prop) : Prop :=
  ∀ k alt, Listed set.entries k alt → ∃ p, sim.Stands k p ∧ P alt p ∧
    ((sim.network.state k.state).isRuleStop = true → sim.network.Ends p)

/-- The members of a set stand where the ways of their alternatives wait or have ended, and no such
place is missing. -/
structure Tracks (set : ConfigSet) (P : Nat → Place → Prop) : Prop where
  sound : sim.Keeps set P
  complete : sim.Covers sim.Stands set P

variable {sim : Simulation} {k : ConfigKey} {p p' q : Place} {c d : Config} {t : Transition}
  {next seeds : List Config} {set : ConfigSet} {alt : Nat} {S : Nat → Place → Prop}
  {v : List TokenType} {levels : RuleId → Int → Prop}

theorem Outer.functional {id : Option InvocationId} {frames frames' : List Frame}
    (h : sim.Outer id frames) (h' : sim.Outer id frames') : frames = frames' := by
  induction h generalizing frames' with
  | root h =>
    cases h' with
    | root _ => rfl
    | caller h' _ =>
      rw [h] at h'
      cases h'
  | caller h _ ih =>
    cases h' with
    | root h' =>
      rw [h] at h'
      cases h'
    | caller h' ho =>
      rw [h] at h'
      obtain rfl := Option.some.inj h'
      rw [ih ho]

/-- A configuration stands at one place only. -/
theorem Stands.functional (h : sim.Stands k p) (h' : sim.Stands k p') : p = p' := by
  obtain ⟨frames, ho, hr⟩ := h.returns
  obtain ⟨frames', ho', hr'⟩ := h'.returns
  obtain rfl := ho.functional ho'
  exact Place.ext (h.state.trans h'.state.symm) (h.floor.trans h'.floor.symm) (hr.trans hr'.symm)

theorem Stands.moveTo (h : sim.Stands k p) (s : StateId) :
    sim.Stands (k.moveTo s) { p with state := s } := ⟨rfl, h.floor, h.returns⟩

/-- What a free edge does to a configuration it does to the place. -/
theorem Stands.follow (hf : sim.network.PredicateFree) (h : sim.Stands c.key p)
    (ht : t ∈ (sim.network.state c.key.state).transitions) :
    (sim.follow? c t = none ∧ p.follow? t = none) ∨
      ∃ d q, sim.follow? c t = some d ∧ p.follow? t = some q ∧ d.alt = c.alt ∧ sim.Stands d.key q := by
  have hasks := hf.asks ht c.key
  obtain ⟨hstate, hfloor, frames, ho, hr⟩ := h
  unfold follow? Place.follow?
  cases hk : t.kind with
  | epsilon | action _ _ => exact .inr ⟨_, _, rfl, rfl, rfl, rfl, hfloor, frames, ho, hr⟩
  | rule r back precedence =>
    refine .inr ⟨_, _, rfl, rfl, rfl, rfl, rfl, frames, ho, ?_⟩
    simp [hr, hfloor]
  | precedence level =>
    rw [← hfloor]
    by_cases hl : p.floor ≤ level
    · exact .inr ⟨_, _, if_pos hl, if_pos hl, rfl, rfl, hfloor, frames, ho, hr⟩
    · exact .inl ⟨if_neg hl, if_neg hl⟩
  | predicate r index dependent =>
    obtain ⟨t', kind⟩ := t
    cases hk
    have hp : (EdgeKind.predicate r index dependent).isPredicate = false := by
      unfold Network.state at ht
      rw [Array.getD_eq_getD_getElem?] at ht
      cases hs : sim.network.states[c.key.state]? with
      | none =>
        rw [hs] at ht
        cases ht
      | some st =>
        rw [hs] at ht
        exact hf st (Array.mem_of_getElem? hs) _ ht
    cases hp
  | atom _ | range _ _ | set _ | notSet _ | wildcard => exact .inl ⟨rfl, rfl⟩

theorem stands_back {frames : List Frame} {key : ConfigKey}
    (ho : sim.Outer (sim.liveInvocation? key.placement) frames) (hk : key.stack = []) :
    sim.Stands key ⟨key.state, key.precedence, frames⟩ :=
  ⟨rfl, rfl, frames, ho, by rw [hk, List.nil_append]⟩

/-- At the stop of a rule a configuration goes where the place goes, or both have come to the end. -/
theorem Stands.leave (h : sim.Stands c.key p)
    (hstop : (sim.network.state c.key.state).isRuleStop = true) :
    (∃ d q, sim.expand true c = .inl [d] ∧ d.alt = c.alt ∧ sim.Stands d.key q ∧
      ∃ f outer, p.returns = f :: outer ∧ q = .back f outer) ∨
    sim.network.Ends p ∧
      sim.expand true c = .inr { c with key := { c.key with placement := .root } } := by
  obtain ⟨hstate, hfloor, frames, ho, hr⟩ := h
  have hexpand : sim.expand true c = sim.leave true c (sim.network.state c.key.state).rule := by
    unfold expand
    exact if_pos hstop
  rw [hexpand]
  unfold Simulation.leave
  cases hstack : c.key.stack with
  | cons f stack =>
    left
    rw [hstack, List.cons_append] at hr
    exact ⟨_, _, rfl, rfl, ⟨rfl, rfl, frames, ho, rfl⟩, f, _, hr, rfl⟩
  | nil =>
    rw [hstack, List.nil_append] at hr
    cases ho with
    | root hroot =>
      right
      refine ⟨⟨hr, by rw [hstate]; exact hstop⟩, ?_⟩
      simp only [if_true, hroot]
    | @caller _ key outer hkey ho =>
      left
      have hkstack : key.stack = [] := by
        cases hid : sim.liveInvocation? c.key.placement with
        | none => simp [hid] at hkey
        | some id =>
          rw [hid, Option.bind_some] at hkey
          obtain ⟨parent, caller, back, -, -, -, rfl⟩ := liveReturn?_eq_some hkey
          rfl
      refine ⟨{ c with key }, _, ?_, rfl, stands_back ho hkstack, _, _, hr, rfl⟩
      simp only [if_true, hkey]

/-- At the end of a way the configuration is found. -/
theorem Stands.expand_ends (h : sim.Stands c.key p) (hend : sim.network.Ends p) :
    ∃ d, sim.expand true c = .inr d ∧ d.alt = c.alt ∧ sim.Stands d.key p := by
  have hstop := hend.2
  rw [h.state] at hstop
  rcases h.leave hstop with ⟨_, _, -, -, -, f, outer, hr, -⟩ | ⟨-, he⟩
  · rw [hend.1] at hr
    cases hr
  · refine ⟨_, he, rfl, h.state, h.floor, [], .root rfl, ?_⟩
    obtain ⟨frames, -, hr⟩ := h.returns
    rw [hend.1] at hr
    simp [(List.append_eq_nil_iff.1 hr.symm).1, hend.1]

/-- What is found stands where a way waits or has ended. -/
theorem Stands.expand_found (h : sim.Stands c.key p) (he : sim.expand true c = .inr d) :
    d.alt = c.alt ∧ sim.Stands d.key p ∧
      ((sim.network.state d.key.state).isRuleStop = true → sim.network.Ends p) := by
  by_cases hstop : (sim.network.state c.key.state).isRuleStop = true
  · rcases h.leave hstop with ⟨_, _, he', -⟩ | ⟨hend, -⟩
    · rw [he] at he'
      cases he'
    · obtain ⟨d', he', halt, hs⟩ := h.expand_ends hend
      rw [he] at he'
      obtain rfl := Sum.inr.inj he'
      exact ⟨halt, hs, fun _ => hend⟩
  · unfold expand at he
    rw [if_neg hstop] at he
    split at he
    · obtain rfl := Sum.inr.inj he
      exact ⟨rfl, h, fun hs => absurd hs hstop⟩
    · cases he

section

variable (hf : sim.network.PredicateFree) (hn : sim.network.Checked)

include hf

/-- What a configuration leads to is one step of its place away. -/
theorem Stands.expand_sound (h : sim.Stands c.key p) (he : sim.expand true c = .inl next)
    (hd : d ∈ next) :
    d.alt = c.alt ∧ ∃ q, sim.network.Step p [] q ∧ sim.Stands d.key q := by
  by_cases hstop : (sim.network.state c.key.state).isRuleStop = true
  · rcases h.leave hstop with ⟨d', q, he', halt, hq, f, outer, hr, rfl⟩ | ⟨-, he'⟩
    · rw [he] at he'
      obtain rfl := Sum.inl.inj he'
      obtain rfl := List.mem_singleton.1 hd
      exact ⟨halt, _, .back (by rw [h.state]; exact hstop) hr, hq⟩
    · rw [he] at he'
      cases he'
  · unfold expand at he
    rw [if_neg hstop] at he
    split at he
    · cases he
    · obtain rfl := Sum.inl.inj he
      obtain ⟨t, ht, hfollow⟩ := List.mem_filterMap.1 hd
      rcases h.follow hf ht with ⟨hnone, -⟩ | ⟨d', q, hd', hq, halt, hs⟩
      · rw [hfollow] at hnone
        cases hnone
      · rw [hfollow] at hd'
        obtain rfl := Option.some.inj hd'
        exact ⟨halt, q, .free (by rw [h.state]; exact ht) hq, hs⟩

/-- The configurations keep up with their places. -/
theorem shadows_stands : sim.Shadows true sim.Stands := by
  refine ⟨fun h => h.state, ?_, ?_, fun h => h.expand_ends, fun h _ _ => h.moveTo _⟩
  · intro c p q t h ht hfollow
    rw [h.state] at ht
    rcases h.follow hf ht with ⟨-, hnone⟩ | ⟨d, q', hd, hq, halt, hs⟩
    · rw [hfollow] at hnone
      cases hnone
    · rw [hfollow] at hq
      obtain rfl := Option.some.inj hq
      exact ⟨d, hd, halt, hs⟩
  · intro c p f outer h hstop hr
    rw [h.state] at hstop
    rcases h.leave hstop with ⟨d, q, he, halt, hq, f', outer', hr', rfl⟩ | ⟨hend, -⟩
    · rw [hr] at hr'
      obtain ⟨rfl, rfl⟩ := List.cons.inj hr'
      exact ⟨[d], d, he, .head _, halt, hq⟩
    · have hnil := hend.1
      rw [hr] at hnil
      cases hnil

include hn

/-- A closure holds only places that the ways of its seeds come to before the next token. -/
theorem keeps_closure (hshape : sim.network.Shaped levels) (asked predicated : Bool)
    (hseeds : ∀ c ∈ seeds, ∃ p, sim.Stands c.key p ∧ S c.alt p) :
    sim.Keeps (.ofList (sim.closure true seeds asked).found predicated)
      (sim.network.Reached S []) := by
  intro k alt hl
  rw [ConfigSet.listed_ofList, mem_found_closure (pending_closure_nil hshape hn asked)] at hl
  obtain ⟨c, hc, he⟩ := hl
  have hplace : ∀ c, sim.Expands true seeds c →
      ∃ p, sim.Stands c.key p ∧ sim.network.Reached S [] c.alt p := by
    intro c hc
    induction hc with
    | seed hc =>
      obtain ⟨p, hp, hS⟩ := hseeds _ hc
      exact ⟨p, hp, p, hS, .refl⟩
    | step _ he hd ih =>
      obtain ⟨p, hp, hS⟩ := ih
      obtain ⟨halt, q, hstep, hq⟩ := hp.expand_sound hf he hd
      rw [halt]
      exact ⟨q, hq, hS.trans (.single hstep)⟩
  obtain ⟨p, hp, hS⟩ := hplace c hc
  obtain ⟨halt, hs, hend⟩ := hp.expand_found he
  dsimp only at halt hs hend
  subst halt
  exact ⟨p, hs, hS, hend⟩

/-- Taking a token leads the members of a set where it leads their ways. -/
theorem tracks_taken (hshape : sim.network.Shaped levels) (asked predicated : Bool)
    (h : sim.Tracks set (sim.network.Reached S v)) (token : TokenType) :
    sim.Tracks (.ofList (sim.closure true (sim.taken set token) asked).found predicated)
      (sim.network.Reached S (v ++ [token])) := by
  refine ⟨?_, (shadows_stands hf).covers_taken hn hshape asked predicated h.complete token⟩
  have hseeds : ∀ c ∈ sim.taken set token, ∃ p, sim.Stands c.key p ∧
      sim.network.After (sim.network.Reached S v) token c.alt p := by
    intro c hc
    obtain ⟨b, hb, hc⟩ := List.mem_flatMap.1 hc
    rw [ConfigSet.mem_toList] at hb
    obtain ⟨p, hp, hP, -⟩ := h.sound b.key b.alt hb
    dsimp only at hc
    split at hc
    · cases hc
    · obtain ⟨t, ht, rfl⟩ := List.mem_map.1 hc
      obtain ⟨ht, hm⟩ := List.mem_filter.1 ht
      refine ⟨_, hp.moveTo t.target, p, hP, t, ?_, by simpa using hm, rfl⟩
      rw [hp.state]
      exact ht
  intro k alt hl
  obtain ⟨p, hp, hP, hend⟩ := keeps_closure hf hn hshape asked predicated hseeds k alt hl
  exact ⟨p, hp, Network.reached_after.1 hP, hend⟩

theorem tracks_reach (hshape : sim.network.Shaped levels)
    (h : sim.Tracks set (sim.network.Reached S v)) {token : TokenType} (ht : token ≠ TokenType.eof) :
    sim.Tracks (sim.reach true set token) (sim.network.Reached S (v ++ [token])) := by
  rw [reach_of_ne_eof ht]
  exact tracks_taken hf hn hshape _ _ h token

/-- What the end of input leaves has come to the end, with it or before. -/
theorem reach_eof_sound (hshape : sim.network.Shaped levels)
    (h : sim.Tracks set (sim.network.Reached S v))
    (hl : Listed (sim.reach true set TokenType.eof).entries k alt) :
    ∃ p, sim.network.Ends p ∧ (sim.network.Reached S (v ++ [TokenType.eof]) alt p ∨
      sim.network.Reached S v alt p) := by
  have htaken := tracks_taken hf hn hshape set.predicated set.predicated h TokenType.eof
  unfold reach at hl
  dsimp only at hl
  rw [if_pos rfl, listed_filterStates, listed_ofList, List.mem_append] at hl
  obtain ⟨hl | hl, hstop⟩ := hl
  · obtain ⟨p, -, hP, hend⟩ := htaken.sound k alt (listed_ofList.2 hl)
    exact ⟨p, hend hstop, .inl hP⟩
  · unfold atEnd at hl
    rw [if_pos rfl, List.mem_filter, mem_toList] at hl
    obtain ⟨p, -, hP, hend⟩ := h.sound k alt hl.1
    exact ⟨p, hend hl.2, .inr hP⟩

/-- A decision begins with the places past its edges. -/
theorem tracks_startSet (hshape : sim.network.Shaped levels) (d : DecisionId) {frames : List Frame}
    (ho : sim.Outer sim.invocation frames) :
    sim.Tracks (sim.startSet true d) (sim.network.Reached (sim.network.Begins
      ⟨sim.network.decisionState d, sim.floor, frames⟩) []) := by
  have hstart : sim.Stands (sim.startKey d) ⟨sim.network.decisionState d, sim.floor, frames⟩ :=
    ⟨rfl, rfl, frames, ho, rfl⟩
  rw [startSet_eq_startClosure, Bool.not_true, Bool.and_false, if_neg Bool.false_ne_true]
  refine ⟨keeps_closure hf hn hshape _ _ ?_, (shadows_stands hf).covers_start hn hshape d hstart⟩
  intro c hc
  obtain ⟨⟨t, i⟩, ht, hfollow⟩ := List.mem_filterMap.1 hc
  have hi := List.mem_zipIdx_iff_getElem?.1 ht
  dsimp only at hfollow hi
  rcases Stands.follow (c := ⟨sim.startKey d, i + 1⟩) hf hstart (List.mem_of_getElem? hi) with
    ⟨hnone, -⟩ | ⟨c', q, hc', hq, halt, hs⟩
  · rw [hfollow] at hnone
    cases hnone
  · rw [hfollow] at hc'
    obtain rfl := Option.some.inj hc'
    exact ⟨q, hs, i, t, hi, halt, hq⟩

/-- Of the alternatives that lead to the end with what is before the cursor, lookahead with the live
callers takes the least. -/
theorem predictInContext_eq (hshape : sim.network.Shaped levels) {m : Nat} (start : Nat)
    (set : ConfigSet) (input : TokenCursor) {v : List TokenType}
    (h : sim.Tracks set (sim.network.Reached S v))
    (hquiet : ∀ u alt p, TokenType.eof ∉ u → sim.network.Reached S (v ++ u) alt p →
      ¬ sim.network.Ends p)
    (hm : ∃ p, sim.network.Reached S (v ++ input.types) m p ∧ sim.network.Ends p)
    (hmin : ∀ alt p, sim.network.Reached S (v ++ input.types) alt p → sim.network.Ends p → m ≤ alt) :
    (sim.predictInContext start set input).1 = .alternative m := by
  -- some member is where the way of `m` is, and what shares its key goes on as that does
  have hmember : ∃ k, Listed (sim.reach true set input.kind).entries k m ∧
      (∀ a, Listed (sim.reach true set input.kind).entries k a →
        ∃ p, sim.network.Reached S (v ++ input.types) a p ∧ sim.network.Ends p) ∧
      (input.kind = TokenType.eof → ∀ l a, Listed (sim.reach true set input.kind).entries l a →
        ∃ p, sim.network.Reached S (v ++ input.types) a p ∧ sim.network.Ends p) := by
    by_cases heof : input.kind = TokenType.eof
    · have hall : ∀ l a, Listed (sim.reach true set input.kind).entries l a →
          ∃ p, sim.network.Reached S (v ++ input.types) a p ∧ sim.network.Ends p := by
        intro l a hl
        rw [heof] at hl
        rw [TokenCursor.types_of_eof heof]
        obtain ⟨p, hend, hp | hp⟩ := reach_eof_sound hf hn hshape h hl
        · exact ⟨p, hp, hend⟩
        · refine absurd hend (hquiet [] a p (by simp) ?_)
          rwa [List.append_nil]
      rw [TokenCursor.types_of_eof heof] at hm
      obtain ⟨p, hp, hend⟩ := hm
      obtain ⟨k, hk, -⟩ := (shadows_stands hf).covers_reach_eof hn hshape h.complete hp hend
      rw [← heof] at hk
      exact ⟨k, hk, fun a => hall k a, fun _ => hall⟩
    · have htracks := tracks_reach hf hn hshape h heof
      rw [TokenCursor.types_of_not_eof heof, List.append_cons] at hm ⊢
      obtain ⟨w, hw⟩ := input.consume.types_eq_cons
      obtain ⟨p, hp, hend⟩ := hm
      rw [hw] at hp
      obtain ⟨q, hwait, hq, t, ht, hmatch, hr⟩ := hp.waits
      obtain ⟨k, hk, hs⟩ := htracks.complete m q hq (.inl hwait)
      refine ⟨k, hk, ?_, fun he => absurd he heof⟩
      intro a ha
      obtain ⟨q', hs', hP, -⟩ := htracks.sound k a ha
      obtain rfl := hs.functional hs'
      refine ⟨p, hP.trans ?_, hend⟩
      rw [hw]
      exact (Network.Reads.single (.take ht hmatch)).trans hr
  obtain ⟨k, hk, hkey, hall⟩ := hmember
  have hsettled : ∀ a, (sim.reach true set input.kind).settledAlt? input.kind = some a → a = m := by
    intro a ha
    exact settledAlt?_eq hk hkey hall (fun a ⟨p, hp, hend⟩ => hmin a p hp hend) ha
  unfold predictInContext
  dsimp only
  rw [if_neg (by simp [isEmpty_of_listed hk])]
  cases hs : (sim.reach true set input.kind).settledAlt? input.kind with
  | some a => rw [hsettled a hs]
  | none =>
    by_cases heof : input.current.isEof = true
    · have : (sim.reach true set input.kind).settledAlt? input.kind ≠ none := by
        simp [ConfigSet.settledAlt?, TokenCursor.isEof_current.1 heof]
      exact absurd hs this
    · dsimp only
      rw [dif_neg heof]
      have hne : input.kind ≠ TokenType.eof := fun he => heof (TokenCursor.isEof_current.2 he)
      have htypes : v ++ input.types = (v ++ [input.kind]) ++ input.consume.types := by
        rw [TokenCursor.types_of_not_eof hne, List.append_assoc, List.singleton_append]
      rw [htypes] at hm hmin
      refine predictInContext_eq hshape start _ input.consume
        (tracks_reach hf hn hshape h hne) ?_ hm hmin
      intro u alt p hu hp
      refine hquiet (input.kind :: u) alt p ?_ (by rwa [List.append_assoc] at hp)
      simp only [List.mem_cons, not_or]
      exact ⟨fun he => hne he.symm, hu⟩
termination_by input.remaining
decreasing_by exact TokenCursor.remaining_consume_lt (by simpa using heof)

end

end Simulation

end AdaptiveParsing
