import AdaptiveParsing.Proofs.Lookahead.Agreement
import AdaptiveParsing.Proofs.Network.Tails
/-!
Leaving a loop of operators against another round of it. A way that leaves the loop may come back to the
same rule in an invocation further out, and go on there as another round of the inner invocation would. If
what is left of that outer round can be the end of it (`Network.RoundsApart`), then the inner invocation can
take the round as well and leave the loop afterwards. Main statement: `Network.Built.round_of_exit`.
-/

namespace AdaptiveParsing

namespace Network

section

variable (n : Network)

/-- From the end of rule `r` a way past no token leaves rule `c` and goes on at `b`. -/
inductive Returns (r : RuleId) : RuleId → StateId → Prop
  | call {b : StateId} (hb : b ∈ n.followStates r) : Returns r r b
  | outward {c : RuleId} {a b b' : StateId} (h : Returns r c b) (hr : n.Runs 0 b [] a)
      (hs : (n.state a).isRuleStop = true) (hb : b' ∈ n.followStates (n.state a).rule) :
      Returns r (n.state a).rule b'

/-- A token is taken here, or a call made. -/
def Acts (a : StateId) : Prop :=
  ∃ t ∈ (n.state a).transitions, t.isConsuming = true ∨ t.call? ≠ none

/-- Where a call of another rule returns into a rule of operators, after an operand that was the end of
it, nothing comes next that could also begin a round, or else the round may end there. -/
def RoundsApart : Prop :=
  ∀ loop round exit, (n.state loop).precedenceDecision = true →
    (n.state loop).transitions = [.epsilon round, .epsilon exit] →
    ∀ c b, n.Returns (n.state loop).rule c b → (n.rule c).leftRecursive = false →
      (n.state b).rule = (n.state loop).rule →
      ∀ a, n.Acts a → n.Runs 0 round [] a → n.Runs 0 b [] a → n.Quiet b loop

/-- The floors of these returns are those of the calls that return there; the outermost is `base`. -/
def Priced (base : Int) : Int → List Frame → Prop
  | floor, [] => floor = base
  | floor, f :: rest => n.returnPrecedenceAt f.returnState = some floor ∧ Priced base f.precedence rest

/-- Each call is noted where it returns to. -/
def Prices : Prop :=
  ∀ a, ∀ t ∈ (n.state a).transitions, ∀ r follow precedence, t.kind = .rule r follow precedence →
    n.returnPrecedenceAt follow = some precedence

/-- What every compiled network has. -/
structure Built (levels : RuleId → Int → Prop) : Prop where
  shaped : n.Shaped levels
  checked : n.Checked
  prices : n.Prices
  tails : ∀ r, r < n.rules.size → Tails n.state r (n.rule r)
  rule_lt : ∀ a, a < n.states.size → (n.state a).rule < n.rules.size

/-- The loop of a rule of operators in its zones, with the first states of another round and of its end. -/
structure Loop (levels : RuleId → Int → Prop) (zone : StateId → Zone) (loop round exit : StateId) :
    Prop where
  lt : (n.state loop).rule < n.rules.size
  shape : LoopShape n.state (n.state loop).rule (n.rule (n.state loop).rule)
    (levels (n.state loop).rule) loop zone
  edges : (n.state loop).transitions = [.epsilon round, .epsilon exit]
  round : zone round = .guard
  exit : zone exit = .ended

end

variable {n : Network} {levels : RuleId → Int → Prop} {zone : StateId → Zone}
  {loop round exit a b s : StateId} {floor floor' base base' : Int} {u w : List TokenType}
  {p q : Place} {outer frames frames' : List Frame} {t : Transition}

theorem Returns.mem {r c : RuleId} (h : n.Returns r c b) : b ∈ n.followStates c := by
  cases h with
  | call hb => exact hb
  | outward _ _ _ hb => exact hb

theorem Runs.trans {c : StateId} (h : n.Runs floor a u b) (h' : n.Runs floor b w c) :
    n.Runs floor a (u ++ w) c := by
  induction h' with
  | refl => rwa [List.append_nil]
  | free _ ht hk ih => exact .free ih ht hk
  | level _ ht hk hl ih => exact .level ih ht hk hl
  | take _ ht hm ih =>
    rw [← List.append_assoc]
    exact .take ih ht hm
  | call _ ht hk hc ih =>
    rw [← List.append_assoc]
    exact .call ih ht hk hc

/-- With a lower floor no edge is closed. -/
theorem Runs.lower (h : n.Runs floor a w s) (hle : floor' ≤ floor) : n.Runs floor' a w s := by
  induction h with
  | refl => exact .refl
  | free _ ht hk ih => exact .free ih ht hk
  | level _ ht hk hl ih => exact .level ih ht hk (Int.le_trans hle hl)
  | take _ ht hm ih => exact .take ih ht hm
  | call _ ht hk hc ih => exact .call ih ht hk hc

theorem next_of_isFree (h : t.kind.isFree = true) : t.next = t.target := by
  refine Transition.next_eq_target ?_
  unfold Transition.call?
  cases hk : t.kind <;> simp_all [EdgeKind.isFree]

/-- Inside one invocation a way stays in its rule. -/
theorem Runs.rule (hshape : n.Shaped levels) (hlt : (n.state a).rule < n.rules.size)
    (h : n.Runs floor a w s) : (n.state s).rule = (n.state a).rule := by
  have hnext : ∀ s, (n.state s).rule = (n.state a).rule → ∀ t ∈ (n.state s).transitions,
      (n.state t.next).rule = (n.state a).rule := fun s hs t ht =>
    ((hshape.rule _ hlt).next s hs t ht).2
  induction h with
  | refl => rfl
  | free _ ht hk ih =>
    rw [← next_of_isFree hk]
    exact hnext _ ih _ ht
  | level _ ht hk _ ih =>
    have := hnext _ ih _ ht
    rwa [Transition.next_eq_target (by simp [Transition.call?, hk])] at this
  | take _ ht hm ih =>
    have := hnext _ ih _ ht
    rwa [Transition.next_eq_target (call?_of_matches hm)] at this
  | call _ ht hk _ ih =>
    have := hnext _ ih _ ht
    rwa [Transition.next, hk] at this

/-- A way that starts among some states stays among them, or it leaves them for `c` first. Up to there it
can be gone with any floor that opens the same levels. -/
theorem Runs.first {Z : StateId → Prop} {c : StateId}
    (hZ : ∀ s, Z s → ∀ t ∈ (n.state s).transitions, Z t.next ∨ t.next = c)
    (hopen : ∀ s, Z s → ∀ t ∈ (n.state s).transitions, ∀ level, t.kind = .precedence level →
      floor ≤ level → floor' ≤ level)
    (ha : Z a) (h : n.Runs floor a w s) :
    (Z s ∧ n.Runs floor' a w s) ∨
      ∃ u v, w = u ++ v ∧ n.Runs floor' a u c ∧ n.Runs floor c v s := by
  have hnext : ∀ {s : StateId} {w : List TokenType} {t : Transition}, Z s →
      t ∈ (n.state s).transitions → n.Runs floor' a w t.next →
      (Z t.next ∧ n.Runs floor' a w t.next) ∨
        ∃ u v, w = u ++ v ∧ n.Runs floor' a u c ∧ n.Runs floor c v t.next := by
    intro s w t hs ht hrun
    rcases hZ s hs t ht with hnext | hnext
    · exact .inl ⟨hnext, hrun⟩
    · rw [hnext] at hrun ⊢
      exact .inr ⟨w, [], (List.append_nil w).symm, hrun, .refl⟩
  induction h with
  | refl => exact .inl ⟨ha, .refl⟩
  | @free s w t _ ht hk ih =>
    rcases ih with ⟨hs, hrun⟩ | ⟨u, v, rfl, hu, hv⟩
    · have htarget := next_of_isFree hk
      rw [← htarget]
      exact hnext hs ht (by rw [htarget]; exact .free hrun ht hk)
    · exact .inr ⟨u, v, rfl, hu, .free hv ht hk⟩
  | @level s w t level _ ht hk hl ih =>
    rcases ih with ⟨hs, hrun⟩ | ⟨u, v, rfl, hu, hv⟩
    · have htarget : t.next = t.target := Transition.next_eq_target (by simp [Transition.call?, hk])
      rw [← htarget]
      exact hnext hs ht (by rw [htarget]; exact .level hrun ht hk (hopen s hs t ht level hk hl))
    · exact .inr ⟨u, v, rfl, hu, .level hv ht hk hl⟩
  | @take s w t token _ ht hm ih =>
    rcases ih with ⟨hs, hrun⟩ | ⟨u, v, rfl, hu, hv⟩
    · have htarget : t.next = t.target := Transition.next_eq_target (call?_of_matches hm)
      rw [← htarget]
      exact hnext hs ht (by rw [htarget]; exact .take hrun ht hm)
    · exact .inr ⟨u, v ++ [token], List.append_assoc _ _ _, hu, .take hv ht hm⟩
  | @call s w v t r follow precedence _ ht hk hc ih =>
    rcases ih with ⟨hs, hrun⟩ | ⟨u, v', rfl, hu, hv⟩
    · have htarget : t.next = follow := by rw [Transition.next, hk]
      rw [← htarget]
      exact hnext hs ht (by rw [htarget]; exact .call hrun ht hk hc)
    · exact .inr ⟨u, v' ++ v, List.append_assoc _ _ _, hu, .call hv ht hk hc⟩

/-- Past no level a way can be gone with any floor. -/
theorem Quiet.runs (h : n.Quiet a b) (floor : Int) : n.Runs floor a [] b := by
  induction h with
  | refl => exact .refl
  | free _ ht hk ih => exact .free ih ht hk
  | call _ ht hk hc ih => exact .call ih ht hk hc

theorem quiet_of_idles {r : RuleId} (h : Idles n.state r a b) : n.Quiet a b := by
  induction h with
  | refl => exact .refl
  | tail _ hs ih => exact .free ih hs.2 rfl

theorem Step.priced (hprices : n.Prices) (hs : n.Step p w q) (h : n.Priced base p.floor p.returns) :
    n.Priced base q.floor q.returns := by
  cases hs with
  | @free _ t ht hfollow =>
    rcases Place.follow?_eq_some hfollow with ⟨r, back, precedence, hk, rfl⟩ | ⟨-, rfl⟩
    · exact ⟨hprices _ t ht r back precedence hk, h⟩
    · exact h
  | back _ hr =>
    rw [hr] at h
    exact h.2
  | take _ _ => exact h

theorem Reads.priced (hprices : n.Prices) (h : n.Reads ⟨a, base, []⟩ w p) :
    n.Priced base p.floor p.returns := by
  induction h with
  | refl => rfl
  | step _ hs ih => exact hs.priced hprices ih

/-- Calls that return to the same states have the same floors, apart from the outermost. -/
theorem Priced.eq_or (h : n.Priced base floor frames) (h' : n.Priced base' floor' frames')
    (hs : frames.map Frame.returnState = frames'.map Frame.returnState) :
    frames = [] ∧ frames' = [] ∨ floor = floor' ∧
      ∃ rest b, frames = rest ++ [⟨b, base⟩] ∧ frames' = rest ++ [⟨b, base'⟩] := by
  induction frames generalizing floor floor' frames' with
  | nil => exact .inl ⟨rfl, List.map_eq_nil_iff.1 hs.symm⟩
  | cons f rest ih =>
    obtain ⟨f', rest', rfl⟩ : ∃ f' rest', frames' = f' :: rest' := by
      cases frames' with
      | nil => cases hs
      | cons f' rest' => exact ⟨f', rest', rfl⟩
    simp only [List.map_cons, List.cons.injEq] at hs
    obtain ⟨hstate, hs⟩ := hs
    obtain ⟨hfloor, h⟩ := h
    obtain ⟨hfloor', h'⟩ := h'
    have hsame : floor = floor' := by
      rw [hstate, hfloor'] at hfloor
      exact (Option.some.inj hfloor).symm
    refine .inr ⟨hsame, ?_⟩
    obtain ⟨a, x⟩ := f
    obtain ⟨a', x'⟩ := f'
    obtain rfl : a = a' := hstate
    rcases ih h h' hs with ⟨rfl, rfl⟩ | ⟨rfl, more, b, rfl, rfl⟩
    · obtain rfl : x = base := h
      obtain rfl : x' = base' := h'
      exact ⟨[], a, rfl, rfl⟩
    · exact ⟨⟨a, x⟩ :: more, b, rfl, rfl⟩

/-- A marked state is the loop of its rule. -/
theorem Shaped.exists_loop (hshape : n.Shaped levels) (hlt : (n.state loop).rule < n.rules.size)
    (hmark : (n.state loop).precedenceDecision = true) :
    ∃ zone round exit, n.Loop levels zone loop round exit := by
  have hr := hshape.rule _ hlt
  cases hl : (n.rule (n.state loop).rule).leftRecursive with
  | false =>
    have := (hr.plain hl).unmarked loop rfl
    rw [hmark] at this
    cases this
  | true =>
    obtain ⟨loop', zone, hz⟩ := hr.recursive hl
    obtain rfl := hz.loop_only loop rfl hmark
    obtain ⟨round, exit, he, hround, hexit⟩ := hz.choices
    have hends := hz.rounds (.epsilon round) (by simp [he])
    have hends' := hz.rounds (.epsilon exit) (by simp [he])
    rw [target_epsilon, if_neg hround] at hends
    rw [target_epsilon, if_pos hexit] at hends'
    exact ⟨zone, round, exit, hlt, hz, he, hends.2, hends'.2⟩

namespace Loop

variable (L : n.Loop levels zone loop round exit) (hshape : n.Shaped levels)

include L

/-- Before the loop and within a round all edges stay where they are or lead to the loop, whatever the
floor. -/
theorem stays (hr : (n.state a).rule = (n.state loop).rule) (ha : zone a = .head ∨ zone a = .operator)
    (ht : t ∈ (n.state a).transitions) :
    t.kind.isPrecedence = false ∧ (zone t.next = zone a ∨ t.next = loop) := by
  rcases ha with ha | ha
  · rw [ha]
    exact L.shape.head a hr ha t ht
  · rw [ha]
    exact L.shape.operator a hr ha t ht

include hshape

/-- From a state before the loop or within a round a way stays there, or it comes to the loop, and that
it does with any floor. -/
theorem runs_loop (hr : (n.state b).rule = (n.state loop).rule)
    (hb : zone b = .head ∨ zone b = .operator) (h : n.Runs floor b w a) (floor' : Int) :
    zone a = zone b ∨ ∃ u v, w = u ++ v ∧ n.Runs floor' b u loop ∧ n.Runs floor loop v a := by
  have hstays : ∀ s, (n.state s).rule = (n.state loop).rule ∧ zone s = zone b →
      ∀ t ∈ (n.state s).transitions, t.kind.isPrecedence = false ∧
        (((n.state t.next).rule = (n.state loop).rule ∧ zone t.next = zone b) ∨ t.next = loop) := by
    rintro s ⟨hs, hzone⟩ t ht
    obtain ⟨hlevel, hnext⟩ := L.stays hs (hzone ▸ hb) ht
    rw [hzone] at hnext
    exact ⟨hlevel, hnext.imp_left fun hn => ⟨((hshape.rule _ L.lt).next s hs t ht).2, hn⟩⟩
  have hfirst : (((n.state a).rule = (n.state loop).rule ∧ zone a = zone b) ∧ n.Runs floor' b w a) ∨
      ∃ u v, w = u ++ v ∧ n.Runs floor' b u loop ∧ n.Runs floor loop v a := by
    refine h.first (Z := fun s => (n.state s).rule = (n.state loop).rule ∧ zone s = zone b)
      (fun s hs t ht => (hstays s hs t ht).2) ?_ ⟨hr, rfl⟩
    intro s hs t ht level hk _
    have hlevel := (hstays s hs t ht).1
    rw [hk] at hlevel
    cases hlevel
  exact hfirst.imp_left fun ha => ha.1.2

theorem round_rule : (n.state round).rule = (n.state loop).rule :=
  ((hshape.rule _ L.lt).next loop rfl (.epsilon round) (by simp [L.edges])).2

/-- From the first state of a round a way stays in the round, or it comes to the loop again. -/
theorem runs_round (h : n.Runs floor round w a) : (zone a = .guard ∨ zone a = .operator) ∨
    ∃ u v, w = u ++ v ∧ n.Runs floor round u loop ∧ n.Runs floor loop v a := by
  have hround := L.round_rule hshape
  refine (h.first (Z := fun s => (n.state s).rule = (n.state loop).rule ∧
    (zone s = .guard ∨ zone s = .operator)) ?_ (fun _ _ _ _ _ _ hl => hl)
    ⟨hround, .inl L.round⟩).imp_left fun ha => ha.1.2
  rintro s ⟨hs, hzone⟩ t ht
  have hnext := ((hshape.rule _ L.lt).next s hs t ht).2
  rcases hzone with hzone | hzone
  · rcases L.shape.guard s hs hzone t ht with ⟨level, hk, -, hn⟩ | ⟨hk, hn⟩
    all_goals
      rw [← Transition.next_eq_target (by simp [Transition.call?, hk])] at hn
    · exact .inl ⟨hnext, .inr hn⟩
    · exact .inl ⟨hnext, .inl hn⟩
  · exact (L.shape.operator s hs hzone t ht).2.imp_left fun hn => ⟨hnext, .inr hn⟩

end Loop

/-- A way that ends comes back from a call that it is in. -/
theorem Reads.leaves {f : Frame} (h : n.Reads (p.under (f :: outer)) w q) (hend : n.Ends q) :
    ∃ u v e, w = u ++ v ∧ n.Reads p u e ∧ n.Ends e ∧ n.Reads (.back f outer) v q := by
  rcases h.under_inv with ⟨e, rfl, -⟩ | ⟨f', outer', u, v, e, ho, hw, hu, he, hv⟩
  · have hnil := hend.1
    simp [Place.under] at hnil
  · obtain ⟨rfl, rfl⟩ := List.cons.inj ho
    exact ⟨u, v, e, hw, hu, he, hv⟩

/-- A way that ends comes to the end of the invocation that it is in. -/
theorem Reads.finishes (h : n.Reads (p.under outer) w q) (hend : n.Ends q) :
    ∃ u v e, w = u ++ v ∧ n.Reads p u e ∧ n.Ends e ∧ n.Reads (e.under outer) v q := by
  cases outer with
  | nil =>
    have hp : p.under [] = p := by simp [Place.under]
    rw [hp] at h
    refine ⟨w, [], q, (List.append_nil w).symm, h, hend, ?_⟩
    have hq : q.under [] = q := by simp [Place.under]
    rw [hq]
    exact .refl
  | cons f rest =>
    obtain ⟨u, v, e, hw, hu, he, hv⟩ := h.leaves hend
    refine ⟨u, v, e, hw, hu, he, ?_⟩
    have hback : n.Reads (e.under (f :: rest)) [] (.back f rest) :=
      .single (.back he.2 (by simp [Place.under, he.1]))
    exact hback.trans hv

namespace Loop

variable (L : n.Loop levels zone loop round exit) (hshape : n.Shaped levels)

include L hshape

theorem leftRecursive : (n.rule (n.state loop).rule).leftRecursive = true := by
  by_contra hne
  have hmark := ((hshape.rule _ L.lt).plain (by simpa using hne)).unmarked loop rfl
  rw [L.shape.loop_marked] at hmark
  cases hmark

/-- Within a round the rule does not end. -/
theorem not_stop (hr : (n.state a).rule = (n.state loop).rule)
    (ha : zone a = .guard ∨ zone a = .operator) : (n.state a).isRuleStop = false := by
  by_contra hne
  have hkind : (n.state a).kind = .ruleStop := by simpa [NetworkState.isRuleStop] using hne
  rw [(hshape.rule _ L.lt).stop_only a hr hkind, L.shape.zone_stop] at ha
  simp at ha

/-- A round that ends the rule before any token comes to the loop first. -/
theorem runs_of_ends (h : n.Reads ⟨round, floor, []⟩ [] p) (hend : n.Ends p) :
    n.Runs floor round [] loop := by
  have hround := L.round_rule hshape
  rcases h.runs with ⟨-, -, hrun⟩ | ⟨_, _, _, _, _, _, _, _, _, _, rfl, -⟩
  · rcases L.runs_round hshape hrun with hz | ⟨u, v, huv, hloop, -⟩
    · have hstop := L.not_stop hshape ((hrun.rule hshape (hround ▸ L.lt)).trans hround) hz
      rw [hend.2] at hstop
      cases hstop
    · obtain ⟨rfl, rfl⟩ := List.append_eq_nil_iff.1 huv.symm
      exact hloop
  · have hnil := hend.1
    simp [Place.under] at hnil

/-- From within a round a way that ends comes to the loop, and that it does with any floor. -/
theorem reads_loop (hr : (n.state a).rule = (n.state loop).rule) (ha : zone a = .operator ∨ a = loop)
    (h : n.Reads ⟨a, floor, outer⟩ w q) (hend : n.Ends q) (floor' : Int) :
    ∃ u v, w = u ++ v ∧ n.Runs floor' a u loop ∧ n.Reads ⟨loop, floor, outer⟩ v q := by
  rcases ha with ha | rfl
  · obtain ⟨u, v, e, rfl, hu, he, hv⟩ := Reads.finishes (p := ⟨a, floor, []⟩) h hend
    rcases hu.runs with ⟨-, hfloor, hrun⟩ | ⟨_, _, _, _, _, _, _, _, _, _, rfl, -⟩
    · rcases L.runs_loop hshape hr (.inr ha) hrun floor' with hzone | ⟨u₁, u₂, rfl, hloop, hrest⟩
      · have hlt : (n.state a).rule < n.rules.size := hr ▸ L.lt
        have hstop := L.not_stop hshape ((hrun.rule hshape hlt).trans hr) (.inr (hzone.trans ha))
        rw [he.2] at hstop
        cases hstop
      · refine ⟨u₁, u₂ ++ v, List.append_assoc _ _ _, hloop, (hrest.reads outer).trans ?_⟩
        have hplace : e.under outer = ⟨e.state, floor, outer⟩ := by
          rw [← hfloor]
          simp [Place.under, he.1]
        rwa [hplace] at hv
    · have hnil := he.1
      simp [Place.under] at hnil
  · exact ⟨[], w, rfl, .refl, h⟩

end Loop

namespace Built

variable (N : n.Built levels)

include N

theorem next_rule (ht : t ∈ (n.state a).transitions) : (n.state t.next).rule = (n.state a).rule :=
  ((N.shaped.rule _ (N.rule_lt a (lt_of_edge ht))).next a rfl t ht).2

/-- One call only returns to a state. -/
theorem caller_unique {t' : Transition} (ht : t ∈ (n.state a).transitions) (hc : t.call? ≠ none)
    (ht' : t' ∈ (n.state b).transitions) (hc' : t'.call? ≠ none) (h : t.next = t'.next) : a = b := by
  obtain ⟨-, hnext, -⟩ := N.shaped.alone a t ht hc
  obtain ⟨-, hnext', -⟩ := N.shaped.alone b t' ht' hc'
  rw [hnext, hnext'] at h
  exact Nat.add_right_cancel h

theorem follow_rule_lt {c : RuleId} (hb : b ∈ n.followStates c) : (n.state b).rule < n.rules.size := by
  obtain ⟨a, t, ht, precedence, hk⟩ := N.checked.returns_call c b hb
  exact N.rule_lt b (N.checked.follow_lt a t ht c b precedence hk)

/-- Where an operand returns, free edges lead to the loop. -/
theorem quiet_of_operand (L : n.Loop levels zone loop round exit) {c : RuleId}
    (hb : b ∈ n.followStates c) (hne : n.returnPrecedenceAt b ≠ some 0)
    (hr : (n.state b).rule = (n.state loop).rule) : n.Quiet b loop := by
  obtain ⟨a, t, ht, precedence, hk⟩ := N.checked.returns_call c b hb
  have hcall : t.call? ≠ none := by simp [Transition.call?, hk]
  have hnext : t.next = b := by rw [Transition.next, hk]
  have hpos : 0 < precedence := by
    obtain ⟨-, -, hargument⟩ := N.shaped.alone a t ht hcall
    rw [Transition.argument, hk] at hargument
    have hprice := N.prices a t ht c b precedence hk
    rcases Int.lt_or_eq_of_le hargument with hlt | rfl
    · exact hlt
    · exact absurd hprice hne
  have ha : (n.state a).rule = (n.state loop).rule := by rw [← N.next_rule ht, hnext, hr]
  obtain ⟨loop', hshape⟩ := (N.tails _ L.lt).shape (L.leftRecursive N.shaped)
  obtain rfl := L.shape.loop_only loop' hshape.loop_rule hshape.loop_marked
  exact quiet_of_idles (hshape.tail a ha t ht c b precedence hk hpos)

/-- A round and a way from `b` that come before any token to the same state, and with the same calls, come
from the same state of the rule. From there the way goes on in the round, or it goes to the loop. -/
theorem turn (L : n.Loop levels zone loop round exit) (hround : n.Reads ⟨round, floor, []⟩ [] p)
    (hb : n.Reads ⟨b, base, []⟩ [] q) (hstate : p.state = q.state)
    (hreturns : p.returns.map Frame.returnState = q.returns.map Frame.returnState) (hwaits : n.Waits q)
    {r : Place} (hr : n.Reads (q.under frames) w r) (hend : n.Ends r) :
    n.Runs floor round [] loop ∨ ∃ a c u v, n.Acts a ∧ n.Runs floor round [] a ∧ n.Runs base b [] a ∧
      (n.state c).rule = (n.state loop).rule ∧ (zone c = .operator ∨ c = loop) ∧ w = u ++ v ∧
      (∀ outer, n.Reads ⟨round, floor, outer⟩ u ⟨c, floor, outer⟩) ∧ n.Reads ⟨c, base, frames⟩ v r := by
  have hrule := L.round_rule N.shaped
  -- what acts in the round is past its level
  have hzone : ∀ a, n.Acts a → n.Runs floor round [] a → n.Runs floor round [] loop ∨
      (n.state a).rule = (n.state loop).rule ∧ zone a = .operator := by
    rintro a ⟨t, ht, hact⟩ hrun
    have ha := (hrun.rule N.shaped (hrule ▸ L.lt)).trans hrule
    rcases L.runs_round N.shaped hrun with (hz | hz) | ⟨u, v, huv, hloop, -⟩
    · rcases L.shape.guard a ha hz t ht with ⟨level, hk, -⟩ | ⟨hk, -⟩
      · simp [Transition.isConsuming, EdgeKind.isConsuming, Transition.call?, hk] at hact
      · simp [Transition.isConsuming, EdgeKind.isConsuming, Transition.call?, hk] at hact
    · exact .inr ⟨ha, hz⟩
    · obtain ⟨rfl, rfl⟩ := List.append_eq_nil_iff.1 huv.symm
      exact .inl hloop
  rcases (hround.priced N.prices).eq_or (hb.priced N.prices) hreturns with
    ⟨hp, hq⟩ | ⟨hfloor, rest, c, hp, hq⟩
  · rcases hround.runs with ⟨-, -, hrun⟩ | ⟨_, _, _, _, _, _, _, _, _, _, rfl, -⟩
    · rcases hb.runs with ⟨-, hbase, hrun'⟩ | ⟨_, _, _, _, _, _, _, _, _, _, rfl, -⟩
      · have hacts : n.Acts p.state := by
          obtain ⟨t, ht, hk⟩ := hwaits
          exact ⟨t, hstate ▸ ht, .inl hk⟩
        refine (hzone _ hacts hrun).imp_right fun hz => ⟨p.state, p.state, [], w, hacts, hrun,
          hstate ▸ hrun', hz.1, .inl hz.2, rfl, hrun.reads, ?_⟩
        have hplace : q.under frames = ⟨p.state, base, frames⟩ := by
          rw [hstate, ← hbase]
          simp [Place.under, hq]
        rwa [hplace] at hr
      · simp [Place.under] at hq
    · simp [Place.under] at hp
  · rcases hround.runs with ⟨hnil, -⟩ | ⟨a, t, ht, r₁, c₁, precedence, u₁, v₁, z, hk, rfl, hw₁, hrun, hz⟩
    · simp [hnil] at hp
    rcases hb.runs with ⟨hnil, -⟩ | ⟨a', t', ht', r₂, c₂, precedence', u₂, v₂, z', hk', rfl, hw₂, hrun', -⟩
    · simp [hnil] at hq
    obtain ⟨rfl, rfl⟩ := List.append_eq_nil_iff.1 hw₁.symm
    obtain ⟨rfl, rfl⟩ := List.append_eq_nil_iff.1 hw₂.symm
    obtain ⟨hzr, hc₁⟩ := List.append_inj' hp rfl
    obtain ⟨hzr', hc₂⟩ := List.append_inj' hq rfl
    obtain rfl : c₁ = c := by simpa using hc₁
    obtain rfl : c₂ = c₁ := by simpa using hc₂
    obtain rfl : z = z' := Place.ext hstate hfloor (hzr.trans hzr'.symm)
    have hcall : t.call? ≠ none := by simp [Transition.call?, hk]
    have hnext : t.next = c₂ := by rw [Transition.next, hk]
    obtain rfl : a = a' := by
      refine N.caller_unique ht hcall ht' (by simp [Transition.call?, hk']) ?_
      rw [hnext, Transition.next, hk']
    have hacts : n.Acts a := ⟨t, ht, .inr hcall⟩
    refine (hzone a hacts hrun).imp_right fun hz' => ?_
    have hzc := (L.stays hz'.1 (.inr hz'.2) ht).2
    rw [hnext, hz'.2] at hzc
    have hunder : ∀ floor outer, (z.under [⟨c₂, floor⟩]).under outer = z.under (⟨c₂, floor⟩ :: outer) := by
      intro floor outer
      simp [Place.under]
    rw [hunder] at hr
    obtain ⟨u, v, e, rfl, hu, he, hv⟩ := hr.leaves hend
    refine ⟨a, c₂, u, v, hacts, hrun, hrun', ?_, hzc, rfl, fun outer => ?_, hv⟩
    · rw [← hnext, N.next_rule ht, hz'.1]
    · have hin : n.Reads ⟨round, floor, outer⟩ [] (z.under (⟨c₂, floor⟩ :: outer)) :=
        hunder floor outer ▸ hround.under outer
      have hback : n.Reads (e.under (⟨c₂, floor⟩ :: outer)) [] ⟨c₂, floor, outer⟩ :=
        .single (.back (f := ⟨c₂, floor⟩) he.2 (by simp [Place.under, he.1]))
      have := (hin.trans (hu.under _)).trans hback
      rwa [List.nil_append, List.append_nil] at this

/-- If a way that leaves the loop goes on as a round would, and this way is near the end of a round where it
does, then the round can be taken. -/
theorem round_of_exit (L : n.Loop levels zone loop round exit)
    (hround : n.Reads ⟨round, floor, []⟩ [] p)
    (hexit : n.Reads ⟨exit, floor, outer⟩ [] ⟨b, base, frames⟩)
    (hlt : (n.state b).rule < n.rules.size) (hfloor : 0 ≤ floor) (hbase : 0 ≤ base)
    (hb : n.Reads ⟨b, base, []⟩ [] q) (hstate : p.state = q.state)
    (hreturns : p.returns.map Frame.returnState = q.returns.map Frame.returnState) (hwaits : n.Waits q)
    (hquiet : (n.state b).rule = (n.state loop).rule → ∀ a, n.Acts a → n.Runs 0 round [] a →
      n.Runs 0 b [] a → n.Quiet b loop)
    {r : Place} (hr : n.Reads (q.under frames) w r) (hend : n.Ends r) :
    n.Reads ⟨round, floor, outer⟩ w r := by
  have hleave : n.Reads ⟨loop, floor, outer⟩ [] ⟨b, base, frames⟩ := by
    refine Reads.trans (v := []) (.single (.free (t := .epsilon exit) ?_ rfl)) hexit
    simp [L.edges]
  rcases N.turn L hround hb hstate hreturns hwaits hr hend with
    hskip | ⟨a, c, u, v, hacts, hrun, hrun', hrule, hzone, rfl, hin, hv⟩
  · exact ((hskip.reads outer).trans hleave).trans ((hb.under frames).trans hr)
  · obtain ⟨v₁, v₂, rfl, hloop, hrest⟩ := L.reads_loop N.shaped hrule hzone hv hend floor
    have hround : (n.state round).rule = (n.state loop).rule := L.round_rule N.shaped
    have hsame : (n.state b).rule = (n.state loop).rule := by
      rw [← hrun'.rule N.shaped hlt, hrun.rule N.shaped (hround ▸ L.lt), hround]
    have hidle := hquiet hsame a hacts (hrun.lower hfloor) (hrun'.lower hbase)
    have hagain := ((hin outer).trans (hloop.reads outer)).trans
      ((hleave.trans ((hidle.runs base).reads frames)).trans hrest)
    rwa [List.append_nil, List.nil_append, List.append_assoc] at hagain

end Built

end Network

end AdaptiveParsing
