import AdaptiveParsing.Proofs.Network.Tables
/-!
What a parse can do while the input stays where it is. It passes edges that take no token, or take the end of
input, opens invocations and leaves them (`Network.Wanders`). If no state comes back to itself in this way
within its rule, then with so many live invocations at most there is an end to it: main statement
`Network.acc_wanders`.
-/

namespace AdaptiveParsing

open Relation

/-- What stays below a bound and never leads back cannot go on for ever. -/
theorem wellFounded_of_bounded {r : Nat → Nat → Prop} {size : Nat} (hlt : ∀ a b, r a b → b < size)
    (hr : ∀ a, ¬ TransGen r a a) : WellFounded fun b a => r a b := by
  classical
  have hfewer : ∀ a b, r a b → ((Finset.range size).filter fun x => TransGen r b x).card <
      ((Finset.range size).filter fun x => TransGen r a x).card := by
    intro a b hab
    refine Finset.card_lt_card (Finset.ssubset_iff_of_subset ?_ |>.2 ⟨b, ?_, ?_⟩)
    · exact Finset.monotone_filter_right _ fun x _ hx => .head hab hx
    · exact Finset.mem_filter.2 ⟨Finset.mem_range.2 (hlt a b hab), .single hab⟩
    · exact fun hb => hr b (Finset.mem_filter.1 hb).2
  exact Subrelation.wf (fun {b a} hab => hfewer a b hab) (measure fun a =>
    ((Finset.range size).filter fun x => TransGen r a x).card).wf

namespace Network

section

variable (n : Network)

/-- The edge is not a call, and the input can stay where it is when it is passed. -/
def Idle (t : Transition) : Prop :=
  t.call? = none ∧ (t.isConsuming = true → n.Matches t.kind TokenType.eof)

/-- A way within a rule on which the input can stay where it is. -/
inductive Lingers : StateId → StateId → Prop
  | refl {a : StateId} : Lingers a a
  | pass {a s : StateId} {t : Transition} (h : Lingers a s) (ht : t ∈ (n.state s).transitions)
      (hidle : n.Idle t) : Lingers a t.target
  | call {a s follow : StateId} {t : Transition} {c : RuleId} {precedence : Int} (h : Lingers a s)
      (ht : t ∈ (n.state s).transitions) (hk : t.kind = .rule c follow precedence)
      (hc : Lingers (n.rule c).start (n.rule c).stop) : Lingers a follow

/-- One step of such a way. -/
inductive Dawdles : StateId → StateId → Prop
  | pass {s : StateId} {t : Transition} (ht : t ∈ (n.state s).transitions) (hidle : n.Idle t) :
      Dawdles s t.target
  | call {s follow : StateId} {t : Transition} {c : RuleId} {precedence : Int}
      (ht : t ∈ (n.state s).transitions) (hk : t.kind = .rule c follow precedence)
      (hc : n.Lingers (n.rule c).start (n.rule c).stop) : Dawdles s follow

/-- No state comes back to itself within its rule while the input stays where it is. -/
def LoopsAdvance : Prop := ∀ s, ¬ TransGen n.Dawdles s s

/-- What becomes of the states of the live invocations, innermost first. -/
inductive Wanders : List StateId → List StateId → Prop
  | pass {s : StateId} {t : Transition} {outer : List StateId} (ht : t ∈ (n.state s).transitions)
      (hidle : n.Idle t) : Wanders (s :: outer) (t.target :: outer)
  | call {s follow : StateId} {t : Transition} {c : RuleId} {precedence : Int} {outer : List StateId}
      (ht : t ∈ (n.state s).transitions) (hk : t.kind = .rule c follow precedence) :
      Wanders (s :: outer) ((n.rule c).start :: s :: outer)
  | leave {s b follow : StateId} {outer : List StateId} (hstop : (n.state s).isRuleStop = true)
      (hfollow : n.followOf? b = some follow) : Wanders (s :: b :: outer) (follow :: outer)

/-- And there are at most so many of them then. -/
def WandersWithin (limit : Nat) (states states' : List StateId) : Prop :=
  n.Wanders states states' ∧ states'.length ≤ limit

instance (t : Transition) : Decidable (n.Idle t) := inferInstanceAs (Decidable (_ ∧ _))

end

variable {n : Network} {levels : RuleId → Int → Prop} {a b s : StateId} {r : RuleId} {limit : Nat}
  {outer : List StateId}

theorem Lingers.tail (h : n.Lingers a s) (hs : n.Dawdles s b) : n.Lingers a b := by
  cases hs with
  | pass ht hidle => exact h.pass ht hidle
  | call ht hk hc => exact h.call ht hk hc

/-- It is enough that edges lead down which the input can stay at. -/
theorem loopsAdvance_of_rank (rank : StateId → Nat) (h : ∀ s < n.states.size,
    ∀ t ∈ (n.state s).transitions, n.Idle t ∨ t.call? ≠ none → rank t.next < rank s) :
    n.LoopsAdvance := by
  have hdown : ∀ a b, n.Dawdles a b → rank b < rank a := by
    intro a b hab
    cases hab with
    | @pass t ht hidle =>
      have hlt := h a (lt_of_edge ht) t ht (.inl hidle)
      rwa [Transition.next_eq_target hidle.1] at hlt
    | @call _ t c precedence ht hk hc =>
      have hlt := h a (lt_of_edge ht) t ht (.inr (by simp [Transition.call?, hk]))
      simpa [Transition.next, hk] using hlt
  intro s hcycle
  have hlt : ∀ b, TransGen n.Dawdles s b → rank b < rank s := by
    intro b hb
    induction hb with
    | single hb => exact hdown _ _ hb
    | tail _ hb ih => exact Nat.lt_trans (hdown _ _ hb) ih
  exact Nat.lt_irrefl _ (hlt s hcycle)

theorem Checked.wellFounded_dawdles (hn : n.Checked) (hloop : n.LoopsAdvance) :
    WellFounded fun b a => n.Dawdles a b := by
  refine @wellFounded_of_bounded _ n.states.size ?_ hloop
  intro a b hab
  cases hab with
  | pass ht _ => exact hn.target_lt a _ ht
  | call ht hk _ => exact hn.follow_lt a _ ht _ _ _ hk

/-- Such a way stays in its rule. -/
theorem Shaped.rule_lingers (hs : n.Shaped levels) (hr : r < n.rules.size)
    (h : n.Lingers (n.rule r).start s) : (n.state s).rule = r := by
  have hshape := hs.rule r hr
  generalize ha : (n.rule r).start = a at h
  induction h with
  | refl =>
    rw [← ha]
    exact hshape.start_rule
  | @pass a s t h ht hidle ih =>
    have hnext := (hshape.next s (ih ha) t ht).2
    rwa [Transition.next_eq_target hidle.1] at hnext
  | @call a s follow t c precedence h ht hk hc ih =>
    have hnext := (hshape.next s (ih ha) t ht).2
    simpa [Transition.next, hk] using hnext

section

variable (hs : n.Shaped levels) (hn : n.Checked) (hloop : n.LoopsAdvance)

include hs hn hloop

/-- A rule that is entered comes to an end, if what comes after it does. It need not come to its stop while
the input stays where it is, so only if it can, what comes after it is asked for. -/
theorem acc_of_entered (left : Nat) (hr : r < n.rules.size) (hleft : limit ≤ outer.length + 1 + left)
    (h : n.Lingers (n.rule r).start s)
    (hback : n.Lingers (n.rule r).start (n.rule r).stop → ∀ b follow rest, outer = b :: rest →
      n.followOf? b = some follow →
        Acc (fun after before => n.WandersWithin limit before after) (follow :: rest)) :
    Acc (fun after before => n.WandersWithin limit before after) (s :: outer) := by
  induction left using Nat.strong_induction_on generalizing r s outer with
  | _ left deeper =>
    induction s using (hn.wellFounded_dawdles hloop).induction with
    | _ s ih =>
      refine ⟨_, ?_⟩
      rintro after ⟨hw, hlen⟩
      cases hw with
      | pass ht hidle => exact ih _ (.pass ht hidle) (h.pass ht hidle)
      | @call _ follow t c precedence _ ht hk =>
        rw [List.length_cons, List.length_cons] at hlen
        refine deeper (left - 1) (by omega) (hs.call s t ht c follow precedence hk).1 ?_ .refl ?_
        · rw [List.length_cons]
          omega
        · rintro hc b follow' rest heq hfollow
          obtain ⟨rfl, rfl⟩ := List.cons.inj heq
          obtain rfl : follow = follow' :=
            Option.some.inj ((hs.followOf?_eq ht hk).symm.trans hfollow)
          exact ih _ (.call ht hk hc) (h.call ht hk hc)
      | leave hstop hfollow =>
        have hend := (hs.rule r hr).stop_only s (hs.rule_lingers hr h) (eq_of_beq hstop)
        exact hback (hend ▸ h) _ _ _ rfl hfollow

/-- While the input stays where it is and there are so many live invocations at most, a parse comes to an
end, wherever they are. -/
theorem acc_wanders (limit : Nat) (states : List StateId) :
    Acc (fun after before => n.WandersWithin limit before after) states := by
  -- an invocation that was live before may be left where its rule cannot be passed, so what comes then is
  -- known by induction on the invocations around it
  have hlive : ∀ outer s, (∀ b follow rest, outer = b :: rest → n.followOf? b = some follow →
      Acc (fun after before => n.WandersWithin limit before after) (follow :: rest)) →
        Acc (fun after before => n.WandersWithin limit before after) (s :: outer) := by
    intro outer s hback
    induction s using (hn.wellFounded_dawdles hloop).induction with
    | _ s ih =>
      refine ⟨_, ?_⟩
      rintro after ⟨hw, -⟩
      cases hw with
      | pass ht hidle => exact ih _ (.pass ht hidle)
      | @call _ follow t c precedence _ ht hk =>
        refine acc_of_entered hs hn hloop limit (hs.call s t ht c follow precedence hk).1
          (Nat.le_add_left _ _) .refl ?_
        rintro hc b follow' rest heq hfollow
        obtain ⟨rfl, rfl⟩ := List.cons.inj heq
        obtain rfl : follow = follow' :=
          Option.some.inj ((hs.followOf?_eq ht hk).symm.trans hfollow)
        exact ih _ (.call ht hk hc)
      | leave hstop hfollow => exact hback _ _ _ rfl hfollow
  have hall : ∀ outer s, Acc (fun after before => n.WandersWithin limit before after) (s :: outer) := by
    intro outer
    induction outer with
    | nil => exact fun s => hlive [] s (fun b follow rest heq => by cases heq)
    | cons b outer ih =>
      intro s
      refine hlive (b :: outer) s ?_
      rintro b' follow rest heq -
      obtain ⟨rfl, rfl⟩ := List.cons.inj heq
      exact ih follow
  cases states with
  | nil =>
    refine ⟨_, ?_⟩
    rintro after ⟨hw, -⟩
    cases hw
  | cons s outer => exact hall outer s

end

end Network

end AdaptiveParsing
