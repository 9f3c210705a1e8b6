import AdaptiveParsing.Lookahead.Configuration
import Mathlib
/-!
Ways through a network, and the words they take. A way stands at a place: a state, the floor of the
invocation it is in, and where the invocations around it go on. Main statements: a way either stays
inside the calls it began in or returns from the innermost of them (`Reads.under_inv`), and inside one
invocation it takes edges and passes whole calls (`Reads.runs`).
-/

namespace AdaptiveParsing

/-- Where a way through the network stands: at a state, in an invocation with this floor, and with
these returns of the invocations around it, the innermost first. -/
@[ext] structure Place where
  state : StateId
  floor : Int
  returns : List Frame := []

namespace Place

/-- The place past an edge that takes no token, unless the edge is closed. -/
def follow? (p : Place) (t : Transition) : Option Place :=
  match t.kind with
  | .epsilon | .action _ _ => some { p with state := t.target }
  | .rule _ back precedence => some ⟨t.target, precedence, ⟨back, p.floor⟩ :: p.returns⟩
  | .precedence level => if p.floor ≤ level then some { p with state := t.target } else none
  | _ => none

/-- The place with more invocations around it. -/
def under (p : Place) (outer : List Frame) : Place := { p with returns := p.returns ++ outer }

/-- The place past the return from an invocation. -/
def back (f : Frame) (outer : List Frame) : Place := ⟨f.returnState, f.precedence, outer⟩

end Place

/-- The edge is taken for free, within its rule and whatever the floor. -/
def EdgeKind.isFree : EdgeKind → Bool
  | epsilon | action _ _ => true
  | _ => false

namespace Network

variable (n : Network)

/-- One step of a way, and the word it takes. -/
inductive Step : Place → List TokenType → Place → Prop
  | free {p p' : Place} {t : Transition} (ht : t ∈ (n.state p.state).transitions)
      (h : p.follow? t = some p') : Step p [] p'
  | back {p : Place} {f : Frame} {outer : List Frame} (hs : (n.state p.state).isRuleStop = true)
      (hr : p.returns = f :: outer) : Step p [] (.back f outer)
  | take {p : Place} {t : Transition} {token : TokenType}
      (ht : t ∈ (n.state p.state).transitions) (hm : n.Matches t.kind token) :
      Step p [token] { p with state := t.target }

/-- A way from one place to another, and the word it takes. -/
inductive Reads (p : Place) : List TokenType → Place → Prop
  | refl : Reads p [] p
  | step {p' p'' : Place} {v w : List TokenType} (h : Reads p v p') (hs : n.Step p' w p'') :
      Reads p (v ++ w) p''

/-- The way has come to the end of the outermost rule. -/
def Ends (p : Place) : Prop := p.returns = [] ∧ (n.state p.state).isRuleStop = true

/-- A call that enters `start` with a floor can take this word and return. -/
def Spans (start : StateId) (floor : Int) (word : List TokenType) : Prop :=
  ∃ p, n.Reads ⟨start, floor, []⟩ word p ∧ n.Ends p

/-- Within one invocation a way leads from `a` to another state, past whole calls. -/
inductive Runs (floor : Int) (a : StateId) : List TokenType → StateId → Prop
  | refl : Runs floor a [] a
  | free {s : StateId} {w : List TokenType} {t : Transition} (h : Runs floor a w s)
      (ht : t ∈ (n.state s).transitions) (hk : t.kind.isFree = true) : Runs floor a w t.target
  | level {s : StateId} {w : List TokenType} {t : Transition} {level : Int} (h : Runs floor a w s)
      (ht : t ∈ (n.state s).transitions) (hk : t.kind = .precedence level) (hl : floor ≤ level) :
      Runs floor a w t.target
  | take {s : StateId} {w : List TokenType} {t : Transition} {token : TokenType}
      (h : Runs floor a w s) (ht : t ∈ (n.state s).transitions) (hm : n.Matches t.kind token) :
      Runs floor a (w ++ [token]) t.target
  | call {s : StateId} {v w : List TokenType} {t : Transition} {r : RuleId} {follow : StateId}
      {precedence : Int} (h : Runs floor a v s) (ht : t ∈ (n.state s).transitions)
      (hk : t.kind = .rule r follow precedence) (hc : n.Spans t.target precedence w) :
      Runs floor a (v ++ w) follow

/-- Within one invocation a way leads from `a` to another state past no level and no token. -/
inductive Quiet (a : StateId) : StateId → Prop
  | refl : Quiet a a
  | free {s : StateId} {t : Transition} (h : Quiet a s) (ht : t ∈ (n.state s).transitions)
      (hk : t.kind.isFree = true) : Quiet a t.target
  | call {s : StateId} {t : Transition} {r : RuleId} {follow : StateId} {precedence : Int}
      (h : Quiet a s) (ht : t ∈ (n.state s).transitions) (hk : t.kind = .rule r follow precedence)
      (hc : n.Spans t.target precedence []) : Quiet a follow

variable {n : Network} {p p' p'' q : Place} {v w : List TokenType} {t : Transition}
  {outer : List Frame} {a b s : StateId} {floor : Int} {token : TokenType}

theorem Reads.single (h : n.Step p w p') : n.Reads p w p' := .step .refl h

theorem Reads.trans (h : n.Reads p v p') (h' : n.Reads p' w p'') : n.Reads p (v ++ w) p'' := by
  induction h' with
  | refl => rwa [List.append_nil]
  | step _ hs ih =>
    rw [← List.append_assoc]
    exact .step ih hs

/-- A way that takes a token waits somewhere for it. -/
theorem Reads.cons_inv (h : n.Reads p (token :: w) p') :
    ∃ q, ∃ t ∈ (n.state q.state).transitions, n.Matches t.kind token ∧ n.Reads p [] q ∧
      n.Reads { q with state := t.target } w p' := by
  generalize hv : token :: w = v at h
  induction h generalizing w with
  | refl => cases hv
  | @step p₁ p₂ v u h hs ih =>
    rcases v with _ | ⟨token', v⟩
    · rw [List.nil_append] at hv
      cases hs with
      | free _ _ | back _ _ => cases hv
      | take ht hm =>
        cases hv
        exact ⟨p₁, _, ht, hm, h, .refl⟩
    · rw [List.cons_append] at hv
      obtain ⟨rfl, rfl⟩ := List.cons.inj hv
      obtain ⟨q, t, ht, hm, hq, hr⟩ := ih rfl
      exact ⟨q, t, ht, hm, hq, .step hr hs⟩

/-- A way that takes two words one after the other takes the first one first. -/
theorem Reads.split (h : n.Reads p (v ++ w) p'') : ∃ p', n.Reads p v p' ∧ n.Reads p' w p'' := by
  induction v generalizing p with
  | nil => exact ⟨p, .refl, h⟩
  | cons token v ih =>
    obtain ⟨q, t, ht, hm, hq, hr⟩ := Reads.cons_inv h
    obtain ⟨p', hv, hw⟩ := ih hr
    refine ⟨p', ?_, hw⟩
    have := (hq.trans (.single (.take ht hm))).trans hv
    rwa [List.nil_append, List.singleton_append] at this

theorem follow?_under (h : p.follow? t = some p') (outer : List Frame) :
    (p.under outer).follow? t = some (p'.under outer) := by
  unfold Place.follow? at h ⊢
  cases hk : t.kind with
  | epsilon | action _ _ | rule _ _ _ =>
    simp only [hk, Option.some.injEq] at h
    subst h
    rfl
  | precedence level =>
    simp only [hk] at h
    split at h
    · rename_i hl
      cases h
      exact if_pos hl
    · cases h
  | atom _ | range _ _ | set _ | notSet _ | wildcard | predicate _ _ _ => simp [hk] at h

theorem follow?_under_inv (h : (p.under outer).follow? t = some p') :
    ∃ q, p.follow? t = some q ∧ p' = q.under outer := by
  unfold Place.follow? at h ⊢
  cases hk : t.kind with
  | epsilon | action _ _ | rule _ _ _ =>
    simp only [hk, Option.some.injEq] at h
    subst h
    exact ⟨_, rfl, rfl⟩
  | precedence level =>
    simp only [hk] at h
    split at h
    · rename_i hl
      cases h
      exact ⟨_, if_pos hl, rfl⟩
    · cases h
  | atom _ | range _ _ | set _ | notSet _ | wildcard | predicate _ _ _ => simp [hk] at h

theorem Step.under (h : n.Step p w p') (outer : List Frame) :
    n.Step (p.under outer) w (p'.under outer) := by
  cases h with
  | free ht h => exact .free ht (follow?_under h outer)
  | @back f rest hs hr => exact @Step.back n _ f (rest ++ outer) hs (by simp [Place.under, hr])
  | take ht hm => exact .take (p := p.under outer) ht hm

/-- A way can be gone inside of more calls. -/
theorem Reads.under (h : n.Reads p w p') (outer : List Frame) :
    n.Reads (p.under outer) w (p'.under outer) := by
  induction h with
  | refl => exact .refl
  | step _ hs ih => exact .step ih (hs.under outer)

theorem Step.under_inv (h : n.Step (p.under outer) w p') :
    (∃ q, p' = q.under outer ∧ n.Step p w q) ∨
      ∃ f rest, outer = f :: rest ∧ n.Ends p ∧ w = [] ∧ p' = .back f rest := by
  cases h with
  | free ht h =>
    obtain ⟨q, hq, rfl⟩ := follow?_under_inv h
    exact .inl ⟨q, rfl, .free ht hq⟩
  | @back f rest hs hr =>
    dsimp only [Place.under] at hr
    cases hp : p.returns with
    | nil =>
      rw [hp, List.nil_append] at hr
      exact .inr ⟨f, rest, hr, ⟨hp, hs⟩, rfl, rfl⟩
    | cons g more =>
      rw [hp, List.cons_append] at hr
      obtain ⟨rfl, rfl⟩ := List.cons.inj hr
      exact .inl ⟨.back g more, rfl, .back hs hp⟩
  | @take t _ ht hm => exact .inl ⟨{ p with state := t.target }, rfl, .take ht hm⟩

/-- A way that begins inside of some calls stays inside of them, or returns from the innermost. -/
theorem Reads.under_inv (h : n.Reads (p.under outer) w p') :
    (∃ q, p' = q.under outer ∧ n.Reads p w q) ∨
      ∃ f rest v u q, outer = f :: rest ∧ w = v ++ u ∧ n.Reads p v q ∧ n.Ends q ∧
        n.Reads (.back f rest) u p' := by
  induction h with
  | refl => exact .inl ⟨p, rfl, .refl⟩
  | @step p₁ p₂ v u h hs ih =>
    rcases ih with ⟨q, rfl, hq⟩ | ⟨f, rest, v₁, v₂, q, ho, hv, hq, he, hr⟩
    · rcases hs.under_inv with ⟨q', rfl, hs'⟩ | ⟨f, rest, ho, he, rfl, rfl⟩
      · exact .inl ⟨q', rfl, .step hq hs'⟩
      · exact .inr ⟨f, rest, v, [], q, ho, rfl, hq, he, .refl⟩
    · refine .inr ⟨f, rest, v₁, v₂ ++ u, q, ho, ?_, hq, he, .step hr hs⟩
      rw [hv, List.append_assoc]

/-- A way inside one invocation can be gone inside of any calls. -/
theorem Runs.reads (h : n.Runs floor a w s) (outer : List Frame) :
    n.Reads ⟨a, floor, outer⟩ w ⟨s, floor, outer⟩ := by
  induction h with
  | refl => exact .refl
  | @free s w t _ ht hk ih =>
    rw [← List.append_nil w]
    refine .step ih (.free ht ?_)
    cases hk' : t.kind <;> simp_all [Place.follow?, EdgeKind.isFree]
  | @level s w t level _ ht hk hl ih =>
    rw [← List.append_nil w]
    exact .step ih (.free ht (by simp [Place.follow?, hk, hl]))
  | take _ ht hm ih => exact .step ih (.take ht hm)
  | @call s v w t r follow precedence _ ht hk hc ih =>
    obtain ⟨p, hp, hr, hs⟩ := hc
    have hin : n.Reads ⟨t.target, precedence, ⟨follow, floor⟩ :: outer⟩ w
        ⟨p.state, p.floor, ⟨follow, floor⟩ :: outer⟩ := by
      have := hp.under (⟨follow, floor⟩ :: outer)
      rwa [Place.under, Place.under, hr, List.nil_append] at this
    have hcall : n.Reads ⟨s, floor, outer⟩ [] ⟨t.target, precedence, ⟨follow, floor⟩ :: outer⟩ :=
      .single (.free ht (by simp [Place.follow?, hk]))
    have hback : n.Reads ⟨p.state, p.floor, ⟨follow, floor⟩ :: outer⟩ [] ⟨follow, floor, outer⟩ :=
      .single (.back (p := ⟨p.state, p.floor, _⟩) (f := ⟨follow, floor⟩) hs rfl)
    have := (ih.trans hcall).trans (hin.trans hback)
    rwa [List.append_nil, List.append_nil] at this

/-- A way that begins in an invocation and does not return from it is inside the invocation, or in a
call made from it. -/
theorem Reads.runs (h : n.Reads ⟨a, floor, []⟩ w p) :
    (p.returns = [] ∧ p.floor = floor ∧ n.Runs floor a w p.state) ∨
      ∃ s, ∃ t ∈ (n.state s).transitions, ∃ r follow precedence v u q,
        t.kind = .rule r follow precedence ∧ p = q.under [⟨follow, floor⟩] ∧ w = v ++ u ∧
        n.Runs floor a v s ∧ n.Reads ⟨t.target, precedence, []⟩ u q := by
  induction h with
  | refl => exact .inl ⟨rfl, rfl, .refl⟩
  | @step p₁ p₂ v u h hs ih =>
    rcases ih with ⟨hr, hf, hrun⟩ | ⟨s, t, ht, r, follow, precedence, v₁, v₂, q, hk, rfl, rfl, hrun, hq⟩
    · cases hs with
      | @free _ t ht hfol =>
        rw [List.append_nil]
        unfold Place.follow? at hfol
        cases hk : t.kind with
        | epsilon | action _ _ =>
          simp only [hk, Option.some.injEq] at hfol
          subst hfol
          exact .inl ⟨hr, hf, .free hrun ht (by simp [hk, EdgeKind.isFree])⟩
        | rule r follow precedence =>
          simp only [hk, Option.some.injEq] at hfol
          subst hfol
          refine .inr ⟨p₁.state, t, ht, r, follow, precedence, v, [], ⟨t.target, precedence, []⟩, hk,
            ?_, (List.append_nil v).symm, hrun, .refl⟩
          rw [hr, hf]
          rfl
        | precedence level =>
          simp only [hk] at hfol
          split at hfol
          · rename_i hl
            cases hfol
            rw [hf] at hl
            exact .inl ⟨hr, hf, .level hrun ht hk hl⟩
          · cases hfol
        | atom _ | range _ _ | set _ | notSet _ | wildcard | predicate _ _ _ => simp [hk] at hfol
      | back _ hr' =>
        rw [hr] at hr'
        cases hr'
      | take ht hm => exact .inl ⟨hr, hf, .take hrun ht hm⟩
    · rcases hs.under_inv with ⟨q', rfl, hs'⟩ | ⟨f, rest, ho, he, rfl, rfl⟩
      · refine .inr ⟨s, t, ht, r, follow, precedence, v₁, v₂ ++ u, q', hk, rfl, ?_, hrun, .step hq hs'⟩
        rw [List.append_assoc]
      · obtain ⟨rfl, rfl⟩ := List.cons.inj ho
        rw [List.append_nil]
        exact .inl ⟨rfl, rfl, .call hrun ht hk ⟨q, hq, he⟩⟩

/-- A way past no token is quiet from the last level on. -/
theorem Runs.quiet (h : n.Runs floor a [] s) : n.Quiet a s ∨
    ∃ b, ∃ t ∈ (n.state b).transitions, ∃ level, t.kind = .precedence level ∧
      n.Runs floor a [] b ∧ n.Runs floor t.target [] s ∧ n.Quiet t.target s := by
  generalize hw : ([] : List TokenType) = w at h
  induction h with
  | refl => exact .inl .refl
  | free _ ht hk ih =>
    subst hw
    rcases ih rfl with hq | ⟨b, u, hu, level, hk', hb, hr, hq⟩
    · exact .inl (.free hq ht hk)
    · exact .inr ⟨b, u, hu, level, hk', hb, .free hr ht hk, .free hq ht hk⟩
  | level h ht hk hl =>
    subst hw
    exact .inr ⟨_, _, ht, _, hk, h, .refl, .refl⟩
  | take _ _ _ => simp at hw
  | call _ ht hk hc ih =>
    obtain ⟨rfl, rfl⟩ := List.append_eq_nil_iff.1 hw.symm
    rcases ih rfl with hq | ⟨b, u, hu, level, hk', hb, hr, hq⟩
    · exact .inl (.call hq ht hk hc)
    · exact .inr ⟨b, u, hu, level, hk', hb, .call hr ht hk hc, .call hq ht hk hc⟩

end Network

end AdaptiveParsing
