import AdaptiveParsing.Proofs.Lookahead.Agreement
import AdaptiveParsing.Proofs.Network.Closing
/-!
How a way ends in a grammar that closes with the end of input. As long as the outermost invocation has not
taken the end of input, the place is ongoing; once it has, nothing is left but to stop, and the place is closed.
Main statements: a step from an ongoing place leads to an ongoing one, or takes the end of input
(`Network.Closes.step_ongoing`), and a way that does not take the end of input does not end
(`Network.Closes.not_ends`).
-/

namespace AdaptiveParsing

namespace Place

variable {p : Place} {f : Frame} {outer : List Frame}

/-- The state at which the outermost invocation stands, or at which it goes on. -/
def outermost (p : Place) : StateId := (p.returns.getLast?.map Frame.returnState).getD p.state

theorem outermost_of_nil (h : p.returns = []) : p.outermost = p.state := by simp [outermost, h]

theorem outermost_of_cons (h : p.returns = f :: outer) : p.outermost = (back f outer).outermost := by
  cases outer <;> simp [outermost, back, h, List.getLast?_cons]

end Place

namespace Network

section

variable (n : Network) (s : RuleId) (e : StateId) (p : Place)

/-- The outermost invocation, of rule `s`, has yet to come to `e`. -/
def Ongoing : Prop := p.outermost ≠ e ∧ p.outermost ≠ (n.rule s).stop

/-- The outermost invocation has come to `e`, or on to its stop. -/
def Closed : Prop := p.returns = [] ∧ (p.state = e ∨ p.state = (n.rule s).stop)

/-- What a place takes of an input and then ends: all of it if the place is ongoing, and nothing if it
is closed. -/
def Clears (input : TokenCursor) : Prop :=
  ∃ w q, n.Reads p w q ∧ n.Ends q ∧ (n.Ongoing s e p ∧ w = input.types ∨ n.Closed s e p ∧ w = [])

end

variable {n : Network} {s : RuleId} {q e : StateId} {p p' p₀ : Place} {w : List TokenType}
  {levels : RuleId → Int → Prop} {t : Transition} {alt : Nat} {input input' : TokenCursor}

theorem ongoing_or_closed (h : p.returns = []) : n.Ongoing s e p ∨ n.Closed s e p := by
  by_cases hclosed : p.state = e ∨ p.state = (n.rule s).stop
  · exact .inr ⟨h, hclosed⟩
  · rw [not_or] at hclosed
    refine .inl ?_
    unfold Ongoing
    rw [Place.outermost_of_nil h]
    exact hclosed

/-- A rule that is not called has nowhere to return to. -/
theorem Closes.followStates_eq_nil (h : n.Closes s q e) (hn : n.Checked) : n.followStates s = [] := by
  refine List.eq_nil_iff_forall_not_mem.2 fun back hback => ?_
  obtain ⟨a, t, ht, precedence, hk⟩ := hn.returns_call s back hback
  exact h.uncalled a t ht back precedence hk

/-- Only the outermost invocation is one of the start rule. -/
theorem Closes.outermost_of_rule (h : n.Closes s q e) (hn : n.Checked) (hin : n.Inside s p)
    (hr : (n.state p.state).rule = s) : p.returns = [] := by
  have hnested := hin.nested
  cases hl : p.returns with
  | nil => rfl
  | cons f outer =>
    rw [hl] at hnested
    obtain ⟨-, hback, -, -⟩ := hnested
    rw [hr, h.followStates_eq_nil hn] at hback
    cases hback

/-- Where an edge leads that is not the one to take the end of input, the place stays ongoing. -/
theorem Closes.ongoing_next (h : n.Closes s q e) {a : StateId} (ha : a ≠ e) (hq : a ≠ q)
    (ht : t ∈ (n.state a).transitions) : t.next ≠ e ∧ t.next ≠ (n.rule s).stop :=
  ⟨fun he => hq (h.into_exit a t ht he), fun hs => ha (h.into_stop a t ht hs)⟩

/-- The state that takes the end of input belongs to the start rule. -/
theorem Closes.take_rule (h : n.Closes s q e) (hshape : n.Shaped levels)
    (hlt : (n.state q).rule < n.rules.size) : (n.state q).rule = s := by
  have ht : ⟨e, .atom TokenType.eof⟩ ∈ (n.state q).transitions := by
    rw [h.take]
    exact .head _
  rw [← ((hshape.rule _ hlt).next q rfl _ ht).2]
  exact h.exit_rule

section

variable (h : n.Closes s q e) (hshape : n.Shaped levels) (hn : n.Checked)

include h hshape hn

omit hshape hn in
/-- An edge that is passed within the innermost invocation keeps the place ongoing, unless it takes the
end of input. -/
theorem Closes.ongoing_move (hgo : n.Ongoing s e p) (ht : t ∈ (n.state p.state).transitions)
    (hnext : t.next = t.target) : n.Ongoing s e { p with state := t.target } ∨
      t = ⟨e, .atom TokenType.eof⟩ ∧ n.Closed s e { p with state := t.target } := by
  unfold Ongoing at hgo ⊢
  cases hr : p.returns with
  | cons f outer =>
    rw [Place.outermost_of_cons (p := p) hr] at hgo
    rw [Place.outermost_of_cons (p := { p with state := t.target, returns := _ }) rfl]
    exact .inl hgo
  | nil =>
    rw [Place.outermost_of_nil hr] at hgo
    rw [Place.outermost_of_nil (p := { p with state := t.target, returns := _ }) rfl]
    by_cases hq : p.state = q
    · rw [hq, h.take] at ht
      obtain rfl := List.mem_singleton.1 ht
      exact .inr ⟨rfl, rfl, .inl rfl⟩
    · obtain ⟨he, hs⟩ := h.ongoing_next hgo.1 hq ht
      rw [hnext] at he hs
      exact .inl ⟨he, hs⟩

/-- A step from an ongoing place leads to an ongoing place, or takes the end of input. -/
theorem Closes.step_ongoing (hin : n.Inside s p) (hgo : n.Ongoing s e p) (hs : n.Step p w p') :
    n.Ongoing s e p' ∧ TokenType.eof ∉ w ∨ w = [TokenType.eof] ∧ n.Closed s e p' := by
  cases hs with
  | @free _ t ht hfollow =>
    refine .inl ⟨?_, List.not_mem_nil⟩
    rcases Place.follow?_eq_some hfollow with ⟨r, back, precedence, hk, rfl⟩ | ⟨hcall, rfl⟩
    · unfold Ongoing at hgo ⊢
      rw [Place.outermost_of_cons (p := ⟨t.target, precedence, _⟩) rfl]
      cases hr : p.returns with
      | cons f outer =>
        rw [Place.outermost_of_cons hr] at hgo
        rw [Place.outermost_of_cons (p := .back _ (f :: outer)) rfl]
        exact hgo
      | nil =>
        -- the outermost invocation waits for this call
        rw [Place.outermost_of_nil hr] at hgo
        rw [Place.outermost_of_nil (p := .back _ []) rfl]
        have hnext : t.next = back := by
          unfold Transition.next
          rw [hk]
        have hq : p.state ≠ q := by
          intro hq
          rw [hq, h.take] at ht
          obtain rfl := List.mem_singleton.1 ht
          cases hk
        have := h.ongoing_next hgo.1 hq ht
        rwa [hnext] at this
    · rcases h.ongoing_move hgo ht (Transition.next_eq_target hcall) with hgo' | ⟨rfl, -⟩
      · exact hgo'
      · cases hfollow
  | @back f outer hstop hr =>
    refine .inl ⟨?_, List.not_mem_nil⟩
    unfold Ongoing at hgo
    rwa [Place.outermost_of_cons hr] at hgo
  | @take t token ht hm =>
    have hcall := call?_of_matches hm
    by_cases heof : token = TokenType.eof
    · obtain rfl := heof
      have hq := h.only p.state t ht hm
      have hrule : (n.state p.state).rule = s := by
        rw [hq]
        exact h.take_rule hshape (hq ▸ hin.nested.lt)
      rw [hq, h.take] at ht
      obtain rfl := List.mem_singleton.1 ht
      exact .inr ⟨rfl, h.outermost_of_rule (p := p) hn hin hrule, .inl rfl⟩
    · rcases h.ongoing_move hgo ht (Transition.next_eq_target hcall) with hgo' | ⟨rfl, -⟩
      · refine .inl ⟨hgo', ?_⟩
        rw [List.mem_singleton]
        exact fun he => heof he.symm
      · exact absurd hm fun he => heof he.symm

/-- From a closed place no token is taken. -/
theorem Closes.step_closed (hclosed : n.Closed s e p) (hs : n.Step p w p') : w = [] ∧ n.Closed s e p' := by
  obtain ⟨hr, hstate⟩ := hclosed
  have hlast : (n.state (n.rule s).stop).transitions = [] := by
    refine hn.last _ ?_
    simp [NetworkState.isRuleStop, (hshape.rule s h.lt).stop_kind]
  have hedge : ∀ t ∈ (n.state p.state).transitions, t = .epsilon (n.rule s).stop := by
    intro t ht
    rcases hstate with he | hs
    · rw [he, h.exit] at ht
      exact List.mem_singleton.1 ht
    · rw [hs, hlast] at ht
      cases ht
  cases hs with
  | free ht hfollow =>
    obtain rfl := hedge _ ht
    obtain rfl := Option.some.inj hfollow
    exact ⟨rfl, hr, .inr rfl⟩
  | back _ hf =>
    rw [hr] at hf
    cases hf
  | take ht hm =>
    obtain rfl := hedge _ ht
    cases hm

/-- A way that does not take the end of input keeps the place ongoing. -/
theorem Closes.reads_ongoing (hin : n.Inside s p) (hgo : n.Ongoing s e p) (hr : n.Reads p w p')
    (hw : TokenType.eof ∉ w) : n.Ongoing s e p' := by
  induction hr with
  | refl => exact hgo
  | @step p₁ p₂ v u hr hs ih =>
    rw [List.mem_append, not_or] at hw
    rcases h.step_ongoing hshape hn (hin.reads hshape hn hr) (ih hw.1) hs with ⟨ho, -⟩ | ⟨rfl, -⟩
    · exact ho
    · exact absurd (List.mem_singleton.2 rfl) hw.2

omit hn in
/-- At an ongoing place a way has not ended. -/
theorem Closes.not_ends_of_ongoing (hin : n.Inside s p) (hgo : n.Ongoing s e p) : ¬ n.Ends p := by
  rintro ⟨hr, hstop⟩
  have hnested := hin.nested
  rw [hr] at hnested
  have hkind : (n.state p.state).kind = .ruleStop := by simpa [NetworkState.isRuleStop] using hstop
  have hstate := (hshape.rule s h.lt).stop_only p.state hnested.2 hkind
  unfold Ongoing at hgo
  rw [Place.outermost_of_nil hr] at hgo
  exact hgo.2 hstate

/-- A way from an alternative does not end before it takes the end of input. -/
theorem Closes.not_ends (hin : n.Inside s p) (hgo : n.Ongoing s e p)
    (hr : n.Reached (n.Begins p) w alt p') (hw : TokenType.eof ∉ w) : ¬ n.Ends p' := by
  obtain ⟨p₀, ⟨j, t, hj, -, hfollow⟩, hr⟩ := hr
  have hs : n.Step p [] p₀ := .free (List.mem_of_getElem? hj) hfollow
  have hin₀ := hin.step hshape hn hs
  rcases h.step_ongoing hshape hn hin hgo hs with ⟨hgo₀, -⟩ | ⟨hnil, -⟩
  · exact h.not_ends_of_ongoing hshape (hin₀.reads hshape hn hr)
      (h.reads_ongoing hshape hn hin₀ hgo₀ hr hw)
  · cases hnil

/-- What a step leaves of the input is what the place has to take after it. -/
theorem Closes.clears_of_step (hin : n.Inside s p) (hp : n.Ongoing s e p ∨ n.Closed s e p)
    (hs : n.Step p w p') (hinput : w = [] ∧ input' = input ∨ w = [input.kind] ∧ input' = input.consume)
    (hclears : n.Clears s e p' input') : n.Clears s e p input := by
  obtain ⟨v, q', hr, hend, hv⟩ := hclears
  have hdisjoint : n.Ongoing s e p' → n.Closed s e p' → False := by
    rintro ⟨he, hs⟩ ⟨hnil, hstate⟩
    rw [Place.outermost_of_nil hnil] at he hs
    exact hstate.elim he hs
  refine ⟨w ++ v, q', (Reads.single hs).trans hr, hend, ?_⟩
  rcases hp with hgo | hclosed
  · refine .inl ⟨hgo, ?_⟩
    rcases h.step_ongoing hshape hn hin hgo hs with ⟨hgo', heof⟩ | ⟨rfl, hclosed'⟩
    · rcases hv with ⟨-, rfl⟩ | ⟨hclosed', -⟩
      · rcases hinput with ⟨rfl, rfl⟩ | ⟨rfl, rfl⟩
        · rfl
        · rw [List.mem_singleton] at heof
          exact (TokenCursor.types_of_not_eof fun hk => heof hk.symm).symm
      · exact (hdisjoint hgo' hclosed').elim
    · rcases hv with ⟨hgo', -⟩ | ⟨-, rfl⟩
      · exact (hdisjoint hgo' hclosed').elim
      · rcases hinput with ⟨hnil, -⟩ | ⟨hk, -⟩
        · cases hnil
        · exact (TokenCursor.types_of_eof (List.cons.inj hk).1.symm).symm
  · obtain ⟨rfl, hclosed'⟩ := h.step_closed hshape hn hclosed hs
    rcases hv with ⟨hgo', -⟩ | ⟨-, rfl⟩
    · exact (hdisjoint hgo' hclosed').elim
    · exact .inr ⟨hclosed, rfl⟩

end

end Network

end AdaptiveParsing
