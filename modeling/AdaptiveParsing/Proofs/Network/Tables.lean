import AdaptiveParsing.Proofs.Network.Compiled
import AdaptiveParsing.Proofs.Network.LeftCalls
/-!
The tables of a network, and what its check has made sure of. Every call is in the table of the rule
it enters with the state it returns to, a decision is at the state it has its number from, and an edge
that takes a token is alone at its state. Main statement: a compiled grammar has all this, and no rule
that comes back to itself before any token (`Grammar.checked_compile`).
-/

namespace AdaptiveParsing

namespace Network

variable (n : Network)

/-- Calls before any token: from a rule to those that it can call before it takes one. -/
def LeftCalls (nullable : RuleId → Prop) (a b : RuleId) : Prop :=
  a < n.rules.size ∧ ∃ s, FreeFrom n.state nullable (n.rule a).start s ∧
    ∃ t ∈ (n.state s).transitions, ∃ follow precedence, t.kind = .rule b follow precedence

/-- With these rules nullable, every rule takes a token before it calls itself. -/
structure Progressive (nullable : RuleId → Prop) : Prop where
  closed : ∀ r, r < n.rules.size →
    FreeFrom n.state nullable (n.rule r).start (n.rule r).stop → nullable r
  acyclic : ∀ r, ¬ Relation.TransGen (n.LeftCalls nullable) r r

/-- What the check of a draft leaves in its network, and what the tables hold. -/
structure Checked : Prop where
  last : ∀ s, (n.state s).isRuleStop = true → (n.state s).transitions = []
  single : ∀ s, ∀ t ∈ (n.state s).transitions, t.isConsuming = true → (n.state s).transitions = [t]
  target_lt : ∀ s, ∀ t ∈ (n.state s).transitions, t.target < n.states.size
  follow_lt : ∀ s, ∀ t ∈ (n.state s).transitions, ∀ r follow precedence,
    t.kind = .rule r follow precedence → follow < n.states.size
  returns : ∀ s, ∀ t ∈ (n.state s).transitions, ∀ r follow precedence,
    t.kind = .rule r follow precedence → follow ∈ n.followStates r
  returns_call : ∀ r, ∀ follow ∈ n.followStates r, ∃ s, ∃ t ∈ (n.state s).transitions,
    ∃ precedence, t.kind = .rule r follow precedence
  returns_le : ∀ r, (n.followStates r).length ≤ n.edgeCount
  edges : n.edgeCount = ∑ s ∈ Finset.range n.states.size, (n.state s).transitions.length
  decision : ∀ s d, 1 < (n.state s).transitions.length → (n.state s).decision = some d →
    n.decisionState d = s
  progressive : ∃ nullable, n.Progressive nullable

theorem Checked.not_stop {n : Network} (hn : n.Checked) {s : StateId} {t : Transition}
    (ht : t ∈ (n.state s).transitions) : (n.state s).isRuleStop = false := by
  by_contra hne
  rw [hn.last s (by simpa using hne)] at ht
  cases ht

theorem Checked.followOf?_lt {n : Network} (hn : n.Checked) {s back : StateId} (h : n.followOf? s = some back) :
    back < n.states.size := by
  obtain ⟨t, ht, hcall, rfl⟩ := exists_call_of_followOf? h
  cases hk : t.kind with
  | rule r follow precedence =>
    rw [Transition.next, hk]
    exact hn.follow_lt s t ht r follow precedence hk
  | _ => simp [Transition.call?, hk] at hcall

end Network

namespace Draft

variable {d : Draft} {n : Network}

/-- Notes the return of a call. -/
def noteReturn (table : Array (List StateId)) (call : RuleId × StateId × Int) :
    Array (List StateId) :=
  table.modify call.1 fun links => if links.contains call.2.1 then links else links ++ [call.2.1]

theorem getD_noteReturn (table : Array (List StateId)) (call : RuleId × StateId × Int)
    (r : RuleId) : (noteReturn table call).getD r [] =
      if call.1 = r ∧ r < table.size then
        if (table.getD r []).contains call.2.1 then table.getD r []
        else table.getD r [] ++ [call.2.1]
      else table.getD r [] := by
  simp only [noteReturn, Array.getD_eq_getD_getElem?, Array.getElem?_modify]
  by_cases hr : call.1 = r
  · by_cases hlt : r < table.size
    · simp [hr, hlt]
    · simp [hr, hlt]
  · simp [hr]

/-- A table of returns holds what is noted, and not more. -/
theorem foldl_noteReturn (calls : List (RuleId × StateId × Int)) (table : Array (List StateId)) :
    let result := calls.foldl noteReturn table
    (∀ r, ∀ follow ∈ table.getD r [], follow ∈ result.getD r []) ∧
      (∀ call ∈ calls, call.1 < table.size → call.2.1 ∈ result.getD call.1 []) ∧
      (∀ r, ∀ follow ∈ result.getD r [], follow ∈ table.getD r [] ∨
        ∃ precedence, (r, follow, precedence) ∈ calls) ∧
      ∀ r, (result.getD r []).length ≤ (table.getD r []).length + calls.length := by
  induction calls generalizing table with
  | nil => simp
  | cons call calls ih =>
    obtain ⟨i₁, i₂, i₃, i₄⟩ := ih (noteReturn table call)
    have hsize : (noteReturn table call).size = table.size := Array.size_modify
    have hkeep : ∀ r, ∀ follow ∈ table.getD r [], follow ∈ (noteReturn table call).getD r [] := by
      intro r follow hf
      rw [getD_noteReturn]
      split
      · split
        · exact hf
        · exact List.mem_append_left _ hf
      · exact hf
    rw [List.foldl_cons]
    refine ⟨fun r follow hf => i₁ r follow (hkeep r follow hf), ?_, ?_, ?_⟩
    · intro c hc hlt
      rcases List.mem_cons.1 hc with rfl | hc
      · refine i₁ _ _ ?_
        rw [getD_noteReturn, if_pos ⟨rfl, hlt⟩]
        by_cases hin : (table.getD c.1 []).contains c.2.1 = true
        · rw [if_pos hin]
          exact List.contains_iff_mem.1 hin
        · rw [if_neg hin]
          exact List.mem_append_right _ (.head _)
      · exact i₂ c hc (by rwa [hsize])
    · intro r follow hf
      rcases i₃ r follow hf with hf | ⟨precedence, hf⟩
      · rw [getD_noteReturn] at hf
        split at hf
        · rename_i hr
          split at hf
          · exact .inl hf
          · rcases List.mem_append.1 hf with hf | hf
            · exact .inl hf
            · refine .inr ⟨call.2.2, ?_⟩
              rw [List.mem_singleton.1 hf, ← hr.1]
              exact .head _
        · exact .inl hf
      · exact .inr ⟨precedence, .tail _ hf⟩
    · intro r
      have := i₄ r
      have hle : ((noteReturn table call).getD r []).length ≤ (table.getD r []).length + 1 := by
        rw [getD_noteReturn]
        split
        · split <;> simp
        · exact Nat.le_succ _
      rw [List.length_cons]
      omega

theorem mem_calls {r : RuleId} {follow : StateId} {precedence : Int} :
    (r, follow, precedence) ∈ d.calls ↔ ∃ s, ∃ t ∈ (d.state s).transitions,
      t.kind = .rule r follow precedence := by
  unfold calls
  rw [List.mem_flatMap]
  constructor
  · rintro ⟨st, hst, hm⟩
    obtain ⟨t, ht, hk⟩ := List.mem_filterMap.1 hm
    obtain ⟨s, hs, rfl⟩ := Array.getElem_of_mem (Array.mem_def.2 hst)
    refine ⟨s, t, ?_, ?_⟩
    · simpa [state, Array.getD_eq_getD_getElem?, hs] using ht
    · cases h : t.kind <;> simp_all
  · rintro ⟨s, t, ht, hk⟩
    have hs := lt_of_edge ht
    refine ⟨d.state s, ?_, List.mem_filterMap.2 ⟨t, ht, by rw [hk]⟩⟩
    simp [state, Array.getD_eq_getD_getElem?, hs]

theorem length_flatMap_filterMap_le {β : Type} (f : Transition → Option β) (l : List NetworkState)
    (k : Nat) : k + (l.flatMap fun s => s.transitions.filterMap f).length ≤
      l.foldl (fun k s => k + s.transitions.length) k := by
  induction l generalizing k with
  | nil => simp
  | cons s l ih =>
    rw [List.flatMap_cons, List.length_append, List.foldl_cons]
    have hs := List.length_filterMap_le f s.transitions
    have := ih (k + s.transitions.length)
    omega

theorem length_calls (d : Draft) : d.calls.length ≤ d.edgeCount := by
  unfold calls edgeCount
  rw [← Array.foldl_toList]
  exact Nat.le_trans (Nat.le_add_left _ 0) (length_flatMap_filterMap_le _ _ 0)

/-- Numbers the decision of one state. -/
def numberState (p : Array NetworkState × Nat) (s : NetworkState) : Array NetworkState × Nat :=
  if 1 < s.transitions.length then (p.1.push { s with decision := some p.2 }, p.2 + 1)
  else (p.1.push s, p.2)

/-- The states of a list that have several edges. -/
def deciding (l : List NetworkState) : List Nat :=
  (List.range l.length).filter fun i => decide (1 < (l.getD i default).transitions.length)

theorem deciding_concat (l : List NetworkState) (s : NetworkState) :
    deciding (l ++ [s]) =
      deciding l ++ if 1 < s.transitions.length then [l.length] else [] := by
  unfold deciding
  rw [List.length_append, List.length_singleton, List.range_succ, List.filter_append]
  congr 1
  · refine List.filter_congr fun i hi => ?_
    rw [List.getD_eq_getElem?_getD, List.getD_eq_getElem?_getD,
      List.getElem?_append_left (List.mem_range.1 hi)]
  · rw [List.filter_singleton, List.getD_eq_getElem?_getD, List.getElem?_concat_length,
      Option.getD_some]
    by_cases hs : 1 < s.transitions.length <;> simp [hs]

/-- The number of a decision finds its state again. -/
theorem foldl_numberState (l : List NetworkState) :
    let p := l.foldl numberState (#[], 0)
    p.1.size = l.length ∧ p.2 = (deciding l).length ∧
      ∀ i (s : NetworkState) number, p.1[i]? = some s → 1 < s.transitions.length → s.decision = some number →
        (deciding l)[number]? = some i := by
  induction l using List.reverseRecOn with
  | nil => simp [deciding]
  | append_singleton l s ih =>
    obtain ⟨h₁, h₂, h₃⟩ := ih
    rw [List.foldl_append, List.foldl_cons, List.foldl_nil, deciding_concat]
    generalize l.foldl numberState (#[], 0) = p at *
    obtain ⟨states, next⟩ := p
    simp only at h₁ h₂ h₃
    have hold : ∀ more i (st : NetworkState) number, states[i]? = some st → 1 < st.transitions.length →
        st.decision = some number → (deciding l ++ more)[number]? = some i := by
      intro more i st number hi hs hd
      have := h₃ i st number hi hs hd
      obtain ⟨hlt, -⟩ := List.getElem?_eq_some_iff.1 this
      rwa [List.getElem?_append_left hlt]
    unfold numberState
    by_cases hs : 1 < s.transitions.length
    · rw [if_pos hs, if_pos hs]
      refine ⟨by simp [h₁], by simp [h₂], ?_⟩
      intro i st number hi hst hd
      rw [Array.getElem?_push] at hi
      split at hi
      · rename_i he
        obtain rfl := Option.some.inj hi
        obtain rfl := Option.some.inj hd
        rw [h₂, List.getElem?_append_right (Nat.le_refl _), he, h₁]
        simp
      · exact hold _ i st number hi hst hd
    · rw [if_neg hs, if_neg hs]
      refine ⟨by simp [h₁], by simp [h₂], ?_⟩
      intro i st number hi hst hd
      rw [Array.getElem?_push] at hi
      split at hi
      · obtain rfl := Option.some.inj hi
        exact absurd hst hs
      · exact hold _ i st number hi hst hd

/-- A state with several edges has a number. -/
theorem decision_foldl_numberState (l : List NetworkState) :
    ∀ s ∈ (l.foldl numberState (#[], 0)).1, 1 < s.transitions.length →
      ∃ number, s.decision = some number := by
  induction l using List.reverseRecOn with
  | nil => simp
  | append_singleton l s ih =>
    rw [List.foldl_append, List.foldl_cons, List.foldl_nil]
    generalize l.foldl numberState (#[], 0) = p at *
    intro st hst hlen
    unfold numberState at hst
    split at hst <;> rcases Array.mem_push.1 hst with hst | rfl
    · exact ih st hst hlen
    · exact ⟨_, rfl⟩
    · exact ih st hst hlen
    · exact absurd hlen ‹_›

/-- A state with several edges is the state of a decision. -/
theorem decisions_skeleton {s : StateId} (hs : 1 < (d.skeleton.state s).transitions.length) :
    ∃ number, (d.skeleton.state s).decision = some number ∧ d.decisions[number]? = some s := by
  obtain ⟨-, -, h⟩ := foldl_numberState d.states.toList
  have hmem := decision_foldl_numberState d.states.toList
  have hnumbered : (d.states.toList.foldl numberState (#[], 0)).1 = d.numberedStates := by
    unfold numberedStates
    rw [← Array.foldl_toList]
    rfl
  have hdeciding : d.decisions.toList = deciding d.states.toList := by
    unfold decisions deciding
    rw [Array.toList_filter, Array.toList_range, Array.length_toList]
    refine List.filter_congr fun i _ => ?_
    simp only [state, Array.getD_eq_getD_getElem?, List.getD_eq_getElem?_getD,
      Array.getElem?_toList]
  rw [hnumbered] at h hmem
  cases hst : d.numberedStates[s]? with
  | none =>
    rw [show d.skeleton.state s = default by
      simp [skeleton, Network.state, Array.getD_eq_getD_getElem?, hst]] at hs
    exact absurd hs (by decide)
  | some st =>
    simp only [skeleton, Network.state, Array.getD_eq_getD_getElem?, hst, Option.getD_some] at hs ⊢
    obtain ⟨number, hd⟩ := hmem st (Array.mem_of_getElem? hst) hs
    have hmem := h s st number hst hs hd
    rw [← hdeciding, Array.getElem?_toList] at hmem
    exact ⟨number, hd, hmem⟩

theorem decision_skeleton {s : StateId} {number : DecisionId}
    (hs : 1 < (d.skeleton.state s).transitions.length)
    (hd : (d.skeleton.state s).decision = some number) : d.skeleton.decisionState number = s := by
  obtain ⟨other, hother, hmem⟩ := decisions_skeleton hs
  obtain rfl := Option.some.inj (hother.symm.trans hd)
  simp [skeleton, Network.decisionState, Array.getD_eq_getD_getElem?, hmem]

/-- Notes the precedence of a call at the state it returns to. -/
def notePrecedence (table : Array (Option Int)) (call : RuleId × StateId × Int) :
    Array (Option Int) :=
  table.modify call.2.1 fun _ => some call.2.2

/-- If all calls that return to a state have one precedence, that is in the table. -/
theorem foldl_notePrecedence {follow : StateId} {precedence : Int}
    (calls : List (RuleId × StateId × Int)) (table : Array (Option Int))
    (hlt : follow < table.size)
    (hall : ∀ call ∈ calls, call.2.1 = follow → call.2.2 = precedence)
    (h : table[follow]? = some (some precedence) ∨ ∃ call ∈ calls, call.2.1 = follow) :
    (calls.foldl notePrecedence table)[follow]? = some (some precedence) := by
  induction calls generalizing table with
  | nil =>
    rcases h with h | ⟨call, hcall, -⟩
    · exact h
    · cases hcall
  | cons call calls ih =>
    have hsize : (notePrecedence table call).size = table.size := Array.size_modify
    have hfirst : (notePrecedence table call)[follow]? =
        if call.2.1 = follow then some (some call.2.2) else table[follow]? := by
      simp only [notePrecedence, Array.getElem?_modify]
      split
      · rw [Array.getElem?_eq_getElem hlt]
        rfl
      · rfl
    refine ih _ (hsize ▸ hlt) (fun c hc => hall c (.tail _ hc)) ?_
    rw [hfirst]
    by_cases he : call.2.1 = follow
    · rw [if_pos he, hall call (.head _) he]
      exact .inl rfl
    · rw [if_neg he]
      refine h.imp_right ?_
      rintro ⟨c, hc, hf⟩
      rcases List.mem_cons.1 hc with rfl | hc
      · exact absurd hf he
      · exact ⟨c, hc, hf⟩

theorem checked_build (h : d.build = .ok n) : n.Checked := by
  obtain ⟨hcheck, hstates, hrules⟩ := build_eq_ok h
  obtain ⟨hsound, hleft⟩ := sound_of_check hcheck
  have hbuild : n.edgeCount = d.edgeCount ∧ n.ruleFollow = d.skeleton.ruleFollow ∧
      n.decisions = d.skeleton.decisions := by
    unfold build at h
    rw [hcheck] at h
    cases h
    exact ⟨rfl, rfl, rfl⟩
  obtain ⟨hcount, hfollow, hdecisions⟩ := hbuild
  have hsize : n.states.size = d.states.size := by rw [hstates, size_skeleton]
  have hsizes := count_of_rules hrules
  have hstate : ∀ s, (n.state s).kind = (d.state s).kind ∧
      (n.state s).transitions = (d.state s).transitions := by
    intro s
    obtain ⟨h₁, -, h₃, -⟩ := NetworkState.fields_of_unnumbered (unnumbered_of_states hstates s)
    exact ⟨h₁, h₃⟩
  have hrule := rule_of_rules hrules
  have hedges : ∀ s, (n.state s).transitions = (d.state s).transitions := fun s => (hstate s).2
  have hlt : ∀ s, s < d.states.size ∨ (d.state s).transitions = [] := by
    intro s
    by_cases hs : s < d.states.size
    · exact .inl hs
    · right
      rw [state_of_size_le (by lia)]
      rfl
  obtain ⟨-, hnoted, hnotes, hlength⟩ :=
    foldl_noteReturn d.calls (Array.replicate d.rules.size [])
  have htable : n.ruleFollow = d.calls.foldl noteReturn (Array.replicate d.rules.size []) := hfollow
  have hempty : ∀ r, (Array.replicate d.rules.size ([] : List StateId)).getD r [] = [] := by
    intro r
    rw [Array.getD_eq_getD_getElem?, Array.getElem?_replicate]
    split <;> rfl
  refine ⟨?_, ?_, ?_, ?_, ?_, ?_, ?_, ?_, ?_, ?_⟩
  · intro s hs
    rw [hedges]
    rcases hlt s with hslt | hnone
    · have := hsound.state s hslt
      unfold checkState at this
      split at this
      · cases this
      · rename_i hstop
        have hkind : (d.state s).isRuleStop = true := by
          rw [NetworkState.isRuleStop, ← (hstate s).1]
          exact hs
        simpa [hkind] using hstop
    · exact hnone
  · intro s t ht hc
    rw [hedges] at ht ⊢
    have := hsound.state s (lt_of_edge ht)
    unfold checkState at this
    split at this
    · cases this
    · split at this
      · cases this
      · rename_i hmixed
        have hany : (d.state s).transitions.any Transition.isConsuming = true :=
          List.any_eq_true.2 ⟨t, ht, hc⟩
        rw [hany, Bool.true_and, decide_eq_true_iff] at hmixed
        cases hl : (d.state s).transitions with
        | nil =>
          rw [hl] at ht
          cases ht
        | cons u rest =>
          rw [hl] at ht hmixed
          obtain rfl : rest = [] := by
            cases rest with
            | nil => rfl
            | cons _ _ => simp at hmixed
          rw [List.mem_singleton.1 ht]
  · intro s t ht
    rw [hedges] at ht
    rw [hsize]
    exact hsound.target_lt ht
  · intro s t ht r follow precedence hk
    rw [hedges] at ht
    rw [hsize]
    exact (hsound.call ht hk).2.2
  · intro s t ht r follow precedence hk
    rw [hedges] at ht
    have hr := (hsound.call ht hk).1
    have := hnoted (r, follow, precedence) (mem_calls.2 ⟨s, t, ht, hk⟩) (by simpa using hr)
    rw [Network.followStates, htable]
    exact this
  · intro r follow hf
    rw [Network.followStates, htable] at hf
    rcases hnotes r follow hf with hf | ⟨precedence, hf⟩
    · rw [hempty] at hf
      cases hf
    · obtain ⟨s, t, ht, hk⟩ := mem_calls.1 hf
      exact ⟨s, t, by rwa [hedges], precedence, hk⟩
  · intro r
    have := hlength r
    rw [hempty, List.length_nil, Nat.zero_add] at this
    rw [Network.followStates, htable, hcount]
    exact Nat.le_trans this d.length_calls
  · rw [hcount, edgeCount_eq, hsize]
    exact Finset.sum_congr rfl fun s _ => by rw [hedges]
  · intro s number hs hd
    have hst : n.state s = d.skeleton.state s := by rw [Network.state, Network.state, hstates]
    have hds : n.decisionState number = d.skeleton.decisionState number := by
      rw [Network.decisionState, Network.decisionState, hdecisions]
    rw [hst] at hs hd
    rw [hds]
    exact decision_skeleton hs hd
  · refine ⟨Known d.nullableRules, ?_, ?_⟩
    · intro r hr hfree
      rw [hrule] at hfree
      exact nullable_closed (by rwa [← hsizes]) (hfree.congr hedges)
    · intro r hcycle
      refine not_leftCalls hleft r (Relation.TransGen.mono ?_ _ _ hcycle)
      rintro a b ⟨ha, s, hs, t, ht, follow, precedence, hk⟩
      rw [hrule] at hs
      exact ⟨by rwa [← hsizes], s, hs.congr hedges, t, by rwa [← hedges], follow, precedence, hk⟩

/-- The tables that are filled in before lookahead sets. -/
theorem tables_build (h : d.build = .ok n) :
    n.decisions = d.decisions ∧ n.returnPrecedence = d.skeleton.returnPrecedence := by
  obtain ⟨hcheck, -, -⟩ := build_eq_ok h
  unfold build at h
  rw [hcheck] at h
  cases h
  exact ⟨rfl, rfl⟩

/-- A state with several edges has a decision in the table. -/
theorem decision_build (h : d.build = .ok n) {s : StateId}
    (hs : 1 < (n.state s).transitions.length) : ∃ number, (n.state s).decision = some number ∧
      n.decisionState number = s ∧ number < n.decisions.size := by
  obtain ⟨-, hstates, -⟩ := build_eq_ok h
  obtain ⟨hdecisions, -⟩ := tables_build h
  have hst : n.state s = d.skeleton.state s := by rw [Network.state, Network.state, hstates]
  rw [hst] at hs ⊢
  obtain ⟨number, hd, hmem⟩ := decisions_skeleton hs
  refine ⟨number, hd, ?_, ?_⟩
  · simp [Network.decisionState, Array.getD_eq_getD_getElem?, hdecisions, hmem]
  · rw [hdecisions]
    exact (Array.getElem?_eq_some_iff.1 hmem).1

/-- The precedence of a call is in the table at the state it returns to. -/
theorem returnPrecedence_build {levels : RuleId → Int → Prop} (h : d.build = .ok n)
    (hshaped : n.Shaped levels) {s : StateId} {t : Transition} (ht : t ∈ (n.state s).transitions)
    {r : RuleId} {follow : StateId} {precedence : Int} (hk : t.kind = .rule r follow precedence) :
    n.returnPrecedenceAt follow = some precedence := by
  obtain ⟨-, hstates, -⟩ := build_eq_ok h
  obtain ⟨-, hreturns⟩ := tables_build h
  have hedges : ∀ a, (n.state a).transitions = (d.state a).transitions := fun a =>
    (NetworkState.fields_of_unnumbered (unnumbered_of_states hstates a)).2.2.1
  have htable : n.returnPrecedence =
      d.calls.foldl notePrecedence (Array.replicate d.states.size none) := hreturns
  have hlt : follow < d.states.size := by
    rw [← size_skeleton, ← hstates]
    exact (checked_build h).follow_lt s t ht r follow precedence hk
  rw [Network.returnPrecedenceAt, htable, foldl_notePrecedence _ _ (by simpa using hlt)]
  · rfl
  · rintro ⟨c, back, p⟩ hcall hback
    obtain ⟨a, u, hu, huk⟩ := mem_calls.1 hcall
    rw [← hedges] at hu
    -- two calls that return to the same state leave the same state
    have halone := hshaped.alone s t ht (by simp [Transition.call?, hk])
    have halone' := hshaped.alone a u hu (by simp [Transition.call?, huk])
    have hsame : a = s := by
      have h₁ := halone.2.1
      have h₂ := halone'.2.1
      simp only [Transition.next, hk] at h₁
      simp only [Transition.next, huk] at h₂
      dsimp only at hback
      lia
    subst hsame
    rw [halone.1, List.mem_singleton] at hu
    subst hu
    rw [hk] at huk
    cases huk
    rfl
  · exact .inr ⟨(r, follow, precedence), mem_calls.2 ⟨s, t, hedges s ▸ ht, hk⟩, rfl⟩

end Draft

/-- A compiled grammar has passed its check. -/
theorem Grammar.checked_compile {g : Grammar} {c : CompiledGrammar} (h : g.compile = .ok c) :
    c.network.Checked := by
  obtain ⟨d, -, hb⟩ := build_compile h
  exact Draft.checked_build hb

end AdaptiveParsing
