import AdaptiveParsing.Proofs.Network.Drafting
/-!
The alternatives of a left-recursive rule as they are lowered. Those that start without an operand
are ordinary fragments; an operator begins with a guard, whose one edge asks for the operator's
level and to which nothing in the operator leads back (`Operator.grows_lower`).
-/

namespace AdaptiveParsing

open Draft DraftM

variable {d d₀ d₁ : Draft} {r : RuleId} {f : Fragment} {parts : List Fragment} {level : Int}
  {guards guards' : List (StateId × Int)}

theorem Element.adds_lowerSequence (r : RuleId) (items : List Element) (d : Draft) :
    Adds r d ((Element.lowerSequence r items).run d) := by
  rw [Element.lowerSequence, run_bind]
  exact adds_sequence (Element.parts_lowerAll r items d)

/-- A call is put after a fragment. -/
theorem Draft.Grows.addOperand (h : Grows r guards d₀ d) (hf : d₀.Holds d f)
    (hg : f.exit ∉ guards.map Prod.fst) {floor : Int} (hfloor : 0 ≤ floor) :
    let c := (DraftM.call r r floor).run d
    let d₁ := c.2.addEpsilon f.exit c.1.entry
    Grows r guards d₀ d₁ ∧ d₀.Holds d₁ ⟨f.entry, c.1.exit⟩ ∧ d.states.size ≤ c.1.exit := by
  have hc := adds_call (r := r) (d := d) r hfloor
  have hsize := h.size
  have hf' := hf.grows hc.grows
  have hc' := hc.holds.of_le hsize
  have hlow : ∀ s, d.states.size ≤ s → s ∉ guards.map Prod.fst := by
    intro s hs hm
    obtain ⟨g, hg, rfl⟩ := List.mem_map.1 hm
    have := h.guards_new g hg
    lia
  have hgrows : Grows r guards d₀ ((DraftM.call r r floor).run d).2 := by
    have := h.trans hc.grows
    rwa [List.append_nil] at this
  intro c d₁
  refine ⟨?_, ?_, hc.holds.exit_ge⟩
  · exact hgrows.addTransition hf'.exit_ge hf'.exit_lt rfl hc'.entry_ge hc'.entry_lt hf'.exit_open
      (.inl rfl) hg (hlow _ hc.holds.entry_ge)
  · have he := hf'.addTransition (t := .epsilon c.1.entry) hf'.exit_lt rfl
    have hx := hc'.addTransition (t := .epsilon c.1.entry) hf'.exit_lt rfl
    exact ⟨he.entry_ge, he.entry_lt, hx.exit_ge, hx.exit_lt, hx.exit_open⟩

/-- A head is a sequence of elements, with an operand after it if the alternative is a prefix. -/
theorem OperatorAlternative.grows_lowerHead (r : RuleId) {level : Int} (hl : 0 ≤ level)
    (a : OperatorAlternative) (d : Draft) :
    let result := (a.lowerHead? r level).run d
    Grows r [] d result.2 ∧ ∀ f, result.1 = some f → d.Holds result.2 f := by
  cases a with
  | binary _ _ => exact ⟨.refl r d, by simp [lowerHead?, pure, StateT.pure, StateT.run]⟩
  | suffix _ => exact ⟨.refl r d, by simp [lowerHead?, pure, StateT.pure, StateT.run]⟩
  | primary items =>
    have ha := Element.adds_lowerSequence r items d
    refine ⟨ha.grows, ?_⟩
    intro f hf
    cases hf
    exact ha.holds
  | prefixed items =>
    have ha := Element.adds_lowerSequence r items d
    obtain ⟨hg, hh, -⟩ := ha.grows.addOperand ha.holds (by simp) hl
    refine ⟨hg, ?_⟩
    intro f hf
    cases hf
    exact hh

/-- The first edge of a state that nothing leads to may ask for a level. -/
theorem Draft.Grows.addGuard {g b : StateId} (h : Grows r [] d₀ d) (hg : d₀.states.size ≤ g)
    (hg' : g < d.states.size) (hb : d₀.states.size ≤ b) (hb' : b < d.states.size) (hne : b ≠ g)
    (hfirst : (d.state g).transitions = [])
    (hinto : ∀ s, d₀.states.size ≤ s → s < d.states.size →
      ∀ t ∈ (d.state s).transitions, t.next ≠ g) :
    Grows r [(g, level)] d₀ (d.addTransition g ⟨b, .precedence level⟩) := by
  refine ⟨?_, count_addTransition.trans h.count,
    fun c => (rule_addTransition c).trans (h.rules c), ?_, ?_, ?_⟩
  · rw [size_addTransition]
    exact h.size
  · intro s hs
    rw [state_addTransition hg', if_neg (by lia), h.old s hs]
  · intro s hs hs'
    rw [size_addTransition] at hs' ⊢
    have hi := h.new s hs hs'
    by_cases hsg : s = g
    · subst hsg
      have he : (d.addTransition s ⟨b, .precedence level⟩).state s =
          { d.state s with transitions := [⟨b, .precedence level⟩] } := by
        rw [state_addTransition hg', if_pos rfl, hfirst]
        rfl
      refine ⟨?_, ?_, ?_, ?_, ?_, ?_, ?_, ?_, ?_⟩ <;> rw [he]
      · exact hi.rule
      · exact hi.not_start
      · exact hi.not_stop
      · exact hi.not_loop
      · intro t ht
        obtain rfl := List.mem_singleton.1 ht
        exact ⟨hb, hb'⟩
      · intro t ht l hl
        obtain rfl := List.mem_singleton.1 ht
        cases hl
        exact .head _
      · intro t ht _
        obtain rfl := List.mem_singleton.1 ht
        rfl
      · intro t ht hm
        obtain rfl := List.mem_singleton.1 ht
        exact hne (List.mem_singleton.1 hm)
      · intro t ht hcall
        obtain rfl := List.mem_singleton.1 ht
        exact absurd rfl hcall
    · have he : (d.addTransition g ⟨b, .precedence level⟩).state s = d.state s := by
        rw [state_addTransition hg', if_neg hsg]
      refine ⟨?_, ?_, ?_, ?_, ?_, ?_, ?_, ?_, ?_⟩ <;> rw [he]
      · exact hi.rule
      · exact hi.not_start
      · exact hi.not_stop
      · exact hi.not_loop
      · exact hi.bounds
      · intro t ht l hl
        exact absurd (hi.levels t ht l hl) (by simp)
      · intro t _ hm
        exact absurd (List.mem_singleton.1 hm) hsg
      · intro t ht hm
        exact hinto s hs hs' t ht (List.mem_singleton.1 hm)
      · exact hi.call
  · intro p hp
    obtain rfl := List.mem_singleton.1 hp
    rw [size_addTransition]
    exact ⟨hg, hg'⟩

theorem Operator.lower_run (r : RuleId) (op : Operator) (d : Draft) :
    (op.lower r).run d =
      let b := (Element.lowerSequence r op.items).run (d.addState .basic r).2
      let d₁ := b.2.addTransition d.states.size ⟨b.1.entry, .precedence op.level⟩
      match op.operand with
      | none => (⟨d.states.size, b.1.exit⟩, d₁)
      | some floor =>
        let c := (DraftM.call r r floor).run d₁
        (⟨d.states.size, c.1.exit⟩, c.2.addEpsilon b.1.exit c.1.entry) := by
  unfold Operator.lower
  cases op.operand <;> rfl

/-- An operator is a guard with its level, and a fragment behind it. -/
theorem Operator.grows_lower (r : RuleId) (op : Operator)
    (hop : ∀ floor, op.operand = some floor → 0 ≤ floor) (d : Draft) :
    let result := (op.lower r).run d
    Grows r [(d.states.size, op.level)] d result.2 ∧ d.Holds result.2 result.1 ∧
      result.1.entry = d.states.size ∧ d.states.size < result.1.exit := by
  have hguard : d.Grows r [] (d.addState .basic r).2 := grows_addState (by decide) (by decide)
  have hbody := Element.adds_lowerSequence r op.items (d.addState .basic r).2
  have hsize : (d.addState .basic r).2.states.size = d.states.size + 1 := size_addState
  have hs : (d.addState .basic r).2.state d.states.size = { kind := .basic, rule := r } := by
    rw [state_addState, if_pos rfl]
  rw [lower_run]
  generalize (d.addState .basic r).2 = d₁ at *
  generalize (Element.lowerSequence r op.items).run d₁ = b at *
  obtain ⟨body, d₂⟩ := b
  have hall : Grows r [] d d₂ := hguard.trans hbody.grows
  have hs₂ : d₂.state d.states.size = { kind := .basic, rule := r } := by
    rw [hbody.grows.old _ (by lia), hs]
  have hlt : d.states.size < d₂.states.size := by
    have := hbody.grows.size
    simp only at this
    lia
  have hge := hbody.holds.entry_ge
  have hxge := hbody.holds.exit_ge
  have hg := @Grows.addGuard _ _ r op.level _ _ hall (Nat.le_refl _) hlt (by lia) hbody.holds.entry_lt
    (by lia) (by rw [hs₂]) (by
      intro s hs hs' t ht hn
      by_cases hsd : s = d.states.size
      · rw [hsd, hs₂] at ht
        cases ht
      · have := (hbody.grows.new s (by lia) hs').bounds t ht
        lia)
  have hh : d.Holds (d₂.addTransition d.states.size ⟨body.entry, .precedence op.level⟩) body :=
    (hbody.holds.of_le (by lia)).addTransition hlt rfl
  have hne : body.exit ∉ [(d.states.size, op.level)].map Prod.fst := by
    intro hm
    have := List.mem_singleton.1 hm
    lia
  simp only
  cases hoperand : op.operand with
  | none =>
    refine ⟨hg, ⟨Nat.le_refl _, ?_, hh.exit_ge, hh.exit_lt, hh.exit_open⟩, rfl, by simp only; lia⟩
    rw [size_addTransition]
    exact hlt
  | some floor =>
    obtain ⟨hg', hh', hx⟩ := hg.addOperand hh hne (hop floor hoperand)
    have hsize' := hg'.size
    rw [size_addTransition] at hx
    refine ⟨hg', ⟨Nat.le_refl _, ?_, hh'.exit_ge, hh'.exit_lt, hh'.exit_open⟩, rfl, ?_⟩
    · have := hh'.exit_lt
      simp only at this ⊢
      lia
    · simp only
      lia

/-- Operators are guarded fragments one after the other. -/
theorem Operator.grows_lowerAll (r : RuleId) (operators : List Operator)
    (hops : ∀ op ∈ operators, ∀ floor, op.operand = some floor → 0 ≤ floor) (d : Draft) :
    ∃ guards, (∀ g ∈ guards, ∃ op ∈ operators, g.2 = op.level) ∧
      Grows r guards d ((operators.mapM (Operator.lower r)).run d).2 ∧
      ∀ f ∈ ((operators.mapM (Operator.lower r)).run d).1,
        d.Holds ((operators.mapM (Operator.lower r)).run d).2 f ∧
          f.entry ∈ guards.map Prod.fst ∧ f.exit ∉ guards.map Prod.fst := by
  induction operators generalizing d with
  | nil => exact ⟨[], by simp, .refl r d, by simp [pure, StateT.pure, StateT.run]⟩
  | cons op rest ih =>
    rw [List.mapM_cons, run_bind, run_bind]
    obtain ⟨hg, hh, he, hx⟩ := op.grows_lower r (hops op (.head _)) d
    generalize (op.lower r).run d = a at *
    obtain ⟨f, d₁⟩ := a
    obtain ⟨guards, hlevels, hg', hf⟩ := ih (fun o ho => hops o (.tail _ ho)) d₁
    generalize (rest.mapM (Operator.lower r)).run d₁ = b at *
    obtain ⟨parts, d₂⟩ := b
    refine ⟨(d.states.size, op.level) :: guards, ?_, hg.trans hg', ?_⟩
    · intro g hg
      rcases List.mem_cons.1 hg with rfl | hg
      · exact ⟨op, .head _, rfl⟩
      · obtain ⟨op', hop, hl⟩ := hlevels g hg
        exact ⟨op', .tail _ hop, hl⟩
    · have hsize := hg.size
      have hhigh : ∀ s, s ∈ guards.map Prod.fst → d₁.states.size ≤ s := by
        intro s hs
        obtain ⟨g, hg, rfl⟩ := List.mem_map.1 hs
        exact (hg'.guards_new g hg).1
      intro f' hf'
      rcases List.mem_cons.1 hf' with rfl | hf'
      · refine ⟨hh.grows hg', ?_, ?_⟩
        · rw [he]
          exact .head _
        · intro hm
          rcases List.mem_cons.1 hm with hm | hm
          · simp only at hm hx
            lia
          · have := hhigh _ hm
            have := hh.exit_lt
            simp only at *
            lia
      · obtain ⟨hh', he', hx'⟩ := hf f' hf'
        refine ⟨hh'.of_le hsize, .tail _ he', ?_⟩
        intro hm
        rcases List.mem_cons.1 hm with hm | hm
        · have := hh'.exit_ge
          have := hh.entry_lt
          simp only at *
          lia
        · exact hx' hm

end AdaptiveParsing
