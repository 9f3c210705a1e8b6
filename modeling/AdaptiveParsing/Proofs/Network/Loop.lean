import AdaptiveParsing.Proofs.Network.Shape
/-!
The loop of a left-recursive rule. Once heads and operators are there, a loop over the operators is
put between the heads and the stop (`looped`). Main statement: the rule then has the shape of a
left-recursive one (`Looped.ruleShape`), and other rules are as they were (`Looped.untouched`).
-/

namespace AdaptiveParsing

namespace Draft

variable {d : Draft}

/-- The draft `d'` has the states and rules of `d`, with other edges. -/
structure Rewired (d d' : Draft) : Prop where
  size : d'.states.size = d.states.size
  count : d'.rules.size = d.rules.size
  rules : ∀ c, (d'.rule c).toRule = (d.rule c).toRule
  kind : ∀ s, (d'.state s).kind = (d.state s).kind
  rule : ∀ s, (d'.state s).rule = (d.state s).rule
  mark : ∀ s, (d'.state s).precedenceDecision = (d.state s).precedenceDecision

theorem Rewired.refl (d : Draft) : d.Rewired d :=
  ⟨rfl, rfl, fun _ => rfl, fun _ => rfl, fun _ => rfl, fun _ => rfl⟩

theorem Rewired.addEpsilon {d₁ : Draft} (h : d.Rewired d₁) (a b : StateId) :
    d.Rewired (d₁.addEpsilon a b) := by
  refine ⟨?_, ?_, ?_, ?_, ?_, ?_⟩
  · simp [h.size]
  · simp [h.count]
  · simp [h.rules]
  · simp [h.kind]
  · simp [h.rule]
  · simp [h.mark]

end Draft

open Draft DraftM

variable {d d₀ d₁ : Draft} {r : RuleId} {parts : List Fragment} {entry exit s : StateId}
  {t : Transition}

theorem alternatives_cons (f : Fragment) (rest : List Fragment) :
    ((alternatives entry exit (f :: rest)).run d).2 =
      ((alternatives entry exit rest).run
        ((d.addEpsilon entry f.entry).addEpsilon f.exit exit)).2 := rfl

theorem rewired_alternatives (h : d₀.Rewired d) (entry exit : StateId) (parts : List Fragment) :
    d₀.Rewired ((alternatives entry exit parts).run d).2 := by
  induction parts generalizing d with
  | nil => exact h
  | cons f rest ih =>
    rw [alternatives_cons]
    exact ih ((h.addEpsilon _ _).addEpsilon _ _)

theorem mem_alternatives
    (h : t ∈ ((((alternatives entry exit parts).run d).2).state s).transitions) :
    t ∈ (d.state s).transitions ∨ (s = entry ∧ ∃ f ∈ parts, t = .epsilon f.entry) ∨
      ∃ f ∈ parts, s = f.exit ∧ t = .epsilon exit := by
  induction parts generalizing d with
  | nil => exact .inl h
  | cons f rest ih =>
    rw [alternatives_cons] at h
    rcases ih h with h | ⟨hs, g, hg, ht⟩ | ⟨g, hg, hs⟩
    · rcases mem_addEpsilon h with h | ⟨hs, ht⟩
      · rcases mem_addEpsilon h with h | ⟨hs, ht⟩
        · exact .inl h
        · exact .inr (.inl ⟨hs, f, .head _, ht⟩)
      · exact .inr (.inr ⟨f, .head _, hs, ht⟩)
    · exact .inr (.inl ⟨hs, g, .tail _ hg, ht⟩)
    · exact .inr (.inr ⟨g, .tail _ hg, hs⟩)

theorem open_alternatives (h : d.Open s) :
    (((alternatives entry exit parts).run d).2).Open s := by
  intro t ht
  rcases mem_alternatives ht with ht | ⟨-, f, -, rfl⟩ | ⟨f, -, -, rfl⟩
  · exact h t ht
  · rfl
  · rfl

theorem state_alternatives_other (he : s ≠ entry) (hf : ∀ f ∈ parts, s ≠ f.exit) :
    (((alternatives entry exit parts).run d).2).state s = d.state s := by
  induction parts generalizing d with
  | nil => rfl
  | cons f rest ih =>
    rw [alternatives_cons, ih fun g hg => hf g (.tail _ hg), state_addEpsilon_other (hf f (.head _)),
      state_addEpsilon_other he]

theorem callsAlone_alternatives (h : d.CallsAlone) (he : d.Open entry)
    (hf : ∀ f ∈ parts, d.Open f.exit) :
    (((alternatives entry exit parts).run d).2).CallsAlone := by
  induction parts generalizing d with
  | nil => exact h
  | cons f rest ih =>
    rw [alternatives_cons]
    refine ih ((h.addEpsilon he).addEpsilon ?_) ?_ ?_
    · exact (hf f (.head _)).addEpsilon
    · exact he.addEpsilon.addEpsilon
    · exact fun g hg => (hf g (.tail _ hg)).addEpsilon.addEpsilon

/-- The draft after a loop over `parts` was added: its states from `e` on, joined up. -/
theorem rewired_starLoop (r : RuleId) (parts : List Fragment) (d : Draft) :
    (starStates r d).Rewired ((starLoop r parts).run d).2 := by
  rw [starLoop_run]
  exact ((rewired_alternatives (((Rewired.refl _).addEpsilon _ _).addEpsilon _ _) _ _ _).addEpsilon
    _ _).addEpsilon _ _

theorem mem_starLoop (h : t ∈ ((((starLoop r parts).run d).2).state s).transitions) :
    let e := d.states.size
    (s < e ∧ t ∈ (d.state s).transitions) ∨
      (s = e ∧ (t = .epsilon (e + 1) ∨ t = .epsilon (e + 4))) ∨
      (s = e + 1 ∧ ∃ f ∈ parts, t = .epsilon f.entry) ∨
      (∃ f ∈ parts, s = f.exit ∧ t = .epsilon (e + 2)) ∨
      (s = e + 2 ∧ t = .epsilon (e + 3)) ∨ (s = e + 3 ∧ t = .epsilon e) := by
  intro e
  rw [starLoop_run] at h
  rcases mem_addEpsilon h with h | ⟨hs, ht⟩
  · rcases mem_addEpsilon h with h | ⟨hs, ht⟩
    · rcases mem_alternatives h with h | h | h
      · rcases mem_addEpsilon h with h | ⟨hs, ht⟩
        · rcases mem_addEpsilon h with h | ⟨hs, ht⟩
          · left
            by_cases hlt : s < e
            · refine ⟨hlt, ?_⟩
              rwa [grows_starStates.old s hlt] at h
            · by_cases hlt' : s < e + 5
              · rw [state_starStates] at h
                grind
              · rw [state_of_size_le (by rw [size_starStates]; lia)] at h
                cases h
          · exact .inr (.inl ⟨hs, .inl ht⟩)
        · exact .inr (.inl ⟨hs, .inr ht⟩)
      · exact .inr (.inr (.inl h))
      · exact .inr (.inr (.inr (.inl h)))
    · exact .inr (.inr (.inr (.inr (.inl ⟨hs, ht⟩))))
  · exact .inr (.inr (.inr (.inr (.inr ⟨hs, ht⟩))))

theorem state_starLoop_other (hs : s < d.states.size) (hf : ∀ f ∈ parts, s ≠ f.exit) :
    (((starLoop r parts).run d).2).state s = d.state s := by
  rw [starLoop_run, state_addEpsilon_other (by lia), state_addEpsilon_other (by lia),
    state_alternatives_other (by lia) hf, state_addEpsilon_other (by lia),
    state_addEpsilon_other (by lia), grows_starStates.old s hs]

/-- What the entry of the loop decides between. -/
theorem transitions_starLoop (hf : ∀ f ∈ parts, f.exit < d.states.size) :
    ((((starLoop r parts).run d).2).state d.states.size).transitions =
      [.epsilon (d.states.size + 1), .epsilon (d.states.size + 4)] := by
  have hsize : d.states.size < (starStates r d).states.size := by
    rw [size_starStates]
    lia
  have hexits : ∀ f ∈ parts, d.states.size ≠ f.exit := fun f hm => by
    have := hf f hm
    lia
  rw [starLoop_run, state_addEpsilon_other (by lia), state_addEpsilon_other (by lia),
    state_alternatives_other (by lia) hexits]
  unfold addEpsilon
  rw [state_addTransition (by rwa [size_addTransition]), if_pos rfl, state_addTransition hsize,
    if_pos rfl, state_starStates]
  simp

/-- The entry of alternatives leads to each of them. -/
theorem state_alternatives_entry (he : entry < d.states.size)
    (hf : ∀ f ∈ parts, f.exit < d.states.size ∧ f.exit ≠ entry) :
    ((alternatives entry exit parts).run d).2.state entry =
      { d.state entry with
        transitions := (d.state entry).transitions ++ parts.map fun f => .epsilon f.entry } := by
  induction parts generalizing d with
  | nil => simp [alternatives, List.forM, pure, StateT.pure, StateT.run]
  | cons f rest ih =>
    obtain ⟨hlt, hne⟩ := hf f (.head _)
    rw [alternatives_cons, ih (by simpa using he) fun g hg => by simpa using hf g (.tail _ hg),
      state_addEpsilon_other hne.symm, Draft.addEpsilon, state_addTransition he, if_pos rfl]
    simp

/-- The exits of alternatives lead to one state. -/
theorem state_alternatives_exit (he : entry < d.states.size)
    (hf : ∀ f ∈ parts, f.exit < d.states.size ∧ f.exit ≠ entry)
    (hnodup : (parts.map Fragment.exit).Nodup) (hmem : f ∈ parts) :
    ((alternatives entry exit parts).run d).2.state f.exit =
      { d.state f.exit with transitions := (d.state f.exit).transitions ++ [.epsilon exit] } := by
  induction parts generalizing d with
  | nil => cases hmem
  | cons g rest ih =>
    obtain ⟨hlt, hne⟩ := hf g (.head _)
    rw [List.map_cons, List.nodup_cons] at hnodup
    rw [alternatives_cons]
    rcases List.mem_cons.1 hmem with rfl | hmem
    · rw [state_alternatives_other hne fun g' hg' he =>
          hnodup.1 (he ▸ List.mem_map_of_mem hg'),
        Draft.addEpsilon, state_addTransition (by simpa using hlt), if_pos rfl,
        state_addEpsilon_other hne]
    · rw [ih (by simpa using he) (fun g' hg' => by simpa using hf g' (.tail _ hg')) hnodup.2 hmem,
        state_addEpsilon_other fun he : f.exit = g.exit =>
          hnodup.1 (he ▸ List.mem_map_of_mem hmem),
        state_addEpsilon_other (hf f (.tail _ hmem)).2]

/-- The states of the loop. -/
theorem states_starLoop (hf : ∀ f ∈ parts, f.exit < d.states.size) :
    let σ := ((starLoop r parts).run d).2.state
    let e := d.states.size
    σ e = { kind := .starLoopEntry, rule := r, transitions := [.epsilon (e + 1), .epsilon (e + 4)] } ∧
      σ (e + 1) = { kind := .starBlockStart, rule := r
                    transitions := parts.map fun f => .epsilon f.entry } ∧
      σ (e + 2) = { kind := .blockEnd, rule := r, transitions := [.epsilon (e + 3)] } ∧
      σ (e + 3) = { kind := .starLoopBack, rule := r, transitions := [.epsilon e] } ∧
      σ (e + 4) = { kind := .loopEnd, rule := r } := by
  have hstates : ∀ s, (((starStates r d).addEpsilon d.states.size (d.states.size + 1)).addEpsilon
      d.states.size (d.states.size + 4)).state s =
      if s = d.states.size then { kind := .starLoopEntry, rule := r
                                  transitions := [.epsilon (d.states.size + 1), .epsilon (d.states.size + 4)] }
      else (starStates r d).state s := fun s => by
    have hlt : d.states.size < (starStates r d).states.size := by
      rw [size_starStates]
      lia
    unfold addEpsilon
    rw [state_addTransition (by rwa [size_addTransition]), state_addTransition hlt,
      state_starStates]
    grind
  have hsize : (((starStates r d).addEpsilon d.states.size (d.states.size + 1)).addEpsilon
      d.states.size (d.states.size + 4)).states.size = d.states.size + 5 := by
    rw [size_addEpsilon, size_addEpsilon, size_starStates]
  rw [starLoop_run]
  dsimp only
  generalize ((starStates r d).addEpsilon _ _).addEpsilon _ _ = d₁ at *
  have hentry := @state_alternatives_entry d₁ parts (d.states.size + 1) (d.states.size + 2) (by lia)
    fun f hm => by
      have := hf f hm
      lia
  have hother : ∀ s, d.states.size ≤ s → s ≠ d.states.size + 1 →
      ((alternatives (d.states.size + 1) (d.states.size + 2) parts).run d₁).2.state s = d₁.state s :=
    fun s hs hne => state_alternatives_other hne fun f hm => by
      have := hf f hm
      lia
  have hsize' := (rewired_alternatives (.refl d₁) (d.states.size + 1) (d.states.size + 2) parts).size
  generalize ((alternatives (d.states.size + 1) (d.states.size + 2) parts).run d₁).2 = d₂ at *
  have hend : ∀ s, ((d₂.addEpsilon (d.states.size + 2) (d.states.size + 3)).addEpsilon
      (d.states.size + 3) d.states.size).state s = _ := fun s => by
    unfold addEpsilon
    rw [state_addTransition (by rw [size_addTransition]; lia), state_addTransition (by lia)]
  refine ⟨?_, ?_, ?_, ?_, ?_⟩ <;> rw [hend]
  · rw [if_neg (by lia), if_neg (by lia), hother _ (by lia) (by lia), hstates, if_pos rfl]
  · rw [if_neg (by lia), if_neg (by lia), hentry, hstates, state_starStates]
    grind
  · rw [if_neg (by lia), if_pos rfl, hother _ (by lia) (by lia), hstates, state_starStates]
    grind
  · rw [if_pos rfl, if_neg (by lia), hother _ (by lia) (by lia), hstates, state_starStates]
    grind
  · rw [if_neg (by lia), if_neg (by lia), hother _ (by lia) (by lia), hstates, state_starStates]
    grind

/-- The exit of a part leads to the end of its round. -/
theorem state_starLoop_exit (hf : ∀ f ∈ parts, f.exit < d.states.size)
    (hnodup : (parts.map Fragment.exit).Nodup) (hmem : f ∈ parts) :
    ((starLoop r parts).run d).2.state f.exit =
      { d.state f.exit with
        transitions := (d.state f.exit).transitions ++ [.epsilon (d.states.size + 2)] } := by
  have hlt := hf f hmem
  rw [starLoop_run]
  dsimp only
  rw [state_addEpsilon_other (by lia), state_addEpsilon_other (by lia),
    state_alternatives_exit (by rw [size_addEpsilon, size_addEpsilon, size_starStates]; lia)
      (fun g hg => ?_) hnodup hmem,
    state_addEpsilon_other (by lia), state_addEpsilon_other (by lia), state_starStates]
  · grind
  · have := hf g hg
    rw [size_addEpsilon, size_addEpsilon, size_starStates]
    lia

theorem open_starLoop (h : s < d.states.size → d.Open s) :
    (((starLoop r parts).run d).2).Open s := by
  intro t ht
  rcases mem_starLoop ht with ⟨hs, ht⟩ | ⟨-, rfl | rfl⟩ | ⟨-, f, -, rfl⟩ | ⟨f, -, -, rfl⟩ |
    ⟨-, rfl⟩ | ⟨-, rfl⟩
  · exact h hs t ht
  all_goals rfl

theorem callsAlone_starLoop (h : d.CallsAlone)
    (hf : ∀ f ∈ parts, f.exit < d.states.size ∧ d.Open f.exit) :
    (((starLoop r parts).run d).2).CallsAlone := by
  have hnew : ∀ s, d.states.size ≤ s → (starStates r d).Open s := by
    intro s hs t ht
    have hnone : (d.state s).transitions = [] := by
      rw [state_of_size_le hs]
      rfl
    rw [state_starStates] at ht
    grind
  rw [starLoop_run]
  refine ((callsAlone_alternatives (((grows_starStates.callsAlone h).addEpsilon ?_).addEpsilon ?_)
    ?_ ?_).addEpsilon ?_).addEpsilon ?_
  · exact hnew _ (Nat.le_refl _)
  · exact (hnew _ (Nat.le_refl _)).addEpsilon
  · exact (hnew _ (by lia)).addEpsilon.addEpsilon
  · intro f hm
    obtain ⟨hlt, ho⟩ := hf f hm
    exact (ho.congr (grows_starStates.old _ hlt)).addEpsilon.addEpsilon
  · exact open_alternatives (hnew _ (by lia)).addEpsilon.addEpsilon
  · exact (open_alternatives (hnew _ (by lia)).addEpsilon.addEpsilon).addEpsilon

namespace Draft

theorem rule_setLeftRecursive (hr : r < d.rules.size) (c : RuleId) :
    ((d.setLeftRecursive r).rule c).toRule =
      if c = r then { (d.rule c).toRule with leftRecursive := true } else (d.rule c).toRule := by
  simp only [setLeftRecursive, rule, Array.getD_eq_getD_getElem?, Array.getElem?_modify]
  by_cases hc : c = r
  · subst hc
    rw [if_pos rfl, if_pos rfl, Array.getElem?_eq_getElem hr]
    rfl
  · rw [if_neg (fun h => hc h.symm), if_neg hc]

theorem count_setLeftRecursive : (d.setLeftRecursive r).rules.size = d.rules.size :=
  Array.size_modify

theorem state_setLeftRecursive : (d.setLeftRecursive r).state s = d.state s := rfl

theorem state_markPrecedenceDecision {loop : StateId} (hl : loop < d.states.size) :
    (d.markPrecedenceDecision loop).state s =
      if s = loop then { d.state s with precedenceDecision := true } else d.state s := by
  simp only [markPrecedenceDecision, state, Array.getD_eq_getD_getElem?, Array.getElem?_modify]
  by_cases hs : s = loop
  · subst hs
    rw [if_pos rfl, if_pos rfl, Array.getElem?_eq_getElem hl]
    rfl
  · rw [if_neg (fun h => hs h.symm), if_neg hs]

theorem kind_markPrecedenceDecision {loop : StateId} (hl : loop < d.states.size) :
    ((d.markPrecedenceDecision loop).state s).kind = (d.state s).kind := by
  rw [state_markPrecedenceDecision hl]
  split <;> rfl

theorem rule_state_markPrecedenceDecision {loop : StateId} (hl : loop < d.states.size) :
    ((d.markPrecedenceDecision loop).state s).rule = (d.state s).rule := by
  rw [state_markPrecedenceDecision hl]
  split <;> rfl

theorem transitions_markPrecedenceDecision {loop : StateId} (hl : loop < d.states.size) :
    ((d.markPrecedenceDecision loop).state s).transitions = (d.state s).transitions := by
  rw [state_markPrecedenceDecision hl]
  split <;> rfl

theorem mark_markPrecedenceDecision {loop : StateId} (hl : loop < d.states.size) :
    ((d.markPrecedenceDecision loop).state s).precedenceDecision =
      if s = loop then true else (d.state s).precedenceDecision := by
  rw [state_markPrecedenceDecision hl]
  split <;> rfl

theorem size_markPrecedenceDecision {loop : StateId} :
    (d.markPrecedenceDecision loop).states.size = d.states.size := Array.size_modify

theorem rule_markPrecedenceDecision (loop : StateId) (c : RuleId) :
    (d.markPrecedenceDecision loop).rule c = d.rule c := rfl

theorem count_markPrecedenceDecision (loop : StateId) :
    (d.markPrecedenceDecision loop).rules.size = d.rules.size := rfl

/-- The zones of a rule whose heads end before state `m` and whose loop is state `e`. -/
def zoneOf (start stop m e : StateId) (guards : List (StateId × Int)) (s : StateId) : Zone :=
  if s = start then .head
  else if s = stop then .ended
  else if s < m then .head
  else if s < e then (if s ∈ guards.map Prod.fst then .guard else .operator)
  else if s = e then .loop
  else if s = e + 1 then .guard
  else if s = e + 4 then .ended
  else .operator

end Draft

/-- A fresh rule with heads and operators, and a loop over the operators. -/
structure Looped (d : Draft) (r : RuleId) (levels : Int → Prop) (head : Fragment) (d₁ : Draft)
    (guards : List (StateId × Int)) (parts : List Fragment) (d₂ : Draft) : Prop where
  fresh : d.Fresh r
  alone : d.CallsAlone
  heads : Adds r d (head, d₁)
  operators : Grows r guards ((d₁.addEpsilon (d.rule r).start head.entry).setLeftRecursive r) d₂
  levels : ∀ g ∈ guards, levels g.2
  parts : ∀ f ∈ parts, Holds d₁ d₂ f ∧ f.entry ∈ guards.map Prod.fst ∧
    f.exit ∉ guards.map Prod.fst

/-- The draft once the loop is joined to the heads and to the stop. -/
def looped (d : Draft) (r : RuleId) (head : Fragment) (parts : List Fragment) (d₂ : Draft) : Draft :=
  let d₃ := ((starLoop r parts).run d₂).2
  ((d₃.markPrecedenceDecision d₂.states.size).addEpsilon head.exit d₂.states.size).addEpsilon
    (d₂.states.size + 4) (d.rule r).stop

namespace Looped

variable {head : Fragment} {guards : List (StateId × Int)} {d₂ : Draft} {levels : Int → Prop}

theorem size_le (h : Looped d r levels head d₁ guards parts d₂) :
    d.states.size ≤ d₁.states.size ∧ d₁.states.size ≤ d₂.states.size := by
  have h1 := h.heads.grows.size
  have h2 := h.operators.size
  have h3 : ((d₁.addEpsilon (d.rule r).start head.entry).setLeftRecursive r).states.size =
      d₁.states.size := size_addEpsilon
  exact ⟨h1, by lia⟩

/-- Before the loop was added, a state is an old one, one of the heads or one of the operators. -/
theorem state_old (h : Looped d r levels head d₁ guards parts d₂) (hs : s < d.states.size)
    (hne : s ≠ (d.rule r).start) : d₂.state s = d.state s := by
  have hle := h.size_le
  have h3 : ((d₁.addEpsilon (d.rule r).start head.entry).setLeftRecursive r).states.size =
      d₁.states.size := size_addEpsilon
  rw [h.operators.old s (by lia), state_setLeftRecursive, ← h.heads.grows.old s hs]
  rcases state_addTransition_or d₁ (d.rule r).start (.epsilon head.entry) s with he | ⟨he, -⟩
  · exact he
  · exact absurd he hne

theorem state_start (h : Looped d r levels head d₁ guards parts d₂) :
    d₂.state (d.rule r).start =
      { kind := .ruleStart, rule := r, transitions := [.epsilon head.entry] } := by
  have hle := h.size_le
  have hlt := h.fresh.start_lt
  have h3 : ((d₁.addEpsilon (d.rule r).start head.entry).setLeftRecursive r).states.size =
      d₁.states.size := size_addEpsilon
  rw [h.operators.old _ (by lia), state_setLeftRecursive, addEpsilon, state_addTransition (by lia),
    if_pos rfl, h.heads.grows.old _ hlt, h.fresh.start_state]
  rfl

theorem inner_head (h : Looped d r levels head d₁ guards parts d₂) (hs : d.states.size ≤ s)
    (hs' : s < d₁.states.size) : d₂.Inner r [] d.states.size d₁.states.size s := by
  have h3 : ((d₁.addEpsilon (d.rule r).start head.entry).setLeftRecursive r).states.size =
      d₁.states.size := size_addEpsilon
  have hlt := h.fresh.start_lt
  refine (h.heads.grows.new s hs hs').congr ?_
  rw [h.operators.old s (by lia), state_setLeftRecursive, addEpsilon, state_addTransition (by lia),
    if_neg (by lia)]

theorem inner_operator (h : Looped d r levels head d₁ guards parts d₂) (hs : d₁.states.size ≤ s)
    (hs' : s < d₂.states.size) : d₂.Inner r guards d₁.states.size d₂.states.size s := by
  have h3 : ((d₁.addEpsilon (d.rule r).start head.entry).setLeftRecursive r).states.size =
      d₁.states.size := size_addEpsilon
  have := h.operators.new s (by lia) hs'
  rwa [h3] at this

theorem lt_size_starLoop (r : RuleId) (parts : List Fragment) (d : Draft) :
    d.states.size < ((starLoop r parts).run d).2.states.size := by
  rw [(rewired_starLoop r parts d).size, size_starStates]
  lia

theorem size_looped : (looped d r head parts d₂).states.size = d₂.states.size + 5 := by
  rw [looped, size_addEpsilon, size_addEpsilon, size_markPrecedenceDecision,
    (rewired_starLoop r parts d₂).size, size_starStates]

theorem kind_looped :
    ((looped d r head parts d₂).state s).kind = ((starStates r d₂).state s).kind := by
  rw [looped, kind_addEpsilon, kind_addEpsilon,
    kind_markPrecedenceDecision (lt_size_starLoop r parts d₂), (rewired_starLoop r parts d₂).kind]

theorem rule_state_looped :
    ((looped d r head parts d₂).state s).rule = ((starStates r d₂).state s).rule := by
  rw [looped, rule_state_addEpsilon, rule_state_addEpsilon,
    rule_state_markPrecedenceDecision (lt_size_starLoop r parts d₂),
    (rewired_starLoop r parts d₂).rule]

theorem mark_looped :
    ((looped d r head parts d₂).state s).precedenceDecision =
      if s = d₂.states.size then true else ((starStates r d₂).state s).precedenceDecision := by
  rw [looped, mark_addEpsilon, mark_addEpsilon,
    mark_markPrecedenceDecision (lt_size_starLoop r parts d₂), (rewired_starLoop r parts d₂).mark]

theorem rule_looped (c : RuleId) :
    ((looped d r head parts d₂).rule c).toRule = (d₂.rule c).toRule := by
  have hr := (rewired_starLoop r parts d₂).rules c
  have hs := (grows_starStates (r := r) (d := d₂)).rules c
  rw [looped, rule_addEpsilon, rule_addEpsilon, rule_markPrecedenceDecision, hr, hs]

/-- What leaves a state of the rule, by where the state lies. -/
inductive Leaves (d : Draft) (r : RuleId) (head : Fragment) (d₁ : Draft)
    (guards : List (StateId × Int)) (d₂ : Draft) (s : StateId) (t : Transition) : Prop
  | start (hs : s = (d.rule r).start) (ht : t = .epsilon head.entry)
  | head (hs : d.states.size ≤ s) (hs' : s < d₁.states.size)
      (ht : t ∈ (d₂.state s).transitions ∨ t = .epsilon d₂.states.size)
  | operator (hs : d₁.states.size ≤ s) (hs' : s < d₂.states.size)
      (ht : t ∈ (d₂.state s).transitions ∨
        s ∉ guards.map Prod.fst ∧ t = .epsilon (d₂.states.size + 2))
  | loop (hs : s = d₂.states.size)
      (ht : t = .epsilon (d₂.states.size + 1) ∨ t = .epsilon (d₂.states.size + 4))
  | choice (hs : s = d₂.states.size + 1) (ht : ∃ g ∈ guards, t = .epsilon g.1)
  | done (hs : s = d₂.states.size + 2) (ht : t = .epsilon (d₂.states.size + 3))
  | back (hs : s = d₂.states.size + 3) (ht : t = .epsilon d₂.states.size)
  | exit (hs : s = d₂.states.size + 4) (ht : t = .epsilon (d.rule r).stop)

theorem leaves_looped (h : Looped d r levels head d₁ guards parts d₂)
    (hs : ((looped d r head parts d₂).state s).rule = r)
    (ht : t ∈ ((looped d r head parts d₂).state s).transitions) :
    Leaves d r head d₁ guards d₂ s t := by
  obtain ⟨hle₁, hle₂⟩ := h.size_le
  rw [rule_state_looped] at hs
  rw [looped] at ht
  rcases mem_addEpsilon ht with ht | ⟨hs', ht⟩
  · rcases mem_addEpsilon ht with ht | ⟨hs', ht⟩
    · rw [transitions_markPrecedenceDecision (lt_size_starLoop r parts d₂)] at ht
      rcases mem_starLoop ht with ⟨hlt, hm⟩ | ⟨hs', hm⟩ | ⟨hs', f, hf, hm⟩ | ⟨f, hf, hs', hm⟩ |
        ⟨hs', hm⟩ | ⟨hs', hm⟩
      · rw [grows_starStates.old s hlt] at hs
        by_cases hnew : d.states.size ≤ s
        · by_cases hhead : s < d₁.states.size
          · exact .head hnew hhead (.inl hm)
          · exact .operator (by lia) hlt (.inl hm)
        · by_cases hstart : s = (d.rule r).start
          · rw [hstart, h.state_start] at hm
            exact .start hstart (List.mem_singleton.1 hm)
          · rw [h.state_old (by lia) hstart] at hs hm
            rcases h.fresh.only s (by lia) hs with h' | h'
            · exact absurd h' hstart
            · rw [h', h.fresh.stop_state] at hm
              cases hm
      · exact .loop hs' hm
      · obtain ⟨g, hg, hgf⟩ := List.mem_map.1 (h.parts f hf).2.1
        exact .choice hs' ⟨g, hg, by rw [hgf, hm]⟩
      · obtain ⟨hh, -, hx⟩ := h.parts f hf
        rw [hs']
        exact .operator hh.exit_ge hh.exit_lt (.inr ⟨hx, hm⟩)
      · exact .done hs' hm
      · exact .back hs' hm
    · rw [hs']
      exact .head h.heads.holds.exit_ge h.heads.holds.exit_lt (.inr ht)
  · exact .exit hs' ht

/-- A state of the rule is its start, its stop, or one that was added. -/
theorem state_cases (h : Looped d r levels head d₁ guards parts d₂)
    (hs : ((looped d r head parts d₂).state s).rule = r) :
    s = (d.rule r).start ∨ s = (d.rule r).stop ∨ (d.states.size ≤ s ∧ s < d₂.states.size + 5) ∨
      (looped d r head parts d₂).state s = default := by
  obtain ⟨hle₁, hle₂⟩ := h.size_le
  by_cases hold : s < d.states.size
  · by_cases hstart : s = (d.rule r).start
    · exact .inl hstart
    · rw [rule_state_looped, grows_starStates.old s (by lia), h.state_old hold hstart] at hs
      rcases h.fresh.only s hold hs with h' | h'
      · exact absurd h' hstart
      · exact .inr (.inl h')
  · by_cases hnew : s < d₂.states.size + 5
    · exact .inr (.inr (.inl ⟨by lia, hnew⟩))
    · right; right; right
      refine state_of_size_le ?_
      rw [size_looped]
      lia

theorem state_start_looped (h : Looped d r levels head d₁ guards parts d₂) :
    ((looped d r head parts d₂).state (d.rule r).start).rule = r ∧
      ((looped d r head parts d₂).state (d.rule r).start).kind = .ruleStart ∧
      ((looped d r head parts d₂).state (d.rule r).start).precedenceDecision = false := by
  obtain ⟨hle₁, hle₂⟩ := h.size_le
  have hlt := h.fresh.start_lt
  rw [rule_state_looped, kind_looped, mark_looped, grows_starStates.old _ (by lia), h.state_start,
    if_neg (by lia)]
  exact ⟨rfl, rfl, rfl⟩

theorem state_stop_looped (h : Looped d r levels head d₁ guards parts d₂) :
    ((looped d r head parts d₂).state (d.rule r).stop).rule = r ∧
      ((looped d r head parts d₂).state (d.rule r).stop).kind = .ruleStop ∧
      ((looped d r head parts d₂).state (d.rule r).stop).precedenceDecision = false := by
  obtain ⟨hle₁, hle₂⟩ := h.size_le
  have hlt := h.fresh.stop_lt
  rw [rule_state_looped, kind_looped, mark_looped, grows_starStates.old _ (by lia),
    h.state_old hlt h.fresh.start_ne_stop.symm, h.fresh.stop_state, if_neg (by lia)]
  exact ⟨rfl, rfl, rfl⟩

/-- An added state belongs to the rule, is no stop, and only the loop is marked. -/
theorem state_added_looped (h : Looped d r levels head d₁ guards parts d₂)
    (hs : d.states.size ≤ s) (hs' : s < d₂.states.size + 5) :
    ((looped d r head parts d₂).state s).rule = r ∧
      ((looped d r head parts d₂).state s).kind ≠ .ruleStop ∧
      (((looped d r head parts d₂).state s).precedenceDecision = true → s = d₂.states.size) := by
  obtain ⟨hle₁, hle₂⟩ := h.size_le
  rw [rule_state_looped, kind_looped, mark_looped]
  by_cases hloop : d₂.states.size ≤ s
  · rw [state_starStates]
    grind
  · rw [grows_starStates.old s (by lia), if_neg (by lia)]
    by_cases hhead : s < d₁.states.size
    · have hi := h.inner_head hs hhead
      exact ⟨hi.rule, hi.not_stop, fun hm => by rw [hi.not_loop] at hm; cases hm⟩
    · have hi := h.inner_operator (s := s) (by lia) (by lia)
      exact ⟨hi.rule, hi.not_stop, fun hm => by rw [hi.not_loop] at hm; cases hm⟩

theorem guards_between (h : Looped d r levels head d₁ guards parts d₂) (g : StateId × Int)
    (hg : g ∈ guards) : d₁.states.size ≤ g.1 ∧ g.1 < d₂.states.size := by
  have := h.operators.guards_new g hg
  have h3 : ((d₁.addEpsilon (d.rule r).start head.entry).setLeftRecursive r).states.size =
    d₁.states.size := size_addEpsilon
  lia

/-- The zones of the rule. -/
def zone (d : Draft) (r : RuleId) (d₁ : Draft) (guards : List (StateId × Int)) (d₂ : Draft) :
    StateId → Zone :=
  zoneOf (d.rule r).start (d.rule r).stop d₁.states.size d₂.states.size guards

theorem zone_head (h : Looped d r levels head d₁ guards parts d₂) (hs : d.states.size ≤ s)
    (hs' : s < d₁.states.size) : zone d r d₁ guards d₂ s = .head := by
  have hstart := h.fresh.start_lt
  have hstop := h.fresh.stop_lt
  unfold zone zoneOf
  grind

theorem zone_operator (h : Looped d r levels head d₁ guards parts d₂) (hs : d₁.states.size ≤ s)
    (hs' : s < d₂.states.size) :
    zone d r d₁ guards d₂ s = if s ∈ guards.map Prod.fst then .guard else .operator := by
  obtain ⟨hle₁, hle₂⟩ := h.size_le
  have hstart := h.fresh.start_lt
  have hstop := h.fresh.stop_lt
  unfold zone zoneOf
  rw [if_neg (by lia), if_neg (by lia), if_neg (by lia), if_pos hs']

theorem zone_ends (h : Looped d r levels head d₁ guards parts d₂) :
    zone d r d₁ guards d₂ (d.rule r).start = .head ∧
      zone d r d₁ guards d₂ (d.rule r).stop = .ended := by
  have hne := h.fresh.start_ne_stop
  unfold zone zoneOf
  grind

theorem zone_loop (h : Looped d r levels head d₁ guards parts d₂) :
    zone d r d₁ guards d₂ d₂.states.size = .loop ∧
      zone d r d₁ guards d₂ (d₂.states.size + 1) = .guard ∧
      zone d r d₁ guards d₂ (d₂.states.size + 2) = .operator ∧
      zone d r d₁ guards d₂ (d₂.states.size + 3) = .operator ∧
      zone d r d₁ guards d₂ (d₂.states.size + 4) = .ended := by
  obtain ⟨hle₁, hle₂⟩ := h.size_le
  have hstart := h.fresh.start_lt
  have hstop := h.fresh.stop_lt
  unfold zone zoneOf
  refine ⟨?_, ?_, ?_, ?_, ?_⟩ <;> grind

theorem ends_looped (h : Looped d r levels head d₁ guards parts d₂) (c : RuleId) :
    ((looped d r head parts d₂).rule c).start = (d.rule c).start ∧
      ((looped d r head parts d₂).rule c).stop = (d.rule c).stop ∧
      ((looped d r head parts d₂).rule c).leftRecursive =
        if c = r then true else (d.rule c).leftRecursive := by
  have h₁ : ((looped d r head parts d₂).rule c).toRule = (d₂.rule c).toRule := rule_looped c
  have h₂ := h.operators.rules c
  have hcount : (d₁.addEpsilon (d.rule r).start head.entry).rules.size = d.rules.size := by
    rw [count_addEpsilon, h.heads.grows.count]
  rw [rule_setLeftRecursive (by rw [hcount]; exact h.fresh.lt), rule_addEpsilon,
    h.heads.grows.rules] at h₂
  rw [h₂] at h₁
  have hstart := congrArg Rule.start h₁
  have hstop := congrArg Rule.stop h₁
  have hleft := congrArg Rule.leftRecursive h₁
  by_cases hc : c = r
  · rw [if_pos hc] at hstart hstop hleft ⊢
    exact ⟨hstart, hstop, hleft⟩
  · rw [if_neg hc] at hstart hstop hleft ⊢
    exact ⟨hstart, hstop, hleft⟩

/-- Away from its exits the loop leaves the edges that were there. -/
theorem transitions_looped (h : Looped d r levels head d₁ guards parts d₂)
    (hs : d₁.states.size ≤ s) (hne : s ≠ d₂.states.size + 4) :
    ((looped d r head parts d₂).state s).transitions =
      (((starLoop r parts).run d₂).2.state s).transitions := by
  have hexit := h.heads.holds.exit_lt
  dsimp only at hexit
  rw [looped, state_addEpsilon_other hne, state_addEpsilon_other (by lia),
    transitions_markPrecedenceDecision (lt_size_starLoop r parts d₂)]

/-- What the entry of the loop decides between. -/
theorem transitions_loop (h : Looped d r levels head d₁ guards parts d₂) :
    ((looped d r head parts d₂).state d₂.states.size).transitions =
      [.epsilon (d₂.states.size + 1), .epsilon (d₂.states.size + 4)] := by
  rw [h.transitions_looped h.size_le.2 (by lia),
    transitions_starLoop fun f hf => (h.parts f hf).1.exit_lt]

/-- The zones have the shape of a loop. -/
theorem loopShape (h : Looped d r levels head d₁ guards parts d₂) :
    LoopShape (looped d r head parts d₂).state r ((looped d r head parts d₂).rule r).toRule levels
      d₂.states.size (zone d r d₁ guards d₂) := by
  obtain ⟨hle₁, hle₂⟩ := h.size_le
  obtain ⟨hz₀, hz₁, hz₂, hz₃, hz₄⟩ := h.zone_loop
  obtain ⟨hzstart, hzstop⟩ := h.zone_ends
  obtain ⟨hstart, hstop, -⟩ := h.ends_looped r
  refine ⟨?_, ?_, ?_, hz₀, ?_, ?_, ?_, ?_, ?_, ?_, ?_, ?_⟩
  · exact (h.state_added_looped (by lia) (by lia)).1
  · rw [mark_looped, if_pos rfl]
  · intro s hs hm
    rcases h.state_cases hs with rfl | rfl | hs | hd
    · rw [h.state_start_looped.2.2] at hm
      cases hm
    · rw [h.state_stop_looped.2.2] at hm
      cases hm
    · exact (h.state_added_looped hs.1 hs.2).2.2 hm
    · rw [hd] at hm
      cases hm
  · rw [hstart]
    exact hzstart
  · rw [hstop]
    exact hzstop
  · intro s hs hz t ht
    rcases h.leaves_looped hs ht with ⟨rfl, rfl⟩ | ⟨hl, hl', ht⟩ | ⟨hl, hl', ht⟩ | ⟨rfl, ht⟩ |
      ⟨rfl, ht⟩ | ⟨rfl, ht⟩ | ⟨rfl, ht⟩ | ⟨rfl, ht⟩
    · exact ⟨rfl, .inl (h.zone_head h.heads.holds.entry_ge h.heads.holds.entry_lt)⟩
    · rcases ht with ht | rfl
      · have hi := h.inner_head hl hl'
        have hb := hi.bounds t ht
        refine ⟨?_, .inl (h.zone_head hb.1 hb.2)⟩
        cases hk : t.kind with
        | precedence level => exact absurd (hi.levels t ht level hk) (by simp)
        | _ => rfl
      · exact ⟨rfl, .inr rfl⟩
    · rw [h.zone_operator hl hl'] at hz
      split at hz <;> cases hz
    · rw [hz₀] at hz
      cases hz
    · rw [hz₁] at hz
      cases hz
    · rw [hz₂] at hz
      cases hz
    · rw [hz₃] at hz
      cases hz
    · rw [hz₄] at hz
      cases hz
  · intro t ht
    have hs := (h.state_added_looped (s := d₂.states.size) (by lia) (by lia)).1
    have hkind : ∀ i, i < 5 → i ≠ 4 →
        ((looped d r head parts d₂).state (d₂.states.size + i)).kind ≠ .loopEnd := by
      intro i hi hne
      rw [kind_looped, state_starStates]
      grind
    have hexit : ((looped d r head parts d₂).state (d₂.states.size + 4)).kind = .loopEnd := by
      rw [kind_looped, state_starStates]
      grind
    rcases h.leaves_looped hs ht with ⟨he, rfl⟩ | ⟨hl, hl', ht⟩ | ⟨hl, hl', ht⟩ | ⟨he, ht⟩ |
      ⟨he, ht⟩ | ⟨he, ht⟩ | ⟨he, ht⟩ | ⟨he, ht⟩
    · have := h.fresh.start_lt
      lia
    · lia
    · lia
    · rcases ht with rfl | rfl
      · refine ⟨rfl, ?_⟩
        rw [target_epsilon, if_neg (hkind 1 (by decide) (by decide))]
        exact hz₁
      · refine ⟨rfl, ?_⟩
        rw [target_epsilon, if_pos hexit]
        exact hz₄
    all_goals lia
  · intro s hs hz t ht
    rcases h.leaves_looped hs ht with ⟨rfl, rfl⟩ | ⟨hl, hl', ht⟩ | ⟨hl, hl', ht⟩ | ⟨rfl, ht⟩ |
      ⟨rfl, g, hg, rfl⟩ | ⟨rfl, ht⟩ | ⟨rfl, ht⟩ | ⟨rfl, ht⟩
    · rw [hzstart] at hz
      cases hz
    · rw [h.zone_head hl hl'] at hz
      cases hz
    · have hg : s ∈ guards.map Prod.fst := by
        rw [h.zone_operator hl hl'] at hz
        by_contra hg
        rw [if_neg hg] at hz
        cases hz
      have hi := h.inner_operator hl hl'
      rcases ht with ht | ⟨hne, -⟩
      · left
        have hp := hi.guarded t ht hg
        cases hk : t.kind with
        | precedence level =>
          have hnext : t.next = t.target := by simp [Transition.next, hk]
          have hb := hi.bounds t ht
          have hu := hi.unguarded t ht
          rw [hnext] at hb hu
          refine ⟨level, rfl, h.levels _ (hi.levels t ht level hk), ?_⟩
          rw [h.zone_operator hb.1 hb.2, if_neg hu]
        | _ =>
          rw [hk] at hp
          cases hp
      · exact absurd hg hne
    · rw [hz₀] at hz
      cases hz
    · right
      obtain ⟨hg₁, hg₂⟩ := h.guards_between g hg
      refine ⟨rfl, ?_⟩
      rw [target_epsilon, h.zone_operator hg₁ hg₂, if_pos (List.mem_map_of_mem hg)]
    · rw [hz₂] at hz
      cases hz
    · rw [hz₃] at hz
      cases hz
    · rw [hz₄] at hz
      cases hz
  · intro s hs hz t ht
    rcases h.leaves_looped hs ht with ⟨rfl, rfl⟩ | ⟨hl, hl', ht⟩ | ⟨hl, hl', ht⟩ | ⟨rfl, ht⟩ |
      ⟨rfl, ht⟩ | ⟨rfl, rfl⟩ | ⟨rfl, rfl⟩ | ⟨rfl, ht⟩
    · rw [hzstart] at hz
      cases hz
    · rw [h.zone_head hl hl'] at hz
      cases hz
    · have hg : s ∉ guards.map Prod.fst := by
        intro hg
        rw [h.zone_operator hl hl', if_pos hg] at hz
        cases hz
      have hi := h.inner_operator hl hl'
      rcases ht with ht | ⟨-, rfl⟩
      · have hb := hi.bounds t ht
        refine ⟨?_, .inl ?_⟩
        · cases hk : t.kind with
          | precedence level =>
            exact absurd (List.mem_map_of_mem (f := Prod.fst) (hi.levels t ht level hk)) hg
          | _ => rfl
        · rw [h.zone_operator hb.1 hb.2, if_neg (hi.unguarded t ht)]
      · exact ⟨rfl, .inl hz₂⟩
    · rw [hz₀] at hz
      cases hz
    · rw [hz₁] at hz
      cases hz
    · exact ⟨rfl, .inl hz₃⟩
    · exact ⟨rfl, .inr rfl⟩
    · rw [hz₄] at hz
      cases hz
  · intro s hs hz t ht
    rcases h.leaves_looped hs ht with ⟨rfl, rfl⟩ | ⟨hl, hl', ht⟩ | ⟨hl, hl', ht⟩ | ⟨rfl, ht⟩ |
      ⟨rfl, ht⟩ | ⟨rfl, ht⟩ | ⟨rfl, ht⟩ | ⟨rfl, rfl⟩
    · rw [hzstart] at hz
      cases hz
    · rw [h.zone_head hl hl'] at hz
      cases hz
    · rw [h.zone_operator hl hl'] at hz
      split at hz <;> cases hz
    · rw [hz₀] at hz
      cases hz
    · rw [hz₁] at hz
      cases hz
    · rw [hz₂] at hz
      cases hz
    · rw [hz₃] at hz
      cases hz
    · exact ⟨rfl, hzstop⟩
  · refine ⟨d₂.states.size + 1, d₂.states.size + 4, h.transitions_loop, ?_, ?_⟩
    · rw [kind_looped, state_starStates]
      grind
    · rw [kind_looped, state_starStates]
      grind

/-- The whole shape of the rule. -/
theorem ruleShape (h : Looped d r levels head d₁ guards parts d₂) :
    (looped d r head parts d₂).RuleShape r levels := by
  obtain ⟨hle₁, hle₂⟩ := h.size_le
  obtain ⟨hstart, hstop, hleft⟩ := h.ends_looped r
  rw [if_pos rfl] at hleft
  have hlt₁ := h.fresh.start_lt
  have hlt₂ := h.fresh.stop_lt
  have hsize : (looped d r head parts d₂).states.size = d₂.states.size + 5 := size_looped
  have hadd : ∀ s, d.states.size ≤ s → s < d₂.states.size + 5 →
      s < (looped d r head parts d₂).states.size ∧
        ((looped d r head parts d₂).state s).rule = r := fun s hs hs' =>
    ⟨by lia, (h.state_added_looped hs hs').1⟩
  refine ⟨by lia, by lia, ?_, ?_, ?_, ?_, ?_, ?_, ?_⟩
  · rw [hstart]
    exact h.state_start_looped.1
  · rw [hstop]
    exact h.state_stop_looped.1
  · rw [hstop]
    exact h.state_stop_looped.2.1
  · intro s hs hk
    rcases h.state_cases hs with rfl | rfl | hs | hd
    · rw [h.state_start_looped.2.1] at hk
      cases hk
    · exact hstop.symm
    · exact absurd hk (h.state_added_looped hs.1 hs.2).2.1
    · rw [hd] at hk
      cases hk
  · intro s hs t ht
    rcases h.leaves_looped hs ht with ⟨-, rfl⟩ | ⟨hl, hl', ht⟩ | ⟨hl, hl', ht⟩ | ⟨-, ht⟩ |
      ⟨-, g, hg, rfl⟩ | ⟨-, rfl⟩ | ⟨-, rfl⟩ | ⟨-, rfl⟩
    · have := h.heads.holds.entry_lt
      exact hadd head.entry h.heads.holds.entry_ge (by simp only at this; lia)
    · rcases ht with ht | rfl
      · have := (h.inner_head hl hl').bounds t ht
        exact hadd _ this.1 (by lia)
      · exact hadd d₂.states.size (by lia) (by lia)
    · rcases ht with ht | ⟨-, rfl⟩
      · have := (h.inner_operator hl hl').bounds t ht
        exact hadd _ (by lia) (by lia)
      · exact hadd (d₂.states.size + 2) (by lia) (by lia)
    · rcases ht with rfl | rfl
      · exact hadd (d₂.states.size + 1) (by lia) (by lia)
      · exact hadd (d₂.states.size + 4) (by lia) (by lia)
    · have := h.guards_between g hg
      exact hadd g.1 (by lia) (by lia)
    · exact hadd (d₂.states.size + 3) (by lia) (by lia)
    · exact hadd d₂.states.size (by lia) (by lia)
    · refine ⟨?_, h.state_stop_looped.1⟩
      simp only [Transition.epsilon, Transition.next]
      lia
  · intro hf
    rw [hleft] at hf
    cases hf
  · exact fun _ => ⟨_, _, h.loopShape⟩

theorem untouched (h : Looped d r levels head d₁ guards parts d₂) :
    Untouched r d (looped d r head parts d₂) := by
  obtain ⟨hle₁, hle₂⟩ := h.size_le
  have hsize : (looped d r head parts d₂).states.size = d₂.states.size + 5 := size_looped
  have hends := h.ends_looped
  refine ⟨by lia, ?_, fun c => ⟨(hends c).1, (hends c).2.1⟩, ?_, ?_, ?_, ?_⟩
  · rw [looped, count_addEpsilon, count_addEpsilon, count_markPrecedenceDecision,
      (rewired_starLoop r parts d₂).count, grows_starStates.count, h.operators.count,
      count_setLeftRecursive]
    exact count_addEpsilon.trans h.heads.grows.count
  · intro c hc
    rw [(hends c).2.2, if_neg hc]
  · intro s hs hne
    have hstart : s ≠ (d.rule r).start := by
      rintro rfl
      exact hne (by rw [h.fresh.start_state])
    have hexit := h.heads.holds.exit_ge
    rw [looped, state_addEpsilon_other (by lia), state_addEpsilon_other (by simp only at hexit; lia),
      state_markPrecedenceDecision (lt_size_starLoop r parts d₂), if_neg (by lia),
      state_starLoop_other (by lia), h.state_old hs hstart]
    intro f hf
    have := (h.parts f hf).1.exit_ge
    lia
  · exact fun s hs hs' => (h.state_added_looped hs (by lia)).1
  · intro s hs hr
    rcases h.fresh.only s hs hr with rfl | rfl
    · exact h.state_start_looped.1
    · exact h.state_stop_looped.1

theorem callsAlone (h : Looped d r levels head d₁ guards parts d₂) :
    (looped d r head parts d₂).CallsAlone := by
  have hstart : d₁.Open (d.rule r).start := by
    intro t ht
    rw [h.heads.grows.old _ h.fresh.start_lt, h.fresh.start_state] at ht
    cases ht
  have hexit : d₂.Open head.exit := by
    have hsize : ((d₁.addEpsilon (d.rule r).start head.entry).setLeftRecursive r).states.size =
        d₁.states.size := size_addEpsilon
    have ho : ((d₁.addEpsilon (d.rule r).start head.entry).setLeftRecursive r).Open head.exit :=
      h.heads.holds.exit_open.addEpsilon
    refine ho.congr (h.operators.old _ ?_)
    rw [hsize]
    exact h.heads.holds.exit_lt
  have halone : ((d₁.addEpsilon (d.rule r).start head.entry).setLeftRecursive r).CallsAlone :=
    (h.heads.grows.callsAlone h.alone).addEpsilon hstart
  have hloop := callsAlone_starLoop (r := r) (h.operators.callsAlone halone)
    fun f hf => ⟨(h.parts f hf).1.exit_lt, (h.parts f hf).1.exit_open⟩
  have hmark : ∀ s, (((starLoop r parts).run d₂).2.markPrecedenceDecision d₂.states.size |>.state
      s).transitions = (((starLoop r parts).run d₂).2.state s).transitions := fun s =>
    transitions_markPrecedenceDecision (lt_size_starLoop r parts d₂)
  have hopen : ∀ s, (s < d₂.states.size → d₂.Open s) →
      (((starLoop r parts).run d₂).2.markPrecedenceDecision d₂.states.size).Open s := by
    intro s hs t ht
    rw [hmark] at ht
    exact open_starLoop hs t ht
  rw [looped]
  refine (CallsAlone.addEpsilon ?_ ?_).addEpsilon ?_
  · intro s t ht hc
    rw [hmark] at ht ⊢
    exact hloop s t ht hc
  · exact hopen _ fun _ => hexit
  · exact (hopen _ fun hs => by lia).addEpsilon

end Looped

end AdaptiveParsing
