import AdaptiveParsing.Proofs.Network.Operators
/-!
The shape of a rule in a draft. What leaves a state of a rule stays in the rule, its stop is its
only stop state (`RuleShape`), and a call is the only edge of its state. The states of a
left-recursive rule lie in zones around its loop (`LoopShape`), so that between two visits of
the loop exactly one level is passed. Main statement: a fragment between the start and the stop of a
rule gives the rule the shape of a plain one (`Draft.Fresh.shape_plain`).
-/

namespace AdaptiveParsing

theorem target_epsilon (s : StateId) : (Transition.epsilon s).target = s := rfl

/-- Where a state of a left-recursive rule lies. -/
inductive Zone where
  /-- Before the loop: in the alternatives that start without an operand. -/
  | head
  /-- The decision between another round and the end. -/
  | loop
  /-- In a round, and its level is still to be passed. -/
  | guard
  /-- In a round, past its level. -/
  | operator
  /-- After the loop. -/
  | ended
deriving DecidableEq

section

variable (state : StateId → NetworkState) (r : RuleId) (rule : Rule) (levels : Int → Prop)

/-- The zones of the left-recursive rule `r` around its loop. -/
structure LoopShape (loop : StateId) (zone : StateId → Zone) : Prop where
  loop_rule : (state loop).rule = r
  loop_marked : (state loop).precedenceDecision = true
  loop_only : ∀ s, (state s).rule = r → (state s).precedenceDecision = true → s = loop
  zone_loop : zone loop = .loop
  zone_start : zone rule.start = .head
  zone_stop : zone rule.stop = .ended
  head : ∀ s, (state s).rule = r → zone s = .head → ∀ t ∈ (state s).transitions,
    t.kind.isPrecedence = false ∧ (zone t.next = .head ∨ t.next = loop)
  rounds : ∀ t ∈ (state loop).transitions, t.kind = .epsilon ∧
    if (state t.target).kind = .loopEnd then zone t.target = .ended else zone t.target = .guard
  guard : ∀ s, (state s).rule = r → zone s = .guard → ∀ t ∈ (state s).transitions,
    (∃ level, t.kind = .precedence level ∧ levels level ∧ zone t.target = .operator) ∨
      t.kind = .epsilon ∧ zone t.target = .guard
  operator : ∀ s, (state s).rule = r → zone s = .operator → ∀ t ∈ (state s).transitions,
    t.kind.isPrecedence = false ∧ (zone t.next = .operator ∨ t.next = loop)
  ended : ∀ s, (state s).rule = r → zone s = .ended → ∀ t ∈ (state s).transitions,
    t.kind = .epsilon ∧ zone t.target = .ended
  /-- Another round comes first. -/
  choices : ∃ round exit, (state loop).transitions = [.epsilon round, .epsilon exit] ∧
    (state round).kind ≠ .loopEnd ∧ (state exit).kind = .loopEnd

/-- No level and no loop of operators occurs in rule `r`. -/
structure PlainShape : Prop where
  unmarked : ∀ s, (state s).rule = r → (state s).precedenceDecision = false
  no_levels : ∀ s, (state s).rule = r → ∀ t ∈ (state s).transitions, t.kind.isPrecedence = false

/-- The shape of rule `r` among `size` states. Its operators have these levels if it is
left-recursive. -/
structure RuleShape (size : Nat) : Prop where
  start_lt : rule.start < size
  stop_lt : rule.stop < size
  start_rule : (state rule.start).rule = r
  stop_rule : (state rule.stop).rule = r
  stop_kind : (state rule.stop).kind = .ruleStop
  stop_only : ∀ s, (state s).rule = r → (state s).kind = .ruleStop → s = rule.stop
  next : ∀ s, (state s).rule = r → ∀ t ∈ (state s).transitions,
    t.next < size ∧ (state t.next).rule = r
  plain : rule.leftRecursive = false → PlainShape state r
  recursive : rule.leftRecursive = true → ∃ loop zone, LoopShape state r rule levels loop zone

end

namespace Draft

/-- Rule `r` of the draft has the shape of a rule. -/
abbrev RuleShape (d : Draft) (r : RuleId) (levels : Int → Prop) : Prop :=
  AdaptiveParsing.RuleShape d.state r (d.rule r).toRule levels d.states.size

/-- Nothing but its start and its stop belongs to the rule, and nothing leaves them. -/
structure Fresh (d : Draft) (r : RuleId) : Prop where
  lt : r < d.rules.size
  start_lt : (d.rule r).start < d.states.size
  stop_lt : (d.rule r).stop < d.states.size
  start_state : d.state (d.rule r).start = { kind := .ruleStart, rule := r }
  stop_state : d.state (d.rule r).stop = { kind := .ruleStop, rule := r }
  only : ∀ s, s < d.states.size → (d.state s).rule = r →
    s = (d.rule r).start ∨ s = (d.rule r).stop
  plain : (d.rule r).leftRecursive = false

/-- The draft `d'` differs from `d` in rule `r` only. -/
structure Untouched (r : RuleId) (d d' : Draft) : Prop where
  size : d.states.size ≤ d'.states.size
  count : d'.rules.size = d.rules.size
  ends : ∀ c, (d'.rule c).start = (d.rule c).start ∧ (d'.rule c).stop = (d.rule c).stop
  kind : ∀ c, c ≠ r → (d'.rule c).leftRecursive = (d.rule c).leftRecursive
  old : ∀ s, s < d.states.size → (d.state s).rule ≠ r → d'.state s = d.state s
  new : ∀ s, d.states.size ≤ s → s < d'.states.size → (d'.state s).rule = r
  own : ∀ s, s < d.states.size → (d.state s).rule = r → (d'.state s).rule = r

variable {d d' : Draft} {r c : RuleId} {levels : Int → Prop} {s a b : StateId} {t : Transition}

theorem state_of_size_le (h : d.states.size ≤ s) : d.state s = default := by
  simp [state, Array.getD_eq_getD_getElem?, Array.getElem?_eq_none h]

/-- States of another rule are the same before and after. -/
theorem Untouched.state_eq (h : Untouched r d d') (hc : c ≠ r) (hs : (d'.state s).rule = c) :
    d'.state s = d.state s := by
  by_cases hlt : s < d.states.size
  · refine h.old s hlt fun hr => hc ?_
    rw [← hs, h.own s hlt hr]
  · by_cases hlt' : s < d'.states.size
    · exact absurd (hs.symm.trans (h.new s (by lia) hlt')) hc
    · rw [state_of_size_le (by lia), state_of_size_le (by lia)]

theorem RuleShape.untouched (h : d.RuleShape c levels) (hu : Untouched r d d') (hc : c ≠ r) :
    d'.RuleShape c levels := by
  have hst : ∀ s, (d'.state s).rule = c → d'.state s = d.state s := fun s => hu.state_eq hc
  have hrule : ∀ s, (d'.state s).rule = c → (d.state s).rule = c := fun s hs => by
    rwa [← hst s hs]
  have hback : ∀ s, s < d.states.size → (d.state s).rule = c → d'.state s = d.state s :=
    fun s hs hr => hu.old s hs (by rw [hr]; exact hc)
  obtain ⟨he1, he2⟩ := hu.ends c
  have hsize := hu.size
  refine ⟨?_, ?_, ?_, ?_, ?_, ?_, ?_, ?_, ?_⟩
  · rw [he1]
    exact Nat.lt_of_lt_of_le h.start_lt hsize
  · rw [he2]
    exact Nat.lt_of_lt_of_le h.stop_lt hsize
  · rw [he1, hback _ h.start_lt h.start_rule, h.start_rule]
  · rw [he2, hback _ h.stop_lt h.stop_rule, h.stop_rule]
  · rw [he2, hback _ h.stop_lt h.stop_rule, h.stop_kind]
  · intro s hs hk
    rw [he2]
    exact h.stop_only s (hrule s hs) (by rwa [← hst s hs])
  · intro s hs t ht
    rw [hst s hs] at ht
    obtain ⟨h1, h2⟩ := h.next s (hrule s hs) t ht
    refine ⟨Nat.lt_of_lt_of_le h1 hsize, ?_⟩
    rw [hback _ h1 h2, h2]
  · intro hl
    rw [hu.kind c hc] at hl
    obtain ⟨hp1, hp2⟩ := h.plain hl
    refine ⟨?_, ?_⟩
    · intro s hs
      rw [hst s hs]
      exact hp1 s (hrule s hs)
    · intro s hs
      rw [hst s hs]
      exact hp2 s (hrule s hs)
  · intro hl
    rw [hu.kind c hc] at hl
    obtain ⟨loop, zone, hz⟩ := h.recursive hl
    have hloop : loop < d.states.size := by
      by_contra hlt
      have := hz.loop_marked
      rw [state_of_size_le (by lia)] at this
      cases this
    have hloop' := hback loop hloop hz.loop_rule
    refine ⟨loop, zone, ?_, ?_, ?_, hz.zone_loop, ?_, ?_, ?_, ?_, ?_, ?_, ?_, ?_⟩
    · rw [hloop', hz.loop_rule]
    · rw [hloop', hz.loop_marked]
    · intro s hs
      rw [hst s hs]
      exact hz.loop_only s (hrule s hs)
    · rw [he1, hz.zone_start]
    · rw [he2, hz.zone_stop]
    · intro s hs
      rw [hst s hs]
      exact hz.head s (hrule s hs)
    · intro t ht
      rw [hloop'] at ht
      obtain ⟨hk, hif⟩ := hz.rounds t ht
      obtain ⟨hn, hn'⟩ := h.next loop hz.loop_rule t ht
      have hnext : t.next = t.target := by simp [Transition.next, hk]
      rw [hnext] at hn hn'
      rw [hback _ hn hn']
      exact ⟨hk, hif⟩
    · intro s hs
      rw [hst s hs]
      exact hz.guard s (hrule s hs)
    · intro s hs
      rw [hst s hs]
      exact hz.operator s (hrule s hs)
    · intro s hs
      rw [hst s hs]
      exact hz.ended s (hrule s hs)
    · obtain ⟨round, exit, hedges, hround, hexit⟩ := hz.choices
      refine ⟨round, exit, ?_, ?_, ?_⟩
      · rw [hloop', hedges]
      · obtain ⟨hn, hn'⟩ := h.next loop hz.loop_rule (.epsilon round) (by simp [hedges])
        rw [hback round hn hn']
        exact hround
      · obtain ⟨hn, hn'⟩ := h.next loop hz.loop_rule (.epsilon exit) (by simp [hedges])
        rw [hback exit hn hn']
        exact hexit

theorem Fresh.untouched (h : d.Fresh c) (hu : Untouched r d d') (hc : c ≠ r) : d'.Fresh c := by
  obtain ⟨he1, he2⟩ := hu.ends c
  have hsize := hu.size
  have hback : ∀ s, s < d.states.size → (d.state s).rule = c → d'.state s = d.state s :=
    fun s hs hr => hu.old s hs (by rw [hr]; exact hc)
  refine ⟨by rw [hu.count]; exact h.lt, ?_, ?_, ?_, ?_, ?_, ?_⟩
  · rw [he1]
    exact Nat.lt_of_lt_of_le h.start_lt hsize
  · rw [he2]
    exact Nat.lt_of_lt_of_le h.stop_lt hsize
  · rw [he1, hback _ h.start_lt (by rw [h.start_state]), h.start_state]
  · rw [he2, hback _ h.stop_lt (by rw [h.stop_state]), h.stop_state]
  · intro s hs hr
    rw [he1, he2]
    by_cases hlt : s < d.states.size
    · exact h.only s hlt (by rw [← hu.state_eq hc hr, hr])
    · exact absurd (hr.symm.trans (hu.new s (by lia) hs)) hc
  · rw [hu.kind c hc, h.plain]

/-- A state after an edge was added: only the edges of its source differ. -/
theorem state_addTransition_or (d : Draft) (a : StateId) (t : Transition) (s : StateId) :
    (d.addTransition a t).state s = d.state s ∨
      s = a ∧ (d.addTransition a t).state s =
        { d.state s with transitions := (d.state s).transitions ++ [t] } := by
  by_cases ha : a < d.states.size
  · rw [state_addTransition ha]
    by_cases hs : s = a
    · rw [if_pos hs]
      exact .inr ⟨hs, rfl⟩
    · rw [if_neg hs]
      exact .inl rfl
  · left
    simp only [state, states_addTransition, Array.getD_eq_getD_getElem?, Array.getElem?_modify]
    by_cases hs : a = s
    · subst hs
      simp [Array.getElem?_eq_none (Nat.le_of_not_lt ha)]
    · rw [if_neg hs]

@[simp] theorem kind_addEpsilon : ((d.addEpsilon a b).state s).kind = (d.state s).kind := by
  rcases state_addTransition_or d a (.epsilon b) s with h | ⟨-, h⟩ <;> rw [addEpsilon, h]

@[simp] theorem rule_state_addEpsilon : ((d.addEpsilon a b).state s).rule = (d.state s).rule := by
  rcases state_addTransition_or d a (.epsilon b) s with h | ⟨-, h⟩ <;> rw [addEpsilon, h]

@[simp] theorem mark_addEpsilon :
    ((d.addEpsilon a b).state s).precedenceDecision = (d.state s).precedenceDecision := by
  rcases state_addTransition_or d a (.epsilon b) s with h | ⟨-, h⟩ <;> rw [addEpsilon, h]

@[simp] theorem size_addEpsilon : (d.addEpsilon a b).states.size = d.states.size :=
  size_addTransition

theorem state_addEpsilon_other (h : s ≠ a) : (d.addEpsilon a b).state s = d.state s := by
  rcases state_addTransition_or d a (.epsilon b) s with he | ⟨hs, -⟩
  · exact he
  · exact absurd hs h

theorem mem_addEpsilon (h : t ∈ ((d.addEpsilon a b).state s).transitions) :
    t ∈ (d.state s).transitions ∨ s = a ∧ t = .epsilon b := by
  rcases state_addTransition_or d a (.epsilon b) s with he | ⟨hs, he⟩ <;> rw [addEpsilon, he] at h
  · exact .inl h
  · rcases List.mem_append.1 h with h | h
    · exact .inl h
    · exact .inr ⟨hs, List.mem_singleton.1 h⟩

/-- A call is the only edge of its state, wherever there is one, and returns to the next state. -/
def CallsAlone (d : Draft) : Prop :=
  ∀ s, ∀ t ∈ (d.state s).transitions, t.call? ≠ none →
    (d.state s).transitions = [t] ∧ t.next = s + 1 ∧ 0 ≤ t.argument

theorem CallsAlone.addEpsilon (h : d.CallsAlone) (ho : d.Open a) : (d.addEpsilon a b).CallsAlone := by
  intro s t ht hc
  rcases state_addTransition_or d a (.epsilon b) s with he | ⟨rfl, he⟩
  · rw [Draft.addEpsilon, he] at ht ⊢
    exact h s t ht hc
  · rcases mem_addEpsilon ht with ht | ⟨-, rfl⟩
    · exact absurd (ho t ht) hc
    · exact absurd rfl hc

theorem Open.addEpsilon (h : d.Open s) : (d.addEpsilon a b).Open s := by
  intro t ht
  rcases mem_addEpsilon ht with ht | ⟨-, rfl⟩
  · exact h t ht
  · rfl

/-- The whole draft has single calls if the old and the new states have. -/
theorem Grows.callsAlone {d₀ : Draft} {guards : List (StateId × Int)} (h : Grows r guards d₀ d)
    (hc : d₀.CallsAlone) : d.CallsAlone := by
  intro s
  by_cases hs : s < d₀.states.size
  · rw [h.old s hs]
    exact hc s
  · by_cases hs' : s < d.states.size
    · exact (h.new s (by lia) hs').call
    · rw [state_of_size_le (by lia)]
      intro t ht
      cases ht

/-- The states of a fresh rule are its start and its stop. -/
theorem Fresh.start_ne_stop (h : d.Fresh r) : (d.rule r).start ≠ (d.rule r).stop := by
  intro he
  have := h.start_state
  rw [he, h.stop_state] at this
  cases this

/-- The rule of states after something was added to a fresh rule and joined up. -/
theorem Fresh.untouched_of_grows {guards : List (StateId × Int)} {d₁ : Draft} (h : d.Fresh r)
    (hg : Grows r guards d d₁) (hsize : d'.states.size = d₁.states.size)
    (hcount : d'.rules.size = d₁.rules.size)
    (hrules : ∀ c, (d'.rule c).start = (d₁.rule c).start ∧ (d'.rule c).stop = (d₁.rule c).stop)
    (hkind : ∀ c, c ≠ r → (d'.rule c).leftRecursive = (d₁.rule c).leftRecursive)
    (hst : ∀ s, (d'.state s).rule = (d₁.state s).rule)
    (hold : ∀ s, s < d.states.size → s ≠ (d.rule r).start → s ≠ (d.rule r).stop →
      d'.state s = d₁.state s) : Untouched r d d' := by
  have hr : ∀ c, (d₁.rule c).start = (d.rule c).start ∧ (d₁.rule c).stop = (d.rule c).stop ∧
      (d₁.rule c).leftRecursive = (d.rule c).leftRecursive := by
    intro c
    have := hg.rules c
    exact ⟨congrArg Rule.start this, congrArg Rule.stop this, congrArg Rule.leftRecursive this⟩
  refine ⟨by have := hg.size; lia, hcount.trans hg.count, ?_, ?_, ?_, ?_, ?_⟩
  · intro c
    rw [(hrules c).1, (hrules c).2, (hr c).1, (hr c).2.1]
    exact ⟨rfl, rfl⟩
  · intro c hc
    rw [hkind c hc, (hr c).2.2]
  · intro s hs hne
    rw [hold s hs, hg.old s hs]
    · rintro rfl
      exact hne (by rw [h.start_state])
    · rintro rfl
      exact hne (by rw [h.stop_state])
  · intro s hs hs'
    rw [hst, (hg.new s hs (by lia)).rule]
  · intro s hs hr
    rw [hst, hg.old s hs, hr]

@[simp] theorem rule_addEpsilon (c : RuleId) :
    ((d.addEpsilon a b).rule c).toRule = (d.rule c).toRule := rule_addTransition c

@[simp] theorem count_addEpsilon : (d.addEpsilon a b).rules.size = d.rules.size :=
  count_addTransition

/-- A fresh rule with a fragment between its start and its stop has the shape of a plain rule. -/
theorem Fresh.shape_plain {f : Fragment} {d₁ : Draft} (h : d.Fresh r) (ha : Adds r d (f, d₁))
    (hd : d.CallsAlone) :
    let d' := (d₁.addEpsilon (d.rule r).start f.entry).addEpsilon f.exit (d.rule r).stop
    d'.RuleShape r levels ∧ Untouched r d d' ∧ d'.CallsAlone := by
  intro d'
  have hg := ha.grows
  have hsize : d'.states.size = d₁.states.size := by simp [d']
  have hge := hg.size
  have hrule : ∀ c, (d'.rule c).toRule = (d.rule c).toRule := by
    intro c
    have := hg.rules c
    simpa [d'] using this
  have hstart : (d'.rule r).start = (d.rule r).start := congrArg Rule.start (hrule r)
  have hstop : (d'.rule r).stop = (d.rule r).stop := congrArg Rule.stop (hrule r)
  have hplain : (d'.rule r).leftRecursive = false :=
    (congrArg Rule.leftRecursive (hrule r)).trans h.plain
  have hst : ∀ s, (d'.state s).rule = (d₁.state s).rule := by simp [d']
  have hkind : ∀ s, (d'.state s).kind = (d₁.state s).kind := by simp [d']
  have hmark : ∀ s, (d'.state s).precedenceDecision = (d₁.state s).precedenceDecision := by
    simp [d']
  have h₁start := hg.old _ h.start_lt
  have h₁stop := hg.old _ h.stop_lt
  rw [h.start_state] at h₁start
  rw [h.stop_state] at h₁stop
  have hentry := hg.new _ ha.holds.entry_ge ha.holds.entry_lt
  have hexit := hg.new _ ha.holds.exit_ge ha.holds.exit_lt
  -- a state of the rule is its start, its stop or a state of the fragment
  have hcases : ∀ s, (d'.state s).rule = r → (d.states.size ≤ s ∧ s < d₁.states.size) ∨
      s = (d.rule r).start ∨ s = (d.rule r).stop ∨ d₁.state s = default := by
    intro s hs
    by_cases hlt : s < d.states.size
    · rw [hst, hg.old s hlt] at hs
      rcases h.only s hlt hs with hs | hs
      · exact .inr (.inl hs)
      · exact .inr (.inr (.inl hs))
    · by_cases hlt' : s < d₁.states.size
      · exact .inl ⟨by lia, hlt'⟩
      · exact .inr (.inr (.inr (state_of_size_le (by lia))))
  have hmem : ∀ s, (d'.state s).rule = r → ∀ t ∈ (d'.state s).transitions,
      (d.states.size ≤ s ∧ s < d₁.states.size ∧ t ∈ (d₁.state s).transitions) ∨
        t = .epsilon f.entry ∨ t = .epsilon (d.rule r).stop := by
    intro s hs t ht
    rcases mem_addEpsilon ht with ht | ⟨-, rfl⟩
    · rcases mem_addEpsilon ht with ht | ⟨-, rfl⟩
      · rcases hcases s hs with hs | rfl | rfl | hs
        · exact .inl ⟨hs.1, hs.2, ht⟩
        · rw [h₁start] at ht
          cases ht
        · rw [h₁stop] at ht
          cases ht
        · rw [hs] at ht
          cases ht
      · exact .inr (.inl rfl)
    · exact .inr (.inr rfl)
  refine ⟨⟨?_, ?_, ?_, ?_, ?_, ?_, ?_, fun _ => ⟨?_, ?_⟩, ?_⟩, ?_, ?_⟩
  · have := h.start_lt
    lia
  · have := h.stop_lt
    lia
  · rw [hstart, hst, h₁start]
  · rw [hstop, hst, h₁stop]
  · rw [hstop, hkind, h₁stop]
  · intro s hs hk
    rw [hkind] at hk
    rcases hcases s hs with hs | rfl | rfl | hs
    · exact absurd hk (hg.new s hs.1 hs.2).not_stop
    · rw [h₁start] at hk
      cases hk
    · exact hstop.symm
    · rw [hs] at hk
      cases hk
  · intro s hs t ht
    rcases hmem s hs t ht with ⟨hl, hl', ht⟩ | rfl | rfl
    · have hb := (hg.new s hl hl').bounds t ht
      refine ⟨by lia, ?_⟩
      rw [hst, (hg.new _ hb.1 hb.2).rule]
    · refine ⟨by simp only [Transition.epsilon, Transition.next, hsize]; exact ha.holds.entry_lt, ?_⟩
      rw [hst]
      exact hentry.rule
    · refine ⟨by simp only [Transition.epsilon, Transition.next]; have := h.stop_lt; lia, ?_⟩
      rw [hst]
      simp only [Transition.epsilon, Transition.next, h₁stop]
  · intro s hs
    rw [hmark]
    rcases hcases s hs with hs | rfl | rfl | hs
    · exact (hg.new s hs.1 hs.2).not_loop
    · rw [h₁start]
    · rw [h₁stop]
    · rw [hs]
      rfl
  · intro s hs t ht
    rcases hmem s hs t ht with ⟨hl, hl', ht⟩ | rfl | rfl
    · cases hk : t.kind with
      | precedence level => exact absurd ((hg.new s hl hl').levels t ht level hk) (by simp)
      | _ => rfl
    · rfl
    · rfl
  · rw [hplain]
    intro hf
    cases hf
  · refine h.untouched_of_grows hg hsize (by simp [d']) ?_ ?_ hst ?_
    · intro c
      have := hrule c
      rw [← hg.rules c] at this
      exact ⟨congrArg Rule.start this, congrArg Rule.stop this⟩
    · intro c _
      have := hrule c
      rw [← hg.rules c] at this
      exact congrArg Rule.leftRecursive this
    · intro s hs hne _
      have hne' : s ≠ f.exit := by
        have := ha.holds.exit_ge
        lia
      rcases state_addTransition_or (d₁.addEpsilon (d.rule r).start f.entry) f.exit
        (.epsilon (d.rule r).stop) s with he | ⟨he, -⟩
      · rcases state_addTransition_or d₁ (d.rule r).start (.epsilon f.entry) s with he' | ⟨he', -⟩
        · exact he.trans he'
        · exact absurd he' hne
      · exact absurd he hne'
  · refine ((hg.callsAlone hd).addEpsilon ?_).addEpsilon ?_
    · intro t ht
      rw [h₁start] at ht
      cases ht
    · exact ha.holds.exit_open.addEpsilon

end Draft

end AdaptiveParsing
