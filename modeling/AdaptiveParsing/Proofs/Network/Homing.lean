import AdaptiveParsing.Proofs.Network.Compiled
/-!
Networks whose calls return to one state each. A draft is made by adding states, rules and edges
(`Draft.Made`), and a network that is built from one has its calls enter rules at their starts
(`Network.Wired`). Where a call returns to is read off the state it was made at (`Network.followOf?`). That is
the state its edge names if all calls of a state return to the same one, and if that is of the caller's rule
no call leads out of a rule for good (`Network.Homing`).
-/

namespace AdaptiveParsing

/-- The starts and stops of rules are states of theirs, and a call enters the rule it names at its start. -/
structure Network.Wired (n : Network) : Prop where
  start : ∀ r < n.rules.size, (n.state (n.rule r).start).rule = r
  stop : ∀ r < n.rules.size, (n.state (n.rule r).stop).rule = r
  call : ∀ s, ∀ t ∈ (n.state s).transitions, ∀ c follow precedence, t.kind = .rule c follow precedence →
    c < n.rules.size ∧ t.target = (n.rule c).start

namespace Draft

/-- Drafts that come about by adding to an empty one. -/
inductive Made : Draft → Prop
  | empty (maxType : TokenType) : Made { maxType }
  | addRule {d : Draft} (h : Made d) (name : String) : Made (d.addRule name).2
  | addState {d : Draft} (h : Made d) (kind : StateKind) (r : RuleId) : Made (d.addState kind r).2
  | addTransition {d : Draft} (h : Made d) (source : StateId) (t : Transition) :
      Made (d.addTransition source t)
  | setLeftRecursive {d : Draft} (h : Made d) {r : RuleId} (hr : r < d.rules.size) :
      Made (d.setLeftRecursive r)
  | markPrecedenceDecision {d : Draft} (h : Made d) {s : StateId} (hs : s < d.states.size) :
      Made (d.markPrecedenceDecision s)

/-- The start and the stop of the rule are states of the rule. -/
structure Owns (d : Draft) (r : RuleId) : Prop where
  start_lt : (d.rule r).start < d.states.size
  stop_lt : (d.rule r).stop < d.states.size
  start : (d.state (d.rule r).start).rule = r
  stop : (d.state (d.rule r).stop).rule = r

variable {d d' : Draft} {r : RuleId}

theorem Owns.congr (h : d.Owns r) (hstart : (d'.rule r).start = (d.rule r).start)
    (hstop : (d'.rule r).stop = (d.rule r).stop) (hsize : d.states.size ≤ d'.states.size)
    (hstate : ∀ s < d.states.size, (d'.state s).rule = (d.state s).rule) : d'.Owns r where
  start_lt := hstart ▸ Nat.lt_of_lt_of_le h.start_lt hsize
  stop_lt := hstop ▸ Nat.lt_of_lt_of_le h.stop_lt hsize
  start := by rw [hstart, hstate _ h.start_lt, h.start]
  stop := by rw [hstop, hstate _ h.stop_lt, h.stop]

theorem rule_state_addTransition (source : StateId) (t : Transition) (s : StateId) :
    ((d.addTransition source t).state s).rule = (d.state s).rule := by
  simp only [state, states_addTransition, Array.getD_eq_getD_getElem?, Array.getElem?_modify]
  split
  · cases d.states[s]? <;> rfl
  · rfl

theorem Owns.addRule (h : r < d.rules.size → d.Owns r) (name : String)
    (hr : r < (d.addRule name).2.rules.size) : (d.addRule name).2.Owns r := by
  obtain ⟨hstates, hrules⟩ := @size_addRule d name
  by_cases hlast : r = d.rules.size
  · have hrule := (@rule_addRule d name r).trans (if_pos hlast)
    constructor <;> rw [hrule]
    · dsimp only
      lia
    · dsimp only
      lia
    · rw [state_addRule, if_pos rfl, hlast]
    · rw [state_addRule, if_neg (by simp), if_pos rfl, hlast]
  · have hrule := (@rule_addRule d name r).trans (if_neg hlast)
    refine (h (by lia)).congr (by rw [hrule]) (by rw [hrule]) (by lia) fun s hs => ?_
    rw [state_addRule, if_neg (by lia), if_neg (by lia)]

/-- Every rule of a draft that was made has its start and stop. -/
theorem Made.owns (h : d.Made) (hr : r < d.rules.size) : d.Owns r := by
  induction h with
  | empty => exact absurd hr (Nat.not_lt_zero r)
  | addRule _ name ih => exact Owns.addRule ih name hr
  | addState _ kind r' ih =>
    refine (ih hr).congr rfl rfl (by rw [size_addState]; lia) fun s hs => ?_
    rw [state_addState, if_neg (Nat.ne_of_lt hs)]
  | @addTransition d _ source t ih =>
    rw [count_addTransition] at hr
    have hrule := @rule_addTransition d source t r
    exact (ih hr).congr (congrArg Rule.start hrule) (congrArg Rule.stop hrule)
      (Nat.le_of_eq size_addTransition.symm) fun s _ => rule_state_addTransition source t s
  | @setLeftRecursive d _ r' hr' ih =>
    rw [count_setLeftRecursive] at hr
    have hrule := rule_setLeftRecursive hr' r
    refine (ih hr).congr ((congrArg Rule.start hrule).trans ?_) ((congrArg Rule.stop hrule).trans ?_)
      (Nat.le_refl _) fun _ _ => rfl <;> split <;> rfl
  | @markPrecedenceDecision d _ a ha ih =>
    exact (ih hr).congr rfl rfl (Nat.le_of_eq size_markPrecedenceDecision.symm)
      fun s _ => rule_state_markPrecedenceDecision ha

theorem Made.wired {n : Network} (h : d.Made) (hb : d.build = .ok n) : n.Wired := by
  obtain ⟨hcheck, hstates, hrules⟩ := build_eq_ok hb
  have hcount := count_of_rules hrules
  have hrule := rule_of_rules hrules
  have hfields := fun s => NetworkState.fields_of_unnumbered (unnumbered_of_states hstates s)
  refine ⟨fun r hr => ?_, fun r hr => ?_, ?_⟩
  · rw [(hfields _).2.1, hrule]
    exact (h.owns (hcount ▸ hr)).start
  · rw [(hfields _).2.1, hrule]
    exact (h.owns (hcount ▸ hr)).stop
  · intro s t ht c follow precedence hk
    rw [(hfields s).2.2.1] at ht
    obtain ⟨hc, htarget, -⟩ := (sound_of_check hcheck).1.call ht hk
    rw [hcount, htarget, hrule]
    exact ⟨hc, rfl⟩

end Draft

namespace Network

variable {n : Network} {s back : StateId} {t : Transition}

/-- What leaves a state goes on in its rule, a call where it returns to, and all calls of a state return to the
same one. -/
structure Homing (n : Network) : Prop where
  inside : ∀ s < n.states.size, ∀ t ∈ (n.state s).transitions, (n.state t.next).rule = (n.state s).rule
  one : ∀ s < n.states.size, ∀ t ∈ (n.state s).transitions, ∀ t' ∈ (n.state s).transitions,
    t.call?.isSome = true → t'.call?.isSome = true → t.next = t'.next

/-- A call returns where its edge says. -/
theorem Homing.followOf?_eq (hn : n.Homing) (ht : t ∈ (n.state s).transitions) (hcall : t.call?.isSome = true) :
    n.followOf? s = some t.next := by
  cases hback : n.followOf? s with
  | none =>
    have hnone := List.findSome?_eq_none_iff.1 hback t ht
    rw [Option.map_eq_none_iff] at hnone
    simp [hnone] at hcall
  | some back =>
    obtain ⟨t', ht', hcall', rfl⟩ := exists_call_of_followOf? hback
    rw [hn.one s (lt_of_edge ht) t ht t' ht' hcall hcall']

theorem Homing.rule_back (hn : n.Homing) (h : n.followOf? s = some back) :
    (n.state back).rule = (n.state s).rule := by
  obtain ⟨t, ht, -, rfl⟩ := exists_call_of_followOf? h
  exact hn.inside s (lt_of_edge ht) t ht

end Network

end AdaptiveParsing
