import AdaptiveParsing.Proofs.Lookahead.Ending
import AdaptiveParsing.Proofs.Lookahead.OneToken
import AdaptiveParsing.Proofs.Network.Expressions
/-!
Lookahead in expressions. The configurations that the decisions of a rule of operands and operators start with
wait at an operand, at an operator, or for the end of input, and one token tells which alternative is
right. A loop goes on if the operator is at or above the floor of the invocation, and is left before any
other token. Main statements: `Simulation.predict_round`, `predict_exit`, `predict_choice` and
`predict_operand`.
-/

namespace AdaptiveParsing

open ConfigSet

/-- The network of expressions with its tables: operands and operators are user tokens, no operator is
listed twice or is an operand, and each call is noted where it returns to. -/
structure Network.InfixTables (n : Network) (levels : RuleId → Int → Prop) (e s : RuleId)
    (heads : List (StateId × TokenType)) (rounds : List (StateId × Binding)) (after c : StateId) :
    Prop where
  expressions : n.Expressions e s heads rounds after c
  shaped : n.Shaped levels
  checked : n.Checked
  free : n.PredicateFree
  lt : e < n.rules.size
  start_lt : s < n.rules.size
  uncalled : n.followStates s = []
  decision : ∀ a, 1 < (n.state a).transitions.length → ∃ d, (n.state a).decision = some d ∧
    n.decisionState d = a ∧ d < n.decisions.size
  price : ∀ a, ∀ t ∈ (n.state a).transitions, ∀ r follow precedence,
    t.kind = .rule r follow precedence → n.returnPrecedenceAt follow = some precedence
  operands : ∀ h ∈ heads, TokenType.firstUser ≤ h.2
  operators : ∀ x ∈ rounds, TokenType.firstUser ≤ x.2.token ∧ 0 < x.2.level
  distinct : (rounds.map fun x => x.2.token).Nodup
  disjoint : ∀ h ∈ heads, ∀ x ∈ rounds, x.2.token ≠ h.2

/-- A grammar of expressions is compiled to such a network. -/
theorem Grammar.infixTables_compile {g : Grammar} {c : CompiledGrammar} {e s : RuleId}
    {l : List InfixAlternative} (h : g.compile = .ok c) (hg : g.Infix e s l) :
    ∃ heads rounds after call, heads.map Prod.snd = InfixAlternative.operands l ∧
      rounds.map Prod.snd = InfixAlternative.bindings l ∧
      c.network.InfixTables g.HasLevel e s heads rounds after call := by
  obtain ⟨d, -, hb⟩ := build_compile h
  obtain ⟨hshaped, hsize⟩ := shaped_compile h
  have hchecked := checked_compile h
  obtain ⟨heads, rounds, after, call, hheads, hrounds, hexp⟩ := expressions_compile h hg
  obtain ⟨q, stop, hcloses⟩ := closes_compile h hg.closedBy
  obtain ⟨_, he, -⟩ := hg.expression
  have hoperand : ∀ x ∈ heads, x.2 ∈ InfixAlternative.operands l := fun x hx =>
    hheads ▸ List.mem_map_of_mem hx
  have hbinding : ∀ x ∈ rounds, x.2 ∈ InfixAlternative.bindings l := fun x hx =>
    hrounds ▸ List.mem_map_of_mem hx
  have htoken : ∀ x ∈ rounds, x.2.token ∈ (InfixAlternative.bindings l).map Binding.token :=
    fun x hx => List.mem_map_of_mem (hbinding x hx)
  have hnodup := hg.distinct
  rw [← hrounds, List.map_map] at hnodup
  exact ⟨heads, rounds, after, call, hheads, hrounds, {
    expressions := hexp
    shaped := hshaped
    checked := hchecked
    free := predicateFree_compile h hg.predicateFree
    lt := hsize ▸ (Array.getElem?_eq_some_iff.1 he).1
    start_lt := hcloses.lt
    uncalled := hcloses.followStates_eq_nil hchecked
    decision := fun a ha => Draft.decision_build hb ha
    price := fun a t ht r follow precedence hk => Draft.returnPrecedence_build hb hshaped ht hk
    operands := fun x hx => hg.users _ (.inl (hoperand x hx))
    operators := fun x hx =>
      ⟨hg.users _ (.inr (htoken x hx)), InfixAlternative.pos_bindings (hbinding x hx)⟩
    distinct := hnodup
    disjoint := fun h hh x hx heq => hg.disjoint _ (hoperand h hh) (heq ▸ htoken x hx) }⟩

theorem Network.transitions_of_unnumbered {n : Network} {a : StateId} {here : NetworkState}
    (h : (n.state a).unnumbered = here) : (n.state a).transitions = here.transitions :=
  show (n.state a).unnumbered.transitions = here.transitions from congrArg _ h

namespace Network.InfixTables

open Network (transitions_of_unnumbered)

variable {n : Network} {levels : RuleId → Int → Prop} {e s : RuleId}
  {heads : List (StateId × TokenType)} {rounds : List (StateId × Binding)} {after c : StateId}
  (N : n.InfixTables levels e s heads rounds after c)

include N

theorem loop (hne : rounds ≠ []) :
    LoopAt (fun a => (n.state a).unnumbered) e (n.rule e) rounds after := by
  have h := N.expressions.shape.loop
  rw [if_neg hne] at h
  exact h.1

theorem leftRecursive : (n.rule e).leftRecursive = decide (rounds ≠ []) := by
  have h := N.expressions.shape.loop
  by_cases hne : rounds = []
  · rw [if_pos hne] at h
    simpa [hne] using h.2
  · rw [if_neg hne] at h
    simpa [hne] using h.2

/-- Without operators nothing is between the operands and the stop. -/
theorem after_eq (hnil : rounds = []) : after = (n.rule e).stop := by
  have h := N.expressions.shape.loop
  rw [if_pos hnil] at h
  exact h.1

theorem isRuleStop_stop : (n.state (n.rule e).stop).isRuleStop = true := by
  rw [NetworkState.isRuleStop, (N.shaped.rule e N.lt).stop_kind]
  rfl

theorem rule_stop : (n.state (n.rule e).stop).rule = e := (N.shaped.rule e N.lt).stop_rule

theorem round {x : StateId × Binding} (hx : x ∈ rounds) :
    RoundAt (fun a => (n.state a).unnumbered) e (n.rule e).start [.epsilon (after + 2)] x :=
  (N.loop (List.ne_nil_of_mem hx)).rounds x hx

theorem call_round {x : StateId × Binding} (hx : x ∈ rounds) : (n.state (x.1 + 3)).transitions =
    [⟨(n.rule e).start, .rule e (x.1 + 4) x.2.floor⟩] :=
  transitions_of_unnumbered (N.round hx).call

theorem call_start : (n.state c).transitions = [⟨(n.rule e).start, .rule e (c + 1) 0⟩] :=
  transitions_of_unnumbered N.expressions.start.call

theorem take_round {x : StateId × Binding} (hx : x ∈ rounds) :
    (n.state (x.1 + 1)).transitions = [⟨x.1 + 2, .atom x.2.token⟩] :=
  transitions_of_unnumbered (N.round hx).take

theorem take_end : (n.state (c + 2)).transitions = [⟨c + 3, .atom TokenType.eof⟩] :=
  transitions_of_unnumbered N.expressions.start.take

/-- The operators are told apart from the end of input. -/
theorem ne_eof {x : StateId × Binding} (hx : x ∈ rounds) : x.2.token ≠ TokenType.eof := by
  intro h
  have huser := (N.operators x hx).1
  rw [h] at huser
  exact absurd huser (by decide)

theorem eq_of_token {x y : StateId × Binding} (hx : x ∈ rounds) (hy : y ∈ rounds)
    (h : x.2.token = y.2.token) : x = y := List.inj_on_of_nodup_map N.distinct hx hy h

theorem eq_of_state {x y : StateId × Binding} (hx : x ∈ rounds) (hy : y ∈ rounds) (h : x.1 = y.1) :
    x = y := by
  have htake := N.take_round hx
  rw [h, N.take_round hy] at htake
  exact N.eq_of_token hx hy (by simpa using htake.symm)

theorem index_unique {x : StateId × Binding} {i j : Nat} (hi : rounds[i]? = some x)
    (hj : rounds[j]? = some x) : i = j :=
  List.getElem?_inj (List.getElem?_eq_some_iff.1 hi).1 (List.Nodup.of_map _ N.distinct)
    |>.1 (hi.trans hj.symm)

/-- A call of the rule returns behind the right operand of an operator, or to the start rule. -/
theorem mem_followStates {a : StateId} :
    a ∈ n.followStates e ↔ (∃ x ∈ rounds, a = x.1 + 4) ∨ a = c + 1 := by
  constructor
  · intro h
    obtain ⟨b, t, ht, p, hk⟩ := N.checked.returns_call e a h
    rcases N.expressions.callers b t ht a p hk with ⟨x, hx, rfl⟩ | rfl
    · rw [N.call_round hx, List.mem_singleton] at ht
      cases ht ▸ hk
      exact .inl ⟨x, hx, rfl⟩
    · rw [N.call_start, List.mem_singleton] at ht
      cases ht ▸ hk
      exact .inr rfl
  · rintro (⟨x, hx, rfl⟩ | rfl)
    · refine N.checked.returns (x.1 + 3) ⟨(n.rule e).start, _⟩ ?_ e (x.1 + 4) x.2.floor rfl
      rw [N.call_round hx]
      exact .head _
    · refine N.checked.returns c ⟨(n.rule e).start, _⟩ ?_ e (c + 1) 0 rfl
      rw [N.call_start]
      exact .head _

theorem returnPrecedenceAt_round {x : StateId × Binding} (hx : x ∈ rounds) :
    n.returnPrecedenceAt (x.1 + 4) = some x.2.floor := by
  refine N.price (x.1 + 3) ⟨(n.rule e).start, _⟩ ?_ e (x.1 + 4) x.2.floor rfl
  rw [N.call_round hx]
  exact .head _

theorem returnPrecedenceAt_start : n.returnPrecedenceAt (c + 1) = some 0 := by
  refine N.price c ⟨(n.rule e).start, _⟩ ?_ e (c + 1) 0 rfl
  rw [N.call_start]
  exact .head _

theorem floor_pos {x : StateId × Binding} (hx : x ∈ rounds) : 0 < x.2.floor := by
  have h := (N.operators x hx).2
  unfold Binding.floor
  split <;> lia

end Network.InfixTables

namespace Simulation

open Network (transitions_of_unnumbered)

variable {sim : Simulation} {levels : RuleId → Int → Prop} {e s : RuleId}
  {heads : List (StateId × TokenType)} {rounds : List (StateId × Binding)} {after c : StateId}
  {seeds : List Config} {k : ConfigKey} {alt : Nat} {d : DecisionId} {p : Int}
  {placement : Placement} {stack : List Frame}
  (N : sim.network.InfixTables levels e s heads rounds after c)

/-- Where a configuration is that has returned to the start rule: floor zero is an outermost call of a
left-recursive rule, and only then is that told apart. -/
def outside (rounds : List (StateId × Binding)) : Placement :=
  if rounds = [] then .follow else .outermostFollow

include N

theorem mem_unknownReturns : k ∈ sim.unknownReturns e ↔
    (∃ x ∈ rounds, k = ⟨x.1 + 4, 0, [], .follow⟩) ∨ k = ⟨c + 1, 0, [], outside rounds⟩ := by
  have hround : ∀ x ∈ rounds, (if (sim.network.rule e).leftRecursive &&
      sim.network.returnPrecedenceAt (x.1 + 4) == some 0 then Placement.outermostFollow
      else .follow) = .follow := by
    intro x hx
    have hpos := N.floor_pos hx
    rw [N.returnPrecedenceAt_round hx, if_neg]
    simp
    lia
  have hstart : (if (sim.network.rule e).leftRecursive &&
      sim.network.returnPrecedenceAt (c + 1) == some 0 then Placement.outermostFollow
      else .follow) = outside rounds := by
    rw [N.leftRecursive, N.returnPrecedenceAt_start]
    by_cases hne : rounds = [] <;> simp [hne, outside]
  rw [unknownReturns, List.mem_map]
  constructor
  · rintro ⟨a, ha, rfl⟩
    rcases N.mem_followStates.1 ha with ⟨x, hx, rfl⟩ | rfl
    · exact .inl ⟨x, hx, by rw [hround x hx]⟩
    · exact .inr (by rw [hstart])
  · rintro (⟨x, hx, rfl⟩ | rfl)
    · exact ⟨x.1 + 4, N.mem_followStates.2 (.inl ⟨x, hx, rfl⟩), by rw [hround x hx]⟩
    · exact ⟨c + 1, N.mem_followStates.2 (.inr rfl), by rw [hstart]⟩

/-- From the stop of the rule lookahead goes on in each caller. -/
theorem Expands.returns (h : sim.Expands false seeds ⟨⟨(sim.network.rule e).stop, p, [], placement⟩, alt⟩)
    (hk : k ∈ sim.unknownReturns e) : sim.Expands false seeds ⟨k, alt⟩ := by
  have hne : sim.unknownReturns (sim.network.state (sim.network.rule e).stop).rule ≠ [] := by
    rw [N.rule_stop]
    exact List.ne_nil_of_mem hk
  have hexpand := @expand_of_isRuleStop sim ⟨⟨(sim.network.rule e).stop, p, [], placement⟩, alt⟩
    N.isRuleStop_stop rfl
  rw [if_neg hne, N.rule_stop] at hexpand
  exact .step h hexpand (List.mem_map_of_mem hk)

omit N in
theorem Expands.epsilon {a b : StateId} (hn : sim.network.Checked)
    (h : sim.Expands false seeds ⟨⟨a, p, stack, placement⟩, alt⟩)
    (ht : (sim.network.state a).transitions = [.epsilon b]) :
    sim.Expands false seeds ⟨⟨b, p, stack, placement⟩, alt⟩ :=
  .step h (expand_of_epsilon hn ht) (.head _)

/-- From the stop of the rule the start rule goes on to the end of input. -/
theorem Expands.last (h : sim.Expands false seeds ⟨⟨(sim.network.rule e).stop, p, [], placement⟩, alt⟩) :
    sim.Rests seeds ⟨⟨c + 2, 0, [], outside rounds⟩, alt⟩ := by
  have hreturn := h.returns N ((mem_unknownReturns N).2 (.inr rfl))
  have hback : (sim.network.state (c + 1)).transitions = [.epsilon (c + 2)] :=
    transitions_of_unnumbered N.expressions.start.back
  have htake : (sim.network.state (c + 2)).transitions = [⟨c + 3, .atom TokenType.eof⟩] :=
    transitions_of_unnumbered N.expressions.start.take
  exact ⟨hreturn.epsilon N.checked hback, expand_of_isConsuming N.checked htake rfl⟩

/-- Past the choice of a round, each operator that is not below the floor waits. -/
theorem Expands.round {x : StateId × Binding} (hx : x ∈ rounds) (hp : p ≤ x.2.level)
    (h : sim.Expands false seeds ⟨⟨after + 1, p, stack, placement⟩, alt⟩) :
    sim.Rests seeds ⟨⟨x.1 + 1, p, stack, placement⟩, alt⟩ := by
  have hne := List.ne_nil_of_mem hx
  have hchoice := transitions_of_unnumbered (N.loop hne).choice
  have hguard := transitions_of_unnumbered (N.round hx).guard
  have htake := transitions_of_unnumbered (N.round hx).take
  have hentry : sim.Expands false seeds ⟨⟨x.1, p, stack, placement⟩, alt⟩ :=
    .step h (expand_of_epsilons N.checked hchoice hne) (List.mem_map.2 ⟨x, hx, rfl⟩)
  have hpassed : sim.Expands false seeds ⟨⟨x.1 + 1, p, stack, placement⟩, alt⟩ := by
    refine .step hentry (expand_of_precedence N.checked hguard) ?_
    rw [if_pos hp]
    exact .head _
  exact ⟨hpassed, expand_of_isConsuming N.checked htake rfl⟩

theorem Expands.again (hne : rounds ≠ [])
    (h : sim.Expands false seeds ⟨⟨after, p, stack, placement⟩, alt⟩) :
    sim.Expands false seeds ⟨⟨after + 1, p, stack, placement⟩, alt⟩ ∧
      sim.Expands false seeds ⟨⟨(sim.network.rule e).stop, p, stack, placement⟩, alt⟩ := by
  have hentry := transitions_of_unnumbered (N.loop hne).entry
  have hexit := transitions_of_unnumbered (N.loop hne).exit
  have hnext : sim.expand false ⟨⟨after, p, stack, placement⟩, alt⟩ =
      .inl ([after + 1, after + 4].map fun a => ⟨⟨a, p, stack, placement⟩, alt⟩) :=
    expand_of_epsilons (f := id) N.checked hentry (List.cons_ne_nil _ _)
  refine ⟨.step h hnext (.head _), Expands.epsilon N.checked (.step h hnext ?_) hexit⟩
  exact .tail _ (.head _)

/-- From the stop of the rule lookahead comes to each operator, since callers that are not known may have
any floor. -/
theorem Expands.outer {x : StateId × Binding} (hx : x ∈ rounds)
    (h : sim.Expands false seeds ⟨⟨(sim.network.rule e).stop, p, [], placement⟩, alt⟩) :
    sim.Rests seeds ⟨⟨x.1 + 1, 0, [], .follow⟩, alt⟩ := by
  have hne := List.ne_nil_of_mem hx
  have hback := transitions_of_unnumbered (N.round hx).back
  have hdone := transitions_of_unnumbered (N.loop hne).done
  have hloop := transitions_of_unnumbered (N.loop hne).back
  have hreturn := h.returns N ((mem_unknownReturns N).2 (.inl ⟨x, hx, rfl⟩))
  have hentry := ((hreturn.epsilon N.checked hback).epsilon N.checked hdone).epsilon N.checked hloop
  exact (hentry.again N hne).1.round N hx (by have := (N.operators x hx).2; lia)

omit N in
/-- The configurations the decision of a loop comes to before a token: in the loop with the floor of the
invocation, past its end, and from there in callers that are not known. -/
inductive LoopConfig (rounds : List (StateId × Binding)) (after stop c : StateId) (floor : Int) :
    Config → Prop
  | choice : LoopConfig rounds after stop c floor ⟨⟨after + 1, floor, [], .inside⟩, 1⟩
  | guard {x : StateId × Binding} (hx : x ∈ rounds) :
      LoopConfig rounds after stop c floor ⟨⟨x.1, floor, [], .inside⟩, 1⟩
  | take {x : StateId × Binding} (hx : x ∈ rounds) (hp : floor ≤ x.2.level) :
      LoopConfig rounds after stop c floor ⟨⟨x.1 + 1, floor, [], .inside⟩, 1⟩
  | exit : LoopConfig rounds after stop c floor ⟨⟨after + 4, floor, [], .inside⟩, 2⟩
  | stop : LoopConfig rounds after stop c floor ⟨⟨stop, floor, [], .inside⟩, 2⟩
  | outer {a : StateId} (ha : a ∈ [after, after + 1, after + 2, after + 3, after + 4, stop]) :
      LoopConfig rounds after stop c floor ⟨⟨a, 0, [], .follow⟩, 2⟩
  | outerRound {x : StateId × Binding} {a : StateId} (hx : x ∈ rounds)
      (ha : a ∈ [x.1, x.1 + 1, x.1 + 4]) :
      LoopConfig rounds after stop c floor ⟨⟨a, 0, [], .follow⟩, 2⟩
  | last {a : StateId} (ha : a ∈ [c + 1, c + 2]) :
      LoopConfig rounds after stop c floor ⟨⟨a, 0, [], .outermostFollow⟩, 2⟩

omit N in
/-- Where lookahead of the loop waits for a token: at an operator that is not below the floor, if another
round is taken; at any operator and at the end of input, if the loop is left. -/
inductive LoopWaits (rounds : List (StateId × Binding)) (c : StateId) (floor : Int) : Config → Prop
  | round {x : StateId × Binding} (hx : x ∈ rounds) (hp : floor ≤ x.2.level) :
      LoopWaits rounds c floor ⟨⟨x.1 + 1, floor, [], .inside⟩, 1⟩
  | outer {x : StateId × Binding} (hx : x ∈ rounds) :
      LoopWaits rounds c floor ⟨⟨x.1 + 1, 0, [], .follow⟩, 2⟩
  | last : LoopWaits rounds c floor ⟨⟨c + 2, 0, [], .outermostFollow⟩, 2⟩

/-- Following a configuration of the loop leads to such configurations, unless it waits for a token. -/
theorem LoopConfig.expand (hne : rounds ≠ []) {b : Config}
    (h : LoopConfig rounds after (sim.network.rule e).stop c p b) :
    (∃ next, sim.expand false b = .inl next ∧
      ∀ b' ∈ next, LoopConfig rounds after (sim.network.rule e).stop c p b') ∨
    sim.expand false b = .inr b ∧ LoopWaits rounds c p b := by
  have hentry := transitions_of_unnumbered (N.loop hne).entry
  have hchoice := transitions_of_unnumbered (N.loop hne).choice
  have hdone := transitions_of_unnumbered (N.loop hne).done
  have hloop := transitions_of_unnumbered (N.loop hne).back
  have hexit := transitions_of_unnumbered (N.loop hne).exit
  have hstop : ∀ (p : Int) (placement : Placement), sim.expand false
      ⟨⟨(sim.network.rule e).stop, p, [], placement⟩, 2⟩ =
        .inl ((sim.unknownReturns e).map fun key => ⟨key, 2⟩) := by
    intro p placement
    have hreturn := (mem_unknownReturns N).2 (.inr rfl)
    rw [expand_of_isRuleStop N.isRuleStop_stop rfl, N.rule_stop, if_neg (List.ne_nil_of_mem hreturn)]
  have hreturns : ∀ b' ∈ (sim.unknownReturns e).map (fun key => (⟨key, 2⟩ : Config)),
      LoopConfig rounds after (sim.network.rule e).stop c p b' := by
    intro b' hb'
    obtain ⟨key, hkey, rfl⟩ := List.mem_map.1 hb'
    rcases (mem_unknownReturns N).1 hkey with ⟨x, hx, rfl⟩ | rfl
    · exact .outerRound hx (by simp)
    · rw [outside, if_neg hne]
      exact .last (by simp)
  have one : ∀ {b b' : Config}, sim.expand false b = .inl [b'] →
      LoopConfig rounds after (sim.network.rule e).stop c p b' → ∃ next,
        sim.expand false b = .inl next ∧
          ∀ b' ∈ next, LoopConfig rounds after (sim.network.rule e).stop c p b' :=
    fun he h => ⟨_, he, fun b' hb' => List.mem_singleton.1 hb' ▸ h⟩
  cases h with
  | choice =>
    refine .inl ⟨_, expand_of_epsilons N.checked hchoice hne, fun b' hb' => ?_⟩
    obtain ⟨x, hx, rfl⟩ := List.mem_map.1 hb'
    exact .guard hx
  | @guard x hx =>
    refine .inl ⟨_, expand_of_precedence N.checked (transitions_of_unnumbered (N.round hx).guard),
      fun b' hb' => ?_⟩
    dsimp only at hb'
    split at hb'
    · rename_i hp
      obtain rfl := List.mem_singleton.1 hb'
      exact .take hx hp
    · cases hb'
  | take hx hp =>
    have htake := transitions_of_unnumbered (N.round hx).take
    exact .inr ⟨expand_of_isConsuming N.checked htake rfl, .round hx hp⟩
  | exit =>
    exact .inl (one (expand_of_epsilon N.checked hexit) .stop)
  | stop => exact .inl ⟨_, hstop _ _, hreturns⟩
  | @outer a ha =>
    simp only [List.mem_cons, List.not_mem_nil, or_false] at ha
    rcases ha with rfl | rfl | rfl | rfl | rfl | rfl
    · refine .inl ⟨_, expand_of_epsilons (l := [a + 1, a + 4]) (f := id) N.checked hentry
        (List.cons_ne_nil _ _), fun b' hb' => ?_⟩
      obtain ⟨a', ha', rfl⟩ := List.mem_map.1 hb'
      refine .outer ?_
      simp only [List.mem_cons, List.not_mem_nil, or_false] at ha' ⊢
      rcases ha' with rfl | rfl <;> simp
    · refine .inl ⟨_, expand_of_epsilons N.checked hchoice hne, fun b' hb' => ?_⟩
      obtain ⟨x, hx, rfl⟩ := List.mem_map.1 hb'
      exact .outerRound hx (by simp)
    · exact .inl (one (expand_of_epsilon N.checked hdone) (.outer (by simp)))
    · exact .inl (one (expand_of_epsilon N.checked hloop) (.outer (by simp)))
    · exact .inl (one (expand_of_epsilon N.checked hexit) (.outer (by simp)))
    · exact .inl ⟨_, hstop _ _, hreturns⟩
  | @outerRound x a hx ha =>
    simp only [List.mem_cons, List.not_mem_nil, or_false] at ha
    rcases ha with rfl | rfl | rfl
    · refine .inl ⟨_, expand_of_precedence N.checked (transitions_of_unnumbered (N.round hx).guard),
        fun b' hb' => ?_⟩
      dsimp only at hb'
      split at hb'
      · obtain rfl := List.mem_singleton.1 hb'
        exact .outerRound hx (by simp)
      · cases hb'
    · have htake := transitions_of_unnumbered (N.round hx).take
      exact .inr ⟨expand_of_isConsuming N.checked htake rfl, .outer hx⟩
    · exact .inl (one (expand_of_epsilon N.checked (transitions_of_unnumbered (N.round hx).back)) (.outer (by simp)))
  | @last a ha =>
    simp only [List.mem_cons, List.not_mem_nil, or_false] at ha
    rcases ha with rfl | rfl
    · exact .inl (one (expand_of_epsilon N.checked
        (transitions_of_unnumbered N.expressions.start.back)) (.last (by simp)))
    · have htake := transitions_of_unnumbered N.expressions.start.take
      exact .inr ⟨expand_of_isConsuming N.checked htake rfl, .last⟩

theorem rests_loop (hne : rounds ≠ []) (hd : sim.network.decisionState d = after) {b : Config} :
    sim.Rests (sim.startSeeds d) b ↔ LoopWaits rounds c sim.floor b := by
  have hentry : (sim.network.state (sim.network.decisionState d)).transitions =
      [after + 1, after + 4].map fun a => .epsilon a :=
    hd ▸ transitions_of_unnumbered (N.loop hne).entry
  have hseeds : ∀ b, b ∈ sim.startSeeds d ↔ b = ⟨⟨after + 1, sim.floor, [], .inside⟩, 1⟩ ∨
      b = ⟨⟨after + 4, sim.floor, [], .inside⟩, 2⟩ := by
    intro b
    rw [mem_startSeeds hentry]
    constructor
    · rintro ⟨_ | _ | i, a, ha, rfl⟩
      · exact .inl (by simpa using ha.symm)
      · exact .inr (by simpa using ha.symm)
      · cases ha
    · rintro (rfl | rfl)
      · exact ⟨0, after + 1, rfl, rfl⟩
      · exact ⟨1, after + 4, rfl, rfl⟩
  constructor
  · rintro ⟨hexpands, hrest⟩
    have hconfig : LoopConfig rounds after (sim.network.rule e).stop c sim.floor b := by
      clear hrest
      induction hexpands with
      | seed hb =>
        rcases (hseeds _).1 hb with rfl | rfl
        · exact .choice
        · exact .exit
      | step _ he hb ih =>
        rcases ih.expand N hne with ⟨next, he', hnext⟩ | ⟨he', -⟩
        · rw [he] at he'
          cases he'
          exact hnext _ hb
        · rw [he] at he'
          cases he'
    rcases hconfig.expand N hne with ⟨next, he, -⟩ | ⟨-, hwaits⟩
    · rw [hrest] at he
      cases he
    · exact hwaits
  · have hstop : sim.Expands false (sim.startSeeds d)
        ⟨⟨(sim.network.rule e).stop, sim.floor, [], .inside⟩, 2⟩ :=
      Expands.epsilon N.checked (.seed ((hseeds _).2 (.inr rfl)))
        (transitions_of_unnumbered (N.loop hne).exit)
    rintro (⟨hx, hp⟩ | hx | -)
    · exact Expands.round N hx hp (.seed ((hseeds _).2 (.inl rfl)))
    · exact hstop.outer N hx
    · have hlast := hstop.last N
      rwa [outside, if_neg hne] at hlast

/-- An operand waits wherever the rule begins. -/
theorem Expands.operand
    (h : sim.Expands false seeds ⟨⟨(sim.network.rule e).start, p, stack, placement⟩, alt⟩) :
    ∃ x ∈ heads, sim.Rests seeds ⟨⟨x.1, p, stack, placement⟩, alt⟩ := by
  obtain ⟨entry, exit, hstart, hheads⟩ := N.expressions.shape.heads
  have hentry := h.epsilon N.checked (transitions_of_unnumbered hstart)
  cases hheads with
  | @one x hh =>
    have htake := transitions_of_unnumbered hh.take
    exact ⟨x, .head _, hentry, expand_of_isConsuming N.checked htake rfl⟩
  | block hlen hc hx hheads =>
    obtain ⟨x, hx⟩ := List.exists_mem_of_length_pos (Nat.zero_lt_of_lt hlen)
    have hblock := transitions_of_unnumbered hc
    have htake := transitions_of_unnumbered (hheads x hx).take
    refine ⟨x, hx, .step hentry (expand_of_epsilons N.checked hblock (List.ne_nil_of_mem hx)) ?_,
      expand_of_isConsuming N.checked htake rfl⟩
    exact List.mem_map.2 ⟨x, hx, rfl⟩

/-- Past an operator its right operand waits, inside of a call. -/
theorem Expands.right {x : StateId × Binding} (hx : x ∈ rounds)
    (h : sim.Expands false seeds ⟨⟨x.1 + 2, p, stack, placement⟩, alt⟩) :
    ∃ y ∈ heads, sim.Rests seeds ⟨⟨y.1, x.2.floor, ⟨x.1 + 4, p⟩ :: stack, placement⟩, alt⟩ := by
  have hcall := h.epsilon N.checked (transitions_of_unnumbered (N.round hx).taken)
  exact Expands.operand N (.step hcall (expand_of_call N.checked (N.call_round hx)) (.head _))

theorem isRuleStop_basic {a : StateId} {t : Transition} (h : (sim.network.state a).transitions = [t]) :
    (sim.network.state a).isRuleStop = false := N.checked.not_stop (h ▸ List.mem_singleton_self t)

omit N in
/-- What takes a token, where each configuration waits for one. -/
theorem mem_taken_atom {set : ConfigSet} {a b : StateId} {t : TokenType} (hn : sim.network.Checked)
    (hk : Listed set.entries k alt) (hs : k.state = a)
    (ha : (sim.network.state a).transitions = [⟨b, .atom t⟩]) :
    ⟨k.moveTo b, alt⟩ ∈ sim.taken set t := by
  subst hs
  have ht : (⟨b, .atom t⟩ : Transition) ∈ (sim.network.state k.state).transitions := by
    rw [ha]
    exact .head _
  exact (mem_taken_iff hn).2 ⟨k, hk, _, ht, rfl, rfl⟩

/-- The configurations a loop starts with. What is past it stays only where no round waits. -/
inductive LoopStarts (rounds : List (StateId × Binding)) (c : StateId) (floor : Int) : Config → Prop
  | round {x : StateId × Binding} (hx : x ∈ rounds) (hp : floor ≤ x.2.level) :
      LoopStarts rounds c floor ⟨⟨x.1 + 1, floor, [], .inside⟩, 1⟩
  | outer {x : StateId × Binding} (hx : x ∈ rounds) (hp : x.2.level < floor) :
      LoopStarts rounds c floor ⟨⟨x.1 + 1, 0, [], .follow⟩, 2⟩
  | last : LoopStarts rounds c floor ⟨⟨c + 2, 0, [], .outermostFollow⟩, 2⟩

theorem listed_startSet_loop (hne : rounds ≠ []) (hd : sim.network.decisionState d = after) :
    Listed (sim.startSet false d).entries k alt ↔ LoopStarts rounds c sim.floor ⟨k, alt⟩ := by
  have hprec : (sim.network.state (sim.network.decisionState d)).precedenceDecision = true := by
    rw [hd]
    exact congrArg NetworkState.precedenceDecision (N.loop hne).entry
  rw [listed_startSet N.shaped N.checked, rests_loop N hne hd]
  constructor
  · rintro ⟨hwaits, hkept⟩
    cases hwaits with
    | round hx hp => exact .round hx hp
    | @outer x hx =>
      refine .outer hx (Int.not_le.1 fun hp => ?_)
      have hround := (rests_loop N hne hd).2 (LoopWaits.round hx hp)
      rcases hkept hprec with h | h | h
      · cases h
      · cases h
      · exact h ⟨_, hround, rfl, rfl⟩
    | last => exact .last
  · intro hstarts
    cases hstarts with
    | round hx hp => exact ⟨.round hx hp, fun _ => .inl rfl⟩
    | @outer x hx hp =>
      refine ⟨.outer hx, fun _ => .inr (.inr ?_)⟩
      rintro ⟨l, hl, hstate, -⟩
      generalize hround : (⟨l, 1⟩ : Config) = b at hl
      rw [rests_loop N hne hd] at hl
      cases hl with
      | @round y hy hpy =>
        cases hround
        obtain rfl := N.eq_of_state hy hx (Nat.succ.inj hstate)
        omega
      | outer => cases hround
      | last => cases hround
    | last => exact ⟨.last, fun _ => .inr (.inl rfl)⟩

/-- What a loop starts with waits for an operator or for the end of input. -/
theorem LoopStarts.waits (h : LoopStarts rounds c p ⟨k, alt⟩) :
    k.stack = [] ∧ (sim.network.state k.state).isRuleStop = false := by
  cases h with
  | round hx hp => exact ⟨rfl, isRuleStop_basic N (N.take_round hx)⟩
  | outer hx hp => exact ⟨rfl, isRuleStop_basic N (N.take_round hx)⟩
  | last => exact ⟨rfl, isRuleStop_basic N (N.take_end)⟩


/-- What takes a token at the start of a loop. -/
theorem taken_loop (hne : rounds ≠ []) (hd : sim.network.decisionState d = after) {b : Config}
    {token : TokenType} (hb : b ∈ sim.taken (sim.startSet false d) token) :
    (∃ x ∈ rounds, token = x.2.token ∧ b.alt = if sim.floor ≤ x.2.level then 1 else 2) ∨
      token = TokenType.eof ∧ b.alt = 2 := by
  obtain ⟨key, alt⟩ := b
  obtain ⟨k, hk, t, ht, hmatch, -⟩ := (mem_taken_iff N.checked).1 hb
  cases (listed_startSet_loop N hne hd).1 hk with
  | @round x hx hp =>
    rw [N.take_round hx, List.mem_singleton] at ht
    subst ht
    exact .inl ⟨x, hx, hmatch.symm, (if_pos hp).symm⟩
  | @outer x hx hp =>
    rw [N.take_round hx, List.mem_singleton] at ht
    subst ht
    exact .inl ⟨x, hx, hmatch.symm, (if_neg (Int.not_le.2 hp)).symm⟩
  | last =>
    rw [N.take_end, List.mem_singleton] at ht
    subst ht
    exact .inr ⟨hmatch.symm, rfl⟩

theorem waits_loop (hne : rounds ≠ []) (hd : sim.network.decisionState d = after)
    (hk : Listed (sim.startSet false d).entries k alt) :
    k.stack = [] ∧ (sim.network.state k.state).isRuleStop = false :=
  LoopStarts.waits N ((listed_startSet_loop N hne hd).1 hk)

/-- Before an operator that is not below the floor a loop goes on. -/
theorem predict_round {x : StateId × Binding} {floors : Int → Prop} {a : Automaton}
    {input : TokenCursor} (hx : x ∈ rounds) (hd : sim.network.decisionState d = after)
    (hf : floors sim.floor) (ha : a.Recorded sim.network d floors) (hkind : input.kind = x.2.token)
    (hp : sim.floor ≤ x.2.level) : (sim.predict d .sll a input).1 = .alternative 1 := by
  have hne := List.ne_nil_of_mem hx
  have halt : ∀ b ∈ sim.taken (sim.startSet false d) input.kind, b.alt = 1 := by
    intro b hb
    rcases taken_loop N hne hd hb with ⟨y, hy, htoken, halt⟩ | ⟨heof, -⟩
    · obtain rfl := N.eq_of_token hx hy (hkind.symm.trans htoken)
      rw [halt, if_pos hp]
    · exact absurd (hkind.symm.trans heof) (N.ne_eof hx)
  have htake : ⟨⟨x.1 + 2, sim.floor, [], .inside⟩, 1⟩ ∈ sim.taken (sim.startSet false d) input.kind := by
    rw [hkind]
    exact mem_taken_atom N.checked ((listed_startSet_loop N hne hd).2 (.round hx hp)) rfl
      (N.take_round hx)
  obtain ⟨y, hy, hrests⟩ := Expands.right N hx (.seed htake)
  obtain ⟨alt, rfl, hpredict⟩ := @predict_sll sim d levels floors a input (· = 1)
    (fun k => k.stack = []) N.shaped N.checked N.free hf ha
    (fun floor k alt hk => @waits_loop (sim.network.bare floor) _ _ _ _ _ _ _ _ _ _ N hne hd hk) halt
    (.inl ⟨1, halt⟩) ⟨_, hrests, nofun, fun heof => absurd (hkind.symm.trans heof) (N.ne_eof hx)⟩
  exact hpredict

theorem isRuleStop_start : (sim.network.state (sim.network.rule s).stop).isRuleStop = true := by
  rw [NetworkState.isRuleStop, (N.shaped.rule s N.start_lt).stop_kind]
  rfl

/-- Past the end of input the start rule ends, and nothing calls it. -/
theorem Expands.finish (h : sim.Expands false seeds ⟨⟨c + 3, p, [], placement⟩, alt⟩) :
    sim.Rests seeds ⟨⟨(sim.network.rule s).stop, p, [], placement⟩, alt⟩ := by
  have htaken := transitions_of_unnumbered N.expressions.start.taken
  refine ⟨h.epsilon N.checked htaken, ?_⟩
  rw [expand_of_isRuleStop (isRuleStop_start N) rfl, (N.shaped.rule s N.start_lt).stop_rule]
  exact if_pos (by simp [unknownReturns, N.uncalled])

/-- Before an operator below the floor, and before the end of input, a loop is left. -/
theorem predict_exit {floors : Int → Prop} {a : Automaton} {input : TokenCursor} (hne : rounds ≠ [])
    (hd : sim.network.decisionState d = after) (hf : floors sim.floor)
    (ha : a.Recorded sim.network d floors)
    (hkind : (∃ x ∈ rounds, input.kind = x.2.token ∧ x.2.level < sim.floor) ∨
      input.kind = TokenType.eof) : (sim.predict d .sll a input).1 = .alternative 2 := by
  have halt : ∀ b ∈ sim.taken (sim.startSet false d) input.kind, b.alt = 2 := by
    intro b hb
    rcases taken_loop N hne hd hb with ⟨y, hy, htoken, halt⟩ | ⟨-, halt⟩
    · rcases hkind with ⟨x, hx, hkind, hp⟩ | heof
      · obtain rfl := N.eq_of_token hx hy (hkind.symm.trans htoken)
        rw [halt, if_neg (Int.not_le.2 hp)]
      · exact absurd (htoken.symm.trans heof) (N.ne_eof hy)
    · exact halt
  have hnew : ∃ b, sim.Rests (sim.taken (sim.startSet false d) input.kind) b ∧
      ¬ (b.key.stack = [] ∧ (sim.network.state b.key.state).isRuleStop = false) ∧
      (input.kind = TokenType.eof → (sim.network.state b.key.state).isRuleStop = true) := by
    rcases hkind with ⟨x, hx, hkind, hp⟩ | heof
    · have htake : ⟨⟨x.1 + 2, 0, [], .follow⟩, 2⟩ ∈
          sim.taken (sim.startSet false d) input.kind := by
        rw [hkind]
        exact mem_taken_atom N.checked ((listed_startSet_loop N hne hd).2 (.outer hx hp)) rfl
          (N.take_round hx)
      obtain ⟨y, hy, hrests⟩ := Expands.right N hx (.seed htake)
      exact ⟨_, hrests, fun h => List.cons_ne_nil _ _ h.1,
        fun heof => absurd (hkind.symm.trans heof) (N.ne_eof hx)⟩
    · have htake : ⟨⟨c + 3, 0, [], .outermostFollow⟩, 2⟩ ∈
          sim.taken (sim.startSet false d) input.kind := by
        rw [heof]
        exact mem_taken_atom N.checked ((listed_startSet_loop N hne hd).2 .last) rfl N.take_end
      have hstop := isRuleStop_start N
      refine ⟨_, Expands.finish N (.seed htake), ?_, fun _ => hstop⟩
      rintro ⟨-, hnot⟩
      rw [hstop] at hnot
      cases hnot
  obtain ⟨b, hrests, hnew, heof⟩ := hnew
  obtain ⟨alt, rfl, hpredict⟩ := @predict_sll sim d levels floors a input (· = 2)
    (fun k => k.stack = [] ∧ (sim.network.state k.state).isRuleStop = false) N.shaped N.checked N.free
    hf ha (fun floor k alt hk =>
      have h := @waits_loop (sim.network.bare floor) _ _ _ _ _ _ _ _ _ _ N hne hd hk
      ⟨h, h.2⟩) halt
    (.inl ⟨2, halt⟩) ⟨b, hrests, hnew, heof⟩
  exact hpredict

/-- The decision between operators starts with those that are not below the floor. -/
theorem listed_startSet_choice (hd : sim.network.decisionState d = after + 1) (hne : rounds ≠ []) :
    Listed (sim.startSet false d).entries k alt ↔ ∃ i x, rounds[i]? = some x ∧
      sim.floor ≤ x.2.level ∧ k = ⟨x.1 + 1, sim.floor, [], .inside⟩ ∧ alt = i + 1 := by
  have hchoice := (N.loop hne).choice
  have hedges : (sim.network.state (sim.network.decisionState d)).transitions =
      rounds.map fun x => .epsilon x.1 := hd ▸ transitions_of_unnumbered hchoice
  have hprec : (sim.network.state (sim.network.decisionState d)).precedenceDecision = false := by
    rw [hd]
    exact congrArg NetworkState.precedenceDecision hchoice
  have hguard : ∀ i x, rounds[i]? = some x → sim.expand false ⟨⟨x.1, sim.floor, [], .inside⟩, i + 1⟩ =
      .inl (if sim.floor ≤ x.2.level then [⟨⟨x.1 + 1, sim.floor, [], .inside⟩, i + 1⟩] else []) :=
    fun i x hx => expand_of_precedence N.checked
      (transitions_of_unnumbered (N.round (List.mem_of_getElem? hx)).guard)
  have htake : ∀ i x, rounds[i]? = some x → sim.expand false ⟨⟨x.1 + 1, sim.floor, [], .inside⟩, i + 1⟩ =
      .inr ⟨⟨x.1 + 1, sim.floor, [], .inside⟩, i + 1⟩ := fun i x hx =>
    expand_of_isConsuming N.checked (N.take_round (List.mem_of_getElem? hx)) rfl
  rw [listed_startSet N.shaped N.checked, hprec]
  constructor
  · rintro ⟨⟨hexpands, hrest⟩, -⟩
    have hconfig : ∀ b, sim.Expands false (sim.startSeeds d) b → ∃ i x, rounds[i]? = some x ∧
        (b = ⟨⟨x.1, sim.floor, [], .inside⟩, i + 1⟩ ∨
          sim.floor ≤ x.2.level ∧ b = ⟨⟨x.1 + 1, sim.floor, [], .inside⟩, i + 1⟩) := by
      intro b hb
      induction hb with
      | seed hb =>
        obtain ⟨i, x, hx, rfl⟩ := (mem_startSeeds hedges).1 hb
        exact ⟨i, x, hx, .inl rfl⟩
      | step _ he hb ih =>
        obtain ⟨i, x, hx, rfl | ⟨-, rfl⟩⟩ := ih
        · rw [hguard i x hx] at he
          cases he
          split at hb
          · exact ⟨i, x, hx, .inr ⟨‹_›, List.mem_singleton.1 hb⟩⟩
          · cases hb
        · rw [htake i x hx] at he
          cases he
    obtain ⟨i, x, hx, heq | ⟨hp, heq⟩⟩ := hconfig _ hexpands
    · rw [heq, hguard i x hx] at hrest
      cases hrest
    · cases heq
      exact ⟨i, x, hx, hp, rfl, rfl⟩
  · rintro ⟨i, x, hx, hp, rfl, rfl⟩
    refine ⟨⟨.step (.seed ((mem_startSeeds hedges).2 ⟨i, x, hx, rfl⟩)) (hguard i x hx) ?_,
      htake i x hx⟩, nofun⟩
    rw [if_pos hp]
    exact .head _

theorem waits_choice (hne : rounds ≠ []) (hd : sim.network.decisionState d = after + 1)
    (hk : Listed (sim.startSet false d).entries k alt) :
    k.stack = [] ∧ (sim.network.state k.state).isRuleStop = false := by
  obtain ⟨i, x, hx, -, rfl, -⟩ := (listed_startSet_choice N hd hne).1 hk
  exact ⟨rfl, isRuleStop_basic N (N.take_round (List.mem_of_getElem? hx))⟩

/-- Of several operators the one that comes next is chosen. -/
theorem predict_choice {x : StateId × Binding} {i : Nat} {floors : Int → Prop} {a : Automaton}
    {input : TokenCursor} (hx : rounds[i]? = some x) (hd : sim.network.decisionState d = after + 1)
    (hf : floors sim.floor) (ha : a.Recorded sim.network d floors) (hkind : input.kind = x.2.token)
    (hp : sim.floor ≤ x.2.level) : (sim.predict d .sll a input).1 = .alternative (i + 1) := by
  have hmem := List.mem_of_getElem? hx
  have hne := List.ne_nil_of_mem hmem
  have halt : ∀ b ∈ sim.taken (sim.startSet false d) input.kind, b.alt = i + 1 := by
    intro b hb
    obtain ⟨k, hk, t, ht, hmatch, -⟩ := (mem_taken_iff N.checked).1 hb
    obtain ⟨j, y, hy, -, rfl, halt⟩ := (listed_startSet_choice N hd hne).1 hk
    have hmem' := List.mem_of_getElem? hy
    rw [N.take_round hmem', List.mem_singleton] at ht
    subst ht
    obtain rfl := N.eq_of_token hmem hmem' (hkind.symm.trans hmatch.symm)
    rw [halt, N.index_unique hx hy]
  have htake : ⟨⟨x.1 + 2, sim.floor, [], .inside⟩, i + 1⟩ ∈
      sim.taken (sim.startSet false d) input.kind := by
    rw [hkind]
    exact mem_taken_atom N.checked ((listed_startSet_choice N hd hne).2 ⟨i, x, hx, hp, rfl, rfl⟩) rfl
      (N.take_round hmem)
  obtain ⟨y, hy, hrests⟩ := Expands.right N hmem (.seed htake)
  obtain ⟨alt, rfl, hpredict⟩ := @predict_sll sim d levels floors a input (· = i + 1)
    (fun k => k.stack = []) N.shaped N.checked N.free hf ha
    (fun floor k alt hk => @waits_choice (sim.network.bare floor) _ _ _ _ _ _ _ _ _ _ N hne hd hk) halt
    (.inl ⟨i + 1, halt⟩) ⟨_, hrests, nofun, fun heof => absurd (hkind.symm.trans heof) (N.ne_eof hmem)⟩
  exact hpredict

/-- The decision between operands starts with all of them. -/
theorem listed_startSet_operand {entry exit : StateId} (hlen : 1 < heads.length)
    (hheads : HeadsAt (fun a => (sim.network.state a).unnumbered) e [.epsilon after] heads entry exit)
    (hd : sim.network.decisionState d = entry) :
    Listed (sim.startSet false d).entries k alt ↔
      ∃ i h, heads[i]? = some h ∧ k = ⟨h.1, sim.floor, [], .inside⟩ ∧ alt = i + 1 := by
  cases hheads with
  | one => exact absurd hlen (Nat.lt_irrefl 1)
  | block _ hblock _ hheads =>
    have hedges : (sim.network.state (sim.network.decisionState d)).transitions =
        heads.map fun h => .epsilon h.1 := hd ▸ transitions_of_unnumbered hblock
    have hprec : (sim.network.state (sim.network.decisionState d)).precedenceDecision = false := by
      rw [hd]
      exact congrArg NetworkState.precedenceDecision hblock
    have htake : ∀ i h, heads[i]? = some h → sim.expand false ⟨⟨h.1, sim.floor, [], .inside⟩, i + 1⟩ =
        .inr ⟨⟨h.1, sim.floor, [], .inside⟩, i + 1⟩ := fun i h hh =>
      expand_of_isConsuming N.checked
        (transitions_of_unnumbered (hheads h (List.mem_of_getElem? hh)).take) rfl
    rw [listed_startSet N.shaped N.checked, hprec]
    constructor
    · rintro ⟨⟨hexpands, -⟩, -⟩
      have hconfig : ∀ b, sim.Expands false (sim.startSeeds d) b → ∃ i h, heads[i]? = some h ∧
          b = ⟨⟨h.1, sim.floor, [], .inside⟩, i + 1⟩ := by
        intro b hb
        induction hb with
        | seed hb => exact (mem_startSeeds hedges).1 hb
        | step _ he _ ih =>
          obtain ⟨i, h, hh, rfl⟩ := ih
          rw [htake i h hh] at he
          cases he
      obtain ⟨i, h, hh, heq⟩ := hconfig _ hexpands
      cases heq
      exact ⟨i, h, hh, rfl, rfl⟩
    · rintro ⟨i, h, hh, rfl, rfl⟩
      exact ⟨⟨.seed ((mem_startSeeds hedges).2 ⟨i, h, hh, rfl⟩), htake i h hh⟩, nofun⟩

/-- Of several operands one that comes next is chosen. -/
theorem predict_operand {entry exit : StateId} {floors : Int → Prop} {a : Automaton}
    {input : TokenCursor} {h : StateId × TokenType} (hlen : 1 < heads.length)
    (hheads : HeadsAt (fun a => (sim.network.state a).unnumbered) e [.epsilon after] heads entry exit)
    (hd : sim.network.decisionState d = entry) (hf : floors sim.floor)
    (ha : a.Recorded sim.network d floors) (hh : h ∈ heads) (hkind : input.kind = h.2) :
    ∃ i x, heads[i]? = some x ∧ x.2 = input.kind ∧
      (sim.predict d .sll a input).1 = .alternative (i + 1) := by
  have hlisted : ∀ sim' : Simulation, sim'.network = sim.network → ∀ k alt,
      Listed (sim'.startSet false d).entries k alt ↔
        ∃ i h, heads[i]? = some h ∧ k = ⟨h.1, sim'.floor, [], .inside⟩ ∧ alt = i + 1 := by
    intro sim' hn k alt
    rw [← hn] at N hheads hd
    exact listed_startSet_operand N hlen hheads hd
  cases hheads with
  | one => exact absurd hlen (Nat.lt_irrefl 1)
  | block _ hblock hx hheads =>
    have hedge : ∀ y ∈ heads, (sim.network.state y.1).transitions = [⟨y.1 + 1, .atom y.2⟩] := fun y hy =>
      transitions_of_unnumbered (hheads y hy).take
    have hold : ∀ floor k alt, Listed (sim.network.firstSet d floor).entries k alt →
        (∃ y ∈ heads, k.state = y.1) ∧ (sim.network.state k.state).isRuleStop = false := by
      intro floor k alt hk
      obtain ⟨i, y, hy, rfl, -⟩ := (hlisted (sim.network.bare floor) rfl k alt).1 hk
      have hmem := List.mem_of_getElem? hy
      exact ⟨⟨y, hmem, rfl⟩, isRuleStop_basic N (hedge y hmem)⟩
    have htaken : ∀ b ∈ sim.taken (sim.startSet false d) input.kind, ∃ i y, heads[i]? = some y ∧
        y.2 = input.kind ∧ b = ⟨⟨y.1 + 1, sim.floor, [], .inside⟩, i + 1⟩ := by
      rintro ⟨key, alt⟩ hb
      obtain ⟨k, hk, t, ht, hmatch, hkey⟩ := (mem_taken_iff N.checked).1 hb
      obtain ⟨i, y, hy, rfl, rfl⟩ := (hlisted sim rfl k alt).1 hk
      rw [hedge y (List.mem_of_getElem? hy), List.mem_singleton] at ht
      subst ht
      exact ⟨i, y, hy, hmatch, by rw [show key = _ from hkey]; rfl⟩
    have hkey : ∀ b ∈ sim.taken (sim.startSet false d) input.kind,
        sim.expand false b = .inl [⟨⟨exit, sim.floor, [], .inside⟩, b.alt⟩] := by
      intro b hb
      obtain ⟨i, y, hy, -, rfl⟩ := htaken b hb
      exact expand_of_epsilon N.checked
        (transitions_of_unnumbered (hheads y (List.mem_of_getElem? hy)).taken)
    obtain ⟨i, hi⟩ := List.mem_iff_getElem?.1 hh
    have htake : ⟨⟨h.1 + 1, sim.floor, [], .inside⟩, i + 1⟩ ∈
        sim.taken (sim.startSet false d) input.kind := by
      rw [hkind]
      exact mem_taken_atom N.checked ((hlisted sim rfl _ _).2 ⟨i, h, hi, rfl, rfl⟩) rfl (hedge h hh)
    have hlast : sim.Rests (sim.taken (sim.startSet false d) input.kind)
        ⟨⟨c + 2, 0, [], outside rounds⟩, i + 1⟩ := by
      have hblock : sim.Expands false (sim.taken (sim.startSet false d) input.kind)
          ⟨⟨exit, sim.floor, [], .inside⟩, i + 1⟩ := .step (.seed htake) (hkey _ htake) (.head _)
      have hafter := hblock.epsilon N.checked (transitions_of_unnumbered hx)
      by_cases hne : rounds = []
      · rw [N.after_eq hne] at hafter
        exact hafter.last N
      · exact (hafter.again N hne).2.last N
    have huser : ∀ y ∈ heads, y.2 ≠ TokenType.eof := by
      intro y hy heof
      have huser := N.operands y hy
      rw [heof] at huser
      exact absurd huser (by decide)
    have hnew : ¬ ∃ y ∈ heads, c + 2 = y.1 := by
      rintro ⟨y, hy, hstate⟩
      have hedge := hedge y hy
      rw [← hstate, N.take_end] at hedge
      exact huser y hy (by simpa using hedge.symm)
    obtain ⟨alt, ⟨j, y, hy, htoken, rfl⟩, hpredict⟩ := @predict_sll sim d levels floors a input
      (fun alt => ∃ i y, heads[i]? = some y ∧ y.2 = input.kind ∧ alt = i + 1)
      (fun k => ∃ y ∈ heads, k.state = y.1) N.shaped N.checked N.free hf ha hold
      (fun b hb =>
        have ⟨i, y, hy, htoken, heq⟩ := htaken b hb
        ⟨i, y, hy, htoken, heq ▸ rfl⟩)
      (.inr ⟨_, hkey⟩) ⟨_, hlast, hnew, fun heof => absurd (hkind.symm.trans heof) (huser h hh)⟩
    exact ⟨j, y, hy, htoken, hpredict⟩

end Simulation

end AdaptiveParsing
