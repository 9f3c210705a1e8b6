import AdaptiveParsing.Proofs.Network.Infix
/-!
The network of expressions. A grammar has a rule of operands and operators and a start rule that calls it and
then takes the end of input (`Grammar.Infix`). Its network has the states of both rules, and nothing else
calls the former (`Network.Expressions`). Main statement: `Grammar.expressions_compile`.
-/

namespace AdaptiveParsing

open Draft DraftM RuleBody

/-- A rule that calls another one, which starts at `entry`, and then takes the end of input. -/
structure StartShape (σ : StateId → NetworkState) (s : RuleId) (rule : Rule) (e : RuleId)
    (entry c : StateId) : Prop where
  start : σ rule.start = { kind := .ruleStart, rule := s, transitions := [.epsilon c] }
  call : σ c = .basic s [⟨entry, .rule e (c + 1) 0⟩]
  back : σ (c + 1) = .basic s [.epsilon (c + 2)]
  take : σ (c + 2) = .basic s [⟨c + 3, .atom TokenType.eof⟩]
  taken : σ (c + 3) = .basic s [.epsilon rule.stop]
  plain : rule.leftRecursive = false
  calls : ∀ a, (σ a).rule = s → ∀ t ∈ (σ a).transitions, t.call? ≠ none → a = c

theorem StartShape.congr {σ σ' : StateId → NetworkState} {s e : RuleId} {rule rule' : Rule}
    {entry c : StateId} (h : StartShape σ s rule e entry c) (he : SameRule s σ σ')
    (hrule : rule.Same rule') : StartShape σ' s rule' e entry c where
  start := by
    rw [hrule.1]
    exact he.edges.state h.start rfl nofun rfl
  call := he.edges.state h.call rfl nofun rfl
  back := he.edges.state h.back rfl nofun rfl
  take := he.edges.state h.take rfl nofun rfl
  taken := by
    rw [hrule.2.1]
    exact he.edges.state h.taken rfl nofun rfl
  plain := hrule.2.2.trans h.plain
  calls := by
    intro a ha t ht hc
    obtain ⟨hr, hts⟩ := he.back a ha (List.ne_nil_of_mem ht)
    exact h.calls a hr t (hts ▸ ht) hc

/-- The body of a rule that calls `e` and then takes the end of input. -/
def startBody (e : RuleId) : RuleBody := .plain (.seq [.rule e, .token TokenType.eof])

variable {d d' : Draft} {r s e : RuleId} {σ σ' : StateId → NetworkState}

/-- A call and the end of input after it, with the states they are lowered to. -/
theorem lower_callEof (s e : RuleId) (d : Draft) :
    ((Element.seq [.rule e, .token TokenType.eof]).lower s).run d =
      let d₁ := ((call s e 0).run d).2
      (⟨d.states.size, d.states.size + 3⟩,
        ((single s (.atom TokenType.eof)).run d₁).2.addEpsilon (d.states.size + 1)
          (d.states.size + 2)) := by
  have hsize : ((call s e 0).run d).2.states.size = d.states.size + 2 := by
    rw [call_run, size_addTransition, size_pair]
  have hcall : ((call s e 0).run d).1 = ⟨d.states.size, d.states.size + 1⟩ := by rw [call_run]
  have htake : ((single s (.atom TokenType.eof)).run ((call s e 0).run d).2).1 =
      ⟨d.states.size + 2, d.states.size + 3⟩ := by
    rw [single_run, hsize]
  show (chain ((call s e 0).run d).1
    [((single s (.atom TokenType.eof)).run ((call s e 0).run d).2).1]).run
      ((single s (.atom TokenType.eof)).run ((call s e 0).run d).2).2 = _
  rw [chain_cons, hcall, htake]
  rfl

/-- The states of a call and the end of input after it. -/
theorem state_callEof (s e : RuleId) (d : Draft) (a : StateId) :
    let c := d.states.size
    (((Element.seq [.rule e, .token TokenType.eof]).lower s).run d).2.state a =
      if a = c then .basic s [⟨(d.rule e).start, .rule e (c + 1) 0⟩]
      else if a = c + 1 then .basic s [.epsilon (c + 2)]
      else if a = c + 2 then .basic s [⟨c + 3, .atom TokenType.eof⟩]
      else if a = c + 3 then .basic s [] else d.state a := by
  have hsize : ((call s e 0).run d).2.states.size = d.states.size + 2 := by
    rw [call_run, size_addTransition, size_pair]
  have hcall : ∀ a, ((call s e 0).run d).2.state a =
      if a = d.states.size then .basic s [⟨(d.rule e).start, .rule e (d.states.size + 1) 0⟩]
      else if a = d.states.size + 1 then .basic s [] else d.state a := fun a => by
    rw [call_run, state_addTransition (by rw [size_pair]; lia), state_pair]
    grind [NetworkState.basic]
  have htake := fun a => @state_single s (.atom TokenType.eof) ((call s e 0).run d).2 a
  have hsize' : ((single s (.atom TokenType.eof)).run ((call s e 0).run d).2).2.states.size =
      d.states.size + 4 := by
    rw [single_run, size_addTransition, size_pair, hsize]
  rw [lower_callEof]
  dsimp only
  rw [Draft.addEpsilon, state_addTransition (by lia), htake, hcall, hsize]
  grind [NetworkState.basic]

/-- The rule that calls `e` is lowered to four states between its start and its stop. -/
theorem Draft.Fresh.start_lower {name : String} (h : d.Fresh s)
    (hrun : runOn ((startBody e).lower name s) d = (.ok (), d')) :
    StartShape d'.state s (d'.rule s).toRule e (d.rule e).start d.states.size := by
  have ha := Element.adds_lower s (.seq [.rule e, .token TokenType.eof]) d
  have hstate := state_callEof s e d
  have hpart := lower_callEof s e d
  rw [startBody, lower_plain] at hrun
  obtain rfl := (Prod.mk.inj hrun).2
  have hfirst : (((Element.seq [.rule e, .token TokenType.eof]).lower s).run d).1 =
      ⟨d.states.size, d.states.size + 3⟩ := by rw [hpart]
  clear hpart hrun
  generalize ((Element.seq [.rule e, .token TokenType.eof]).lower s).run d = part at *
  obtain ⟨f, d₁⟩ := part
  dsimp only at hstate hfirst
  subst hfirst
  dsimp only
  have hr := ha.grows.rules s
  have hstart : (d₁.rule s).start = (d.rule s).start := congrArg Rule.start hr
  have hstop : (d₁.rule s).stop = (d.rule s).stop := congrArg Rule.stop hr
  have hplain : (d₁.rule s).leftRecursive = (d.rule s).leftRecursive :=
    congrArg Rule.leftRecursive hr
  have hsize := ha.holds.exit_lt
  have hlt := h.start_lt
  have hlt' := h.stop_lt
  dsimp only at hr hsize
  rw [hstart, hstop]
  have hend : ∀ a, ((d₁.addEpsilon (d.rule s).start d.states.size).addEpsilon (d.states.size + 3)
      (d.rule s).stop).state a =
      if a = d.states.size + 3 then .basic s [.epsilon (d.rule s).stop]
      else if a = (d.rule s).start then
        { kind := .ruleStart, rule := s, transitions := [.epsilon d.states.size] }
      else d₁.state a := fun a => by
    unfold Draft.addEpsilon
    rw [state_addTransition (by rwa [size_addTransition]), state_addTransition (by lia), hstate]
    have hbegin := h.start_state
    grind [NetworkState.basic]
  have hrule : ((((d₁.addEpsilon (d.rule s).start d.states.size).addEpsilon (d.states.size + 3)
      (d.rule s).stop)).rule s).toRule = (d.rule s).toRule := by
    unfold Draft.addEpsilon
    rw [rule_addTransition, rule_addTransition]
    exact hr
  rw [hrule]
  generalize (d₁.addEpsilon _ _).addEpsilon _ _ = d' at *
  refine ⟨?_, ?_, ?_, ?_, ?_, h.plain, ?_⟩
  · rw [hend, if_neg (by lia), if_pos rfl]
  · rw [hend, if_neg (by lia), if_neg (by lia), hstate, if_pos rfl]
  · rw [hend, if_neg (by lia), if_neg (by lia), hstate, if_neg (by lia), if_pos rfl]
  · rw [hend, if_neg (by lia), if_neg (by lia), hstate, if_neg (by lia), if_neg (by lia), if_pos rfl]
  · rw [hend, if_pos rfl]
  · intro a hs t ht hc
    rw [hend, hstate] at hs ht
    by_contra hne
    -- a state that was there before has no edge but that of the start
    have hold : a ≠ (d.rule s).start → (d.state a).rule = s → (d.state a).transitions = [] := by
      intro hstart hr
      by_cases hlt : a < d.states.size
      · rcases h.only a hlt hr with rfl | rfl
        · exact absurd rfl hstart
        · rw [h.stop_state]
      · rw [state_of_size_le (Nat.le_of_not_lt hlt)]
        rfl
    rw [if_neg hne] at hs ht
    by_cases hbegin : a = (d.rule s).start
    · rw [if_neg (by lia), if_pos hbegin] at ht
      exact hc (List.mem_singleton.1 ht ▸ rfl)
    · rw [if_neg hbegin] at hs ht
      split_ifs at hs ht
      case neg => rw [hold hbegin hs] at ht; cases ht
      all_goals exact hc (List.mem_singleton.1 ht ▸ rfl)

/-- Lowering another rule leaves a rule as it is. -/
theorem Draft.Untouched.sameRule (h : Untouched r d d') (hne : s ≠ r) : SameRule s d.state d'.state where
  edges := fun a ha ht _ => by
    obtain ⟨t, ht⟩ := List.exists_mem_of_ne_nil _ ht
    exact h.old a (lt_of_edge ht) (ha ▸ hne)
  back := fun a ha _ => by
    have he := h.state_eq hne ha
    exact ⟨he ▸ ha, congrArg NetworkState.transitions he.symm⟩

theorem Draft.Untouched.same (h : Untouched r d d') (hne : s ≠ r) :
    (d.rule s).toRule.Same (d'.rule s).toRule := ⟨(h.ends s).1, (h.ends s).2, h.kind s hne⟩

/-- Numbering decisions leaves a rule as it is. -/
theorem sameRule_unnumbered (h : ∀ a, (σ' a).unnumbered = (σ a).unnumbered) :
    SameRule r σ fun a => (σ' a).unnumbered where
  edges := fun a _ _ hd => by
    refine (h a).trans ?_
    unfold NetworkState.unnumbered
    rw [← hd]
  back := fun a ha _ => by
    obtain ⟨-, hr, ht, -⟩ := NetworkState.fields_of_unnumbered (h a)
    exact ⟨hr ▸ ha, ht.symm⟩

/-- Rule `e` has operands and operators, rule `s` calls it and then takes the end of input, and other rules
have nothing to do with these. -/
structure Grammar.Infix (g : Grammar) (e s : RuleId) (l : List InfixAlternative) : Prop where
  expression : ∃ rule, g.rules[e]? = some rule ∧
    rule.body = some (.leftRecursive (l.map InfixAlternative.alternative))
  start : ∃ rule, g.rules[s]? = some rule ∧ rule.body = some (startBody e)
  others : ∀ r leaf, r ≠ e → r ≠ s → g.HasLeaf r leaf →
    leaf.callee? ≠ some e ∧ leaf.callee? ≠ some s ∧ leaf.takesEof = false ∧ leaf.isPredicate = false
  distinct : ((InfixAlternative.bindings l).map Binding.token).Nodup
  disjoint : ∀ t ∈ InfixAlternative.operands l, t ∉ (InfixAlternative.bindings l).map Binding.token
  users : ∀ t, t ∈ InfixAlternative.operands l ∨
    t ∈ (InfixAlternative.bindings l).map Binding.token → TokenType.firstUser ≤ t

namespace Grammar.Infix

variable {g : Grammar} {l : List InfixAlternative}

theorem ne (h : g.Infix e s l) : e ≠ s := by
  rintro rfl
  obtain ⟨rule, hrule, hbody⟩ := h.expression
  obtain ⟨rule', hrule', hbody'⟩ := h.start
  obtain rfl := Option.some.inj (hrule.symm.trans hrule')
  rw [hbody] at hbody'
  cases hbody'

/-- The elements of the rule of operands and operators are their tokens. -/
theorem leaf_token {leaf : Element} (h : g.Infix e s l) (hl : g.HasLeaf e leaf) :
    ∃ t, leaf = .token t ∧ TokenType.firstUser ≤ t := by
  obtain ⟨rule, body, hrule, hbody, hmem⟩ := hl
  obtain ⟨rule', hrule', hbody'⟩ := h.expression
  obtain rfl := Option.some.inj (hrule.symm.trans hrule')
  obtain rfl := Option.some.inj (hbody.symm.trans hbody')
  have htoken : ∀ l : List InfixAlternative,
      leaf ∈ (RuleBody.leftRecursive (l.map InfixAlternative.alternative)).leaves →
        ∃ t, leaf = .token t ∧ (t ∈ InfixAlternative.operands l ∨
          t ∈ (InfixAlternative.bindings l).map Binding.token) := by
    intro l hmem
    rw [RuleBody.leaves] at hmem
    induction l with
    | nil => cases hmem
    | cons a l ih =>
      rw [List.map_cons, List.flatMap_cons, List.mem_append] at hmem
      cases a with
      | operand t =>
        rcases hmem with hmem | hmem
        · exact ⟨t, List.mem_singleton.1 hmem, .inl (.head _)⟩
        · obtain ⟨u, hu, hin⟩ := ih hmem
          exact ⟨u, hu, hin.imp_left (List.mem_cons_of_mem t)⟩
      | operator associativity t =>
        rcases hmem with hmem | hmem
        · exact ⟨t, List.mem_singleton.1 hmem, .inr (.head _)⟩
        · obtain ⟨u, hu, hin⟩ := ih hmem
          exact ⟨u, hu, hin.imp_right (List.mem_cons_of_mem t)⟩
  obtain ⟨t, rfl, ht⟩ := htoken l hmem
  exact ⟨t, rfl, h.users t ht⟩

theorem leaf_start {leaf : Element} (h : g.Infix e s l) (hl : g.HasLeaf s leaf) :
    leaf = .rule e ∨ leaf = .token TokenType.eof := by
  obtain ⟨rule, body, hrule, hbody, hmem⟩ := hl
  obtain ⟨rule', hrule', hbody'⟩ := h.start
  obtain rfl := Option.some.inj (hrule.symm.trans hrule')
  obtain rfl := Option.some.inj (hbody.symm.trans hbody')
  simpa [startBody, RuleBody.leaves, Element.leaves, Element.leavesAll] using hmem

theorem closedBy (h : g.Infix e s l) : g.ClosedBy s [.rule e] where
  body := h.start
  items := by simp [Element.leavesAll, Element.leaves, Element.takesEof]
  others := by
    intro r leaf hne hl
    by_cases he : r = e
    · obtain ⟨t, rfl, ht⟩ := h.leaf_token (he ▸ hl)
      rw [Element.takesEof, ← Bool.not_eq_true, TokenType.isEof_iff]
      rintro rfl
      exact absurd ht (by decide)
    · exact (h.others r leaf he hne hl).2.2.1
  uncalled := by
    intro r leaf hl
    by_cases he : r = e
    · obtain ⟨t, rfl, -⟩ := h.leaf_token (he ▸ hl)
      simp [Element.callee?]
    by_cases hs : r = s
    · rcases h.leaf_start (hs ▸ hl) with rfl | rfl
      · exact fun hc => h.ne (Option.some.inj hc)
      · simp [Element.callee?]
    · exact (h.others r leaf he hs hl).2.1

theorem predicateFree (h : g.Infix e s l) : g.PredicateFree := by
  intro r leaf hl
  by_cases he : r = e
  · obtain ⟨t, rfl, -⟩ := h.leaf_token (he ▸ hl)
    rfl
  by_cases hs : r = s
  · rcases h.leaf_start (hs ▸ hl) with rfl | rfl <;> rfl
  · exact (h.others r leaf he hs hl).2.2.2

end Grammar.Infix

/-- The states of both rules, and that nothing else calls the one of operands and operators. -/
structure Network.Expressions (n : Network) (e s : RuleId) (heads : List (StateId × TokenType))
    (rounds : List (StateId × Binding)) (after c : StateId) : Prop where
  shape : InfixShape (fun a => (n.state a).unnumbered) e (n.rule e) heads rounds after
  start : StartShape (fun a => (n.state a).unnumbered) s (n.rule s) e (n.rule e).start c
  callers : ∀ a, ∀ t ∈ (n.state a).transitions, ∀ follow precedence,
    t.kind = .rule e follow precedence → (∃ x ∈ rounds, a = x.1 + 3) ∨ a = c
  ne : e ≠ s

/-- No rule but these calls `e`. -/
def Draft.OnlyCalledBy (d : Draft) (e s : RuleId) : Prop :=
  ∀ a, (d.state a).rule ≠ e → (d.state a).rule ≠ s → ∀ t ∈ (d.state a).transitions,
    ∀ follow precedence, t.kind ≠ .rule e follow precedence

/-- Lowering a rule that does not call `e` adds no call of it. -/
theorem Draft.OnlyCalledBy.lower {rule : GrammarRule} (hI : d.OnlyCalledBy e s) (h : d.Fresh r)
    (hd : d.CallsAlone) (hrun : runOn (rule.lower r) d = (.ok (), d'))
    (hleaf : r ≠ e → r ≠ s → ∀ body, rule.body = some body → ∀ leaf ∈ body.leaves,
      leaf.callee? ≠ some e) : d'.OnlyCalledBy e s := by
  obtain ⟨-, rfl | hu, -⟩ := GrammarRule.shape_lower h hd hrun
  · exact hI
  intro a hae has t ht
  by_cases har : (d'.state a).rule = r
  · rw [har] at hae has
    cases hb : rule.body with
    | none =>
      rw [GrammarRule.lower_none hb] at hrun
      obtain rfl := (Prod.mk.inj hrun).2
      exact hI a (har ▸ hae) (har ▸ has) t ht
    | some body =>
      rw [GrammarRule.lower_some hb] at hrun
      -- an edge is an old one of another rule, or no call of `e`
      have honly : d'.Only fun a k => (a < d.states.size ∧ (d.state a).rule ≠ r) ∨
          ∀ follow precedence, k ≠ .rule e follow precedence := by
        refine RuleBody.only_lower r (fun _ => .inr nofun) (fun _ _ => .inr nofun)
          (fun _ _ _ _ _ => .inr fun _ _ hk => hae (by cases hk; rfl)) ?_ ?_ hrun
        · intro leaf hl a follow
          refine .inr fun follow' precedence hk => hleaf hae has body hb leaf hl ?_
          cases leaf <;> cases hk
          rfl
        · intro a t ht
          refine .inl ⟨lt_of_edge ht, fun hr => ?_⟩
          rcases h.only a (lt_of_edge ht) hr with rfl | rfl
          · rw [h.start_state] at ht
            cases ht
          · rw [h.stop_state] at ht
            cases ht
      rcases honly a t ht with ⟨hlt, hne⟩ | hne
      · exact absurd (hu.old a hlt hne ▸ har) hne
      · exact hne
  · rw [hu.state_eq har rfl] at hae has ht
    exact hI a hae has t ht

/-- What the draft of expressions holds once the first `k` rules have been lowered. -/
structure Draft.Holding (e s : RuleId) (l : List InfixAlternative) (k : Nat) (d : Draft) : Prop where
  shape : e < k → ∃ heads rounds after, heads.map Prod.snd = InfixAlternative.operands l ∧
    rounds.map Prod.snd = InfixAlternative.bindings l ∧
    InfixShape d.state e (d.rule e).toRule heads rounds after
  start : s < k → ∃ c, StartShape d.state s (d.rule s).toRule e (d.rule e).start c
  callers : d.OnlyCalledBy e s

theorem Grammar.Infix.holding {g : Grammar} {l : List InfixAlternative} (hg : g.Infix e s l)
    (h : g.draft = .ok d) : d.Holding e s l g.rules.size := by
  refine draft_induct h (I := Draft.Holding e s l) ?_ ?_
  · intro d hd _
    refine ⟨nofun, nofun, fun a _ _ t ht => ?_⟩
    rw [hd.edgeless] at ht
    cases ht
  · intro k rule d d' hk hfresh halone hrun hI
    obtain ⟨-, hu, -⟩ := GrammarRule.shape_lower hfresh halone hrun
    have hstart : (d'.rule e).start = (d.rule e).start := by
      rcases hu with rfl | hu
      · rfl
      · exact (hu.ends e).1
    refine ⟨fun hlt => ?_, fun hlt => ?_, hI.callers.lower hfresh halone hrun ?_⟩
    · rcases Nat.eq_or_lt_of_le (Nat.le_of_lt_succ hlt) with rfl | hlt
      · obtain ⟨rule', hrule, hbody⟩ := hg.expression
        obtain rfl := Option.some.inj (hk.symm.trans hrule)
        rw [GrammarRule.lower_some hbody] at hrun
        exact RuleBody.infix_lower hfresh halone hrun
      · obtain ⟨heads, rounds, after, hheads, hrounds, hshape⟩ := hI.shape hlt
        refine ⟨heads, rounds, after, hheads, hrounds, ?_⟩
        rcases hu with rfl | hu
        · exact hshape
        · exact hshape.congr (hu.sameRule (Nat.ne_of_lt hlt)) (hu.same (Nat.ne_of_lt hlt))
    · rw [hstart]
      rcases Nat.eq_or_lt_of_le (Nat.le_of_lt_succ hlt) with rfl | hlt
      · obtain ⟨rule', hrule, hbody⟩ := hg.start
        obtain rfl := Option.some.inj (hk.symm.trans hrule)
        rw [GrammarRule.lower_some hbody] at hrun
        exact ⟨_, hfresh.start_lower hrun⟩
      · obtain ⟨c, hshape⟩ := hI.start hlt
        refine ⟨c, ?_⟩
        rcases hu with rfl | hu
        · exact hshape
        · exact hshape.congr (hu.sameRule (Nat.ne_of_lt hlt)) (hu.same (Nat.ne_of_lt hlt))
    · intro he hs body hbody leaf hl
      exact (hg.others k leaf he hs ⟨rule, body, hk, hbody, hl⟩).1

/-- The network of a grammar of expressions has the states of both its rules. -/
theorem Grammar.expressions_compile {g : Grammar} {c : CompiledGrammar} {l : List InfixAlternative}
    (h : g.compile = .ok c) (hg : g.Infix e s l) :
    ∃ heads rounds after call, heads.map Prod.snd = InfixAlternative.operands l ∧
      rounds.map Prod.snd = InfixAlternative.bindings l ∧
      c.network.Expressions e s heads rounds after call := by
  obtain ⟨d, hd, hb⟩ := build_compile h
  obtain ⟨-, hstates, hrules⟩ := build_eq_ok hb
  have hstate := unnumbered_of_states hstates
  have hrule := rule_of_rules hrules
  have hlt : ∀ {r rule}, g.rules[r]? = some rule → r < g.rules.size := fun hr =>
    (Array.getElem?_eq_some_iff.1 hr).1
  obtain ⟨_, he, -⟩ := hg.expression
  obtain ⟨_, hs, -⟩ := hg.start
  have hholding := hg.holding hd
  obtain ⟨heads, rounds, after, hheads, hrounds, hshape⟩ := hholding.shape (hlt he)
  obtain ⟨call, hstart⟩ := hholding.start (hlt hs)
  refine ⟨heads, rounds, after, call, hheads, hrounds, ?_, ?_, ?_, hg.ne⟩
  · rw [hrule]
    exact hshape.congr (sameRule_unnumbered hstate) ⟨rfl, rfl, rfl⟩
  · rw [hrule, hrule]
    exact hstart.congr (sameRule_unnumbered hstate) ⟨rfl, rfl, rfl⟩
  · intro a t ht follow precedence hk
    have hcall : t.call? ≠ none := by simp [Transition.call?, hk]
    obtain ⟨-, hr, hts, -⟩ := NetworkState.fields_of_unnumbered (hstate a)
    rw [hts] at ht
    by_cases hae : (d.state a).rule = e
    · exact .inl (hshape.calls a hae t ht hcall)
    by_cases has : (d.state a).rule = s
    · exact .inr (hstart.calls a has t ht hcall)
    · exact absurd hk (hholding.callers a hae has t ht follow precedence)

end AdaptiveParsing
