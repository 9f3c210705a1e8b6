import AdaptiveParsing.Proofs.Network.Loop
/-!
From bodies to the draft of a grammar. A lowered body gives its rule the shape it should have and
leaves the others alone (`RuleBody.shape_lower`), so that in the end every rule has its shape. Main
statement: `Grammar.shape_draft`.
-/

namespace AdaptiveParsing

open Draft DraftM

variable {d d₀ d₁ : Draft} {r : RuleId} {f : Fragment} {parts : List Fragment}

/-- A program that may fail, run on a draft. -/
abbrev runOn {α : Type} (m : ExceptT NetworkError DraftM α) (d : Draft) :
    Except NetworkError α × Draft := m.run.run d

theorem runOn_bind {α β : Type} (m : ExceptT NetworkError DraftM α)
    (f : α → ExceptT NetworkError DraftM β) (d : Draft) :
    runOn (m >>= f) d = match runOn m d with
      | (.ok a, d₁) => runOn (f a) d₁
      | (.error e, d₁) => (.error e, d₁) := by
  show (ExceptT.run (m >>= f)).run d = _
  rw [ExceptT.run_bind]
  show (StateT.run (_ >>= _) d) = _
  rw [run_bind]
  rcases h : runOn m d with ⟨e | a, d₁⟩ <;> simp only [runOn] at h <;> rw [h]
  rfl

/-- The program that lowers the heads among the alternatives. -/
def lowerHeads (r : RuleId) (alternatives : List (Int × OperatorAlternative)) :
    ExceptT NetworkError DraftM (List Fragment) :=
  alternatives.filterMapM fun (level, a) => (a.lowerHead? r level : DraftM (Option Fragment))

theorem lowerHeads_nil (r : RuleId) (d : Draft) : runOn (lowerHeads r []) d = (.ok [], d) := by
  rw [lowerHeads, List.filterMapM_nil]
  rfl

theorem lowerHeads_cons (r : RuleId) (a : Int × OperatorAlternative)
    (rest : List (Int × OperatorAlternative)) (d : Draft) :
    runOn (lowerHeads r (a :: rest)) d =
      let head := (a.2.lowerHead? r a.1).run d
      match runOn (lowerHeads r rest) head.2 with
      | (.ok heads, d₁) => (.ok (head.1.toList ++ heads), d₁)
      | (.error e, d₁) => (.error e, d₁) := by
  have hhead : runOn (a.2.lowerHead? r a.1 : DraftM (Option Fragment)) d =
      (.ok ((a.2.lowerHead? r a.1).run d).1, ((a.2.lowerHead? r a.1).run d).2) := rfl
  rw [lowerHeads, List.filterMapM_cons, runOn_bind, hhead]
  dsimp only
  generalize (a.2.lowerHead? r a.1).run d = result
  obtain ⟨head, d₁⟩ := result
  cases head with
  | none =>
    simp only [Option.toList_none, List.nil_append]
    rw [← lowerHeads]
    rcases runOn (lowerHeads r rest) d₁ with ⟨_ | _, _⟩ <;> rfl
  | some head =>
    simp only [Option.toList_some, List.singleton_append]
    rw [runOn_bind, ← lowerHeads]
    rcases runOn (lowerHeads r rest) d₁ with ⟨_ | _, _⟩ <;> rfl

theorem parts_heads (r : RuleId) (alternatives : List (Int × OperatorAlternative))
    (hlevels : ∀ a ∈ alternatives, 0 ≤ a.1) (d : Draft) :
    ∃ heads d₁, runOn (lowerHeads r alternatives) d = (.ok heads, d₁) ∧ Parts r d d₁ heads := by
  induction alternatives generalizing d with
  | nil => exact ⟨[], d, lowerHeads_nil r d, .refl r d, by simp⟩
  | cons a rest ih =>
    obtain ⟨hg, hh⟩ := a.2.grows_lowerHead r (hlevels a (.head _)) d
    rw [lowerHeads_cons]
    dsimp only
    generalize (a.2.lowerHead? r a.1).run d = result at *
    obtain ⟨head, d₁⟩ := result
    obtain ⟨heads, d₂, hrun, hp⟩ := ih (fun b hb => hlevels b (.tail _ hb)) d₁
    rw [hrun]
    cases head with
    | none => exact ⟨heads, d₂, rfl, hg.trans hp.grows, fun f hf => (hp.holds f hf).of_le hg.size⟩
    | some f => exact ⟨f :: heads, d₂, rfl, parts_cons ⟨hg, hh f rfl⟩ hp⟩

theorem RuleBody.levels_cons (a : OperatorAlternative) (rest : List OperatorAlternative) :
    levels (a :: rest) = ((rest.length : Int) + 1, a) :: levels rest := by
  simp only [levels, List.zipIdx_cons, List.map_cons, List.length_cons, List.zipIdx_succ,
    List.map_map]
  refine List.cons_eq_cons.2 ⟨by simp, List.map_congr_left fun p _ => ?_⟩
  simp only [Function.comp_apply, Prod.mk.injEq, and_true]
  lia

/-- The levels of alternatives are positive. -/
theorem RuleBody.pos_levels {alternatives : List OperatorAlternative}
    {a : Int × OperatorAlternative} (h : a ∈ levels alternatives) : 0 < a.1 := by
  obtain ⟨⟨b, i⟩, hb, rfl⟩ := List.mem_map.1 h
  have := List.snd_lt_of_mem_zipIdx hb
  simp only at this ⊢
  lia

/-- The operators of a body. -/
def RuleBody.operators : RuleBody → List Operator
  | .plain _ => []
  | .leftRecursive alternatives =>
    (levels alternatives).filterMap fun (level, a) => a.operator? level

/-- The right operand of an operator has a floor of at least zero. -/
theorem RuleBody.operand_nonneg {body : RuleBody} {op : Operator} (h : op ∈ body.operators)
    {floor : Int} (hf : op.operand = some floor) : 0 ≤ floor := by
  cases body with
  | plain _ => cases h
  | leftRecursive alternatives =>
    obtain ⟨⟨level, a⟩, ha, ho⟩ := List.mem_filterMap.1 h
    have hpos : 0 < level := pos_levels ha
    cases a with
    | binary associativity items =>
      cases associativity <;> cases ho <;> cases hf <;> lia
    | suffix _ =>
      cases ho
      cases hf
    | prefixed _ | primary _ => cases ho

/-- One of the operators of the body has this level. -/
def RuleBody.HasLevel (body : RuleBody) (level : Int) : Prop :=
  ∃ op ∈ body.operators, op.level = level

/-- What lowering the body of a fresh rule does to a draft. -/
structure Lowers (r : RuleId) (levels : Int → Prop) (d d' : Draft) : Prop where
  shape : d'.RuleShape r levels
  untouched : Untouched r d d'
  alone : d'.CallsAlone

theorem RuleBody.lower_plain (name : String) (r : RuleId) (body : Element) (d : Draft) :
    runOn ((RuleBody.plain body).lower name r) d =
      let part := (body.lower r).run d
      (.ok (), (part.2.addEpsilon (part.2.rule r).start part.1.entry).addEpsilon part.1.exit
        (part.2.rule r).stop) := rfl

theorem starLoop_ends (r : RuleId) (parts : List Fragment) (d : Draft) :
    ((starLoop r parts).run d).1 = ⟨d.states.size, d.states.size + 4⟩ := by
  rw [starLoop_run]

theorem RuleBody.lowerOperators_run (r : RuleId) (head : Fragment) (operators : List Operator)
    (d d₁ : Draft) :
    ((lowerOperators r head.exit (d.rule r).stop operators).run d₁).2 =
      let lowered := (operators.mapM (Operator.lower r)).run (d₁.setLeftRecursive r)
      looped d r head lowered.1 lowered.2 := by
  rw [lowerOperators, run_bind, run_bind, run_bind, run_bind]
  dsimp only
  generalize hm : StateT.run (modify fun d => d.setLeftRecursive r : DraftM PUnit) d₁ = marked
  have hmarked : marked.2 = d₁.setLeftRecursive r := by
    rw [← hm]
    rfl
  rw [hmarked]
  generalize StateT.run (List.mapM (Operator.lower r) operators) _ = lowered
  have hends := starLoop_ends r lowered.1 lowered.2
  rw [looped]
  generalize StateT.run (starLoop r lowered.1) lowered.2 = loop at hends ⊢
  obtain ⟨⟨entry, exit⟩, d₃⟩ := loop
  obtain ⟨rfl, rfl⟩ := Fragment.mk.inj hends
  rfl

theorem RuleBody.lower_leftRecursive (name : String) (r : RuleId)
    (alternatives : List OperatorAlternative) {heads : List Fragment}
    (h : runOn (lowerHeads r (levels alternatives)) d = (.ok heads, d₁)) :
    runOn ((RuleBody.leftRecursive alternatives).lower name r) d =
      if heads.isEmpty then (.error (.noPrimaryAlternative name), d₁)
      else
        let primary := (choice r heads).run d₁
        let rule := primary.2.rule r
        let d₂ := primary.2.addEpsilon rule.start primary.1.entry
        match (RuleBody.leftRecursive alternatives).operators with
        | [] => (.ok (), d₂.addEpsilon primary.1.exit rule.stop)
        | operators => (.ok (), ((lowerOperators r primary.1.exit rule.stop operators).run d₂).2) := by
  rw [lower]
  show runOn (lowerHeads r (levels alternatives) >>= _) d = _
  rw [runOn_bind, h]
  simp only
  by_cases he : heads.isEmpty
  · rw [if_pos he, if_pos he]
    rfl
  · rw [if_neg he, if_neg he]
    unfold operators
    dsimp only
    generalize List.filterMap _ (levels alternatives) = operators
    cases operators <;> rfl

theorem Draft.Fresh.lowers_plain {result : Fragment × Draft} {levels : Int → Prop} (h : d.Fresh r)
    (hd : d.CallsAlone) (ha : Adds r d result) :
    Lowers r levels d ((result.2.addEpsilon (result.2.rule r).start result.1.entry).addEpsilon
      result.1.exit (result.2.rule r).stop) := by
  have hr := ha.grows.rules r
  have hstart : (result.2.rule r).start = (d.rule r).start := congrArg Rule.start hr
  have hstop : (result.2.rule r).stop = (d.rule r).stop := congrArg Rule.stop hr
  obtain ⟨hs, hu, hc⟩ := @Fresh.shape_plain d r levels result.1 result.2 h ha hd
  rw [hstart, hstop]
  exact ⟨hs, hu, hc⟩

/-- Operators lowered after the heads of a fresh rule are ready for their loop. -/
theorem RuleBody.looped_operators {head : Fragment} {levels : Int → Prop}
    {operators : List Operator} (h : d.Fresh r) (hd : d.CallsAlone) (ha : Adds r d (head, d₁))
    (hl : ∀ op ∈ operators, levels op.level)
    (hops : ∀ op ∈ operators, ∀ floor, op.operand = some floor → 0 ≤ floor) :
    let lowered := (operators.mapM (Operator.lower r)).run
      ((d₁.addEpsilon (d.rule r).start head.entry).setLeftRecursive r)
    ∃ guards, Looped d r levels head d₁ guards lowered.1 lowered.2 := by
  intro lowered
  obtain ⟨guards, hguards, hg, hparts⟩ := Operator.grows_lowerAll r operators hops
    ((d₁.addEpsilon (d.rule r).start head.entry).setLeftRecursive r)
  have hsize : ((d₁.addEpsilon (d.rule r).start head.entry).setLeftRecursive r).states.size =
      d₁.states.size := size_addEpsilon
  refine ⟨guards, h, hd, ha, hg, ?_, ?_⟩
  · intro g hg
    obtain ⟨op, hop, he⟩ := hguards g hg
    rw [he]
    exact hl op hop
  · intro f hf
    obtain ⟨hh, he, hx⟩ := hparts f hf
    exact ⟨hh.of_le (Nat.le_of_eq hsize.symm), he, hx⟩

theorem RuleBody.lowers_operators {result : Fragment × Draft} {levels : Int → Prop}
    {operators : List Operator} (h : d.Fresh r) (hd : d.CallsAlone) (ha : Adds r d result)
    (hl : ∀ op ∈ operators, levels op.level)
    (hops : ∀ op ∈ operators, ∀ floor, op.operand = some floor → 0 ≤ floor) :
    Lowers r levels d ((lowerOperators r result.1.exit (result.2.rule r).stop operators).run
      (result.2.addEpsilon (result.2.rule r).start result.1.entry)).2 := by
  have hr := ha.grows.rules r
  have hstart : (result.2.rule r).start = (d.rule r).start := congrArg Rule.start hr
  have hstop : (result.2.rule r).stop = (d.rule r).stop := congrArg Rule.stop hr
  rw [hstart, hstop, lowerOperators_run]
  obtain ⟨guards, hloop⟩ := looped_operators h hd ha hl hops
  exact ⟨hloop.ruleShape, hloop.untouched, hloop.callsAlone⟩

/-- A lowered body gives its rule the shape that it should have, and changes no other rule. -/
theorem RuleBody.shape_lower {name : String} {body : RuleBody} {d' : Draft} (h : d.Fresh r)
    (hd : d.CallsAlone) (hrun : runOn (body.lower name r) d = (.ok (), d')) :
    Lowers r body.HasLevel d d' := by
  cases body with
  | plain body =>
    rw [lower_plain] at hrun
    obtain rfl := (Prod.mk.inj hrun).2
    exact h.lowers_plain hd (Element.adds_lower r body d)
  | leftRecursive alternatives =>
    obtain ⟨heads, d₁, hheads, hparts⟩ := parts_heads r (levels alternatives)
      (fun a ha => Int.le_of_lt (pos_levels ha)) d
    have ha := adds_choice hparts
    rw [lower_leftRecursive name r alternatives hheads] at hrun
    by_cases he : heads.isEmpty
    · rw [if_pos he] at hrun
      cases hrun
    · rw [if_neg he] at hrun
      dsimp only at hrun
      generalize (choice r heads).run d₁ = result at *
      cases hops : (RuleBody.leftRecursive alternatives).operators with
      | nil =>
        rw [hops] at hrun
        obtain rfl := (Prod.mk.inj hrun).2
        exact h.lowers_plain hd ha
      | cons op rest =>
        rw [hops] at hrun
        obtain rfl := (Prod.mk.inj hrun).2
        refine lowers_operators h hd ha (fun o ho => ⟨o, by rw [hops]; exact ho, rfl⟩) ?_
        intro o ho floor hf
        exact operand_nonneg (by rw [hops]; exact ho) hf

namespace Draft

/-- Every rule of the draft is fresh, there are no edges, and nothing is defined. -/
structure Declared (d : Draft) : Prop where
  fresh : ∀ r, r < d.rules.size → d.Fresh r
  edgeless : ∀ s, (d.state s).transitions = []
  rules : ∀ s, s < d.states.size → (d.state s).rule < d.rules.size
  undefined : ∀ c, (d.rule c).defined = false

theorem Declared.callsAlone (h : d.Declared) : d.CallsAlone := by
  intro s t ht
  rw [h.edgeless] at ht
  cases ht

theorem rule_addRule (name : String) (c : RuleId) :
    (d.addRule name).2.rule c =
      if c = d.rules.size then { name, start := d.states.size, stop := d.states.size + 1 }
      else d.rule c := by
  simp only [addRule, addState, rule, Array.getD_eq_getD_getElem?, Array.getElem?_push]
  split <;> simp_all

theorem state_addRule (name : String) (s : StateId) :
    (d.addRule name).2.state s =
      if s = d.states.size then { kind := .ruleStart, rule := d.rules.size }
      else if s = d.states.size + 1 then { kind := .ruleStop, rule := d.rules.size }
      else d.state s := by
  have h : (d.addRule name).2.state s =
      (pair d.rules.size .ruleStart .ruleStop d).state s := rfl
  rw [h, state_pair]

theorem size_addRule (name : String) :
    (d.addRule name).2.states.size = d.states.size + 2 ∧
      (d.addRule name).2.rules.size = d.rules.size + 1 := by
  simp [addRule, addState]

theorem Declared.addRule (h : d.Declared) (name : String) : (d.addRule name).2.Declared := by
  obtain ⟨hstates, hrules⟩ := size_addRule (d := d) name
  refine ⟨?_, ?_, ?_, ?_⟩
  · intro r hr
    rw [hrules] at hr
    by_cases hnew : r = d.rules.size
    · subst hnew
      have he : (d.addRule name).2.rule d.rules.size =
          { name, start := d.states.size, stop := d.states.size + 1 } := by
        rw [rule_addRule, if_pos rfl]
      refine ⟨by lia, ?_, ?_, ?_, ?_, ?_, ?_⟩ <;> rw [he]
      · simp only
        lia
      · simp only
        lia
      · rw [state_addRule, if_pos rfl]
      · rw [state_addRule, if_neg (by simp), if_pos rfl]
      · intro s hs hr
        rw [state_addRule] at hr
        by_cases hs₁ : s = d.states.size
        · exact .inl hs₁
        · by_cases hs₂ : s = d.states.size + 1
          · exact .inr hs₂
          · rw [if_neg hs₁, if_neg hs₂] at hr
            have := h.rules s (by lia)
            lia
    · have hf := h.fresh r (by lia)
      have he : (d.addRule name).2.rule r = d.rule r := by rw [rule_addRule, if_neg hnew]
      have hst : ∀ s, s < d.states.size → (d.addRule name).2.state s = d.state s := by
        intro s hs
        rw [state_addRule, if_neg (by lia), if_neg (by lia)]
      refine ⟨by lia, ?_, ?_, ?_, ?_, ?_, ?_⟩ <;> rw [he]
      · have := hf.start_lt
        lia
      · have := hf.stop_lt
        lia
      · rw [hst _ hf.start_lt, hf.start_state]
      · rw [hst _ hf.stop_lt, hf.stop_state]
      · intro s hs hr
        by_cases hlt : s < d.states.size
        · rw [hst s hlt] at hr
          exact hf.only s hlt hr
        · rw [state_addRule] at hr
          by_cases hs₁ : s = d.states.size
          · rw [if_pos hs₁] at hr
            exact absurd hr.symm hnew
          · rw [if_neg hs₁, if_pos (by lia)] at hr
            exact absurd hr.symm hnew
      · exact hf.plain
  · intro s
    rw [state_addRule]
    split
    · rfl
    · split
      · rfl
      · exact h.edgeless s
  · intro s hs
    rw [hstates] at hs
    rw [state_addRule, hrules]
    split
    · simp
    · split
      · simp
      · have := h.rules s (by lia)
        lia
  · intro c
    rw [rule_addRule]
    split
    · rfl
    · exact h.undefined c

theorem declared_empty (maxType : TokenType) : Declared { maxType := maxType } := by
  refine ⟨?_, ?_, ?_, fun _ => rfl⟩
  · intro r hr
    simp at hr
  · intro s
    rw [state_of_size_le (by simp)]
    rfl
  · intro s hs
    simp at hs

theorem declared_foldl (h : d.Declared) (rules : List GrammarRule) :
    let d' := rules.foldl (fun d r => (d.addRule r.name).2) d
    d'.Declared ∧ d'.rules.size = d.rules.size + rules.length := by
  induction rules generalizing d with
  | nil => exact ⟨h, rfl⟩
  | cons rule rest ih =>
    obtain ⟨hd, hs⟩ := ih (h.addRule rule.name)
    refine ⟨hd, ?_⟩
    rw [List.foldl_cons, hs, (size_addRule rule.name).2, List.length_cons]
    lia

/-- A rule without a body has the shape of a rule. -/
theorem Fresh.ruleShape (h : d.Fresh r) (levels : Int → Prop) : d.RuleShape r levels := by
  -- what belongs to the rule has no edges and is not marked
  have hstate : ∀ s, (d.state s).rule = r → s = (d.rule r).start ∨ s = (d.rule r).stop ∨
      d.state s = default := by
    intro s hs
    by_cases hlt : s < d.states.size
    · rcases h.only s hlt hs with hs | hs
      · exact .inl hs
      · exact .inr (.inl hs)
    · exact .inr (.inr (state_of_size_le (by lia)))
  have hnone : ∀ s, (d.state s).rule = r → (d.state s).transitions = [] ∧
      (d.state s).precedenceDecision = false := by
    intro s hs
    rcases hstate s hs with rfl | rfl | he
    · rw [h.start_state]
      exact ⟨rfl, rfl⟩
    · rw [h.stop_state]
      exact ⟨rfl, rfl⟩
    · rw [he]
      exact ⟨rfl, rfl⟩
  refine ⟨h.start_lt, h.stop_lt, ?_, ?_, ?_, ?_, ?_, ?_, ?_⟩
  · rw [h.start_state]
  · rw [h.stop_state]
  · rw [h.stop_state]
  · intro s hs hk
    rcases hstate s hs with rfl | rfl | he
    · rw [h.start_state] at hk
      cases hk
    · rfl
    · rw [he] at hk
      cases hk
  · intro s hs t ht
    rw [(hnone s hs).1] at ht
    cases ht
  · intro _
    refine ⟨fun s hs => (hnone s hs).2, fun s hs t ht => ?_⟩
    rw [(hnone s hs).1] at ht
    cases ht
  · intro hl
    rw [h.plain] at hl
    cases hl

end Draft

/-- Lowers the body of a rule, if it has one. -/
def GrammarRule.lower (rule : GrammarRule) (r : RuleId) : ExceptT NetworkError DraftM Unit :=
  match rule.body with
  | none => pure ()
  | some body => body.lower rule.name r

/-- One of the operators of the rule has this level. -/
def GrammarRule.HasLevel (rule : GrammarRule) (level : Int) : Prop :=
  ∃ body, rule.body = some body ∧ body.HasLevel level

theorem GrammarRule.shape_lower {rule : GrammarRule} {d' : Draft} (h : d.Fresh r)
    (hd : d.CallsAlone) (hrun : runOn (rule.lower r) d = (.ok (), d')) :
    d'.RuleShape r rule.HasLevel ∧ (d' = d ∨ Untouched r d d') ∧ d'.CallsAlone := by
  unfold lower at hrun
  cases hb : rule.body with
  | none =>
    rw [hb] at hrun
    obtain rfl := (Prod.mk.inj hrun).2
    exact ⟨h.ruleShape _, .inl rfl, hd⟩
  | some body =>
    rw [hb] at hrun
    have hl := RuleBody.shape_lower h hd hrun
    have hlevels : rule.HasLevel = body.HasLevel := by
      funext level
      simp [HasLevel, hb]
    rw [hlevels]
    exact ⟨hl.shape, .inr hl.untouched, hl.alone⟩

/-- Lowering the rules from number `k` on gives each its shape, and those before keep theirs. -/
theorem GrammarRule.shape_lowerAll (rules : List GrammarRule) (k : Nat) (d d' : Draft)
    (h : ∀ i, k ≤ i → i < k + rules.length → d.Fresh i) (hd : d.CallsAlone)
    (hrun : runOn ((rules.zipIdx k).forM fun (rule, r) => rule.lower r) d = (.ok (), d')) :
    (∀ i rule, rules[i]? = some rule → d'.RuleShape (k + i) rule.HasLevel) ∧
      (∀ c levels, c < k → d.RuleShape c levels → d'.RuleShape c levels) ∧
      d'.CallsAlone ∧ d'.rules.size = d.rules.size := by
  induction rules generalizing k d with
  | nil =>
    obtain rfl := (Prod.mk.inj hrun).2
    exact ⟨by simp, fun _ _ _ h => h, hd, rfl⟩
  | cons rule rest ih =>
    rw [List.zipIdx_cons, List.forM, runOn_bind] at hrun
    rcases hfirst : runOn (rule.lower k) d with ⟨outcome, d₁⟩
    rw [hfirst] at hrun
    cases outcome with
    | error e => cases (Prod.mk.inj hrun).1
    | ok u =>
      have hfresh := h k (Nat.le_refl k) (by simp)
      obtain ⟨hshape, hu, hc⟩ := GrammarRule.shape_lower hfresh hd hfirst
      have hkeep : ∀ i, i ≠ k → d.Fresh i → d₁.Fresh i := by
        intro i hi hf
        rcases hu with rfl | hu
        · exact hf
        · exact hf.untouched hu hi
      obtain ⟨h₁, h₂, h₃, h₄⟩ := ih (k + 1) d₁ (by
        intro i hi hi'
        exact hkeep i (by lia) (h i (by lia) (by rw [List.length_cons]; lia))) hc hrun
      refine ⟨?_, ?_, h₃, ?_⟩
      · intro i rule' hr
        cases i with
        | zero =>
          cases hr
          exact h₂ k _ (Nat.lt_succ_self k) hshape
        | succ i =>
          have := h₁ i rule' hr
          rwa [show k + 1 + i = k + (i + 1) by lia] at this
      · intro c levels hlt hs
        refine h₂ c levels (by lia) ?_
        rcases hu with rfl | hu
        · exact hs
        · exact hs.untouched hu (by lia)
      · rcases hu with rfl | hu
        · exact h₄
        · exact h₄.trans hu.count

/-- Every rule of a draft has the shape of a rule, with the levels of its operators. -/
theorem Grammar.shape_draft {g : Grammar} {d : Draft} (h : g.draft = .ok d) :
    (∀ r rule, g.rules[r]? = some rule → d.RuleShape r rule.HasLevel) ∧ d.CallsAlone ∧
      d.rules.size = g.rules.size := by
  obtain ⟨hd, hsize⟩ := declared_foldl (declared_empty g.names.maxType) g.rules.toList
  rw [draft, ← Array.foldl_toList] at h
  generalize g.rules.toList.foldl _ _ = declared at *
  have hsize' : declared.rules.size = g.rules.size := by
    rw [hsize]
    simp
  rcases hrun : runOn (g.rules.toList.zipIdx.forM fun (rule, r) => rule.lower r) declared
    with ⟨outcome, d'⟩
  have hmatch : (match runOn (g.rules.toList.zipIdx.forM fun (rule, r) => rule.lower r) declared with
      | (.ok (), d) => .ok d
      | (.error e, _) => .error e) = Except.ok d := h
  rw [hrun] at hmatch
  cases outcome with
  | error e => cases hmatch
  | ok u =>
    cases hmatch
    obtain ⟨h₁, -, h₃, h₄⟩ := GrammarRule.shape_lowerAll g.rules.toList 0 declared d
      (fun i _ hi => hd.fresh i (by simp at hi; lia)) hd.callsAlone hrun
    refine ⟨?_, h₃, h₄.trans hsize'⟩
    intro r rule hr
    have := h₁ r rule (by simpa using hr)
    rwa [Nat.zero_add] at this

end AdaptiveParsing
