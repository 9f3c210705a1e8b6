import AdaptiveParsing.Proofs.Network.Denotation
import AdaptiveParsing.Proofs.Network.Edges
import AdaptiveParsing.Proofs.Network.LeftCalls
/-!
The words of a rule. Along a path through a network a call is one letter and goes on where it returns
to, so the path stays in its rule. Main statement: what the paths from the start of a rule to its stop
spell is what the body of the rule denotes (`Grammar.language_compile`).
-/

namespace AdaptiveParsing

open Draft DraftM

open scoped Computability

/-- A path of the network that spells a word and stays in its rule. -/
inductive Network.Spelling (n : Network) : StateId → List Letter → StateId → Prop
  | done (s : StateId) : n.Spelling s [] s
  | step {s b : StateId} {t : Transition} {w : List Letter} (ht : t ∈ (n.state s).transitions)
      (h : n.Spelling t.next w b) : n.Spelling s (t.letters ++ w) b

/-- What the paths from the start of a rule to its stop spell. -/
def Network.language (n : Network) (r : RuleId) : Language Letter :=
  {w | n.Spelling (n.rule r).start w (n.rule r).stop}

namespace OperatorAlternative

/-- The words of an alternative that starts without an operand; another has none. -/
def headLanguage (r : RuleId) (level : Int) : OperatorAlternative → Language Letter
  | primary items => (Element.languages r items).prod
  | prefixed items => (Element.languages r items).prod * {[.call r level]}
  | binary _ _ | suffix _ => 0

/-- The words of an alternative after its left operand; one that has none has no words. -/
def operatorLanguage (r : RuleId) (level : Int) : OperatorAlternative → Language Letter
  | binary .left items =>
    {[.edge (.precedence level)]} * (Element.languages r items).prod * {[.call r (level + 1)]}
  | binary .right items =>
    {[.edge (.precedence level)]} * (Element.languages r items).prod * {[.call r level]}
  | suffix items => {[.edge (.precedence level)]} * (Element.languages r items).prod
  | prefixed _ | primary _ => 0

end OperatorAlternative

namespace RuleBody

/-- The words of the alternatives that start without an operand. The level of an alternative is the
number of those from it on. -/
def headsLanguage (r : RuleId) : List OperatorAlternative → Language Letter
  | [] => 0
  | a :: rest => a.headLanguage r (rest.length + 1) + headsLanguage r rest

/-- The words of the alternatives that follow an operand. -/
def operatorsLanguage (r : RuleId) : List OperatorAlternative → Language Letter
  | [] => 0
  | a :: rest => a.operatorLanguage r (rest.length + 1) + operatorsLanguage r rest

/-- The words of the body of rule `r`. -/
def language (r : RuleId) : RuleBody → Language Letter
  | plain body => body.language r
  | leftRecursive alternatives =>
    headsLanguage r alternatives * (operatorsLanguage r alternatives)∗

end RuleBody

/-- The words of an operator. -/
def Operator.language (r : RuleId) (op : Operator) : Language Letter :=
  {[.edge (.precedence op.level)]} * (Element.languages r op.items).prod *
    match op.operand with
    | none => 1
    | some floor => {[.call r floor]}

/-- The words of an alternative after its left operand are those of its operator. -/
theorem OperatorAlternative.operatorLanguage_eq (r : RuleId) (level : Int)
    (a : OperatorAlternative) :
    a.operatorLanguage r level = ((a.operator? level).toList.map (Operator.language r)).sum := by
  rcases a with ⟨_ | _, items⟩ | items | items | items <;>
    simp [operator?, operatorLanguage, Operator.language]

theorem RuleBody.sum_operators (r : RuleId) (alternatives : List OperatorAlternative) :
    ((RuleBody.leftRecursive alternatives).operators.map (Operator.language r)).sum =
      operatorsLanguage r alternatives := by
  induction alternatives with
  | nil => rfl
  | cons a rest ih =>
    rw [operatorsLanguage, ← ih, a.operatorLanguage_eq, operators, operators, levels_cons,
      List.filterMap_cons]
    cases h : a.operator? (rest.length + 1) <;> simp [h]

section

variable {d d₀ d₁ : Draft} {r : RuleId} {f : Fragment} {parts : List Fragment} {level : Int}
  {guards : List (StateId × Int)} {l : Language Letter}

theorem Element.denotes_lowerSequence (r : RuleId) (items : List Element) (d : Draft) :
    DenotesOne d ((Element.lowerSequence r items).run d) (Element.languages r items).prod := by
  rw [Element.lowerSequence, run_bind]
  exact denotes_sequence (Element.parts_lowerAll r items d) (Element.denotes_lowerAll r items d)

/-- A call put after a fragment is one more letter. -/
theorem Draft.Denotes.addOperand (h : Denotes d₀ d [f] [l]) (hg : Grows r guards d₀ d)
    (hf : d₀.Holds d f) {floor : Int} (hfloor : 0 ≤ floor) :
    let c := (DraftM.call r r floor).run d
    Denotes d₀ (c.2.addEpsilon f.exit c.1.entry) [⟨f.entry, c.1.exit⟩] [l * {[.call r floor]}] := by
  have hc := adds_call (r := r) (d := d) r hfloor
  have hboth := h.cons hf hg.closed hc.grows (denotes_call r floor)
    (by simpa using hc.holds) hg.size
  exact denotes_join (hf.grows hc.grows) hboth

/-- A head has the words of its alternative. -/
theorem OperatorAlternative.denotes_lowerHead (r : RuleId) {level : Int} (hl : 0 ≤ level)
    (a : OperatorAlternative) (d : Draft) :
    let result := (a.lowerHead? r level).run d
    match result.1 with
    | some f => DenotesOne d (f, result.2) (a.headLanguage r level)
    | none => result.2 = d ∧ a.headLanguage r level = 0 := by
  cases a with
  | binary _ _ | suffix _ => exact ⟨rfl, rfl⟩
  | primary items => exact Element.denotes_lowerSequence r items d
  | prefixed items =>
    have ha := Element.adds_lowerSequence r items d
    exact (Element.denotes_lowerSequence r items d).addOperand ha.grows ha.holds hl

theorem RuleBody.denotes_heads (r : RuleId) (alternatives : List OperatorAlternative) (d : Draft) :
    ∃ heads d₁ languages, runOn (lowerHeads r (levels alternatives)) d = (.ok heads, d₁) ∧
      Parts r d d₁ heads ∧ Denotes d d₁ heads languages ∧
      languages.sum = headsLanguage r alternatives := by
  induction alternatives generalizing d with
  | nil => exact ⟨[], d, [], lowerHeads_nil r d, ⟨.refl r d, by simp⟩, denotes_nil d, rfl⟩
  | cons a rest ih =>
    have hlevel : (0 : Int) ≤ rest.length + 1 := by lia
    obtain ⟨hg, hh⟩ := a.grows_lowerHead r hlevel d
    have hd := a.denotes_lowerHead r hlevel d
    rw [levels_cons, lowerHeads_cons]
    dsimp only
    generalize (a.lowerHead? r (rest.length + 1)).run d = result at *
    obtain ⟨head, d₁⟩ := result
    obtain ⟨heads, d₂, languages, hrun, hp, hheads, hsum⟩ := ih d₁
    rw [hrun, headsLanguage, ← hsum]
    cases head with
    | none =>
      obtain ⟨rfl, hzero⟩ := hd
      exact ⟨heads, d₂, languages, rfl, hp, hheads, by rw [hzero, zero_add]⟩
    | some f =>
      exact ⟨f :: heads, d₂, _ :: languages, rfl, parts_cons ⟨hg, hh f rfl⟩ hp,
        Denotes.parts_cons ⟨hg, hh f rfl⟩ hd hp hheads, List.sum_cons⟩

/-- An operator has the words of its level, its items and its operand. -/
theorem Operator.denotes_lower (r : RuleId) (op : Operator)
    (hop : ∀ floor, op.operand = some floor → 0 ≤ floor) (d : Draft) :
    DenotesOne d ((op.lower r).run d) (op.language r) := by
  obtain ⟨hg, hh, -, -⟩ := Operator.grows_lower r { op with operand := none } (by simp) d
  have hbody := Element.denotes_lowerSequence r op.items (d.addState .basic r).2
  have hadds := Element.adds_lowerSequence r op.items (d.addState .basic r).2
  have hsize : (d.addState .basic r).2.states.size = d.states.size + 1 := size_addState
  rw [lower_run] at hg hh ⊢
  dsimp only at hg hh ⊢
  generalize hd₁ : (d.addState .basic r).2 = d₁ at *
  generalize (Element.lowerSequence r op.items).run d₁ = b at *
  obtain ⟨body, d₂⟩ := b
  have hlt := hadds.grows.size
  have hle := hadds.holds.entry_ge
  have hle' := hadds.holds.exit_ge
  dsimp only at hlt hle hle' hg hh ⊢
  have hiff : ∀ R, (d₂.addTransition d.states.size ⟨body.entry, .precedence op.level⟩).Obeys
      d.states.size R ↔ d₂.Obeys d₁.states.size R ∧
        {[.edge (.precedence op.level)]} * R body.entry ≤ R d.states.size := by
    intro R
    rw [obeys_addTransition (Nat.le_refl _) (by lia), hadds.grows.obeys_iff (by lia), ← hd₁,
      obeys_addState, and_iff_right (d.obeys_size R)]
    rfl
  have hguard : Denotes d (d₂.addTransition d.states.size ⟨body.entry, .precedence op.level⟩)
      [⟨d.states.size, body.exit⟩]
      [{[.edge (.precedence op.level)]} * (Element.languages r op.items).prod] := by
    refine denotes_one ?_ fun k => ?_
    · intro R hR
      obtain ⟨ho, hl⟩ := (hiff R).1 hR
      rw [mul_assoc]
      exact (mul_le_mul_right (hbody.complete_one ho) _).trans hl
    · obtain ⟨R, hR, hk, hl⟩ := hbody.sound_one k
      refine ⟨labelUpTo d₁.states.size (fun _ => {[.edge (.precedence op.level)]} * R body.entry) R,
        (hiff _).2 ⟨hR.congr hadds.grows.closed fun _ hs _ => labelUpTo_ge hs, ?_⟩, ?_, ?_⟩
      · rw [labelUpTo_ge hle, labelUpTo_lt (by lia)]
      · rwa [labelUpTo_ge hle']
      · rw [labelUpTo_lt (by simp only; lia), mul_assoc]
        exact mul_le_mul_right hl _
  rw [language]
  cases hoperand : op.operand with
  | none =>
    rw [mul_one]
    exact hguard
  | some floor => exact hguard.addOperand hg hh (hop floor hoperand)

theorem Operator.denotes_lowerAll (r : RuleId) (operators : List Operator)
    (hops : ∀ op ∈ operators, ∀ floor, op.operand = some floor → 0 ≤ floor) (d : Draft) :
    Denotes d ((operators.mapM (Operator.lower r)).run d).2
      ((operators.mapM (Operator.lower r)).run d).1 (operators.map (Operator.language r)) := by
  induction operators generalizing d with
  | nil => exact denotes_nil d
  | cons op rest ih =>
    rw [List.mapM_cons, run_bind, run_bind, List.map_cons]
    have hop := hops op (.head _)
    have hrest : ∀ o ∈ rest, ∀ floor, o.operand = some floor → 0 ≤ floor :=
      fun o ho => hops o (.tail _ ho)
    obtain ⟨hg, hh, -, -⟩ := op.grows_lower r hop d
    obtain ⟨guards, -, hg', hparts⟩ := Operator.grows_lowerAll r rest hrest ((op.lower r).run d).2
    exact (op.denotes_lower r hop d).cons hh hg.closed hg' (ih hrest _)
      (fun f hf => (hparts f hf).1) hg.size

end

section

variable {state : StateId → NetworkState} {r c : RuleId} {rule : Rule} {l l' : Language Letter}
  {R : StateId → Language Letter}

/-- What leaves states of rule `r` contributes what the labelling says. -/
def ObeysIn (state : StateId → NetworkState) (r : RuleId) (R : StateId → Language Letter) : Prop :=
  ∀ s, (state s).rule = r → ∀ t ∈ (state s).transitions, {t.letters} * R t.next ≤ R s

/-- The rule, from its start to its stop, has this language. -/
structure RuleDenotes (state : StateId → NetworkState) (r : RuleId) (rule : Rule)
    (l : Language Letter) : Prop where
  complete : ∀ R, ObeysIn state r R → l * R rule.stop ≤ R rule.start
  sound : ∃ R, ObeysIn state r R ∧ 1 ≤ R rule.stop ∧ R rule.start ≤ l

variable {d d' d₁ : Draft} {f : Fragment}

theorem RuleDenotes.untouched (h : RuleDenotes d.state c (d.rule c).toRule l)
    (hu : Untouched r d d') (hc : c ≠ r) : RuleDenotes d'.state c (d'.rule c).toRule l := by
  obtain ⟨hstart, hstop⟩ := hu.ends c
  have hiff : ∀ R, ObeysIn d'.state c R ↔ ObeysIn d.state c R := by
    intro R
    constructor
    · intro h s hs t ht
      have he := hu.old s (lt_of_edge ht) (by rwa [hs])
      exact h s (by rw [he, hs]) t (by rwa [he])
    · intro h s hs t ht
      have he := hu.state_eq hc hs
      rw [he] at hs ht
      exact h s hs t ht
  refine ⟨fun R hR => ?_, ?_⟩
  · rw [hstart, hstop]
    exact h.complete R ((hiff R).1 hR)
  · obtain ⟨R, hR, hk⟩ := h.sound
    rw [hstart, hstop]
    exact ⟨R, (hiff R).2 hR, hk⟩

namespace Draft

/-- A rule that was fresh consists of its start, its stop and what was added. -/
theorem Fresh.obeysIn_iff (h : d.Fresh r) (hu : Untouched r d d') :
    ObeysIn d'.state r R ↔ d'.Obeys d.states.size R ∧
      (∀ t ∈ (d'.state (d.rule r).start).transitions, {t.letters} * R t.next ≤ R (d.rule r).start) ∧
      ∀ t ∈ (d'.state (d.rule r).stop).transitions, {t.letters} * R t.next ≤ R (d.rule r).stop := by
  constructor
  · intro ho
    refine ⟨fun s hs t ht => ho s (hu.new s hs (lt_of_edge ht)) t ht, ho _ ?_, ho _ ?_⟩
    · exact hu.own _ h.start_lt (by rw [h.start_state])
    · exact hu.own _ h.stop_lt (by rw [h.stop_state])
  · rintro ⟨ho, hstart, hstop⟩ s hs
    by_cases hlt : s < d.states.size
    · have hr : (d.state s).rule = r := by
        by_contra hne
        rw [hu.old s hlt hne] at hs
        exact hne hs
      rcases h.only s hlt hr with rfl | rfl
      · exact hstart
      · exact hstop
    · exact ho s (by lia)

/-- A rule that was fresh has the language of what its start leads to. -/
theorem Fresh.denotes (h : d.Fresh r) (hu : Untouched r d d') {entry : StateId}
    (hstart : (d'.state (d.rule r).start).transitions = [.epsilon entry])
    (hstop : (d'.state (d.rule r).stop).transitions = [])
    (hc : ∀ R, d'.Obeys d.states.size R → l * R (d.rule r).stop ≤ R entry)
    (hs : ∃ R, d'.Obeys d.states.size R ∧ 1 ≤ R (d.rule r).stop ∧ R entry ≤ R (d.rule r).start ∧
      R (d.rule r).start ≤ l) : RuleDenotes d'.state r (d'.rule r).toRule l := by
  have hiff : ∀ R, ObeysIn d'.state r R ↔
      d'.Obeys d.states.size R ∧ R entry ≤ R (d.rule r).start := by
    intro R
    have hone : {(Transition.epsilon entry).letters} * R (Transition.epsilon entry).next = R entry :=
      one_mul _
    rw [h.obeysIn_iff hu, hstart, hstop, List.forall_mem_singleton, hone]
    simp
  obtain ⟨hstart', hstop'⟩ := hu.ends r
  refine ⟨fun R hR => ?_, ?_⟩
  · obtain ⟨ho, hentry⟩ := (hiff R).1 hR
    rw [hstart', hstop']
    exact (hc R ho).trans hentry
  · obtain ⟨R, ho, hone, hentry, hl⟩ := hs
    rw [hstart', hstop']
    exact ⟨R, (hiff R).2 ⟨ho, hentry⟩, hone, hl⟩

/-- The labels of the ends of rule `r`, before those of the states from `m` on. -/
def labelEnds (m : StateId) (rule : Rule) (l : Language Letter) (R : StateId → Language Letter) :
    StateId → Language Letter :=
  labelUpTo m (fun s => if s = rule.stop then 1 else l) R

theorem Fresh.labelEnds (h : d.Fresh r) (l : Language Letter) (R : StateId → Language Letter) :
    let R' := labelEnds d.states.size (d.rule r).toRule l R
    R' (d.rule r).stop = 1 ∧ R' (d.rule r).start = l ∧ ∀ s, d.states.size ≤ s → R' s = R s :=
  ⟨(labelUpTo_lt h.stop_lt).trans (if_pos rfl),
    (labelUpTo_lt h.start_lt).trans (if_neg h.start_ne_stop), fun _ hs => labelUpTo_ge hs⟩

/-- The start of a rule leads to its body. -/
theorem Fresh.transitions_start (h : d.Fresh r) (ha : Adds r d (f, d₁)) :
    (((d₁.addEpsilon (d.rule r).start f.entry).addEpsilon f.exit (d.rule r).stop).state
      (d.rule r).start).transitions = [.epsilon f.entry] := by
  have hlt := h.start_lt
  have hexit := ha.holds.exit_ge
  have hsize := ha.grows.size
  dsimp only at hexit hsize
  rw [state_addEpsilon_other (by lia), addEpsilon, state_addTransition (by lia), if_pos rfl,
    ha.grows.old _ hlt, h.start_state]
  rfl

theorem Fresh.denotes_plain (h : d.Fresh r) (ha : Adds r d (f, d₁)) (hf : DenotesOne d (f, d₁) l)
    (hu : Untouched r d
      ((d₁.addEpsilon (d.rule r).start f.entry).addEpsilon f.exit (d.rule r).stop)) :
    let d' := (d₁.addEpsilon (d.rule r).start f.entry).addEpsilon f.exit (d.rule r).stop
    RuleDenotes d'.state r (d'.rule r).toRule l := by
  have hlt := h.start_lt
  have hlt' := h.stop_lt
  have hentry := ha.holds.entry_ge
  have hexit := ha.holds.exit_ge
  have hsize := ha.grows.size
  dsimp only at hentry hexit hsize
  have hobeys : ∀ R, ((d₁.addEpsilon (d.rule r).start f.entry).addEpsilon f.exit
      (d.rule r).stop).Obeys d.states.size R ↔
        d₁.Obeys d.states.size R ∧ R (d.rule r).stop ≤ R f.exit := by
    intro R
    rw [obeys_addEpsilon hexit (by rw [size_addEpsilon]; exact ha.holds.exit_lt),
      obeys_addEpsilon_of_lt hlt]
  refine h.denotes hu (h.transitions_start ha) ?_ ?_ ?_
  · rw [state_addEpsilon_other (by lia), state_addEpsilon_other h.start_ne_stop.symm,
      ha.grows.old _ hlt', h.stop_state]
  · intro R hR
    obtain ⟨ho, hstop⟩ := (hobeys R).1 hR
    exact (mul_le_mul_right hstop l).trans (hf.complete_one ho)
  · obtain ⟨R, hR, hk, hl⟩ := hf.sound_one 1
    obtain ⟨hstop, hstart, hnew⟩ := h.labelEnds l R
    refine ⟨_, (hobeys _).2 ⟨hR.congr ha.grows.closed fun s hs _ => hnew s hs, ?_⟩, hstop.ge, ?_,
      hstart.le⟩
    · rwa [hstop, hnew _ hexit]
    · rwa [hstart, hnew _ hentry, ← mul_one l]

theorem closed_starLoop {lo : StateId} {parts : List Fragment} (hc : d.Closed lo)
    (hlo : lo ≤ d.states.size) (hp : ∀ f ∈ parts, lo ≤ f.entry ∧ f.entry < d.states.size) :
    (((starLoop r parts).run d).2).Closed lo := by
  have hsize : ((starLoop r parts).run d).2.states.size = d.states.size + 5 := by
    rw [(rewired_starLoop r parts d).size, size_starStates]
  intro s hs t ht
  rw [hsize]
  rcases mem_starLoop ht with ⟨-, ht⟩ | ⟨-, rfl | rfl⟩ | ⟨-, f, hf, rfl⟩ | ⟨f, -, -, rfl⟩ |
    ⟨-, rfl⟩ | ⟨-, rfl⟩
  · have := hc s hs t ht
    lia
  case inr.inr.inl =>
    have := hp f hf
    simp only [Transition.epsilon, Transition.next]
    lia
  all_goals
    simp only [Transition.epsilon, Transition.next]
    lia

end Draft

namespace Looped

variable {levels : Int → Prop} {head : Fragment} {guards : List (StateId × Int)}
  {parts : List Fragment} {d₂ : Draft} {languages : List (Language Letter)}

theorem holds (h : Looped d r levels head d₁ guards parts d₂) {f : Fragment} (hf : f ∈ parts) :
    ((d₁.addEpsilon (d.rule r).start head.entry).setLeftRecursive r).Holds d₂ f :=
  (h.parts f hf).1.of_le (Nat.le_of_eq size_addEpsilon)

/-- What was added to the rule are the heads, the loop, and what joins them. -/
theorem obeys_iff (h : Looped d r levels head d₁ guards parts d₂) :
    (looped d r head parts d₂).Obeys d.states.size R ↔
      d₁.Obeys d.states.size R ∧ ((starLoop r parts).run d₂).2.Obeys d₁.states.size R ∧
        R d₂.states.size ≤ R head.exit ∧ R (d.rule r).stop ≤ R (d₂.states.size + 4) := by
  obtain ⟨hle₁, hle₂⟩ := h.size_le
  have hsize : ((d₁.addEpsilon (d.rule r).start head.entry).setLeftRecursive r).states.size =
      d₁.states.size := size_addEpsilon
  have hsize' : (((starLoop r parts).run d₂).2.markPrecedenceDecision d₂.states.size).states.size =
      d₂.states.size + 5 := by
    rw [size_markPrecedenceDecision, (rewired_starLoop r parts d₂).size, size_starStates]
  have hexit := h.heads.holds.exit_lt
  have hparts : ∀ f ∈ parts, d.Holds d₂ f := fun f hf => (h.parts f hf).1.of_le hle₁
  have hmark : (((starLoop r parts).run d₂).2.markPrecedenceDecision d₂.states.size).Obeys
      d.states.size R ↔ ((starLoop r parts).run d₂).2.Obeys d.states.size R := by
    refine forall₂_congr fun s _ => ?_
    rw [transitions_markPrecedenceDecision (lt_size_starLoop r parts d₂)]
  have hheads : ((d₁.addEpsilon (d.rule r).start head.entry).setLeftRecursive r).Obeys
      d.states.size R ↔ d₁.Obeys d.states.size R := obeys_addEpsilon_of_lt h.fresh.start_lt
  have hnew := obeys_starLoop (r := r) (R := R) (fun f hf => h.holds hf) h.operators.size
  rw [hsize] at hnew
  rw [looped, obeys_addEpsilon (by lia) (by rw [size_addEpsilon]; lia),
    obeys_addEpsilon h.heads.holds.exit_ge (by simp only at hexit; lia), hmark,
    obeys_starLoop hparts (by lia), h.operators.obeys_iff (by lia), hheads, hsize, hnew]
  simp only [and_assoc]

theorem transitions_start (h : Looped d r levels head d₁ guards parts d₂) :
    ((looped d r head parts d₂).state (d.rule r).start).transitions = [.epsilon head.entry] := by
  obtain ⟨hle₁, hle₂⟩ := h.size_le
  have hlt := h.fresh.start_lt
  have hexit := h.heads.holds.exit_ge
  simp only at hexit
  rw [looped, state_addEpsilon_other (by lia), state_addEpsilon_other (by lia),
    transitions_markPrecedenceDecision (lt_size_starLoop r parts d₂),
    state_starLoop_other (by lia) fun f hf => by have := (h.parts f hf).1.exit_ge; lia,
    h.state_start]

theorem transitions_stop (h : Looped d r levels head d₁ guards parts d₂) :
    ((looped d r head parts d₂).state (d.rule r).stop).transitions = [] := by
  obtain ⟨hle₁, hle₂⟩ := h.size_le
  have hlt := h.fresh.stop_lt
  have hexit := h.heads.holds.exit_ge
  simp only at hexit
  rw [looped, state_addEpsilon_other (by lia), state_addEpsilon_other (by lia),
    transitions_markPrecedenceDecision (lt_size_starLoop r parts d₂),
    state_starLoop_other (by lia) fun f hf => by have := (h.parts f hf).1.exit_ge; lia,
    h.state_old hlt h.fresh.start_ne_stop.symm, h.fresh.stop_state]

/-- A left-recursive rule has the words of its heads, and words of its operators after them. -/
theorem denotes (h : Looped d r levels head d₁ guards parts d₂)
    (hhead : DenotesOne d (head, d₁) l)
    (hparts : Denotes ((d₁.addEpsilon (d.rule r).start head.entry).setLeftRecursive r) d₂ parts
      languages) :
    RuleDenotes (looped d r head parts d₂).state r ((looped d r head parts d₂).rule r).toRule
      (l * languages.sum∗) := by
  obtain ⟨hle₁, hle₂⟩ := h.size_le
  have hentry := h.heads.holds.entry_ge
  have hentry' := h.heads.holds.entry_lt
  have hexit := h.heads.holds.exit_ge
  have hexit' := h.heads.holds.exit_lt
  simp only at hentry hentry' hexit hexit'
  have hsize : ((d₁.addEpsilon (d.rule r).start head.entry).setLeftRecursive r).states.size =
      d₁.states.size := size_addEpsilon
  have hloop := denotes_starLoop (r := r) h.operators.closed (fun f hf => h.holds hf)
    h.operators.size hparts
  have hclosed := closed_starLoop (r := r) h.operators.closed h.operators.size
    fun f hf => ⟨(h.holds hf).entry_ge, (h.holds hf).entry_lt⟩
  rw [DenotesOne, starLoop_ends] at hloop
  rw [hsize] at hclosed
  refine h.fresh.denotes h.untouched h.transitions_start h.transitions_stop ?_ ?_
  · intro R hR
    obtain ⟨hheads, hrounds, hjoin, hstop⟩ := h.obeys_iff.1 hR
    have hrounds' := hloop.complete_one (R := R) (by rwa [hsize])
    calc l * languages.sum∗ * R (d.rule r).stop
        ≤ l * languages.sum∗ * R (d₂.states.size + 4) := mul_le_mul_right hstop _
      _ = l * (languages.sum∗ * R (d₂.states.size + 4)) := mul_assoc _ _ _
      _ ≤ l * R head.exit := mul_le_mul_right (hrounds'.trans hjoin) _
      _ ≤ R head.entry := hhead.complete_one hheads
  · obtain ⟨R₂, h₂, hk₂, hl₂⟩ := hloop.sound_one 1
    obtain ⟨R₁, h₁, hk₁, hl₁⟩ := hhead.sound_one languages.sum∗
    rw [hsize] at h₂
    rw [mul_one] at hl₂
    simp only at hk₂ hl₂ hk₁ hl₁
    obtain ⟨hstop, hstart, hnew⟩ := h.fresh.labelEnds (l * languages.sum∗)
      (labelUpTo d₁.states.size R₁ R₂)
    refine ⟨_, h.obeys_iff.2 ⟨?_, ?_, ?_, ?_⟩, hstop.ge, ?_, hstart.le⟩
    · exact h₁.congr h.heads.grows.closed fun s hs hs' => (hnew s hs).trans (labelUpTo_lt hs')
    · exact h₂.congr hclosed fun s hs _ => (hnew s (by lia)).trans (labelUpTo_ge hs)
    · rw [hnew _ (by lia), hnew _ hexit, labelUpTo_ge hle₂, labelUpTo_lt hexit']
      exact hl₂.trans hk₁
    · rw [hstop, hnew _ (by lia), labelUpTo_ge (by lia)]
      exact hk₂
    · rw [hstart, hnew _ hentry, labelUpTo_lt hentry']
      exact hl₁

end Looped

/-- In a lowered body a free edge leads from the start of the rule. -/
theorem RuleBody.start_lower {name : String} {body : RuleBody} (h : d.Fresh r) (hd : d.CallsAlone)
    (hrun : runOn (body.lower name r) d = (.ok (), d')) :
    ∃ entry, (d'.state (d'.rule r).start).transitions = [.epsilon entry] := by
  have hu := (RuleBody.shape_lower h hd hrun).untouched
  rw [(hu.ends r).1]
  cases body with
  | plain body =>
    rw [lower_plain] at hrun
    have ha := Element.adds_lower r body d
    generalize (body.lower r).run d = part at *
    obtain ⟨f, d₁⟩ := part
    have hr := ha.grows.rules r
    have hstart : (d₁.rule r).start = (d.rule r).start := congrArg Rule.start hr
    have hstop : (d₁.rule r).stop = (d.rule r).stop := congrArg Rule.stop hr
    obtain rfl := (Prod.mk.inj hrun).2
    simp only [hstart, hstop]
    exact ⟨_, h.transitions_start ha⟩
  | leftRecursive alternatives =>
    obtain ⟨heads, d₁, languages, hheads, hparts, -, -⟩ := denotes_heads r alternatives d
    have ha := adds_choice hparts
    rw [lower_leftRecursive name r alternatives hheads] at hrun
    by_cases he : heads.isEmpty
    · rw [if_pos he] at hrun
      cases hrun
    rw [if_neg he] at hrun
    dsimp only at hrun
    generalize (choice r heads).run d₁ = result at *
    obtain ⟨head, d₂⟩ := result
    have hr := ha.grows.rules r
    have hstart : (d₂.rule r).start = (d.rule r).start := congrArg Rule.start hr
    have hstop : (d₂.rule r).stop = (d.rule r).stop := congrArg Rule.stop hr
    simp only [hstart, hstop] at hrun
    cases hops : (RuleBody.leftRecursive alternatives).operators with
    | nil =>
      rw [hops] at hrun
      obtain rfl := (Prod.mk.inj hrun).2
      exact ⟨_, h.transitions_start ha⟩
    | cons op rest =>
      rw [hops] at hrun
      obtain rfl := (Prod.mk.inj hrun).2
      have hnonneg : ∀ o ∈ op :: rest, ∀ floor, o.operand = some floor → 0 ≤ floor :=
        fun o ho _ hf => operand_nonneg (by rw [hops]; exact ho) hf
      have hlooped : ∃ guards, Looped d r (fun _ => True) head d₂ guards _ _ :=
        looped_operators h hd ha (fun _ _ => trivial) hnonneg
      obtain ⟨guards, hloop⟩ := hlooped
      rw [lowerOperators_run]
      exact ⟨_, hloop.transitions_start⟩

/-- A lowered body gives its rule its words. -/
theorem RuleBody.denotes_lower {name : String} {body : RuleBody} (h : d.Fresh r)
    (hd : d.CallsAlone) (hrun : runOn (body.lower name r) d = (.ok (), d')) :
    RuleDenotes d'.state r (d'.rule r).toRule (body.language r) := by
  have hu := (RuleBody.shape_lower h hd hrun).untouched
  cases body with
  | plain body =>
    rw [lower_plain] at hrun
    have ha := Element.adds_lower r body d
    have hf := Element.denotes_lower r body d
    generalize (body.lower r).run d = part at *
    obtain ⟨f, d₁⟩ := part
    have hr := ha.grows.rules r
    have hstart : (d₁.rule r).start = (d.rule r).start := congrArg Rule.start hr
    have hstop : (d₁.rule r).stop = (d.rule r).stop := congrArg Rule.stop hr
    obtain rfl := (Prod.mk.inj hrun).2
    simp only [hstart, hstop] at hu ⊢
    exact h.denotes_plain ha hf hu
  | leftRecursive alternatives =>
    obtain ⟨heads, d₁, languages, hheads, hparts, hden, hsum⟩ := denotes_heads r alternatives d
    have ha := adds_choice hparts
    have hf := denotes_choice hparts hden
    rw [lower_leftRecursive name r alternatives hheads] at hrun
    rw [language, ← hsum, ← sum_operators]
    by_cases he : heads.isEmpty
    · rw [if_pos he] at hrun
      cases hrun
    rw [if_neg he] at hrun
    dsimp only at hrun
    generalize (choice r heads).run d₁ = result at *
    obtain ⟨head, d₂⟩ := result
    have hr := ha.grows.rules r
    have hstart : (d₂.rule r).start = (d.rule r).start := congrArg Rule.start hr
    have hstop : (d₂.rule r).stop = (d.rule r).stop := congrArg Rule.stop hr
    simp only [hstart, hstop] at hrun
    cases hops : (RuleBody.leftRecursive alternatives).operators with
    | nil =>
      rw [hops] at hrun
      obtain rfl := (Prod.mk.inj hrun).2
      rw [List.map_nil, List.sum_nil, kstar_zero, mul_one]
      exact h.denotes_plain ha hf hu
    | cons op rest =>
      rw [hops] at hrun
      obtain rfl := (Prod.mk.inj hrun).2
      have hnonneg : ∀ o ∈ op :: rest, ∀ floor, o.operand = some floor → 0 ≤ floor :=
        fun o ho _ hf => operand_nonneg (by rw [hops]; exact ho) hf
      have hlooped : ∃ guards, Looped d r (fun _ => True) head d₂ guards _ _ :=
        looped_operators h hd ha (fun _ _ => trivial) hnonneg
      obtain ⟨guards, hloop⟩ := hlooped
      rw [lowerOperators_run]
      exact hloop.denotes hf (Operator.denotes_lowerAll r (op :: rest) hnonneg _)

end

/-- Every rule of the draft of a grammar has the words of its body. -/
theorem Grammar.denotes_draft {g : Grammar} {d : Draft} (h : g.draft = .ok d) {r : RuleId}
    {rule : GrammarRule} {body : RuleBody} (hr : g.rules[r]? = some rule)
    (hb : rule.body = some body) :
    RuleDenotes d.state r (d.rule r).toRule (body.language r) := by
  have hall : ∀ i rule body, i < g.rules.size → g.rules[i]? = some rule → rule.body = some body →
      RuleDenotes d.state i (d.rule i).toRule (body.language i) := by
    refine draft_induct h (I := fun k d => ∀ i rule body, i < k → g.rules[i]? = some rule →
      rule.body = some body → RuleDenotes d.state i (d.rule i).toRule (body.language i)) ?_ ?_
    · intro d _ _ i _ _ hi
      exact absurd hi (Nat.not_lt_zero i)
    · intro k rule d d' hk hfresh halone hrun hI i rule' body hi hrule hbody
      obtain ⟨-, hu, -⟩ := GrammarRule.shape_lower hfresh halone hrun
      by_cases hik : i = k
      · subst hik
        rw [hk] at hrule
        obtain rfl := Option.some.inj hrule
        rw [GrammarRule.lower_some hbody] at hrun
        exact RuleBody.denotes_lower hfresh halone hrun
      · have hd := hI i rule' body (by lia) hrule hbody
        rcases hu with rfl | hu
        · exact hd
        · exact hd.untouched hu hik
  exact hall r rule body (Array.getElem?_eq_some_iff.1 hr).1 hr hb

namespace Network

variable {n : Network} {r : RuleId} {R : StateId → Language Letter} {s b : StateId}
  {w : List Letter}

/-- What paths to a state spell is a labelling that is obeyed. -/
theorem obeysIn_spelling (n : Network) (r : RuleId) (b : StateId) :
    ObeysIn n.state r fun s => {w | n.Spelling s w b} := by
  intro s _ t ht w hw
  obtain ⟨_, rfl, v, hv, rfl⟩ := Language.mem_mul.1 hw
  exact Spelling.step ht hv

/-- Whatever is obeyed, a path spells a word of the label where it begins. -/
theorem Spelling.mem_of_obeysIn {levels : RuleId → Int → Prop} (hn : n.Shaped levels)
    (hr : r < n.rules.size) (hR : ObeysIn n.state r R) (h : n.Spelling s w b)
    (hs : (n.state s).rule = r) (hb : 1 ≤ R b) : w ∈ R s := by
  induction h with
  | done s => exact hb Language.nil_mem_one
  | step ht _ ih =>
    have hnext := ih ((hn.rule r hr).next _ hs _ ht).2 hb
    exact hR _ hs _ ht (Language.append_mem_mul rfl hnext)

end Network

/-- Lowering keeps the words of a rule: its paths spell what its body denotes. -/
theorem Grammar.language_compile {g : Grammar} {c : CompiledGrammar} (h : g.compile = .ok c)
    {r : RuleId} {rule : GrammarRule} (hr : g.rules[r]? = some rule) :
    ∃ body, rule.body = some body ∧ c.network.language r = body.language r := by
  obtain ⟨body, hb⟩ := exists_body_compile h hr
  refine ⟨body, hb, ?_⟩
  obtain ⟨d, hd, hstate, hrule⟩ := compile_eq_ok h
  obtain ⟨hshaped, hcount⟩ := shaped_compile h
  have hlt : r < c.network.rules.size := by
    rw [hcount]
    exact (Array.getElem?_eq_some_iff.1 hr).1
  have hiff : ∀ R, ObeysIn d.state r R ↔ ObeysIn c.network.state r R := by
    intro R
    refine forall_congr' fun s => ?_
    rw [(hstate s).1, (hstate s).2]
  obtain ⟨hcomplete, R, hR, hone, hl⟩ := denotes_draft hd hr hb
  rw [← hrule] at hcomplete hone hl
  refine le_antisymm (fun w hw => hl ?_) ?_
  · exact hw.mem_of_obeysIn hshaped hlt ((hiff R).1 hR) (hshaped.rule r hlt).start_rule hone
  · have hle := hcomplete _ ((hiff _).2 (c.network.obeysIn_spelling r (c.network.rule r).stop))
    have hnil : (1 : Language Letter) ≤
        {w | c.network.Spelling (c.network.rule r).stop w (c.network.rule r).stop} := by
      rintro w rfl
      exact .done _
    rw [← mul_one (body.language r)]
    exact (mul_le_mul_right hnil _).trans hle

/-- The start of a rule leads on for free, and to one state only. -/
theorem Grammar.start_compile {g : Grammar} {c : CompiledGrammar} (h : g.compile = .ok c) {r : RuleId}
    (hr : r < g.rules.size) :
    ∃ entry, (c.network.state (c.network.rule r).start).transitions = [.epsilon entry] := by
  obtain ⟨d, hd, hstate, hrule⟩ := compile_eq_ok h
  have hall : ∀ i < g.rules.size, (d.rule i).start < d.states.size ∧
      (d.state (d.rule i).start).rule = i ∧
      ∃ entry, (d.state (d.rule i).start).transitions = [.epsilon entry] := by
    refine draft_induct hd (I := fun k d => ∀ i < k, (d.rule i).start < d.states.size ∧
      (d.state (d.rule i).start).rule = i ∧
      ∃ entry, (d.state (d.rule i).start).transitions = [.epsilon entry]) ?_ ?_
    · intro d _ _ i hi
      exact absurd hi (Nat.not_lt_zero i)
    · intro k rule d d' hk hfresh halone hrun hI i hi
      obtain ⟨hshape, hu, -⟩ := GrammarRule.shape_lower hfresh halone hrun
      by_cases hik : i = k
      · subst hik
        obtain ⟨body, hbody⟩ := exists_body_compile h hk
        rw [GrammarRule.lower_some hbody] at hrun
        exact ⟨hshape.start_lt, hshape.start_rule, RuleBody.start_lower hfresh halone hrun⟩
      · obtain ⟨hlt, hstart, ht⟩ := hI i (by omega)
        rcases hu with rfl | hu
        · exact ⟨hlt, hstart, ht⟩
        · have hold := hu.old _ hlt (by rwa [hstart])
          rw [(hu.ends i).1, hold]
          exact ⟨hlt.trans_le hu.size, hstart, ht⟩
  rw [hrule, (hstate _).1]
  exact (hall r hr).2.2

/-- Nothing is called from the start of a rule. -/
theorem Grammar.followOf?_start {g : Grammar} {c : CompiledGrammar} (h : g.compile = .ok c)
    {r : RuleId} (hr : r < c.network.rules.size) :
    c.network.followOf? (c.network.rule r).start = none := by
  rw [(shaped_compile h).2] at hr
  obtain ⟨entry, ht⟩ := start_compile h hr
  unfold Network.followOf?
  rw [ht]
  rfl

/-- `e` is ID, or `e` PLUS `e`. -/
def sums : Grammar :=
  let (id, g) := ({} : Grammar).addToken "ID"
  let (plus, g) := g.addToken "PLUS"
  let (e, g) := g.addRule "e"
  g.define e (.leftRecursive [.binary .left [.token plus], .primary [.token id]])

def sumsDraft : Draft := sums.draft.toOption.getD {}

theorem leftRecursion_sumsDraft : sumsDraft.leftRecursion? = none := by
  have hnullable : sumsDraft.nullableRules = Array.replicate 1 false := by
    refine Draft.nullableRules_of_stop (by cbv) fun r hr => ?_
    obtain rfl : r = 0 := by omega
    cbv
  unfold Draft.leftRecursion? Draft.leftCalls
  rw [hnullable]
  cbv

set_option maxRecDepth 20000 in
theorem exists_compile_sums : ∃ c, sums.compile = .ok c := by
  have hdraft : sums.draft = .ok sumsDraft := by cbv
  have hcheck : sumsDraft.check = .ok () := by
    unfold Draft.check
    rw [leftRecursion_sumsDraft]
    cbv
  exact ⟨_, Grammar.compile_of_check hdraft hcheck⟩

/-- A sum is a token, and then operators that are tested, each with its operand one level up. -/
theorem language_sums : ∃ c, sums.compile = .ok c ∧ c.network.language 0 =
    {[.edge (.atom 1)]} * ({[.edge (.precedence 2), .edge (.atom 2), .call 0 3]})∗ := by
  obtain ⟨c, hc⟩ := exists_compile_sums
  have hrule : sums.rules[0]? = some ⟨"e", some (.leftRecursive
    [.binary .left [.token 2], .primary [.token 1]])⟩ := by cbv
  obtain ⟨body, hbody, hlanguage⟩ := Grammar.language_compile hc hrule
  obtain rfl := Option.some.inj hbody
  refine ⟨c, hc, hlanguage.trans ?_⟩
  simp only [RuleBody.language, RuleBody.headsLanguage, RuleBody.operatorsLanguage,
    OperatorAlternative.headLanguage, OperatorAlternative.operatorLanguage, Element.languages,
    Element.language, List.prod_singleton, zero_add, add_zero]
  have hword (v w : List Letter) : ({v} : Language Letter) * {w} = {v ++ w} := Set.image2_singleton
  rw [hword, hword]
  rfl

end AdaptiveParsing
