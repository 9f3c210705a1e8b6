import AdaptiveParsing.Proofs.Lookahead.ContextFree
import AdaptiveParsing.Proofs.Network.Compiled
/-!
What the edges of a draft come from. An edge is taken for free, or stands for an element at a leaf of
its rule, or for a level or an operand of an operator. Main statements: what holds of all these holds of
the edges that a body adds (`RuleBody.only_lower`), what every rule keeps holds in the end
(`Grammar.draft_induct`), a grammar without conditions asks none (`Grammar.predicateFree_compile`), and
one with a rule that has no body does not compile (`Grammar.exists_body_compile`).
-/

namespace AdaptiveParsing

mutual

/-- The elements inside an element that are not made of others. -/
def Element.leaves : Element → List Element
  | .seq items => Element.leavesAll items
  | .alt alternatives => Element.leavesAll alternatives
  | .opt e => e.leaves
  | .star e => e.leaves
  | .plus e => e.leaves
  | e => [e]

def Element.leavesAll : List Element → List Element
  | [] => []
  | e :: rest => e.leaves ++ Element.leavesAll rest

end

/-- What it takes to pass an element that is not made of others, in rule `r`. A call goes on at
`follow`. -/
def Element.edge (r : RuleId) (follow : StateId) : Element → EdgeKind
  | .token t => .atom t
  | .set types => .set (.ofList types)
  | .notSet types => .notSet (.ofList types)
  | .wildcard => .wildcard
  | .rule c => .rule c follow 0
  | .predicate index => .predicate r index false
  | .contextPredicate index => .predicate r index true
  | .action index => .action r index
  | _ => .epsilon

/-- The items of an alternative of a left-recursive rule. -/
def OperatorAlternative.items : OperatorAlternative → List Element
  | binary _ items | suffix items | prefixed items | primary items => items

/-- The elements of a rule that are not made of others. -/
def RuleBody.leaves : RuleBody → List Element
  | plain body => body.leaves
  | leftRecursive alternatives => alternatives.flatMap fun a => Element.leavesAll a.items

namespace Draft

/-- Every edge has such a kind, for the state it leaves. -/
def Only (Q : StateId → EdgeKind → Prop) (d : Draft) : Prop :=
  ∀ s, ∀ t ∈ (d.state s).transitions, Q s t.kind

variable {Q : StateId → EdgeKind → Prop} {d : Draft} {a : StateId} {t : Transition}

theorem Only.addState (h : d.Only Q) (kind : StateKind) (r : RuleId) :
    (d.addState kind r).2.Only Q := by
  intro s t ht
  rw [state_addState] at ht
  by_cases hs : s = d.states.size
  · rw [if_pos hs] at ht
    cases ht
  · rw [if_neg hs] at ht
    exact h s t ht

theorem Only.addTransition (h : d.Only Q) (ht : Q a t.kind) : (d.addTransition a t).Only Q := by
  intro s u hu
  rcases state_addTransition_or d a t s with he | ⟨rfl, he⟩
  · rw [he] at hu
    exact h s u hu
  · rw [he] at hu
    rcases List.mem_append.1 hu with hu | hu
    · exact h s u hu
    · rwa [List.mem_singleton.1 hu]

theorem Only.markPrecedenceDecision (h : d.Only Q) (loop : StateId) :
    (d.markPrecedenceDecision loop).Only Q := by
  intro s t ht
  refine h s t ?_
  simp only [Draft.markPrecedenceDecision, Draft.state, Array.getD_eq_getD_getElem?,
    Array.getElem?_modify] at ht ⊢
  split at ht
  · cases hs : d.states[s]? <;> rw [hs] at ht <;> exact ht
  · exact ht

/-- What is kept by whatever adds only edges of such kinds. -/
structure Kept (Q : StateId → EdgeKind → Prop) (I : Draft → Prop) : Prop where
  state : ∀ d kind r, I d → I (d.addState kind r).2
  edge : ∀ d a t, Q a t.kind → I d → I (d.addTransition a t)
  mark : ∀ d loop, I d → I (d.markPrecedenceDecision loop)
  leftRecursive : ∀ d r, I d → I (d.setLeftRecursive r)

theorem kept_only (Q : StateId → EdgeKind → Prop) : Kept Q (Only Q) where
  state _ kind r h := h.addState kind r
  edge _ _ _ ht h := h.addTransition ht
  mark _ loop h := h.markPrecedenceDecision loop
  leftRecursive _ _ h := h

end Draft

namespace DraftM

open Draft

/-- The program adds only edges of such kinds. -/
def Keeps {α : Type} (Q : StateId → EdgeKind → Prop) (m : DraftM α) : Prop :=
  ∀ I : Draft → Prop, Kept Q I → ∀ d, I d → I (m.run d).2

variable {Q : StateId → EdgeKind → Prop} {α β : Type} {r : RuleId}

theorem Keeps.only {m : DraftM α} (h : Keeps Q m) {d : Draft} (hd : d.Only Q) :
    (m.run d).2.Only Q := h _ (kept_only Q) d hd

theorem Keeps.bind {m : DraftM α} {f : α → DraftM β} (h : Keeps Q m) (hf : ∀ a, Keeps Q (f a)) :
    Keeps Q (m >>= f) := fun I hI d hd => by
  rw [run_bind]
  exact hf _ I hI _ (h I hI d hd)

theorem keeps_pure (a : α) : Keeps Q (pure a : DraftM α) := fun _ _ _ hd => hd

theorem keeps_state (kind : StateKind) : Keeps Q (state kind r) :=
  fun _ hI d hd => hI.state d kind r hd

theorem keeps_edge {source : StateId} {t : Transition} (h : ∀ a, Q a t.kind) :
    Keeps Q (edge source t) :=
  fun _ hI d hd => hI.edge d source t (h _) hd

theorem keeps_single {k : EdgeKind} (h : ∀ a, Q a k) : Keeps Q (single r k) :=
  (keeps_state _).bind fun _ => (keeps_state _).bind fun _ => (keeps_edge h).bind fun _ =>
    keeps_pure _

theorem keeps_get : Keeps Q (get : DraftM Draft) := fun _ _ _ hd => hd

theorem keeps_call {callee : RuleId} {precedence : Int}
    (h : ∀ a follow, Q a (.rule callee follow precedence)) : Keeps Q (call r callee precedence) :=
  (keeps_state _).bind fun _ => (keeps_state _).bind fun _ => keeps_get.bind fun _ =>
    (keeps_edge fun a => h a _).bind fun _ => keeps_pure _

section

variable (heps : ∀ a, Q a .epsilon)

include heps

theorem keeps_epsilon {a b : StateId} : Keeps Q (epsilon a b) :=
  fun _ hI d hd => hI.edge d a (.epsilon b) (heps _) hd

theorem keeps_chain (first : Fragment) (rest : List Fragment) : Keeps Q (chain first rest) := by
  induction rest generalizing first with
  | nil => exact keeps_pure _
  | cons next rest ih => exact (keeps_epsilon heps).bind fun _ => ih _

theorem keeps_sequence (parts : List Fragment) : Keeps Q (sequence r parts) := by
  cases parts with
  | nil => exact keeps_single heps
  | cons first rest => exact keeps_chain heps first rest

theorem keeps_alternatives (entry exit : StateId) (parts : List Fragment) :
    Keeps Q (alternatives entry exit parts) := by
  induction parts with
  | nil => exact keeps_pure _
  | cons f rest ih =>
    exact ((keeps_epsilon heps).bind fun _ => keeps_epsilon heps).bind fun _ => ih

theorem keeps_block (parts : List Fragment) (bypass : Bool) : Keeps Q (block r parts bypass) := by
  refine (keeps_state _).bind fun _ => (keeps_state _).bind fun _ =>
    (keeps_alternatives heps _ _ _).bind fun _ => ?_
  cases bypass with
  | false => exact (keeps_pure _).bind fun _ => keeps_pure _
  | true => exact (keeps_epsilon heps).bind fun _ => keeps_pure _

theorem keeps_choice (parts : List Fragment) : Keeps Q (choice r parts) := by
  rcases parts with - | ⟨only, - | ⟨next, rest⟩⟩
  · exact keeps_block heps _ _
  · exact keeps_pure _
  · exact keeps_block heps _ _

theorem keeps_starLoop (parts : List Fragment) : Keeps Q (starLoop r parts) :=
  (keeps_state _).bind fun _ => (keeps_state _).bind fun _ => (keeps_state _).bind fun _ =>
    (keeps_state _).bind fun _ => (keeps_state _).bind fun _ => (keeps_epsilon heps).bind fun _ =>
    (keeps_epsilon heps).bind fun _ => (keeps_alternatives heps _ _ _).bind fun _ =>
    (keeps_epsilon heps).bind fun _ => (keeps_epsilon heps).bind fun _ => keeps_pure _

theorem keeps_plusLoop (parts : List Fragment) : Keeps Q (plusLoop r parts) :=
  (keeps_state _).bind fun _ => (keeps_state _).bind fun _ => (keeps_state _).bind fun _ =>
    (keeps_state _).bind fun _ => (keeps_alternatives heps _ _ _).bind fun _ =>
    (keeps_epsilon heps).bind fun _ => (keeps_epsilon heps).bind fun _ =>
    (keeps_epsilon heps).bind fun _ => keeps_pure _

end

end DraftM

open Draft DraftM

section

variable {Q : StateId → EdgeKind → Prop} (r : RuleId)

mutual

/-- Lowering an element adds the edges of its leaves, and free ones. -/
theorem Element.keeps_lower (heps : ∀ a, Q a .epsilon) (e : Element)
    (h : ∀ leaf ∈ e.leaves, ∀ a follow, Q a (leaf.edge r follow)) : Keeps Q (e.lower r) := by
  match e with
  | .seq items =>
    rw [Element.lower_seq]
    exact (Element.keeps_lowerAll heps items (by rwa [Element.leaves] at h)).bind
      (keeps_sequence heps)
  | .alt alternatives =>
    rw [Element.lower_alt]
    exact (Element.keeps_lowerAll heps alternatives (by rwa [Element.leaves] at h)).bind
      (keeps_choice heps)
  | .opt e =>
    rw [Element.lower_opt]
    exact (Element.keeps_lowerParts heps e (by rwa [Element.leaves] at h)).bind fun _ =>
      keeps_block heps _ _
  | .star e =>
    rw [Element.lower_star]
    exact (Element.keeps_lowerParts heps e (by rwa [Element.leaves] at h)).bind (keeps_starLoop heps)
  | .plus e =>
    rw [Element.lower_plus]
    exact (Element.keeps_lowerParts heps e (by rwa [Element.leaves] at h)).bind (keeps_plusLoop heps)
  | .rule callee =>
    rw [Element.lower]
    exact keeps_call fun a follow => h _ (.head _) a follow
  | .token _ | .set _ | .notSet _ | .wildcard | .predicate _ | .contextPredicate _ | .action _
  | .epsilon =>
    rw [Element.lower]
    exact keeps_single fun a => h _ (.head _) a 0
termination_by (sizeOf e, 0)

theorem Element.keeps_lowerParts (heps : ∀ a, Q a .epsilon) (e : Element) :
    (∀ leaf ∈ e.leaves, ∀ a follow, Q a (leaf.edge r follow)) → Keeps Q (Element.lowerParts r e) := by
  cases e with
  | alt alternatives =>
    intro h
    rw [Element.lowerParts]
    exact Element.keeps_lowerAll heps alternatives (by rwa [Element.leaves] at h)
  | _ =>
    intro h
    rw [Element.lowerParts]
    · exact (Element.keeps_lower heps _ h).bind fun _ => keeps_pure _
    · simp
termination_by (sizeOf e, 1)

theorem Element.keeps_lowerAll (heps : ∀ a, Q a .epsilon) (items : List Element)
    (h : ∀ leaf ∈ Element.leavesAll items, ∀ a follow, Q a (leaf.edge r follow)) :
    Keeps Q (Element.lowerAll r items) := by
  match items with
  | [] =>
    rw [Element.lowerAll_nil]
    exact keeps_pure _
  | e :: rest =>
    rw [Element.leavesAll] at h
    rw [Element.lowerAll_cons]
    refine (Element.keeps_lower heps e fun leaf hl => h leaf (List.mem_append_left _ hl)).bind fun _ => ?_
    exact (Element.keeps_lowerAll heps rest fun leaf hl => h leaf (List.mem_append_right _ hl)).bind
      fun _ => keeps_pure _
termination_by (sizeOf items, 0)

end

theorem Element.keeps_lowerSequence (heps : ∀ a, Q a .epsilon) (items : List Element)
    (h : ∀ leaf ∈ Element.leavesAll items, ∀ a follow, Q a (leaf.edge r follow)) :
    Keeps Q (Element.lowerSequence r items) :=
  (Element.keeps_lowerAll r heps items h).bind (keeps_sequence heps)

theorem OperatorAlternative.keeps_lowerHead (heps : ∀ a, Q a .epsilon)
    (hcall : ∀ a follow precedence, Q a (.rule r follow precedence)) (level : Int)
    (alternative : OperatorAlternative)
    (h : ∀ leaf ∈ Element.leavesAll alternative.items, ∀ a follow, Q a (leaf.edge r follow)) :
    Keeps Q (alternative.lowerHead? r level) := by
  cases alternative with
  | primary items =>
    exact (Element.keeps_lowerSequence r heps items h).bind fun _ => keeps_pure _
  | prefixed items =>
    exact (Element.keeps_lowerSequence r heps items h).bind fun _ =>
      (keeps_call fun a follow => hcall a follow level).bind fun _ =>
      (keeps_epsilon heps).bind fun _ => keeps_pure _
  | binary _ _ | suffix _ => exact keeps_pure _

theorem Operator.keeps_lower (heps : ∀ a, Q a .epsilon)
    (hcall : ∀ a follow precedence, Q a (.rule r follow precedence))
    (hlevel : ∀ a level, Q a (.precedence level)) (op : Operator)
    (h : ∀ leaf ∈ Element.leavesAll op.items, ∀ a follow, Q a (leaf.edge r follow)) :
    Keeps Q (op.lower r) := by
  refine (keeps_state _).bind fun _ => (Element.keeps_lowerSequence r heps op.items h).bind fun _ =>
    (keeps_edge fun a => hlevel a _).bind fun _ => ?_
  cases op.operand with
  | none => exact keeps_pure _
  | some floor =>
    exact (keeps_call fun a follow => hcall a follow floor).bind fun _ =>
      (keeps_epsilon heps).bind fun _ => keeps_pure _

theorem keeps_mapM {α β : Type} {f : α → DraftM β} (l : List α) (h : ∀ a ∈ l, Keeps Q (f a)) :
    Keeps Q (l.mapM f) := by
  induction l with
  | nil => exact keeps_pure _
  | cons a rest ih =>
    rw [List.mapM_cons]
    exact (h a (.head _)).bind fun _ => (ih fun b hb => h b (.tail _ hb)).bind fun _ => keeps_pure _

theorem RuleBody.keeps_lowerOperators (heps : ∀ a, Q a .epsilon)
    (hcall : ∀ a follow precedence, Q a (.rule r follow precedence))
    (hlevel : ∀ a level, Q a (.precedence level)) (source stop : StateId) (operators : List Operator)
    (h : ∀ op ∈ operators, ∀ leaf ∈ Element.leavesAll op.items, ∀ a follow,
      Q a (leaf.edge r follow)) :
    Keeps Q (lowerOperators r source stop operators) := by
  have hmark : ∀ loop : StateId, Keeps Q
      (modify fun d => d.markPrecedenceDecision loop : DraftM PUnit) :=
    fun loop _ hI d hd => hI.mark d loop hd
  have hset : Keeps Q (modify fun d => d.setLeftRecursive r : DraftM PUnit) :=
    fun _ hI d hd => hI.leftRecursive d r hd
  exact hset.bind fun _ =>
    (keeps_mapM _ fun op ho => op.keeps_lower r heps hcall hlevel (h op ho)).bind fun _ =>
    (keeps_starLoop heps _).bind fun _ => (hmark _).bind fun _ => (keeps_epsilon heps).bind fun _ =>
    keeps_epsilon heps

/-- The items of an operator are those of its alternative. -/
theorem OperatorAlternative.items_operator? {alternative : OperatorAlternative} {level : Int}
    {op : Operator} (h : alternative.operator? level = some op) : op.items = alternative.items := by
  rcases alternative with ⟨_ | _, _⟩ | _ | _ | _ <;> cases h <;> rfl

theorem RuleBody.mem_of_mem_levels {alternatives : List OperatorAlternative}
    {a : Int × OperatorAlternative} (h : a ∈ levels alternatives) : a.2 ∈ alternatives := by
  obtain ⟨⟨b, i⟩, hb, rfl⟩ := List.mem_map.1 h
  exact List.fst_mem_of_mem_zipIdx hb

/-- The program keeps such edges, whether it fails or not. -/
def KeepsIf {α : Type} (Q : StateId → EdgeKind → Prop) (m : ExceptT NetworkError DraftM α) : Prop :=
  ∀ I : Draft → Prop, Kept Q I → ∀ d, I d → I (runOn m d).2

theorem KeepsIf.bind {α β : Type} {m : ExceptT NetworkError DraftM α}
    {f : α → ExceptT NetworkError DraftM β} (h : KeepsIf Q m) (hf : ∀ a, KeepsIf Q (f a)) :
    KeepsIf Q (m >>= f) := by
  intro I hI d hd
  have hm := h I hI d hd
  rw [runOn_bind]
  generalize runOn m d = result at hm
  obtain ⟨e | a, d₁⟩ := result
  · exact hm
  · exact hf a I hI d₁ hm

theorem keepsIf_lift {α : Type} {m : DraftM α} (h : Keeps Q m) :
    KeepsIf Q (m : ExceptT NetworkError DraftM α) := h

theorem keepsIf_lowerHeads (alternatives : List (Int × OperatorAlternative))
    (h : ∀ a ∈ alternatives, Keeps Q (a.2.lowerHead? r a.1)) :
    KeepsIf Q (lowerHeads r alternatives) := by
  unfold lowerHeads List.filterMapM
  generalize ([] : List Fragment) = collected
  induction alternatives generalizing collected with
  | nil => exact fun _ _ _ hd => hd
  | cons a rest ih =>
    refine KeepsIf.bind (keepsIf_lift (h a (.head _))) fun head => ?_
    cases head with
    | none => exact ih (fun b hb => h b (.tail _ hb)) _
    | some head => exact ih (fun b hb => h b (.tail _ hb)) _

/-- A body adds free edges, those of its leaves, levels and operands. -/
theorem RuleBody.kept_lower {name : String} {body : RuleBody} {d d' : Draft} {I : Draft → Prop}
    (hI : Kept Q I) (heps : ∀ a, Q a .epsilon) (hlevel : ∀ a level, Q a (.precedence level))
    (hcall : ∀ alternatives, body = .leftRecursive alternatives →
      ∀ a follow precedence, Q a (.rule r follow precedence))
    (h : ∀ leaf ∈ body.leaves, ∀ a follow, Q a (leaf.edge r follow)) (hd : I d)
    (hrun : runOn (body.lower name r) d = (.ok (), d')) : I d' := by
  cases body with
  | plain body =>
    rw [lower_plain] at hrun
    obtain rfl := (Prod.mk.inj hrun).2
    have hpart := body.keeps_lower r heps h I hI d hd
    exact hI.edge _ _ _ (heps _) (hI.edge _ _ _ (heps _) hpart)
  | leftRecursive alternatives =>
    have hcall := hcall alternatives rfl
    have hitems : ∀ a ∈ alternatives, ∀ leaf ∈ Element.leavesAll a.items, ∀ s follow,
        Q s (leaf.edge r follow) :=
      fun a ha leaf hl => h leaf (List.mem_flatMap.2 ⟨a, ha, hl⟩)
    have hheads := keepsIf_lowerHeads r (levels alternatives) (fun a ha =>
      a.2.keeps_lowerHead r heps hcall a.1 (hitems a.2 (mem_of_mem_levels ha))) I hI d hd
    have hops : ∀ op ∈ (RuleBody.leftRecursive alternatives).operators, ∀ leaf ∈
        Element.leavesAll op.items, ∀ s follow, Q s (leaf.edge r follow) := by
      intro op hop
      obtain ⟨a, ha, ho⟩ := List.mem_filterMap.1 hop
      rw [a.2.items_operator? ho]
      exact hitems a.2 (mem_of_mem_levels ha)
    generalize hr : runOn (lowerHeads r (levels alternatives)) d = result at hheads
    obtain ⟨e | heads, d₁⟩ := result
    · rw [RuleBody.lower] at hrun
      have hfail : runOn (lowerHeads r (levels alternatives) >>= _) d = (.ok (), d') := hrun
      rw [runOn_bind, hr] at hfail
      cases (Prod.mk.inj hfail).1
    · rw [lower_leftRecursive name r alternatives hr] at hrun
      by_cases he : heads.isEmpty
      · rw [if_pos he] at hrun
        cases hrun
      · rw [if_neg he] at hrun
        have hchoice := (keeps_choice heps heads : Keeps Q (choice r heads)) I hI d₁ hheads
        dsimp only at hrun
        generalize (choice r heads).run d₁ = primary at hrun hchoice
        have hentry := hI.edge _ _ (.epsilon primary.1.entry) (heps (primary.2.rule r).start) hchoice
        cases hoperators : (RuleBody.leftRecursive alternatives).operators with
        | nil =>
          rw [hoperators] at hrun
          obtain rfl := (Prod.mk.inj hrun).2
          exact hI.edge _ _ _ (heps _) hentry
        | cons op rest =>
          rw [hoperators] at hrun hops
          obtain rfl := (Prod.mk.inj hrun).2
          exact keeps_lowerOperators r heps hcall hlevel _ _ _ hops I hI _ hentry

/-- What holds of the leaves of a body, of levels and of operands holds of the edges that the body
adds. -/
theorem RuleBody.only_lower {name : String} {body : RuleBody} {d d' : Draft}
    (heps : ∀ a, Q a .epsilon) (hlevel : ∀ a level, Q a (.precedence level))
    (hcall : ∀ alternatives, body = .leftRecursive alternatives →
      ∀ a follow precedence, Q a (.rule r follow precedence))
    (h : ∀ leaf ∈ body.leaves, ∀ a follow, Q a (leaf.edge r follow)) (hd : d.Only Q)
    (hrun : runOn (body.lower name r) d = (.ok (), d')) : d'.Only Q :=
  kept_lower r (kept_only Q) heps hlevel hcall h hd hrun

end

/-- The element is a condition of the user's. -/
def Element.isPredicate : Element → Bool
  | .predicate _ | .contextPredicate _ => true
  | _ => false

/-- The element is a leaf of the body of rule `r`. -/
def Grammar.HasLeaf (g : Grammar) (r : RuleId) (leaf : Element) : Prop :=
  ∃ rule body, g.rules[r]? = some rule ∧ rule.body = some body ∧ leaf ∈ body.leaves

/-- No rule has a condition of the user's. -/
def Grammar.PredicateFree (g : Grammar) : Prop :=
  ∀ r leaf, g.HasLeaf r leaf → leaf.isPredicate = false

section

open Draft

/-- What holds of a draft without edges, and is kept when a fresh rule is lowered, holds of the draft of a
grammar. -/
theorem Grammar.draft_induct {g : Grammar} {d : Draft} (h : g.draft = .ok d)
    {I : Nat → Draft → Prop}
    (h₀ : ∀ d, d.Declared → d.rules.size = g.rules.size → I 0 d)
    (hstep : ∀ k rule d d', g.rules[k]? = some rule → d.Fresh k → d.CallsAlone →
      runOn (rule.lower k) d = (.ok (), d') → I k d → I (k + 1) d') : I g.rules.size d := by
  obtain ⟨hd, hsize⟩ := declared_foldl (declared_empty g.names.maxType) g.rules.toList
  rw [draft, ← Array.foldl_toList] at h
  generalize g.rules.toList.foldl _ _ = declared at *
  have hsize' : declared.rules.size = g.rules.size := by
    rw [hsize]
    simp
  suffices hall : ∀ rules k (d₁ : Draft), g.rules.toList.drop k = rules → k + rules.length = g.rules.size →
      (∀ i, k ≤ i → i < g.rules.size → d₁.Fresh i) → d₁.CallsAlone → I k d₁ →
      runOn ((rules.zipIdx k).forM fun p => p.1.lower p.2) d₁ = (.ok (), d) →
      I g.rules.size d by
    refine hall _ 0 declared (List.drop_zero) (by simp) (fun i _ hi => hd.fresh i (by lia))
      hd.callsAlone (h₀ declared hd hsize') ?_
    dsimp only at h
    split at h
    · rename_i hrun
      obtain rfl := Except.ok.inj h
      exact hrun
    · cases h
  intro rules
  induction rules with
  | nil =>
    intro k d₁ _ hk _ _ hI hrun
    obtain rfl := (Prod.mk.inj hrun).2
    rwa [← hk]
  | cons rule rest ih =>
    intro k d₁ hdrop hk hfresh hc hI hrun
    rw [List.zipIdx_cons, List.forM, runOn_bind] at hrun
    rcases hfirst : runOn (rule.lower k) d₁ with ⟨outcome, d₂⟩
    rw [hfirst] at hrun
    cases outcome with
    | error e => cases (Prod.mk.inj hrun).1
    | ok u =>
      rw [List.length_cons] at hk
      have hrule : g.rules[k]? = some rule := by
        have := congrArg List.head? hdrop
        simpa [List.head?_drop] using this
      have hk' := hfresh k (Nat.le_refl k) (by lia)
      obtain ⟨-, hu, hc'⟩ := GrammarRule.shape_lower hk' hc hfirst
      refine ih (k + 1) d₂ ?_ (by lia) ?_ hc' (hstep k rule d₁ d₂ hrule hk' hc hfirst hI) hrun
      · have := congrArg List.tail hdrop
        simpa using this
      · intro i hi hi'
        have hf := hfresh i (by lia) hi'
        rcases hu with rfl | hu
        · exact hf
        · exact hf.untouched hu (by lia)

/-- The network of a grammar has the edges and the rules of its draft. -/
theorem Grammar.compile_eq_ok {g : Grammar} {c : CompiledGrammar} (h : g.compile = .ok c) :
    ∃ d, g.draft = .ok d ∧ (∀ s, (c.network.state s).transitions = (d.state s).transitions ∧
      (c.network.state s).rule = (d.state s).rule) ∧ ∀ r, c.network.rule r = (d.rule r).toRule := by
  obtain ⟨d, hd, hb⟩ := build_compile h
  obtain ⟨-, hstates, hrules⟩ := build_eq_ok hb
  refine ⟨d, hd, ?_, rule_of_rules hrules⟩
  intro s
  obtain ⟨-, hrule, htransitions, -⟩ := NetworkState.fields_of_unnumbered (unnumbered_of_states hstates s)
  exact ⟨htransitions, hrule⟩

theorem GrammarRule.lower_some {rule : GrammarRule} {body : RuleBody} {r : RuleId} {d : Draft}
    (h : rule.body = some body) : runOn (rule.lower r) d = runOn (body.lower rule.name r) d := by
  unfold lower
  rw [h]

theorem GrammarRule.lower_none {rule : GrammarRule} {r : RuleId} {d : Draft} (h : rule.body = none) :
    runOn (rule.lower r) d = (.ok (), d) := by
  unfold lower
  rw [h]
  rfl

/-- Every state belongs to a rule. -/
theorem Grammar.rule_lt_compile {g : Grammar} {c : CompiledGrammar} (h : g.compile = .ok c)
    {s : StateId} (hs : s < c.network.states.size) :
    (c.network.state s).rule < c.network.rules.size := by
  obtain ⟨d, hd, hb⟩ := build_compile h
  obtain ⟨-, hstates, -⟩ := build_eq_ok hb
  have hall : ∀ a, a < d.states.size → (d.state a).rule < g.rules.size := by
    refine draft_induct hd
      (I := fun _ d => ∀ a, a < d.states.size → (d.state a).rule < g.rules.size) ?_ ?_
    · intro d hd hcount a ha
      rw [← hcount]
      exact hd.rules a ha
    · intro k rule d d' hk hfresh halone hrun hI a ha
      obtain ⟨-, hu, -⟩ := GrammarRule.shape_lower hfresh halone hrun
      rcases hu with rfl | hu
      · exact hI a ha
      · by_cases hrule : (d'.state a).rule = k
        · rw [hrule]
          exact (Array.getElem?_eq_some_iff.1 hk).1
        · rw [hu.state_eq hrule rfl]
          refine hI a ?_
          by_contra hge
          exact hrule (hu.new a (by lia) ha)
  obtain ⟨d', hd', hstate, -⟩ := compile_eq_ok h
  obtain rfl := Except.ok.inj (hd.symm.trans hd')
  rw [(hstate s).2, (shaped_compile h).2]
  refine hall s ?_
  rwa [hstates, size_skeleton] at hs

/-- The network of a grammar without conditions asks none. -/
theorem Grammar.predicateFree_compile {g : Grammar} {c : CompiledGrammar} (h : g.compile = .ok c)
    (hg : g.PredicateFree) : c.network.PredicateFree := by
  obtain ⟨d, hd, hstate, -⟩ := compile_eq_ok h
  have hall : d.Only fun _ k => k.isPredicate = false := by
    refine draft_induct hd (I := fun _ d => d.Only fun _ k => k.isPredicate = false) ?_ ?_
    · intro d hd _ s t ht
      rw [hd.edgeless] at ht
      cases ht
    · intro k rule d d' hk _ _ hrun hI
      cases hb : rule.body with
      | none =>
        rw [GrammarRule.lower_none hb] at hrun
        obtain rfl := (Prod.mk.inj hrun).2
        exact hI
      | some body =>
        rw [GrammarRule.lower_some hb] at hrun
        refine RuleBody.only_lower k (fun _ => rfl) (fun _ _ => rfl) (fun _ _ _ _ _ => rfl) ?_ hI hrun
        intro leaf hl a follow
        have hp := hg k leaf ⟨rule, body, hk, hb, hl⟩
        cases leaf <;> first | rfl | cases hp
  intro st hst t ht
  obtain ⟨s, hs, rfl⟩ := Array.getElem_of_mem hst
  refine hall s t ?_
  rw [← (hstate s).1]
  simpa [Network.state, Array.getD_eq_getD_getElem?, hs] using ht

/-- A rule that is defined has an edge from its start. -/
def Draft.Founded (d : Draft) : Prop :=
  ∀ c, (d.rule c).defined = true →
    ∃ s, (d.state s).kind = .ruleStart ∧ (d.state s).rule = c ∧ (d.state s).transitions ≠ []

theorem Draft.defined_addTransition {d : Draft} {a : StateId} {t : Transition} {c : RuleId}
    (h : ((d.addTransition a t).rule c).defined = true) :
    (d.rule c).defined = true ∨ a < d.states.size ∧ (d.state a).kind = .ruleStart ∧
      (d.state a).rule = c := by
  unfold addTransition at h
  split at h
  · rename_i hstart
    by_cases ha : a < d.states.size
    · have hs : d.states[a] = d.state a := by simp [state, Array.getD_eq_getD_getElem?, ha]
      simp only [rule, markDefined, Array.getD_eq_getD_getElem?, Array.getElem?_modify] at h
      split at h
      · rename_i hc
        exact .inr ⟨ha, by simpa [ha, hs] using hstart, hc⟩
      · exact .inl (by simpa [rule, Array.getD_eq_getD_getElem?] using h)
    · simp [ha] at hstart
  · exact .inl h

theorem Draft.kept_founded : Kept (fun _ _ => True) Founded where
  state d kind r h c hc := by
    obtain ⟨s, hkind, hrule, hne⟩ := h c hc
    have hlt : s ≠ d.states.size := by
      rintro rfl
      exact hne (by rw [state_of_size_le (Nat.le_refl _)]; rfl)
    refine ⟨s, ?_⟩
    rw [state_addState, if_neg hlt]
    exact ⟨hkind, hrule, hne⟩
  edge d a t _ h c hc := by
    rcases defined_addTransition hc with hc | ⟨ha, hkind, hrule⟩
    · obtain ⟨s, hkind, hrule, hne⟩ := h c hc
      refine ⟨s, ?_⟩
      rcases state_addTransition_or d a t s with he | ⟨-, he⟩ <;> rw [he]
      · exact ⟨hkind, hrule, hne⟩
      · exact ⟨hkind, hrule, by simp⟩
    · refine ⟨a, ?_⟩
      rw [state_addTransition ha, if_pos rfl]
      exact ⟨hkind, hrule, by simp⟩
  mark d loop h c hc := by
    obtain ⟨s, hkind, hrule, hne⟩ := h c hc
    refine ⟨s, ?_⟩
    simp only [markPrecedenceDecision, Draft.state, Array.getD_eq_getD_getElem?,
      Array.getElem?_modify] at hkind hrule hne ⊢
    split
    · cases hs : d.states[s]? <;> rw [hs] at hkind hrule hne <;> exact ⟨hkind, hrule, hne⟩
    · exact ⟨hkind, hrule, hne⟩
  leftRecursive d r h c hc := by
    refine h c ?_
    simp only [setLeftRecursive, rule, Array.getD_eq_getD_getElem?, Array.getElem?_modify] at hc ⊢
    split at hc
    · cases hr : d.rules[c]? <;> rw [hr] at hc <;> exact hc
    · exact hc

theorem Draft.Sound.defined {d : Draft} (h : d.Sound) {r : RuleId} (hr : r < d.rules.size) :
    (d.rule r).defined = true := by
  have hrule : d.checkRule (d.rule r) = .ok () := by
    refine h.rule _ ?_
    simp [Draft.rule, Array.getD_eq_getD_getElem?, hr]
  unfold checkRule at hrule
  split at hrule
  · assumption
  · cases hrule

/-- Every rule of a compiled grammar has a body. -/
theorem Grammar.exists_body_compile {g : Grammar} {c : CompiledGrammar} (h : g.compile = .ok c)
    {r : RuleId} {rule : GrammarRule} (hr : g.rules[r]? = some rule) :
    ∃ body, rule.body = some body := by
  obtain ⟨d, hd, hb⟩ := build_compile h
  obtain ⟨hcheck, -, -⟩ := build_eq_ok hb
  -- nothing leaves the states of a rule that has no body
  have hall : d.Founded ∧ ∀ i rule, g.rules[i]? = some rule → rule.body = none →
      ∀ s, (d.state s).rule = i → (d.state s).transitions = [] := by
    refine draft_induct hd (I := fun _ d => d.Founded ∧ ∀ i rule, g.rules[i]? = some rule →
      rule.body = none → ∀ s, (d.state s).rule = i → (d.state s).transitions = []) ?_ ?_
    · intro d hd _
      refine ⟨fun c hc => ?_, fun _ _ _ _ s _ => hd.edgeless s⟩
      rw [hd.undefined] at hc
      cases hc
    · intro k rule d d' hk hfresh halone hrun ⟨hfounded, hI⟩
      obtain ⟨-, hu, -⟩ := GrammarRule.shape_lower hfresh halone hrun
      cases hb : rule.body with
      | none =>
        rw [GrammarRule.lower_none hb] at hrun
        obtain rfl := (Prod.mk.inj hrun).2
        exact ⟨hfounded, hI⟩
      | some body =>
        rw [GrammarRule.lower_some hb] at hrun
        refine ⟨RuleBody.kept_lower k kept_founded (fun _ => trivial) (fun _ _ => trivial)
          (fun _ _ _ _ _ => trivial) (fun _ _ _ _ => trivial) hfounded hrun, ?_⟩
        intro i rule' hi hnone s hs
        have hne : i ≠ k := by
          rintro rfl
          rw [hk] at hi
          obtain rfl := Option.some.inj hi
          rw [hb] at hnone
          cases hnone
        rcases hu with rfl | hu
        · exact hI i rule' hi hnone s hs
        · have he := hu.state_eq hne hs
          rw [he] at hs ⊢
          exact hI i rule' hi hnone s hs
  obtain ⟨hfounded, hnone⟩ := hall
  obtain ⟨hlt, -⟩ := Array.getElem?_eq_some_iff.1 hr
  obtain ⟨s, -, hs, hne⟩ := hfounded r ((sound_of_check hcheck).1.defined ((shape_draft hd).2.2 ▸ hlt))
  cases hb : rule.body with
  | none => exact absurd (hnone r rule hr hb s hs) hne
  | some body => exact ⟨body, rfl⟩

end

end AdaptiveParsing
