import AdaptiveParsing.Proofs.Grammar.Climbing
import AdaptiveParsing.Proofs.Recognition.Effects
/-!
Expressions in a forest. An invocation stands for an expression if its children are an operand, or an operator
between two invocations that stand for expressions (`Forest.Depicts`). A parse changes only invocations that
are not finished, and those that are stay what they are: main statements are `Forest.Depicts.keeps`,
`Forest.Depicts.outside` and `Forest.Depicts.hang`.
-/

namespace AdaptiveParsing

/-- The tree below an invocation of `e` is the expression. -/
inductive Forest.Depicts (f : Forest) (e : RuleId) : InvocationId → Expr → Prop
  | operand {id : InvocationId} {t : Token} (hrule : (f.get id).rule = e)
      (hchildren : (f.get id).children = #[.token t]) : Depicts f e id (.operand t)
  | binary {id a b : InvocationId} {op : Token} {left right : Expr} (hrule : (f.get id).rule = e)
      (hchildren : (f.get id).children = #[.rule a, .token op, .rule b])
      (hleft : Depicts f e a left) (hright : Depicts f e b right) :
      Depicts f e id (.binary left op right)

/-- An invocation of the start rule has an expression below it and the end of input. -/
def Forest.Reads (f : Forest) (s e : RuleId) (root : InvocationId) (x : Expr) : Prop :=
  (f.get root).rule = s ∧ ∃ id t, t.isEof = true ∧ (f.get root).children = #[.rule id, .token t] ∧
    f.Depicts e id x

/-- The invocations there were are as they were, but for where `id` hangs. -/
structure Forest.Keeps (f f' : Forest) (id : InvocationId) : Prop where
  size_le : f.size ≤ f'.size
  other : ∀ k < f.size, k ≠ id → f'.get k = f.get k
  rule : (f'.get id).rule = (f.get id).rule
  children : (f'.get id).children = (f.get id).children

namespace Forest

variable {f f' : Forest} {e : RuleId} {id k : InvocationId} {x : Expr}

theorem lt_of_children {children : Array Child} (h : (f.get id).children = children)
    (hne : children ≠ #[]) : id < f.size := by
  by_contra hge
  unfold get at h
  rw [Array.getD_eq_getD_getElem?, Array.getElem?_eq_none (Nat.le_of_not_lt hge)] at h
  exact hne h.symm

theorem Depicts.lt (h : f.Depicts e id x) : id < f.size := by
  cases h with
  | operand _ hchildren => exact lt_of_children hchildren (by simp)
  | binary _ hchildren _ _ => exact lt_of_children hchildren (by simp)

theorem Depicts.rule (h : f.Depicts e id x) : (f.get id).rule = e := by
  cases h <;> assumption

/-- A tree is the same in another forest whose expressions have the same children. -/
theorem Depicts.congr (h : f.Depicts e k x) (hsame : ∀ k x, f.Depicts e k x →
    (f'.get k).rule = (f.get k).rule ∧ (f'.get k).children = (f.get k).children) :
    f'.Depicts e k x := by
  induction h with
  | operand hrule hchildren =>
    obtain ⟨hr, hc⟩ := hsame _ _ (.operand hrule hchildren)
    exact .operand (hr.trans hrule) (hc.trans hchildren)
  | binary hrule hchildren hleft hright ih₁ ih₂ =>
    obtain ⟨hr, hc⟩ := hsame _ _ (.binary hrule hchildren hleft hright)
    exact .binary (hr.trans hrule) (hc.trans hchildren) ih₁ ih₂

/-- A tree stays where nothing but its place changes. -/
theorem Depicts.keeps (h : f.Depicts e k x) (hk : f.Keeps f' id) : f'.Depicts e k x := by
  refine h.congr fun k x h => ?_
  by_cases hne : k = id
  · rw [hne]
    exact ⟨hk.rule, hk.children⟩
  · rw [hk.other k h.lt hne]
    exact ⟨rfl, rfl⟩

/-- The invocation is not an expression yet: it is one of another rule, or lacks its right operand. -/
def Unfinished (f : Forest) (e : RuleId) (id : InvocationId) : Prop :=
  (f.get id).rule = e → (f.get id).children.size = 2

theorem Depicts.not_unfinished (h : f.Depicts e id x) : ¬ f.Unfinished e id := by
  intro hopen
  have hsize := hopen h.rule
  cases h with
  | operand _ hchildren =>
    rw [hchildren] at hsize
    cases hsize
  | binary _ hchildren _ _ =>
    rw [hchildren] at hsize
    cases hsize

/-- A tree stays where only an invocation that is not an expression yet has other children. -/
theorem Depicts.outside (h : f.Depicts e k x) (hid : f.Unfinished e id)
    (hsame : ∀ k < f.size, k ≠ id →
      (f'.get k).rule = (f.get k).rule ∧ (f'.get k).children = (f.get k).children) :
    f'.Depicts e k x :=
  h.congr fun k _ h => hsame k h.lt fun heq => (heq ▸ h).not_unfinished hid

theorem get_addChild (c : Child) (h : id < f.size) :
    (f.addChild id c).get id = { f.get id with children := (f.get id).children.push c } :=
  f.get_modify id _ h

theorem get_addChild_other (c : Child) (h : k ≠ id) : (f.addChild id c).get k = f.get k :=
  f.get_modify_other id k _ h

theorem size_addChild (c : Child) : (f.addChild id c).size = f.size := f.size_modify id _

/-- An expression is closed and hung below the invocation that called it. -/
theorem Depicts.hang {g : Invocation → Invocation} (h : f.Depicts e k x) (hid : f.Unfinished e id)
    (hlt : id < f.size) (hr : ∀ i, (g i).rule = i.rule) (hc : ∀ i, (g i).children = i.children) :
    let f' := (f.modify k g).addChild id (.rule k)
    f'.size = f.size ∧
      f'.get id = { f.get id with children := (f.get id).children.push (.rule k) } ∧
      (∀ l, l ≠ id → l ≠ k → f'.get l = f.get l) ∧ f'.Depicts e k x := by
  have hne : id ≠ k := fun heq => (heq ▸ h).not_unfinished hid
  have hother : ∀ l, l ≠ id → ((f.modify k g).addChild id (.rule k)).get l = (f.modify k g).get l :=
    fun l hl => get_addChild_other _ hl
  refine ⟨(size_addChild _).trans (f.size_modify k g), ?_, ?_, ?_⟩
  · rw [get_addChild _ (Nat.lt_of_lt_of_eq hlt (f.size_modify k g).symm), f.get_modify_other _ _ _ hne]
  · intro l hl hlk
    rw [hother l hl, f.get_modify_other _ _ _ hlk]
  · refine h.outside hid fun l hlt hl => ?_
    rw [hother l hl]
    by_cases hlk : l = k
    · rw [hlk, f.get_modify _ _ h.lt, hr, hc]
      exact ⟨rfl, rfl⟩
    · rw [f.get_modify_other _ _ _ hlk]
      exact ⟨rfl, rfl⟩

/-- A new invocation below another one, with a first child. -/
theorem get_allocBelow (hlt : id < f.size) (node : Invocation) (c : Child) :
    let f' := ((f.alloc node).2.addChild id (.rule f.size)).addChild f.size c
    f'.size = f.size + 1 ∧ f'.get f.size = { node with children := node.children.push c } ∧
      f'.get id = { f.get id with children := (f.get id).children.push (.rule f.size) } ∧
      ∀ l < f.size, l ≠ id → f'.get l = f.get l := by
  have hsize : ((f.alloc node).2.addChild id (.rule f.size)).size = f.size + 1 :=
    (size_addChild _).trans (size_alloc _ _)
  have hne : f.size ≠ id := Nat.ne_of_gt hlt
  refine ⟨(size_addChild _).trans hsize, ?_, ?_, ?_⟩
  · rw [get_addChild _ (hsize ▸ Nat.lt_succ_self _), get_addChild_other _ hne, get_alloc, if_pos rfl]
  · rw [get_addChild_other _ hne.symm, get_addChild _ (size_alloc f node ▸ Nat.lt_succ_of_lt hlt),
      get_alloc, if_neg hne.symm]
  · intro l hl hid
    rw [get_addChild_other _ (Nat.ne_of_lt hl), get_addChild_other _ hid, get_alloc,
      if_neg (Nat.ne_of_lt hl)]

/-- What happens to new invocations does not matter for the old ones. -/
theorem Keeps.append {f'' : Forest} (h : f.Keeps f' id) (hlt : id < f.size) (hsize : f'.size ≤ f''.size)
    (hsame : ∀ k < f.size, f''.get k = f'.get k) : f.Keeps f'' id where
  size_le := Nat.le_trans h.size_le hsize
  other k hk hne := (hsame k hk).trans (h.other k hk hne)
  rule := by rw [hsame id hlt, h.rule]
  children := by rw [hsame id hlt, h.children]

theorem keeps_modify {g : Invocation → Invocation} (hlt : id < f.size)
    (hr : ∀ i, (g i).rule = i.rule) (hc : ∀ i, (g i).children = i.children) :
    f.Keeps (f.modify id g) id where
  size_le := Nat.le_of_eq (f.size_modify id g).symm
  other k _ hne := f.get_modify_other id k g hne
  rule := by rw [f.get_modify id g hlt, hr]
  children := by rw [f.get_modify id g hlt, hc]

/-- Another round leaves the children of its first operand. -/
theorem keeps_pushRound (rule : RuleId) (st : StateId) (stop : Option Nat) (hlt : id < f.size) :
    f.Keeps (f.pushRound rule id st stop) id ∧ (f.pushRound rule id st stop).size = f.size + 1 ∧
      (f.pushRound rule id st stop).get f.size = f.nextRound rule id := by
  obtain ⟨hext, hsize, hnew, hid, hold⟩ := f.alloc_modify hlt (f.nextRound rule id)
    (g := Invocation.handOver stop f.size st) (fun _ => rfl) fun _ => rfl
  refine ⟨⟨Nat.le_of_lt (hsize ▸ Nat.lt_succ_self _), hold, ?_, ?_⟩, hsize, hnew⟩
  · exact (congrArg Invocation.rule hid :)
  · exact (congrArg Invocation.children hid :)

end Forest

end AdaptiveParsing
