import AdaptiveParsing.Proofs.Recognition.Invocations
import Mathlib
/-!
The tree of a parse underway, with errors or without. Its leaves are those of the live invocations, from
the outermost inwards, each with what is finished below it (`Threads`), and every invocation is live or
below a live one (`Woven`). Main statements: this holds on when the innermost invocation grows
(`Woven.grow`), begins another round (`Woven.round`), calls (`Woven.enter`) or returns (`Woven.leave`).
-/

namespace AdaptiveParsing

namespace Forest

/-- The tokens at the leaves below these children, in order. -/
inductive Leaves (f : Forest) : List Child → List Token → Prop
  | nil : Leaves f [] []
  | token {t : Token} {cs : List Child} {w : List Token} (h : Leaves f cs w) :
      Leaves f (.token t :: cs) (t :: w)
  | error {t : Token} {cs : List Child} {w : List Token} (h : Leaves f cs w) :
      Leaves f (.error t :: cs) (t :: w)
  | rule {id : InvocationId} {cs : List Child} {v w : List Token}
      (hv : Leaves f (f.get id).children.toList v) (h : Leaves f cs w) :
      Leaves f (.rule id :: cs) (v ++ w)

/-- The invocation is in the tree below `root`. -/
def Under (f : Forest) : InvocationId → InvocationId → Prop :=
  Relation.ReflTransGen fun parent child => .rule child ∈ (f.get parent).children.toList

variable {f f' : Forest} {cs ds : List Child} {v w : List Token} {id root : InvocationId}
  {start : Option InvocationId} {ids ids' : List InvocationId}

theorem Leaves.append (h : f.Leaves cs v) (h' : f.Leaves ds w) : f.Leaves (cs ++ ds) (v ++ w) := by
  induction h with
  | nil => exact h'
  | token _ ih => exact .token ih
  | error _ ih => exact .error ih
  | rule hv _ _ ih =>
    rw [List.append_assoc]
    exact .rule hv ih

theorem Leaves.single (h : f.Leaves (f.get id).children.toList v) : f.Leaves [.rule id] v := by
  simpa using Leaves.rule h .nil

/-- A tree has one list of leaves. -/
theorem Leaves.unique (h : f.Leaves cs v) (h' : f.Leaves cs w) : v = w := by
  induction h generalizing w with
  | nil =>
    cases h'
    rfl
  | token _ ih =>
    cases h' with
    | token h' => rw [ih h']
  | error _ ih =>
    cases h' with
    | error h' => rw [ih h']
  | rule _ _ ihv ih =>
    cases h' with
    | rule hv h' => rw [ihv hv, ih h']

/-- Leaves stay if the children of all that is below stay. -/
theorem Leaves.keep (h : f.Leaves cs w) {inside : List InvocationId}
    (hcs : ∀ id, .rule id ∈ cs → id ∈ inside)
    (hclosed : ∀ id ∈ inside, ∀ child, .rule child ∈ (f.get id).children.toList → child ∈ inside)
    (hkeep : ∀ id ∈ inside, (f'.get id).children = (f.get id).children) : f'.Leaves cs w := by
  induction h with
  | nil => exact .nil
  | token _ ih => exact .token (ih fun id hid => hcs id (.tail _ hid))
  | error _ ih => exact .error (ih fun id hid => hcs id (.tail _ hid))
  | @rule id cs v w _ _ ihv ih =>
    have hid := hcs id (.head _)
    have hv := ihv (hclosed id hid)
    rw [← hkeep id hid] at hv
    exact .rule hv (ih fun id hid => hcs id (.tail _ hid))

/-- The leaves that are children themselves. -/
def leafTokens (cs : List Child) : List Token :=
  cs.filterMap fun
    | .token t | .error t => some t
    | .rule _ => none

theorem leaves_leafTokens (h : ∀ id, .rule id ∉ cs) : f.Leaves cs (leafTokens cs) := by
  induction cs with
  | nil => exact .nil
  | cons c cs ih =>
    have ih := ih fun id hid => h id (.tail _ hid)
    cases c with
    | rule id => exact absurd (.head _) (h id)
    | token t => exact .token ih
    | error t => exact .error ih

/-- What is below an invocation stays below it while children are added. -/
theorem Under.mono (h : f.Under root id)
    (hmono : ∀ parent child, .rule child ∈ (f.get parent).children.toList →
      .rule child ∈ (f'.get parent).children.toList) : f'.Under root id :=
  Relation.ReflTransGen.mono (fun parent child hc => hmono parent child hc) _ _ h

/-- There are children below invocations of the forest only. -/
theorem lt_of_mem_children {c : Child} (h : c ∈ (f.get id).children.toList) : id < f.size := by
  by_contra hle
  rw [get_of_le (Nat.le_of_not_lt hle)] at h
  cases h

/-- The invocations from one outwards, the innermost first, up to one without a parent. -/
inductive Chain (f : Forest) : Option InvocationId → List InvocationId → Prop
  | nil : Chain f none []
  | cons {id : InvocationId} {ids : List InvocationId} (h : Chain f (f.get id).parent ids) :
      Chain f (some id) (id :: ids)

/-- There is one chain outwards at most. -/
theorem Chain.unique (h : f.Chain start ids) (h' : f.Chain start ids') : ids = ids' := by
  induction h generalizing ids' with
  | nil =>
    cases h'
    rfl
  | cons _ ih =>
    cases h' with
    | cons h' => rw [ih h']

/-- From each invocation on a chain the rest of the chain leads outwards. -/
theorem Chain.suffix (h : f.Chain start ids) (hid : id ∈ ids) :
    ∃ rest, f.Chain (some id) rest ∧ rest.length ≤ ids.length := by
  induction h with
  | nil => cases hid
  | @cons first ids h ih =>
    rcases List.mem_cons.1 hid with rfl | hid
    · exact ⟨_, .cons h, Nat.le_refl _⟩
    · obtain ⟨rest, hrest, hle⟩ := ih hid
      refine ⟨rest, hrest, ?_⟩
      rw [List.length_cons]
      omega

/-- A way outwards that ends does not come back. -/
theorem Chain.nodup (h : f.Chain start ids) : ids.Nodup := by
  induction h with
  | nil => exact List.nodup_nil
  | @cons first ids h ih =>
    apply List.nodup_cons.2
    refine ⟨?_, ih⟩
    intro hmem
    obtain ⟨rest, hrest, hle⟩ := h.suffix hmem
    have heq := hrest.unique (.cons h)
    rw [heq, List.length_cons] at hle
    omega

/-- All but the last invocation of a chain are in the forest. -/
theorem Chain.lt (h : f.Chain start ids) : ∀ id ∈ ids.dropLast, id < f.size := by
  induction h with
  | nil =>
    intro id hid
    cases hid
  | @cons first ids h ih =>
    intro id hid
    cases ids with
    | nil => cases hid
    | cons next ids =>
      rw [List.dropLast_cons_cons] at hid
      rcases List.mem_cons.1 hid with rfl | hid
      · by_contra hle
        rw [get_of_le (Nat.le_of_not_lt hle)] at h
        cases h
      · exact ih id hid

/-- A chain is what the search for ancestors finds, given enough fuel. -/
theorem Chain.ancestorsUpTo {fuel : Nat} (h : f.Chain (some id) ids) (hfuel : ids.length ≤ fuel) :
    f.ancestorsUpTo fuel id = ids := by
  induction fuel generalizing id ids with
  | zero =>
    cases h
    cases hfuel
  | succ fuel ih =>
    cases h with
    | cons h =>
      rw [List.length_cons] at hfuel
      unfold Forest.ancestorsUpTo
      cases hp : (f.get id).parent with
      | none =>
        rw [hp] at h
        cases h
        rfl
      | some p =>
        rw [hp] at h
        dsimp only
        rw [ih h (by omega)]

/-- The ancestors of an invocation are all there are on its way outwards. -/
theorem Chain.ancestors (h : f.Chain (some id) ids) : f.ancestors id = ids := by
  apply h.ancestorsUpTo
  -- distinct invocations are no more than there are
  have hnodup : ids.dropLast.Nodup := h.nodup.sublist (List.dropLast_sublist _)
  have hsub : ids.dropLast ⊆ List.range f.size := by
    intro id hid
    exact List.mem_range.2 (h.lt id hid)
  have hlen := (hnodup.subperm hsub).length_le
  rw [List.length_dropLast, List.length_range] at hlen
  omega

/-- Modifying an invocation changes it or nothing. -/
theorem get_modify_cases (f : Forest) (id other : InvocationId) (g : Invocation → Invocation) :
    (f.modify id g).get other = f.get other ∨ (f.modify id g).get other = g (f.get other) := by
  by_cases h : other = id
  · subst h
    by_cases hlt : other < f.size
    · exact .inr (get_modify f other g hlt)
    · left
      have hle := Nat.le_of_not_lt hlt
      rw [get_of_le hle, get_of_le (by rwa [size_modify])]
  · exact .inl (get_modify_other f id other g h)

/-- Nothing changes but what is noted of the invocations and the children of one of them, which gets
more. -/
structure Grows (f f' : Forest) (id : InvocationId) (added : List Child) : Prop
    extends f.Extends f' where
  size_eq : f'.size = f.size
  parent : ∀ other, (f'.get other).parent = (f.get other).parent
  caller : ∀ other, (f'.get other).caller = (f.get other).caller
  other : ∀ other, other ≠ id → (f'.get other).children = (f.get other).children
  children : (f'.get id).children.toList = (f.get id).children.toList ++ added

end Forest

section

variable (G : Guide) (f : Forest)

/-- A live invocation stands at a state of its rule. Below it there are finished invocations, and the
one it waits for if that is a child already. -/
structure Stands (done : List InvocationId) (pending : List Child) (a : Station)
    (own : List Token) : Prop where
  lt : a.id < f.size
  rule_lt : (f.get a.id).rule < G.network.rules.size
  state_rule : (G.network.state a.state).rule = (f.get a.id).rule
  below : ∃ children, (f.get a.id).children.toList = children ++ pending ∧
    (∀ child, .rule child ∈ children → child ∈ done) ∧ f.Leaves children own

/-- Live invocations, the innermost first, with the leaves from the outermost inwards. -/
def Threads (done : List InvocationId) : List Child → List Station → List Token → Prop
  | _, [], w => w = []
  | pending, a :: rest, w => ∃ outer own, w = outer ++ own ∧ Stands G f done pending a own ∧
    Called G f a.id rest.head? ∧
    Threads done (if G.recursive f a.id then [] else [.rule a.id]) rest outer

/-- Live and finished invocations, and the leaves of all of them. -/
structure Woven (stations : List Station) (done : List InvocationId) (w : List Token) : Prop where
  threads : Threads G f done [] stations w
  /-- What is below a finished invocation is finished. -/
  closed : ∀ id ∈ done, ∀ child, .rule child ∈ (f.get id).children.toList → child ∈ done
  distinct : (stations.map Station.id ++ done).Nodup
  done_lt : ∀ id ∈ done, id < f.size
  all : ∀ id < f.size, id ∈ stations.map Station.id ∨ id ∈ done
  under : ∀ id ∈ done, ∃ a ∈ stations, f.Under a.id id

end

variable {G : Guide} {f f' : Forest} {done : List InvocationId} {pending : List Child}
  {stations rest : List Station} {a b : Station} {id : InvocationId} {s : StateId}
  {v w own : List Token} {added : List Child}

theorem Threads.lt (h : Threads G f done pending stations w) : ∀ a ∈ stations, a.id < f.size := by
  induction stations generalizing pending w with
  | nil =>
    intro a ha
    cases ha
  | cons b rest ih =>
    obtain ⟨outer, own, -, hs, -, hrest⟩ := h
    intro a ha
    rcases List.mem_cons.1 ha with rfl | ha
    · exact hs.lt
    · exact ih hrest a ha

/-- The live invocations are the chain from the innermost one. -/
theorem Threads.chain (h : Threads G f done pending (a :: rest) w) :
    f.Chain (some a.id) ((a :: rest).map Station.id) := by
  induction rest generalizing a pending w with
  | nil =>
    obtain ⟨_, _, -, -, ⟨hparent, -⟩, -⟩ := h
    apply Forest.Chain.cons
    rw [hparent]
    exact .nil
  | cons b rest ih =>
    obtain ⟨_, _, -, -, ⟨hparent, -⟩, hrest⟩ := h
    apply Forest.Chain.cons
    rw [hparent]
    exact ih hrest

theorem Woven.lt (h : Woven G f stations done w) : ∀ a ∈ stations, a.id < f.size := h.threads.lt

/-- An invocation stands where it stood while its children stay and the leaves below them. -/
theorem Stands.keep (h : Stands G f done pending a own) (he : f.Extends f')
    (hsame : (f'.get a.id).children = (f.get a.id).children) {done' : List InvocationId}
    (hdone : ∀ id ∈ done, id ∈ done')
    (hleaves : ∀ cs w, (∀ id, .rule id ∈ cs → id ∈ done) → f.Leaves cs w → f'.Leaves cs w) :
    Stands G f' done' pending a own := by
  obtain ⟨children, hc, hd, hl⟩ := h.below
  have hr := he.rule a.id h.lt
  refine ⟨Nat.lt_of_lt_of_le h.lt he.size, ?_, ?_, children, ?_, fun child hchild =>
    hdone child (hd child hchild), hleaves children own hd hl⟩
  · rw [hr]
    exact h.rule_lt
  · rw [hr]
    exact h.state_rule
  · rw [hsame]
    exact hc

theorem Threads.keep (h : Threads G f done pending stations w) (he : f.Extends f')
    (hchildren : ∀ a ∈ stations, (f'.get a.id).children = (f.get a.id).children)
    (hparent : ∀ a ∈ stations, (f'.get a.id).parent = (f.get a.id).parent)
    (hcaller : ∀ a ∈ stations, (f'.get a.id).caller = (f.get a.id).caller)
    {done' : List InvocationId} (hdone : ∀ id ∈ done, id ∈ done')
    (hleaves : ∀ cs w, (∀ id, .rule id ∈ cs → id ∈ done) → f.Leaves cs w → f'.Leaves cs w) :
    Threads G f' done' pending stations w := by
  induction stations generalizing pending w with
  | nil => exact h
  | cons a rest ih =>
    obtain ⟨outer, own, hw, hs, hc, hrest⟩ := h
    refine ⟨outer, own, hw, hs.keep he (hchildren a (.head _)) hdone hleaves,
      hc.extends he hs.lt (hparent a (.head _)) (hcaller a (.head _)), ?_⟩
    have hrec : G.recursive f' a.id = G.recursive f a.id := by
      unfold Guide.recursive
      rw [he.rule a.id hs.lt]
    rw [hrec]
    exact ih hrest (fun b hb => hchildren b (.tail _ hb)) (fun b hb => hparent b (.tail _ hb))
      fun b hb => hcaller b (.tail _ hb)

theorem Woven.ancestors (h : Woven G f (a :: rest) done w) :
    f.ancestors a.id = (a :: rest).map Station.id := h.threads.chain.ancestors

/-- The innermost invocation differs from the others, and from the finished ones. -/
theorem Woven.ne_innermost (h : Woven G f (a :: rest) done w) :
    (∀ b ∈ rest, b.id ≠ a.id) ∧ ∀ id ∈ done, id ≠ a.id := by
  have hd := h.distinct
  rw [List.map_cons, List.cons_append, List.nodup_cons] at hd
  obtain ⟨hnot, -⟩ := hd
  refine ⟨?_, ?_⟩
  · intro b hb he
    exact hnot (List.mem_append_left _ (he ▸ List.mem_map_of_mem hb))
  · intro id hid he
    exact hnot (List.mem_append_right _ (he ▸ hid))

/-- The one that called it differs from those further outwards, and from the finished ones. -/
theorem Woven.ne_second (h : Woven G f (a :: b :: rest) done w) :
    (∀ c ∈ rest, c.id ≠ b.id) ∧ ∀ id ∈ done, id ≠ b.id := by
  have hd := h.distinct
  simp only [List.map_cons, List.cons_append] at hd
  have hnot := (List.nodup_cons.1 (List.nodup_cons.1 hd).2).1
  refine ⟨?_, ?_⟩
  · intro c hc he
    exact hnot (List.mem_append_left _ (he ▸ List.mem_map_of_mem hc))
  · intro id hid he
    exact hnot (List.mem_append_right _ (he ▸ hid))

/-- Leaves below finished invocations stay while their children stay. -/
theorem Woven.leaves_keep (h : Woven G f stations done w)
    (hkeep : ∀ id ∈ done, (f'.get id).children = (f.get id).children) (cs : List Child)
    (w : List Token) (hcs : ∀ id, .rule id ∈ cs → id ∈ done) (hl : f.Leaves cs w) :
    f'.Leaves cs w := hl.keep hcs h.closed hkeep

/-- The innermost invocation is at another state of its rule. -/
theorem Woven.move (h : Woven G f (a :: rest) done w)
    (hs : (G.network.state s).rule = (f.get a.id).rule) :
    Woven G f ({ a with state := s } :: rest) done w := by
  obtain ⟨outer, own, hw, hst, hc, hrest⟩ := h.threads
  refine ⟨⟨outer, own, hw, ⟨hst.lt, hst.rule_lt, hs, hst.below⟩, hc, hrest⟩, h.closed, h.distinct,
    h.done_lt, h.all, fun id hid => ?_⟩
  obtain ⟨b, hb, hu⟩ := h.under id hid
  rcases List.mem_cons.1 hb with rfl | hb
  · exact ⟨_, .head _, hu⟩
  · exact ⟨b, .tail _ hb, hu⟩

/-- The innermost invocation gets leaves. -/
theorem Woven.grow (h : Woven G f (a :: rest) done w) (hg : f.Grows f' a.id added)
    (hadded : ∀ id, .rule id ∉ added) :
    Woven G f' (a :: rest) done (w ++ Forest.leafTokens added) := by
  obtain ⟨hne, hne'⟩ := h.ne_innermost
  obtain ⟨outer, own, rfl, hs, hc, hrest⟩ := h.threads
  have he := hg.toExtends
  have hdone : ∀ id ∈ done, (f'.get id).children = (f.get id).children := fun id hid =>
    hg.other id (hne' id hid)
  have hleaves := h.leaves_keep hdone
  have hrec : G.recursive f' a.id = G.recursive f a.id := by
    unfold Guide.recursive
    rw [he.rule a.id hs.lt]
  obtain ⟨children, hch, hd, hl⟩ := hs.below
  refine ⟨⟨outer, own ++ Forest.leafTokens added, by rw [List.append_assoc], ?_, ?_, ?_⟩,
    ?_, h.distinct, ?_, ?_, ?_⟩
  · refine ⟨Nat.lt_of_lt_of_le hs.lt he.size, ?_, ?_, children ++ added, ?_, ?_, ?_⟩
    · rw [he.rule a.id hs.lt]
      exact hs.rule_lt
    · rw [he.rule a.id hs.lt]
      exact hs.state_rule
    · rw [hg.children, hch, List.append_nil, List.append_nil]
    · intro child hchild
      rcases List.mem_append.1 hchild with hchild | hchild
      · exact hd child hchild
      · exact absurd hchild (hadded child)
    · exact (hleaves children own hd hl).append (Forest.leaves_leafTokens hadded)
  · exact hc.extends he hs.lt (hg.parent a.id) (hg.caller a.id)
  · rw [hrec]
    exact hrest.keep he (fun b hb => hg.other b.id (hne b hb)) (fun b _ => hg.parent b.id)
      (fun b _ => hg.caller b.id) (fun _ h => h) hleaves
  · intro id hid
    rw [hdone id hid]
    exact h.closed id hid
  · intro id hid
    rw [hg.size_eq]
    exact h.done_lt id hid
  · intro id hid
    rw [hg.size_eq] at hid
    exact h.all id hid
  · intro id hid
    obtain ⟨b, hb, hu⟩ := h.under id hid
    refine ⟨b, hb, hu.mono fun parent child hchild => ?_⟩
    by_cases hp : parent = a.id
    · subst hp
      rw [hg.children]
      exact List.mem_append_left _ hchild
    · rw [hg.other parent hp]
      exact hchild

/-- A new invocation takes the place of the innermost one, with it as the first child. -/
theorem Woven.round (h : Woven G f (a :: rest) done w) (he : f.Extends f')
    (hsize : f'.size = f.size + 1)
    (hother : ∀ other, other < f.size → other ≠ a.id → f'.get other = f.get other)
    (hold : (f'.get a.id).children = (f.get a.id).children)
    (hrule : (f'.get f.size).rule = (f.get a.id).rule)
    (hfloor : (f'.get f.size).precedence = (f.get a.id).precedence)
    (hchildren : (f'.get f.size).children = #[.rule a.id])
    (hparent : (f'.get f.size).parent = (f.get a.id).parent)
    (hcaller : (f'.get f.size).caller = (f.get a.id).caller)
    (hrec : G.recursive f a.id = true) :
    Woven G f' (⟨f.size, a.state⟩ :: rest) (a.id :: done) w := by
  obtain ⟨hne, hne'⟩ := h.ne_innermost
  obtain ⟨outer, own, rfl, hs, hc, hrest⟩ := h.threads
  have hlt : ∀ b ∈ rest, b.id < f.size := fun b hb => h.lt b (.tail _ hb)
  have hnew : f.size < f'.size := by lia
  have hdone : ∀ id ∈ done, (f'.get id).children = (f.get id).children := fun id hid => by
    rw [hother id (h.done_lt id hid) (hne' id hid)]
  have hleaves := h.leaves_keep hdone
  have hrec' : G.recursive f' f.size = G.recursive f a.id := by
    unfold Guide.recursive
    rw [hrule]
  obtain ⟨children, hch, hd, hl⟩ := hs.below
  rw [List.append_nil] at hch
  refine ⟨⟨outer, own, rfl, ?_, ?_, ?_⟩, ?_, ?_, ?_, ?_, ?_⟩
  · refine ⟨hnew, ?_, ?_, [.rule a.id], by rw [hchildren]; rfl, ?_, ?_⟩
    · rw [hrule]
      exact hs.rule_lt
    · rw [hrule]
      exact hs.state_rule
    · intro child hchild
      cases List.mem_singleton.1 hchild
      exact .head _
    · have hown := hleaves children own hd hl
      rw [← hch, ← hold] at hown
      exact hown.single
  · cases hnext : rest.head? with
    | none =>
      rw [hnext] at hc
      unfold Called
      rw [hparent, hcaller]
      exact hc
    | some b =>
      rw [hnext] at hc
      obtain ⟨h₁, h₂, t, ht, follow, precedence, hk, ha⟩ := hc
      unfold Called
      rw [hparent, hcaller, hrule]
      refine ⟨h₁, h₂, t, ht, follow, precedence, hk, hnew, hrule, ?_⟩
      rw [hfloor, ha.precedence]
  · rw [hrec', if_pos hrec]
    rw [if_pos hrec] at hrest
    refine hrest.keep he ?_ ?_ ?_ (fun _ h => .tail _ h) hleaves
    all_goals
      intro b hb
      rw [hother b.id (hlt b hb) (hne b hb)]
  · intro id hid child hchild
    rcases List.mem_cons.1 hid with rfl | hid
    · rw [hold, hch] at hchild
      exact .tail _ (hd child hchild)
    · rw [hdone id hid] at hchild
      exact .tail _ (h.closed id hid child hchild)
  · have hdist := h.distinct
    rw [List.map_cons, List.cons_append, List.nodup_cons] at hdist ⊢
    refine ⟨fun hmem => ?_, List.perm_middle.nodup_iff.2 (List.nodup_cons.2 hdist)⟩
    -- the new one is out of the old range
    rcases List.mem_append.1 hmem with hmem | hmem
    · obtain ⟨b, hb, heq⟩ := List.mem_map.1 hmem
      have := hlt b hb
      simp only at heq
      lia
    · rcases List.mem_cons.1 hmem with heq | hmem
      · have := hs.lt
        simp only at heq
        lia
      · have := h.done_lt _ hmem
        simp only at this
        lia
  · intro id hid
    rcases List.mem_cons.1 hid with rfl | hid
    · have := hs.lt
      lia
    · have := h.done_lt id hid
      lia
  · intro id hid
    by_cases hn : id = f.size
    · exact .inl (hn ▸ .head _)
    · rcases h.all id (by lia) with hmem | hmem
      · rcases List.mem_cons.1 hmem with rfl | hmem
        · exact .inr (.head _)
        · exact .inl (.tail _ hmem)
      · exact .inr (.tail _ hmem)
  · -- what was below the old one is below the new one through it
    have hmono : ∀ parent child, .rule child ∈ (f.get parent).children.toList →
        .rule child ∈ (f'.get parent).children.toList := by
      intro parent child hchild
      by_cases hp : parent = a.id
      · rwa [hp, hold, ← hp]
      · rwa [hother parent (Forest.lt_of_mem_children hchild) hp]
    have hfirst : f'.Under f.size a.id := .single (by rw [hchildren]; exact .head _)
    intro id hid
    rcases List.mem_cons.1 hid with rfl | hid
    · exact ⟨_, .head _, hfirst⟩
    · obtain ⟨b, hb, hu⟩ := h.under id hid
      rcases List.mem_cons.1 hb with rfl | hb
      · exact ⟨_, .head _, hfirst.trans (hu.mono hmono)⟩
      · exact ⟨b, .tail _ hb, hu.mono hmono⟩

/-- A call opens an invocation. One of an ordinary rule becomes a child of its caller at once. -/
theorem Woven.enter {r : RuleId} {precedence : Int} (hG : G.Fits) (h : Woven G f stations done w)
    (he : f.Extends f') (hr : r < G.network.rules.size) (hsize : f'.size = f.size + 1)
    (hrule : (f'.get f.size).rule = r)
    (hfloor : (f'.get f.size).precedence =
      if (G.network.rule r).leftRecursive then precedence else 0)
    (hchildren : (f'.get f.size).children = #[])
    (hparent : (f'.get f.size).parent = stations.head?.map Station.id)
    (hcaller : (f'.get f.size).caller = stations.head?.map Station.state)
    (hcall : ∀ a, stations.head? = some a → ∃ t ∈ (G.network.state a.state).transitions,
      ∃ follow, t.kind = .rule r follow precedence)
    (hother : ∀ other, other < f.size →
      (∀ a, stations.head? = some a → other ≠ a.id) → f'.get other = f.get other)
    (htop : ∀ a, stations.head? = some a →
      (f'.get a.id).parent = (f.get a.id).parent ∧ (f'.get a.id).caller = (f.get a.id).caller ∧
      (f'.get a.id).children.toList = (f.get a.id).children.toList ++
        if (G.network.rule r).leftRecursive then [] else [.rule f.size]) :
    Woven G f' (⟨f.size, (G.network.rule r).start⟩ :: stations) done w := by
  have hshape := hG.rule r hr
  have hnew : f.size < f'.size := by lia
  have hdone : ∀ id ∈ done, (f'.get id).children = (f.get id).children := by
    intro id hid
    rw [hother id (h.done_lt id hid)]
    intro a ha
    cases stations with
    | nil => cases ha
    | cons b rest =>
      cases ha
      exact h.ne_innermost.2 id hid
  have hleaves := h.leaves_keep hdone
  have hrec : G.recursive f' f.size = (G.network.rule r).leftRecursive := by
    unfold Guide.recursive
    rw [hrule]
  refine ⟨⟨w, [], (List.append_nil w).symm, ?_, ?_, ?_⟩, ?_, ?_, ?_, ?_, ?_⟩
  · refine ⟨hnew, ?_, ?_, [], by rw [hchildren]; rfl, ?_, .nil⟩
    · rw [hrule]
      exact hr
    · rw [hrule]
      exact hshape.start_rule
    · intro child hchild
      cases hchild
  · cases hhead : stations.head? with
    | none =>
      unfold Called
      rw [hparent, hcaller, hhead]
      exact ⟨rfl, rfl⟩
    | some a =>
      obtain ⟨t, ht, follow, hk⟩ := hcall a hhead
      unfold Called
      rw [hparent, hcaller, hhead, hrule]
      exact ⟨rfl, rfl, t, ht, follow, precedence, hk, hnew, hrule, hfloor⟩
  · rw [hrec]
    cases stations with
    | nil => exact h.threads
    | cons a rest =>
      obtain ⟨hne, -⟩ := h.ne_innermost
      obtain ⟨outer, own, rfl, hs, hc, hrest⟩ := h.threads
      obtain ⟨hp, hcl, hch⟩ := htop a rfl
      obtain ⟨children, hway, hd, hl⟩ := hs.below
      have hrule_a := he.rule a.id hs.lt
      refine ⟨outer, own, rfl, ⟨Nat.lt_trans hs.lt hnew, ?_, ?_, children, ?_, hd,
        hleaves children own hd hl⟩, hc.extends he hs.lt hp hcl, ?_⟩
      · rw [hrule_a]
        exact hs.rule_lt
      · rw [hrule_a]
        exact hs.state_rule
      · rw [hch, hway, List.append_nil]
      · have hrec_a : G.recursive f' a.id = G.recursive f a.id := by
          unfold Guide.recursive
          rw [hrule_a]
        have hsame : ∀ b ∈ rest, f'.get b.id = f.get b.id := by
          intro b hb
          refine hother b.id (h.lt b (.tail _ hb)) ?_
          rintro _ ⟨⟩
          exact hne b hb
        rw [hrec_a]
        refine hrest.keep he ?_ ?_ ?_ (fun _ h => h) hleaves
        all_goals
          intro b hb
          rw [hsame b hb]
  · intro id hid
    rw [hdone id hid]
    exact h.closed id hid
  · rw [List.map_cons, List.cons_append, List.nodup_cons]
    refine ⟨fun hmem => ?_, h.distinct⟩
    rcases List.mem_append.1 hmem with hmem | hmem
    · obtain ⟨b, hb, heq⟩ := List.mem_map.1 hmem
      have := h.lt b hb
      simp only at heq
      lia
    · have := h.done_lt _ hmem
      simp only at this
      lia
  · intro id hid
    exact Nat.lt_trans (h.done_lt id hid) hnew
  · intro id hid
    by_cases hn : id = f.size
    · exact .inl (hn ▸ .head _)
    · exact (h.all id (by lia)).imp (.tail _) fun hmem => hmem
  · intro id hid
    obtain ⟨b, hb, hu⟩ := h.under id hid
    refine ⟨b, .tail _ hb, hu.mono fun parent child hchild => ?_⟩
    have hlt := Forest.lt_of_mem_children hchild
    by_cases hp : ∃ a, stations.head? = some a ∧ parent = a.id
    · obtain ⟨a, ha, rfl⟩ := hp
      rw [(htop a ha).2.2]
      exact List.mem_append_left _ hchild
    · rwa [hother parent hlt fun a ha he => hp ⟨a, ha, he⟩]

/-- The innermost invocation returns to the one that called it. -/
theorem Woven.leave {follow : StateId} (hG : G.Fits) (h : Woven G f (a :: b :: rest) done w)
    (he : f.Extends f') (hsize : f'.size = f.size)
    (hother : ∀ other, other ≠ a.id → other ≠ b.id → f'.get other = f.get other)
    (hinner : (f'.get a.id).children = (f.get a.id).children)
    (hparent : (f'.get b.id).parent = (f.get b.id).parent)
    (hcaller : (f'.get b.id).caller = (f.get b.id).caller)
    (hchildren : (f'.get b.id).children.toList = (f.get b.id).children.toList ++
      if G.recursive f a.id then [.rule a.id] else [])
    (hfollow : G.network.followOf? b.state = some follow) :
    Woven G f' ({ b with state := follow } :: rest) (a.id :: done) w := by
  obtain ⟨hne, hne'⟩ := h.ne_innermost
  obtain ⟨_, own, rfl, hs, hc, outer, own_b, rfl, hsb, hcb, hrest⟩ := h.threads
  obtain ⟨children, hch, hd, hl⟩ := hs.below
  rw [List.append_nil] at hch
  obtain ⟨hother_b, hdone_b⟩ := h.ne_second
  have hdistinct := h.distinct
  simp only [List.map_cons, List.cons_append] at hdistinct
  have hdone : ∀ id ∈ done, (f'.get id).children = (f.get id).children := fun id hid => by
    rw [hother id (hne' id hid) (hdone_b id hid)]
  have hleaves := h.leaves_keep hdone
  have hrule_b := he.rule b.id hsb.lt
  obtain ⟨children_b, hch_b, hd_b, hl_b⟩ := hsb.below
  -- the call is the only edge of its state, so it returns to where the parse goes on
  obtain ⟨-, -, t, ht, follow', precedence, hk, -⟩ := hc
  have hfollow' : follow' = follow :=
    Option.some.inj ((hG.followOf?_eq ht hk).symm.trans hfollow)
  have hnext : t.next = follow := by simp [Transition.next, hk, hfollow']
  have hown : f'.Leaves [.rule a.id] own := by
    have hin := hleaves children own hd hl
    rw [← hch, ← hinner] at hin
    exact hin.single
  have hchild_b : (f'.get b.id).children.toList = children_b ++ [.rule a.id] := by
    rw [hchildren, hch_b, List.append_assoc]
    cases G.recursive f a.id <;> rfl
  refine ⟨⟨outer, own_b ++ own, by rw [List.append_assoc], ?_, hcb.extends he hsb.lt hparent hcaller,
    ?_⟩, ?_, List.perm_middle.nodup_iff.2 hdistinct, ?_, ?_, ?_⟩
  · refine ⟨?_, ?_, ?_, children_b ++ [.rule a.id], ?_, ?_, ?_⟩
    · rw [hsize]
      exact hsb.lt
    · rw [hrule_b]
      exact hsb.rule_lt
    · rw [hrule_b, ← hnext]
      exact ((hG.rule _ hsb.rule_lt).next b.state hsb.state_rule t ht).2
    · rw [hchild_b, List.append_nil]
    · intro child hchild
      rcases List.mem_append.1 hchild with hchild | hchild
      · exact .tail _ (hd_b child hchild)
      · cases List.mem_singleton.1 hchild
        exact .head _
    · exact (hleaves children_b own_b hd_b hl_b).append hown
  · have hrec_b : G.recursive f' b.id = G.recursive f b.id := by
      unfold Guide.recursive
      rw [hrule_b]
    have hsame : ∀ c ∈ rest, f'.get c.id = f.get c.id := fun c hcr =>
      hother c.id (hne c (.tail _ hcr)) (hother_b c hcr)
    rw [hrec_b]
    refine hrest.keep he ?_ ?_ ?_ (fun _ h => .tail _ h) hleaves
    all_goals
      intro c hcr
      rw [hsame c hcr]
  · intro id hid child hchild
    rcases List.mem_cons.1 hid with rfl | hid
    · rw [hinner, hch] at hchild
      exact .tail _ (hd child hchild)
    · rw [hdone id hid] at hchild
      exact .tail _ (h.closed id hid child hchild)
  · intro id hid
    rw [hsize]
    rcases List.mem_cons.1 hid with rfl | hid
    · exact hs.lt
    · exact h.done_lt id hid
  · intro id hid
    rw [hsize] at hid
    rcases h.all id hid with hmem | hmem
    · rcases List.mem_cons.1 hmem with rfl | hmem
      · exact .inr (.head _)
      · exact .inl hmem
    · exact .inr (.tail _ hmem)
  · have hmono : ∀ parent child, .rule child ∈ (f.get parent).children.toList →
        .rule child ∈ (f'.get parent).children.toList := by
      intro parent child hchild
      by_cases hpa : parent = a.id
      · rwa [hpa, hinner, ← hpa]
      · by_cases hpb : parent = b.id
        · rw [hpb] at hchild ⊢
          rw [hchildren]
          exact List.mem_append_left _ hchild
        · rwa [hother parent hpa hpb]
    have hlast : f'.Under b.id a.id := .single (by rw [hchild_b]; simp)
    intro id hid
    rcases List.mem_cons.1 hid with rfl | hid
    · exact ⟨_, .head _, hlast⟩
    · obtain ⟨c, hcr, hu⟩ := h.under id hid
      have hu' := hu.mono hmono
      rcases List.mem_cons.1 hcr with rfl | hcr
      · exact ⟨_, .head _, hlast.trans hu'⟩
      · rcases List.mem_cons.1 hcr with rfl | hcr
        · exact ⟨_, .head _, hu'⟩
        · exact ⟨c, .tail _ hcr, hu'⟩

end AdaptiveParsing
