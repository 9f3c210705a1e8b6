import AdaptiveParsing.Proofs.Recognition.Bookkeeping
import Mathlib
/-!
The invocations of a parse are a forest at every moment: ways outwards end, a child refers to the
invocation that it is a child of and is one once, and all but the outermost invocation and the open
left-recursive ones are children (`Forest.IsTree`). A round puts a new invocation around an old one, so
numbers do not go down along the ways outwards; what bounds these are the live invocations, which every
finished one is below. Main statement: `Interpreter.parse_rooted`.
-/

namespace AdaptiveParsing

open Relation AdaptiveParsing.Parser

variable {env : Setting} {G : Guide}

namespace Forest

variable {f : Forest} {id child root : InvocationId} {start : Option InvocationId}
  {ids : List InvocationId}

theorem getElem_nodes (f : Forest) {j : Nat} (hj : j < f.nodes.toList.length) :
    f.nodes.toList[j] = f.get j := by
  have hj' : j < f.nodes.size := by simpa using hj
  simp [get, Array.getD_eq_getD_getElem?, hj']

theorem mem_ruleChildren {i : Invocation} : child ∈ i.ruleChildren ↔ .rule child ∈ i.children.toList := by
  unfold Invocation.ruleChildren
  rw [List.mem_filterMap]
  constructor
  · rintro ⟨c, hc, heq⟩
    cases c with
    | rule id =>
      cases heq
      exact hc
    | token t => cases heq
    | error t => cases heq
  · intro h
    exact ⟨_, h, rfl⟩

theorem ruleChildren_congr {i i' : Invocation} (h : i'.children = i.children) :
    i'.ruleChildren = i.ruleChildren := by
  unfold Invocation.ruleChildren
  rw [h]

/-- Every way outwards ends. Children refer to the invocation they are children of, none is one twice, and
all are but `root` and the `loose` ones. -/
structure IsTree (f : Forest) (root : InvocationId) (loose : List InvocationId) : Prop where
  ends : ∀ id < f.size, ∃ chain, f.Chain (some id) chain ∧ f.ancestors id = chain
  parent : ∀ id child, .rule child ∈ (f.get id).children.toList → (f.get child).parent = some id
  once : (f.nodes.toList.flatMap Invocation.ruleChildren).Nodup
  hung : ∀ id < f.size, id ≠ root → id ∉ loose →
    ∃ p, (f.get id).parent = some p ∧ .rule id ∈ (f.get p).children.toList
  top : ∀ id, id = root ∨ id ∈ loose → ∀ p, .rule id ∉ (f.get p).children.toList

/-- The links between finished invocations and the others. -/
structure Linked (f : Forest) (done : List InvocationId) : Prop where
  parent : ∀ id child, .rule child ∈ (f.get id).children.toList → (f.get child).parent = some id
  once : ∀ id, (f.get id).ruleChildren.Nodup
  hung : ∀ id ∈ done, ∃ p, (f.get id).parent = some p ∧ .rule id ∈ (f.get p).children.toList

/-- Links are between invocations of the forest. -/
structure InRange (f : Forest) (done : List InvocationId) : Prop where
  child : ∀ id child, .rule child ∈ (f.get id).children.toList → child < f.size
  finished : ∀ id ∈ done, id < f.size

theorem Linked.mono {done done' : List InvocationId} (h : f.Linked done)
    (hsub : ∀ id ∈ done', id ∈ done) : f.Linked done' :=
  ⟨h.parent, h.once, fun id hid => h.hung id (hsub id hid)⟩

/-- Links stay while parents and children do. -/
theorem Linked.keep {f' : Forest} {done : List InvocationId} (h : f.Linked done)
    (hlt : f.InRange done) (hparent : ∀ id < f.size, (f'.get id).parent = (f.get id).parent)
    (hrules : ∀ id, (f'.get id).ruleChildren = (f.get id).ruleChildren) : f'.Linked done := by
  have hsame : ∀ id child, .rule child ∈ (f'.get id).children.toList ↔
      .rule child ∈ (f.get id).children.toList := by
    intro id child
    rw [← mem_ruleChildren, hrules, mem_ruleChildren]
  refine ⟨?_, ?_, ?_⟩
  · intro id child hchild
    have hchild' := (hsame id child).1 hchild
    rw [hparent child (hlt.child id child hchild')]
    exact h.parent id child hchild'
  · intro id
    rw [hrules]
    exact h.once id
  · intro id hid
    obtain ⟨p, hp, hchild⟩ := h.hung id hid
    refine ⟨p, ?_, (hsame p id).2 hchild⟩
    rw [hparent id (hlt.finished id hid)]
    exact hp

/-- An invocation that was nobody's child becomes one, and refers to its parent. -/
theorem Linked.attach {f' : Forest} {done : List InvocationId} {p c : InvocationId} (h : f.Linked done)
    (hlt : f.InRange done) (hnot : ∀ id, .rule c ∉ (f.get id).children.toList)
    (hparent : ∀ id < f.size, id ≠ c → (f'.get id).parent = (f.get id).parent)
    (hc : (f'.get c).parent = some p)
    (hrules : ∀ id, id ≠ p → (f'.get id).ruleChildren = (f.get id).ruleChildren)
    (hp : (f'.get p).ruleChildren = (f.get p).ruleChildren ++ [c]) : f'.Linked (c :: done) := by
  have hsame : ∀ id child, .rule child ∈ (f'.get id).children.toList ↔
      .rule child ∈ (f.get id).children.toList ∨ id = p ∧ child = c := by
    intro id child
    rw [← mem_ruleChildren, ← mem_ruleChildren]
    by_cases hid : id = p
    · rw [hid, hp, List.mem_append, List.mem_singleton]
      simp
    · rw [hrules id hid]
      simp [hid]
  have hne : ∀ id child, .rule child ∈ (f.get id).children.toList → child ≠ c := by
    rintro id child hchild rfl
    exact hnot id hchild
  refine ⟨?_, ?_, ?_⟩
  · intro id child hchild
    rcases (hsame id child).1 hchild with hchild | ⟨rfl, rfl⟩
    · rw [hparent child (hlt.child id child hchild) (hne id child hchild)]
      exact h.parent id child hchild
    · exact hc
  · intro id
    by_cases hid : id = p
    · rw [hid, hp]
      apply List.nodup_append.2
      refine ⟨h.once p, by simp, ?_⟩
      intro x hx y hy heq
      rw [List.mem_singleton.1 hy] at heq
      exact hne p x (mem_ruleChildren.1 hx) heq
    · rw [hrules id hid]
      exact h.once id
  · intro id hid
    rcases List.mem_cons.1 hid with rfl | hid
    · exact ⟨p, hc, (hsame p id).2 (.inr ⟨rfl, rfl⟩)⟩
    · obtain ⟨q, hq, hchild⟩ := h.hung id hid
      refine ⟨q, ?_, (hsame q id).2 (.inl hchild)⟩
      rw [hparent id (hlt.finished id hid) (hne q id hchild)]
      exact hq

theorem ruleChildren_of_append {i i' : Invocation} {added : List Child}
    (h : i'.children.toList = i.children.toList ++ added) :
    i'.ruleChildren = i.ruleChildren ++ { i with children := added.toArray }.ruleChildren := by
  unfold Invocation.ruleChildren
  rw [h, List.filterMap_append]

/-- A tree stays one while parents and children do. -/
theorem IsTree.keep {f' : Forest} {loose : List InvocationId} (h : f.IsTree root loose)
    (hsize : f'.size = f.size) (hparent : ∀ id, (f'.get id).parent = (f.get id).parent)
    (hchildren : ∀ id, (f'.get id).children = (f.get id).children) : f'.IsTree root loose := by
  have hchain : ∀ {start ids}, f.Chain start ids → f'.Chain start ids := by
    intro start ids hc
    induction hc with
    | nil => exact .nil
    | @cons id ids _ ih =>
      apply Chain.cons
      rwa [hparent]
  have hrules : f'.nodes.toList.map Invocation.ruleChildren =
      f.nodes.toList.map Invocation.ruleChildren := by
    apply List.ext_getElem
    · simpa [size] using hsize
    · intro j hj hj'
      rw [List.getElem_map, List.getElem_map, getElem_nodes, getElem_nodes]
      exact ruleChildren_congr (hchildren j)
  refine ⟨?_, ?_, ?_, ?_, ?_⟩
  · intro id hid
    rw [hsize] at hid
    obtain ⟨chain, hc, -⟩ := h.ends id hid
    exact ⟨chain, hchain hc, (hchain hc).ancestors⟩
  · intro id child hchild
    rw [hchildren] at hchild
    rw [hparent]
    exact h.parent id child hchild
  · rw [List.flatMap_def, hrules, ← List.flatMap_def]
    exact h.once
  · intro id hid hne hnot
    rw [hsize] at hid
    obtain ⟨p, hp, hchild⟩ := h.hung id hid hne hnot
    refine ⟨p, ?_, ?_⟩
    · rw [hparent]
      exact hp
    · rw [hchildren]
      exact hchild
  · intro id hid p
    rw [hchildren]
    exact h.top id hid p

/-- If nothing but the root is loose, nothing is. -/
theorem IsTree.close {loose : List InvocationId} (h : f.IsTree root loose)
    (hloose : ∀ id ∈ loose, id = root) : f.IsTree root [] := by
  refine ⟨h.ends, h.parent, h.once, ?_, ?_⟩
  · intro id hid hne _
    exact h.hung id hid hne fun hmem => hne (hloose id hmem)
  · rintro id (hid | hid)
    · exact h.top id (.inl hid)
    · cases hid

/-- Leaves do not matter. -/
theorem Linked.grow {f' : Forest} {done : List InvocationId} {added : List Child} (h : f.Linked done)
    (hlt : f.InRange done) (hg : f.Grows f' id added) (hadded : ∀ id, .rule id ∉ added) :
    f'.Linked done := by
  refine h.keep hlt (fun id _ => hg.parent id) fun other => ?_
  by_cases ho : other = id
  · rw [ho, ruleChildren_of_append hg.children]
    apply List.append_right_eq_self.2
    apply List.eq_nil_iff_forall_not_mem.2
    intro child hchild
    have hmem := mem_ruleChildren.1 hchild
    exact hadded child (by simpa using hmem)
  · exact ruleChildren_congr (hg.other other ho)

/-- A new invocation takes another, which was nobody's child, as its only one. -/
theorem Linked.round {done : List InvocationId} {stop : Option Nat} {rule : RuleId} {s : StateId}
    (h : f.Linked done) (hlt : f.InRange done) (hid : id < f.size)
    (hnot : ∀ p, .rule id ∉ (f.get p).children.toList) :
    (f.pushRound rule id s stop).Linked (id :: done) := by
  obtain ⟨-, -, hnew, hold, hother⟩ := Forest.alloc_modify hid (f.nextRound rule id)
    (g := Invocation.handOver stop f.size s) (fun _ => rfl) fun _ => rfl
  have hbeyond : ∀ other, other ≠ id → other ≠ f.size →
      (f.pushRound rule id s stop).get other = f.get other := by
    intro other hne hne'
    unfold pushRound
    by_cases ho : other < f.size
    · exact hother other ho hne
    · rw [get_modify_other _ _ _ _ hne, get_alloc, if_neg hne']
  refine h.attach (p := f.size) hlt hnot ?_ ?_ ?_ ?_
  · intro other ho hne
    rw [hbeyond other hne (Nat.ne_of_lt ho)]
  · exact congrArg Invocation.parent hold
  · intro other ho
    by_cases hne : other = id
    · rw [hne]
      have hkeep := congrArg Invocation.children hold
      exact ruleChildren_congr hkeep
    · rw [hbeyond other hne ho]
  · rw [get_of_le (Nat.le_refl f.size)]
    exact ruleChildren_congr (congrArg Invocation.children hnew)

/-- A new invocation, which may become a child of an old one. -/
theorem Linked.enter {f' : Forest} {done : List InvocationId} (hang : Bool) (h : f.Linked done)
    (hlt : f.InRange done) (hsize : f'.size = f.size + 1) (hnew : (f'.get f.size).children = #[])
    (hparent : (f'.get f.size).parent = some id)
    (hother : ∀ other < f.size, other ≠ id → f'.get other = f.get other)
    (hid : (f'.get id).parent = (f.get id).parent)
    (hchildren : (f'.get id).children.toList = (f.get id).children.toList ++
      if hang then [.rule f.size] else []) : f'.Linked done := by
  have hparents : ∀ other < f.size, (f'.get other).parent = (f.get other).parent := by
    intro other ho
    by_cases hne : other = id
    · rw [hne, hid]
    · rw [hother other ho hne]
  have hrules : ∀ other, other ≠ id → (f'.get other).ruleChildren = (f.get other).ruleChildren := by
    intro other hne
    apply ruleChildren_congr
    rcases Nat.lt_trichotomy other f.size with ho | rfl | ho
    · rw [hother other ho hne]
    · rw [hnew, get_of_le (Nat.le_refl f.size)]
      rfl
    · rw [get_of_le (Nat.le_of_lt ho), get_of_le (by omega)]
  have hold := ruleChildren_of_append hchildren
  cases hang with
  | true =>
    refine Linked.mono (h.attach (p := id) (c := f.size) hlt ?_ ?_ hparent hrules hold) ?_
    · intro p hchild
      exact Nat.lt_irrefl _ (hlt.child p _ hchild)
    · exact fun other ho _ => hparents other ho
    · exact fun other ho => .tail _ ho
  | false =>
    refine h.keep hlt hparents fun other => ?_
    by_cases hne : other = id
    · rw [hne, hold]
      exact List.append_nil _
    · exact hrules other hne

/-- An invocation is finished and becomes a child, if it was none. -/
theorem Linked.leave {f' : Forest} {done : List InvocationId} {p : InvocationId} (hang : Bool)
    (h : f.Linked done) (hlt : f.InRange done)
    (hparent : ∀ other, other ≠ id → (f'.get other).parent = (f.get other).parent)
    (hid : (f'.get id).parent = some p) (hold : (f.get id).parent = some p)
    (hother : ∀ other, other ≠ p → (f'.get other).children = (f.get other).children)
    (hchildren : (f'.get p).children.toList = (f.get p).children.toList ++
      if hang then [.rule id] else [])
    (hnot : hang = true → ∀ p, .rule id ∉ (f.get p).children.toList)
    (hhung : hang = false → .rule id ∈ (f.get p).children.toList) : f'.Linked (id :: done) := by
  have hrules : ∀ other, other ≠ p → (f'.get other).ruleChildren = (f.get other).ruleChildren :=
    fun other hne => ruleChildren_congr (hother other hne)
  have hnow := ruleChildren_of_append hchildren
  cases hang with
  | true => exact h.attach hlt (hnot rfl) (fun other _ hne => hparent other hne) hid hrules hnow
  | false =>
    have hsame : ∀ other, (f'.get other).ruleChildren = (f.get other).ruleChildren := by
      intro other
      by_cases hne : other = p
      · rw [hne, hnow]
        exact List.append_nil _
      · exact hrules other hne
    have hparents : ∀ other, (f'.get other).parent = (f.get other).parent := by
      intro other
      by_cases hne : other = id
      · rw [hne, hid, hold]
      · exact hparent other hne
    obtain ⟨hp, honce, hdone⟩ := h.keep hlt (fun other _ => hparents other) hsame
    refine ⟨hp, honce, ?_⟩
    intro other ho
    rcases List.mem_cons.1 ho with rfl | ho
    · refine ⟨p, hid, mem_ruleChildren.1 ?_⟩
      rw [hsame]
      exact mem_ruleChildren.2 (hhung rfl)
    · exact hdone other ho

/-- Children that each occur once and know their parent occur once in all. -/
theorem Linked.nodup {done : List InvocationId} (h : f.Linked done) :
    (f.nodes.toList.flatMap Invocation.ruleChildren).Nodup := by
  rw [List.nodup_flatMap]
  refine ⟨?_, ?_⟩
  · intro node hnode
    obtain ⟨j, hj, rfl⟩ := List.mem_iff_getElem.1 hnode
    rw [getElem_nodes]
    exact h.once j
  · apply List.pairwise_iff_getElem.2
    intro j k hj hk hjk child hchild hchild'
    rw [getElem_nodes, mem_ruleChildren] at hchild hchild'
    have heq := (h.parent j child hchild).symm.trans (h.parent k child hchild')
    cases heq
    omega

end Forest

section

variable {f f' : Forest} {done : List InvocationId} {pending : List Child} {a b : Station}
  {stations rest : List Station} {w : List Token} {id child : InvocationId} {i i' : Interpreter}
  {rule : RuleId} {root : InvocationId} {first : TokenCursor}

/-- A child of a live invocation is finished, or it is live itself and of an ordinary rule. -/
theorem Threads.child_cases (h : Threads G f done pending stations w) (hb : b ∈ stations)
    (hchild : .rule child ∈ (f.get b.id).children.toList) :
    child ∈ done ∨ (.rule child ∈ pending ∧ stations.head? = some b) ∨ ∃ a ∈ stations,
      a.id = child ∧ G.recursive f child = false ∧ (f.get child).parent = some b.id := by
  induction stations generalizing pending w with
  | nil => cases hb
  | cons a rest ih =>
    obtain ⟨_, _, -, hs, hc, hrest⟩ := h
    rcases List.mem_cons.1 hb with rfl | hb
    · obtain ⟨children, hch, hd, -⟩ := hs.below
      rw [hch] at hchild
      rcases List.mem_append.1 hchild with hchild | hchild
      · exact .inl (hd child hchild)
      · exact .inr (.inl ⟨hchild, rfl⟩)
    · rcases ih hrest hb with hd | ⟨hp, hhead⟩ | ⟨c, hcr, hchild⟩
      · exact .inl hd
      · -- what the next one outwards waits for is this one, if that is a child already
        rw [hhead] at hc
        cases hrec : G.recursive f a.id with
        | true =>
          rw [hrec] at hp
          cases hp
        | false =>
          rw [hrec] at hp
          cases List.mem_singleton.1 hp
          exact .inr (.inr ⟨a, .head _, rfl, hrec, hc.1⟩)
      · exact .inr (.inr ⟨c, .tail _ hcr, hchild⟩)

/-- A live invocation of an ordinary rule, unless it is the outermost one, is a child of its parent. -/
theorem Threads.hung (h : Threads G f done pending stations w) (ha : a ∈ stations)
    (hrec : G.recursive f a.id = false) : stations.getLast? = some a ∨
      ∃ p, (f.get a.id).parent = some p ∧ .rule a.id ∈ (f.get p).children.toList := by
  induction stations generalizing pending w with
  | nil => cases ha
  | cons b rest ih =>
    obtain ⟨_, _, -, -, hc, hrest⟩ := h
    cases rest with
    | nil => exact .inl (by rw [List.mem_singleton.1 ha]; rfl)
    | cons c rest =>
      rw [List.getLast?_cons_cons]
      rcases List.mem_cons.1 ha with rfl | ha
      · right
        obtain ⟨_, _, -, hs, -⟩ := hrest
        obtain ⟨children, hch, -⟩ := hs.below
        refine ⟨c.id, hc.1, ?_⟩
        rw [hch, hrec]
        exact List.mem_append_right _ (.head _)
      · exact ih hrest ha

/-- From each live invocation on, the way outwards ends. -/
theorem Threads.ends (h : Threads G f done pending stations w) (ha : a ∈ stations) :
    ∃ chain, f.Chain (some a.id) chain := by
  induction stations generalizing pending w with
  | nil => cases ha
  | cons b rest ih =>
    rcases List.mem_cons.1 ha with rfl | ha
    · exact ⟨_, h.chain⟩
    · obtain ⟨_, _, -, -, -, hrest⟩ := h
      exact ih hrest ha

/-- The outermost invocation has no parent. -/
theorem Threads.parent_getLast (h : Threads G f done pending stations w)
    (ha : stations.getLast? = some a) : (f.get a.id).parent = none := by
  induction stations generalizing pending w with
  | nil => cases ha
  | cons b rest ih =>
    obtain ⟨_, _, -, -, hc, hrest⟩ := h
    cases rest with
    | nil =>
      cases ha
      exact hc.1
    | cons c rest =>
      rw [List.getLast?_cons_cons] at ha
      exact ih hrest ha

/-- A child is finished, or it is live and of an ordinary rule, and was called by what it is a child of. -/
theorem Woven.child_cases (h : Woven G f stations done w)
    (hchild : .rule child ∈ (f.get id).children.toList) :
    child ∈ done ∨ ∃ a ∈ stations, a.id = child ∧ G.recursive f child = false ∧
      (f.get child).parent = some id := by
  rcases h.all id (Forest.lt_of_mem_children hchild) with hid | hid
  · obtain ⟨b, hb, rfl⟩ := List.mem_map.1 hid
    rcases h.threads.child_cases hb hchild with hd | ⟨hp, -⟩ | hlive
    · exact .inl hd
    · cases hp
    · exact .inr hlive
  · exact .inl (h.closed id hid child hchild)

/-- Children are in the forest. -/
theorem Woven.child_lt (h : Woven G f stations done w)
    (hchild : .rule child ∈ (f.get id).children.toList) : child < f.size := by
  rcases h.child_cases hchild with hd | ⟨a, ha, rfl, -⟩
  · exact h.done_lt child hd
  · exact h.lt a ha

/-- An open left-recursive invocation is nobody's child. -/
theorem Woven.not_child (h : Woven G f stations done w) (ha : a ∈ stations)
    (hrec : G.recursive f a.id = true) : .rule a.id ∉ (f.get id).children.toList := by
  intro hchild
  rcases h.child_cases hchild with hd | ⟨-, -, -, hplain, -⟩
  · -- it is live, so it is not finished
    have hnot := (List.nodup_append.1 h.distinct).2.2 a.id (List.mem_map_of_mem ha) a.id hd
    exact hnot rfl
  · rw [hrec] at hplain
    cases hplain

/-- Ways outwards end. -/
theorem Woven.ends (h : Woven G f stations done w) (hl : f.Linked done) (hid : id < f.size) :
    ∃ chain, f.Chain (some id) chain ∧ f.ancestors id = chain := by
  suffices hends : ∃ chain, f.Chain (some id) chain by
    obtain ⟨chain, hchain⟩ := hends
    exact ⟨chain, hchain, hchain.ancestors⟩
  rcases h.all id hid with hlive | hd
  · obtain ⟨a, ha, rfl⟩ := List.mem_map.1 hlive
    exact h.threads.ends ha
  · obtain ⟨a, ha, hunder⟩ := h.under id hd
    clear hid hd
    induction hunder with
    | refl => exact h.threads.ends ha
    | @tail p child _ hchild ih =>
      obtain ⟨chain, hchain⟩ := ih
      refine ⟨child :: chain, .cons ?_⟩
      rw [hl.parent p child hchild]
      exact hchain

/-- The invocations of a parse are a tree from the outermost one, but for the open left-recursive ones. -/
theorem Woven.isTree (hnet : env.network = G.network) (h : Woven G f stations done w)
    (hl : f.Linked done) (ha : stations.getLast? = some a) :
    f.IsTree a.id (env.recursiveIn f (stations.map Station.id)) := by
  have hopen : ∀ id, id ∈ env.recursiveIn f (stations.map Station.id) ↔
      id ∈ stations.map Station.id ∧ G.recursive f id = true := by
    intro id
    unfold Setting.recursiveIn Guide.recursive
    rw [List.mem_filter, hnet]
  refine ⟨fun id hid => h.ends hl hid, hl.parent, hl.nodup, ?_, ?_⟩
  · intro id hid hne hnot
    rcases h.all id hid with hlive | hd
    · obtain ⟨b, hb, rfl⟩ := List.mem_map.1 hlive
      have hrec : G.recursive f b.id = false := by
        by_contra hrec
        exact hnot ((hopen b.id).2 ⟨hlive, by simpa using hrec⟩)
      rcases h.threads.hung hb hrec with hlast | hhung
      · rw [ha] at hlast
        cases hlast
        exact absurd rfl hne
      · exact hhung
    · exact hl.hung id hd
  · rintro id (rfl | hid) p hchild
    · have hp := hl.parent p _ hchild
      rw [h.threads.parent_getLast ha] at hp
      cases hp
    · obtain ⟨hlive, hrec⟩ := (hopen id).1 hid
      obtain ⟨b, hb, rfl⟩ := List.mem_map.1 hlive
      exact h.not_child hb hrec hchild

theorem Woven.inRange (h : Woven G f stations done w) : f.InRange done :=
  ⟨fun _ _ hchild => h.child_lt hchild, h.done_lt⟩

end

/-- Every shift keeps the links. -/
theorem Forest.Linked.shift {rule : RuleId} {root : InvocationId} {first : TokenCursor}
    {scene scene' : Scene} (hG : G.Fits) (hnet : env.network = G.network)
    (h : scene.Tracked env G rule root first)
    (hl : scene.interpreter.recognizer.forest.Linked scene.done) (hs : Shift env G scene scene') :
    scene'.interpreter.recognizer.forest.Linked scene'.done := by
  have hrange := h.woven.inRange
  have hlt := h.woven.lt
  cases hs with
  | deed hd hg hadded hp => exact hl.grow hrange hg hadded
  | goTo hs => exact hl
  | @round i a rest done w s hmark =>
    obtain ⟨_, _, -, hst, -⟩ := h.woven.threads
    have hforest : (i.recognizer.pushRecursion s (G.network.state a.state).rule).2.forest =
        i.recognizer.forest.pushRound (G.network.state a.state).rule a.id s
          i.recognizer.input.previousIndex := by
      rw [Recognizer.pushRecursion_eq s (G.network.state a.state).rule h.invocation]
    have hrec := hG.recursive_of_mark hst.rule_lt hst.state_rule hmark
    show (i.recognizer.pushRecursion s (G.network.state a.state).rule).2.forest.Linked (a.id :: done)
    rw [hforest]
    exact hl.round hrange hst.lt fun p => h.woven.not_child (.head _) hrec
  | @enter i i' a rest done w t c follow precedence id hc ht hk he =>
    have hen := Interpreter.enters_of_enter he
    obtain ⟨-, hsize, -, -, hchildren, hparent, -, hother, htop⟩ :=
      hen.facts hnet h.invocation h.state hlt
    obtain ⟨hp, -, hch⟩ := htop a rfl
    refine hl.enter (!(G.network.rule c).leftRecursive) hrange hsize hchildren hparent ?_ hp ?_
    · intro other ho hne
      refine hother other ho ?_
      rintro _ ⟨⟩
      exact hne
    · rw [hch]
      cases (G.network.rule c).leftRecursive <;> rfl

/-- Leaving an invocation keeps the links. -/
theorem Forest.Linked.returns {rule : RuleId} {root : InvocationId} {first : TokenCursor}
    {i : Interpreter} {a b : Station} {rest : List Station} {done : List InvocationId} {w : List Token}
    (hnet : env.network = G.network) (h : Tracked env G rule root first i (a :: b :: rest) done w)
    (hl : i.recognizer.forest.Linked done) :
    (i.leaveRule env (G.network.state a.state).rule).recognizer.forest.Linked (a.id :: done) := by
  have hrange := h.woven.inRange
  obtain ⟨_, _, -, hst, ⟨hparent, hcaller, -⟩, _, _, -, hst_b, -⟩ := h.woven.threads
  have hne := h.woven.ne_innermost.1 b (.head _)
  obtain ⟨hleaves, -⟩ := Interpreter.leaves_leaveRule hnet hst.lt hst_b.lt hne hst.state_rule hparent
    hcaller h.invocation h.callers
  have hparent' : ((i.leaveRule env (G.network.state a.state).rule).recognizer.forest.get
      a.id).parent = some b.id := by
    rw [Interpreter.forest_leaveRule hnet hst.state_rule h.invocation h.callers]
    split
    · unfold Forest.addChild
      rw [Forest.get_modify_other _ _ _ _ (Ne.symm hne), Forest.get_modify _ _ _ hst.lt]
    · rw [Forest.get_modify _ _ _ hst.lt]
      exact hparent
  refine hl.leave (p := b.id) (G.recursive i.recognizer.forest a.id) hrange ?_ hparent' hparent ?_ hleaves.children ?_ ?_
  · intro other ho
    by_cases hob : other = b.id
    · rw [hob]
      exact hleaves.parent
    · exact congrArg Invocation.parent (hleaves.other other ho hob)
  · intro other ho
    by_cases hoa : other = a.id
    · rw [hoa]
      exact hleaves.inner
    · exact congrArg Invocation.children (hleaves.other other hoa ho)
  · exact fun hrec p => h.woven.not_child (.head _) hrec
  · intro hrec
    obtain ⟨children, hch, -⟩ := hst_b.below
    rw [hch, hrec]
    exact List.mem_append_right _ (.head _)

namespace Interpreter

variable {i : Interpreter} {rule : RuleId} {g : Grammar}

/-- The invocations are a tree from the outermost live one, but for the open left-recursive ones. -/
def Rooted (env : Setting) (i : Interpreter) : Prop :=
  ∃ chain root, i.recognizer.forest.Chain i.recognizer.invocation chain ∧
    chain.getLast? = some root ∧
    i.recognizer.forest.IsTree root (env.recursiveIn i.recognizer.forest chain)

/-- A parse from a fresh parser keeps its invocations a tree at every step, whatever errors it recovers
from. They still are one if it stops with a failure, unless there are none; and if it ends well, they are a
tree from its answer with nothing left open. -/
theorem parse_rooted {tokens : Array Token} {channel start : Nat} (hg : g.compile = .ok env.grammar)
    (hrule : rule < g.rules.size) (hi : i.Fresh)
    (hinput : i.recognizer.input = (TokenCursor.ofTokens tokens channel).seek start) :
    (∀ first i₀ j, i.enter env rule 0 = (.ok first, i₀) → ReflTransGen (Follows env rule first) i₀ j →
      j.Rooted env) ∧
    (∀ fuel halt i', i.parse env fuel rule = some (.error halt, i') →
      i'.recognizer.forest.size = 0 ∨ i'.Rooted env) ∧
    ∀ fuel root i', i.parse env fuel rule = some (.ok root, i') →
      i'.recognizer.forest.IsTree root [] := by
  obtain ⟨G, hnet, -, -, hG⟩ := Grammar.exists_guide hg fun _ _ _ _ _ => True
  have hnet' : env.network = G.network := hnet.symm
  have hsize : rule < G.network.rules.size := by
    rw [hnet, (Grammar.shaped_compile hg).2]
    exact hrule
  obtain ⟨hstop, hindex⟩ := stopped_of_input hinput
  have hempty : i.recognizer.forest.size = 0 := by
    rw [hi.forest]
    rfl
  have hfirst : ∀ {first i₀}, i.enter env rule 0 = (.ok first, i₀) → i₀.recognizer.forest.Linked [] := by
    intro first i₀ hen
    have hinv : i.recognizer.invocation = ([] : List Station).head?.map Station.id := hi.invocation
    obtain ⟨-, hsize₀, -, -, hchildren, -⟩ := (enters_of_enter hen).facts hnet' hinv hi.state (by simp)
    rw [hempty] at hsize₀ hchildren
    have hnone : ∀ id, (i₀.recognizer.forest.get id).children = #[] := by
      intro id
      rcases Nat.eq_zero_or_pos id with rfl | hpos
      · exact hchildren
      · rw [Forest.get_of_le (by omega)]
        rfl
    refine ⟨?_, ?_, ?_⟩
    · intro id child hchild
      rw [hnone] at hchild
      cases hchild
    · intro id
      rw [Forest.ruleChildren_congr (i := {rule := 0}) (hnone id)]
      exact List.nodup_nil
    · intro id hid
      cases hid
  have hrooted : ∀ {root : InvocationId} {j : Interpreter} {a rest done w},
      Tracked env G rule root i.recognizer.input j (a :: rest) done w →
      j.recognizer.forest.Linked done → j.Rooted env := by
    intro root j a rest done w h hl
    obtain ⟨last, hlast⟩ := Option.isSome_iff_exists.1 (List.getLast?_isSome.2 (List.cons_ne_nil a rest))
    refine ⟨(a :: rest).map Station.id, last.id, ?_, ?_, h.woven.isTree hnet' hl hlast⟩
    · have hinv : j.recognizer.invocation = some a.id := h.invocation
      rw [hinv]
      exact h.woven.threads.chain
    · rw [List.getLast?_map, hlast]
      rfl
  obtain ⟨hsteps, hfails, hends⟩ := along_parse (P := fun scene =>
    scene.interpreter.recognizer.forest.Linked scene.done) hG hnet' hsize hi hstop hindex hfirst
    (fun h _ hl hs => hl.shift hG hnet' h hs) fun _ _ h hl _ _ => hl.returns hnet' h
  refine ⟨?_, ?_, ?_⟩
  · intro first i₀ j hen hj
    obtain ⟨a, rest, done, w, h, hl⟩ := hsteps first i₀ j hen hj
    exact hrooted h hl
  · intro fuel halt i' hrun
    rcases hfails fuel halt i' hrun with rfl | ⟨first, a, rest, done, w, h, hl⟩
    · exact .inl hempty
    · exact .inr (hrooted h hl)
  · intro fuel root i' hrun
    obtain ⟨first, -, j, a, done, w, -, -, h, hl, hfin⟩ := hends fuel root i' hrun
    have htree := h.woven.isTree hnet' hl (a := a) rfl
    obtain ⟨rfl, -⟩ := forest_finish hnet' h.invocation (h.outermost a rfl) h.callers hfin
    have hforest := forest_finish_eq hnet' h.invocation (h.outermost a rfl) h.callers
    rw [hfin] at hforest
    have hlt := h.woven.lt a (.head _)
    have hclosed := htree.close (by
      intro id hid
      exact List.mem_singleton.1 (List.mem_of_mem_filter hid))
    refine hclosed.keep ?_ ?_ ?_
    · rw [hforest]
      exact Forest.size_modify _ _ _
    · intro id
      rw [hforest]
      by_cases hid : id = a.id
      · rw [hid, Forest.get_modify _ _ _ hlt, h.woven.threads.parent_getLast (a := a) rfl]
        split
        · rfl
        · exact h.woven.threads.parent_getLast rfl
      · rw [Forest.get_modify_other _ _ _ _ hid]
    · intro id
      rw [hforest]
      apply Forest.get_modify_note Invocation.children
      intro node
      split <;> rfl

end Interpreter

/-- The invocations of the parse of A A B by `nested` are a tree, though a token was dropped. -/
theorem rooted_stray : ∃ i₀ i', beforeStray.enter nestedSetting 0 0 = (.ok 0, i₀) ∧
    i₀.Rooted nestedSetting ∧ beforeStray.parse nestedSetting 20 0 = some (.ok 0, i') ∧
    i'.recognizer.forest.IsTree 0 [] := by
  have hrun : (beforeStray.parse nestedSetting 20 0).map Prod.fst = some (.ok 0) := by cbv
  have hsize : nested.rules.size = 2 := by cbv
  obtain ⟨hsteps, -, hends⟩ := @Interpreter.parse_rooted nestedSetting beforeStray 0 nested
    #[{ kind := 1 }, { kind := 1 }, { kind := 2 }] defaultChannel 0 compile_nested
    (by rw [hsize]; decide) ⟨rfl, rfl, rfl, rfl, rfl, rfl, rfl⟩ rfl
  cases hparse : beforeStray.parse nestedSetting 20 0 with
  | none =>
    rw [hparse] at hrun
    cases hrun
  | some p =>
    rw [hparse] at hrun
    obtain ⟨outcome, i'⟩ := p
    obtain rfl := Option.some.inj hrun
    have hen : beforeStray.enter nestedSetting 0 0 =
      (.ok 0, (beforeStray.enter nestedSetting 0 0).2) := rfl
    exact ⟨_, i', hen, hsteps 0 _ _ hen .refl, rfl, hends 20 0 i' hparse⟩

end AdaptiveParsing
