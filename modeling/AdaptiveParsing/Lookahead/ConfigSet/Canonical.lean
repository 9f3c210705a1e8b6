import AdaptiveParsing.Lookahead.ConfigSet
/-!
One value for one set. Entries that stand in the order of their keys are determined by what they
list. Main statements: a set built from a list has the members of the list (`mem_ofList`), and two
such sets are equal exactly when they have the same members (`ofList_eq_iff`).
-/

namespace AdaptiveParsing
namespace ConfigSet

variable {cs ds : List Config} {es fs : List (ConfigKey × AltSet)} {e : ConfigKey × AltSet}
  {k l : ConfigKey} {alts : AltSet} {alt : Nat} {c : Config} {p : Bool}

theorem mem_sortByKey : c ∈ sortByKey cs ↔ c ∈ cs := by
  simp only [sortByKey, List.mem_map, List.mem_mergeSort]
  exact ⟨by rintro ⟨_, ⟨d, hd, rfl⟩, rfl⟩; exact hd, fun h => ⟨_, ⟨c, h, rfl⟩, rfl⟩⟩

theorem pairwise_sortByKey :
    (sortByKey cs).Pairwise fun c d => lexLe c.key.rank d.key.rank = true := by
  have h := @List.pairwise_mergeSort _ (fun a b : List Int × Config => lexLe a.1 b.1)
    (fun a b c => lexLe_trans a.1 b.1 c.1) (fun a b => lexLe_total a.1 b.1)
    (cs.map fun c => (c.key.rank, c))
  refine List.pairwise_map.2 (h.imp_of_mem ?_)
  intro a b ha hb
  obtain ⟨c, -, rfl⟩ := List.mem_map.1 (List.mem_mergeSort.1 ha)
  obtain ⟨d, -, rfl⟩ := List.mem_map.1 (List.mem_mergeSort.1 hb)
  exact id

/-- Some entry of this key has the alternative. -/
def Listed (es : List (ConfigKey × AltSet)) (k : ConfigKey) (alt : Nat) : Prop :=
  ∃ alts, (k, alts) ∈ es ∧ alt ∈ alts

theorem listed_nil : ¬ Listed [] k alt := by simp [Listed]

theorem listed_cons : Listed ((l, alts) :: es) k alt ↔ (k = l ∧ alt ∈ alts) ∨ Listed es k alt := by
  simp only [Listed, List.mem_cons, Prod.mk.injEq]
  constructor
  · rintro ⟨b, ⟨rfl, rfl⟩ | hb, h⟩
    · exact .inl ⟨rfl, h⟩
    · exact .inr ⟨b, hb, h⟩
  · rintro (⟨rfl, h⟩ | ⟨b, hb, h⟩)
    · exact ⟨alts, .inl ⟨rfl, rfl⟩, h⟩
    · exact ⟨b, .inr hb, h⟩

/-- Gathering keeps every alternative with its key. -/
theorem listed_gather : Listed (gather cs) k alt ↔ ⟨k, alt⟩ ∈ cs := by
  induction cs with
  | nil => simp [gather, Listed]
  | cons c cs ih =>
    obtain ⟨l, b⟩ := c
    rw [List.mem_cons, ← ih, gather]
    split <;> rename_i h
    · simp [h, listed_cons, listed_nil]
    · split <;> simp only [h, listed_cons, AltSet.mem_insert, AltSet.mem_singleton] <;> grind

theorem key_of_mem_gather (h : e ∈ gather cs) : ∃ c ∈ cs, c.key = e.1 := by
  induction cs with
  | nil => simp [gather] at h
  | cons c cs ih => grind [gather]

/-- The entries stand in the order of their keys, no key twice, and none is empty. -/
def Ordered (es : List (ConfigKey × AltSet)) : Prop :=
  es.Pairwise (fun e f => lexLe e.1.rank f.1.rank = true ∧ e.1 ≠ f.1) ∧ ∀ e ∈ es, ∃ alt, alt ∈ e.2

theorem ordered_gather (h : cs.Pairwise fun c d => lexLe c.key.rank d.key.rank = true) :
    Ordered (gather cs) := by
  induction cs with
  | nil => simp [Ordered, gather]
  | cons c cs ih =>
    obtain ⟨hc, h⟩ := List.pairwise_cons.1 h
    have hg := ih h
    have hk : ∀ e ∈ gather cs, lexLe c.key.rank e.1.rank = true := fun e he => by
      obtain ⟨d, hd, hde⟩ := key_of_mem_gather he
      exact hde ▸ hc d hd
    unfold gather
    split <;> rename_i hcs
    · simp [Ordered]
    · rw [hcs] at hg hk
      simp only [Ordered, List.pairwise_cons, List.forall_mem_cons] at hg
      obtain ⟨⟨hlt, hp⟩, ⟨a, ha⟩, hne⟩ := hg
      split <;> rename_i heq
      · refine ⟨List.pairwise_cons.2 ⟨hlt, hp⟩, List.forall_mem_cons.2 ⟨⟨c.alt, by simp⟩, hne⟩⟩
      · refine ⟨List.pairwise_cons.2 ⟨fun e he => ⟨hk e he, ?_⟩, List.pairwise_cons.2 ⟨hlt, hp⟩⟩,
          List.forall_mem_cons.2 ⟨⟨c.alt, by simp⟩, List.forall_mem_cons.2 ⟨⟨a, ha⟩, hne⟩⟩⟩
        intro h
        obtain rfl | he := List.mem_cons.1 he
        · exact heq h
        · have h' : lexLe _ c.key.rank = true := h ▸ (hlt e he).1
          exact heq (ConfigKey.rank_injective (lexLe_antisymm (hk _ (.head _)) h'))

theorem Ordered.tail (h : Ordered (e :: es)) : Ordered es :=
  ⟨(List.pairwise_cons.1 h.1).2, fun f hf => h.2 f (.tail _ hf)⟩

/-- The first key of ordered entries does not come back. -/
theorem Ordered.not_listed (h : Ordered ((k, alts) :: es)) : ¬ Listed es k alt :=
  fun ⟨_, hb, _⟩ => ((List.pairwise_cons.1 h.1).1 _ hb).2 rfl

theorem Ordered.le_of_listed (h : Ordered ((k, alts) :: es)) (hl : Listed es l alt) :
    lexLe k.rank l.rank = true :=
  let ⟨_, hb, _⟩ := hl
  ((List.pairwise_cons.1 h.1).1 _ hb).1

/-- Ordered entries that list the same are the same. -/
theorem Ordered.eq_of_listed_iff (he : Ordered es) (hf : Ordered fs)
    (h : ∀ k alt, Listed es k alt ↔ Listed fs k alt) : es = fs := by
  induction es generalizing fs with
  | nil =>
    cases fs with
    | nil => rfl
    | cons f fs =>
      obtain ⟨a, ha⟩ := hf.2 f (.head _)
      exact absurd ((h f.1 a).2 ⟨f.2, .head _, ha⟩) listed_nil
  | cons e es ih =>
    obtain ⟨k, as⟩ := e
    obtain ⟨a, ha⟩ := he.2 _ (.head _)
    cases fs with
    | nil => exact absurd ((h k a).1 ⟨as, .head _, ha⟩) listed_nil
    | cons f fs =>
      obtain ⟨l, bs⟩ := f
      obtain ⟨b, hb⟩ := hf.2 _ (.head _)
      simp only [listed_cons] at h
      have hkl : k = l := by
        obtain h1 | h1 := (h k a).1 (.inl ⟨rfl, ha⟩)
        · exact h1.1
        · obtain h2 | h2 := (h l b).2 (.inl ⟨rfl, hb⟩)
          · exact h2.1.symm
          · exact ConfigKey.rank_injective
              (lexLe_antisymm (he.le_of_listed h2) (hf.le_of_listed h1))
      subst hkl
      have hab : as = bs := AltSet.eq_of_mem_iff fun i => by
        have := h k i
        simp_all [he.not_listed, hf.not_listed]
      subst hab
      congr 1
      refine ih he.tail hf.tail fun l i => ?_
      by_cases hl : l = k
      · subst hl
        exact iff_of_false he.not_listed hf.not_listed
      · simpa [hl] using h l i

theorem Ordered.mem_lookup (h : Ordered es) : alt ∈ (es.lookup k).getD ∅ ↔ Listed es k alt := by
  induction es with
  | nil => simp [Listed]
  | cons e es ih =>
    obtain ⟨l, as⟩ := e
    rw [List.lookup_cons, listed_cons]
    split <;> rename_i hk
    · obtain rfl := eq_of_beq hk
      simp [h.not_listed]
    · rw [ih h.tail]
      simp_all

/-- A set built from a list has the members of the list. -/
theorem mem_ofList : c ∈ ofList cs p ↔ c ∈ cs :=
  (ordered_gather pairwise_sortByKey).mem_lookup.trans (listed_gather.trans mem_sortByKey)

/-- Sets built from lists are equal exactly when the lists have the same members. -/
theorem ofList_eq_iff : ofList cs p = ofList ds p ↔ ∀ c, c ∈ cs ↔ c ∈ ds := by
  constructor
  · intro h c
    rw [← mem_ofList (p := p), h, mem_ofList]
  · intro h
    have : gather (sortByKey cs) = gather (sortByKey ds) :=
      (ordered_gather pairwise_sortByKey).eq_of_listed_iff (ordered_gather pairwise_sortByKey)
        fun k alt => by rw [listed_gather, listed_gather, mem_sortByKey, mem_sortByKey, h]
    rw [ofList, this]; rfl

end ConfigSet
end AdaptiveParsing
