import AdaptiveParsing.Token.Kind
/-!
Ranges of token types. A list of ranges that ascend and have a gap between them is determined by
the types it covers (`Apart.eq_of_covers_iff`), whatever it was built from, and what it takes to
change it does not depend on how many types there are.
-/

namespace AdaptiveParsing

/-- The types from the first to the last, both included. -/
structure TypeRange where
  first : TokenType
  last : TokenType
deriving DecidableEq, Hashable, Inhabited, Repr

namespace TypeRange

def contains (r : TypeRange) (t : TokenType) : Bool := decide (r.first ≤ t) && decide (t ≤ r.last)

/-- The members, ascending. -/
def toList (r : TypeRange) : List TokenType := TokenType.range r.first r.last

/-- How many types there are, if there are any. -/
def size (r : TypeRange) : Nat := (r.last - r.first + 1).toNat

/-- Adds a range to a list of them. Ranges it overlaps or touches become one with it. -/
def insertInto (r : TypeRange) : List TypeRange → List TypeRange
  | [] => [r]
  | s :: rest =>
    if r.last + 1 < s.first then r :: s :: rest
    else if s.last + 1 < r.first then s :: r.insertInto rest
    else insertInto ⟨min r.first s.first, max r.last s.last⟩ rest

/-- What is left of a range before and after another. -/
def minus (s r : TypeRange) : List TypeRange :=
  [⟨s.first, min s.last (r.first - 1)⟩, ⟨max s.first (r.last + 1), s.last⟩].filter
    fun p => decide (p.first ≤ p.last)

/-- Takes a range out of a list of them. -/
def eraseFrom (r : TypeRange) (rs : List TypeRange) : List TypeRange := rs.flatMap (·.minus r)

end TypeRange

/-- Some range of the list contains the type. -/
def Covers (rs : List TypeRange) (t : TokenType) : Prop := ∃ r ∈ rs, r.first ≤ t ∧ t ≤ r.last

/-- The ranges ascend, none is empty, and between neighbours a type is missing. -/
structure Apart (rs : List TypeRange) : Prop where
  nonempty : ∀ r ∈ rs, r.first ≤ r.last
  gaps : rs.Pairwise fun r s => r.last + 1 < s.first

variable {r s : TypeRange} {rs ss : List TypeRange} {t : TokenType}

namespace TypeRange

theorem contains_iff : r.contains t = true ↔ r.first ≤ t ∧ t ≤ r.last := by simp [contains]

theorem mem_toList : t ∈ r.toList ↔ r.first ≤ t ∧ t ≤ r.last := TokenType.mem_range

theorem length_toList : r.toList.length = r.size := by simp [toList, TokenType.range, size]

end TypeRange

@[simp] theorem not_covers_nil : ¬ Covers [] t := by simp [Covers]

@[simp] theorem covers_cons : Covers (r :: rs) t ↔ (r.first ≤ t ∧ t ≤ r.last) ∨ Covers rs t := by
  simp [Covers]

@[simp] theorem covers_append : Covers (rs ++ ss) t ↔ Covers rs t ∨ Covers ss t := by
  simp only [Covers, List.mem_append, or_and_right, exists_or]

namespace Apart

theorem nil : Apart [] := ⟨by simp, .nil⟩

theorem singleton (h : r.first ≤ r.last) : Apart [r] := ⟨by simpa using h, by simp⟩

theorem tail (h : Apart (r :: rs)) : Apart rs :=
  ⟨fun s hs => h.nonempty s (.tail _ hs), h.gaps.tail⟩

/-- All that the other ranges cover comes after the first range and a gap. -/
theorem lt_of_covers (h : Apart (r :: rs)) (hc : Covers rs t) : r.last + 1 < t := by
  obtain ⟨s, hs, h1, _⟩ := hc
  have := (List.pairwise_cons.1 h.gaps).1 s hs
  lia

theorem cons (hr : r.first ≤ r.last) (hs : ∀ s ∈ rs, r.last + 1 < s.first) (h : Apart rs) :
    Apart (r :: rs) :=
  ⟨List.forall_mem_cons.2 ⟨hr, h.nonempty⟩, List.pairwise_cons.2 ⟨hs, h.gaps⟩⟩

/-- Lists of ranges that are apart and cover the same types are equal. -/
theorem eq_of_covers_iff (hr : Apart rs) (hs : Apart ss) (h : ∀ t, Covers rs t ↔ Covers ss t) :
    rs = ss := by
  induction rs generalizing ss with
  | nil =>
    cases ss with
    | nil => rfl
    | cons s ss =>
      have := hs.nonempty s (.head _)
      exact absurd ((h s.first).2 (by simp; lia)) not_covers_nil
  | cons r rs ih =>
    have hr0 := hr.nonempty r (.head _)
    cases ss with
    | nil => exact absurd ((h r.first).1 (by simp; lia)) not_covers_nil
    | cons s ss =>
      have hs0 := hs.nonempty s (.head _)
      have hrs := fun t => hr.lt_of_covers (t := t)
      have hss := fun t => hs.lt_of_covers (t := t)
      simp only [covers_cons] at h
      have h1 := h r.first
      have h2 := h s.first
      have h3 := h (r.last + 1)
      have h4 := h (s.last + 1)
      have e1 : r.first = s.first := by grind
      have e2 : r.last = s.last := by grind
      obtain rfl : r = s := by cases r; cases s; simp_all
      congr 1
      refine ih hr.tail hs.tail fun t => ?_
      have := h t
      grind

end Apart

namespace TypeRange

/-- Every range of the result begins where the new one or an old one does. -/
theorem le_first_of_mem_insertInto {b : TokenType} (hr : b ≤ r.first)
    (hs : ∀ s ∈ rs, b ≤ s.first) : ∀ s ∈ r.insertInto rs, b ≤ s.first := by
  induction rs generalizing r with
  | nil => simpa [insertInto] using hr
  | cons x rs ih =>
    obtain ⟨hx, hs⟩ := List.forall_mem_cons.1 hs
    unfold insertInto
    split
    · exact List.forall_mem_cons.2 ⟨hr, List.forall_mem_cons.2 ⟨hx, hs⟩⟩
    · split
      · exact List.forall_mem_cons.2 ⟨hx, ih hr hs⟩
      · exact ih (by simp only; lia) hs

theorem apart_insertInto (hr : r.first ≤ r.last) (h : Apart rs) : Apart (r.insertInto rs) := by
  induction rs generalizing r with
  | nil => exact .singleton hr
  | cons x rs ih =>
    obtain ⟨hx, hg⟩ := List.pairwise_cons.1 h.gaps
    have hx0 := h.nonempty x (.head _)
    unfold insertInto
    split
    · refine .cons hr ?_ h
      rintro s (_ | ⟨_, hs⟩)
      · assumption
      · have := hx s hs
        lia
    · split
      · refine .cons hx0 (fun s hs => ?_) (ih hr h.tail)
        have := le_first_of_mem_insertInto (b := x.last + 2) (by lia)
          (fun s hs => by have := hx s hs; lia) s hs
        lia
      · exact ih (by simp only; lia) h.tail

theorem covers_insertInto (hr : r.first ≤ r.last) (h : Apart rs) :
    Covers (r.insertInto rs) t ↔ (r.first ≤ t ∧ t ≤ r.last) ∨ Covers rs t := by
  induction rs generalizing r with
  | nil => simp [insertInto]
  | cons x rs ih =>
    have hx0 := h.nonempty x (.head _)
    unfold insertInto
    split
    · simp
    · split
      · simp only [covers_cons, ih hr h.tail]
        grind
      · rw [ih (by simp only; lia) h.tail, covers_cons]
        simp only
        grind

theorem mem_minus {p : TypeRange} : p ∈ s.minus r ↔ p.first ≤ p.last ∧
    (p = ⟨s.first, min s.last (r.first - 1)⟩ ∨ p = ⟨max s.first (r.last + 1), s.last⟩) := by
  simp only [minus, List.mem_filter, List.mem_cons, List.not_mem_nil, or_false, decide_eq_true_eq]
  exact and_comm

theorem apart_eraseFrom (hr : r.first ≤ r.last) (h : Apart rs) : Apart (r.eraseFrom rs) := by
  refine ⟨fun p hp => ?_, ?_⟩
  · obtain ⟨s, _, hp⟩ := List.mem_flatMap.1 hp
    exact (mem_minus.1 hp).1
  · rw [eraseFrom, List.flatMap, List.pairwise_flatten, List.pairwise_map]
    refine ⟨fun l hl => ?_, h.gaps.imp fun {a b} hab p hp q hq => ?_⟩
    · obtain ⟨s, _, rfl⟩ := List.mem_map.1 hl
      exact .filter _ (by simp; lia)
    · obtain ⟨h1, h2⟩ := mem_minus.1 hp
      obtain ⟨h3, h4⟩ := mem_minus.1 hq
      grind

theorem covers_eraseFrom :
    Covers (r.eraseFrom rs) t ↔ Covers rs t ∧ ¬ (r.first ≤ t ∧ t ≤ r.last) := by
  simp only [Covers, eraseFrom, List.mem_flatMap, mem_minus]
  constructor
  · rintro ⟨p, ⟨s, hs, hp, hp'⟩, ht⟩
    exact ⟨⟨s, hs, by grind⟩, by grind⟩
  · rintro ⟨⟨s, hs, ht⟩, hn⟩
    by_cases hlt : t < r.first
    · exact ⟨_, ⟨s, hs, by simp only; lia, .inl rfl⟩, by simp only; lia⟩
    · exact ⟨_, ⟨s, hs, by simp only; lia, .inr rfl⟩, by simp only; lia⟩

end TypeRange

end AdaptiveParsing
