import AdaptiveParsing.Token.Names
import AdaptiveParsing.Token.Ranges
/-!
Finite sets of token types, for lookahead. A set is the list of ranges that its members form, so
that sets of the same members are equal values (`eq_of_mem_iff`), and a set takes the room of its
ranges, however many types they hold. Every operation says what it does to the members.
-/

namespace AdaptiveParsing

/-- A set of token types. The empty word is the least type that can be a member. -/
structure TokenSet where
  ranges : List TypeRange := []
  apart : Apart ranges := by exact .nil
  reserved : ∀ r ∈ ranges, TokenType.epsilon ≤ r.first := by simp
deriving DecidableEq

namespace TokenSet

instance : EmptyCollection TokenSet := ⟨{}⟩

instance : Inhabited TokenSet := ⟨∅⟩

instance : Hashable TokenSet := ⟨fun s => hash s.ranges⟩

instance : Repr TokenSet := ⟨fun s n => reprPrec s.ranges n⟩

def contains (s : TokenSet) (t : TokenType) : Bool := s.ranges.any (·.contains t)

instance : Membership TokenType TokenSet := ⟨fun s t => s.contains t = true⟩

instance (t : TokenType) (s : TokenSet) : Decidable (t ∈ s) :=
  inferInstanceAs (Decidable (s.contains t = true))

/-- Adds the types of a range. -/
def addRange (s : TokenSet) (r : TypeRange) (h : r.first ≤ r.last)
    (h' : TokenType.epsilon ≤ r.first) : TokenSet where
  ranges := r.insertInto s.ranges
  apart := TypeRange.apart_insertInto h s.apart
  reserved := TypeRange.le_first_of_mem_insertInto h' s.reserved

/-- Adds every type from `lo` to `hi`; negative types other than the reserved ones are ignored. -/
def insertRange (s : TokenSet) (lo hi : TokenType) : TokenSet :=
  if h : max lo TokenType.epsilon ≤ hi then s.addRange ⟨max lo TokenType.epsilon, hi⟩ h (by lia)
  else s

def ofRange (lo hi : TokenType) : TokenSet := insertRange ∅ lo hi

def insert (s : TokenSet) (t : TokenType) : TokenSet := s.insertRange t t

def insertMany (s : TokenSet) (types : List TokenType) : TokenSet := types.foldl insert s

def ofList (types : List TokenType) : TokenSet := insertMany ∅ types

def singleton (t : TokenType) : TokenSet := insert ∅ t

/-- Takes out the types of a range. -/
def dropRange (s : TokenSet) (r : TypeRange) (h : r.first ≤ r.last) : TokenSet where
  ranges := r.eraseFrom s.ranges
  apart := TypeRange.apart_eraseFrom h s.apart
  reserved := fun p hp => by
    obtain ⟨q, hq, hp⟩ := List.mem_flatMap.1 hp
    have := s.reserved q hq
    obtain ⟨_, rfl | rfl⟩ := TypeRange.mem_minus.1 hp <;> simp only <;> lia

def erase (s : TokenSet) (t : TokenType) : TokenSet := s.dropRange ⟨t, t⟩ (Int.le_refl t)

def union (s u : TokenSet) : TokenSet :=
  u.ranges.attach.foldl
    (fun s r => s.addRange r.1 (u.apart.nonempty r.1 r.2) (u.reserved r.1 r.2)) s

instance : Union TokenSet := ⟨union⟩

/-- The members that are not in `u`. -/
def diff (s u : TokenSet) : TokenSet :=
  u.ranges.attach.foldl (fun s r => s.dropRange r.1 (u.apart.nonempty r.1 r.2)) s

instance : SDiff TokenSet := ⟨diff⟩

/-- The types from `lo` to `hi` that a lexer gives out and that are not members. -/
def complement (s : TokenSet) (lo hi : TokenType) : TokenSet :=
  ofRange (max lo TokenType.firstUser) hi \ s

def isEmpty (s : TokenSet) : Bool := s.ranges.isEmpty

/-- The members, ascending. -/
def toList (s : TokenSet) : List TokenType := s.ranges.flatMap TypeRange.toList

/-- How many members there are. -/
def size (s : TokenSet) : Nat := s.ranges.foldr (fun r n => r.size + n) 0

def min? (s : TokenSet) : Option TokenType := s.ranges.head?.map TypeRange.first

/-- The set in an error message: the bare name of a single member, otherwise the names of all
members in braces. -/
def describe (s : TokenSet) (names : Vocabulary) : String :=
  match s.toList.map names.displayName with
  | [name] => name
  | all => "\x7b" ++ ", ".intercalate all ++ "\x7d"

/-- The set as a listing of short names in braces. -/
def listing (s : TokenSet) : String :=
  "\x7b" ++ ", ".intercalate (s.toList.map TokenType.label) ++ "\x7d"

variable {s u : TokenSet} {t x lo hi : TokenType}

theorem mem_iff_covers : t ∈ s ↔ Covers s.ranges t := by
  simp [Membership.mem, contains, TypeRange.contains_iff, Covers]

/-- Sets of the same members are equal. -/
theorem eq_of_mem_iff (h : ∀ t, t ∈ s ↔ t ∈ u) : s = u := by
  have := s.apart.eq_of_covers_iff u.apart fun t => by rw [← mem_iff_covers, h, mem_iff_covers]
  cases s; cases u; simp_all

theorem epsilon_le_of_mem (h : t ∈ s) : TokenType.epsilon ≤ t := by
  obtain ⟨r, hr, h, _⟩ := mem_iff_covers.1 h
  have := s.reserved r hr
  lia

@[simp] theorem not_mem_empty : t ∉ (∅ : TokenSet) := by
  simp [mem_iff_covers, EmptyCollection.emptyCollection]

@[simp] theorem mem_addRange {r : TypeRange} {h : r.first ≤ r.last}
    {h' : TokenType.epsilon ≤ r.first} :
    t ∈ s.addRange r h h' ↔ (r.first ≤ t ∧ t ≤ r.last) ∨ t ∈ s := by
  rw [mem_iff_covers, mem_iff_covers]
  exact TypeRange.covers_insertInto h s.apart

@[simp] theorem mem_insertRange :
    t ∈ s.insertRange lo hi ↔ (TokenType.epsilon ≤ t ∧ lo ≤ t ∧ t ≤ hi) ∨ t ∈ s := by
  unfold insertRange
  split
  · rw [mem_addRange]
    grind
  · grind

@[simp] theorem mem_insert : t ∈ s.insert x ↔ (TokenType.epsilon ≤ t ∧ t = x) ∨ t ∈ s := by
  rw [insert, mem_insertRange]
  grind

@[simp] theorem mem_singleton : t ∈ singleton x ↔ TokenType.epsilon ≤ t ∧ t = x := by
  simp [singleton]

@[simp] theorem mem_ofRange : t ∈ ofRange lo hi ↔ TokenType.epsilon ≤ t ∧ lo ≤ t ∧ t ≤ hi := by
  simp [ofRange]

@[simp] theorem mem_insertMany {types : List TokenType} :
    t ∈ s.insertMany types ↔ (TokenType.epsilon ≤ t ∧ t ∈ types) ∨ t ∈ s := by
  induction types generalizing s with
  | nil => simp [insertMany]
  | cons x types ih =>
    rw [insertMany, List.foldl_cons, ← insertMany, ih, mem_insert, List.mem_cons]
    grind

@[simp] theorem mem_ofList {types : List TokenType} :
    t ∈ ofList types ↔ TokenType.epsilon ≤ t ∧ t ∈ types := by
  simp [ofList]

@[simp] theorem mem_dropRange {r : TypeRange} {h : r.first ≤ r.last} :
    t ∈ s.dropRange r h ↔ t ∈ s ∧ ¬ (r.first ≤ t ∧ t ≤ r.last) := by
  rw [mem_iff_covers, mem_iff_covers]
  exact TypeRange.covers_eraseFrom

@[simp] theorem mem_erase : t ∈ s.erase x ↔ t ∈ s ∧ t ≠ x := by
  rw [erase, mem_dropRange]
  grind

@[simp] theorem mem_union : t ∈ s ∪ u ↔ t ∈ s ∨ t ∈ u := by
  suffices h : ∀ (rs : List { r // r ∈ u.ranges }) (s : TokenSet),
      t ∈ rs.foldl (fun s r => s.addRange r.1 (u.apart.nonempty r.1 r.2) (u.reserved r.1 r.2)) s ↔
        t ∈ s ∨ ∃ r ∈ rs, r.1.first ≤ t ∧ t ≤ r.1.last by
    refine (h _ s).trans (or_congr_right ?_)
    simp only [List.mem_attach, true_and, Subtype.exists, mem_iff_covers, Covers, exists_prop]
  intro rs
  induction rs with
  | nil => simp
  | cons r rs ih =>
    intro s
    rw [List.foldl_cons, ih, mem_addRange]
    simp only [List.mem_cons, exists_eq_or_imp]
    grind

theorem mem_foldl_union {α : Type} {f : α → TokenSet} {l : List α} :
    t ∈ l.foldl (fun all a => all ∪ f a) s ↔ t ∈ s ∨ ∃ a ∈ l, t ∈ f a := by
  induction l generalizing s with
  | nil => simp
  | cons a l ih =>
    rw [List.foldl_cons, ih, mem_union]
    simp only [List.mem_cons, exists_eq_or_imp, or_assoc]

@[simp] theorem mem_sdiff : t ∈ s \ u ↔ t ∈ s ∧ t ∉ u := by
  suffices h : ∀ (rs : List { r // r ∈ u.ranges }) (s : TokenSet),
      t ∈ rs.foldl (fun s r => s.dropRange r.1 (u.apart.nonempty r.1 r.2)) s ↔
        t ∈ s ∧ ¬ ∃ r ∈ rs, r.1.first ≤ t ∧ t ≤ r.1.last by
    refine (h _ s).trans (and_congr_right fun _ => not_congr ?_)
    simp only [List.mem_attach, true_and, Subtype.exists, mem_iff_covers, Covers, exists_prop]
  intro rs
  induction rs with
  | nil => simp
  | cons r rs ih =>
    intro s
    rw [List.foldl_cons, ih, mem_dropRange]
    simp only [List.mem_cons, exists_eq_or_imp]
    grind

@[simp] theorem mem_complement :
    t ∈ s.complement lo hi ↔ TokenType.firstUser ≤ t ∧ lo ≤ t ∧ t ≤ hi ∧ t ∉ s := by
  rw [complement, mem_sdiff, mem_ofRange]
  grind

@[simp] theorem mem_toList : t ∈ s.toList ↔ t ∈ s := by
  simp [toList, TypeRange.mem_toList, mem_iff_covers, Covers]

theorem pairwise_toList : s.toList.Pairwise (· < ·) := by
  rw [toList, List.flatMap, List.pairwise_flatten, List.pairwise_map]
  refine ⟨fun l hl => ?_, s.apart.gaps.imp fun {a b} hab t ht x hx => ?_⟩
  · obtain ⟨r, _, rfl⟩ := List.mem_map.1 hl
    exact TokenType.pairwise_range
  · have := TypeRange.mem_toList.1 ht
    have := TypeRange.mem_toList.1 hx
    lia

theorem length_toList : s.toList.length = s.size := by
  rw [toList, size]
  induction s.ranges with
  | nil => rfl
  | cons r rs ih => rw [List.flatMap_cons, List.length_append, TypeRange.length_toList, ih]; rfl

theorem isEmpty_iff : s.isEmpty = true ↔ s = ∅ := by
  rw [isEmpty, List.isEmpty_iff]
  constructor
  · intro h
    exact eq_of_mem_iff fun t => by simp [mem_iff_covers, h, EmptyCollection.emptyCollection]
  · rintro rfl
    rfl

/-- There is a least one of some types. -/
theorem min?_of_not_isEmpty (h : s.isEmpty = false) :
    ∃ x, s.min? = some x ∧ x ∈ s ∧ ∀ y ∈ s, x ≤ y := by
  unfold isEmpty at h
  unfold min?
  cases hr : s.ranges with
  | nil =>
    rw [hr] at h
    cases h
  | cons r rest =>
    have hapart := s.apart
    rw [hr] at hapart
    have hr0 := hapart.nonempty r (.head _)
    refine ⟨r.first, rfl, ?_, ?_⟩
    · rw [mem_iff_covers, hr, covers_cons]
      exact .inl ⟨Int.le_refl _, hr0⟩
    · intro y hy
      rw [mem_iff_covers, hr, covers_cons] at hy
      rcases hy with hy | hy
      · exact hy.1
      · have hlt := hapart.lt_of_covers hy
        lia

end TokenSet

end AdaptiveParsing
