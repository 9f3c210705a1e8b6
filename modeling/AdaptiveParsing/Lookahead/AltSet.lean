import AdaptiveParsing.Ascending
/-!
Sets of alternatives. Alternatives are numbered from one. A set is the ascending list of its
members, so that sets of the same members are equal values (`eq_of_mem_iff`).
-/

namespace AdaptiveParsing

/-- A set of alternatives. -/
structure AltSet where
  /-- The members, ascending. -/
  toList : List Nat := []
  ascending : toList.Pairwise (· < ·) := by exact .nil
deriving DecidableEq

namespace AltSet

instance : EmptyCollection AltSet := ⟨{}⟩

instance : Inhabited AltSet := ⟨∅⟩

instance : Hashable AltSet := ⟨fun s => hash s.toList⟩

instance : Repr AltSet := ⟨fun s n => reprPrec s.toList n⟩

def contains (s : AltSet) (alt : Nat) : Bool := s.toList.contains alt

instance : Membership Nat AltSet := ⟨fun s alt => s.contains alt = true⟩

instance (alt : Nat) (s : AltSet) : Decidable (alt ∈ s) :=
  inferInstanceAs (Decidable (s.contains alt = true))

def insert (s : AltSet) (alt : Nat) : AltSet where
  toList := insertAscending alt s.toList
  ascending := pairwise_insertAscending s.ascending

def insertMany (s : AltSet) (alts : List Nat) : AltSet := alts.foldl insert s

def singleton (alt : Nat) : AltSet := insert ∅ alt

def ofList (alts : List Nat) : AltSet := insertMany ∅ alts

instance : Union AltSet := ⟨fun s t => s.insertMany t.toList⟩

/-- How many members there are. -/
def size (s : AltSet) : Nat := s.toList.length

def isEmpty (s : AltSet) : Bool := s.toList.isEmpty

def min? (s : AltSet) : Option Nat := s.toList.head?

/-- The only member of a set that has one. -/
def single? (s : AltSet) : Option Nat :=
  match s.toList with
  | [alt] => some alt
  | _ => none

variable {s t : AltSet} {a b : Nat}

theorem mem_iff : a ∈ s ↔ a ∈ s.toList := by simp [Membership.mem, contains]

/-- Sets of the same members are equal. -/
theorem eq_of_mem_iff (h : ∀ a, a ∈ s ↔ a ∈ t) : s = t := by
  have := eq_of_mem_iff_of_ascending s.ascending t.ascending fun a => by
    rw [← mem_iff, h, mem_iff]
  cases s; cases t; simp_all

@[simp] theorem not_mem_empty : a ∉ (∅ : AltSet) := by
  simp [mem_iff, EmptyCollection.emptyCollection]

@[simp] theorem mem_insert : a ∈ s.insert b ↔ a = b ∨ a ∈ s := by
  rw [mem_iff, mem_iff, insert, mem_insertAscending]

@[simp] theorem mem_insertMany {alts : List Nat} : a ∈ s.insertMany alts ↔ a ∈ alts ∨ a ∈ s := by
  induction alts generalizing s with
  | nil => simp [insertMany]
  | cons b alts ih =>
    rw [insertMany, List.foldl_cons, ← insertMany, ih, mem_insert, List.mem_cons, ← or_assoc,
      or_comm (a := a = b)]

@[simp] theorem mem_singleton : a ∈ singleton b ↔ a = b := by simp [singleton]

@[simp] theorem mem_ofList {alts : List Nat} : a ∈ ofList alts ↔ a ∈ alts := by simp [ofList]

@[simp] theorem mem_union : a ∈ s ∪ t ↔ a ∈ s ∨ a ∈ t := by
  rw [show s ∪ t = s.insertMany t.toList from rfl, mem_insertMany, ← mem_iff, or_comm]

end AltSet

end AdaptiveParsing
