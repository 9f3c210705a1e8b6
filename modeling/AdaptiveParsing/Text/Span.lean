/-!
Byte ranges of a source text.
-/

namespace AdaptiveParsing

/-- A half-open range of byte offsets. -/
structure Span where
  start : Nat := 0
  stop : Nat := 0
deriving DecidableEq, Hashable, Inhabited, Repr

namespace Span

/-- The empty range at `offset`. -/
def point (offset : Nat) : Span := ⟨offset, offset⟩

def length (s : Span) : Nat := s.stop - s.start

def isEmpty (s : Span) : Bool := s.start == s.stop

instance : Membership Nat Span := ⟨fun s offset => s.start ≤ offset ∧ offset < s.stop⟩

instance (offset : Nat) (s : Span) : Decidable (offset ∈ s) :=
  inferInstanceAs (Decidable (s.start ≤ offset ∧ offset < s.stop))

/-- The least range that covers both. -/
def merge (s t : Span) : Span := ⟨min s.start t.start, max s.stop t.stop⟩

instance : ToString Span := ⟨fun s => toString s.start ++ ".." ++ toString s.stop⟩

variable {s t : Span} {i : Nat}

theorem mem_iff : i ∈ s ↔ s.start ≤ i ∧ i < s.stop := Iff.rfl

theorem mem_merge_of_mem_left (h : i ∈ s) : i ∈ s.merge t := by
  simp only [mem_iff, merge] at *; omega

theorem mem_merge_of_mem_right (h : i ∈ t) : i ∈ s.merge t := by
  simp only [mem_iff, merge] at *; omega

end Span

end AdaptiveParsing
