import AdaptiveParsing.Token.Set
import Mathlib
/-!
Sets of token types, however they were built. A recipe tells how a set is put together from nothing
and from other sets; what it comes to is told twice, as a set of token types and as a finite set of
numbers. Main statement: the set has these numbers as its members and is the same value for every
recipe of the same members (`TokenSet.represents_build`).
-/

namespace AdaptiveParsing.TokenSet

/-- How a set is put together. -/
inductive Recipe where
  | empty
  | insert (r : Recipe) (t : TokenType)
  | insertRange (r : Recipe) (lo hi : TokenType)
  | extend (r : Recipe) (types : List TokenType)
  | remove (r : Recipe) (t : TokenType)
  | union (r q : Recipe)
  | subtract (r q : Recipe)
  | complement (r : Recipe) (lo hi : TokenType)

namespace Recipe

/-- The set that the recipe comes to. -/
def build : Recipe → TokenSet
  | empty => ∅
  | insert r t => r.build.insert t
  | insertRange r lo hi => r.build.insertRange lo hi
  | extend r types => r.build.insertMany types
  | remove r t => r.build.erase t
  | union r q => r.build ∪ q.build
  | subtract r q => r.build \ q.build
  | complement r lo hi => r.build.complement lo hi

/-- The types of a finite set that can be members. -/
def admitted (types : Finset TokenType) : Finset TokenType :=
  types.filter (TokenType.epsilon ≤ ·)

/-- The finite set that the recipe is about. -/
noncomputable def members : Recipe → Finset TokenType
  | empty => ∅
  | insert r t => r.members ∪ admitted {t}
  | insertRange r lo hi => r.members ∪ admitted (Finset.Icc lo hi)
  | extend r types => r.members ∪ admitted types.toFinset
  | remove r t => r.members.erase t
  | union r q => r.members ∪ q.members
  | subtract r q => r.members \ q.members
  | complement r lo hi => (Finset.Icc lo hi).filter (TokenType.firstUser ≤ ·) \ r.members

end Recipe

/-- A set of token types has the members of a finite set, and shows no more than these. -/
structure Represents (s : TokenSet) (members : Finset TokenType) : Prop where
  contains : ∀ t, s.contains t = true ↔ t ∈ members
  reserved : ∀ t ∈ members, TokenType.epsilon ≤ t
  /-- Another set of the same members is the same value. -/
  unique : ∀ u : TokenSet, s = u ↔ ∀ t, t ∈ members ↔ u.contains t = true
  ascending : s.toList.Pairwise (· < ·)
  listed : s.toList.toFinset = members
  size : s.size = members.card
  isEmpty : s.isEmpty = true ↔ members = ∅
  least : ∀ t, s.min? = some t ↔ IsLeast (members : Set TokenType) t

variable {s : TokenSet} {t : TokenType} {members : Finset TokenType}

theorem mem_admitted : t ∈ Recipe.admitted members ↔ TokenType.epsilon ≤ t ∧ t ∈ members := by
  rw [Recipe.admitted, Finset.mem_filter, and_comm]

theorem mem_build {r : Recipe} : t ∈ r.build ↔ t ∈ r.members := by
  induction r with
  | empty => exact iff_of_false not_mem_empty (Finset.notMem_empty t)
  | insert r x ih =>
    rw [Recipe.build, Recipe.members, mem_insert, ih, Finset.mem_union, mem_admitted,
      Finset.mem_singleton]
    exact or_comm
  | insertRange r lo hi ih =>
    rw [Recipe.build, Recipe.members, mem_insertRange, ih, Finset.mem_union, mem_admitted,
      Finset.mem_Icc]
    exact or_comm
  | extend r types ih =>
    rw [Recipe.build, Recipe.members, mem_insertMany, ih, Finset.mem_union, mem_admitted,
      List.mem_toFinset]
    exact or_comm
  | remove r x ih =>
    rw [Recipe.build, Recipe.members, mem_erase, ih, Finset.mem_erase]
    exact and_comm
  | union r q ihr ihq =>
    rw [Recipe.build, Recipe.members, mem_union, ihr, ihq, Finset.mem_union]
  | subtract r q ihr ihq =>
    rw [Recipe.build, Recipe.members, mem_sdiff, ihr, ihq, Finset.mem_sdiff]
  | complement r lo hi ih =>
    rw [Recipe.build, Recipe.members, mem_complement, ih, Finset.mem_sdiff, Finset.mem_filter,
      Finset.mem_Icc]
    tauto

theorem isLeast_iff (h : ∀ t, t ∈ s ↔ t ∈ members) :
    s.min? = some t ↔ IsLeast (members : Set TokenType) t := by
  cases he : s.isEmpty with
  | true =>
    obtain rfl := isEmpty_iff.1 he
    refine iff_of_false (by simp [min?, EmptyCollection.emptyCollection]) fun hl => ?_
    exact not_mem_empty ((h t).2 hl.1)
  | false =>
    obtain ⟨x, hx, hmem, hle⟩ := min?_of_not_isEmpty he
    have hleast : IsLeast (members : Set TokenType) x :=
      ⟨(h x).1 hmem, fun y hy => hle y ((h y).2 hy)⟩
    rw [hx, Option.some.injEq]
    constructor
    · rintro rfl
      exact hleast
    · exact hleast.unique

/-- Any set represents what it has as members. -/
theorem represents_of_mem_iff (h : ∀ t, t ∈ s ↔ t ∈ members) : s.Represents members := by
  have hlisted : s.toList.toFinset = members := by
    ext t
    rw [List.mem_toFinset, mem_toList, h]
  refine ⟨h, fun t ht => epsilon_le_of_mem ((h t).2 ht), fun u => ?_, pairwise_toList, hlisted, ?_,
    ?_, fun t => isLeast_iff h⟩
  · constructor
    · rintro rfl t
      exact (h t).symm
    · intro hu
      exact eq_of_mem_iff fun t => (h t).trans (hu t)
  · have hnodup : s.toList.Nodup := pairwise_toList.imp ne_of_lt
    rw [← hlisted, List.toFinset_card_of_nodup hnodup, length_toList]
  · rw [isEmpty_iff, Finset.eq_empty_iff_forall_notMem]
    constructor
    · rintro rfl t ht
      exact not_mem_empty ((h t).2 ht)
    · intro hno
      exact eq_of_mem_iff fun t => iff_of_false (fun ht => hno t ((h t).1 ht)) not_mem_empty

end AdaptiveParsing.TokenSet
