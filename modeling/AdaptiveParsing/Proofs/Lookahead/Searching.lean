import AdaptiveParsing.Proofs.Lookahead.Walks
/-!
Ways along a word can be searched for. A step along a word leads to a place and what is left of the word, and
from each place to few others (`Network.mem_advance_iff`). So where finitely many are closed under steps, no way
along the word leads anywhere else (`Network.Reads.mem_of_closed`).
-/

namespace AdaptiveParsing

deriving instance DecidableEq for Place

namespace Network

variable (n : Network)

/-- Where a way stands, with what it has still to take. -/
abbrev Errand := List TokenType × Place

/-- The places past one step along the word, each with what is left of the word. -/
def advance (e : Errand) : List Errand :=
  let ahead := (n.state e.2.state).transitions
  let free := (ahead.filterMap e.2.follow?).map fun q => (e.1, q)
  let back := if (n.state e.2.state).isRuleStop then
      match e.2.returns with
      | f :: outer => [(e.1, Place.back f outer)]
      | [] => []
    else []
  let taken := match e.1 with
    | token :: rest => (ahead.filter fun t => n.Matches t.kind token).map fun t =>
        (rest, { e.2 with state := t.target })
    | [] => []
  free ++ back ++ taken

/-- The places within so many steps along the word. -/
def explore : Nat → List Errand → List Errand
  | 0, errands => errands
  | steps + 1, errands => explore steps (errands ++ errands.flatMap n.advance).dedup

variable {n : Network} {p q : Place} {v w : List TokenType} {errands : List Errand}

theorem mem_advance_iff : (w, q) ∈ n.advance (v, p) ↔ ∃ u, v = u ++ w ∧ n.Step p u q := by
  unfold advance
  dsimp only
  rw [List.mem_append, List.mem_append]
  constructor
  · rintro ((h | h) | h)
    · obtain ⟨q', hq, heq⟩ := List.mem_map.1 h
      obtain ⟨rfl, rfl⟩ := Prod.mk.inj heq
      obtain ⟨t, ht, hfollow⟩ := List.mem_filterMap.1 hq
      exact ⟨[], rfl, .free ht hfollow⟩
    · split at h
      · rename_i hstop
        split at h
        · rename_i f outer hr
          obtain ⟨rfl, rfl⟩ := Prod.mk.inj (List.mem_singleton.1 h)
          exact ⟨[], rfl, .back hstop hr⟩
        · cases h
      · cases h
    · split at h
      · rename_i token rest
        obtain ⟨t, ht, heq⟩ := List.mem_map.1 h
        obtain ⟨rfl, rfl⟩ := Prod.mk.inj heq
        obtain ⟨ht, hm⟩ := List.mem_filter.1 ht
        exact ⟨[token], rfl, .take ht (by simpa using hm)⟩
      · cases h
  · rintro ⟨u, rfl, hs⟩
    cases hs with
    | free ht hfollow =>
      exact .inl (.inl (List.mem_map.2 ⟨q, List.mem_filterMap.2 ⟨_, ht, hfollow⟩, rfl⟩))
    | back hstop hr =>
      refine .inl (.inr ?_)
      rw [if_pos hstop, hr]
      exact .head _
    | take ht hm =>
      refine .inr (List.mem_map.2 ⟨_, List.mem_filter.2 ⟨ht, ?_⟩, rfl⟩)
      simpa using hm

/-- A way along a word stays among places that are closed under steps. -/
theorem Reads.mem_of_closed (h : n.Reads p v q) (hclosed : ∀ e ∈ errands, ∀ e' ∈ n.advance e, e' ∈ errands)
    (hp : (v ++ w, p) ∈ errands) : (w, q) ∈ errands := by
  induction h generalizing w with
  | refl => exact hp
  | @step p₁ p₂ u₁ u₂ _ hs ih =>
    rw [List.append_assoc] at hp
    exact hclosed _ (ih hp) _ (mem_advance_iff.2 ⟨u₂, rfl, hs⟩)

end Network

end AdaptiveParsing
