/-!
Ascending lists of numbers, none twice. Such a list is determined by its members.
-/

namespace AdaptiveParsing

/-- Adds a number to an ascending list that has none twice. -/
def insertAscending (n : Nat) : List Nat → List Nat
  | [] => [n]
  | m :: rest =>
    if n < m then n :: m :: rest
    else if n = m then m :: rest
    else m :: insertAscending n rest

variable {n m : Nat} {ns ms : List Nat}

@[simp] theorem mem_insertAscending : m ∈ insertAscending n ns ↔ m = n ∨ m ∈ ns := by
  induction ns with
  | nil => simp [insertAscending]
  | cons k ns ih =>
    unfold insertAscending
    split
    · simp
    · split
      · simp_all
      · rw [List.mem_cons, List.mem_cons, ih]
        exact or_left_comm

theorem pairwise_insertAscending (h : ns.Pairwise (· < ·)) :
    (insertAscending n ns).Pairwise (· < ·) := by
  induction ns with
  | nil => simp [insertAscending]
  | cons k ns ih =>
    obtain ⟨hk, h⟩ := List.pairwise_cons.1 h
    unfold insertAscending
    split
    · refine List.pairwise_cons.2 ⟨?_, List.pairwise_cons.2 ⟨hk, h⟩⟩
      rintro m (_ | ⟨_, hm⟩)
      · assumption
      · have := hk m hm
        omega
    · split
      · exact List.pairwise_cons.2 ⟨hk, h⟩
      · refine List.pairwise_cons.2 ⟨fun m hm => ?_, ih h⟩
        obtain rfl | hm := mem_insertAscending.1 hm
        · omega
        · exact hk m hm

theorem eq_of_mem_iff_of_ascending (hn : ns.Pairwise (· < ·)) (hm : ms.Pairwise (· < ·))
    (h : ∀ n, n ∈ ns ↔ n ∈ ms) : ns = ms := by
  induction ns generalizing ms with
  | nil => exact (List.eq_nil_iff_forall_not_mem.2 fun n hn => by simpa using (h n).2 hn).symm
  | cons n ns ih =>
    obtain ⟨hn, hns⟩ := List.pairwise_cons.1 hn
    cases ms with
    | nil => simpa using (h n).1 (.head _)
    | cons m ms =>
      obtain ⟨hm, hms⟩ := List.pairwise_cons.1 hm
      simp only [List.mem_cons] at h
      have e : n = m := by
        obtain e | hn' := (h n).1 (.inl rfl)
        · exact e
        · obtain e | hm' := (h m).2 (.inl rfl)
          · exact e.symm
          · exact absurd (Nat.lt_trans (hn m hm') (hm n hn')) (Nat.lt_irrefl n)
      subst e
      congr 1
      refine ih hns hms fun k => ?_
      have := h k
      have := hn k
      have := hm k
      grind

end AdaptiveParsing
