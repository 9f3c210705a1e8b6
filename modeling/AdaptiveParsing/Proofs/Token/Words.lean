import AdaptiveParsing.Token.Cursor
import Mathlib
/-!
The word that a cursor has before it. A cursor moves along one input (`TokenCursor.Along`), so that it is
back where it was once it has been sent there (`TokenCursor.speculate_eq`). What it has before it are the
visible tokens up to the end of input (`TokenCursor.word`) or the types of them (`TokenCursor.types`), and
what it has passed are the visible tokens between two indices (`TokenCursor.between`).
-/

namespace AdaptiveParsing

theorem nextVisible_nextVisible (tokens : Array Token) (channel i : Nat) :
    nextVisible tokens channel (nextVisible tokens channel i) = nextVisible tokens channel i := by
  induction i using nextVisible.induct tokens channel with
  | case1 i hlt hv =>
    have h : nextVisible tokens channel i = i := by
      rw [nextVisible, dif_pos hlt, if_pos hv]
    rw [h, h]
  | case2 i hlt hv ih =>
    have h : nextVisible tokens channel i = nextVisible tokens channel (i + 1) := by
      rw [nextVisible, dif_pos hlt, if_neg hv]
    rw [h, ih]
  | case3 i hlt =>
    have h : nextVisible tokens channel i = tokens.size - 1 := by
      rw [nextVisible, dif_neg hlt]
    rw [h, nextVisible, dif_neg (Nat.lt_irrefl _)]

/-- What is skipped is not visible. -/
theorem visibleOn_of_lt_nextVisible {tokens : Array Token} {channel i j : Nat} (hij : i ≤ j)
    (hj : j < nextVisible tokens channel i) : ∃ t, tokens[j]? = some t ∧
      t.visibleOn channel = false := by
  induction i using nextVisible.induct tokens channel with
  | case1 i hlt hv =>
    rw [nextVisible, dif_pos hlt, if_pos hv] at hj
    lia
  | case2 i hlt hv ih =>
    rw [nextVisible, dif_pos hlt, if_neg hv] at hj
    rcases Nat.eq_or_lt_of_le hij with rfl | hlt'
    · exact ⟨_, Array.getElem?_eq_getElem (by lia), by simpa using hv⟩
    · exact ih hlt' hj
  | case3 i hlt =>
    rw [nextVisible, dif_neg hlt] at hj
    lia

namespace TokenCursor

/-- Another place in the same input. -/
structure Along (s s' : TokenCursor) : Prop where
  tokens : s'.tokens = s.tokens
  channel : s'.channel = s.channel
  openMarks : s'.openMarks = s.openMarks

/-- The cursor is at a token that it does not skip. -/
def Stopped (s : TokenCursor) : Prop := nextVisible s.tokens s.channel s.position = s.position

variable {s s' s'' : TokenCursor}

theorem Along.refl (s : TokenCursor) : s.Along s := ⟨rfl, rfl, rfl⟩

theorem Along.trans (h : s.Along s') (h' : s'.Along s'') : s.Along s'' :=
  ⟨h'.tokens.trans h.tokens, h'.channel.trans h.channel, h'.openMarks.trans h.openMarks⟩

theorem along_moveTo (s : TokenCursor) (i : Nat) : s.Along (s.moveTo i) := ⟨rfl, rfl, rfl⟩

theorem along_consume (s : TokenCursor) : s.Along s.consume := by
  unfold consume
  split
  · exact .refl s
  · exact s.along_moveTo _

theorem eq_of_position (h : s.Along s') (hp : s'.position = s.position) : s' = s := by
  obtain ⟨h₁, h₂, h₃⟩ := h
  cases s
  cases s'
  simp_all

/-- Where a cursor is sent does not depend on where in the input it was. -/
theorem Along.seek (h : s.Along s') (i : Nat) : s'.seek i = s.seek i := by
  refine eq_of_position ⟨h.tokens, h.channel, h.openMarks⟩ ?_
  show nextVisible s'.tokens s'.channel i = nextVisible s.tokens s.channel i
  rw [h.tokens, h.channel]

theorem Stopped.seek (h : s.Stopped) : s.seek s.position = s :=
  eq_of_position (s.along_moveTo _) h

theorem stopped_moveTo (s : TokenCursor) (i : Nat) : (s.moveTo i).Stopped :=
  nextVisible_nextVisible s.tokens s.channel i

theorem Stopped.consume (h : s.Stopped) : s.consume.Stopped := by
  unfold TokenCursor.consume
  split
  · exact h
  · exact s.stopped_moveTo _

theorem stopped_ofTokens (tokens : Array Token) (channel : Nat) :
    (ofTokens tokens channel).Stopped := nextVisible_nextVisible _ _ _

/-- A speculation that stays in the input leaves the cursor where it was. -/
theorem speculate_eq {α : Type} (hs : s.Stopped) (body : TokenCursor → α × TokenCursor)
    (h : ∀ c : TokenCursor, c.Along (body c).2) : s.speculate body = ((body s.mark.2).1, s) := by
  have halong := h s.mark.2
  have hback : ((body s.mark.2).2.seek s.position).release = s := by
    rw [halong.seek]
    refine eq_of_position ⟨rfl, rfl, ?_⟩ hs
    exact Nat.add_sub_cancel s.openMarks 1
  unfold speculate
  dsimp only
  rw [hback]

/-- The types of the tokens from the current one to the end of input. -/
def types (s : TokenCursor) : List TokenType :=
  if _ : s.current.isEof then [s.kind] else s.kind :: s.consume.types
termination_by s.remaining
decreasing_by exact remaining_consume_lt (by simpa using ‹¬s.current.isEof = true›)

theorem isEof_current : s.current.isEof = true ↔ s.kind = TokenType.eof := TokenType.isEof_iff

theorem types_of_eof (h : s.kind = TokenType.eof) : s.types = [TokenType.eof] := by
  rw [types, dif_pos (isEof_current.2 h), h]

theorem types_of_not_eof (h : s.kind ≠ TokenType.eof) : s.types = s.kind :: s.consume.types := by
  rw [types, dif_neg fun he => h (isEof_current.1 he)]

theorem types_eq_cons (s : TokenCursor) : ∃ w, s.types = s.kind :: w := by
  by_cases h : s.kind = TokenType.eof
  · exact ⟨[], by rw [types_of_eof h, h]⟩
  · exact ⟨_, types_of_not_eof h⟩

/-- The tokens from the current one on, up to the end of input. -/
def word (s : TokenCursor) : List Token :=
  if _ : s.current.isEof then [] else s.current :: s.consume.word
termination_by s.remaining
decreasing_by exact remaining_consume_lt (by simpa using ‹¬s.current.isEof = true›)

theorem word_eq_nil (h : s.word = []) : s.kind = TokenType.eof := by
  rw [word] at h
  split at h
  · exact isEof_current.1 ‹_›
  · cases h

theorem word_eq_cons {t : Token} {w : List Token} (h : s.word = t :: w) :
    s.kind ≠ TokenType.eof ∧ s.current = t ∧ s.consume.word = w := by
  rw [word] at h
  split at h
  · cases h
  · rename_i heof
    exact ⟨fun hk => heof (isEof_current.2 hk), List.cons.inj h⟩

/-- At the end of input a cursor stays. -/
theorem consume_of_eof (h : s.kind = TokenType.eof) : s.consume = s := by
  unfold consume
  rw [if_pos (isEof_current.2 h)]

/-- Marks do not matter for what is before a cursor. -/
theorem types_mark (s : TokenCursor) : s.mark.2.types = s.types := by
  induction s using types.induct with
  | case1 s h =>
    rw [types_of_eof (isEof_current.1 h), types_of_eof (s := s.mark.2) (isEof_current.1 h)]
  | case2 s h ih =>
    have hne : s.kind ≠ TokenType.eof := fun he => h (isEof_current.2 he)
    have hconsume : s.mark.2.consume = s.consume.mark.2 := by
      unfold consume
      rw [if_neg h, if_neg (show ¬ s.mark.2.current.isEof = true from h)]
      rfl
    rw [types_of_not_eof hne, types_of_not_eof (s := s.mark.2) hne, hconsume, ih]
    rfl

/-- The visible tokens from index `first` on that are before index `last`, but for the end of input. -/
def between (s : TokenCursor) (first last : Nat) : List Token :=
  ((s.tokens.toList.take last).drop first).filter fun t => t.visibleOn s.channel && !t.isEof

theorem between_self (s : TokenCursor) (i : Nat) : s.between i i = [] := by
  unfold between
  rw [List.drop_eq_nil_of_le (List.length_take_le ..)]
  rfl

theorem between_trans (s : TokenCursor) {first mid last : Nat} (h : first ≤ mid) (h' : mid ≤ last) :
    s.between first last = s.between first mid ++ s.between mid last := by
  unfold between
  rw [← List.filter_append, List.drop_take, List.drop_take, List.drop_take]
  congr 1
  have hsplit : last - first = (mid - first) + (last - mid) := by lia
  rw [hsplit, List.take_add, List.drop_drop, Nat.add_sub_cancel' h]

/-- A cursor stops at visible tokens, since the end of input is visible. -/
theorem Stopped.visibleOn (h : s.Stopped) : s.current.visibleOn s.channel = true := by
  have hlt := s.position_lt
  by_cases hlast : s.position < s.tokens.size - 1
  · unfold Stopped at h
    rw [nextVisible, dif_pos hlast] at h
    split at h
    · assumption
    · have := @le_nextVisible s.tokens s.channel (s.position + 1) (by lia)
      lia
  · have heof := current_isEof_of_last (s := s) (by lia)
    simp [Token.visibleOn, heof]

/-- Consuming passes the current token and nothing else that is visible. -/
theorem Stopped.between_consume (h : s.Stopped) : s.between s.position s.consume.position =
    if s.current.isEof then [] else [s.current] := by
  unfold TokenCursor.consume
  split
  · exact s.between_self _
  · rename_i heof
    have hlt := s.position_lt
    have hlast : s.position + 1 < s.tokens.size := by
      by_contra hge
      exact heof (current_isEof_of_last (by lia))
    rw [position_moveTo]
    generalize hnext : nextVisible s.tokens s.channel (s.position + 1) = next
    have hle : s.position + 1 ≤ next := hnext ▸ le_nextVisible hlast
    rw [s.between_trans (Nat.le_succ _) hle]
    have hone : s.between s.position (s.position + 1) = [s.current] := by
      unfold between
      rw [List.drop_take, Nat.add_sub_cancel_left, List.drop_eq_getElem_cons (by simpa using hlt)]
      have hv := h.visibleOn
      simp_all [current]
    have hnone : s.between (s.position + 1) next = [] := by
      unfold between
      rw [List.filter_eq_nil_iff]
      intro t ht
      obtain ⟨j, hj, rfl⟩ := List.mem_iff_getElem.1 ht
      simp only [List.length_drop, List.length_take, Array.length_toList] at hj
      have hlt : s.position + 1 + j < nextVisible s.tokens s.channel (s.position + 1) := by lia
      obtain ⟨t, ht, hv⟩ := visibleOn_of_lt_nextVisible (Nat.le_add_right _ _) hlt
      obtain ⟨hb, rfl⟩ := Array.getElem?_eq_some_iff.1 ht
      simp [hv]
    rw [hone, hnone]
    rfl

/-- The last visible index is the one after which nothing is visible. -/
theorem lastVisible?_eq {tokens : Array Token} {channel first last : Nat} {t : Token}
    (ht : tokens[first]? = some t) (hv : t.visibleOn channel = true) (hle : first ≤ last)
    (hgap : ∀ j, first < j → j ≤ last → ∃ u, tokens[j]? = some u ∧ u.visibleOn channel = false) :
    lastVisible? tokens channel last = some first := by
  induction last with
  | zero =>
    obtain rfl : first = 0 := by omega
    simp [lastVisible?, ht, hv]
  | succ last ih =>
    unfold lastVisible?
    rcases Nat.eq_or_lt_of_le hle with rfl | hlt
    · simp [ht, hv]
    · obtain ⟨u, hu, hno⟩ := hgap (last + 1) hlt (Nat.le_refl _)
      simp only [hu, hno]
      apply ih (by omega)
      intro j hj hjl
      exact hgap j hj (by omega)

/-- What the cursor sees after the current token is what it comes to past it. -/
theorem peek_two (s : TokenCursor) : s.peek 2 = s.consume.kind := by
  have hpos : s.ahead s.position 1 = s.consume.position := by
    have hcur : s.tokens[s.position]? = some s.current := Array.getElem?_eq_getElem s.position_lt
    unfold ahead consume
    rw [hcur, Option.any_some]
    split <;> rfl
  have htok : s.consume.tokens = s.tokens := s.along_consume.tokens
  have hcur : s.tokens[s.consume.position]? = some s.consume.current := by
    have hlt := s.consume.position_lt
    rw [← htok]
    exact Array.getElem?_eq_getElem hlt
  show ((s.tokens[s.ahead s.position 1]?).map Token.kind).getD TokenType.invalid = _
  rw [hpos, hcur]
  rfl

/-- The token that was consumed is the one before the current one. -/
theorem Stopped.look?_consume_back (h : s.Stopped) (heof : s.current.isEof = false) :
    s.consume.look? (-1) = s.look? 1 := by
  have hlt := s.position_lt
  have hlast : s.position + 1 < s.tokens.size := by
    by_contra hge
    rw [current_isEof_of_last (by omega)] at heof
    cases heof
  have hcur : s.tokens[s.position]? = some s.current := Array.getElem?_eq_getElem hlt
  unfold TokenCursor.consume
  rw [if_neg (by simp [heof])]
  unfold look? behind?
  rw [position_moveTo]
  generalize hnext : nextVisible s.tokens s.channel (s.position + 1) = next
  have hle : s.position + 1 ≤ next := hnext ▸ le_nextVisible hlast
  obtain ⟨last, rfl⟩ : ∃ last, next = last + 1 := ⟨next - 1, by omega⟩
  have hback : lastVisible? s.tokens s.channel last = some s.position := by
    apply lastVisible?_eq hcur h.visibleOn (by omega)
    intro j hj hjl
    apply @visibleOn_of_lt_nextVisible s.tokens s.channel (s.position + 1) j (by omega)
    omega
  show ((lastVisible? s.tokens s.channel last).bind fun j => some j).bind
    (fun i => s.tokens[i]?) = s.tokens[s.position]?
  rw [hback]
  rfl

/-- Once the current token was consumed it is the one before the current one. -/
theorem Stopped.previousIndex_consume (h : s.Stopped) (heof : s.current.isEof = false) :
    s.consume.previousIndex = s.current.index := by
  have hcur : s.look? 1 = some s.current := Array.getElem?_eq_getElem s.position_lt
  unfold previousIndex
  rw [h.look?_consume_back heof, hcur]
  rfl

end TokenCursor

end AdaptiveParsing
