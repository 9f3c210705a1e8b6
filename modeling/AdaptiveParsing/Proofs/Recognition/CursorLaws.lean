import AdaptiveParsing.Proofs.Recognition.Yield
import AdaptiveParsing.Proofs.Token.Hidden
/-!
What can be relied on of a cursor, whatever was asked of it before. Looking ahead is looking into the
list of visible tokens from an index on (`visibleFrom`, `TokenCursor.getElem?_ahead`); consuming drops
the first of them, and what was current is then the token before. A rewind gives back the place, and
the marks but for those that its body left open. Main statement: `TokenCursor.lawful_performAll`.
-/

namespace AdaptiveParsing

/-- The visible tokens from index `i` on. -/
def visibleFrom (tokens : Array Token) (channel i : Nat) : List Token :=
  (tokens.toList.drop i).filter (·.visibleOn channel)

section

variable {tokens : Array Token} {channel i : Nat}

/-- Moving to the next visible token passes none. -/
theorem visibleFrom_nextVisible (h : i < tokens.size) :
    visibleFrom tokens channel (nextVisible tokens channel i) = visibleFrom tokens channel i := by
  induction i using nextVisible.induct tokens channel with
  | case1 i hlt hv => rw [nextVisible, dif_pos hlt, if_pos hv]
  | case2 i hlt hv ih =>
    have hdrop : tokens.toList.drop i = tokens[i] :: tokens.toList.drop (i + 1) :=
      List.drop_eq_getElem_cons h
    rw [nextVisible, dif_pos hlt, if_neg hv, ih (by lia), visibleFrom, visibleFrom, hdrop,
      List.filter_cons_of_neg hv]
  | case3 i hlt =>
    rw [nextVisible, dif_neg hlt, show tokens.size - 1 = i by lia]

theorem visibleFrom_of_visible {t : Token} (ht : tokens[i]? = some t)
    (hv : t.visibleOn channel = true) :
    visibleFrom tokens channel i = t :: visibleFrom tokens channel (i + 1) := by
  obtain ⟨hlt, rfl⟩ := Array.getElem?_eq_some_iff.1 ht
  unfold visibleFrom
  rw [List.drop_eq_getElem_cons (by simpa using hlt), Array.getElem_toList,
    List.filter_cons_of_pos hv]

/-- The next visible index is the least one, as long as there is one. -/
theorem isLeast_nextVisible (hends : tokens.back?.any Token.isEof = true) (h : i < tokens.size) :
    IsLeast {j | i ≤ j ∧ VisibleAt channel tokens j} (nextVisible tokens channel i) := by
  refine ⟨⟨le_nextVisible h, visibleAt_nextVisible hends i⟩, ?_⟩
  rintro j ⟨hij, u, hu, hv⟩
  by_contra hlt
  obtain ⟨t, ht, hno⟩ := visibleOn_of_lt_nextVisible hij (Nat.lt_of_not_le hlt)
  obtain rfl : u = t := Option.some.inj (hu.symm.trans ht)
  rw [hv] at hno
  cases hno

end

namespace TokenCursor

variable {s : TokenCursor}

theorem ahead_moveTo (s : TokenCursor) (j i n : Nat) : (s.moveTo j).ahead i n = s.ahead i n := by
  induction n generalizing i with
  | zero => rfl
  | succ n ih =>
    unfold ahead
    rw [ih]
    rfl

theorem visibleAt_ahead {i : Nat} (h : VisibleAt s.channel s.tokens i) (n : Nat) :
    VisibleAt s.channel s.tokens (s.ahead i n) := by
  induction n generalizing i with
  | zero => exact h
  | succ n ih =>
    unfold ahead
    split
    · exact h
    · exact ih (visibleAt_nextVisible s.ends _)

/-- What is `n` tokens ahead is the visible token that many places on, or the end of input before. -/
theorem getElem?_ahead {i : Nat} (h : VisibleAt s.channel s.tokens i) (n : Nat) :
    s.tokens[s.ahead i n]? = (visibleFrom s.tokens s.channel i)[
      min n ((visibleFrom s.tokens s.channel i).findIdx Token.isEof)]? := by
  induction n generalizing i with
  | zero =>
    obtain ⟨t, ht, hv⟩ := h
    rw [visibleFrom_of_visible ht hv, Nat.zero_min, List.getElem?_cons_zero]
    exact ht
  | succ n ih =>
    obtain ⟨t, ht, hv⟩ := h
    rw [visibleFrom_of_visible ht hv, ahead, ht, Option.any_some, List.findIdx_cons]
    cases heof : t.isEof with
    | true => simpa using ht
    | false =>
      have hnext := ih (@visibleAt_nextVisible s.channel _ s.ends (i + 1))
      rw [visibleFrom_nextVisible (SameInput.succ_lt s.ends ht heof)] at hnext
      simpa [Nat.succ_min_succ] using hnext

theorem Stopped.visibleAt (h : s.Stopped) : VisibleAt s.channel s.tokens s.position :=
  ⟨s.current, Array.getElem?_eq_getElem s.position_lt, h.visibleOn⟩

/-- Past the current token a cursor sees what it saw one place further on. -/
theorem look?_consume (h : s.current.isEof = false) (n : Nat) :
    s.consume.look? (Int.ofNat (n + 1)) = s.look? (Int.ofNat (n + 2)) := by
  have hcur : s.tokens[s.position]? = some s.current := Array.getElem?_eq_getElem s.position_lt
  have hstep : s.ahead s.position (n + 1) = s.consume.ahead s.consume.position n := by
    unfold consume
    rw [if_neg (by simp [h]), ahead_moveTo, position_moveTo, ahead, hcur, Option.any_some,
      if_neg (by simp [h])]
  show s.consume.tokens[s.consume.ahead s.consume.position n]? =
    s.tokens[s.ahead s.position (n + 1)]?
  rw [hstep, s.along_consume.tokens]

/-- What may be asked of a cursor. -/
inductive Call where
  | consume
  | seek (index : Nat)
  | mark
  | release
  /-- The token at an offset is looked at. -/
  | look (offset : Int)

/-- Where the cursor is once it was asked; looking does not move it. -/
def perform (s : TokenCursor) : Call → TokenCursor
  | .consume => s.consume
  | .seek i => s.seek i
  | .mark => s.mark.2
  | .release => s.release
  | .look _ => s

/-- Where the cursor is after the calls, the first of the list first. -/
def performAll (s : TokenCursor) (calls : List Call) : TokenCursor := calls.foldl perform s

/-- How many marks a call leaves open. -/
def Call.opens : Call → Int
  | .mark => 1
  | .release => -1
  | _ => 0

/-- How many marks the calls leave open: those that they set and do not release. -/
def leftOpen (calls : List Call) : Int := (calls.map Call.opens).sum

/-- No mark is released while none is open. -/
def Disciplined (s : TokenCursor) : List Call → Prop
  | [] => True
  | call :: calls => (call = .release → 0 < s.openMarks) ∧ (s.perform call).Disciplined calls

theorem Stopped.perform (h : s.Stopped) (call : Call) : (s.perform call).Stopped := by
  cases call with
  | consume => exact h.consume
  | seek i => exact s.stopped_moveTo i
  | mark => exact h
  | release => exact h
  | look k => exact h

/-- A call stays in the input. -/
theorem perform_input (s : TokenCursor) (call : Call) :
    (s.perform call).tokens = s.tokens ∧ (s.perform call).channel = s.channel := by
  cases call with
  | consume => exact ⟨s.along_consume.tokens, s.along_consume.channel⟩
  | _ => exact ⟨rfl, rfl⟩

theorem Stopped.performAll (h : s.Stopped) (calls : List Call) : (s.performAll calls).Stopped := by
  induction calls generalizing s with
  | nil => exact h
  | cons call calls ih => exact ih (h.perform call)

theorem performAll_input (s : TokenCursor) (calls : List Call) :
    (s.performAll calls).tokens = s.tokens ∧ (s.performAll calls).channel = s.channel := by
  induction calls generalizing s with
  | nil => exact ⟨rfl, rfl⟩
  | cons call calls ih =>
    obtain ⟨htokens, hchannel⟩ := s.perform_input call
    obtain ⟨htokens', hchannel'⟩ := ih (s.perform call)
    exact ⟨htokens'.trans htokens, hchannel'.trans hchannel⟩

/-- Calls leave open what was open, and what they set more than they release. -/
theorem openMarks_performAll {calls : List Call} (h : s.Disciplined calls) :
    ((s.performAll calls).openMarks : Int) = s.openMarks + leftOpen calls := by
  induction calls generalizing s with
  | nil => exact (Int.add_zero _).symm
  | cons call calls ih =>
    obtain ⟨hopen, hrest⟩ := h
    have hcall : ((s.perform call).openMarks : Int) = s.openMarks + call.opens := by
      cases call with
      | consume => exact (congrArg Nat.cast s.along_consume.openMarks).trans (Int.add_zero _).symm
      | release => exact Int.natCast_pred_of_pos (hopen rfl)
      | _ => exact (Int.add_zero _).symm
    calc ((s.performAll (call :: calls)).openMarks : Int)
        = (s.perform call).openMarks + leftOpen calls := ih hrest
      _ = s.openMarks + (call.opens + leftOpen calls) := by rw [hcall, Int.add_assoc]

/-- A rewind leaves the cursor as it was, with the marks that its body left open. -/
theorem Stopped.speculate_snd {α : Type} (h : s.Stopped) {body : TokenCursor → α × TokenCursor}
    {calls : List Call} (hbody : (body s.mark.2).2 = s.mark.2.performAll calls) :
    (s.speculate body).2 = { s with openMarks := (s.mark.2.performAll calls).openMarks - 1 } := by
  obtain ⟨htokens, hchannel⟩ := s.mark.2.performAll_input calls
  unfold speculate
  dsimp only
  rw [hbody]
  refine eq_of_position ⟨htokens, hchannel, rfl⟩ ?_
  show nextVisible (s.mark.2.performAll calls).tokens (s.mark.2.performAll calls).channel s.position
    = s.position
  rw [htokens, hchannel]
  exact h

/-- What can be relied on of a cursor. -/
structure Lawful (s : TokenCursor) : Prop where
  visible : VisibleAt s.channel s.tokens s.position
  /-- Looking ahead counts visible tokens and stays at the first end of input that it meets. -/
  look : ∀ n : Nat, let ahead := visibleFrom s.tokens s.channel s.position
    ∃ t, s.look? (Int.ofNat (n + 1)) = some t ∧ ahead[min n (ahead.findIdx Token.isEof)]? = some t
  consume : s.current.isEof = false →
    (∀ n : Nat, s.consume.look? (Int.ofNat (n + 1)) = s.look? (Int.ofNat (n + 2))) ∧
      s.consume.look? (-1) = s.look? 1
  seek : ∀ i, (i < s.tokens.size →
      IsLeast {j | i ≤ j ∧ VisibleAt s.channel s.tokens j} (s.seek i).position) ∧
    (s.tokens.size ≤ i → (s.seek i).position = s.tokens.size - 1) ∧ s.Along (s.seek i)
  seek_position : s.seek s.position = s
  /-- The marks open after a rewind are those found and those that its body left open. -/
  rewind : ∀ {α : Type} (body : TokenCursor → α × TokenCursor) (calls : List Call),
    (body s.mark.2).2 = s.mark.2.performAll calls →
      (s.speculate body).2 =
        { s with openMarks := (s.mark.2.performAll calls).openMarks - 1 } ∧
      (s.mark.2.Disciplined (calls ++ [.release]) →
        ((s.speculate body).2.openMarks : Int) = s.openMarks + leftOpen calls)
  predict : ∀ (env : Setting) (r : Recognizer) (d : DecisionId), r.input = s →
    (r.predict env d).2.input = s

theorem Stopped.lawful (h : s.Stopped) : s.Lawful where
  visible := h.visibleAt
  look n := by
    obtain ⟨t, ht, -⟩ := visibleAt_ahead h.visibleAt n
    exact ⟨t, ht, (getElem?_ahead h.visibleAt n).symm.trans ht⟩
  consume heof := ⟨look?_consume heof, h.look?_consume_back heof⟩
  seek i := by
    refine ⟨fun hi => isLeast_nextVisible s.ends hi, fun hi => ?_, s.along_moveTo i⟩
    show nextVisible s.tokens s.channel i = _
    rw [nextVisible, dif_neg (by lia)]
  seek_position := h.seek
  rewind body calls hbody := by
    have hback := h.speculate_snd hbody
    refine ⟨hback, fun hopen => ?_⟩
    have hmarks := openMarks_performAll hopen
    have hlast : s.mark.2.performAll (calls ++ [.release]) = (s.mark.2.performAll calls).release :=
      List.foldl_append
    have hleft : leftOpen (calls ++ [.release]) = leftOpen calls - 1 := by
      simp [leftOpen, Call.opens, Int.sub_eq_add_neg]
    rw [hlast, hleft] at hmarks
    calc ((s.speculate body).2.openMarks : Int)
        = (s.mark.2.performAll calls).release.openMarks := by rw [hback]; rfl
      _ = (s.openMarks + 1 : Nat) + (leftOpen calls - 1) := hmarks
      _ = s.openMarks + leftOpen calls := by lia
  predict env r d hr := by
    rw [r.input_predict (hr ▸ h) d, hr]

/-- Whatever was asked of a cursor, the laws hold. -/
theorem lawful_performAll (tokens : Array Token) (channel : Nat) (calls : List Call) :
    let s := (ofTokens tokens channel).performAll calls
    s.tokens = number (close tokens) ∧ s.channel = channel ∧ s.Lawful := by
  intro s
  have hstop : s.Stopped := (stopped_ofTokens tokens channel).performAll calls
  obtain ⟨htokens, hchannel⟩ := (ofTokens tokens channel).performAll_input calls
  exact ⟨htokens, hchannel, hstop.lawful⟩

end TokenCursor

end AdaptiveParsing
