import AdaptiveParsing.Proofs.Token.Mirror
import AdaptiveParsing.Proofs.Token.Words
/-!
Inputs with the same visible tokens. A place of the one stands for the place of the other with as many
visible tokens before it (`SamePlace`), which relates the visible places one to one and in order
(`SamePlace.lt_iff`). A cursor cannot tell such inputs apart: looking ahead and behind, consuming and
seeking lead from places that stand for each other to places that do. Main statement:
`Mirror.faithful_visible`.
-/

namespace AdaptiveParsing

/-- The token without its number and the place it was read at. -/
def Token.unplaced (t : Token) : Token := { kind := t.kind, text := t.text, channel := t.channel }

/-- The tokens that a cursor on `channel` stops at, without their numbers and places. -/
def visibleTokens (channel : Nat) (tokens : Array Token) : List Token :=
  (tokens.toList.filter (·.visibleOn channel)).map Token.unplaced

/-- How many visible tokens there are before index `i`. -/
def rank (channel : Nat) (tokens : Array Token) (i : Nat) : Nat :=
  (tokens.toList.take i).countP (·.visibleOn channel)

/-- There is a visible token at index `i`. -/
def VisibleAt (channel : Nat) (tokens : Array Token) (i : Nat) : Prop :=
  ∃ t, tokens[i]? = some t ∧ t.visibleOn channel = true

section

variable {channel : Nat} {tokens : Array Token} {i j : Nat} {t : Token}

theorem rank_zero : rank channel tokens 0 = 0 := rfl

theorem rank_succ (h : tokens[i]? = some t) :
    rank channel tokens (i + 1) = rank channel tokens i + if t.visibleOn channel then 1 else 0 := by
  have hi : tokens.toList[i]? = some t := by simpa using h
  unfold rank
  rw [List.take_add_one, hi, List.countP_append]
  simp [List.countP_cons]

theorem rank_mono (h : i ≤ j) : rank channel tokens i ≤ rank channel tokens j :=
  List.Sublist.countP_le (List.take_sublist_take_left h)

theorem rank_lt (hi : VisibleAt channel tokens i) (h : i < j) :
    rank channel tokens i < rank channel tokens j := by
  obtain ⟨t, ht, hv⟩ := hi
  have hstep : rank channel tokens (i + 1) = _ := rank_succ ht
  rw [if_pos hv] at hstep
  have hle : rank channel tokens (i + 1) ≤ rank channel tokens j := rank_mono (Nat.succ_le_of_lt h)
  lia

/-- Hidden tokens do not count. -/
theorem rank_eq_of_hidden (h : i ≤ j)
    (hidden : ∀ k, i ≤ k → k < j → ∃ t, tokens[k]? = some t ∧ t.visibleOn channel = false) :
    rank channel tokens j = rank channel tokens i := by
  obtain ⟨n, rfl⟩ := Nat.exists_eq_add_of_le h
  induction n with
  | zero => rfl
  | succ n ih =>
    obtain ⟨t, ht, hv⟩ := hidden (i + n) (Nat.le_add_right i n) (Nat.lt_succ_self _)
    rw [← Nat.add_assoc, rank_succ ht, if_neg (by simp [hv]),
      ih (Nat.le_add_right i n) fun k hk hkj => hidden k hk (Nat.lt_succ_of_lt hkj)]
    rfl

theorem filter_countP_take {α : Type} {p : α → Bool} {l : List α} {i : Nat} {a : α}
    (h : l[i]? = some a) (hp : p a = true) : (l.filter p)[(l.take i).countP p]? = some a := by
  induction l generalizing i with
  | nil => cases h
  | cons b l ih =>
    cases i with
    | zero =>
      obtain rfl := Option.some.inj h
      simp [hp]
    | succ i =>
      have ih := ih (by simpa using h)
      cases hb : p b <;> simpa [List.countP_cons, List.filter_cons, hb] using ih

/-- The visible token at an index is the one with its rank. -/
theorem visibleTokens_rank (ht : tokens[i]? = some t) (hv : t.visibleOn channel = true) :
    (visibleTokens channel tokens)[rank channel tokens i]? = some t.unplaced := by
  have hi : tokens.toList[i]? = some t := by simpa using ht
  unfold visibleTokens rank
  rw [List.getElem?_map, filter_countP_take hi hv]
  rfl

theorem VisibleAt.lt (h : VisibleAt channel tokens i) : i < tokens.size := by
  obtain ⟨t, ht, -⟩ := h
  exact (Array.getElem?_eq_some_iff.1 ht).1

/-- The first visible index from a visible one on is that index. -/
theorem VisibleAt.nextVisible (h : VisibleAt channel tokens i) :
    nextVisible tokens channel i = i := by
  obtain ⟨t, ht, hv⟩ := h
  obtain ⟨hsize, rfl⟩ := Array.getElem?_eq_some_iff.1 ht
  rw [AdaptiveParsing.nextVisible]
  split
  · simp
  · lia

/-- Where the end of input is last, there is always a next visible index. -/
theorem visibleAt_nextVisible (hends : tokens.back?.any Token.isEof = true) (i : Nat) :
    VisibleAt channel tokens (nextVisible tokens channel i) := by
  induction i using nextVisible.induct tokens channel with
  | case1 i hlt hv =>
    rw [AdaptiveParsing.nextVisible, dif_pos hlt, if_pos hv]
    exact ⟨_, Array.getElem?_eq_getElem (by lia), hv⟩
  | case2 i hlt hv ih =>
    rw [AdaptiveParsing.nextVisible, dif_pos hlt, if_neg hv]
    exact ih
  | case3 i hlt =>
    rw [AdaptiveParsing.nextVisible, dif_neg hlt]
    cases hlast : tokens[tokens.size - 1]? with
    | none => simp [Array.back?, hlast] at hends
    | some t =>
      refine ⟨t, hlast, ?_⟩
      have heof : t.isEof = true := by simpa [Array.back?, hlast] using hends
      simp [Token.visibleOn, heof]

theorem rank_nextVisible (hi : i < tokens.size) :
    rank channel tokens (nextVisible tokens channel i) = rank channel tokens i :=
  rank_eq_of_hidden (le_nextVisible hi) fun _ hk hk' => visibleOn_of_lt_nextVisible hk hk'

/-- The last visible index before `i`. -/
def earlier? (tokens : Array Token) (channel : Nat) : Nat → Option Nat
  | 0 => none
  | i + 1 => lastVisible? tokens channel i

theorem TokenCursor.behind?_succ (c : TokenCursor) (i n : Nat) :
    c.behind? i (n + 1) = (earlier? c.tokens c.channel i).bind fun j => c.behind? j n := by
  cases i <;> rfl

/-- The last visible index before `i` has all other visible tokens there are before `i` before it. -/
theorem rank_earlier? (hi : i ≤ tokens.size) :
    match earlier? tokens channel i with
    | none => rank channel tokens i = 0
    | some j => VisibleAt channel tokens j ∧ rank channel tokens i = rank channel tokens j + 1 := by
  cases i with
  | zero => exact rank_zero
  | succ i =>
    show match lastVisible? tokens channel i with
      | none => rank channel tokens (i + 1) = 0
      | some j => VisibleAt channel tokens j ∧
          rank channel tokens (i + 1) = rank channel tokens j + 1
    have ht := Array.getElem?_eq_getElem hi
    induction i with
    | zero =>
      unfold lastVisible?
      rw [ht, rank_succ ht, rank_zero]
      cases hv : Token.visibleOn channel tokens[0] with
      | true => simpa [hv] using ⟨⟨_, ht, hv⟩, rank_zero⟩
      | false => simp [hv]
    | succ i ih =>
      have ih := ih (by lia) (Array.getElem?_eq_getElem (by lia))
      unfold lastVisible?
      rw [ht, rank_succ ht]
      dsimp only
      cases hv : Token.visibleOn channel tokens[i + 1] with
      | true => exact ⟨⟨_, ht, hv⟩, rfl⟩
      | false => simpa using ih

end

/-- Visible indices of two inputs with as many visible tokens before them. -/
structure SamePlace (channel : Nat) (tokens tokens' : Array Token) (i i' : Nat) : Prop where
  visible : VisibleAt channel tokens i
  visible' : VisibleAt channel tokens' i'
  rank : rank channel tokens i = rank channel tokens' i'

/-- Places that stand for each other are in the same order. -/
theorem SamePlace.lt_iff {channel : Nat} {tokens tokens' : Array Token} {i i' j j' : Nat}
    (hi : SamePlace channel tokens tokens' i i') (hj : SamePlace channel tokens tokens' j j') :
    i < j ↔ i' < j' := by
  constructor
  · intro h
    by_contra hge
    have hlt := rank_lt hi.visible h
    have hle := @rank_mono channel tokens' _ _ (Nat.le_of_not_lt hge)
    rw [← hi.rank, ← hj.rank] at hle
    lia
  · intro h
    by_contra hge
    have hlt := rank_lt hi.visible' h
    have hle := @rank_mono channel tokens _ _ (Nat.le_of_not_lt hge)
    rw [hi.rank, hj.rank] at hle
    lia

/-- Numbered inputs that end in the end of input, and show the same tokens as far as both go. -/
structure SameInput (channel : Nat) (tokens tokens' : Array Token) : Prop where
  numbered : ∀ (i : Nat) (t : Token), tokens[i]? = some t → t.index = some i
  numbered' : ∀ (i : Nat) (t : Token), tokens'[i]? = some t → t.index = some i
  ends : tokens.back?.any Token.isEof = true
  ends' : tokens'.back?.any Token.isEof = true
  agree : ∀ (k : Nat) (t t' : Token), (visibleTokens channel tokens)[k]? = some t →
    (visibleTokens channel tokens')[k]? = some t' → t = t'

/-- Cursors at places that stand for each other. -/
structure SameCursor (channel : Nat) (tokens tokens' : Array Token) (c c' : TokenCursor) : Prop where
  input : c.tokens = tokens
  input' : c'.tokens = tokens'
  reads : c.channel = channel
  reads' : c'.channel = channel
  place : SamePlace channel tokens tokens' c.position c'.position

/-- The same token but for its number, which stands for the other one's, and its place. -/
structure SameToken (R : Nat → Nat → Prop) (t t' : Token) : Prop where
  unplaced : t.unplaced = t'.unplaced
  index : Option.Rel R t.index t'.index

/-- Two inputs that differ in hidden tokens, and in how visible ones are placed. -/
def Mirror.visible (channel : Nat) (tokens tokens' : Array Token) : Mirror where
  index := SamePlace channel tokens tokens'
  token := SameToken (SamePlace channel tokens tokens')
  cursor := SameCursor channel tokens tokens'

/-- Numbered tokens have their place as index. -/
theorem numbered_number (tokens : Array Token) (i : Nat) (t : Token)
    (h : (TokenCursor.number tokens)[i]? = some t) : t.index = some i := by
  simp only [TokenCursor.number, Array.getElem?_mapIdx, Option.map_eq_some_iff] at h
  obtain ⟨t, -, rfl⟩ := h
  rfl

namespace SameInput

variable {channel : Nat} {tokens tokens' : Array Token} {i i' : Nat}

theorem token (h : SameInput channel tokens tokens') (hi : SamePlace channel tokens tokens' i i') :
    Option.Rel (SameToken (SamePlace channel tokens tokens')) tokens[i]? tokens'[i']? := by
  obtain ⟨t, ht, hv⟩ := hi.visible
  obtain ⟨t', ht', hv'⟩ := hi.visible'
  rw [ht, ht']
  refine .some ⟨h.agree _ _ _ (visibleTokens_rank ht hv) ?_, ?_⟩
  · rw [hi.rank]
    exact visibleTokens_rank ht' hv'
  · rw [h.numbered i t ht, h.numbered' i' t' ht']
    exact .some hi

theorem first (h : SameInput channel tokens tokens') : SamePlace channel tokens tokens'
    (nextVisible tokens channel 0) (nextVisible tokens' channel 0) where
  visible := visibleAt_nextVisible h.ends 0
  visible' := visibleAt_nextVisible h.ends' 0
  rank := by
    rw [rank_nextVisible (TokenCursor.size_pos_of_back? h.ends),
      rank_nextVisible (TokenCursor.size_pos_of_back? h.ends'), rank_zero, rank_zero]

/-- Anything but an end of input has another token after it. -/
theorem succ_lt (hends : tokens.back?.any Token.isEof = true) {t : Token} (ht : tokens[i]? = some t)
    (heof : t.isEof = false) : i + 1 < tokens.size := by
  obtain ⟨hlt, rfl⟩ := Array.getElem?_eq_some_iff.1 ht
  by_contra hge
  have hlast : i = tokens.size - 1 := by lia
  subst hlast
  rw [Array.back?, ht] at hends
  simp [heof] at hends

theorem isEof_eq {R : Nat → Nat → Prop} {t t' : Token} (h : SameToken R t t') :
    t.isEof = t'.isEof :=
  (congrArg (fun t : Token => t.kind.isEof) h.unplaced :)

/-- The next visible indices stand for each other, but for those after an end of input. -/
theorem next (h : SameInput channel tokens tokens') (hi : SamePlace channel tokens tokens' i i')
    (heof : tokens[i]?.any Token.isEof = false) : SamePlace channel tokens tokens'
      (nextVisible tokens channel (i + 1)) (nextVisible tokens' channel (i' + 1)) := by
  obtain ⟨t, ht, hv⟩ := hi.visible
  obtain ⟨t', ht', hv'⟩ := hi.visible'
  have hsame := h.token hi
  rw [ht, ht', Option.rel_some_some] at hsame
  have heof : t.isEof = false := by simpa [ht] using heof
  refine ⟨visibleAt_nextVisible h.ends _, visibleAt_nextVisible h.ends' _, ?_⟩
  rw [rank_nextVisible (succ_lt h.ends ht heof),
    rank_nextVisible (succ_lt h.ends' ht' (isEof_eq hsame ▸ heof)), rank_succ ht, rank_succ ht',
    if_pos hv, if_pos hv', hi.rank]

variable {c c' : TokenCursor}

theorem ahead (h : SameInput channel tokens tokens') (hc : SameCursor channel tokens tokens' c c')
    (n : Nat) (hi : SamePlace channel tokens tokens' i i') :
    SamePlace channel tokens tokens' (c.ahead i n) (c'.ahead i' n) := by
  induction n generalizing i i' with
  | zero => exact hi
  | succ n ih =>
    have hsame := h.token hi
    have heof : tokens[i]?.any Token.isEof = tokens'[i']?.any Token.isEof := by
      generalize tokens[i]? = x at hsame ⊢
      generalize tokens'[i']? = y at hsame ⊢
      cases hsame with
      | none => rfl
      | some hsame => exact isEof_eq hsame
    unfold TokenCursor.ahead
    rw [hc.input, hc.input', hc.reads, hc.reads', ← heof]
    split
    · exact hi
    · exact ih (h.next hi (eq_false_of_ne_true ‹_›))

/-- The last visible indices before places that stand for each other do so too. -/
theorem earlier? (hi : SamePlace channel tokens tokens' i i') :
    Option.Rel (SamePlace channel tokens tokens') (earlier? tokens channel i)
      (AdaptiveParsing.earlier? tokens' channel i') := by
  have hbefore := @rank_earlier? channel tokens i (Nat.le_of_lt hi.visible.lt)
  have hbefore' := @rank_earlier? channel tokens' i' (Nat.le_of_lt hi.visible'.lt)
  have hrank := hi.rank
  generalize AdaptiveParsing.earlier? tokens channel i = x at hbefore ⊢
  generalize AdaptiveParsing.earlier? tokens' channel i' = y at hbefore' ⊢
  cases x with
  | none =>
    cases y with
    | none => exact .none
    | some j' => simp_all
  | some j =>
    cases y with
    | none => simp_all
    | some j' =>
      refine .some ⟨hbefore.1, hbefore'.1, ?_⟩
      have := hbefore.2
      have := hbefore'.2
      lia

theorem behind? (hc : SameCursor channel tokens tokens' c c') (n : Nat)
    (hi : SamePlace channel tokens tokens' i i') :
    Option.Rel (SamePlace channel tokens tokens') (c.behind? i n) (c'.behind? i' n) := by
  induction n generalizing i i' with
  | zero =>
    rw [TokenCursor.behind?, TokenCursor.behind?]
    exact .some hi
  | succ n ih =>
    rw [c.behind?_succ, c'.behind?_succ, hc.input, hc.input', hc.reads, hc.reads']
    exact option_rel_bind (earlier? hi) fun _ _ hj => ih hj

/-- A cursor sent to a visible index is there. -/
theorem moveTo (hc : SameCursor channel tokens tokens' c c')
    (hi : SamePlace channel tokens tokens' (nextVisible tokens channel i)
      (nextVisible tokens' channel i')) :
    SameCursor channel tokens tokens' (c.moveTo i) (c'.moveTo i') where
  input := hc.input
  input' := hc.input'
  reads := hc.reads
  reads' := hc.reads'
  place := by
    rw [TokenCursor.position_moveTo, TokenCursor.position_moveTo, hc.input, hc.input', hc.reads,
      hc.reads']
    exact hi

theorem current (h : SameInput channel tokens tokens')
    (hc : SameCursor channel tokens tokens' c c') :
    SameToken (SamePlace channel tokens tokens') c.current c'.current := by
  have hsame := h.token hc.place
  have hget : ∀ (c : TokenCursor), c.tokens[c.position]? = some c.current :=
    fun c => Array.getElem?_eq_getElem c.position_lt
  rw [← hc.input, ← hc.input', hget, hget, Option.rel_some_some, hc.input, hc.input'] at hsame
  exact hsame

theorem consume (h : SameInput channel tokens tokens')
    (hc : SameCursor channel tokens tokens' c c') :
    SameCursor channel tokens tokens' c.consume c'.consume := by
  have heof := isEof_eq (h.current hc)
  unfold TokenCursor.consume
  rw [← heof]
  split
  · exact hc
  · refine moveTo hc (h.next hc.place ?_)
    rw [← hc.input, Array.getElem?_eq_getElem c.position_lt]
    exact eq_false_of_ne_true ‹_›

theorem visibleTokens_number (tokens : Array Token) :
    visibleTokens channel (TokenCursor.number tokens) = visibleTokens channel tokens := by
  have hcopy : ∀ (l : List Token) (f : Nat → Nat),
      ((l.mapIdx fun i t => { t with index := some (f i) }).filter (·.visibleOn channel)).map
        Token.unplaced = (l.filter (·.visibleOn channel)).map Token.unplaced := by
    intro l
    induction l with
    | nil => exact fun _ => rfl
    | cons t l ih =>
      intro f
      have ih := ih fun i => f (i + 1)
      have hv : Token.visibleOn channel { t with index := some (f 0) } = t.visibleOn channel := rfl
      cases h : t.visibleOn channel <;> simp_all [List.mapIdx_cons, Token.unplaced]
  unfold visibleTokens TokenCursor.number
  rw [Array.toList_mapIdx]
  exact hcopy tokens.toList id

/-- Closing an input adds an end of input or nothing. -/
theorem visibleTokens_close (tokens : Array Token) :
    visibleTokens channel (TokenCursor.close tokens) = visibleTokens channel tokens ∨
      visibleTokens channel (TokenCursor.close tokens) =
        visibleTokens channel tokens ++ [Token.endOfInput] := by
  unfold TokenCursor.close
  split
  · exact .inl rfl
  · refine .inr ?_
    have hlast : (TokenCursor.closing tokens).unplaced = Token.endOfInput := by
      unfold TokenCursor.closing
      split <;> rfl
    have hv : (TokenCursor.closing tokens).visibleOn channel = true := by
      simp [Token.visibleOn, TokenCursor.closing_isEof]
    simp [visibleTokens, hv, hlast]

/-- Tokens with the same visible ones make the same input. -/
theorem ofTokens (h : visibleTokens channel tokens = visibleTokens channel tokens') :
    SameInput channel (TokenCursor.ofTokens tokens channel).tokens
      (TokenCursor.ofTokens tokens' channel).tokens where
  numbered := numbered_number (TokenCursor.close tokens)
  numbered' := numbered_number (TokenCursor.close tokens')
  ends := (TokenCursor.ofTokens tokens channel).ends
  ends' := (TokenCursor.ofTokens tokens' channel).ends
  agree k t t' ht ht' := by
    have hnumber : ∀ tokens : Array Token,
        visibleTokens channel (TokenCursor.ofTokens tokens channel).tokens =
          visibleTokens channel (TokenCursor.close tokens) := fun _ => visibleTokens_number _
    rw [hnumber] at ht ht'
    have hall : (visibleTokens channel tokens ++ [Token.endOfInput])[k]? = some t := by
      rcases @visibleTokens_close channel tokens with heq | heq <;> grind
    have hall' : (visibleTokens channel tokens ++ [Token.endOfInput])[k]? = some t' := by
      rcases @visibleTokens_close channel tokens' with heq | heq <;> grind
    exact Option.some.inj (hall.symm.trans hall')

/-- Both inputs are read from places that stand for each other. -/
theorem sameCursor_ofTokens (h : visibleTokens channel tokens = visibleTokens channel tokens') :
    SameCursor channel (TokenCursor.ofTokens tokens channel).tokens
      (TokenCursor.ofTokens tokens' channel).tokens (.ofTokens tokens channel)
      (.ofTokens tokens' channel) :=
  ⟨rfl, rfl, rfl, rfl, (ofTokens h).first⟩

end SameInput

/-- A cursor cannot tell apart inputs with the same visible tokens. -/
theorem Mirror.faithful_visible {channel : Nat} {tokens tokens' : Array Token}
    (h : SameInput channel tokens tokens') : (Mirror.visible channel tokens tokens').Faithful where
  index_eq_iff hi hj := by
    have hlt := hi.lt_iff hj
    have hgt := hj.lt_iff hi
    constructor <;> intro heq <;> lia
  kind ht := (congrArg Token.kind ht.unplaced :)
  text ht := (congrArg Token.text ht.unplaced :)
  number ht := ht.index
  conjure ht k s := ⟨rfl, .none⟩
  endOfInput := ⟨rfl, .none⟩
  position hc := hc.place
  current hc := h.current hc
  look? hc k := by
    cases k with
    | ofNat n =>
      cases n with
      | zero => exact .none
      | succ n =>
        simp only [TokenCursor.look?, hc.input, hc.input']
        exact h.token (h.ahead hc n hc.place)
    | negSucc n =>
      refine option_rel_bind (SameInput.behind? hc (n + 1) hc.place) fun _ _ hj => ?_
      rw [hc.input, hc.input']
      exact h.token hj
  get? hc i i' hi := by
    unfold TokenCursor.get?
    rw [hc.input, hc.input']
    exact h.token hi
  consume hc := h.consume hc
  seek hc i i' hi := by
    refine SameInput.moveTo hc ?_
    rw [hi.visible.nextVisible, hi.visible'.nextVisible]
    exact hi
  mark hc := ⟨hc.input, hc.input', hc.reads, hc.reads', hc.place⟩
  release hc := ⟨hc.input, hc.input', hc.reads, hc.reads', hc.place⟩

end AdaptiveParsing
