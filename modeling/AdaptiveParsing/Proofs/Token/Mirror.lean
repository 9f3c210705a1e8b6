import AdaptiveParsing.Token.Cursor
/-!
Two inputs that look the same through a cursor. A mirror says which indices, tokens and cursors of them
stand for each other (`Mirror`). It is faithful if whatever a cursor can do or show leads from those that
stand for each other to those that do (`Mirror.Faithful`); how tokens are numbered is left open.
-/

namespace AdaptiveParsing

/-- Related options lead to related options. -/
theorem option_rel_bind {α β γ δ : Type} {R : α → β → Prop} {S : γ → δ → Prop} {x : Option α}
    {y : Option β} {f : α → Option γ} {g : β → Option δ} (h : Option.Rel R x y)
    (hfg : ∀ a b, R a b → Option.Rel S (f a) (g b)) : Option.Rel S (x.bind f) (y.bind g) := by
  cases h with
  | none => exact .none
  | some h => exact hfg _ _ h

theorem option_rel_refl {α : Type} {R : α → α → Prop} (h : ∀ a, R a a) (x : Option α) :
    Option.Rel R x x := by
  cases x with
  | none => exact .none
  | some a => exact .some (h a)

/-- Which indices, tokens and cursors of two inputs stand for each other. -/
structure Mirror where
  index : Nat → Nat → Prop
  token : Token → Token → Prop
  cursor : TokenCursor → TokenCursor → Prop

/-- All that a parser learns of an input comes out the same, or stands for each other. -/
structure Mirror.Faithful (m : Mirror) : Prop where
  index_eq_iff : ∀ {i i' j j' : Nat}, m.index i i' → m.index j j' → (i = j ↔ i' = j')
  kind : ∀ {t t' : Token}, m.token t t' → t.kind = t'.kind
  text : ∀ {t t' : Token}, m.token t t' → t.text = t'.text
  number : ∀ {t t' : Token}, m.token t t' → Option.Rel m.index t.index t'.index
  conjure : ∀ {t t' : Token}, m.token t t' → ∀ (k : TokenType) (s : String),
    m.token (.conjure k s t) (.conjure k s t')
  endOfInput : m.token .endOfInput .endOfInput
  position : ∀ {c c' : TokenCursor}, m.cursor c c' → m.index c.position c'.position
  current : ∀ {c c' : TokenCursor}, m.cursor c c' → m.token c.current c'.current
  look? : ∀ {c c' : TokenCursor}, m.cursor c c' → ∀ k : Int,
    Option.Rel m.token (c.look? k) (c'.look? k)
  get? : ∀ {c c' : TokenCursor}, m.cursor c c' → ∀ {i i' : Nat}, m.index i i' →
    Option.Rel m.token (c.get? i) (c'.get? i')
  consume : ∀ {c c' : TokenCursor}, m.cursor c c' → m.cursor c.consume c'.consume
  seek : ∀ {c c' : TokenCursor}, m.cursor c c' → ∀ {i i' : Nat}, m.index i i' →
    m.cursor (c.seek i) (c'.seek i')
  mark : ∀ {c c' : TokenCursor}, m.cursor c c' → m.cursor c.mark.2 c'.mark.2
  release : ∀ {c c' : TokenCursor}, m.cursor c c' → m.cursor c.release c'.release

namespace Mirror

/-- Nothing stands for anything but itself. -/
def same : Mirror where
  index := Eq
  token := Eq
  cursor := Eq

theorem faithful_same : same.Faithful where
  index_eq_iff := by
    rintro i _ j _ rfl rfl
    exact Iff.rfl
  kind h := congrArg _ h
  text h := congrArg _ h
  number h := by
    cases h
    exact option_rel_refl (fun _ => rfl) _
  conjure h k s := congrArg _ h
  endOfInput := rfl
  position h := congrArg _ h
  current h := congrArg _ h
  look? h k := by
    cases h
    exact option_rel_refl (fun _ => rfl) _
  get? h i i' hi := by
    cases h
    cases hi
    exact option_rel_refl (fun _ => rfl) _
  consume h := congrArg _ h
  seek h i i' hi := by
    cases h
    cases hi
    rfl
  mark h := congrArg (fun c : TokenCursor => c.mark.2) h
  release h := congrArg _ h

namespace Faithful

variable {m : Mirror} {c c' : TokenCursor} {t t' : Token}

theorem isEof (hm : m.Faithful) (h : m.token t t') : t.isEof = t'.isEof :=
  congrArg TokenType.isEof (hm.kind h)

theorem kind_cursor (hm : m.Faithful) (h : m.cursor c c') : c.kind = c'.kind := hm.kind (hm.current h)

theorem isConjured (hm : m.Faithful) (h : m.token t t') : t.isConjured = t'.isConjured := by
  have hi := hm.number h
  unfold Token.isConjured
  generalize t.index = x at hi ⊢
  generalize t'.index = y at hi ⊢
  cases hi <;> rfl

theorem errorDisplay (hm : m.Faithful) (h : m.token t t') (names : Vocabulary) :
    t.errorDisplay names = t'.errorDisplay names := by
  simp only [Token.errorDisplay, hm.text h, hm.isEof h, hm.kind h]

theorem peek (hm : m.Faithful) (h : m.cursor c c') (k : Int) : c.peek k = c'.peek k := by
  have hl := hm.look? h k
  unfold TokenCursor.peek
  generalize c.look? k = x at hl ⊢
  generalize c'.look? k = y at hl ⊢
  cases hl with
  | none => rfl
  | some ht => exact hm.kind ht

theorem previousIndex (hm : m.Faithful) (h : m.cursor c c') :
    Option.Rel m.index c.previousIndex c'.previousIndex := by
  have hl := hm.look? h (-1)
  unfold TokenCursor.previousIndex
  generalize c.look? (-1) = x at hl ⊢
  generalize c'.look? (-1) = y at hl ⊢
  cases hl with
  | none => exact .none
  | some ht => exact hm.number ht

/-- Speculation from where cursors stand for each other ends where they do. -/
theorem speculate {α β : Type} {R : α → β → Prop} (hm : m.Faithful) (h : m.cursor c c')
    (body : TokenCursor → α × TokenCursor) (body' : TokenCursor → β × TokenCursor)
    (hb : ∀ s s', m.cursor s s' → R (body s).1 (body' s').1 ∧ m.cursor (body s).2 (body' s').2) :
    R (c.speculate body).1 (c'.speculate body').1 ∧
      m.cursor (c.speculate body).2 (c'.speculate body').2 := by
  obtain ⟨hr, hc⟩ := hb _ _ (hm.mark h)
  exact ⟨hr, hm.release (hm.seek hc (hm.position h))⟩

end Faithful

end Mirror

end AdaptiveParsing
