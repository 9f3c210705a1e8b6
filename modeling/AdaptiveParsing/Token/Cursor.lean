import AdaptiveParsing.Token.Basic
/-!
A place in a token sequence. Tokens off the cursor's channel are hidden from it, the end of input
never is. The cursor looks ahead and behind, moves, and keeps count of the marks that bracket
speculative lookahead. Main statement: consuming anything but the end of input moves forward.
-/

namespace AdaptiveParsing

/-- Whether a cursor on `channel` stops at a token. -/
def Token.visibleOn (channel : Nat) (t : Token) : Bool := t.channel == channel || t.isEof

/-- The first visible index from `i` on, or the last index if there is none. -/
def nextVisible (tokens : Array Token) (channel i : Nat) : Nat :=
  if h : i < tokens.size - 1 then
    if tokens[i].visibleOn channel then i else nextVisible tokens channel (i + 1)
  else tokens.size - 1
termination_by tokens.size - 1 - i

/-- The last visible index up to `i`. -/
def lastVisible? (tokens : Array Token) (channel : Nat) : Nat → Option Nat
  | 0 => if tokens[0]?.any (·.visibleOn channel) then some 0 else none
  | i + 1 =>
    match tokens[i + 1]? with
    | none => none
    | some t => if t.visibleOn channel then some (i + 1) else lastVisible? tokens channel i

theorem nextVisible_lt {tokens : Array Token} {channel i : Nat} (h : 0 < tokens.size) :
    nextVisible tokens channel i < tokens.size := by
  fun_induction nextVisible <;> omega

theorem le_nextVisible {tokens : Array Token} {channel i : Nat} (h : i < tokens.size) :
    i ≤ nextVisible tokens channel i := by
  fun_induction nextVisible <;> omega

/-- A numbered token sequence that ends in the end of input, and a current token in it. -/
structure TokenCursor where
  tokens : Array Token
  channel : Nat
  position : Nat
  /-- Marks set and not yet released. -/
  openMarks : Nat := 0
  position_lt : position < tokens.size
  ends : tokens.back?.any Token.isEof = true
deriving DecidableEq, Repr

namespace TokenCursor

/-- The end of input that belongs after the last of `tokens`. -/
def closing (tokens : Array Token) : Token :=
  match tokens.back? with
  | none => .endOfInput
  | some last =>
    { Token.endOfInput with span := .point last.span.stop, line := last.line, column := last.column }

/-- The tokens, with an end of input after them unless they have one. -/
def close (tokens : Array Token) : Array Token :=
  if tokens.back?.any Token.isEof then tokens else tokens.push (closing tokens)

/-- Gives every token its place as index. -/
def number (tokens : Array Token) : Array Token :=
  tokens.mapIdx fun i t => { t with index := some i }

theorem closing_isEof (tokens : Array Token) : (closing tokens).isEof = true := by
  unfold closing; split <;> rfl

theorem back?_close (tokens : Array Token) : (close tokens).back?.any Token.isEof = true := by
  unfold close
  split
  · assumption
  · simp [closing_isEof]

theorem back?_number {tokens : Array Token} (h : tokens.back?.any Token.isEof = true) :
    (number tokens).back?.any Token.isEof = true := by
  simp only [Array.back?, number, Array.size_mapIdx, Array.getElem?_mapIdx] at *
  cases hx : tokens[tokens.size - 1]? <;> simp_all [Token.isEof]

theorem size_pos_of_back? {tokens : Array Token} (h : tokens.back?.any Token.isEof = true) :
    0 < tokens.size := by
  rcases Nat.eq_zero_or_pos tokens.size with h0 | h0
  · simp [Array.back?, Array.eq_empty_of_size_eq_zero h0] at h
  · exact h0

/-- A cursor at the first visible one of `tokens`. -/
def ofTokens (tokens : Array Token) (channel : Nat) : TokenCursor :=
  let all := number (close tokens)
  have ends : all.back?.any Token.isEof = true := back?_number (back?_close tokens)
  { tokens := all
    channel := channel
    position := nextVisible all channel 0
    position_lt := nextVisible_lt (size_pos_of_back? ends)
    ends := ends }

instance : Inhabited TokenCursor := ⟨ofTokens #[] defaultChannel⟩

variable {s : TokenCursor}

def size (s : TokenCursor) : Nat := s.tokens.size

theorem size_pos (s : TokenCursor) : 0 < s.tokens.size := size_pos_of_back? s.ends

def current (s : TokenCursor) : Token :=
  have := s.position_lt
  s.tokens[s.position]

/-- The token at an index, on whatever channel. -/
def get? (s : TokenCursor) (i : Nat) : Option Token := s.tokens[i]?

/-- The index `n` visible tokens after `i`, not past the end of input. -/
def ahead (s : TokenCursor) : Nat → Nat → Nat
  | i, 0 => i
  | i, n + 1 =>
    if s.tokens[i]?.any Token.isEof then i
    else s.ahead (nextVisible s.tokens s.channel (i + 1)) n

/-- The index `n` visible tokens before `i`. -/
def behind? (s : TokenCursor) : Nat → Nat → Option Nat
  | i, 0 => some i
  | 0, _ + 1 => none
  | i + 1, n + 1 => (lastVisible? s.tokens s.channel i).bind fun j => s.behind? j n

/-- The token at an offset: one is the current token, minus one the token before it, and zero is no
token. -/
def look? (s : TokenCursor) : Int → Option Token
  | .ofNat 0 => none
  | .ofNat (n + 1) => s.tokens[s.ahead s.position n]?
  | .negSucc n => (s.behind? s.position (n + 1)).bind fun i => s.tokens[i]?

/-- The type of the token at an offset. -/
def peek (s : TokenCursor) (k : Int) : TokenType :=
  ((s.look? k).map Token.kind).getD TokenType.invalid

/-- The index of the token before the current one. -/
def previousIndex (s : TokenCursor) : Option Nat := (s.look? (-1)).bind Token.index

/-- The current token's type. -/
def kind (s : TokenCursor) : TokenType := s.current.kind

def moveTo (s : TokenCursor) (i : Nat) : TokenCursor :=
  { s with position := nextVisible s.tokens s.channel i, position_lt := nextVisible_lt s.size_pos }

/-- Moves past the current token; the end of input stays current. -/
def consume (s : TokenCursor) : TokenCursor :=
  if s.current.isEof then s else s.moveTo (s.position + 1)

/-- Moves to the first visible token from index `i` on. -/
def seek (s : TokenCursor) (i : Nat) : TokenCursor := s.moveTo i

/-- Opens a mark, numbered by how many are open. -/
def mark (s : TokenCursor) : Nat × TokenCursor :=
  (s.openMarks + 1, { s with openMarks := s.openMarks + 1 })

/-- Closes the latest mark. -/
def release (s : TokenCursor) : TokenCursor := { s with openMarks := s.openMarks - 1 }

/-- Runs `body` under a mark and returns to where the cursor was, whatever `body` does. -/
def speculate {α : Type} (s : TokenCursor) (body : TokenCursor → α × TokenCursor) :
    α × TokenCursor :=
  let r := body s.mark.2
  (r.1, (r.2.seek s.position).release)

/-- The source text from index `first` to index `last`, up to the end of input. -/
def text (s : TokenCursor) (first last : Nat) : String :=
  let inside := (s.tokens.toList.drop first).take (last + 1 - first)
  String.join ((inside.takeWhile fun t => !t.isEof).map Token.sourceText)

/-- How many tokens there are from the current one on. -/
def remaining (s : TokenCursor) : Nat := s.tokens.size - s.position

theorem position_moveTo {i : Nat} :
    (s.moveTo i).position = nextVisible s.tokens s.channel i := rfl

theorem current_isEof_of_last (h : s.position + 1 = s.tokens.size) : s.current.isEof = true := by
  have he := s.ends
  have hp : s.position = s.tokens.size - 1 := by omega
  simp only [Array.back?, ← hp, Array.getElem?_eq_getElem s.position_lt] at he
  simpa [current] using he

/-- Anything but the end of input can be moved past. -/
theorem position_lt_consume (h : s.current.isEof = false) :
    s.position < s.consume.position := by
  have hp := s.position_lt
  have hl : s.position + 1 < s.tokens.size := by
    rcases Nat.lt_or_ge (s.position + 1) s.tokens.size with hlt | hge
    · exact hlt
    · have := current_isEof_of_last (s := s) (by omega)
      simp_all
  have : s.position + 1 ≤ nextVisible s.tokens s.channel (s.position + 1) := le_nextVisible hl
  simp only [consume, h, Bool.false_eq_true, if_false, position_moveTo]
  omega

theorem remaining_consume_lt (h : s.current.isEof = false) : s.consume.remaining < s.remaining := by
  have hp := position_lt_consume h
  have h1 := s.position_lt
  have : s.consume.tokens = s.tokens := by unfold consume; split <;> rfl
  simp only [remaining, this]
  omega

end TokenCursor

end AdaptiveParsing
