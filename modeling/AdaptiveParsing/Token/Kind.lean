/-!
Token types. A lexer numbers its types from one upwards. Two negative numbers are reserved: the
end of input, which every token sequence ends in, and the empty word, which occurs in lookahead
sets only and says that the end of a rule can be reached without consuming.
-/

namespace AdaptiveParsing

/-- The number of a token type. -/
abbrev TokenType := Int

namespace TokenType

/-- The end of input. -/
abbrev eof : TokenType := -1

/-- The empty word. -/
abbrev epsilon : TokenType := -2

/-- No type at all. -/
abbrev invalid : TokenType := 0

/-- The least type a lexer gives out. -/
abbrev firstUser : TokenType := 1

def isEof (t : TokenType) : Bool := t == eof

/-- A type that a token can have. -/
def isReal (t : TokenType) : Bool := t == eof || firstUser ≤ t

/-- The short name used in listings of sets. -/
def label (t : TokenType) : String :=
  if t = eof then "EOF" else if t = epsilon then "EPSILON" else "T" ++ toString t

/-- The types from `lo` to `hi`, both included, ascending. -/
def range (lo hi : TokenType) : List TokenType :=
  (List.range (hi - lo + 1).toNat).map fun (n : Nat) => lo + (n : Int)

theorem isEof_iff {t : TokenType} : isEof t = true ↔ t = eof := by simp [isEof]

theorem mem_range {t lo hi : TokenType} : t ∈ range lo hi ↔ lo ≤ t ∧ t ≤ hi := by
  simp only [range, List.mem_map, List.mem_range]
  constructor
  · rintro ⟨n, hn, rfl⟩; lia
  · intro h; exact ⟨(t - lo).toNat, by lia, by lia⟩

theorem pairwise_range {lo hi : TokenType} : (range lo hi).Pairwise (· < ·) := by
  rw [range, List.pairwise_map]
  exact List.pairwise_lt_range.imp fun h => by lia

end TokenType

end AdaptiveParsing
