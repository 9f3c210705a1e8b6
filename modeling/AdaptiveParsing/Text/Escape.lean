/-!
Text made safe for one line of output.
-/

namespace AdaptiveParsing.Text

/-- Line feeds, carriage returns and tabs are written as a backslash and a letter. -/
def escapeChar : Char → List Char
  | '\n' => ['\\', 'n']
  | '\r' => ['\\', 'r']
  | '\t' => ['\\', 't']
  | c => [c]

/-- The text on one line, every other character unchanged. -/
def escape (text : String) : String :=
  String.ofList (text.toList.flatMap escapeChar)

/-- The text on one line between single quotes. -/
def quote (text : String) : String := "'" ++ escape text ++ "'"

theorem escapeChar_ne_lineFeed (c : Char) : '\n' ∉ escapeChar c := by
  unfold escapeChar; split <;> simp_all [eq_comm]

/-- What is escaped fits on one line. -/
theorem lineFeed_notMem_escape (text : String) : '\n' ∉ (escape text).toList := by
  simp only [escape, String.toList_ofList, List.mem_flatMap, not_exists, not_and]
  exact fun c _ => escapeChar_ne_lineFeed c

end AdaptiveParsing.Text
