import AdaptiveParsing.Diagnostic.Basic
/-!
A queue that collects diagnostics up to a limit, drops repeats, and hands them out by position.
-/

namespace AdaptiveParsing

structure QueueConfig where
  /-- How many diagnostics are taken before only fatal ones are; zero means no limit. -/
  errorLimit : Nat := 10
  /-- Whether a second diagnostic with the same code at the same place is dropped. -/
  deduplicate : Bool := true
deriving DecidableEq, Inhabited, Repr

/-- Everything is kept. -/
def QueueConfig.unlimited : QueueConfig := ⟨0, false⟩

/-- A diagnostic at the place it belongs to. -/
structure QueueEntry where
  diagnostic : Diagnostic
  line : Nat
  column : Nat
deriving DecidableEq, Inhabited, Repr

namespace QueueEntry

/-- Entries with one key are repeats of each other. -/
def key (e : QueueEntry) : Nat × Nat × ErrorCode := (e.line, e.column, e.diagnostic.code)

/-- Earlier lines first, and within a line earlier columns. -/
def notAfter (a b : QueueEntry) : Bool :=
  decide (a.line < b.line ∨ a.line = b.line ∧ a.column ≤ b.column)

end QueueEntry

/-- The diagnostics taken since the last flush, in the order they came. -/
structure DiagnosticQueue where
  config : QueueConfig := {}
  entries : List QueueEntry := []
deriving DecidableEq, Inhabited, Repr

namespace DiagnosticQueue

def size (q : DiagnosticQueue) : Nat := q.entries.length

def isEmpty (q : DiagnosticQueue) : Bool := q.entries.isEmpty

def limitReached (q : DiagnosticQueue) : Bool :=
  decide (0 < q.config.errorLimit ∧ q.config.errorLimit ≤ q.size)

/-- Whether a diagnostic is kept: the limit stops all but fatal ones, and where repeats are dropped
it must not be one. -/
def accepts (q : DiagnosticQueue) (e : QueueEntry) : Bool :=
  (!q.limitReached || e.diagnostic.isFatal) &&
    !(q.config.deduplicate && q.entries.any fun other => other.key == e.key)

/-- The queue with the entry if it is kept, and whether it is. -/
def add (q : DiagnosticQueue) (e : QueueEntry) : Bool × DiagnosticQueue :=
  if q.accepts e then (true, { q with entries := q.entries ++ [e] }) else (false, q)

/-- All diagnostics by position, those at one place in the order they came, and the emptied
queue. -/
def flush (q : DiagnosticQueue) : List Diagnostic × DiagnosticQueue :=
  ((q.entries.mergeSort QueueEntry.notAfter).map QueueEntry.diagnostic, { config := q.config })

variable {q : DiagnosticQueue} {e : QueueEntry}

theorem entries_add :
    (q.add e).2.entries = if q.accepts e then q.entries ++ [e] else q.entries := by
  unfold add; split <;> rfl

theorem config_add : (q.add e).2.config = q.config := by
  unfold add; split <;> rfl

end DiagnosticQueue

end AdaptiveParsing
