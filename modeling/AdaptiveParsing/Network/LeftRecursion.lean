import AdaptiveParsing.Network.Draft
import Std.Data.HashSet
/-!
Rules that can call themselves before any token is taken. A rule that can be passed without taking
a token is nullable, and calls of nullable rules are stepped over. A cycle among the calls that a
rule can reach from its start in this way makes the draft unusable.
-/

namespace AdaptiveParsing

/-- A walk over the edges that take no token. -/
structure FreeWalk where
  pending : List StateId
  seen : Std.HashSet StateId := ∅
  /-- The rules called on the way, the latest first. -/
  calls : List RuleId := []

namespace Draft

variable (d : Draft)

/-- Takes the edges of one pending state. -/
def freeStep (nullable : Array Bool) (w : FreeWalk) : FreeWalk :=
  match w.pending with
  | [] => w
  | s :: pending =>
    if w.seen.contains s then { w with pending }
    else
      (d.state s).transitions.foldl (fun w t =>
        match t.kind with
        | .rule r follow _ =>
          { w with
            calls := r :: w.calls
            pending := if nullable.getD r false then follow :: w.pending else w.pending }
        | kind => if kind.isConsuming then w else { w with pending := t.target :: w.pending })
        { w with pending, seen := w.seen.insert s }

/-- Every edge adds at most one pending state, and only when its source is first seen. -/
def freeBound : Nat := d.edgeCount + 1

/-- Takes pending states until there are none, at most `fuel` times. -/
def freeRun (nullable : Array Bool) : Nat → FreeWalk → FreeWalk
  | 0, w => w
  | fuel + 1, w => if w.pending.isEmpty then w else freeRun nullable fuel (d.freeStep nullable w)

/-- What can be reached from `start` without taking a token, inside its rule. -/
def freeWalk (nullable : Array Bool) (start : StateId) : FreeWalk :=
  d.freeRun nullable d.freeBound { pending := [start] }

/-- Marks the rules that are nullable given what is known of those they call. -/
def nullableRound (nullable : Array Bool) : Array Bool :=
  (List.range d.rules.size).foldl (fun known r =>
    if known.getD r false then known
    else if (d.freeWalk known (d.rule r).start).seen.contains (d.rule r).stop then
      known.set! r true
    else known) nullable

/-- Repeats the rounds until one finds nothing new, at most `fuel` times. -/
def nullableFrom : Nat → Array Bool → Array Bool
  | 0, known => known
  | fuel + 1, known =>
    let next := d.nullableRound known
    if next == known then known else nullableFrom fuel next

/-- The nullable rules. Every round but the last finds one. -/
def nullableRules : Array Bool :=
  d.nullableFrom (d.rules.size + 1) (Array.replicate d.rules.size false)

/-- The rules called before any token is taken, for each rule in the order they are met. -/
def leftCalls : Array (List RuleId) :=
  let nullable := d.nullableRules
  d.rules.map fun r => (d.freeWalk nullable r.start).calls.reverse

/-- A search for a cycle among calls: the rules done with, and a cycle if one was found. -/
structure CycleSearch where
  finished : Std.HashSet RuleId := ∅
  cycle : Option (List RuleId) := none

/-- Follows the calls of `r` in order. `path` holds the callers, the innermost first; meeting one of
them again closes a cycle. `fuel` bounds the length of the path. -/
def findCycle (calls : Array (List RuleId)) : Nat → List RuleId → RuleId → CycleSearch → CycleSearch
  | 0, _, _, search => search
  | fuel + 1, path, r, search =>
    if search.cycle.isSome || search.finished.contains r then search
    else if path.contains r then
      { search with cycle := some (r :: (path.takeWhile (· != r)).reverse ++ [r]) }
    else
      let search := (calls.getD r []).foldl
        (fun search callee => findCycle calls fuel (r :: path) callee search) search
      if search.cycle.isSome then search
      else { search with finished := search.finished.insert r }

/-- Rules that call each other before any token is taken, the first named again at the end. -/
def leftRecursion? : Option (List RuleId) :=
  let calls := d.leftCalls
  ((List.range d.rules.size).foldl
    (fun search r => findCycle calls (d.rules.size + 2) [] r search) {}).cycle

end Draft

end AdaptiveParsing
