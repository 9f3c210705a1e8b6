import AdaptiveParsing.Lookahead.AltSet
import AdaptiveParsing.Lookahead.Configuration
/-!
Sets of configurations. Configurations that differ in their alternative only share one entry, and
the entries stand in the order of their keys, so that sets with the same members have the same
entries.
-/

namespace AdaptiveParsing

/-- Configurations reached by some lookahead. -/
structure ConfigSet where
  /-- The alternatives of every key, by the order of keys. -/
  entries : List (ConfigKey × AltSet) := []
  /-- A predicate was asked on the way, so the set depends on more than the network. -/
  predicated : Bool := false
deriving DecidableEq, Hashable, Inhabited, Repr

namespace ConfigSet

/-- Gathers neighbours with one key. -/
def gather : List Config → List (ConfigKey × AltSet)
  | [] => []
  | c :: rest =>
    match gather rest with
    | [] => [(c.key, .singleton c.alt)]
    | (k, alts) :: more =>
      if c.key = k then (k, alts.insert c.alt) :: more
      else (c.key, .singleton c.alt) :: (k, alts) :: more

/-- The configurations in the order of their keys. -/
def sortByKey (configs : List Config) : List Config :=
  ((configs.map fun c => (c.key.rank, c)).mergeSort fun a b => lexLe a.1 b.1).map Prod.snd

/-- The set of the listed configurations. -/
def ofList (configs : List Config) (predicated : Bool) : ConfigSet :=
  { entries := gather (sortByKey configs), predicated }

/-- The members, by the order of keys and then by alternative. -/
def toList (s : ConfigSet) : List Config :=
  s.entries.flatMap fun (k, alts) => alts.toList.map fun alt => ⟨k, alt⟩

/-- How many keys there are. -/
def size (s : ConfigSet) : Nat := s.entries.length

def isEmpty (s : ConfigSet) : Bool := s.entries.isEmpty

/-- The alternatives at a key. -/
def altsAt (s : ConfigSet) (k : ConfigKey) : AltSet := (s.entries.lookup k).getD ∅

instance : Membership Config ConfigSet := ⟨fun s c => c.alt ∈ s.altsAt c.key⟩

instance (c : Config) (s : ConfigSet) : Decidable (c ∈ s) :=
  inferInstanceAs (Decidable (c.alt ∈ s.altsAt c.key))

/-- The set with one more member, and whether it is new. -/
def add (s : ConfigSet) (c : Config) : Bool × ConfigSet :=
  (decide (c ∉ s), ofList (c :: s.toList) s.predicated)

/-- The entries at the states that are to be kept. -/
def filterStates (s : ConfigSet) (keep : StateId → Bool) : ConfigSet :=
  { s with entries := s.entries.filter fun (k, _) => keep k.state }

def markPredicated (s : ConfigSet) : ConfigSet := { s with predicated := true }

/-- All alternatives that are left. -/
def alts (s : ConfigSet) : AltSet := s.entries.foldl (fun all (_, alts) => all ∪ alts) ∅

/-- The alternative that is left if there is only one. -/
def uniqueAlt? (s : ConfigSet) : Option Nat := s.alts.single?

def allAtRuleStop (n : Network) (s : ConfigSet) : Bool :=
  s.entries.all fun (k, _) => (n.state k.state).isRuleStop

/-- The alternatives that stand at a state, whatever their calls. -/
def altsAtState (s : ConfigSet) (state : StateId) : AltSet :=
  s.entries.foldl (fun all (k, alts) => if k.state == state then all ∪ alts else all) ∅

/-- Lookahead without the callers cannot tell the alternatives apart: every configuration is at the
end of the rules, or some key has several alternatives and no state has only one. -/
def isConflict (n : Network) (s : ConfigSet) : Bool :=
  s.allAtRuleStop n ||
    (s.entries.any (fun (_, alts) => decide (1 < alts.size)) &&
      s.entries.all fun (k, _) => (s.altsAtState k.state).size != 1)

/-- The least alternative of every key, if it is the same everywhere. -/
def agreedAlt? (s : ConfigSet) : Option Nat :=
  match s.entries with
  | [] => none
  | (_, first) :: rest =>
    first.min?.bind fun alt =>
      if rest.all fun (_, alts) => alts.min? == some alt then some alt else none

/-- The least alternative that has come to the end of its rule. -/
def finishedAlt? (n : Network) (s : ConfigSet) : Option Nat :=
  let finished := s.entries.filter fun (k, _) => k.hasLeft || (n.state k.state).isRuleStop
  (finished.filterMap fun (_, alts) => alts.min?).min?

/-- The first alternative stands at this state with these calls. -/
def firstAltAt (s : ConfigSet) (state : StateId) (stack : List Frame) : Bool :=
  s.entries.any fun (k, alts) => k.state == state && alts.contains 1 && k.stack == stack

/-- The set a loop of operators starts with. Where another round, the first alternative, comes to
the same state by the same calls, leaving the loop is dropped, unless it goes to a caller with floor
zero. -/
def filterPrecedence (s : ConfigSet) : ConfigSet :=
  { s with entries := s.entries.filterMap fun (k, alts) =>
      if k.placement != .outermostFollow && s.firstAltAt k.state k.stack then
        if alts.contains 1 then some (k, .singleton 1) else none
      else some (k, alts) }

end ConfigSet

end AdaptiveParsing
