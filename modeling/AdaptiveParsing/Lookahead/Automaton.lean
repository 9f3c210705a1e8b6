import AdaptiveParsing.Lookahead.ConfigSet
import Std.Data.HashMap
/-!
What lookahead has found out, kept for the next time. The states of an automaton are the sets of
configurations that lookahead has come to, each with its verdict; an edge tells where one more token
leads. Clearing an automaton begins a new generation, and a state of an earlier generation is not
found any more.
-/

namespace AdaptiveParsing

/-- The number of a state within a generation. -/
structure AutomatonStateId where
  generation : Nat
  index : Nat
deriving DecidableEq, Hashable, Inhabited, Repr

/-- Where a token leads. -/
inductive AutomatonEdge where
  | target (id : AutomatonStateId)
  /-- No alternative takes the token. -/
  | error
deriving DecidableEq, Inhabited, Repr

/-- A set of configurations and what is decided once it is reached. -/
structure AutomatonState where
  /-- None for a state that no automaton holds. -/
  id : Option AutomatonStateId := none
  configs : ConfigSet
  prediction : Option Nat := none
  /-- The callers have to be looked at for a decision. -/
  needsContext : Bool := false
deriving DecidableEq, Inhabited, Repr

def AutomatonState.isAccept (s : AutomatonState) : Bool := s.prediction.isSome

/-- The automaton of one decision. -/
structure Automaton where
  states : Array AutomatonState := #[]
  /-- How often it was cleared. -/
  generation : Nat := 0
  byEntries : Std.HashMap (List (ConfigKey × AltSet)) AutomatonStateId := ∅
  /-- The state to start in, for each floor. -/
  starts : Std.HashMap Int AutomatonStateId := ∅
  edges : Std.HashMap AutomatonStateId (Std.HashMap TokenType AutomatonEdge) := ∅
  /-- Steps that were known. -/
  hits : Nat := 0
  /-- Steps that had to be found out. -/
  misses : Nat := 0

namespace Automaton

instance : Inhabited Automaton := ⟨{}⟩

def size (a : Automaton) : Nat := a.states.size

/-- The state of that number in the current generation. -/
def state? (a : Automaton) (id : AutomatonStateId) : Option AutomatonState :=
  if id.generation = a.generation then a.states[id.index]? else none

def start? (a : Automaton) (floor : Int) : Option AutomatonState :=
  a.starts[floor]?.bind a.state?

/-- Makes a state the start for a floor. The first of a generation stays. -/
def setStart (a : Automaton) (floor : Int) (s : AutomatonState) : Automaton :=
  match s.id with
  | none => a
  | some id =>
    { a with starts := a.starts.alter floor fun
        | none => some id
        | some old => if old.generation = a.generation then some old else some id }

/-- The state with these configurations, which is added with a verdict if there is none. -/
def addState (a : Automaton) (configs : ConfigSet) (prediction : Option Nat) (needsContext : Bool) :
    AutomatonState × Automaton :=
  match a.byEntries[configs.entries]?.bind a.state? with
  | some s => (s, a)
  | none =>
    let id := ⟨a.generation, a.states.size⟩
    let s := { id := some id, configs, prediction, needsContext }
    (s, { a with
      states := a.states.push s
      byEntries := a.byEntries.insert configs.entries id })

/-- The edges that leave a state. -/
def edgesOf (a : Automaton) (s : AutomatonState) : Std.HashMap TokenType AutomatonEdge :=
  match s.id with
  | none => ∅
  | some id => a.edges.getD id ∅

def edge? (a : Automaton) (s : AutomatonState) (t : TokenType) : Option AutomatonEdge :=
  (a.edgesOf s)[t]?

/-- Records where a token leads. A state that no automaton holds takes no edges. -/
def addEdge (a : Automaton) (s : AutomatonState) (t : TokenType) (e : AutomatonEdge) : Automaton :=
  match s.id with
  | none => a
  | some id =>
    { a with edges := a.edges.alter id fun known => some ((known.getD ∅).insert t e) }

/-- The verdict on these configurations, if they are known and have one. -/
def lookup (a : Automaton) (configs : ConfigSet) : Option Nat :=
  (a.byEntries[configs.entries]?.bind a.state?).bind AutomatonState.prediction

def recordHit (a : Automaton) : Automaton := { a with hits := a.hits + 1 }

def recordMiss (a : Automaton) : Automaton := { a with misses := a.misses + 1 }

/-- Forgets the states. The edges of earlier generations stay, since lookahead that holds on to such
a state may still follow them. -/
def clear (a : Automaton) : Automaton :=
  { generation := a.generation + 1, edges := a.edges }

end Automaton

/-- An automaton for every decision of a network. -/
structure PredictionCache where
  automata : Array Automaton := #[]
deriving Inhabited

namespace PredictionCache

def ofNetwork (n : Network) : PredictionCache := ⟨Array.replicate n.decisions.size {}⟩

def size (c : PredictionCache) : Nat := c.automata.size

def get? (c : PredictionCache) (d : DecisionId) : Option Automaton := c.automata[d]?

def set (c : PredictionCache) (d : DecisionId) (a : Automaton) : PredictionCache :=
  ⟨c.automata.setIfInBounds d a⟩

def lookup (c : PredictionCache) (d : DecisionId) (configs : ConfigSet) : Option Nat :=
  (c.get? d).bind fun a => a.lookup configs

/-- Records a verdict. The answer is the verdict that is known from then on. -/
def insert (c : PredictionCache) (d : DecisionId) (configs : ConfigSet) (prediction : Option Nat) :
    Option Nat × PredictionCache :=
  match c.get? d with
  | none => (none, c)
  | some a =>
    let (s, a) := a.addState configs prediction false
    (s.prediction, c.set d a)

/-- Steps known and steps found out, over all decisions. -/
def stats (c : PredictionCache) : Nat × Nat :=
  c.automata.foldl (fun (hits, misses) a => (hits + a.hits, misses + a.misses)) (0, 0)

def stateCount (c : PredictionCache) : Nat := c.automata.foldl (fun n a => n + a.size) 0

def clear (c : PredictionCache) : PredictionCache := ⟨c.automata.map Automaton.clear⟩

end PredictionCache

end AdaptiveParsing
