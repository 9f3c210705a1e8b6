import AdaptiveParsing.Network.Basic
/-!
Networks under construction. A draft takes rules, states and edges in any order and checks nothing;
what is wrong with it is found when it is turned into a network.
-/

namespace AdaptiveParsing

/-- A rule of a draft. It is defined once an edge leaves its start. -/
structure DraftRule extends Rule where
  defined : Bool := false
deriving DecidableEq, Inhabited, Repr

structure Draft where
  states : Array NetworkState := #[]
  rules : Array DraftRule := #[]
  maxType : TokenType := TokenType.invalid
deriving DecidableEq, Inhabited, Repr

namespace Draft

def state (d : Draft) (s : StateId) : NetworkState := d.states.getD s default

def rule (d : Draft) (r : RuleId) : DraftRule := d.rules.getD r default

/-- How many edges there are. -/
def edgeCount (d : Draft) : Nat := d.states.foldl (fun n s => n + s.transitions.length) 0

def addState (d : Draft) (kind : StateKind) (rule : RuleId) : StateId × Draft :=
  (d.states.size, { d with states := d.states.push { kind, rule } })

/-- Adds a rule with its start and stop. -/
def addRule (d : Draft) (name : String) : RuleId × Draft :=
  let r := d.rules.size
  let (start, d) := d.addState .ruleStart r
  let (stop, d) := d.addState .ruleStop r
  (r, { d with rules := d.rules.push { name, start, stop } })

def markDefined (d : Draft) (r : RuleId) : Draft :=
  { d with rules := d.rules.modify r fun rule => { rule with defined := true } }

/-- Adds an edge after the others that leave `source`. If there is no such state nothing happens. -/
def addTransition (d : Draft) (source : StateId) (t : Transition) : Draft :=
  let d := if (d.states[source]?).any (·.kind == .ruleStart) then
      d.markDefined (d.state source).rule
    else d
  { d with states := d.states.modify source fun s =>
      { s with transitions := s.transitions ++ [t] } }

def addEpsilon (d : Draft) (source target : StateId) : Draft :=
  d.addTransition source (.epsilon target)

def setLeftRecursive (d : Draft) (r : RuleId) : Draft :=
  { d with rules := d.rules.modify r fun rule => { rule with leftRecursive := true } }

def markPrecedenceDecision (d : Draft) (s : StateId) : Draft :=
  { d with states := d.states.modify s fun st => { st with precedenceDecision := true } }

end Draft

end AdaptiveParsing
