import AdaptiveParsing.Network.LeftRecursion
import AdaptiveParsing.Network.Following
/-!
From a draft to a network: the draft is checked, its decisions are numbered in the order of their
states, and the tables of the network are filled in.
-/

namespace AdaptiveParsing

/-- Why a draft is no network. -/
inductive NetworkError where
  /-- An edge, a call or a return leads to a state that does not exist. -/
  | danglingTransition (source target : StateId)
  /-- A call does not lead to the start of the rule it names. -/
  | badRuleTransition (source : StateId) (rule : String)
  /-- Nothing leaves the start of the rule, and nothing calls it. -/
  | emptyRule (rule : String)
  /-- Nothing leaves the start of the rule, but it is called. -/
  | undefinedRule (rule : String)
  /-- A state with several edges has one that takes a token. -/
  | mixedTransitions (s : StateId)
  | transitionFromStop (s : StateId)
  /-- Rules call each other before any token is taken. -/
  | leftRecursion (rules : List String)
  /-- Every alternative of a left-recursive rule starts with the rule itself. -/
  | noPrimaryAlternative (rule : String)
deriving DecidableEq, Inhabited, Repr

def NetworkError.message : NetworkError → String
  | danglingTransition source target =>
    "transition from state " ++ toString source ++ " targets missing state " ++ toString target
  | badRuleTransition source rule =>
    "rule call in state " ++ toString source ++ " does not enter the start state of rule `" ++
      rule ++ "`"
  | emptyRule rule => "rule `" ++ rule ++ "` has no alternatives"
  | undefinedRule rule => "rule `" ++ rule ++ "` is referenced but never defined"
  | mixedTransitions s =>
    "state " ++ toString s ++ " mixes consuming and non-consuming transitions"
  | transitionFromStop s =>
    "rule stop state " ++ toString s ++ " must not have outgoing transitions"
  | leftRecursion rules =>
    "rules " ++ " -> ".intercalate rules ++ " can invoke themselves without consuming input"
  | noPrimaryAlternative rule =>
    "left-recursive rule `" ++ rule ++ "` needs at least one non-recursive alternative"

namespace Draft

variable (d : Draft)

/-- Some call leads to `start`. -/
def isCalled (start : StateId) : Bool :=
  d.states.any fun s => s.transitions.any fun t => t.call?.isSome && t.target == start

def checkRule (r : DraftRule) : Except NetworkError Unit :=
  if r.defined then .ok ()
  else .error (if d.isCalled r.start then .undefinedRule r.name else .emptyRule r.name)

/-- The target exists, and a call enters its rule and returns to a state that exists. -/
def checkTransition (source : StateId) (t : Transition) : Except NetworkError Unit :=
  if d.states.size ≤ t.target then .error (.danglingTransition source t.target)
  else match t.call? with
    | none => .ok ()
    | some (r, follow) =>
      match d.rules[r]? with
      | none => .error (.danglingTransition source t.target)
      | some rule =>
        if rule.start != t.target then .error (.badRuleTransition source rule.name)
        else if d.states.size ≤ follow then .error (.danglingTransition source follow)
        else .ok ()

/-- Nothing leaves a rule's stop, and an edge that takes a token is its state's only one. -/
def checkState (source : StateId) (s : NetworkState) : Except NetworkError Unit :=
  if s.isRuleStop && !s.transitions.isEmpty then .error (.transitionFromStop source)
  else if s.transitions.any Transition.isConsuming && decide (1 < s.transitions.length) then
    .error (.mixedTransitions source)
  else s.transitions.forM (d.checkTransition source)

/-- The first fault of the draft: rules before states, states in their order, and recursion that
takes no token last. -/
def check : Except NetworkError Unit := do
  d.rules.toList.forM d.checkRule
  d.states.toList.zipIdx.forM fun (s, source) => d.checkState source s
  match d.leftRecursion? with
  | none => pure ()
  | some rules => throw (.leftRecursion (rules.map fun r => (d.rule r).name))

/-- The states that have several edges. -/
def decisions : Array StateId :=
  (Array.range d.states.size).filter fun s => decide (1 < (d.state s).transitions.length)

/-- The states with their decisions numbered. -/
def numberedStates : Array NetworkState :=
  (d.states.foldl (fun (states, next) s =>
    if 1 < s.transitions.length then (states.push { s with decision := some next }, next + 1)
    else (states.push s, next)) (#[], 0)).1

/-- Every call: the rule called, where it returns, and with which precedence, by state and edge. -/
def calls : List (RuleId × StateId × Int) :=
  d.states.toList.flatMap fun s => s.transitions.filterMap fun t =>
    match t.kind with
    | .rule r follow precedence => some (r, follow, precedence)
    | _ => none

/-- The draft as a network whose lookahead sets are still missing. -/
def skeleton : Network where
  states := d.numberedStates
  rules := d.rules.map DraftRule.toRule
  decisions := d.decisions
  maxType := d.maxType
  ruleFollow := d.calls.foldl (fun table (r, follow, _) =>
    table.modify r fun links => if links.contains follow then links else links ++ [follow])
    (Array.replicate d.rules.size [])
  returnPrecedence := d.calls.foldl (fun table (_, follow, precedence) =>
    table.modify follow fun _ => some precedence) (Array.replicate d.states.size none)
  edgeCount := d.edgeCount

/-- The network of a draft without faults. -/
def build : Except NetworkError Network := do
  d.check
  let n := d.skeleton
  pure { n with nextTokens := (Array.range n.states.size).map fun s => n.following s none }

end Draft

end AdaptiveParsing
