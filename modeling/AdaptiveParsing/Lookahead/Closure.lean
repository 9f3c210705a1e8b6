import AdaptiveParsing.Forest.Basic
import AdaptiveParsing.Lookahead.ConfigSet
import Std.Data.HashSet
/-!
One step of lookahead. From a set of configurations, those that can take the next token take it,
and the closure follows every edge that takes none, into calls and back. Where the rule of the
decision ends, the closure goes on in every place that rule is called from, or, in full context, in
the callers that are live.
-/

namespace AdaptiveParsing

/-- What the user's predicates say. They are given the forest, the invocation they are in if it is
known, and their rule and index. -/
abbrev Predicates := Forest → Option InvocationId → RuleId → Nat → Bool

/-- All of them hold. -/
def Predicates.always : Predicates := fun _ _ _ _ => true

/-- What lookahead depends on besides the input: the network, the predicates, and the invocation
that makes the decision with the floor it has. -/
structure Simulation where
  network : Network
  predicates : Predicates
  forest : Forest
  invocation : Option InvocationId
  floor : Int

/-- The configurations still to be followed, those followed, and those that wait for a token. -/
structure Closure where
  pending : List Config
  seen : Std.HashSet Config := ∅
  found : List Config := []
  predicated : Bool := false

/-- A predicate on this edge is asked, and not taken to hold: outside the deciding invocation what
a context-dependent one looks at is not known. -/
def ConfigKey.asks (k : ConfigKey) : EdgeKind → Bool
  | .predicate _ _ contextDependent => k.isLocal || !contextDependent
  | _ => false

namespace Simulation

variable (sim : Simulation)

/-- The configuration past an edge that takes no token, unless the edge is closed. -/
def follow? (c : Config) (t : Transition) : Option Config :=
  let moved : Config := { c with key := c.key.moveTo t.target }
  match t.kind with
  | .epsilon | .action _ _ => some moved
  | .rule _ back precedence =>
    some { c with key := { c.key with
      state := t.target
      precedence := precedence
      stack := ⟨back, c.key.precedence⟩ :: c.key.stack } }
  | .precedence level => if c.key.precedence ≤ level then some moved else none
  | .predicate rule index _ =>
    if !c.key.asks t.kind then some moved
    else if sim.predicates sim.forest (if c.key.isLocal then sim.invocation else none) rule index then
      some moved
    else none
  | _ => none

/-- The live invocation a configuration is in, once its own calls have returned. -/
def liveInvocation? : Placement → Option InvocationId
  | .inside => sim.invocation
  | .invocation id => some id
  | _ => none

/-- Where a live invocation returns to: the state after its call, in its caller. -/
def liveReturn? (id : InvocationId) : Option ConfigKey := do
  let node := sim.forest.get id
  let parent ← node.parent
  let back ← sim.network.followOf? (← node.caller)
  some { state := back, precedence := (sim.forest.get parent).precedence,
         placement := .invocation parent }

/-- Where a call of `rule` that is not known may return to. -/
def unknownReturns (rule : RuleId) : List ConfigKey :=
  (sim.network.followStates rule).map fun back =>
    { state := back
      precedence := 0
      placement :=
        if (sim.network.rule rule).leftRecursive && sim.network.returnPrecedenceAt back == some 0
        then .outermostFollow else .follow }

/-- Where a configuration at the end of `rule` goes on. If it does not, it stays, and in full
context it has then left the outermost invocation. -/
def leave (full : Bool) (c : Config) (rule : RuleId) : List Config ⊕ Config :=
  match c.key.stack with
  | f :: stack =>
    .inl [{ c with key := { c.key with state := f.returnState, precedence := f.precedence, stack } }]
  | [] =>
    if full then
      match (sim.liveInvocation? c.key.placement).bind sim.liveReturn? with
      | some key => .inl [{ c with key }]
      | none => .inr { c with key := { c.key with placement := .root } }
    else
      match sim.unknownReturns rule with
      | [] => .inr c
      | returns => .inl (returns.map fun key => { c with key })

/-- Follows one pending configuration. -/
def closureStep (full : Bool) (w : Closure) : Closure :=
  match w.pending with
  | [] => w
  | c :: pending =>
    if w.seen.contains c then { w with pending }
    else
      let w := { w with pending, seen := w.seen.insert c }
      let here := sim.network.state c.key.state
      if here.isRuleStop then
        match sim.leave full c here.rule with
        | .inl next => { w with pending := next.reverse ++ w.pending }
        | .inr c => { w with found := c :: w.found }
      else if here.isConsuming then { w with found := c :: w.found }
      else
        { w with
          pending := (here.transitions.filterMap (sim.follow? c)).reverse ++ w.pending
          predicated := w.predicated || here.transitions.any fun t => c.key.asks t.kind }

/-- Follows pending configurations until there are none, at most `fuel` times. -/
def closureRun (full : Bool) : Nat → Closure → Closure
  | 0, w => w
  | fuel + 1, w => if w.pending.isEmpty then w else closureRun full fuel (sim.closureStep full w)

/-- How many configurations a closure can come to. A number below `atoms` tells the choices there
are for a state, a precedence, a caller or an alternative, and no more calls are open at once than
in the seeds and one for each rule. -/
def closureBound (full : Bool) (seeds : List Config) : Nat :=
  let n := sim.network
  let frames := seeds.foldl (fun m c => max m c.key.stack.length) 0
  let atoms := n.states.size + n.edgeCount + n.rules.size + seeds.length * (frames + 1) +
    (if full then sim.forest.size else 0) + 8
  Nat.pow atoms (2 * (n.rules.size + frames) + 8)

/-- Everything that can be reached from the seeds without taking a token. -/
def closure (full : Bool) (seeds : List Config) (predicated : Bool) : Closure :=
  sim.closureRun full (sim.closureBound full seeds) { pending := seeds, predicated }

/-- The configurations a decision starts with: one for each of its edges, closed. -/
def startSet (full : Bool) (d : DecisionId) : ConfigSet :=
  let state := sim.network.decisionState d
  let here := sim.network.state state
  let key : ConfigKey := { state, precedence := sim.floor }
  let seeds := here.transitions.zipIdx.filterMap fun (t, i) => sim.follow? ⟨key, i + 1⟩ t
  let asked := here.transitions.any fun t => key.asks t.kind
  let w := sim.closure full seeds asked
  let set := ConfigSet.ofList w.found w.predicated
  if here.precedenceDecision && !full then set.filterPrecedence else set

/-- The configurations that have taken a token of type `t`. -/
def taken (set : ConfigSet) (t : TokenType) : List Config :=
  set.toList.flatMap fun c =>
    let here := sim.network.state c.key.state
    if here.isRuleStop then []
    else (here.transitions.filter fun tr => sim.network.Matches tr.kind t).map fun tr =>
      { c with key := c.key.moveTo tr.target }

/-- The configurations that the end of input leaves where they are. -/
def atEnd (set : ConfigSet) (t : TokenType) : List Config :=
  if t = TokenType.eof then
    set.toList.filter fun c => (sim.network.state c.key.state).isRuleStop
  else []

/-- The configurations reached by a token of type `t`, closed. After the end of input only those
remain that have come to the end of a rule. -/
def reach (full : Bool) (set : ConfigSet) (t : TokenType) : ConfigSet :=
  let w := sim.closure full (sim.taken set t) set.predicated
  let next := ConfigSet.ofList (w.found ++ sim.atEnd set t) w.predicated
  if t = TokenType.eof then next.filterStates fun s => (sim.network.state s).isRuleStop else next

end Simulation

end AdaptiveParsing
