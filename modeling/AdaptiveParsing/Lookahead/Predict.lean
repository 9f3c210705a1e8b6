import AdaptiveParsing.Lookahead.Automaton
import AdaptiveParsing.Lookahead.Closure
import AdaptiveParsing.Token.Cursor
/-!
Deciding by lookahead. All alternatives of a decision are followed in step with the input until one
is left. That is first done without looking at the callers, where every step is recorded in the
decision's automaton; if that ends in a conflict it is done again with the live callers, and then
nothing is recorded. Of alternatives that cannot be told apart the first one is taken.
-/

namespace AdaptiveParsing

/-- How far a decision goes to tell alternatives apart. -/
inductive PredictionMode where
  /-- The callers are never looked at. -/
  | sll
  /-- The callers are looked at in a conflict. -/
  | ll
deriving DecidableEq, Inhabited, Repr

/-- The outcome of lookahead. -/
inductive Prediction where
  | alternative (alt : Nat)
  /-- No alternative takes the input: where the decision began, and the token none could take. -/
  | noViable (start offending : Nat)
  /-- The end of input was taken without a verdict, which taking it again does not bring. -/
  | unsettled
deriving DecidableEq, Inhabited, Repr

/-- The alternative that a token of type `t` has led the live callers to, if that can be told. -/
def ConfigSet.settledAlt? (s : ConfigSet) (t : TokenType) : Option Nat :=
  s.uniqueAlt? <|> s.agreedAlt? <|>
    (if t = TokenType.eof then some (s.alts.min?.getD 1) else none)

namespace Simulation

variable (sim : Simulation)

/-- What follows from the configurations alone: an alternative, and whether it has to be looked at
in full context. -/
def verdict (configs : ConfigSet) : Option Nat × Bool :=
  match configs.uniqueAlt? with
  | some alt => (some alt, false)
  | none => if configs.isConflict sim.network then (configs.alts.min?, true) else (none, false)

/-- Finds out where a token leads, and records it unless predicates had a say. -/
def computeTarget (a : Automaton) (previous : AutomatonState) (t : TokenType) :
    Option AutomatonState × Automaton :=
  let a := a.recordMiss
  let configs := sim.reach false previous.configs t
  if configs.isEmpty then (none, a.addEdge previous t .error)
  else
    let (prediction, needsContext) := sim.verdict configs
    if configs.predicated || previous.id.isNone then
      (some { configs, prediction, needsContext }, a)
    else
      let (s, a) := a.addState configs prediction needsContext
      match s.id with
      | some id => (some s, a.addEdge previous t (.target id))
      | none => (some s, a)

/-- Where a token leads, from the automaton if it is known there. -/
def target (a : Automaton) (previous : AutomatonState) (t : TokenType) :
    Option AutomatonState × Automaton :=
  match a.edge? previous t with
  | some .error => (none, a.recordHit)
  | some (.target id) =>
    match a.state? id with
    | some s => (some s, a.recordHit)
    | none => sim.computeTarget a previous t
  | none => sim.computeTarget a previous t

/-- The outcome when no configuration takes the token: an alternative that had come to the end of
its rule before it, or none. -/
def deadEnd (previous : ConfigSet) (start offending : Nat) : Prediction :=
  match previous.finishedAlt? sim.network with
  | some alt => .alternative alt
  | none => .noViable start offending

/-- Lookahead with the live callers. -/
def predictInContext (start : Nat) (previous : ConfigSet) (input : TokenCursor) :
    Prediction × TokenCursor :=
  let configs := sim.reach true previous input.kind
  if configs.isEmpty then (sim.deadEnd previous start input.position, input)
  else
    match configs.settledAlt? input.kind with
    | some alt => (.alternative alt, input)
    | none =>
      if _ : input.current.isEof then (.unsettled, input)
      else predictInContext start configs input.consume
termination_by input.remaining
decreasing_by exact TokenCursor.remaining_consume_lt (by simpa using ‹¬input.current.isEof = true›)

/-- Lookahead without the callers, and with them once that ends in a conflict. -/
def predictFrom (d : DecisionId) (mode : PredictionMode) (start : Nat) (a : Automaton)
    (previous : AutomatonState) (input : TokenCursor) : Prediction × Automaton × TokenCursor :=
  match sim.target a previous input.kind with
  | (none, a) => (sim.deadEnd previous.configs start input.position, a, input)
  | (some s, a) =>
    if s.needsContext && mode == .ll then
      let (p, input) := sim.predictInContext start (sim.startSet true d) (input.seek start)
      (p, a, input)
    else
      match s.prediction with
      | some alt => (.alternative alt, a, input)
      | none =>
        if _ : input.current.isEof then (.unsettled, a, input)
        else predictFrom d mode start a s input.consume
termination_by input.remaining
decreasing_by exact TokenCursor.remaining_consume_lt (by simpa using ‹¬input.current.isEof = true›)

/-- The state lookahead starts in, which is recorded unless predicates had a say. -/
def startState (d : DecisionId) (a : Automaton) : AutomatonState × Automaton :=
  match a.start? sim.floor with
  | some s => (s, a.recordHit)
  | none =>
    let a := a.recordMiss
    let configs := sim.startSet false d
    if configs.predicated then ({ configs }, a)
    else
      let (s, a) := a.addState configs none false
      (s, a.setStart sim.floor s)

/-- The alternative of decision `d` that the input at the cursor continues with. The cursor is left
where lookahead ended. -/
def predict (d : DecisionId) (mode : PredictionMode) (a : Automaton) (input : TokenCursor) :
    Prediction × Automaton × TokenCursor :=
  let (s, a) := sim.startState d a
  sim.predictFrom d mode input.position a s input

end Simulation

end AdaptiveParsing
