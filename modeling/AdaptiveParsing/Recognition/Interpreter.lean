import AdaptiveParsing.Recognition.RuleMethod
/-!
Parsing straight from the network. The interpreter goes from state to state: it decides where there
are several edges, matches tokens, opens an invocation for a call, and at the end of a rule goes on
where the call returns to. Some grammars let a loop go round without taking a token, so a run is
given a number of steps.
-/

namespace AdaptiveParsing

/-- A parser, and for each open left-recursive invocation where it was called from, innermost
first. -/
structure Interpreter where
  parser : Parser
  callers : List (Option InvocationId × Option StateId) := []
deriving Inhabited

/-- What a step leads to. -/
inductive Progress where
  | running (i : Interpreter)
  | finished (outcome : Except Halt InvocationId) (i : Interpreter)

namespace Interpreter

variable (env : Setting)

def recognizer (i : Interpreter) : Recognizer := i.parser.recognizer

/-- Runs an operation of the recognizer. -/
def onRecognizer {α : Type} (i : Interpreter) (f : Recognizer → α × Recognizer) : α × Interpreter :=
  let (a, recognizer) := f i.parser.recognizer
  (a, { i with parser := { i.parser with recognizer } })

/-- Puts the recognizer at a state, or at none. -/
def goTo (i : Interpreter) (state : Option StateId) : Interpreter :=
  { i with parser := i.parser.modifyRecognizer fun r => { r with state } }

/-- Runs a rule method on the parser. -/
def run {α : Type} (i : Interpreter) (method : ParserM α) : Except Halt α × Interpreter :=
  let (outcome, parser) := method i.parser
  (outcome, { i with parser })

/-- Opens an invocation of a rule of either kind. -/
def enter (i : Interpreter) (rule : RuleId) (precedence : Int) :
    Except Halt InvocationId × Interpreter :=
  if (env.network.rule rule).leftRecursive then
    let r := i.recognizer
    let i := { i with callers := (r.invocation, r.state) :: i.callers }
    match i.run (Parser.enterRecursion env rule precedence) with
    | (.ok id, i) => (.ok id, i)
    | (.error halt, i) => (.error halt, { i with callers := i.callers.tail })
  else i.run (Parser.enterRule env rule)

/-- The number of the edge to take from a state, counted from one. -/
def chooseEdge (s : NetworkState) : ParserM Nat :=
  match s.decision with
  | some d =>
    if 1 < s.transitions.length then do
      Parser.sync env
      Parser.predict env d
    else pure 1
  | none => pure 1

/-- Does what an edge that is not a call asks for. -/
def passEdge (s : NetworkState) (t : Transition) : ParserM Unit :=
  match t.kind with
  | .epsilon => do
    if s.precedenceDecision && (env.network.state t.target).kind != .loopEnd then
      modify fun p => p.modifyRecognizer fun r =>
        (r.pushRecursion (env.network.rule s.rule).start s.rule).2
  | .atom k => discard (Parser.matchToken env k)
  | .range _ _ | .set _ | .notSet _ =>
    match env.network.label? t.kind with
    | some types => discard (Parser.matchSet env types)
    | none => pure ()
  | .wildcard => discard (Parser.matchAny env)
  | .rule _ _ _ => pure ()
  | .predicate rule index _ => do
    let r := (← get).recognizer
    unless r.holds env rule index do
      Parser.fail (r.failedPredicate env ((env.network.rule rule).name ++ ":" ++ toString index))
  | .action rule index => modify fun p => p.modifyRecognizer fun r => r.runAction rule index
  | .precedence level => Parser.checkPrecedence env level

/-- Follows an edge, and opens an invocation if it is a call. -/
def followEdge (i : Interpreter) (s : NetworkState) (t : Transition) :
    Except Halt Unit × Interpreter :=
  let (outcome, i) := match t.kind with
    | .rule rule _ precedence =>
      let (outcome, i) := i.enter env rule precedence
      (outcome.map fun _ => (), i)
    | _ => i.run (passEdge env s t)
  match outcome with
  | .ok () => (.ok (), i.goTo (some t.target))
  | .error halt => (.error halt, i)

/-- Leaves a state that is not the stop of a rule. -/
def visit (i : Interpreter) (s : NetworkState) : Except Halt Unit × Interpreter :=
  match i.run (chooseEdge env s) with
  | (.error halt, i) => (.error halt, i)
  | (.ok alt, i) =>
    match s.transitions[alt - 1]? with
    | some t => i.followEdge env s t
    | none => (.error (.failure (.recognition (i.recognizer.inputMismatch env))), i)

/-- Closes the innermost left-recursive invocation and takes its caller off the list. -/
def unroll (i : Interpreter) : Option InvocationId × Option StateId × Interpreter :=
  let (parent, state) := i.callers.head?.getD (none, none)
  let (done, i) := i.onRecognizer fun r => r.unrollRecursion parent
  (done, state, { i with callers := i.callers.tail })

/-- Leaves the innermost invocation, which was called, and goes on where the call returns to. -/
def leaveRule (i : Interpreter) (rule : RuleId) : Interpreter :=
  let (state, i) := if (env.network.rule rule).leftRecursive then
      let (_, state, i) := i.unroll
      (state, i)
    else
      i.onRecognizer fun r =>
        let r := r.exitRule
        (r.state, r)
  i.goTo (state.bind env.network.followOf?)

/-- Closes the outermost invocation. -/
def finish (i : Interpreter) (rule : RuleId) (root : InvocationId) : InvocationId × Interpreter :=
  if (env.network.rule rule).leftRecursive then
    let (done, _, i) := i.unroll
    (done.getD root, i)
  else i.onRecognizer fun r => (root, r.exitRule)

/-- Reports a mismatch and recovers at the end of the rule that `s` is in. -/
def recoverFrom (i : Interpreter) (s : NetworkState) (e : RecognitionError) :
    Except Halt Unit × Interpreter :=
  (i.goTo (some (env.network.rule s.rule).stop)).run
    (Parser.handle env (.error (.failure (.recognition e))))

/-- The innermost invocation was not called by another. -/
def isOutermost (i : Interpreter) : Bool :=
  match i.recognizer.invocation with
  | none => true
  | some id => (i.recognizer.forest.get id).caller.isNone

/-- One state further in a parse of `rule` whose first invocation is `root`. -/
def step (rule : RuleId) (root : InvocationId) (i : Interpreter) : Progress :=
  match i.recognizer.state with
  | none => .finished (.ok root) i
  | some p =>
    let s := env.network.state p
    if s.isRuleStop then
      if i.isOutermost then
        let (done, i) := i.finish env rule root
        .finished (.ok done) i
      else .running (i.leaveRule env s.rule)
    else
      match i.visit env s with
      | (.ok (), i) => .running i
      | (.error (.failure (.recognition e)), i) =>
        match i.recoverFrom env s e with
        | (.ok (), i) => .running i
        | (.error halt, i) => .finished (.error halt) i
      | (.error halt, i) => .finished (.error halt) i

/-- Goes on for at most `fuel` steps; none if that is not enough. -/
def runFor (rule : RuleId) (root : InvocationId) :
    Nat → Interpreter → Option (Except Halt InvocationId × Interpreter)
  | 0, _ => none
  | fuel + 1, i =>
    match step env rule root i with
    | .finished outcome i => some (outcome, i)
    | .running i => runFor rule root fuel i

/-- Parses `rule` from where the parser stands, in at most `fuel` steps. The answer is the
invocation at the root of the tree. -/
def parse (fuel : Nat) (rule : RuleId) (i : Interpreter) :
    Option (Except Halt InvocationId × Interpreter) :=
  match i.enter env rule 0 with
  | (.error halt, i) => some (.error halt, i)
  | (.ok root, i) => runFor env rule root fuel i

end Interpreter

end AdaptiveParsing
