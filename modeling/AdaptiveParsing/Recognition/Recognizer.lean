import AdaptiveParsing.Forest.Basic
import AdaptiveParsing.Grammar.Lowering
import AdaptiveParsing.Lookahead.Predict
import AdaptiveParsing.NestingLimit
import AdaptiveParsing.Diagnostic.Queue
/-!
The state of a parse: where it stands in the input and in the network, the invocations opened so
far, the floors of the left-recursive ones, and the errors reported. Rules are opened and closed
here, tokens consumed, decisions made and errors described; what to do about an error is left to a
recovery strategy.
-/

namespace AdaptiveParsing

structure ParserConfig where
  mode : PredictionMode := .ll
  /-- How many invocations may be live at once. -/
  maxDepth : Nat := 10000
  /-- Whether consumed tokens become children of their invocation. Invocations, and tokens that
  recovery dropped or conjured, always do. -/
  buildTrees : Bool := true
deriving DecidableEq, Inhabited, Repr

/-- What stays the same through a parse. -/
structure Setting where
  grammar : CompiledGrammar
  config : ParserConfig := {}
  predicates : Predicates := .always

namespace Setting

def network (env : Setting) : Network := env.grammar.network

def names (env : Setting) : Vocabulary := env.grammar.names

end Setting

/-- An action that was run, and the invocation it was run in. -/
structure ActionCall where
  rule : RuleId
  index : Nat
  invocation : Option InvocationId
  /-- How many invocations there were around that one. -/
  depth : Option Nat
deriving DecidableEq, Inhabited, Repr

/-- Why a rule method stopped. -/
inductive Halt where
  | failure (f : ParseFailure)
  /-- Lookahead for a decision never came to a verdict. -/
  | unsettled (d : DecisionId)
deriving DecidableEq, Inhabited, Repr

structure Recognizer where
  input : TokenCursor
  cache : PredictionCache
  forest : Forest := {}
  /-- The innermost live invocation. -/
  invocation : Option InvocationId := none
  state : Option StateId := none
  /-- The floors of the live left-recursive invocations, innermost first, above a zero. -/
  floors : List Int := [0]
  nesting : NestingLimit := {}
  /-- Errors in the order they were reported. -/
  errors : Array SyntaxError := #[]
  /-- How many listeners wait for errors. -/
  listeners : Nat := 0
  /-- What the listeners were told, once for each of them. -/
  heard : Array SyntaxError := #[]
  /-- The actions run so far. -/
  actions : Array ActionCall := #[]
  /-- The end of input was matched, not only reached. -/
  matchedEof : Bool := false
deriving Inhabited

namespace Recognizer

/-- A recognizer at the first token. -/
def start (env : Setting) (input : TokenCursor) (cache : PredictionCache) : Recognizer :=
  { input, cache, nesting := { limit := env.config.maxDepth } }

variable (env : Setting)

/-- The floor of the innermost left-recursive invocation. -/
def precedence (r : Recognizer) : Int := r.floors.head?.getD 0

/-- An operator of this level may extend the innermost left-recursive invocation. -/
def permits (r : Recognizer) (level : Int) : Bool := decide (r.precedence ≤ level)

def holds (r : Recognizer) (rule : RuleId) (index : Nat) : Bool :=
  env.predicates r.forest r.invocation rule index

def runAction (r : Recognizer) (rule : RuleId) (index : Nat) : Recognizer :=
  let call : ActionCall :=
    { rule, index, invocation := r.invocation, depth := r.invocation.map r.forest.depth }
  { r with actions := r.actions.push call }

/-- The names of the rules being parsed, innermost first. -/
def ruleStack (r : Recognizer) : List String :=
  match r.invocation with
  | none => []
  | some id => r.forest.ruleStack env.network.ruleNames id

/-- The states to which `id` and the invocations around it return, innermost first. -/
def returnsFrom (r : Recognizer) (id : Option InvocationId) : List StateId :=
  match id with
  | none => []
  | some id =>
    let callers := (r.forest.ancestors id).map fun i => (r.forest.get i).caller
    ((callers.takeWhile Option.isSome).filterMap fun c => c).filterMap env.network.followOf?

/-- The types acceptable at a state of an invocation. -/
def expectedAt (r : Recognizer) (state : Option StateId) (id : Option InvocationId) : TokenSet :=
  match state with
  | none => ∅
  | some s => env.network.expectedTokens s (r.returnsFrom env id)

def expected (r : Recognizer) : TokenSet := r.expectedAt env r.state r.invocation

/-- The types that may come after a live invocation, where recovery picks up again. -/
def recoverySet (r : Recognizer) : TokenSet :=
  ((r.returnsFrom env r.invocation).foldl
    (fun all s => all ∪ env.network.nextTokensAt s) ∅).erase TokenType.epsilon

/-- A mismatch at the current token. -/
def mismatch (r : Recognizer) (kind : MismatchKind) : RecognitionError where
  kind := kind
  offending := r.input.current
  state := r.state
  invocation := r.invocation
  expected := r.expected env

def inputMismatch (r : Recognizer) : RecognitionError := r.mismatch env .inputMismatch

/-- The current token is where the decision finds nothing it can begin with. -/
def noViableHere (r : Recognizer) (d : DecisionId) : RecognitionError :=
  r.mismatch env (.noViableAlternative d r.input.current)

def failedPredicate (r : Recognizer) (predicate : String) : RecognitionError :=
  let rule := (r.invocation.map fun id => (r.forest.get id).rule).getD 0
  r.mismatch env (.failedPredicate rule predicate)

/-- The mismatch of a level below the floor. -/
def checkPrecedence (r : Recognizer) (level : Int) : Except RecognitionError Unit :=
  if r.permits level then .ok ()
  else .error (r.failedPredicate env ("precpred(_ctx, " ++ toString level ++ ")"))

def addChild (r : Recognizer) (c : Child) : Recognizer :=
  match r.invocation with
  | none => r
  | some id => { r with forest := r.forest.addChild id c }

/-- Takes the current token into the innermost invocation, as an error if recovery dropped it. -/
def consume (r : Recognizer) (inRecovery : Bool) : Recognizer :=
  let t := r.input.current
  let r := { r with input := r.input.consume }
  if inRecovery then r.addChild (.error t)
  else if env.config.buildTrees then r.addChild (.token t)
  else r

/-- Opens an invocation of `rule` by `allocate`, if there may be one more live invocation. -/
def enter (r : Recognizer) (rule : RuleId) (allocate : Recognizer → InvocationId × Recognizer) :
    Except ParseFailure InvocationId × Recognizer :=
  match r.nesting.enter with
  | .error e => (.error (.nestingTooDeep (env.network.rule rule).name e.limit), r)
  | .ok nesting =>
    let (id, r) := allocate { r with nesting }
    (.ok id, { r with invocation := some id, state := some (env.network.rule rule).start })

/-- A new invocation of `rule`, called from where the parse stands. -/
def newInvocation (r : Recognizer) (rule : RuleId) (precedence : Int) : Invocation where
  rule := rule
  parent := r.invocation
  caller := if r.invocation.isSome then r.state else none
  precedence := precedence
  start := r.input.current.index

/-- Opens an invocation of `rule` below the innermost one. -/
def enterRule (r : Recognizer) (rule : RuleId) : Except ParseFailure InvocationId × Recognizer :=
  r.enter env rule fun r =>
    let node := r.newInvocation rule 0
    let (id, forest) := r.forest.alloc node
    (id, { r with forest }.addChild (.rule id))

/-- Opens an invocation of a left-recursive rule. It becomes a child only when it is closed. -/
def enterRecursion (r : Recognizer) (rule : RuleId) (precedence : Int) :
    Except ParseFailure InvocationId × Recognizer :=
  r.enter env rule fun r =>
    let node := r.newInvocation rule precedence
    let (id, forest) := r.forest.alloc node
    (id, { r with forest, floors := precedence :: r.floors })

/-- Closes the innermost invocation and goes back to the state that called it. -/
def exitRule (r : Recognizer) : Recognizer :=
  match r.invocation with
  | none => r
  | some id =>
    let stop := if r.matchedEof then r.input.current.index else r.input.previousIndex
    let node := r.forest.get id
    { r with
      forest := r.forest.modify id fun i => { i with stop }
      state := node.caller
      invocation := node.parent
      nesting := r.nesting.exit }

/-- Begins another round of a left-recursive rule: a new invocation takes the place of the innermost
one, which becomes its first child, called from `state`. -/
def pushRecursion (r : Recognizer) (state : StateId) (rule : RuleId) :
    Option InvocationId × Recognizer :=
  match r.invocation with
  | none => (none, r)
  | some previous =>
    let old := r.forest.get previous
    let node : Invocation :=
      { rule, parent := old.parent, caller := old.caller, precedence := old.precedence
        start := old.start, children := #[.rule previous] }
    let stop := r.input.previousIndex
    let (id, forest) := r.forest.alloc node
    let forest := forest.modify previous fun i =>
      { i with stop, parent := some id, caller := some state }
    (some id, { r with forest, invocation := some id })

/-- Closes the innermost left-recursive invocation and hangs it below `parent`. -/
def unrollRecursion (r : Recognizer) (parent : Option InvocationId) :
    Option InvocationId × Recognizer :=
  let floors := match r.floors with
    | _ :: f :: rest => f :: rest
    | few => few
  let r := { r with floors }
  match r.invocation with
  | none => (none, r)
  | some done =>
    let stop := r.input.previousIndex
    let caller := (r.forest.get done).caller
    let forest := r.forest.modify done fun i => { i with stop, parent }
    let forest := match parent with
      | none => forest
      | some p => forest.addChild p (.rule done)
    (some done, { r with
      forest
      invocation := parent
      state := caller
      nesting := r.nesting.exit })

/-- The lookahead for a decision made here. A rule that is not left-recursive has floor zero. -/
def simulation (r : Recognizer) (d : DecisionId) : Simulation where
  network := env.network
  predicates := env.predicates
  forest := r.forest
  invocation := r.invocation
  floor :=
    let rule := (env.network.state (env.network.decisionState d)).rule
    if (env.network.rule rule).leftRecursive then r.precedence else 0

/-- The mismatch of a decision that took lookahead from `start` and stopped at `offending`. -/
def noViable (r : Recognizer) (d : DecisionId) (start offending : Nat) : RecognitionError where
  kind := .noViableAlternative d ((r.input.get? start).getD .endOfInput)
  offending := (r.input.get? offending).getD .endOfInput
  state := r.state
  invocation := r.invocation
  expected := r.expected env

/-- Decides which alternative the input continues with. The cursor is where it was afterwards. -/
def predict (r : Recognizer) (d : DecisionId) : Except Halt Nat × Recognizer :=
  match r.cache.get? d with
  | none => (.error (.failure (.recognition (r.noViableHere env d))), r)
  | some a =>
    let ((p, a), input) := r.input.speculate fun input =>
      let (p, a, input) := (r.simulation env d).predict d env.config.mode a input
      ((p, a), input)
    let r := { r with input, cache := r.cache.set d a }
    match p with
    | .alternative alt => (.ok alt, r)
    | .noViable start offending =>
      (.error (.failure (.recognition (r.noViable env d start offending))), r)
    | .unsettled => (.error (.unsettled d), r)

/-- Records a mismatch on the innermost invocation, or on every live one. The first one recorded
stays. -/
def recordError (r : Recognizer) (e : RecognitionError) (everywhere : Bool) : Recognizer :=
  match r.invocation with
  | none => r
  | some id =>
    let ids := if everywhere then r.forest.ancestors id else [id]
    { r with forest := ids.foldl (fun f id =>
        f.modify id fun i => { i with error := i.error <|> some e }) r.forest }

/-- Reports an error and tells the listeners, unless it repeats one. -/
def notify (r : Recognizer) (e : SyntaxError) : Recognizer :=
  if r.errors.any fun other => other.key == e.key then r
  else
    let e := { e with context := r.ruleStack env }
    { r with
      errors := r.errors.push e
      heard := r.heard ++ Array.replicate r.listeners e }

/-- Back to the first token, with no invocations and no errors. What lookahead has found out is
kept, and so are listeners and the record of actions. -/
def reset (r : Recognizer) : Recognizer :=
  { r with
    input := r.input.seek 0
    forest := {}
    invocation := none
    state := none
    floors := [0]
    nesting := r.nesting.reset
    errors := #[]
    matchedEof := false }

end Recognizer

/-- Reported errors as diagnostics, by position. -/
def SyntaxError.diagnostics (errors : List SyntaxError) (config : QueueConfig) : List Diagnostic :=
  (errors.foldl (fun q e => (q.add ⟨e.toDiagnostic, e.line, e.column⟩).2)
    ({ config } : DiagnosticQueue)).flush.1

end AdaptiveParsing
