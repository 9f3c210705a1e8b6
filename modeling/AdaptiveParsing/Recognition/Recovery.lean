import AdaptiveParsing.Recognition.Recognizer
/-!
What a parser does about errors. Under the recovering policy an error is reported once and the
parser gets back on track: by dropping a token, by conjuring one, or by skipping to a token that can
come after one of the live invocations. Under the bailing policy the first error ends the parse.
-/

namespace AdaptiveParsing

inductive RecoveryPolicy where
  | recover
  /-- Give up at the first error. -/
  | bail
deriving DecidableEq, Inhabited, Repr

/-- A policy and what it remembers. -/
structure Strategy where
  policy : RecoveryPolicy := .recover
  /-- An error was reported and nothing matched since; further errors are not reported. -/
  recovering : Bool := false
  /-- Where recovery last stood in the input. -/
  lastErrorIndex : Option Nat := none
  /-- The states recovery was entered in since the last match. -/
  lastErrorStates : List StateId := []
  /-- Where a token was first found missing that the rest of its rule does not need. A mismatch
  found later is described from there. -/
  syncPoint : Option (Option InvocationId × StateId) := none
deriving DecidableEq, Inhabited, Repr

namespace Strategy

def beginError (s : Strategy) : Strategy := { s with recovering := true }

def endError (s : Strategy) : Strategy :=
  { s with recovering := false, lastErrorIndex := none, lastErrorStates := [] }

/-- As it was at first. -/
def reset (s : Strategy) : Strategy := { s.endError with syncPoint := none }

end Strategy

/-- A recognizer with the strategy that guides it. -/
structure Parser where
  recognizer : Recognizer
  strategy : Strategy := {}
deriving Inhabited

/-- A rule method over further effects: it reads and changes a parser, and may stop. What it changed
before it stopped stays. -/
abbrev ParserT (m : Type → Type) := ExceptT Halt (StateT Parser m)

/-- A rule method. -/
abbrev ParserM := ParserT Id

namespace Parser

variable (env : Setting)

def modifyRecognizer (p : Parser) (f : Recognizer → Recognizer) : Parser :=
  { p with recognizer := f p.recognizer }

/-- A token matched. -/
def reportMatch (p : Parser) : Parser := { p with strategy := p.strategy.endError }

/-- Takes the current token, as dropped if the parser is recovering. -/
def consume (p : Parser) : Parser :=
  let inRecovery := p.strategy.recovering
  p.modifyRecognizer fun r => r.consume env inRecovery

/-- The text that a decision could not go on with. -/
def decisionText (p : Parser) (start offending : Token) : String :=
  if start.isEof then "<EOF>"
  else match start.index, offending.index with
    | some first, some last => p.recognizer.input.text first last
    | _, _ => start.display env.names

/-- The report of a mismatch. -/
def describe (p : Parser) (e : RecognitionError) : SyntaxError :=
  match e.kind with
  | .noViableAlternative _ start =>
    (SyntaxError.ofToken .noViableAlternative
      ("no viable alternative at input " ++ Text.quote (p.decisionText env start e.offending))
      e.offending).withDecisionStart start
  | .inputMismatch =>
    .ofToken .mismatchedInput
      ("mismatched input " ++ e.offending.errorDisplay env.names ++ " expecting " ++
        e.expected.describe env.names)
      e.offending
  | .failedPredicate _ predicate =>
    let rule := (e.invocation.map fun id =>
      (env.network.rule (p.recognizer.forest.get id).rule).name).getD ""
    .ofToken .failedPredicate
      ("rule " ++ rule ++ " failed predicate: \x7b" ++ predicate ++ "\x7d?") e.offending

/-- Reports an error at the current token, unless the parser is recovering from another. -/
def reportOnce (p : Parser) (e : SyntaxError) : Parser :=
  if p.strategy.recovering then p
  else { recognizer := p.recognizer.notify env e, strategy := p.strategy.beginError }

def reportError (p : Parser) (e : RecognitionError) : Parser := p.reportOnce env (p.describe env e)

/-- The current token does not belong here. -/
def reportUnwanted (p : Parser) : Parser :=
  let t := p.recognizer.input.current
  p.reportOnce env <| .ofToken .extraneousInput
    ("extraneous input " ++ t.errorDisplay env.names ++ " expecting " ++
      (p.recognizer.expected env).describe env.names) t

/-- A token is missing before the current one. -/
def reportMissing (p : Parser) : Parser :=
  let t := p.recognizer.input.current
  p.reportOnce env <| .ofToken .missingToken
    ("missing " ++ (p.recognizer.expected env).describe env.names ++ " at " ++
      t.errorDisplay env.names) t

/-- If the token after the current one is expected, the current one is reported and dropped, and the
expected one is the answer. -/
def deleteToken? (p : Parser) : Option Token × Parser :=
  if p.recognizer.input.peek 2 ∈ p.recognizer.expected env then
    let p := (p.reportUnwanted env).consume env
    (some p.recognizer.input.current, p.reportMatch)
  else (none, p)

/-- The current token may come after the one the state wants. -/
def canInsert (p : Parser) : Bool :=
  let r := p.recognizer
  match r.state.bind fun s => (env.network.state s).transitions.head? with
  | none => false
  | some t => r.input.kind ∈ env.network.followingInContext t.target (r.returnsFrom env r.invocation)

/-- The token that is missing: of the least expected type, placed at the current token, or at the one
before it at the end of input. -/
def missingToken (p : Parser) : Token :=
  let r := p.recognizer
  let kind := (r.expected env).min?.getD TokenType.invalid
  let text := if kind.isEof then "<missing EOF>" else "<missing " ++ env.names.displayName kind ++ ">"
  let near := r.input.current
  let near := if near.isEof then (r.input.look? (-1)).getD near else near
  .conjure kind text near

/-- The mismatch at the current token, described from where a token was first found missing. -/
def mismatchAtSyncPoint (p : Parser) : RecognitionError :=
  match p.strategy.syncPoint with
  | none => p.recognizer.inputMismatch env
  | some (id, s) =>
    { kind := .inputMismatch
      offending := p.recognizer.input.current
      state := some s
      invocation := id
      expected := p.recognizer.expectedAt env (some s) id }

/-- Takes tokens, at most `fuel` of them, until one is of these types or the input ends. -/
def skipUpTo (types : TokenSet) : Nat → Parser → Parser
  | 0, p => p
  | fuel + 1, p =>
    let t := p.recognizer.input.kind
    if t.isEof || decide (t ∈ types) then p else skipUpTo types fuel (p.consume env)

/-- Takes tokens until one is of these types or the input ends. -/
def skipUntil (p : Parser) (types : TokenSet) : Parser :=
  skipUpTo env types p.recognizer.input.remaining p

/-- Stops the parse for good. -/
def cancel (p : Parser) (e : RecognitionError) : Except Halt Unit × Parser :=
  (.error (.failure (.cancelled e)), p.modifyRecognizer fun r => r.recordError e true)

/-- Recovery was entered before at this token and in this state, so skipping alone would not get
anywhere. -/
def isStuck (p : Parser) : Bool :=
  p.strategy.lastErrorIndex == some p.recognizer.input.position &&
    p.recognizer.state.any p.strategy.lastErrorStates.contains

/-- Gets back on track after an error was reported: drops the current token if that failed before,
and skips to one that may come after a live invocation. -/
def resynchronize (p : Parser) : Parser :=
  let p := if p.isStuck then p.consume env else p
  let r := p.recognizer
  let p := { p with strategy := { p.strategy with
    lastErrorIndex := some r.input.position
    lastErrorStates := r.state.toList ++ p.strategy.lastErrorStates } }
  p.skipUntil env (r.recoverySet env)

def recover (e : RecognitionError) : ParserM Unit := fun p =>
  match p.strategy.policy with
  | .bail => p.cancel e
  | .recover => (.ok (), p.resynchronize env)

/-- Finds a token to go on with in place of the current one, which does not match. -/
def recoverInline : ParserM Token := fun p =>
  match p.strategy.policy with
  | .bail =>
    let e := p.recognizer.inputMismatch env
    let (_, p) := (p.reportError env e).cancel e
    (.error (.failure (.cancelled e)), p)
  | .recover =>
    match p.deleteToken? env with
    | (some t, p) => (.ok t, p.consume env)
    | (none, p) =>
      if p.canInsert env then
        let p := p.reportMissing env
        (.ok (p.missingToken env), p)
      else (.error (.failure (.recognition (p.mismatchAtSyncPoint env))), p)

/-- Checks the current token against what the state expects, where nothing that is expected may be
empty: a token too many is dropped, and one that no alternative can begin with is an error. -/
def syncAt (s : StateId) : ParserM Unit := fun p =>
  let here := env.network.state s
  match here.kind with
  | .blockStart | .starBlockStart | .plusBlockStart | .starLoopEntry =>
    match p.deleteToken? env with
    | (some _, p) => (.ok (), p)
    | (none, p) =>
      let e := match here.decision with
        | some d => p.recognizer.noViableHere env d
        | none => p.recognizer.inputMismatch env
      (.error (.failure (.recognition e)), p)
  | .plusLoopBack | .starLoopBack =>
    let p := p.reportUnwanted env
    let r := p.recognizer
    (.ok (), p.skipUntil env (r.expected env ∪ r.recoverySet env))
  | _ => (.ok (), p)

/-- Checks the current token before a decision. -/
def sync : ParserM Unit := fun p =>
  if p.strategy.policy == .bail || p.strategy.recovering then (.ok (), p)
  else match p.recognizer.state with
    | none => (.ok (), p)
    | some s =>
      let next := env.network.nextTokensAt s
      if p.recognizer.input.kind ∈ next then
        (.ok (), { p with strategy := { p.strategy with syncPoint := none } })
      else if TokenType.epsilon ∈ next then
        let point := p.strategy.syncPoint <|> some (p.recognizer.invocation, s)
        (.ok (), { p with strategy := { p.strategy with syncPoint := point } })
      else syncAt env s p

end Parser

end AdaptiveParsing
