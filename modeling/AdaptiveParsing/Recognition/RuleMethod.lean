import AdaptiveParsing.Recognition.Recovery
/-!
Rule methods: what a parser for a rule is made of. Tokens are matched with recovery in place, and a
rule runs its body between opening and closing its invocation. A mismatch inside the body is
reported and recovered from at the end of the innermost rule, and every other failure passes
through; the invocation is closed in either case.
-/

namespace AdaptiveParsing.Parser

variable (env : Setting)

/-- Takes the current token, which matches. -/
def takeMatch : ParserM Token := fun p =>
  let p := p.reportMatch
  (.ok p.recognizer.input.current, p.consume env)

/-- Recovers in place. A conjured token becomes a child as an error. -/
def recoverToken : ParserM Token := do
  let t ← recoverInline env
  if t.isConjured then modify fun p => p.modifyRecognizer fun r => r.addChild (.error t)
  pure t

/-- Takes a token of type `t`, or recovers. -/
def matchToken (t : TokenType) : ParserM Token := do
  if (← get).recognizer.input.kind = t then
    if t.isEof then modify fun p => p.modifyRecognizer fun r => { r with matchedEof := true }
    takeMatch env
  else recoverToken env

/-- Takes a token of one of these types, or recovers. -/
def matchSet (types : TokenSet) : ParserM Token := do
  if (← get).recognizer.input.kind ∈ types then takeMatch env else recoverToken env

/-- Takes a token of any type a lexer gives out, or recovers. -/
def matchAny : ParserM Token := do
  if TokenType.firstUser ≤ (← get).recognizer.input.kind then takeMatch env else recoverToken env

/-- Takes the current token, whatever it is. -/
def takeToken : ParserM Token := fun p =>
  (.ok p.recognizer.input.current, p.consume env)

/-- Stops with a mismatch. -/
def fail {α : Type} (e : RecognitionError) : ParserM α := throw (.failure (.recognition e))

/-- Runs an operation of the recognizer that may stop. -/
def onRecognizer {ε α : Type} (cause : ε → Halt) (f : Recognizer → Except ε α × Recognizer) :
    ParserM α := fun p =>
  let (outcome, r) := f p.recognizer
  (outcome.mapError cause, { p with recognizer := r })

/-- Opens an invocation of `rule`. -/
def enterRule (rule : RuleId) : ParserM InvocationId :=
  onRecognizer .failure fun r => r.enterRule env rule

/-- Opens an invocation of the left-recursive `rule` with a floor. -/
def enterRecursion (rule : RuleId) (precedence : Int) : ParserM InvocationId :=
  onRecognizer .failure fun r => r.enterRecursion env rule precedence

/-- The alternative of decision `d` that the input continues with. -/
def predict (d : DecisionId) : ParserM Nat := onRecognizer id fun r => r.predict env d

/-- Stops if an operator of this level may not extend the innermost left-recursive invocation. -/
def checkPrecedence (level : Int) : ParserM Unit := do
  match (← get).recognizer.checkPrecedence env level with
  | .ok () => pure ()
  | .error e => fail e

/-- Reports and recovers from a mismatch, and passes on every other outcome. -/
def handle (outcome : Except Halt Unit) : ParserM Unit :=
  match outcome with
  | .error (.failure (.recognition e)) => do
    modify fun p => (p.modifyRecognizer fun r => r.recordError e false).reportError env e
    recover env e
  | .ok () => pure ()
  | .error halt => throw halt

/-- Runs `body` as an invocation of `rule`. -/
def withRule {m : Type → Type} [Monad m] (rule : RuleId) (body : ParserT m Unit) :
    ParserT m InvocationId := fun p => do
  match enterRule env rule p with
  | (.error halt, p) => pure (.error halt, p)
  | (.ok id, p) =>
    let (outcome, p) ← body p
    let (outcome, p) := handle env outcome p
    pure (outcome.map fun _ => id, p.modifyRecognizer Recognizer.exitRule)

/-- Runs `body` as an invocation of the left-recursive `rule` with a floor. The answer is the
invocation of the last round. -/
def withRecursionRule {m : Type → Type} [Monad m] (rule : RuleId) (precedence : Int)
    (body : ParserT m Unit) : ParserT m InvocationId := fun p => do
  let parent := p.recognizer.invocation
  match enterRecursion env rule precedence p with
  | (.error halt, p) => pure (.error halt, p)
  | (.ok id, p) =>
    let (outcome, p) ← body p
    let (outcome, p) := handle env outcome p
    let (done, r) := p.recognizer.unrollRecursion parent
    pure (outcome.map fun _ => done.getD id, { p with recognizer := r })

/-- Back to the first token. -/
def reset (p : Parser) : Parser :=
  { recognizer := p.recognizer.reset, strategy := p.strategy.reset }

end AdaptiveParsing.Parser
