import AdaptiveParsing.Proofs.Recognition.Resetting
import AdaptiveParsing.Proofs.Token.Hidden
/-!
Hidden tokens have no part in a parse. Inputs with the same visible tokens are mirrors of each other
(`Mirror.faithful_visible`), so parses of them run in lockstep (`Interpreter.Mirrors.parse`) unless a
predicate looks at where tokens are (`Predicates.Blind`). Main statement: `Interpreter.parse_visible`.
-/

namespace AdaptiveParsing

/-- The same errors at places that stand for each other; messages quote the source, hidden tokens
included. -/
structure SameError (R : Nat → Nat → Prop) (e e' : SyntaxError) : Prop where
  code : e.code = e'.code
  tokenIndex : Option.Rel R e.tokenIndex e'.tokenIndex
  context : e.context = e'.context

/-- Inputs that differ in the places of their tokens. -/
def Mirror.anywhere : Mirror where
  index _ _ := True
  token := SameToken fun _ _ => True
  cursor _ _ := True

/-- The predicates do not look at the places of tokens. -/
def Predicates.Blind (predicates : Predicates) : Prop :=
  ∀ f f' : Forest, f.Mirrors .anywhere f' → predicates f = predicates f'

theorem Predicates.blind_always : Predicates.always.Blind := fun _ _ _ => rfl

/-- What stands for each other through hidden tokens is the same but for its place. -/
theorem Forest.Mirrors.anywhere {channel : Nat} {tokens tokens' : Array Token} {f f' : Forest}
    (h : f.Mirrors (.visible channel tokens tokens') f') : f.Mirrors .anywhere f' := by
  refine h.mono (fun _ _ _ => trivial) fun t t' ht => ?_
  have hsame : SameToken (SamePlace channel tokens tokens') t t' := ht
  exact ⟨hsame.unplaced, option_rel_mono hsame.index fun _ _ _ => trivial⟩

namespace ParseMirror

/-- Two inputs that differ in hidden tokens, and errors that differ in places and messages. -/
def visible (channel : Nat) (tokens tokens' : Array Token) : ParseMirror :=
  { Mirror.visible channel tokens tokens' with error := SameError (SamePlace channel tokens tokens') }

variable {env : Setting} {channel : Nat} {tokens tokens' : Array Token}

theorem faithful_visible (h : SameInput channel tokens tokens') (hp : env.predicates.Blind) :
    (visible channel tokens tokens').Faithful env where
  toFaithful := Mirror.faithful_visible h
  predicates hf := hp _ _ hf.anywhere
  code he := he.code
  tokenIndex he := he.tokenIndex
  context he _ := ⟨he.code, he.tokenIndex, rfl⟩
  ofToken ht _ _ := ⟨rfl, ht.index, rfl⟩
  describe := by
    intro p p' _ e e' d start start' he hs hk hk'
    have hkeep : ∀ (e : SyntaxError) (start : Token), (e.withDecisionStart start).code = e.code ∧
        (e.withDecisionStart start).tokenIndex = e.tokenIndex ∧
        (e.withDecisionStart start).context = e.context := by
      intro e start
      unfold SyntaxError.withDecisionStart
      split <;> exact ⟨rfl, rfl, rfl⟩
    show SameError _ (p.describe env e) (p'.describe env e')
    simp only [Parser.describe, hk, hk']
    obtain ⟨hc, hi, hx⟩ := hkeep (.ofToken .noViableAlternative _ e.offending) start
    obtain ⟨hc', hi', hx'⟩ := hkeep (.ofToken .noViableAlternative _ e'.offending) start'
    exact ⟨hc.trans hc'.symm, hi ▸ hi' ▸ he.offending.index, hx.trans hx'.symm⟩

end ParseMirror

/-- Parses with the same outcome, the same invocations and the same errors, at places that stand for
each other. -/
structure SameParse (channel : Nat) (tokens tokens' : Array Token)
    (x y : Except Halt InvocationId × Interpreter) : Prop where
  outcome : SameOutcome (.visible channel tokens tokens') Eq x.1 y.1
  forest : x.2.recognizer.forest.Mirrors (.visible channel tokens tokens') y.2.recognizer.forest
  errors : List.Forall₂ (SameError (SamePlace channel tokens tokens'))
    x.2.recognizer.errors.toList y.2.recognizer.errors.toList

namespace Interpreter

variable {env : Setting} {tokens tokens' : Array Token} {channel : Nat}

/-- Parses of inputs with the same visible tokens are the same, whether lookahead starts with what
earlier parses have found out or with nothing. -/
theorem parse_visible {cache : PredictionCache} (hp : env.predicates.Blind)
    (hcache : PredictionCache.History env.network cache)
    (h : visibleTokens channel tokens = visibleTokens channel tokens')
    (policy : RecoveryPolicy) (rule : RuleId) (fuel : Nat) :
    Option.Rel
      (SameParse channel (TokenCursor.ofTokens tokens channel).tokens
        (TokenCursor.ofTokens tokens' channel).tokens)
      (parse env fuel rule { parser := {
        recognizer := .start env (.ofTokens tokens channel) cache, strategy := { policy } } })
      (parse env fuel rule { parser := {
        recognizer := .start env (.ofTokens tokens' channel) cache, strategy := { policy } } }) := by
  have hm := ParseMirror.faithful_visible (SameInput.ofTokens h) hp
  have hstart : Interpreter.Mirrors
      (.visible channel (TokenCursor.ofTokens tokens channel).tokens
        (TokenCursor.ofTokens tokens' channel).tokens)
      { parser := {
        recognizer := .start env (.ofTokens tokens channel) cache, strategy := { policy } } }
      { parser := {
        recognizer := .start env (.ofTokens tokens' channel) cache, strategy := { policy } } } :=
    ⟨⟨⟨SameInput.sameCursor_ofTokens h, hcache.renumbers, .empty, rfl, rfl, rfl, rfl, .nil, rfl⟩,
      ⟨rfl, rfl, .none, rfl, rfl⟩⟩, rfl⟩
  exact option_rel_mono (hstart.parse hm fuel rule) fun _ _ hstep =>
    ⟨hstep.outcome, hstep.state.parser.recognizer.forest, hstep.state.parser.recognizer.errors⟩

end Interpreter

/-- The input A A B. -/
def strayTokens : Array Token := #[{ kind := 1 }, { kind := 1 }, { kind := 2 }]

/-- The same with tokens of another channel before and between. -/
def spacedTokens : Array Token :=
  #[{ kind := 3, channel := 1 }, { kind := 1 }, { kind := 3, channel := 1 }, { kind := 1 },
    { kind := 3, channel := 1 }, { kind := 2 }]

/-- The second token of A A B is reported, and so it is with hidden tokens before it. -/
theorem parse_spaced :
    strayTokens ≠ spacedTokens ∧
    Option.Rel
      (SameParse defaultChannel (TokenCursor.ofTokens strayTokens defaultChannel).tokens
        (TokenCursor.ofTokens spacedTokens defaultChannel).tokens)
      (Interpreter.parse nestedSetting 20 0
        (.new nestedSetting (.ofTokens strayTokens defaultChannel) .recover))
      (Interpreter.parse nestedSetting 20 0
        (.new nestedSetting (.ofTokens spacedTokens defaultChannel) .recover)) ∧
    (Interpreter.parse nestedSetting 20 0
        (.new nestedSetting (.ofTokens spacedTokens defaultChannel) .recover)).map
      (fun y => y.2.recognizer.errors.toList.map SyntaxError.tokenIndex) = some [some 3] := by
  refine ⟨by decide, ?_, by cbv⟩
  exact Interpreter.parse_visible Predicates.blind_always .fresh (by decide) .recover 0 20

end AdaptiveParsing
