import AdaptiveParsing.Token.Set
/-!
Transition networks: a grammar as a graph with a start and a stop state for every rule. Consuming
edges match tokens, calls lead into other rules, and the remaining edges are taken for free or
under a condition. A state with several edges is a decision between them.
-/

namespace AdaptiveParsing

/-- The number of a state in its network. -/
abbrev StateId := Nat

/-- The number of a rule in its network. -/
abbrev RuleId := Nat

/-- The number of a decision in its network. -/
abbrev DecisionId := Nat

/-- The part a state plays in its rule. -/
inductive StateKind where
  | basic
  | ruleStart
  | ruleStop
  /-- Entry of a block of alternatives. -/
  | blockStart
  /-- Entry of the block that a one-or-more loop repeats. -/
  | plusBlockStart
  /-- Entry of the block that a zero-or-more loop repeats. -/
  | starBlockStart
  | blockEnd
  /-- Choice between another round of a zero-or-more loop and its end. -/
  | starLoopEntry
  | starLoopBack
  /-- Choice between another round of a one-or-more loop and its end. -/
  | plusLoopBack
  | loopEnd
deriving DecidableEq, Inhabited, Repr

def StateKind.isBlockStart : StateKind → Bool
  | blockStart | plusBlockStart | starBlockStart => true
  | _ => false

/-- What it takes to follow an edge. -/
inductive EdgeKind where
  | epsilon
  | atom (t : TokenType)
  /-- Any type from `lo` to `hi`. -/
  | range (lo hi : TokenType)
  | set (types : TokenSet)
  /-- Any type a lexer gives out but these. -/
  | notSet (types : TokenSet)
  /-- Any type a lexer gives out. -/
  | wildcard
  /-- A call: the edge leads to the start of `rule`, and once that is done the caller goes on at
  `follow`. A left-recursive rule is entered with `precedence` as its floor. -/
  | rule (rule : RuleId) (follow : StateId) (precedence : Int)
  /-- A condition the user supplies. A context-dependent one looks at the invocation it is in. -/
  | predicate (rule : RuleId) (index : Nat) (contextDependent : Bool)
  /-- Open while the floor of the invocation is at most `level`. -/
  | precedence (level : Int)
  /-- Code the user supplies. -/
  | action (rule : RuleId) (index : Nat)
deriving DecidableEq, Inhabited, Repr

namespace EdgeKind

/-- Following the edge takes a token. -/
def isConsuming : EdgeKind → Bool
  | atom _ | range _ _ | set _ | notSet _ | wildcard => true
  | _ => false

/-- Whether the edge takes a token of type `t`, where user types run from `lo` to `hi`. -/
def Matches (e : EdgeKind) (t lo hi : TokenType) : Prop :=
  match e with
  | atom a => a = t
  | range first last => first ≤ t ∧ t ≤ last
  | set types => t ∈ types
  | notSet types => lo ≤ t ∧ t ≤ hi ∧ t ∉ types
  | wildcard => lo ≤ t ∧ t ≤ hi
  | _ => False

instance (e : EdgeKind) (t lo hi : TokenType) : Decidable (e.Matches t lo hi) := by
  unfold Matches; split <;> infer_instance

/-- The types a consuming edge takes, where user types run from `lo` to `hi`. -/
def label? (e : EdgeKind) (lo hi : TokenType) : Option TokenSet :=
  match e with
  | atom a => some (.singleton a)
  | range first last => some (.ofRange first last)
  | set types => some types
  | notSet types => some (types.complement lo hi)
  | wildcard => some (.ofRange lo hi)
  | _ => none

theorem label?_isSome {e : EdgeKind} {lo hi : TokenType} :
    (e.label? lo hi).isSome = e.isConsuming := by cases e <;> rfl

end EdgeKind

/-- An edge of a network. -/
structure Transition where
  target : StateId
  kind : EdgeKind
deriving DecidableEq, Inhabited, Repr

namespace Transition

def epsilon (target : StateId) : Transition := ⟨target, .epsilon⟩

def isConsuming (t : Transition) : Bool := t.kind.isConsuming

/-- The rule a call enters and the state it returns to. -/
def call? (t : Transition) : Option (RuleId × StateId) :=
  match t.kind with
  | .rule rule follow _ => some (rule, follow)
  | _ => none

end Transition

/-- A node of a network. -/
structure NetworkState where
  kind : StateKind
  rule : RuleId
  transitions : List Transition := []
  /-- The decision between the edges, if there are several. -/
  decision : Option DecisionId := none
  /-- The loop of a left-recursive rule: another round starts a new invocation. -/
  precedenceDecision : Bool := false
deriving DecidableEq, Inhabited, Repr

namespace NetworkState

/-- The state's first edge takes a token; such an edge is a state's only one. -/
def isConsuming (s : NetworkState) : Bool := s.transitions.head?.any Transition.isConsuming

def isRuleStop (s : NetworkState) : Bool := s.kind == .ruleStop

end NetworkState

/-- A rule with its entry and exit. -/
structure Rule where
  name : String
  start : StateId
  stop : StateId
  /-- Its operators are tried in a loop guarded by precedence. -/
  leftRecursive : Bool := false
deriving DecidableEq, Inhabited, Repr

/-- A grammar as a graph, with tables derived from it. -/
structure Network where
  states : Array NetworkState := #[]
  rules : Array Rule := #[]
  /-- The state of each decision. -/
  decisions : Array StateId := #[]
  maxType : TokenType := TokenType.invalid
  /-- For each state the types that can come next within its rule; the empty word if the rule can
  end before any. -/
  nextTokens : Array TokenSet := #[]
  /-- For each rule the states its calls return to. -/
  ruleFollow : Array (List StateId) := #[]
  /-- For each state the precedence argument of the call that returns there. -/
  returnPrecedence : Array (Option Int) := #[]
  /-- How many edges there are. -/
  edgeCount : Nat := 0
deriving DecidableEq, Inhabited, Repr

namespace Network

/-- The state with number `s`; a number out of range stands for a state without edges. -/
def state (n : Network) (s : StateId) : NetworkState := n.states.getD s default

def rule (n : Network) (r : RuleId) : Rule := n.rules.getD r default

def ruleNames (n : Network) : Array String := n.rules.map Rule.name

def ruleByName? (n : Network) (name : String) : Option RuleId :=
  n.rules.findIdx? fun r => r.name == name

/-- The state that makes a decision. -/
def decisionState (n : Network) (d : DecisionId) : StateId := n.decisions.getD d 0

/-- The types that can come next at `s` within its rule. -/
def nextTokensAt (n : Network) (s : StateId) : TokenSet := n.nextTokens.getD s ∅

/-- The states that calls of `r` return to. -/
def followStates (n : Network) (r : RuleId) : List StateId := n.ruleFollow.getD r []

/-- The precedence argument of the call that returns to `s`. -/
def returnPrecedenceAt (n : Network) (s : StateId) : Option Int := (n.returnPrecedence[s]?).join

/-- Where the call that leaves `s` returns to. -/
def followOf? (n : Network) (s : StateId) : Option StateId :=
  (n.state s).transitions.findSome? fun t => t.call?.map Prod.snd

/-- The types a consuming edge takes in this network. -/
def label? (n : Network) (e : EdgeKind) : Option TokenSet := e.label? TokenType.firstUser n.maxType

/-- The edge takes a token of type `t`. -/
def Matches (n : Network) (e : EdgeKind) (t : TokenType) : Prop :=
  e.Matches t TokenType.firstUser n.maxType

instance (n : Network) (e : EdgeKind) (t : TokenType) : Decidable (n.Matches e t) :=
  inferInstanceAs (Decidable (e.Matches t TokenType.firstUser n.maxType))

end Network

end AdaptiveParsing
