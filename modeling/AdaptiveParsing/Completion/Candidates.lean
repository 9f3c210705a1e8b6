import AdaptiveParsing.Ascending
import AdaptiveParsing.Completion.FollowSet
import AdaptiveParsing.Grammar.Lowering
import AdaptiveParsing.Lookahead.Closure
import AdaptiveParsing.Token.Cursor
import Std.Data.HashMap
import Std.Data.TreeMap
/-!
What can come next at a caret. The walk takes every way through the network that the tokens before
the caret allow, and at the caret collects the token types that can come next, each with the tokens
that have to follow it. Preferred rules are reported in place of the tokens they begin with. The
walk remembers where a rule entered at a token can end; since it need not end, it is given a number
of steps.
-/

namespace AdaptiveParsing

/-- A preferred rule that can begin at the caret. -/
structure CandidateRule where
  /-- The index of the token it would begin at. -/
  startIndex : Nat
  /-- The rules called on the way to it, outermost first. -/
  ruleList : List RuleId
deriving DecidableEq, Inhabited, Repr

/-- What can come next. -/
structure Candidates where
  /-- For each type the tokens that have to come after it. -/
  tokens : Std.TreeMap TokenType (List TokenType) := ∅
  rules : Std.TreeMap RuleId CandidateRule := ∅
  /-- The walk was stopped, and this is not all. -/
  cancelled : Bool := false

structure CompletionOptions where
  /-- Types that are not reported. -/
  ignored : List TokenType := []
  /-- Rules reported in place of the tokens they begin with. -/
  preferred : List RuleId := []
  /-- Of nested preferred rules the innermost is reported, not the outermost. -/
  innermostFirst : Bool := false
  /-- The walk is to stop as soon as it looks. -/
  stop : Bool := false
deriving DecidableEq, Inhabited, Repr

/-- A call on the way to the caret. -/
structure OpenRule where
  rule : RuleId
  startIndex : Nat
deriving DecidableEq, Inhabited, Repr

/-- What a walk depends on: the network and what its rules begin with, the predicates, the options,
and the tokens up to the caret, with their indices. -/
structure CompletionInput where
  network : Network
  followSets : RuleId → FollowSets
  predicates : Predicates
  options : CompletionOptions
  tokens : Array (Nat × TokenType)

/-- What a walk has found and what it remembers. -/
structure CandidateWalk where
  candidates : Candidates := {}
  /-- For a rule and the place of its first token, the places of the tokens after its last. -/
  ends : Std.HashMap (RuleId × Nat) (List Nat) := ∅

/-- A place in the network and among the tokens. -/
structure WalkItem where
  state : StateId
  position : Nat
deriving DecidableEq, Inhabited, Repr

/-- What two lists have in common at their beginning. -/
def commonStart : List TokenType → List TokenType → List TokenType
  | a :: as, b :: bs => if a = b then a :: commonStart as bs else []
  | _, _ => []

namespace Candidates

/-- A type found at the beginning of a rule. Two different runs of tokens after it leave none. -/
def addFromRule (c : Candidates) (t : TokenType) (following : List TokenType) : Candidates :=
  { c with tokens := c.tokens.alter t fun
      | none => some following
      | some known => some (if known = following then known else []) }

/-- A type found on an edge. Of two different runs of tokens after it their common start is left. -/
def addFromEdge (c : Candidates) (t : TokenType) (following : List TokenType) : Candidates :=
  { c with tokens := c.tokens.alter t fun
      | none => some following
      | some known => some (commonStart known following) }

/-- A type that anything may follow. -/
def addOpen (c : Candidates) (t : TokenType) : Candidates :=
  { c with tokens := c.tokens.insert t [] }

/-- A preferred rule. One that is known with the same calls stays as it is. -/
def addRule (c : Candidates) (r : OpenRule) (calls : List RuleId) : Candidates :=
  if c.rules[r.rule]?.any fun known => known.ruleList == calls then c
  else { c with rules := c.rules.insert r.rule ⟨r.startIndex, calls⟩ }

end Candidates

namespace CandidateWalk

def modify (w : CandidateWalk) (f : Candidates → Candidates) : CandidateWalk :=
  { w with candidates := f w.candidates }

end CandidateWalk

namespace CompletionInput

variable (input : CompletionInput)

/-- Whether the walk is over, which it remembers. -/
def checkStop (w : CandidateWalk) : Bool × CandidateWalk :=
  if w.candidates.cancelled then (true, w)
  else if input.options.stop then (true, w.modify fun c => { c with cancelled := true })
  else (false, w)

def isIgnored (t : TokenType) : Bool := input.options.ignored.contains t

/-- The run of tokens up to the first that is ignored. -/
def visibleRun (run : List TokenType) : List TokenType := run.takeWhile fun t => !input.isIgnored t

/-- There is no token after this place. -/
def atCaret (position : Nat) : Bool := decide (input.tokens.size ≤ position + 1)

def tokenAt (position : Nat) : Nat × TokenType := input.tokens.getD position (0, TokenType.invalid)

/-- The preferred rule to report for these calls, outermost first, with those before it. -/
def preferredOn (calls : List OpenRule) : Option (OpenRule × List RuleId) :=
  let splits := calls.zipIdx.filter fun (r, _) => input.options.preferred.contains r.rule
  (if input.options.innermostFirst then splits.getLast? else splits.head?).map fun (r, i) =>
    (r, (calls.take i).map OpenRule.rule)

/-- Reports the preferred rule among the calls, if there is one. -/
def reportPreferred (calls : List OpenRule) (w : CandidateWalk) : Bool × CandidateWalk :=
  match input.preferredOn calls with
  | none => (false, w)
  | some (r, before) => (true, w.modify fun c => c.addRule r before)

/-- Reports what a rule begins with. `calls` are the calls up to it, outermost first. -/
def addBeginnings (calls : List OpenRule) (startIndex : Nat) (sets : Array FollowSet)
    (w : CandidateWalk) : CandidateWalk :=
  sets.foldl (fun w set =>
    match input.reportPreferred (calls ++ set.path.map fun r => ⟨r, startIndex⟩) w with
    | (true, w) => w
    | (false, w) =>
      let following := input.visibleRun set.followedBy
      w.modify fun c => (set.types.toList.filter fun t => !input.isIgnored t).foldl
        (fun c t => c.addFromRule t following) c) w

/-- Reports the types of an edge at the caret, unless a preferred rule stands for them. -/
def addEdge (calls : List OpenRule) (t : Transition) (types : TokenSet) (w : CandidateWalk) :
    CandidateWalk :=
  match input.reportPreferred calls w with
  | (true, w) => w
  | (false, w) =>
    let shown := types.toList.filter fun t => !input.isIgnored t
    match t.kind with
    | .wildcard => w.modify fun c => shown.foldl Candidates.addOpen c
    | _ =>
      let following :=
        if types.size = 1 then input.visibleRun (input.network.fixedRun t.target) else []
      w.modify fun c => shown.foldl (fun c t => c.addFromEdge t following) c

/-- At the caret a rule is not walked through: what it begins with is known. The answer tells
whether it can be passed without a token. -/
def atCaretIn (calls : List OpenRule) (rule : RuleId) (position : Nat) (w : CandidateWalk) :
    List Nat × CandidateWalk :=
  let sets := input.followSets rule
  let w := if input.options.preferred.contains rule then (input.reportPreferred calls w).2
    else input.addBeginnings calls (input.tokenAt position).1 sets.sets w
  (if sets.isExhaustive then [] else [position], w)

mutual

/-- Walks through `rule` from the token at `position`; the answer is the places it can end at,
ascending. `outer` are the open calls, innermost first, and `floor` the floor of the innermost
left-recursive one. -/
def walkRule (fuel : Nat) (rule : RuleId) (position : Nat) (outer : List OpenRule)
    (floor : Option Int) (precedence : Int) (w : CandidateWalk) :
    Option (List Nat × CandidateWalk) :=
  match fuel with
  | 0 => none
  | fuel + 1 =>
    match w.ends[(rule, position)]? with
    | some known => some (known, w)
    | none =>
      match input.checkStop w with
      | (true, w) => some ([], w)
      | (false, w) =>
        let (startIndex, kind) := input.tokenAt position
        let calls := { rule, startIndex } :: outer
        if input.atCaret position then some (input.atCaretIn calls.reverse rule position w)
        else
          let sets := input.followSets rule
          if sets.isExhaustive && !sets.combined.contains kind then some ([], w)
          else
            let here := input.network.rule rule
            let floor := if here.leftRecursive then some precedence else floor
            match walkItems fuel calls floor [⟨here.start, position⟩] [] w with
            | none => none
            | some (found, w) =>
              if w.candidates.cancelled then some (found, w)
              else some (found, { w with ends := w.ends.insert (rule, position) found })

/-- Goes on from each item, the latest first, until there is none. `found` are the places at which
the end of the rule was reached. -/
def walkItems (fuel : Nat) (calls : List OpenRule) (floor : Option Int) (items : List WalkItem)
    (found : List Nat) (w : CandidateWalk) : Option (List Nat × CandidateWalk) :=
  match fuel with
  | 0 => none
  | fuel + 1 =>
    match items with
    | [] => some (found, w)
    | item :: items =>
      match input.checkStop w with
      | (true, w) => some (found, w)
      | (false, w) =>
        let here := input.network.state item.state
        if here.isRuleStop then
          walkItems fuel calls floor items (insertAscending item.position found) w
        else
          match walkEdges fuel calls floor item.position here.transitions items w with
          | none => none
          | some (items, w) => walkItems fuel calls floor items found w

/-- Follows the edges of one state and adds the items they lead to. -/
def walkEdges (fuel : Nat) (calls : List OpenRule) (floor : Option Int) (position : Nat)
    (edges : List Transition) (items : List WalkItem) (w : CandidateWalk) :
    Option (List WalkItem × CandidateWalk) :=
  match fuel with
  | 0 => none
  | fuel + 1 =>
    match edges with
    | [] => some (items, w)
    | t :: edges =>
      let goOn (here : Nat) : List WalkItem := ⟨t.target, here⟩ :: items
      match t.kind with
      | .rule callee back precedence =>
        match walkRule fuel callee position calls floor precedence w with
        | none => none
        | some (ends, w) =>
          let items := ends.foldl (fun items e => ⟨back, e⟩ :: items) items
          walkEdges fuel calls floor position edges items w
      | .predicate rule index _ =>
        let items := if input.predicates {} none rule index then goOn position else items
        walkEdges fuel calls floor position edges items w
      | .precedence level =>
        let items := if floor.all fun f => f ≤ level then goOn position else items
        walkEdges fuel calls floor position edges items w
      | kind =>
        match input.network.label? kind with
        | none => walkEdges fuel calls floor position edges (goOn position) w
        | some types =>
          if !input.atCaret position then
            let taken := kind == .wildcard || types.contains (input.tokenAt position).2
            walkEdges fuel calls floor position edges
              (if taken then goOn (position + 1) else items) w
          else
            let w := if kind == .wildcard || !types.isEmpty then
              input.addEdge calls.reverse t types w else w
            walkEdges fuel calls floor position edges items w

end

end CompletionInput

/-- The default-channel tokens from `start` up to the first at or after the caret, or the end of
input, with their indices. -/
def tokensToCaret (caret : Nat) : List Token → List (Nat × TokenType)
  | [] => []
  | t :: rest =>
    let index := t.index.getD 0
    if t.channel = defaultChannel then
      (index, t.kind) ::
        if caret ≤ index || t.isEof then [] else tokensToCaret caret rest
    else if t.isEof then [] else tokensToCaret caret rest

/-- What can come next at token `caret`, if the walk is done within `fuel` steps. The walk begins
with the first rule at the first token, or with the rule of `context` at its first token. -/
def CompiledGrammar.complete (g : CompiledGrammar) (predicates : Predicates)
    (options : CompletionOptions) (input : TokenCursor) (caret : Nat) (context : Option Invocation)
    (fuel : Nat) : Option Candidates :=
  let n := g.network
  let rule := (context.map Invocation.rule).getD 0
  let start := (context.bind Invocation.start).getD 0
  let tokens := (tokensToCaret caret (input.tokens.toList.drop start)).toArray
  if n.rules.isEmpty || tokens.isEmpty then some {}
  else
    let table := (Array.range n.rules.size).map fun r => Thunk.mk fun _ => n.followSets r
    let walk : CompletionInput :=
      { network := n, predicates, options, tokens
        followSets := fun r => (table[r]?.map Thunk.get).getD {} }
    (walk.walkRule fuel rule 0 [] none 0 {}).map fun (_, w) => w.candidates

end AdaptiveParsing
