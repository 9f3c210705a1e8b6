import AdaptiveParsing.Network.Basic
import Std.Data.HashSet
/-!
Which token types can come next. From a state the walk follows every edge that takes no token, into
called rules and back to where they return. Where the rule of the first state ends, the walk stops
with the empty word, or goes on in the callers if it is given their return states.
-/

namespace AdaptiveParsing

/-- Where a walk stands: a state, the returns of the calls it is inside, and how many callers of
the first state are left. -/
structure WalkPoint where
  state : StateId
  returns : List StateId
  callers : Option Nat
deriving DecidableEq, Hashable

/-- What a walk has found and where it has been. -/
structure FollowingWalk where
  found : TokenSet := ∅
  seen : Std.HashSet WalkPoint := ∅

namespace Network

variable (n : Network)

/-- Walks on from `s`. `callers` are the return states of the callers if they are known, `called`
the rules entered on the way, which are not entered again, and `returns` the calls the walk is
inside, innermost first. A point is visited once. `fuel` bounds the length of the way. -/
def walkFollowing : Nat → StateId → Option (List StateId) → List RuleId → List StateId →
    FollowingWalk → FollowingWalk
  | 0, _, _, _, _, w => w
  | fuel + 1, s, callers, called, returns, w =>
    let point : WalkPoint := ⟨s, returns, callers.map List.length⟩
    if w.seen.contains point then w
    else
      let w := { w with seen := w.seen.insert point }
      let here := n.state s
      if here.isRuleStop then
        match returns with
        | back :: returns =>
          walkFollowing fuel back callers (called.erase here.rule) returns w
        | [] =>
          match callers with
          | none => { w with found := w.found.insert TokenType.epsilon }
          | some [] => { w with found := w.found.insert TokenType.eof }
          | some (back :: outer) =>
            walkFollowing fuel back (some outer) (called.erase here.rule) [] w
      else
        here.transitions.foldl (fun w t =>
          match t.kind with
          | .rule r follow _ =>
            if called.contains r then w
            else walkFollowing fuel t.target callers (r :: called) (follow :: returns) w
          | kind =>
            match n.label? kind with
            | some types => { w with found := w.found ∪ types }
            | none => walkFollowing fuel t.target callers called returns w) w

/-- A bound on the points a walk can visit: the calls it is inside are of different rules. -/
def walkBound (callers : Nat) : Nat :=
  Nat.pow (n.states.size + 1) (n.rules.size + 1) * (callers + 2) + 1

/-- The types that can come next at `s`. With `callers`, the return states of the live invocations
from the innermost outwards, the walk goes on through them, and past the last of them the input can
end; without, the end of the rule gives the empty word. -/
def following (s : StateId) (callers : Option (List StateId)) : TokenSet :=
  (n.walkFollowing (n.walkBound (callers.elim 0 List.length)) s callers [] [] {}).found

/-- The types that can come next at `s` inside the live invocations. -/
def followingInContext (s : StateId) (callers : List StateId) : TokenSet :=
  n.following s (some callers)

/-- Adds what the callers allow, as long as every rule so far can end here. -/
def expectedOutwards : TokenSet → TokenSet → List StateId → TokenSet
  | expected, last, [] =>
    if TokenType.epsilon ∈ last then expected.insert TokenType.eof else expected
  | expected, last, back :: callers =>
    if TokenType.epsilon ∈ last then
      let next := n.nextTokensAt back
      expectedOutwards ((expected ∪ next).erase TokenType.epsilon) next callers
    else expected

/-- The types acceptable at `s` inside the live invocations, put together from the tables of each
rule. -/
def expectedTokens (s : StateId) (callers : List StateId) : TokenSet :=
  let here := n.nextTokensAt s
  if TokenType.epsilon ∈ here then
    n.expectedOutwards (here.erase TokenType.epsilon) here callers
  else here

end Network

end AdaptiveParsing
