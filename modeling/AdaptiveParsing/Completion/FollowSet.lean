import AdaptiveParsing.Network.Basic
/-!
What a rule can begin with, for code completion. The types are kept apart by the calls that lead to
them, each with the tokens that have to come next.
-/

namespace AdaptiveParsing

/-- The types of one edge that a rule can begin with. -/
structure FollowSet where
  types : TokenSet
  /-- The rules entered on the way to the edge, outermost first. -/
  path : List RuleId
  /-- The tokens that have to come after that of the edge. -/
  followedBy : List TokenType
deriving DecidableEq, Inhabited, Repr

/-- Everything a rule can begin with. -/
structure FollowSets where
  sets : Array FollowSet := #[]
  /-- The rule takes a token on every way through it. -/
  isExhaustive : Bool := true
deriving DecidableEq, Inhabited, Repr

namespace FollowSets

/-- All types the rule can begin with. -/
def combined (f : FollowSets) : TokenSet := f.sets.foldl (fun all s => all ∪ s.types) ∅

end FollowSets

namespace Network

variable (n : Network)

/-- The tokens on the only way on from `s`, over at most `fuel` edges and no state twice: plain edges
are passed, single types collected, and anything else ends the way. -/
def fixedRunUpTo : Nat → List StateId → StateId → List TokenType
  | 0, _, _ => []
  | fuel + 1, seen, s =>
    if seen.contains s then []
    else match (n.state s).transitions with
      | [t] =>
        match t.kind with
        | .epsilon => fixedRunUpTo fuel (s :: seen) t.target
        | .atom k => k :: fixedRunUpTo fuel (s :: seen) t.target
        | _ => []
      | _ => []

/-- The tokens that have to come after `s` within its rule, up to the first choice or call. -/
def fixedRun (s : StateId) : List TokenType := n.fixedRunUpTo (n.states.size + 1) [] s

/-- The edge's part of what a rule can begin with. -/
def followSet? (t : Transition) (path : List RuleId) : Option FollowSet :=
  match n.label? t.kind with
  | none => none
  | some types =>
    match t.kind with
    | .wildcard => some { types, path, followedBy := [] }
    | _ => if types.isEmpty then none else some { types, path, followedBy := n.fixedRun t.target }

/-- Collects the edges that take the first token on a way from `s`. `visiting` are the states on the
way and `path` the calls, outermost first; neither is entered again. The answer is exhaustive if no
way comes to the end of a rule. `fuel` bounds the length of the way. -/
def collectFollow : Nat → List StateId → List RuleId → StateId → Array FollowSet → FollowSets
  | 0, _, _, _, sets => { sets }
  | fuel + 1, visiting, path, s, sets =>
    if visiting.contains s then { sets }
    else
      let here := n.state s
      if here.isRuleStop then { sets, isExhaustive := false }
      else
        let visiting := s :: visiting
        here.transitions.foldl (fun acc t =>
          match t.kind with
          | .rule r back _ =>
            if path.contains r then acc
            else
              let callee := collectFollow fuel visiting (path ++ [r]) t.target acc.sets
              if callee.isExhaustive then { acc with sets := callee.sets }
              else
                let rest := collectFollow fuel visiting path back callee.sets
                { rest with isExhaustive := acc.isExhaustive && rest.isExhaustive }
          | kind =>
            if kind.isConsuming then
              match n.followSet? t path with
              | none => acc
              | some set => { acc with sets := acc.sets.push set }
            else
              let rest := collectFollow fuel visiting path t.target acc.sets
              { rest with isExhaustive := acc.isExhaustive && rest.isExhaustive }) { sets }

/-- Everything rule `r` can begin with, taking predicates to hold. -/
def followSets (r : RuleId) : FollowSets :=
  n.collectFollow (n.states.size + 2) [] [] (n.rule r).start #[]

end Network

end AdaptiveParsing
