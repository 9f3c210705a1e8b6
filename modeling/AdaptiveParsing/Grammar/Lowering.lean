import AdaptiveParsing.Grammar.Basic
import AdaptiveParsing.Network.Build
/-!
From a grammar to a network. Every fragment becomes a part of the network with one way in and one
way out; blocks, loops and calls have a fixed shape. A left-recursive rule becomes its primary and
prefix alternatives followed by a loop over the others, each behind an edge that asks for its
precedence level. The first of `n` alternatives has level `n`, the last has level one.
-/

namespace AdaptiveParsing

/-- Construction of a draft. -/
abbrev DraftM := StateM Draft

/-- The way in and the way out of a part of a draft. -/
structure Fragment where
  entry : StateId
  exit : StateId
deriving DecidableEq, Inhabited, Repr

namespace DraftM

def state (kind : StateKind) (rule : RuleId) : DraftM StateId :=
  modifyGet fun d => d.addState kind rule

def edge (source : StateId) (t : Transition) : DraftM Unit :=
  modify fun d => d.addTransition source t

def epsilon (source target : StateId) : DraftM Unit :=
  modify fun d => d.addEpsilon source target

/-- Two states joined by one edge. -/
def single (rule : RuleId) (kind : EdgeKind) : DraftM Fragment := do
  let entry ← state .basic rule
  let exit ← state .basic rule
  edge entry ⟨exit, kind⟩
  pure { entry, exit }

/-- A call, and the state it returns to. -/
def call (rule callee : RuleId) (precedence : Int) : DraftM Fragment := do
  let entry ← state .basic rule
  let exit ← state .basic rule
  let start := ((← get).rule callee).start
  edge entry ⟨start, .rule callee exit precedence⟩
  pure { entry, exit }

/-- Joins the exit of each fragment to the entry of the next. -/
def chain (first : Fragment) : List Fragment → DraftM Fragment
  | [] => pure first
  | next :: rest => do
    epsilon first.exit next.entry
    chain { entry := first.entry, exit := next.exit } rest

/-- Fragments one after the other; none at all is an edge taken for free. -/
def sequence (rule : RuleId) : List Fragment → DraftM Fragment
  | [] => single rule .epsilon
  | first :: rest => chain first rest

/-- Leads from `entry` through each of the alternatives to `exit`. -/
def alternatives (entry exit : StateId) (parts : List Fragment) : DraftM Unit :=
  parts.forM fun part => do
    epsilon entry part.entry
    epsilon part.exit exit

/-- A block of alternatives, the last of them empty if it can be bypassed. -/
def block (rule : RuleId) (parts : List Fragment) (bypass : Bool) : DraftM Fragment := do
  let entry ← state .blockStart rule
  let exit ← state .blockEnd rule
  alternatives entry exit parts
  if bypass then epsilon entry exit
  pure { entry, exit }

/-- A block, unless there is only one alternative. -/
def choice (rule : RuleId) : List Fragment → DraftM Fragment
  | [only] => pure only
  | parts => block rule parts false

/-- A zero-or-more loop: its entry decides between another round, first, and the end. -/
def starLoop (rule : RuleId) (parts : List Fragment) : DraftM Fragment := do
  let entry ← state .starLoopEntry rule
  let blockStart ← state .starBlockStart rule
  let blockEnd ← state .blockEnd rule
  let loopBack ← state .starLoopBack rule
  let exit ← state .loopEnd rule
  epsilon entry blockStart
  epsilon entry exit
  alternatives blockStart blockEnd parts
  epsilon blockEnd loopBack
  epsilon loopBack entry
  pure { entry, exit }

/-- A one-or-more loop: its back edge decides between another round, first, and the end. -/
def plusLoop (rule : RuleId) (parts : List Fragment) : DraftM Fragment := do
  let entry ← state .plusBlockStart rule
  let blockEnd ← state .blockEnd rule
  let loopBack ← state .plusLoopBack rule
  let exit ← state .loopEnd rule
  alternatives entry blockEnd parts
  epsilon blockEnd loopBack
  epsilon loopBack entry
  epsilon loopBack exit
  pure { entry, exit }

end DraftM

mutual

/-- The part of the draft that stands for an element of `rule`. -/
def Element.lower (rule : RuleId) : Element → DraftM Fragment
  | .token t => DraftM.single rule (.atom t)
  | .set types => DraftM.single rule (.set (.ofList types))
  | .notSet types => DraftM.single rule (.notSet (.ofList types))
  | .wildcard => DraftM.single rule .wildcard
  | .rule r => DraftM.call rule r 0
  | .seq items => do DraftM.sequence rule (← Element.lowerAll rule items)
  | .alt alternatives => do DraftM.choice rule (← Element.lowerAll rule alternatives)
  | .opt (.alt alternatives) => do DraftM.block rule (← Element.lowerAll rule alternatives) true
  | .opt e => do DraftM.block rule [← Element.lower rule e] true
  | .star (.alt alternatives) => do DraftM.starLoop rule (← Element.lowerAll rule alternatives)
  | .star e => do DraftM.starLoop rule [← Element.lower rule e]
  | .plus (.alt alternatives) => do DraftM.plusLoop rule (← Element.lowerAll rule alternatives)
  | .plus e => do DraftM.plusLoop rule [← Element.lower rule e]
  | .predicate index => DraftM.single rule (.predicate rule index false)
  | .contextPredicate index => DraftM.single rule (.predicate rule index true)
  | .action index => DraftM.single rule (.action rule index)
  | .epsilon => DraftM.single rule .epsilon

/-- The parts for several elements, in their order. -/
def Element.lowerAll (rule : RuleId) : List Element → DraftM (List Fragment)
  | [] => pure []
  | e :: rest => do
    let part ← Element.lower rule e
    let parts ← Element.lowerAll rule rest
    pure (part :: parts)

end

/-- The elements one after the other. -/
def Element.lowerSequence (rule : RuleId) (items : List Element) : DraftM Fragment := do
  DraftM.sequence rule (← Element.lowerAll rule items)

/-- An operator alternative that follows an operand: its level, what comes after the operand, and
the floor of the operand after that, if there is one. -/
structure Operator where
  level : Int
  items : List Element
  operand : Option Int
deriving Inhabited, Repr

namespace OperatorAlternative

/-- The alternative as an operator, unless it starts without an operand. The right operand of a
left-associative operator is one level tighter. -/
def operator? (level : Int) : OperatorAlternative → Option Operator
  | binary .left items => some ⟨level, items, some (level + 1)⟩
  | binary .right items => some ⟨level, items, some level⟩
  | suffix items => some ⟨level, items, none⟩
  | prefixed _ | primary _ => none

/-- The part for an alternative that starts without an operand. -/
def lowerHead? (rule : RuleId) (level : Int) : OperatorAlternative → DraftM (Option Fragment)
  | primary items => do return some (← Element.lowerSequence rule items)
  | prefixed items => do
    let head ← Element.lowerSequence rule items
    let operand ← DraftM.call rule rule level
    DraftM.epsilon head.exit operand.entry
    return some { entry := head.entry, exit := operand.exit }
  | binary _ _ | suffix _ => return none

end OperatorAlternative

/-- The part for an operator: the test of its level, its items, and its right operand. -/
def Operator.lower (rule : RuleId) (op : Operator) : DraftM Fragment := do
  let guard ← DraftM.state .basic rule
  let body ← Element.lowerSequence rule op.items
  DraftM.edge guard ⟨body.entry, .precedence op.level⟩
  match op.operand with
  | none => pure { entry := guard, exit := body.exit }
  | some floor =>
    let operand ← DraftM.call rule rule floor
    DraftM.epsilon body.exit operand.entry
    pure { entry := guard, exit := operand.exit }

namespace RuleBody

/-- The alternatives with their levels, which fall to one. -/
def levels (alternatives : List OperatorAlternative) : List (Int × OperatorAlternative) :=
  alternatives.zipIdx.map fun (a, i) => ((alternatives.length : Int) - (i : Int), a)

/-- Adds the loop of operators between `source` and the rule's stop. -/
def lowerOperators (rule : RuleId) (source stop : StateId) (operators : List Operator) :
    DraftM Unit := do
  modify fun d => d.setLeftRecursive rule
  let parts ← operators.mapM (Operator.lower rule)
  let loop ← DraftM.starLoop rule parts
  modify fun d => d.markPrecedenceDecision loop.entry
  DraftM.epsilon source loop.entry
  DraftM.epsilon loop.exit stop

/-- Adds the body of rule `r` to a draft that has its start and stop. -/
def lower (name : String) (r : RuleId) : RuleBody → ExceptT NetworkError DraftM Unit
  | plain body => do
    let part ← body.lower r
    let rule := (← get).rule r
    DraftM.epsilon rule.start part.entry
    DraftM.epsilon part.exit rule.stop
  | leftRecursive alternatives => do
    let heads ← (levels alternatives).filterMapM fun (level, a) =>
      (a.lowerHead? r level : DraftM (Option Fragment))
    if heads.isEmpty then throw (.noPrimaryAlternative name)
    let primary ← DraftM.choice r heads
    let rule := (← get).rule r
    DraftM.epsilon rule.start primary.entry
    match (levels alternatives).filterMap fun (level, a) => a.operator? level with
    | [] => DraftM.epsilon primary.exit rule.stop
    | operators => lowerOperators r primary.exit rule.stop operators

end RuleBody

/-- A network with the names of its token types. -/
structure CompiledGrammar where
  network : Network
  names : Vocabulary
deriving Inhabited, Repr

namespace Grammar

/-- The states and edges of every rule, in the order of the rules. -/
def draft (g : Grammar) : Except NetworkError Draft :=
  let empty : Draft := { maxType := g.names.maxType }
  let declared := g.rules.foldl (fun d r => (d.addRule r.name).2) empty
  let bodies : ExceptT NetworkError DraftM Unit :=
    g.rules.toList.zipIdx.forM fun (rule, r) =>
      match rule.body with
      | none => pure ()
      | some body => body.lower rule.name r
  match bodies.run.run declared with
  | (.ok (), d) => .ok d
  | (.error e, _) => .error e

/-- The network of a grammar, or why it has none. -/
def compile (g : Grammar) : Except NetworkError CompiledGrammar := do
  let d ← g.draft
  let network ← d.build
  pure { network, names := g.names }

end Grammar

end AdaptiveParsing
