import AdaptiveParsing.Recognition.Error
/-!
Parse trees under construction. Every rule invocation is a node of a forest and refers to its
caller by number, so that the live invocations form a chain from the innermost outwards while the
finished ones hang below them.
-/

namespace AdaptiveParsing

/-- A child of an invocation, in input order. -/
inductive Child where
  | rule (id : InvocationId)
  | token (t : Token)
  /-- A token that recovery dropped or conjured. -/
  | error (t : Token)
deriving DecidableEq, Inhabited, Repr

/-- One invocation of a rule. -/
structure Invocation where
  rule : RuleId
  parent : Option InvocationId := none
  /-- The state that made the call; none for an outermost invocation. -/
  caller : Option StateId := none
  /-- The floor the invocation was entered with; zero for an ordinary rule. -/
  precedence : Int := 0
  children : Array Child := #[]
  /-- The index of the first token it saw. -/
  start : Option Nat := none
  /-- The index of the last token it consumed. -/
  stop : Option Nat := none
  /-- The mismatch that ended it early. -/
  error : Option RecognitionError := none
deriving DecidableEq, Inhabited, Repr

/-- The invocations below this one. -/
def Invocation.ruleChildren (i : Invocation) : List InvocationId :=
  i.children.toList.filterMap fun
    | .rule id => some id
    | _ => none

/-- The invocations of a parse, numbered as they were opened. -/
structure Forest where
  nodes : Array Invocation := #[]
deriving DecidableEq, Inhabited, Repr

namespace Forest

def size (f : Forest) : Nat := f.nodes.size

def isEmpty (f : Forest) : Bool := f.nodes.isEmpty

/-- The invocation with number `id`; a number out of range stands for a bare one. -/
def get (f : Forest) (id : InvocationId) : Invocation := f.nodes.getD id default

def alloc (f : Forest) (i : Invocation) : InvocationId × Forest :=
  (f.nodes.size, ⟨f.nodes.push i⟩)

def modify (f : Forest) (id : InvocationId) (g : Invocation → Invocation) : Forest :=
  ⟨f.nodes.modify id g⟩

def addChild (f : Forest) (parent : InvocationId) (c : Child) : Forest :=
  f.modify parent fun i => { i with children := i.children.push c }

/-- `id` and the invocations around it, the innermost first, at most `fuel` of them. -/
def ancestorsUpTo (f : Forest) : Nat → InvocationId → List InvocationId
  | 0, _ => []
  | fuel + 1, id =>
    id :: match (f.get id).parent with
      | none => []
      | some parent => f.ancestorsUpTo fuel parent

/-- `id` and the invocations around it, the innermost first. A chain of distinct invocations is no
longer than the forest. -/
def ancestors (f : Forest) (id : InvocationId) : List InvocationId :=
  f.ancestorsUpTo (f.size + 1) id

/-- How many invocations there are around `id`. -/
def depth (f : Forest) (id : InvocationId) : Nat := (f.ancestors id).length - 1

/-- The names of the rules from `id` outwards; a rule without a name is shown by its number. -/
def ruleStack (f : Forest) (rules : Array String) (id : InvocationId) : List String :=
  (f.ancestors id).map fun i =>
    let rule := (f.get i).rule
    rules.getD rule (toString rule)

theorem get_of_le {f : Forest} {id : InvocationId} (h : f.size ≤ id) : f.get id = default := by
  unfold get
  rw [Array.getD_eq_getD_getElem?, Array.getElem?_eq_none h]
  rfl

end Forest

end AdaptiveParsing
