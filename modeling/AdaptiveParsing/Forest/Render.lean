import AdaptiveParsing.Forest.Basic
/-!
Parse trees as text: the source they cover, and a nested listing of rules and tokens. A tree is
never deeper than its forest is large, which bounds the recursion.
-/

namespace AdaptiveParsing.Forest

variable (f : Forest)

/-- Adds the source text below `id`, down to `fuel` levels. -/
def textUpTo : Nat → InvocationId → String → String
  | 0, _, acc => acc
  | fuel + 1, id, acc =>
    (f.get id).children.foldl (fun acc c =>
      match c with
      | .rule i => textUpTo fuel i acc
      | .token t | .error t => acc ++ t.sourceText) acc

/-- The source text of the tokens below `id`. -/
def text (id : InvocationId) : String := f.textUpTo (f.size + 1) id ""

/-- Adds the tree below `id`, down to `fuel` levels. An invocation without children is its bare rule
name; otherwise the name and the children stand in parentheses. -/
def treeUpTo (rules : Array String) (names : Vocabulary) : Nat → InvocationId → String → String
  | 0, _, acc => acc
  | fuel + 1, id, acc =>
    let node := f.get id
    let name := rules.getD node.rule "?"
    if node.children.isEmpty then acc ++ name
    else
      node.children.foldl (fun acc c =>
        match c with
        | .rule i => treeUpTo rules names fuel i (acc ++ " ")
        | .token t | .error t => acc ++ " " ++ Text.escape (t.display names))
        (acc ++ "(" ++ name) ++ ")"

/-- The tree below `id` as nested lists. -/
def tree (rules : Array String) (names : Vocabulary) (id : InvocationId) : String :=
  f.treeUpTo rules names (f.size + 1) id ""

end AdaptiveParsing.Forest
