import AdaptiveParsing.Proofs.Recognition.EndOfInput
/-!
Where an invocation starts and stops. It starts at the first token of the input below it, and it stops at
the last one, unless that is the end of input and was not noted (`Invocation.Brackets`). A live invocation
with no token of the input below it so far starts where the next one inwards does, and the innermost one
where the parse is (`Begun`). Main statement: `Interpreter.parse_spans`.
-/

namespace AdaptiveParsing

open Relation AdaptiveParsing.Parser

variable {env : Setting} {G : Guide}

/-- The tokens that recovery did not conjure. -/
def Token.given (w : List Token) : List Token := w.filter fun t => !t.isConjured

/-- The index of the first of the tokens that is in the input, or the other one if there is none. -/
def Token.firstIndex (w : List Token) (next : Option Nat) : Option Nat :=
  ((Token.given w).head?.map Token.index).getD next

namespace Token

theorem given_append (v w : List Token) : given (v ++ w) = given v ++ given w := List.filter_append ..

theorem firstIndex_append (v w : List Token) (next : Option Nat) :
    firstIndex (v ++ w) next = firstIndex v (firstIndex w next) := by
  unfold firstIndex
  rw [given_append, List.head?_append]
  cases (given v).head? <;> rfl

theorem given_eq_nil {w : List Token} (h : ∀ t ∈ w, t.isConjured = true) : given w = [] := by
  apply List.filter_eq_nil_iff.2
  intro t ht
  simp [h t ht]

end Token

open Token (given firstIndex)

/-- The invocation with these leaves below it starts at the first one that is in the input, and stops at the
last one. If that is the end of input, this is said only if `named`. -/
structure Invocation.Brackets (node : Invocation) (leaves : List Token) (named : Prop) : Prop where
  start : ∀ t, (given leaves).head? = some t → node.start = t.index
  stop : ∀ t, (given leaves).getLast? = some t → t.isEof = false ∨ named → node.stop = t.index

/-- The invocations have their places between their leaves. At the end of input this is said of those of
ordinary rules only, and only if `named`. -/
def Forest.Bracketed (f : Forest) (env : Setting) (ids : List InvocationId) (named : Prop) : Prop :=
  ∀ id ∈ ids, ∃ leaves, f.Leaves (f.get id).children.toList leaves ∧
    (f.get id).Brackets leaves (named ∧ (env.network.rule (f.get id).rule).leftRecursive = false)

/-- Live invocations start at their first leaf in the input, or else where the next one inwards does. -/
def Begun (G : Guide) (f : Forest) (done : List InvocationId) :
    Option Nat → List Child → List Station → List Token → Prop
  | _, _, [], w => w = []
  | next, pending, a :: rest, w => ∃ outer own, w = outer ++ own ∧ Stands G f done pending a own ∧
    (f.get a.id).start = firstIndex own next ∧
    Begun G f done (f.get a.id).start (if G.recursive f a.id then [] else [.rule a.id]) rest outer

section

variable {f f' : Forest} {done : List InvocationId} {pending : List Child} {a b : Station}
  {stations rest : List Station} {v w own : List Token} {next : Option Nat} {id : InvocationId}
  {i i' : Interpreter} {rule : RuleId} {root : InvocationId} {first : TokenCursor} {t : Token}

/-- What is below an invocation that stands somewhere is one list of leaves. -/
theorem Stands.unique {own' : List Token} {done' : List InvocationId}
    (h : Stands G f done pending a own) (h' : Stands G f done' pending a own') : own = own' := by
  obtain ⟨children, hch, -, hl⟩ := h.below
  obtain ⟨children', hch', -, hl'⟩ := h'.below
  have heq := List.append_cancel_right (hch.symm.trans hch')
  rw [← heq] at hl'
  exact hl.unique hl'

/-- The leaves of the live invocations are those of a parse that is tracked. -/
theorem Begun.unique {w' : List Token} {done' : List InvocationId}
    (h : Begun G f done next pending stations w) (h' : Threads G f done' pending stations w') :
    w = w' := by
  induction stations generalizing next pending w w' with
  | nil => exact h.trans h'.symm
  | cons a rest ih =>
    obtain ⟨outer, own, rfl, hs, -, hrest⟩ := h
    obtain ⟨outer', own', rfl, hs', -, hrest'⟩ := h'
    rw [hs.unique hs', ih hrest hrest']

/-- Every leaf of a parse underway is a child of an invocation. -/
theorem Threads.hasLeaf (h : Threads G f done pending stations w) (ht : t ∈ w) : f.HasLeaf t := by
  induction stations generalizing pending w with
  | nil =>
    rw [show w = [] from h] at ht
    cases ht
  | cons a rest ih =>
    obtain ⟨outer, own, rfl, hs, -, hrest⟩ := h
    rcases List.mem_append.1 ht with ht | ht
    · exact ih hrest ht
    · obtain ⟨children, hch, -, hl⟩ := hs.below
      rcases hl.hasLeaf ht with hchild | hleaf
      · refine ⟨a.id, ?_⟩
        rw [hch]
        exact hchild.imp (List.mem_append_left _) (List.mem_append_left _)
      · exact hleaf

theorem Begun.keep (h : Begun G f done next pending stations w) (he : f.Extends f')
    (hchildren : ∀ a ∈ stations, (f'.get a.id).children = (f.get a.id).children)
    (hstart : ∀ a ∈ stations, (f'.get a.id).start = (f.get a.id).start)
    {done' : List InvocationId} (hdone : ∀ id ∈ done, id ∈ done')
    (hleaves : ∀ cs w, (∀ id, .rule id ∈ cs → id ∈ done) → f.Leaves cs w → f'.Leaves cs w) :
    Begun G f' done' next pending stations w := by
  induction stations generalizing next pending w with
  | nil => exact h
  | cons a rest ih =>
    obtain ⟨outer, own, hw, hs, hst, hrest⟩ := h
    have hsame := hstart a (.head _)
    refine ⟨outer, own, hw, hs.keep he (hchildren a (.head _)) hdone hleaves, ?_, ?_⟩
    · rw [hsame]
      exact hst
    · rw [hsame, Guide.recursive_extends he hs.lt]
      exact ih hrest (fun b hb => hchildren b (.tail _ hb)) fun b hb => hstart b (.tail _ hb)

/-- Finished invocations keep their places. -/
theorem Forest.Bracketed.keep {named named' : Prop} (h : f.Bracketed env done named)
    (hnamed : named' → named) (hrule : ∀ id ∈ done, (f'.get id).rule = (f.get id).rule)
    (hclosed : ∀ id ∈ done, ∀ child, .rule child ∈ (f.get id).children.toList → child ∈ done)
    (hchildren : ∀ id ∈ done, (f'.get id).children = (f.get id).children)
    (hstart : ∀ id ∈ done, (f'.get id).start = (f.get id).start)
    (hstop : ∀ id ∈ done, (f'.get id).stop = (f.get id).stop) : f'.Bracketed env done named' := by
  intro id hid
  obtain ⟨leaves, hl, hb⟩ := h id hid
  refine ⟨leaves, ?_, ?_, ?_⟩
  · rw [hchildren id hid]
    exact hl.keep (hclosed id hid) hclosed hchildren
  · rw [hstart id hid]
    exact hb.start
  · rw [hstop id hid, hrule id hid]
    intro t ht hor
    exact hb.stop t ht (hor.imp_right (And.imp_left hnamed))

/-- Finished invocations that stay as they are keep their places. -/
theorem Forest.Bracketed.same {named named' : Prop} (h : f.Bracketed env done named)
    (hnamed : named' → named)
    (hclosed : ∀ id ∈ done, ∀ child, .rule child ∈ (f.get id).children.toList → child ∈ done)
    (hsame : ∀ id ∈ done, f'.get id = f.get id) : f'.Bracketed env done named' := by
  refine h.keep hnamed ?_ hclosed ?_ ?_ ?_
  all_goals
    intro id hid
    rw [hsame id hid]

theorem Forest.Leaves.mem {cs : List Child} (h : f.Leaves cs w) (ht : .token t ∈ cs) : t ∈ w := by
  induction h with
  | nil => cases ht
  | token _ ih =>
    rcases List.mem_cons.1 ht with heq | ht
    · cases heq
      exact .head _
    · exact .tail _ (ih ht)
  | error _ ih =>
    rcases List.mem_cons.1 ht with heq | ht
    · cases heq
    · exact .tail _ (ih ht)
  | rule _ _ _ ih =>
    rcases List.mem_cons.1 ht with heq | ht
    · cases heq
    · exact List.mem_append_right _ (ih ht)

/-- Where the parse is after the leaves so far. After the end of input there is nothing. -/
structure Reached (r : Recognizer) (w : List Token) : Prop where
  previous : ∀ t, (given w).getLast? = some t → t.isEof = false → r.input.previousIndex = t.index
  current : ∀ t ∈ given w, t.isEof = true → t = r.input.current
  final : ∀ t, (given w).getLast? = some t → t.isEof = false → ∀ u ∈ given w, u.isEof = false
  matched : r.matchedEof = true → ∃ t ∈ given w, t.isEof = true

/-- An invocation with the last leaves is closed at the last one, unless that is the end of input. -/
theorem Reached.stop {r : Recognizer} (h : Reached r (v ++ w)) (ht : (given w).getLast? = some t)
    (heof : t.isEof = false) : r.matchedEof = false ∧ r.input.previousIndex = t.index := by
  have hlast : (given (v ++ w)).getLast? = some t := by
    rw [Token.given_append, List.getLast?_append, ht]
    rfl
  refine ⟨?_, h.previous t hlast heof⟩
  by_contra hm
  obtain ⟨u, hu, hue⟩ := h.matched (by simpa using hm)
  rw [h.final t hlast heof u hu] at hue
  cases hue

/-- If the end of input was noted, it is a leaf. -/
theorem Tracked.given_of_tookEof (htree : env.config.buildTrees = true)
    (hindex : ∀ t ∈ first.tokens, t.isConjured = false)
    (h : Tracked env G rule root first i (a :: rest) done w) (hte : i.recognizer.TookEof env) :
    ∃ t ∈ given w, t.isEof = true := by
  obtain ⟨outer, own, rfl, hs, -⟩ := h.woven.threads
  obtain ⟨v, hv, -⟩ := h.consumed
  obtain ⟨t, ht, heof, hchild⟩ := hte htree a.id h.invocation hs.lt
  obtain ⟨children, hch, -, hl⟩ := hs.below
  rw [hv.along.tokens] at ht
  rw [hch, List.append_nil] at hchild
  refine ⟨t, ?_, heof⟩
  apply List.mem_filter.2
  refine ⟨List.mem_append_right _ (hl.mem hchild), ?_⟩
  simp [hindex t ht]

theorem Forest.spans_addChild (f : Forest) (p : InvocationId) (c : Child) (id : InvocationId) :
    ((f.addChild p c).get id).start = (f.get id).start ∧
      ((f.addChild p c).get id).stop = (f.get id).stop := by
  have hstart := @Forest.get_modify_note _ Invocation.start
    (fun node => { node with children := node.children.push c }) (fun _ => rfl) f p id
  have hstop := @Forest.get_modify_note _ Invocation.stop
    (fun node => { node with children := node.children.push c }) (fun _ => rfl) f p id
  exact ⟨hstart, hstop⟩

/-- A deed changes no start and no stop. -/
theorem Parser.Deed.spans {p p' : Parser} (h : Deed env p p') (id : InvocationId) :
    (p'.recognizer.forest.get id).start = (p.recognizer.forest.get id).start ∧
      (p'.recognizer.forest.get id).stop = (p.recognizer.forest.get id).stop := by
  have hadd : ∀ (r : Recognizer) (c : Child),
      ((r.addChild c).forest.get id).start = (r.forest.get id).start ∧
        ((r.addChild c).forest.get id).stop = (r.forest.get id).stop := by
    intro r c
    unfold Recognizer.addChild
    split
    · exact ⟨rfl, rfl⟩
    · exact Forest.spans_addChild _ _ _ _
  cases h with
  | note _ h _ =>
    rw [h]
    exact ⟨rfl, rfl⟩
  | predict d =>
    have hf : (Parser.predict env d p).2.recognizer.forest = p.recognizer.forest :=
      (p.recognizer.sameTree_predict env d).forest
    rw [hf]
    exact ⟨rfl, rfl⟩
  | consume =>
    show ((p.recognizer.consume env p.strategy.recovering).forest.get id).start = _ ∧
      ((p.recognizer.consume env p.strategy.recovering).forest.get id).stop = _
    unfold Recognizer.consume
    split
    · exact hadd _ _
    · split
      · exact hadd _ _
      · exact ⟨rfl, rfl⟩
  | conjure _ => exact hadd _ _
  | blame e everywhere =>
    show ((p.recognizer.recordError e everywhere).forest.get id).start = _ ∧
      ((p.recognizer.recordError e everywhere).forest.get id).stop = _
    unfold Recognizer.recordError
    split
    · exact ⟨rfl, rfl⟩
    · exact ⟨Forest.get_blame Invocation.start (fun _ _ => rfl) _ _ _ _,
        Forest.get_blame Invocation.stop (fun _ _ => rfl) _ _ _ _⟩
  | report e =>
    unfold reportOnce Recognizer.notify
    split
    · exact ⟨rfl, rfl⟩
    · dsimp only
      split <;> exact ⟨rfl, rfl⟩

/-- Tokens that are passed become the last leaves. -/
theorem Reached.passed {r r' : Recognizer} (h : Reached r w) (hstop : r.input.Stopped)
    (hcur : r.input.current.isConjured = false) (hp : Passed r.input r'.input v)
    (hm : r'.matchedEof = true → r.matchedEof = true ∨ ∃ t ∈ given (w ++ v), t.isEof = true) :
    Reached r' (w ++ v) := by
  have hmatched : r'.matchedEof = true → ∃ t ∈ given (w ++ v), t.isEof = true := by
    intro hr
    rcases hm hr with hr | hleaf
    · obtain ⟨t, ht, heof⟩ := h.matched hr
      rw [Token.given_append]
      exact ⟨t, List.mem_append_left _ ht, heof⟩
    · exact hleaf
  generalize hin : r'.input = input at hp
  cases hp with
  | none hconj =>
    have hsame : given (w ++ v) = given w := by
      rw [Token.given_append, Token.given_eq_nil hconj, List.append_nil]
    refine ⟨?_, ?_, ?_, hmatched⟩
    · rw [hsame, hin]
      exact h.previous
    · rw [hsame, hin]
      exact h.current
    · rw [hsame]
      exact h.final
  | one =>
    have hmore : given (w ++ [r.input.current]) = given w ++ [r.input.current] := by
      rw [Token.given_append]
      simp [given, hcur]
    cases heof : r.input.current.isEof with
    | true =>
      have hstay : r.input.consume = r.input := by
        unfold TokenCursor.consume
        rw [if_pos heof]
      refine ⟨?_, ?_, ?_, hmatched⟩
      · intro t ht hte
        rw [hmore, List.getLast?_concat] at ht
        cases ht
        rw [heof] at hte
        cases hte
      · intro t ht hte
        rw [hin, hstay]
        rw [hmore] at ht
        rcases List.mem_append.1 ht with ht | ht
        · exact h.current t ht hte
        · exact List.mem_singleton.1 ht
      · intro t ht hte
        rw [hmore, List.getLast?_concat] at ht
        cases ht
        rw [heof] at hte
        cases hte
    | false =>
      -- the end of input is not reached, so it is no leaf
      have hnone : ∀ u ∈ given (w ++ [r.input.current]), u.isEof = false := by
        intro u hu
        rw [hmore] at hu
        rcases List.mem_append.1 hu with hu | hu
        · cases hue : u.isEof with
          | false => rfl
          | true =>
            rw [h.current u hu hue, heof] at hue
            cases hue
        · rw [List.mem_singleton.1 hu]
          exact heof
      refine ⟨?_, ?_, fun _ _ _ => hnone, hmatched⟩
      · intro t ht hte
        rw [hmore, List.getLast?_concat] at ht
        cases ht
        rw [hin]
        exact hstop.previousIndex_consume heof
      · intro t ht hte
        rw [hnone t ht] at hte
        cases hte

/-- A new invocation starts at the current token, and where the others start and stop stays. -/
theorem Enters.spans {c : RuleId} {precedence : Int} {id : InvocationId}
    (he : Enters env c precedence i id i') :
    (i'.recognizer.forest.get id).start = i.recognizer.input.current.index ∧
      ∀ other < i.recognizer.forest.size,
        (i'.recognizer.forest.get other).start = (i.recognizer.forest.get other).start ∧
        (i'.recognizer.forest.get other).stop = (i.recognizer.forest.get other).stop := by
  obtain ⟨node, -, -, -, -, -, hstart, hforest⟩ := he.forest
  have hnew : ((i.recognizer.forest.alloc node).2.get id).start = i.recognizer.input.current.index := by
    rw [he.id_eq, Forest.get_alloc, if_pos rfl, hstart]
  have hold : ∀ other < i.recognizer.forest.size,
      (i.recognizer.forest.alloc node).2.get other = i.recognizer.forest.get other := by
    intro other ho
    rw [Forest.get_alloc, if_neg (Nat.ne_of_lt ho)]
  have hkeep : ∀ other,
      (i'.recognizer.forest.get other).start =
          ((i.recognizer.forest.alloc node).2.get other).start ∧
        (i'.recognizer.forest.get other).stop =
          ((i.recognizer.forest.alloc node).2.get other).stop := by
    intro other
    rw [hforest]
    cases i.recognizer.invocation with
    | none => exact ⟨rfl, rfl⟩
    | some top =>
      dsimp only
      split
      · exact ⟨rfl, rfl⟩
      · exact Forest.spans_addChild _ _ _ _
  refine ⟨(hkeep id).1.trans hnew, ?_⟩
  intro other ho
  rw [← hold other ho]
  exact hkeep other

/-- Live and finished invocations have their places between their leaves. The end of input is named as long
as nothing was reported, if no other edges take it. -/
structure Placed (env : Setting) (G : Guide) (i : Interpreter) (stations : List Station)
    (done : List InvocationId) (w : List Token) : Prop where
  begun : Begun G i.recognizer.forest done i.recognizer.input.current.index [] stations w
  bracketed : i.recognizer.forest.Bracketed env done (i.parser.Silent ∧ env.network.NamesEof)
  reached : Reached i.recognizer w

/-- Nothing else matters to where the parse is. -/
theorem Reached.same {r r' : Recognizer} (h : Reached r w) (hinput : r'.input = r.input)
    (hm : r'.matchedEof = r.matchedEof) : Reached r' w := by
  refine ⟨?_, ?_, h.final, fun hr => h.matched (hm.symm.trans hr)⟩
  · rw [hinput]
    exact h.previous
  · rw [hinput]
    exact h.current

/-- An invocation that is closed where the parse is has its place between its leaves. -/
theorem Reached.brackets {r : Recognizer} {node node' : Invocation} {named : Prop}
    (h : Reached r (v ++ own)) (hstart : node.start = firstIndex own next)
    (hsame : node'.start = node.start)
    (hstop : r.matchedEof = false → node'.stop = r.input.previousIndex)
    (hend : named → ∀ t ∈ given (v ++ own), t.isEof = true → node'.stop = r.input.current.index) :
    node'.Brackets own named := by
  constructor
  · intro t ht
    rw [hsame, hstart]
    unfold firstIndex
    rw [ht]
    rfl
  · intro t ht hor
    cases heof : t.isEof with
    | false =>
      obtain ⟨hm, hp⟩ := h.stop ht heof
      exact (hstop hm).trans hp
    | true =>
      have hnamed : named := by
        rcases hor with hno | hnamed
        · rw [heof] at hno
          cases hno
        · exact hnamed
      have hmem : t ∈ given (v ++ own) := by
        rw [Token.given_append]
        exact List.mem_append_right _ (List.mem_of_getLast? ht)
      exact (hend hnamed t hmem heof).trans (congrArg Token.index (h.current t hmem heof)).symm

/-- A deed keeps the places. -/
theorem Placed.deed {p : Parser} {added : List Child} (htree : env.config.buildTrees = true)
    (hindex : ∀ t ∈ first.tokens, t.isConjured = false)
    (h : Tracked env G rule root first i (a :: rest) done w)
    (h' : Tracked env G rule root first { i with parser := p } (a :: rest) done
      (w ++ Forest.leafTokens added))
    (hp : Placed env G i (a :: rest) done w) (hd : Deed env i.parser p)
    (hg : i.recognizer.forest.Grows p.recognizer.forest a.id added)
    (hpassed : Passed i.recognizer.input p.recognizer.input (Forest.leafTokens added)) :
    Placed env G { i with parser := p } (a :: rest) done (w ++ Forest.leafTokens added) := by
  obtain ⟨⟨outer, own, hw, hs, hstart, hrest⟩, hbr, hreached⟩ := hp
  obtain ⟨outer', own', hw', hs', -, hrest'⟩ := h'.woven.threads
  obtain ⟨hne, hne'⟩ := h.woven.ne_innermost
  have hdone : ∀ id ∈ done, (p.recognizer.forest.get id).children =
      (i.recognizer.forest.get id).children := fun id hid => hg.other id (hne' id hid)
  have hsame : (p.recognizer.forest.get a.id).start = (i.recognizer.forest.get a.id).start :=
    (hd.spans a.id).1
  have hkept := hrest.keep hg.toExtends (fun b hb => hg.other b.id (hne b hb))
    (fun b _ => (hd.spans b.id).1) (fun _ hid => hid) (h.woven.leaves_keep hdone)
  rw [← Guide.recursive_extends hg.toExtends hs.lt] at hkept
  obtain rfl : outer = outer' := hkept.unique hrest'
  have hcur : i.recognizer.input.current.isConjured = false := by
    obtain ⟨v, hv, -⟩ := h.consumed
    apply hindex
    rw [← hv.along.tokens]
    exact Array.getElem_mem _
  refine ⟨⟨outer, own', hw', hs', ?_, ?_⟩, ?_, ?_⟩
  · have hboth : outer ++ own' = outer ++ (own ++ Forest.leafTokens added) := by
      rw [← hw', ← List.append_assoc, ← hw]
    obtain rfl := List.append_cancel_left hboth
    rw [Token.firstIndex_append]
    have hnext : firstIndex (Forest.leafTokens added) p.recognizer.input.current.index =
        i.recognizer.input.current.index := by
      generalize Forest.leafTokens added = passed at hpassed
      generalize p.recognizer.input = input at hpassed
      cases hpassed with
      | none hconj =>
        unfold firstIndex
        rw [Token.given_eq_nil hconj]
        rfl
      | one => simp [firstIndex, given, hcur]
    show (p.recognizer.forest.get a.id).start = firstIndex own (firstIndex _ _)
    rw [hsame, hstart]
    exact congrArg (firstIndex own) hnext.symm
  · show Begun G p.recognizer.forest done (p.recognizer.forest.get a.id).start _ rest outer
    rw [hsame]
    exact hkept
  · exact hbr.keep (And.imp_left hd.silent) (fun id hid => hg.rule id (h.woven.done_lt id hid))
      h.woven.closed hdone (fun id _ => (hd.spans id).1) fun id _ => (hd.spans id).2
  · refine hreached.passed h.stopped hcur hpassed fun hm => ?_
    rcases hd.matchedEof with hsame | ⟨-, hte⟩
    · exact .inl (hsame.symm.trans hm)
    · exact .inr (Tracked.given_of_tookEof htree hindex h' hte)

/-- So does going on in the rule. -/
theorem Placed.goTo {s : StateId} (hs : (G.network.state s).rule = (G.network.state a.state).rule)
    (hp : Placed env G i (a :: rest) done w) :
    Placed env G (i.goTo (some s)) ({ a with state := s } :: rest) done w := by
  obtain ⟨⟨outer, own, hw, hst, hstart, hrest⟩, hbr, hreached⟩ := hp
  exact ⟨⟨outer, own, hw, ⟨hst.lt, hst.rule_lt, hs.trans hst.state_rule, hst.below⟩, hstart, hrest⟩,
    hbr, hreached.same rfl rfl⟩

/-- So does another round. The earlier one ends where the parse is. -/
theorem Placed.round {s : StateId} (hG : G.Fits) (hnet : env.network = G.network)
    (h : Tracked env G rule root first i (a :: rest) done w)
    (h' : Tracked env G rule root first { i with parser := i.parser.modifyRecognizer fun r =>
        (r.pushRecursion s (G.network.state a.state).rule).2 }
      (⟨i.recognizer.forest.size, a.state⟩ :: rest) (a.id :: done) w)
    (hp : Placed env G i (a :: rest) done w)
    (hmark : (G.network.state a.state).precedenceDecision = true) :
    Placed env G { i with parser := i.parser.modifyRecognizer fun r =>
        (r.pushRecursion s (G.network.state a.state).rule).2 }
      (⟨i.recognizer.forest.size, a.state⟩ :: rest) (a.id :: done) w := by
  have hlt := h.woven.lt
  obtain ⟨hne, hne'⟩ := h.woven.ne_innermost
  obtain ⟨⟨outer, own, hw, hs, hstart, hrest⟩, hbr, hreached⟩ := hp
  have heq := Recognizer.pushRecursion_eq s (G.network.state a.state).rule h.invocation
  obtain ⟨he, -, hnew, hold, hother⟩ := Forest.alloc_modify hs.lt
    (i.recognizer.forest.nextRound (G.network.state a.state).rule a.id)
    (g := Invocation.handOver i.recognizer.input.previousIndex i.recognizer.forest.size s)
    (fun _ => rfl) fun _ => rfl
  generalize hi' : ({ i with parser := i.parser.modifyRecognizer fun r =>
    (r.pushRecursion s (G.network.state a.state).rule).2 } : Interpreter) = i' at h' ⊢
  have hr : i'.recognizer = { i.recognizer with
      forest := i.recognizer.forest.pushRound (G.network.state a.state).rule a.id s
        i.recognizer.input.previousIndex
      invocation := some i.recognizer.forest.size } := by
    rw [← heq, ← hi']
    rfl
  have hforest : i'.recognizer.forest = i.recognizer.forest.pushRound
      (G.network.state a.state).rule a.id s i.recognizer.input.previousIndex := by rw [hr]
  unfold Forest.pushRound at hforest
  rw [← hforest] at he hnew hold hother
  have hsame : ∀ id ∈ done, i'.recognizer.forest.get id = i.recognizer.forest.get id := fun id hid =>
    hother id (h.woven.done_lt id hid) (hne' id hid)
  have hleaves := h.woven.leaves_keep fun id hid => congrArg Invocation.children (hsame id hid)
  have hkeep : ∀ b ∈ rest, i'.recognizer.forest.get b.id = i.recognizer.forest.get b.id :=
    fun b hb => hother b.id (hlt b (.tail _ hb)) (hne b hb)
  have hkept := hrest.keep he (fun b hb => congrArg Invocation.children (hkeep b hb))
    (fun b hb => congrArg Invocation.start (hkeep b hb))
    (fun _ hid => List.mem_cons_of_mem a.id hid) hleaves
  have hrec := hG.recursive_of_mark hs.rule_lt hs.state_rule hmark
  have hrec' : G.recursive i'.recognizer.forest i.recognizer.forest.size = true := by
    unfold Guide.recursive at hrec ⊢
    rw [hnew, ← hrec]
    exact congrArg (fun r => (G.network.rule r).leftRecursive) hs.state_rule
  obtain ⟨outer', own', hw', hs', -, hrest'⟩ := h'.woven.threads
  rw [if_pos hrec] at hkept
  rw [if_pos hrec'] at hrest'
  obtain rfl : outer = outer' := hkept.unique hrest'
  obtain rfl : own = own' := List.append_cancel_left (hw.symm.trans hw')
  refine ⟨⟨outer, own, hw, hs', ?_, ?_⟩, ?_, ?_⟩
  · show (i'.recognizer.forest.get i.recognizer.forest.size).start =
      firstIndex own i'.recognizer.input.current.index
    rw [hnew, hr]
    exact hstart
  · show Begun G i'.recognizer.forest (a.id :: done)
      (i'.recognizer.forest.get i.recognizer.forest.size).start
      (if G.recursive i'.recognizer.forest i.recognizer.forest.size then [] else _) rest outer
    rw [hnew, if_pos hrec']
    exact hkept
  · intro id hid
    rcases List.mem_cons.1 hid with rfl | hid
    · obtain ⟨children, hch, hd, hl⟩ := hs.below
      rw [List.append_nil] at hch
      have hown := hleaves children own hd hl
      have hsame' : (i'.recognizer.forest.get a.id).children = (i.recognizer.forest.get a.id).children := by
        rw [hold]
        rfl
      rw [← hch, ← hsame'] at hown
      refine ⟨own, hown, Reached.brackets (hw ▸ hreached) hstart ?_ (fun _ => ?_) fun hplain => ?_⟩
      · rw [hold]
        rfl
      · rw [hold]
        rfl
      · -- the rule is left-recursive
        rw [he.rule a.id hs.lt, hnet] at hplain
        exact absurd hrec (by simp [Guide.recursive, hplain.2])
    · have herrors : i'.recognizer.errors = i.recognizer.errors := by rw [hr]
      exact hbr.same (And.imp_left herrors.symm.trans) h.woven.closed hsame id hid
  · rw [hr]
    exact hreached.same rfl rfl

/-- So does a call. The new invocation starts where the parse is. -/
theorem Placed.enter {c : RuleId} {precedence : Int} (hnet : env.network = G.network)
    (h : Tracked env G rule root first i (a :: rest) done w)
    (h' : Tracked env G rule root first i' (⟨id, (G.network.rule c).start⟩ :: a :: rest) done w)
    (hp : Placed env G i (a :: rest) done w) (he : i.enter env c precedence = (.ok id, i')) :
    Placed env G i' (⟨id, (G.network.rule c).start⟩ :: a :: rest) done w := by
  have hlt := h.woven.lt
  obtain ⟨hne, hne'⟩ := h.woven.ne_innermost
  obtain ⟨⟨outer, own, hw, hs, hstart, hrest⟩, hbr, hreached⟩ := hp
  have hen := Interpreter.enters_of_enter he
  obtain ⟨hext, -, hrule, -, hchildren, -, -, hother, -⟩ := hen.facts hnet h.invocation h.state hlt
  rw [← hen.id_eq] at hchildren
  obtain ⟨hnew, hold⟩ := hen.spans
  have hside := (@Interpreter.onlyTree_enter env i c precedence).1
  rw [he] at hside
  have hthere : ∀ other < i.recognizer.forest.size, other ≠ a.id →
      i'.recognizer.forest.get other = i.recognizer.forest.get other := by
    intro other ho hno
    apply hother other ho
    rintro _ ⟨⟩
    exact hno
  have hdone : ∀ id ∈ done, (i'.recognizer.forest.get id).children =
      (i.recognizer.forest.get id).children := fun id hid =>
    congrArg Invocation.children (hthere id (h.woven.done_lt id hid) (hne' id hid))
  have hkept := hrest.keep hext
    (fun b hb => congrArg Invocation.children (hthere b.id (hlt b (.tail _ hb)) (hne b hb)))
    (fun b hb => (hold b.id (hlt b (.tail _ hb))).1) (fun _ hid => hid) (h.woven.leaves_keep hdone)
  rw [← Guide.recursive_extends hext hs.lt] at hkept
  obtain ⟨w', none, hw', hs', -, outer', own', rfl, hs_a, -, hrest'⟩ := h'.woven.threads
  obtain rfl : none = [] := by
    obtain ⟨children, hch, -, hl⟩ := hs'.below
    rw [hchildren, List.append_nil] at hch
    rw [← hch] at hl
    cases hl
    rfl
  rw [List.append_nil] at hw'
  obtain rfl : outer = outer' := hkept.unique hrest'
  obtain rfl : own = own' := List.append_cancel_left (hw.symm.trans hw')
  refine ⟨⟨w, [], (List.append_nil w).symm, hs', ?_, outer, own, hw, hs_a, ?_, ?_⟩, ?_, ?_⟩
  · rw [hside.input]
    exact hnew
  · show (i'.recognizer.forest.get a.id).start =
      firstIndex own (i'.recognizer.forest.get id).start
    rw [(hold a.id hs.lt).1, hnew]
    exact hstart
  · rw [(hold a.id hs.lt).1]
    exact hkept
  · exact hbr.keep (And.imp_left hside.errors.symm.trans)
      (fun id hid => hext.rule id (h.woven.done_lt id hid)) h.woven.closed hdone
      (fun id hid => (hold id (h.woven.done_lt id hid)).1)
      fun id hid => (hold id (h.woven.done_lt id hid)).2
  · exact hreached.same hside.input hside.matchedEof

/-- What closing an invocation notes: it stops at the previous token, and one of an ordinary rule stops at
the end of input if that was matched. -/
structure Closes (G : Guide) (i i' : Interpreter) (id : InvocationId) : Prop where
  start : ∀ other, (i'.recognizer.forest.get other).start = (i.recognizer.forest.get other).start
  other : ∀ other, other ≠ id →
    (i'.recognizer.forest.get other).stop = (i.recognizer.forest.get other).stop
  early : i.recognizer.matchedEof = false →
    (i'.recognizer.forest.get id).stop = i.recognizer.input.previousIndex
  late : G.recursive i.recognizer.forest id = false → i.recognizer.matchedEof = true →
    (i'.recognizer.forest.get id).stop = i.recognizer.input.current.index

theorem Interpreter.closes_leaveRule (hnet : env.network = G.network)
    (hlt : a.id < i.recognizer.forest.size)
    (hrule : (G.network.state a.state).rule = (i.recognizer.forest.get a.id).rule)
    (hinv : i.recognizer.invocation = some a.id)
    (hcallers : i.callers = G.callers i.recognizer.forest (a :: b :: rest)) :
    Closes G i (i.leaveRule env (G.network.state a.state).rule) a.id := by
  have hforest := Interpreter.forest_leaveRule hnet hrule hinv hcallers
  constructor
  case start =>
    intro id
    rw [hforest]
    split
    · rw [(Forest.spans_addChild _ _ _ _).1]
      apply Forest.get_modify_note Invocation.start
      exact fun _ => rfl
    · apply Forest.get_modify_note Invocation.start
      exact fun _ => rfl
  case other =>
    intro id hid
    rw [hforest]
    split
    · rw [(Forest.spans_addChild _ _ _ _).2, Forest.get_modify_other _ _ _ _ hid]
    · rw [Forest.get_modify_other _ _ _ _ hid]
  case early =>
    intro hm
    rw [hforest]
    split
    · rw [(Forest.spans_addChild _ _ _ _).2, Forest.get_modify _ _ _ hlt]
    · rw [Forest.get_modify _ _ _ hlt, hm, if_neg Bool.false_ne_true]
  case late =>
    intro hrec hm
    rw [hforest, hrec, if_neg Bool.false_ne_true, Forest.get_modify _ _ _ hlt, hm, if_pos rfl]

theorem Interpreter.closes_finish (hnet : env.network = G.network)
    (hlt : a.id < i.recognizer.forest.size) (hinv : i.recognizer.invocation = some a.id)
    (hout : Outermost G i.recognizer.forest rule root a)
    (hcallers : i.callers = G.callers i.recognizer.forest [a]) :
    Closes G i (i.finish env rule root).2 a.id := by
  have hforest := Interpreter.forest_finish_eq hnet hinv hout hcallers
  constructor
  case start =>
    intro id
    rw [hforest]
    apply Forest.get_modify_note Invocation.start
    intro node
    split <;> rfl
  case other =>
    intro id hid
    rw [hforest, Forest.get_modify_other _ _ _ _ hid]
  case early =>
    intro hm
    rw [hforest, Forest.get_modify _ _ _ hlt]
    split
    · rfl
    · rw [hm]
      rfl
  case late =>
    intro hrec hm
    rw [hforest, hrec, if_neg Bool.false_ne_true, Forest.get_modify _ _ _ hlt, hm, if_pos rfl]

/-- An invocation that is closed with these leaves below it has its place between them. -/
theorem Closes.brackets (h : Closes G i i' a.id) (hnet : env.network = G.network)
    (hreached : Reached i.recognizer (v ++ own))
    (hstart : (i.recognizer.forest.get a.id).start = firstIndex own next)
    (hrule : (i'.recognizer.forest.get a.id).rule = (i.recognizer.forest.get a.id).rule)
    (herrors : i'.recognizer.errors = i.recognizer.errors)
    (hleaf : ∀ t ∈ v ++ own, i.recognizer.forest.HasLeaf t)
    (hnoted : i.parser.Silent → env.network.NamesEof → i.recognizer.Noted) :
    (i'.recognizer.forest.get a.id).Brackets own ((i'.parser.Silent ∧ env.network.NamesEof) ∧
      (env.network.rule (i'.recognizer.forest.get a.id).rule).leftRecursive = false) := by
  apply hreached.brackets hstart (h.start a.id) h.early
  rintro ⟨⟨hsilent, hnames⟩, hplain⟩ t ht heof
  rw [hrule, hnet] at hplain
  exact h.late hplain (hnoted (herrors.symm.trans hsilent) hnames t
    (hleaf t (List.mem_of_mem_filter ht)) heof)

/-- So does leaving an invocation, which ends where the parse is. -/
theorem Placed.leave {follow : StateId} (hnet : env.network = G.network)
    (h : Tracked env G rule root first i (a :: b :: rest) done w)
    (h' : Tracked env G rule root first (i.leaveRule env (G.network.state a.state).rule)
      ({ b with state := follow } :: rest) (a.id :: done) w)
    (hp : Placed env G i (a :: b :: rest) done w)
    (hnoted : i.parser.Silent → env.network.NamesEof → i.recognizer.Noted) :
    Placed env G (i.leaveRule env (G.network.state a.state).rule) ({ b with state := follow } :: rest)
      (a.id :: done) w := by
  obtain ⟨hne, hne'⟩ := h.woven.ne_innermost
  obtain ⟨hrest_b, hdone_b⟩ := h.woven.ne_second
  obtain ⟨⟨_, own, hw, hs, hstart, outer, own_b, rfl, hs_b, hstart_b, hrest⟩, hbr, hreached⟩ := hp
  obtain ⟨_, _, -, -, ⟨hparent, hcaller, -⟩, -⟩ := h.woven.threads
  obtain ⟨hl, -⟩ := Interpreter.leaves_leaveRule hnet hs.lt hs_b.lt (hne b (.head _)) hs.state_rule
    hparent hcaller h.invocation h.callers
  have hcloses := Interpreter.closes_leaveRule hnet hs.lt hs.state_rule h.invocation h.callers
  have hside := (@Interpreter.onlyTree_leaveRule env i (G.network.state a.state).rule).1
  generalize i.leaveRule env (G.network.state a.state).rule = i' at h' hl hcloses hside ⊢
  have hdone : ∀ id ∈ done, (i'.recognizer.forest.get id).children =
      (i.recognizer.forest.get id).children := fun id hid =>
    congrArg Invocation.children (hl.other id (hne' id hid) (hdone_b id hid))
  have hleaves := h.woven.leaves_keep hdone
  have hkept := hrest.keep hl.extends_forest
    (fun c hc => congrArg Invocation.children (hl.other c.id (hne c (.tail _ hc)) (hrest_b c hc)))
    (fun c _ => hcloses.start c.id) (fun _ hid => List.mem_cons_of_mem a.id hid) hleaves
  rw [← Guide.recursive_extends hl.extends_forest hs_b.lt] at hkept
  obtain ⟨outer', own', hw', hs', -, hrest'⟩ := h'.woven.threads
  obtain rfl : outer = outer' := hkept.unique hrest'
  have hboth : outer ++ own' = outer ++ (own_b ++ own) := by
    rw [← hw', hw, List.append_assoc]
  obtain rfl := List.append_cancel_left hboth
  refine ⟨⟨outer, own_b ++ own, hw', hs', ?_, ?_⟩, ?_, ?_⟩
  · show (i'.recognizer.forest.get b.id).start = _
    rw [hcloses.start, hstart_b, hstart, hside.input, Token.firstIndex_append]
  · show Begun G i'.recognizer.forest (a.id :: done) (i'.recognizer.forest.get b.id).start _ rest outer
    rw [hcloses.start]
    exact hkept
  · intro id hid
    rcases List.mem_cons.1 hid with rfl | hid
    · obtain ⟨children, hch, hd, hlv⟩ := hs.below
      rw [List.append_nil] at hch
      have hown := hleaves children own hd hlv
      rw [← hch, ← hl.inner] at hown
      exact ⟨own, hown, hcloses.brackets hnet (hw ▸ hreached) hstart
        (hl.extends_forest.rule a.id hs.lt) hside.errors
        (fun t ht => h.woven.threads.hasLeaf (hw ▸ ht)) hnoted⟩
    · exact hbr.keep (And.imp_left hside.errors.symm.trans)
        (fun id hid => hl.extends_forest.rule id (h.woven.done_lt id hid)) h.woven.closed hdone
        (fun id _ => hcloses.start id) (fun id hid => hcloses.other id (hne' id hid)) id hid
  · exact hreached.same hside.input hside.matchedEof

/-- Every shift keeps the places. -/
theorem Placed.shift {scene scene' : Scene} (hG : G.Fits) (hnet : env.network = G.network)
    (htree : env.config.buildTrees = true) (hindex : ∀ t ∈ first.tokens, t.isConjured = false)
    (h : scene.Tracked env G rule root first) (h' : scene'.Tracked env G rule root first)
    (hp : Placed env G scene.interpreter scene.stations scene.done scene.leaves)
    (hs : Shift env G scene scene') :
    Placed env G scene'.interpreter scene'.stations scene'.done scene'.leaves := by
  cases hs with
  | deed hd hg hadded hpassed => exact hp.deed htree hindex h h' hd hg (hpassed htree)
  | goTo hs => exact hp.goTo hs
  | round hmark => exact hp.round hG hnet h h' hmark
  | enter hc ht hk he => exact hp.enter hnet h h' he

/-- The first invocation starts where the parse begins, before all leaves. -/
theorem Placed.initial {i₀ : Interpreter} (hm : i.recognizer.matchedEof = false)
    (hen : i.enter env rule 0 = (.ok id, i₀)) (h : Tracked env G rule id first i₀ [a] [] [])
    (ha : a.id = id) : Placed env G i₀ [a] [] [] := by
  have hside := (@Interpreter.onlyTree_enter env i rule 0).1
  rw [hen] at hside
  obtain ⟨outer, own, hw, hs, -⟩ := h.woven.threads
  obtain ⟨rfl, rfl⟩ := List.append_eq_nil_iff.1 hw.symm
  refine ⟨⟨[], [], rfl, hs, ?_, rfl⟩, ?_, ⟨?_, ?_, ?_, ?_⟩⟩
  · rw [ha, hside.input]
    exact (Interpreter.enters_of_enter hen).spans.1
  · intro id hid
    cases hid
  · intro t ht
    cases ht
  · intro t ht
    cases ht
  · intro t ht
    cases ht
  · intro hnoted
    rw [hside.matchedEof, hm] at hnoted
    cases hnoted

/-- As the outermost invocation is closed, all that is below it has its place. -/
theorem Placed.finish (hnet : env.network = G.network)
    (h : Tracked env G rule root first i [a] done w) (hp : Placed env G i [a] done w)
    (hfin : i.finish env rule root = (id, i'))
    (hnoted : i.parser.Silent → env.network.NamesEof → i.recognizer.Noted) :
    i'.recognizer.forest.Bracketed env (id :: done) (i'.parser.Silent ∧ env.network.NamesEof) ∧
      ∀ other, i'.recognizer.forest.Under id other → other ∈ id :: done := by
  obtain ⟨⟨_, own, hw, hs, hstart, rfl⟩, hbr, hreached⟩ := hp
  rw [List.nil_append] at hw
  obtain ⟨-, hne⟩ := h.woven.ne_innermost
  obtain ⟨rfl, note, hforest, hnote⟩ :=
    Interpreter.forest_finish hnet h.invocation (h.outermost a rfl) h.callers hfin
  have hcloses := Interpreter.closes_finish hnet hs.lt h.invocation (h.outermost a rfl) h.callers
  have hside := @Interpreter.onlyTree_finish env i rule root
  rw [hfin] at hcloses hside
  have hrule : ∀ other, (i'.recognizer.forest.get other).rule = (i.recognizer.forest.get other).rule := by
    intro other
    rw [hforest]
    exact Forest.get_modify_note Invocation.rule (fun node => (hnote node).1) _ _ _
  have hchildren : ∀ other, (i'.recognizer.forest.get other).children =
      (i.recognizer.forest.get other).children := by
    intro other
    rw [hforest]
    exact Forest.get_modify_note Invocation.children (fun node => (hnote node).2.2.1) _ _ _
  obtain ⟨children, hch, hd, hl⟩ := hs.below
  rw [List.append_nil] at hch
  refine ⟨?_, ?_⟩
  · intro other hother
    rcases List.mem_cons.1 hother with rfl | hdone
    · have hown := h.woven.leaves_keep (fun id _ => hchildren id) children own hd hl
      rw [← hch, ← hchildren] at hown
      exact ⟨own, hown, hcloses.brackets (v := []) hnet (hw ▸ hreached) hstart (hrule a.id) hside.errors
        (fun t ht => h.woven.threads.hasLeaf (hw ▸ ht)) hnoted⟩
    · exact hbr.keep (And.imp_left hside.errors.symm.trans) (fun id _ => hrule id) h.woven.closed
        (fun id _ => hchildren id) (fun id _ => hcloses.start id)
        (fun id hid => hcloses.other id (hne id hid)) other hdone
  · intro other hunder
    induction hunder with
    | refl => exact .head _
    | @tail parent child _ hchild ih =>
      rw [hchildren] at hchild
      apply List.mem_cons_of_mem
      rcases List.mem_cons.1 ih with rfl | hparent
      · rw [hch] at hchild
        exact hd child hchild
      · exact h.woven.closed parent hparent child hchild

end

namespace Interpreter

variable {i i' : Interpreter} {rule : RuleId} {root : InvocationId} {fuel : Nat} {g : Grammar}

/-- If a parse from a fresh parser ends well, then whatever errors it recovered from, every invocation of its
tree starts at the first leaf below it that is in the input. It stops at the last one, unless that is the end
of input; and also then if its rule is not left-recursive, nothing was reported, and no edge takes the end of
input but those that name it. -/
theorem parse_spans {tokens : Array Token} {channel start : Nat} (hg : g.compile = .ok env.grammar)
    (htree : env.config.buildTrees = true) (hrule : rule < g.rules.size) (hi : i.Fresh)
    (hm : i.recognizer.matchedEof = false)
    (hinput : i.recognizer.input = (TokenCursor.ofTokens tokens channel).seek start)
    (hrun : i.parse env fuel rule = some (.ok root, i')) :
    ∀ id, i'.recognizer.forest.Under root id → ∃ leaves,
      i'.recognizer.forest.Leaves (i'.recognizer.forest.get id).children.toList leaves ∧
        (i'.recognizer.forest.get id).Brackets leaves ((i'.parser.Silent ∧ env.network.NamesEof) ∧
          (env.network.rule (i'.recognizer.forest.get id).rule).leftRecursive = false) := by
  obtain ⟨G, hnet, -, -, hG⟩ := Grammar.exists_guide hg fun _ _ _ _ _ => True
  have hnet' : env.network = G.network := hnet.symm
  have hsize : rule < G.network.rules.size := by
    rw [hnet, (Grammar.shaped_compile hg).2]
    exact hrule
  obtain ⟨hstop, hindex⟩ := stopped_of_input hinput
  have hfirst : ∀ {first i₀}, i.enter env rule 0 = (.ok first, i₀) →
      Placed env G i₀ [⟨first, (G.network.rule rule).start⟩] [] [] := fun hen =>
    Placed.initial hm hen (tracked_enter hG hnet' hsize hi hstop hen) rfl
  obtain ⟨-, -, hends⟩ := along_parse (P := fun scene =>
    Placed env G scene.interpreter scene.stations scene.done scene.leaves) hG hnet' hsize hi hstop hindex
    hfirst (fun h h' hp hs => hp.shift hG hnet' htree hindex h h' hs)
    fun hen hj h hp _ hfollow => hp.leave hnet' h (h.leave hG hnet' hfollow)
      fun hsilent hnames => noted_follows htree hnames hi hen hj hsilent
  obtain ⟨first, i₀, j, a, done, w, hen, hj, h, hp, hfin⟩ := hends fuel root i' hrun
  obtain ⟨hbr, hinside⟩ := hp.finish hnet' h hfin fun hsilent hnames =>
    noted_follows htree hnames hi hen hj hsilent
  exact fun id hunder => hbr id (hinside id hunder)

end Interpreter

/-- The invocations of the parse of A A B by `nested` have their places, though a token was dropped. -/
theorem spans_stray : ∃ i', beforeStray.parse nestedSetting 20 0 = some (.ok 0, i') ∧
    ∀ id, i'.recognizer.forest.Under 0 id → ∃ leaves,
      i'.recognizer.forest.Leaves (i'.recognizer.forest.get id).children.toList leaves ∧
        (i'.recognizer.forest.get id).Brackets leaves
          ((i'.parser.Silent ∧ nestedSetting.network.NamesEof) ∧
            (nestedSetting.network.rule (i'.recognizer.forest.get id).rule).leftRecursive = false) := by
  have hrun : (beforeStray.parse nestedSetting 20 0).map Prod.fst = some (.ok 0) := by cbv
  have hsize : nested.rules.size = 2 := by cbv
  cases hparse : beforeStray.parse nestedSetting 20 0 with
  | none =>
    rw [hparse] at hrun
    cases hrun
  | some p =>
    rw [hparse] at hrun
    obtain ⟨outcome, i'⟩ := p
    obtain rfl := Option.some.inj hrun
    exact ⟨i', rfl, Interpreter.parse_spans compile_nested rfl (by rw [hsize]; decide)
      ⟨rfl, rfl, rfl, rfl, rfl, rfl, rfl⟩ rfl rfl hparse⟩

/-- `s` is the token A and then a token of a set, in which there is the end of input only. -/
def endInSet : Grammar :=
  let (a, g) := ({} : Grammar).addToken "A"
  let (s, g) := g.addRule "s"
  g.define s (.plain (.seq [.token a, .set [TokenType.eof]]))

def endInSetNetwork : Network where
  states := #[⟨.ruleStart, 0, [⟨2, .epsilon⟩], none, false⟩, ⟨.ruleStop, 0, [], none, false⟩,
    ⟨.basic, 0, [⟨3, .atom 1⟩], none, false⟩, ⟨.basic, 0, [⟨4, .epsilon⟩], none, false⟩,
    ⟨.basic, 0, [⟨5, .set (.ofList [-1])⟩], none, false⟩, ⟨.basic, 0, [⟨1, .epsilon⟩], none, false⟩]
  rules := #[⟨"s", 0, 1, false⟩]
  maxType := 1
  nextTokens := #[.ofList [1], .ofList [-2], .ofList [1], .ofList [-1], .ofList [-1], .ofList [-2]]
  ruleFollow := #[[]]
  returnPrecedence := .replicate 6 none
  edgeCount := 5

def endInSetSetting : Setting := { grammar := ⟨endInSetNetwork, endInSet.names⟩ }

/-- A parser that has not begun, at the input A. -/
def beforeEnd : Interpreter :=
  let input := TokenCursor.ofTokens #[{ kind := 1 }] defaultChannel
  { parser := { recognizer := .start endInSetSetting (input.seek 0) {} } }

set_option maxRecDepth 20000 in
theorem compile_endInSet : endInSet.compile = .ok endInSetSetting.grammar := by cbv

/-- The parse of A by `endInSet` reports nothing, and the last leaf is the end of input. The invocation stops
at the token before it. -/
theorem end_left_out : endInSet.compile = .ok endInSetSetting.grammar ∧
    ∃ i' leaves last, beforeEnd.parse endInSetSetting 20 0 = some (.ok 0, i') ∧
      i'.recognizer.errors = #[] ∧
      i'.recognizer.forest.Leaves (i'.recognizer.forest.get 0).children.toList leaves ∧
      (given leaves).getLast? = some last ∧ last.isEof = true ∧ last.index = some 1 ∧
      (i'.recognizer.forest.get 0).stop = some 0 := by
  refine ⟨compile_endInSet, ?_⟩
  let a : Token := { kind := 1, index := some 0 }
  let last : Token := { kind := TokenType.eof, text := some "<EOF>", index := some 1 }
  have hrun : (beforeEnd.parse endInSetSetting 20 0).map (fun p => (p.1, p.2.recognizer.errors,
      (p.2.recognizer.forest.get 0).children.toList, (p.2.recognizer.forest.get 0).stop)) =
      some (.ok 0, #[], [.token a, .token last], some 0) := by cbv
  cases hparse : beforeEnd.parse endInSetSetting 20 0 with
  | none =>
    rw [hparse] at hrun
    cases hrun
  | some p =>
    rw [hparse] at hrun
    obtain ⟨outcome, i'⟩ := p
    simp only [Option.map_some, Option.some.injEq, Prod.mk.injEq] at hrun
    obtain ⟨rfl, he, hch, hstop⟩ := hrun
    refine ⟨i', [a, last], last, rfl, he, ?_, rfl, rfl, rfl, hstop⟩
    rw [hch]
    exact .token (.token .nil)

end AdaptiveParsing
