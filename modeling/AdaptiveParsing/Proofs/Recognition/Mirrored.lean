import AdaptiveParsing.Proofs.Lookahead.Generations
import AdaptiveParsing.Proofs.Recognition.Turns
/-!
Two recognizers that mirror each other. They stand at the same state with the same invocations; their
indices, tokens and errors stand for each other, and their automata hold the same (`Recognizer.Mirrors`).
Every operation of the recognizer keeps them so.
-/

namespace AdaptiveParsing

section

variable (m : Mirror)

inductive MismatchKind.Mirrors : MismatchKind → MismatchKind → Prop
  | noViableAlternative (d : DecisionId) {start start' : Token} (h : m.token start start') :
      Mirrors (.noViableAlternative d start) (.noViableAlternative d start')
  | inputMismatch : Mirrors .inputMismatch .inputMismatch
  | failedPredicate (rule : RuleId) (predicate : String) :
      Mirrors (.failedPredicate rule predicate) (.failedPredicate rule predicate)

/-- The same mismatch, at tokens that stand for each other. -/
structure RecognitionError.Mirrors (e e' : RecognitionError) : Prop where
  kind : e.kind.Mirrors m e'.kind
  offending : m.token e.offending e'.offending
  state : e.state = e'.state
  invocation : e.invocation = e'.invocation
  expected : e.expected = e'.expected

/-- Children of one kind: the same invocation, or tokens that stand for each other. -/
inductive Child.Mirrors : Child → Child → Prop
  | rule (id : InvocationId) : Mirrors (.rule id) (.rule id)
  | token {t t' : Token} (h : m.token t t') : Mirrors (.token t) (.token t')
  | error {t t' : Token} (h : m.token t t') : Mirrors (.error t) (.error t')

/-- The same invocation, with indices, tokens and mismatches that stand for each other. -/
structure Invocation.Mirrors (i i' : Invocation) : Prop where
  rule : i.rule = i'.rule
  parent : i.parent = i'.parent
  caller : i.caller = i'.caller
  precedence : i.precedence = i'.precedence
  children : List.Forall₂ (Child.Mirrors m) i.children.toList i'.children.toList
  start : Option.Rel m.index i.start i'.start
  stop : Option.Rel m.index i.stop i'.stop
  error : Option.Rel (RecognitionError.Mirrors m) i.error i'.error

/-- Isomorphic forests: each number stands for the same invocation in both. -/
structure Forest.Mirrors (f f' : Forest) : Prop where
  size : f.size = f'.size
  get : ∀ id, (f.get id).Mirrors m (f'.get id)

end

variable {m : Mirror}

/-- The same failure. -/
inductive ParseFailure.Mirrors (m : Mirror) : ParseFailure → ParseFailure → Prop
  | recognition {e e' : RecognitionError} (h : e.Mirrors m e') :
      Mirrors m (.recognition e) (.recognition e')
  | nestingTooDeep (rule : String) (limit : Nat) :
      Mirrors m (.nestingTooDeep rule limit) (.nestingTooDeep rule limit)
  | cancelled {e e' : RecognitionError} (h : e.Mirrors m e') : Mirrors m (.cancelled e) (.cancelled e')

inductive Halt.Mirrors (m : Mirror) : Halt → Halt → Prop
  | failure {f f' : ParseFailure} (h : f.Mirrors m f') : Mirrors m (.failure f) (.failure f')
  | unsettled (d : DecisionId) : Mirrors m (.unsettled d) (.unsettled d)

/-- Both come to an answer, or both stop for the same reason. -/
inductive SameOutcome (m : Mirror) {α : Type} (R : α → α → Prop) :
    Except Halt α → Except Halt α → Prop
  | ok {a a' : α} (h : R a a') : SameOutcome m R (.ok a) (.ok a')
  | error {halt halt' : Halt} (h : halt.Mirrors m halt') : SameOutcome m R (.error halt) (.error halt')

theorem Halt.Mirrors.recognition {m : Mirror} {e e' : RecognitionError} (h : e.Mirrors m e') :
    Halt.Mirrors m (.failure (.recognition e)) (.failure (.recognition e')) :=
  .failure (.recognition h)

theorem RecognitionError.Mirrors.mono {m' : Mirror} {e e' : RecognitionError}
    (ht : ∀ t t', m.token t t' → m'.token t t') (h : e.Mirrors m e') : e.Mirrors m' e' := by
  refine ⟨?_, ht _ _ h.offending, h.state, h.invocation, h.expected⟩
  have hk := h.kind
  generalize e.kind = k at hk ⊢
  generalize e'.kind = k' at hk ⊢
  cases hk with
  | noViableAlternative d h => exact .noViableAlternative d (ht _ _ h)
  | inputMismatch => exact .inputMismatch
  | failedPredicate rule predicate => exact .failedPredicate rule predicate

theorem option_rel_mono {α β : Type} {R S : α → β → Prop} {x : Option α} {y : Option β}
    (h : Option.Rel R x y) (hrs : ∀ a b, R a b → S a b) : Option.Rel S x y := by
  cases h with
  | none => exact .none
  | some h => exact .some (hrs _ _ h)

/-- Forests that mirror each other closely do so loosely. -/
theorem Forest.Mirrors.mono {m' : Mirror} {f f' : Forest} (hi : ∀ i i', m.index i i' → m'.index i i')
    (ht : ∀ t t', m.token t t' → m'.token t t') (h : f.Mirrors m f') : f.Mirrors m' f' := by
  refine ⟨h.size, fun id => ?_⟩
  obtain ⟨h₁, h₂, h₃, h₄, hchildren, hstart, hstop, herror⟩ := h.get id
  refine ⟨h₁, h₂, h₃, h₄, hchildren.imp ?_, option_rel_mono hstart hi, option_rel_mono hstop hi,
    option_rel_mono herror fun _ _ h => h.mono ht⟩
  intro c c' hc
  cases hc with
  | rule id => exact .rule id
  | token h => exact .token (ht _ _ h)
  | error h => exact .error (ht _ _ h)

theorem Invocation.mirrors_default : Invocation.Mirrors m default default :=
  ⟨rfl, rfl, rfl, rfl, .nil, .none, .none, .none⟩

namespace Forest.Mirrors

variable {f f' : Forest}

theorem empty : Forest.Mirrors m {} {} := ⟨rfl, fun _ => Invocation.mirrors_default⟩

theorem alloc (h : f.Mirrors m f') {i i' : Invocation} (hi : i.Mirrors m i') :
    (f.alloc i).1 = (f'.alloc i').1 ∧ (f.alloc i).2.Mirrors m (f'.alloc i').2 := by
  refine ⟨h.size, ?_, fun id => ?_⟩
  · rw [size_alloc, size_alloc, h.size]
  · rw [get_alloc, get_alloc, h.size]
    split
    · exact hi
    · exact h.get id

theorem modify (h : f.Mirrors m f') (id : InvocationId) {g g' : Invocation → Invocation}
    (hg : ∀ i i', i.Mirrors m i' → (g i).Mirrors m (g' i')) :
    (f.modify id g).Mirrors m (f'.modify id g') := by
  refine ⟨?_, fun other => ?_⟩
  · rw [size_modify, size_modify, h.size]
  · by_cases hsame : other = id
    · subst hsame
      by_cases hlt : other < f.size
      · rw [get_modify _ _ _ hlt, get_modify _ _ _ (h.size ▸ hlt)]
        exact hg _ _ (h.get other)
      · -- a number out of range stands for a bare invocation before and after
        have hout : ∀ {f : Forest} (g : Invocation → Invocation), ¬ other < f.size →
            (f.modify other g).get other = default := by
          intro f g hge
          have hnone : (f.modify other g).nodes[other]? = none :=
            Array.getElem?_eq_none (by simpa [Forest.modify, Forest.size] using hge)
          simp [Forest.get, Array.getD_eq_getD_getElem?, hnone]
        rw [hout g hlt, hout g' (h.size ▸ hlt)]
        exact Invocation.mirrors_default
    · rw [get_modify_other _ _ _ _ hsame, get_modify_other _ _ _ _ hsame]
      exact h.get other

theorem addChild (h : f.Mirrors m f') (id : InvocationId) {c c' : Child} (hc : c.Mirrors m c') :
    (f.addChild id c).Mirrors m (f'.addChild id c') := by
  refine h.modify id fun i i' hi => { hi with children := ?_ }
  simp only [Array.toList_push]
  exact List.rel_append hi.children (.cons hc .nil)

theorem ancestors (h : f.Mirrors m f') (id : InvocationId) : f.ancestors id = f'.ancestors id := by
  have hupTo : ∀ fuel id, f.ancestorsUpTo fuel id = f'.ancestorsUpTo fuel id := by
    intro fuel
    induction fuel with
    | zero => exact fun _ => rfl
    | succ fuel ih =>
      intro id
      simp only [ancestorsUpTo, (h.get id).parent, ih]
  simp only [Forest.ancestors, h.size, hupTo]

theorem ruleStack (h : f.Mirrors m f') (names : Array String) (id : InvocationId) :
    f.ruleStack names id = f'.ruleStack names id := by
  simp only [Forest.ruleStack, h.ancestors, (h.get _).rule]

end Forest.Mirrors

/-- A mirror of inputs, and which errors stand for each other. -/
structure ParseMirror extends Mirror where
  error : SyntaxError → SyntaxError → Prop

/-- Predicates answer the same, and the reports made on either side stand for each other. -/
structure ParseMirror.Faithful (env : Setting) (m : ParseMirror) : Prop extends
    m.toMirror.Faithful where
  predicates : ∀ {f f' : Forest}, f.Mirrors m.toMirror f' → env.predicates f = env.predicates f'
  code : ∀ {e e' : SyntaxError}, m.error e e' → e.code = e'.code
  tokenIndex : ∀ {e e' : SyntaxError}, m.error e e' →
    Option.Rel m.index e.tokenIndex e'.tokenIndex
  context : ∀ {e e' : SyntaxError}, m.error e e' → ∀ context : List String,
    m.error { e with context } { e' with context }
  ofToken : ∀ {t t' : Token}, m.token t t' → ∀ (code : ErrorCode) (message : String),
    m.error (.ofToken code message t) (.ofToken code message t')
  describe : ∀ {p p' : Parser}, m.cursor p.recognizer.input p'.recognizer.input →
    ∀ {e e' : RecognitionError} {d : DecisionId} {start start' : Token}, e.Mirrors m.toMirror e' →
      m.token start start' → e.kind = .noViableAlternative d start →
        e'.kind = .noViableAlternative d start' → m.error (p.describe env e) (p'.describe env e')

/-- The recognizers stand at the same place with the same invocations, and all else they hold stands
for each other; what listeners were told and which actions were run is not compared. -/
structure Recognizer.Mirrors (m : ParseMirror) (r r' : Recognizer) : Prop where
  input : m.cursor r.input r'.input
  cache : ∀ d, Option.Rel Automaton.Renumbers (r.cache.get? d) (r'.cache.get? d)
  forest : r.forest.Mirrors m.toMirror r'.forest
  invocation : r.invocation = r'.invocation
  state : r.state = r'.state
  floors : r.floors = r'.floors
  nesting : r.nesting = r'.nesting
  errors : List.Forall₂ m.error r.errors.toList r'.errors.toList
  matchedEof : r.matchedEof = r'.matchedEof

/-- Caches whose automata hold the same do so with two that hold the same in the place of others. -/
theorem PredictionCache.renumbers_set {c c' : PredictionCache} {d : DecisionId} {a b a' b' : Automaton}
    (h : ∀ e, Option.Rel Automaton.Renumbers (c.get? e) (c'.get? e)) (hd : c.get? d = some a)
    (hd' : c'.get? d = some b) (ha : a'.Renumbers b') (e : DecisionId) :
    Option.Rel Automaton.Renumbers ((c.set d a').get? e) ((c'.set d b').get? e) := by
  have hlt : d < c.automata.size := (Array.getElem?_eq_some_iff.1 hd).1
  have hlt' : d < c'.automata.size := (Array.getElem?_eq_some_iff.1 hd').1
  simp only [get?, set, Array.getElem?_setIfInBounds, if_pos hlt, if_pos hlt']
  split
  · exact .some ha
  · exact h e

namespace Recognizer.Mirrors

variable {env : Setting} {m : ParseMirror} {r r' : Recognizer}

theorem precedence (h : r.Mirrors m r') : r.precedence = r'.precedence := by
  simp only [Recognizer.precedence, h.floors]

theorem permits (h : r.Mirrors m r') (level : Int) : r.permits level = r'.permits level := by
  simp only [Recognizer.permits, h.precedence]

theorem holds (hm : m.Faithful env) (h : r.Mirrors m r') (rule : RuleId) (index : Nat) :
    r.holds env rule index = r'.holds env rule index := by
  simp only [Recognizer.holds, hm.predicates h.forest, h.invocation]

theorem returnsFrom (h : r.Mirrors m r') (id : Option InvocationId) :
    r.returnsFrom env id = r'.returnsFrom env id := by
  simp only [Recognizer.returnsFrom, h.forest.ancestors, (h.forest.get _).caller]

theorem expectedAt (h : r.Mirrors m r') (state : Option StateId) (id : Option InvocationId) :
    r.expectedAt env state id = r'.expectedAt env state id := by
  simp only [Recognizer.expectedAt, h.returnsFrom]

theorem expected (h : r.Mirrors m r') : r.expected env = r'.expected env := by
  simp only [Recognizer.expected, h.expectedAt, h.state, h.invocation]

theorem recoverySet (h : r.Mirrors m r') : r.recoverySet env = r'.recoverySet env := by
  simp only [Recognizer.recoverySet, h.returnsFrom, h.invocation]

theorem ruleStack (h : r.Mirrors m r') : r.ruleStack env = r'.ruleStack env := by
  simp only [Recognizer.ruleStack, h.invocation, h.forest.ruleStack]

theorem mismatch (hm : m.Faithful env) (h : r.Mirrors m r') {k k' : MismatchKind}
    (hk : k.Mirrors m.toMirror k') : (r.mismatch env k).Mirrors m.toMirror (r'.mismatch env k') :=
  ⟨hk, hm.current h.input, h.state, h.invocation, h.expected⟩

theorem inputMismatch (hm : m.Faithful env) (h : r.Mirrors m r') :
    (r.inputMismatch env).Mirrors m.toMirror (r'.inputMismatch env) :=
  h.mismatch hm .inputMismatch

theorem noViableHere (hm : m.Faithful env) (h : r.Mirrors m r') (d : DecisionId) :
    (r.noViableHere env d).Mirrors m.toMirror (r'.noViableHere env d) :=
  h.mismatch hm (.noViableAlternative d (hm.current h.input))

theorem failedPredicate (hm : m.Faithful env) (h : r.Mirrors m r') (predicate : String) :
    (r.failedPredicate env predicate).Mirrors m.toMirror (r'.failedPredicate env predicate) := by
  unfold Recognizer.failedPredicate
  simp only [h.invocation, (h.forest.get _).rule]
  exact h.mismatch hm (.failedPredicate _ _)

theorem goTo (h : r.Mirrors m r') (state : Option StateId) :
    Recognizer.Mirrors m { r with state } { r' with state } := { h with state := rfl }

theorem addChild (h : r.Mirrors m r') {c c' : Child} (hc : c.Mirrors m.toMirror c') :
    (r.addChild c).Mirrors m (r'.addChild c') := by
  unfold Recognizer.addChild
  rw [h.invocation]
  split
  · exact h
  · exact { h with forest := h.forest.addChild _ hc, invocation := rfl }

theorem consume (hm : m.Faithful env) (h : r.Mirrors m r') (inRecovery : Bool) :
    (r.consume env inRecovery).Mirrors m (r'.consume env inRecovery) := by
  have ht := hm.current h.input
  have hnext : Recognizer.Mirrors m { r with input := r.input.consume }
      { r' with input := r'.input.consume } := { h with input := hm.consume h.input }
  unfold Recognizer.consume
  dsimp only
  split
  · exact hnext.addChild (.error ht)
  · split
    · exact hnext.addChild (.token ht)
    · exact hnext

theorem newInvocation (hm : m.Faithful env) (h : r.Mirrors m r') (rule : RuleId) (precedence : Int) :
    (r.newInvocation rule precedence).Mirrors m.toMirror (r'.newInvocation rule precedence) := by
  refine ⟨rfl, h.invocation, ?_, rfl, .nil, hm.number (hm.current h.input), .none, .none⟩
  simp only [Recognizer.newInvocation, h.invocation, h.state]

/-- Calls come to the same: the only thing that can stop them is how deep they are nested. -/
theorem enter (h : r.Mirrors m r') (rule : RuleId)
    {allocate allocate' : Recognizer → InvocationId × Recognizer}
    (ha : ∀ r r' : Recognizer, r.Mirrors m r' →
      (allocate r).1 = (allocate' r').1 ∧ (allocate r).2.Mirrors m (allocate' r').2) :
    SameOutcome m.toMirror Eq ((r.enter env rule allocate).1.mapError .failure)
        ((r'.enter env rule allocate').1.mapError .failure) ∧
      (r.enter env rule allocate).2.Mirrors m (r'.enter env rule allocate').2 := by
  unfold Recognizer.enter
  rw [h.nesting]
  split
  · exact ⟨.error (.failure (.nestingTooDeep _ _)), h⟩
  · rename_i nesting _
    obtain ⟨hid, hr⟩ := ha { r with nesting } { r' with nesting } { h with nesting := rfl }
    dsimp only
    rw [hid]
    exact ⟨.ok rfl, { hr with invocation := rfl, state := rfl }⟩

theorem enterRule (hm : m.Faithful env) (h : r.Mirrors m r') (rule : RuleId) :
    SameOutcome m.toMirror Eq ((r.enterRule env rule).1.mapError .failure)
        ((r'.enterRule env rule).1.mapError .failure) ∧
      (r.enterRule env rule).2.Mirrors m (r'.enterRule env rule).2 := by
  refine h.enter rule fun r r' h => ?_
  obtain ⟨hid, hf⟩ := h.forest.alloc (h.newInvocation hm rule 0)
  have hnode : Recognizer.Mirrors m
      { r with forest := (r.forest.alloc (r.newInvocation rule 0)).2 }
      { r' with forest := (r'.forest.alloc (r'.newInvocation rule 0)).2 } := { h with forest := hf }
  refine ⟨hid, ?_⟩
  dsimp only
  rw [hid]
  exact hnode.addChild (.rule _)

theorem enterRecursion (hm : m.Faithful env) (h : r.Mirrors m r') (rule : RuleId)
    (precedence : Int) :
    SameOutcome m.toMirror Eq ((r.enterRecursion env rule precedence).1.mapError .failure)
        ((r'.enterRecursion env rule precedence).1.mapError .failure) ∧
      (r.enterRecursion env rule precedence).2.Mirrors m
        (r'.enterRecursion env rule precedence).2 := by
  refine h.enter rule fun r r' h => ?_
  obtain ⟨hid, hf⟩ := h.forest.alloc (h.newInvocation hm rule precedence)
  exact ⟨hid, { h with forest := hf, floors := congrArg (precedence :: ·) h.floors }⟩

theorem exitRule (hm : m.Faithful env) (h : r.Mirrors m r') :
    r.exitRule.Mirrors m r'.exitRule := by
  have hstop : Option.Rel m.index
      (if r.matchedEof then r.input.current.index else r.input.previousIndex)
      (if r'.matchedEof then r'.input.current.index else r'.input.previousIndex) := by
    rw [h.matchedEof]
    split
    · exact hm.number (hm.current h.input)
    · exact hm.toFaithful.previousIndex h.input
  unfold Recognizer.exitRule
  rw [h.invocation]
  split
  · exact h
  · rename_i id _
    exact { h with
      forest := h.forest.modify id fun i i' hi => { hi with stop := hstop }
      state := (h.forest.get id).caller
      invocation := (h.forest.get id).parent
      nesting := congrArg NestingLimit.exit h.nesting }

theorem pushRecursion (hm : m.Faithful env) (h : r.Mirrors m r') (state : StateId) (rule : RuleId) :
    (r.pushRecursion state rule).2.Mirrors m (r'.pushRecursion state rule).2 := by
  unfold Recognizer.pushRecursion
  rw [h.invocation]
  split
  · exact h
  · rename_i previous _
    have hold := h.forest.get previous
    have hstop := hm.toFaithful.previousIndex h.input
    have hnode : Invocation.Mirrors m.toMirror
        { rule, parent := (r.forest.get previous).parent, caller := (r.forest.get previous).caller
          precedence := (r.forest.get previous).precedence
          start := (r.forest.get previous).start, children := #[.rule previous] }
        { rule, parent := (r'.forest.get previous).parent, caller := (r'.forest.get previous).caller
          precedence := (r'.forest.get previous).precedence
          start := (r'.forest.get previous).start, children := #[.rule previous] } :=
      ⟨rfl, hold.parent, hold.caller, hold.precedence, .cons (.rule _) .nil, hold.start, .none, .none⟩
    obtain ⟨hid, hf⟩ := h.forest.alloc hnode
    exact { h with
      forest := hf.modify previous fun i i' hi =>
        { hi with stop := hstop, parent := congrArg some hid, caller := rfl }
      invocation := congrArg some hid }

theorem unrollRecursion (hm : m.Faithful env) (h : r.Mirrors m r') (parent : Option InvocationId) :
    (r.unrollRecursion parent).1 = (r'.unrollRecursion parent).1 ∧
      (r.unrollRecursion parent).2.Mirrors m (r'.unrollRecursion parent).2 := by
  have hstop := hm.toFaithful.previousIndex h.input
  unfold Recognizer.unrollRecursion
  dsimp only
  rw [h.floors, h.invocation]
  split
  · exact ⟨rfl, { h with floors := rfl, invocation := rfl }⟩
  · rename_i done _
    have hf : (r.forest.modify done fun i =>
          { i with stop := r.input.previousIndex, parent }).Mirrors m.toMirror
        (r'.forest.modify done fun i => { i with stop := r'.input.previousIndex, parent }) :=
      h.forest.modify done fun i i' hi => { hi with stop := hstop, parent := rfl }
    refine ⟨rfl, { h with
      forest := ?_
      floors := rfl
      invocation := rfl
      state := (h.forest.get done).caller
      nesting := congrArg NestingLimit.exit h.nesting }⟩
    cases parent with
    | none => exact hf
    | some p => exact hf.addChild p (.rule done)

theorem recordError (h : r.Mirrors m r') {e e' : RecognitionError} (he : e.Mirrors m.toMirror e')
    (everywhere : Bool) : (r.recordError e everywhere).Mirrors m (r'.recordError e' everywhere) := by
  have hfold : ∀ (ids : List InvocationId) (f f' : Forest), f.Mirrors m.toMirror f' →
      (ids.foldl (fun f id => f.modify id fun i => { i with error := i.error <|> some e })
        f).Mirrors m.toMirror
      (ids.foldl (fun f id => f.modify id fun i => { i with error := i.error <|> some e' }) f') := by
    intro ids
    induction ids with
    | nil => exact fun _ _ hf => hf
    | cons id ids ih =>
      intro f f' hf
      refine ih _ _ (hf.modify id fun i i' hi => { hi with error := ?_ })
      have herror := hi.error
      generalize i.error = x at herror ⊢
      generalize i'.error = y at herror ⊢
      cases herror with
      | none => exact .some he
      | some herror => exact .some herror
  unfold Recognizer.recordError
  rw [h.invocation]
  split
  · exact h
  · rename_i id _
    rw [h.forest.ancestors]
    exact { h with forest := hfold _ _ _ h.forest, invocation := rfl }

/-- An error repeats one on the one side if and only if it does on the other. -/
theorem notify (hm : m.Faithful env) (h : r.Mirrors m r') {e e' : SyntaxError} (he : m.error e e') :
    (r.notify env e).Mirrors m (r'.notify env e') := by
  have hkey : ∀ {x x' : SyntaxError}, m.error x x' → (x.key == e.key) = (x'.key == e'.key) := by
    intro x x' hx
    have hindex : x.tokenIndex = e.tokenIndex ↔ x'.tokenIndex = e'.tokenIndex := by
      have hx := hm.tokenIndex hx
      have he := hm.tokenIndex he
      generalize x.tokenIndex = a at hx ⊢
      generalize x'.tokenIndex = a' at hx ⊢
      generalize e.tokenIndex = b at he ⊢
      generalize e'.tokenIndex = b' at he ⊢
      cases hx with
      | none => cases he <;> simp
      | some hx =>
        cases he with
        | none => simp
        | some he => simpa using hm.index_eq_iff hx he
    rw [Bool.eq_iff_iff, beq_iff_eq, beq_iff_eq]
    simp only [SyntaxError.key, Prod.mk.injEq, hm.code hx, hm.code he, hindex]
  have hany : r.errors.any (fun other => other.key == e.key) =
      r'.errors.any fun other => other.key == e'.key := by
    rw [← Array.any_toList, ← Array.any_toList]
    have hall := h.errors
    generalize r.errors.toList = xs at hall
    generalize r'.errors.toList = ys at hall
    induction hall with
    | nil => rfl
    | cons hx _ ih => rw [List.any_cons, List.any_cons, hkey hx, ih]
  unfold Recognizer.notify
  rw [hany]
  split
  · exact h
  · refine { h with errors := ?_ }
    rw [h.ruleStack]
    simp only [Array.toList_push]
    exact List.rel_append h.errors (.cons (hm.context he _) .nil)

theorem simulation (hm : m.Faithful env) (h : r.Mirrors m r') (d : DecisionId) :
    (r.simulation env d).SameView (r'.simulation env d) where
  network := rfl
  invocation := h.invocation
  floor := by simp only [Recognizer.simulation, h.precedence]
  answers := hm.predicates h.forest
  size := h.forest.size
  parent id := (h.forest.get id).parent
  caller id := (h.forest.get id).caller
  precedence id := (h.forest.get id).precedence

theorem noViable (hm : m.Faithful env) (h : r.Mirrors m r') (d : DecisionId)
    {start start' offending offending' : Nat} (hs : m.index start start')
    (ho : m.index offending offending') : (r.noViable env d start offending).Mirrors m.toMirror
      (r'.noViable env d start' offending') := by
  have hat : ∀ {i i'}, m.index i i' →
      m.token ((r.input.get? i).getD .endOfInput) ((r'.input.get? i').getD .endOfInput) := by
    intro i i' hi
    have ht := hm.get? h.input hi
    generalize r.input.get? i = x at ht ⊢
    generalize r'.input.get? i' = y at ht ⊢
    cases ht with
    | none => exact hm.endOfInput
    | some ht => exact ht
  exact ⟨.noViableAlternative d (hat hs), hat ho, h.state, h.invocation, h.expected⟩

/-- Lookahead in automata that hold the same comes to the same. -/
theorem speculate_predict (hm : m.Faithful env) (h : r.Mirrors m r') (d : DecisionId) {a b : Automaton}
    (ha : a.Renumbers b) :
    let x := r.input.speculate fun c =>
      let (p, a, c) := (r.simulation env d).predict d env.config.mode a c
      ((p, a), c)
    let y := r'.input.speculate fun c =>
      let (p, a, c) := (r'.simulation env d).predict d env.config.mode b c
      ((p, a), c)
    (x.1.1.Mirrors m.toMirror y.1.1 ∧ x.1.2.Renumbers y.1.2) ∧ m.cursor x.2 y.2 := by
  have hlook : ∀ c c', m.cursor c c' →
      Simulation.SameRun m.toMirror ((r.simulation env d).predict d env.config.mode a c)
        ((r'.simulation env d).predict d env.config.mode b c') :=
    fun c c' hc => Simulation.predict_mirrors hm.toFaithful (h.simulation hm d) d _ ha hc
  exact hm.toFaithful.speculate
    (R := fun (x y : Prediction × Automaton) => x.1.Mirrors m.toMirror y.1 ∧ x.2.Renumbers y.2)
    h.input _ _
    fun c c' hc => ⟨⟨(hlook c c' hc).prediction, (hlook c c' hc).automata⟩, (hlook c c' hc).cursor⟩

/-- A decision comes out the same, and the automata still hold the same. -/
theorem predict (hm : m.Faithful env) (h : r.Mirrors m r') (d : DecisionId) :
    SameOutcome m.toMirror Eq (r.predict env d).1 (r'.predict env d).1 ∧
      (r.predict env d).2.Mirrors m (r'.predict env d).2 := by
  have ha := h.cache d
  unfold Recognizer.predict
  generalize hd : r.cache.get? d = x at ha ⊢
  generalize hd' : r'.cache.get? d = y at ha ⊢
  cases ha with
  | none => exact ⟨.error (.recognition (h.noViableHere hm d)), h⟩
  | @some a b ha =>
    obtain ⟨⟨hp, ha'⟩, hc⟩ := h.speculate_predict hm d ha
    dsimp only at hp ha' hc ⊢
    generalize r.input.speculate _ = x at hp ha' hc ⊢
    generalize r'.input.speculate _ = y at hp ha' hc ⊢
    obtain ⟨⟨p, a₁⟩, c₁⟩ := x
    obtain ⟨⟨p', b₁⟩, c₁'⟩ := y
    have hr : Recognizer.Mirrors m { r with input := c₁, cache := r.cache.set d a₁ }
        { r' with input := c₁', cache := r'.cache.set d b₁ } :=
      { h with input := hc, cache := PredictionCache.renumbers_set h.cache hd hd' ha' }
    cases hp with
    | alternative alt => exact ⟨.ok rfl, hr⟩
    | noViable hs ho => exact ⟨.error (.recognition (hr.noViable hm d hs ho)), hr⟩
    | unsettled => exact ⟨.error (.unsettled d), hr⟩

end Recognizer.Mirrors

end AdaptiveParsing
