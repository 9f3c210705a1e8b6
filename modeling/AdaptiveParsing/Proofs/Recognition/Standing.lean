import AdaptiveParsing.Proofs.Recognition.Yield
/-!
What deeds leave alone. Whatever a rule method does between two rounds, calls and returns, the parse still
stands at the same state of the same invocations, inside the same callers, with the same floors and the same
depth (`Recognizer.SamePlace`). So what can come next from there is the same. Main statement:
`Parser.Deeds.samePlace`.
-/

namespace AdaptiveParsing

open AdaptiveParsing.Parser

variable {env : Setting}

/-- Where an invocation was called from: the invocation around it, and the state there. -/
def Invocation.origin (i : Invocation) : Option InvocationId × Option StateId := (i.parent, i.caller)

namespace Recognizer

/-- The parse stands at the same state of the same invocations. What was read, what was reported and what is
noted of the invocations may differ. -/
structure SamePlace (r r' : Recognizer) : Prop where
  invocation : r'.invocation = r.invocation
  state : r'.state = r.state
  floors : r'.floors = r.floors
  nesting : r'.nesting = r.nesting
  size : r'.forest.size = r.forest.size
  origin : ∀ id, (r'.forest.get id).origin = (r.forest.get id).origin

variable {r r' r'' : Recognizer}

theorem SamePlace.refl (r : Recognizer) : r.SamePlace r :=
  ⟨rfl, rfl, rfl, rfl, rfl, fun _ => rfl⟩

theorem SamePlace.trans (h : r.SamePlace r') (h' : r'.SamePlace r'') : r.SamePlace r'' where
  invocation := h'.invocation.trans h.invocation
  state := h'.state.trans h.state
  floors := h'.floors.trans h.floors
  nesting := h'.nesting.trans h.nesting
  size := h'.size.trans h.size
  origin id := (h'.origin id).trans (h.origin id)

theorem SamePlace.parent (h : r.SamePlace r') (id : InvocationId) :
    (r'.forest.get id).parent = (r.forest.get id).parent := congrArg Prod.fst (h.origin id)

theorem SamePlace.caller (h : r.SamePlace r') (id : InvocationId) :
    (r'.forest.get id).caller = (r.forest.get id).caller := congrArg Prod.snd (h.origin id)

/-- Something is noted of an invocation that is not where it was called from. -/
theorem samePlace_modify (r : Recognizer) (id : InvocationId) {g : Invocation → Invocation}
    (hg : ∀ i, (g i).origin = i.origin) :
    r.SamePlace { r with forest := r.forest.modify id g } where
  invocation := rfl
  state := rfl
  floors := rfl
  nesting := rfl
  size := r.forest.size_modify id g
  origin other := Forest.get_modify_note Invocation.origin hg r.forest id other

theorem samePlace_addChild (r : Recognizer) (c : Child) : r.SamePlace (r.addChild c) := by
  unfold addChild
  split
  · exact .refl r
  · exact r.samePlace_modify _ fun _ => rfl

theorem samePlace_consume (r : Recognizer) (inRecovery : Bool) :
    r.SamePlace (r.consume env inRecovery) := by
  have hmoved : r.SamePlace { r with input := r.input.consume } :=
    ⟨rfl, rfl, rfl, rfl, rfl, fun _ => rfl⟩
  unfold consume
  dsimp only
  split
  · exact hmoved.trans (samePlace_addChild _ _)
  · split
    · exact hmoved.trans (samePlace_addChild _ _)
    · exact hmoved

theorem samePlace_recordError (r : Recognizer) (e : RecognitionError) (everywhere : Bool) :
    r.SamePlace (r.recordError e everywhere) := by
  unfold recordError
  split
  · exact .refl r
  · refine ⟨rfl, rfl, rfl, rfl, Forest.size_blame e _ _, ?_⟩
    exact Forest.get_blame Invocation.origin (fun _ _ => rfl) e _ _

theorem samePlace_notify (r : Recognizer) (e : SyntaxError) : r.SamePlace (r.notify env e) := by
  unfold notify
  dsimp only
  split
  · exact .refl r
  · exact ⟨rfl, rfl, rfl, rfl, rfl, fun _ => rfl⟩

theorem samePlace_predict (r : Recognizer) (d : DecisionId) : r.SamePlace (r.predict env d).2 := by
  have hsame := r.sameTree_predict env d
  refine ⟨hsame.invocation, hsame.state, hsame.floors, ?_, ?_, ?_⟩
  · unfold predict
    split
    · rfl
    · dsimp only
      split <;> rfl
  · rw [hsame.forest]
  · exact fun id => by rw [hsame.forest]

/-- The callers of the live invocations are the same. -/
theorem SamePlace.returnsFrom (h : r.SamePlace r') (id : Option InvocationId) :
    r'.returnsFrom env id = r.returnsFrom env id := by
  have hupTo : ∀ fuel id, r'.forest.ancestorsUpTo fuel id = r.forest.ancestorsUpTo fuel id := by
    intro fuel
    induction fuel with
    | zero => exact fun _ => rfl
    | succ fuel ih =>
      intro id
      simp only [Forest.ancestorsUpTo, h.parent id, ih]
  simp only [Recognizer.returnsFrom, Forest.ancestors, h.size, hupTo, h.caller]

theorem SamePlace.expected (h : r.SamePlace r') : r'.expected env = r.expected env := by
  simp only [Recognizer.expected, Recognizer.expectedAt, h.state, h.invocation, h.returnsFrom]

theorem SamePlace.recoverySet (h : r.SamePlace r') : r'.recoverySet env = r.recoverySet env := by
  simp only [Recognizer.recoverySet, h.invocation, h.returnsFrom]

end Recognizer

namespace Parser

variable {p p' : Parser}

theorem samePlace_reportOnce (p : Parser) (e : SyntaxError) :
    p.recognizer.SamePlace (p.reportOnce env e).recognizer := by
  unfold reportOnce
  split
  · exact .refl _
  · exact p.recognizer.samePlace_notify e

theorem Deed.samePlace (h : Deed env p p') : p.recognizer.SamePlace p'.recognizer := by
  cases h with
  | note _ h _ =>
    rw [h]
    exact ⟨rfl, rfl, rfl, rfl, rfl, fun _ => rfl⟩
  | predict d => exact p.recognizer.samePlace_predict d
  | consume => exact p.recognizer.samePlace_consume _
  | conjure _ => exact p.recognizer.samePlace_addChild _
  | blame e everywhere => exact p.recognizer.samePlace_recordError e everywhere
  | report e => exact p.samePlace_reportOnce e

/-- Deeds leave the parse where it is. -/
theorem Deeds.samePlace (h : Deeds env p p') : p.recognizer.SamePlace p'.recognizer := by
  induction h with
  | refl => exact .refl _
  | tail _ hd ih => exact ih.trans hd.samePlace

end Parser

end AdaptiveParsing
