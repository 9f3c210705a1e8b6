import AdaptiveParsing.Proofs.Recognition.Standing
/-!
Rules are closed however they end. Rule methods are put together from what a parser offers
(`Parser.Composed`), calls of other rules among them, and may stop anywhere. Between the opening of a rule and
its closing another round may take the place of its invocation, but it is called from the same place
(`Recognizer.Within`), so closing goes back to where the rule was opened. Main statement:
`Parser.rule_closes`.
-/

namespace AdaptiveParsing

open AdaptiveParsing.Parser

variable {env : Setting}

namespace Recognizer

variable {r r' r'' : Recognizer} {rule : RuleId} {precedence : Int} {id : InvocationId}

/-- There is a floor, and the innermost invocation is one of the forest. -/
structure Grounded (r : Recognizer) : Prop where
  floors : r.floors ≠ []
  invocation : ∀ id, r.invocation = some id → id < r.forest.size

/-- The parse stays within the innermost invocation, or a later round has taken its place. No other invocation
is called from elsewhere. -/
structure Within (r r' : Recognizer) : Prop where
  floors : r'.floors = r.floors
  nesting : r'.nesting = r.nesting
  size : r.forest.size ≤ r'.forest.size
  origin : ∀ id < r.forest.size, r.invocation ≠ some id →
    (r'.forest.get id).origin = (r.forest.get id).origin
  outside : r.invocation = none → r'.invocation = none
  inside : ∀ id, r.invocation = some id → ∃ id', r'.invocation = some id' ∧
    (id' = id ∨ r.forest.size ≤ id') ∧ id' < r'.forest.size ∧
      (r'.forest.get id').origin = (r.forest.get id).origin

/-- A new invocation was opened, called from where the parse stood. -/
structure Opens (r r' : Recognizer) : Prop where
  nesting : r.nesting.enter = .ok r'.nesting
  invocation : r'.invocation = some r.forest.size
  size : r'.forest.size = r.forest.size + 1
  origin : ∀ id < r.forest.size, (r'.forest.get id).origin = (r.forest.get id).origin
  called : (r'.forest.get r.forest.size).origin =
    (r.invocation, if r.invocation.isSome then r.state else none)

/-- The parse is back where it was, at the state of the caller if there is one. -/
structure Returns (r r' : Recognizer) : Prop where
  invocation : r'.invocation = r.invocation
  nesting : r'.nesting = r.nesting
  floors : r'.floors = r.floors
  state : r'.state = if r.invocation.isSome then r.state else none
  size : r.forest.size ≤ r'.forest.size
  origin : ∀ id < r.forest.size, (r'.forest.get id).origin = (r.forest.get id).origin

theorem Within.refl (h : r.Grounded) : r.Within r where
  floors := rfl
  nesting := rfl
  size := Nat.le_refl _
  origin _ _ _ := rfl
  outside := id
  inside id hid := ⟨id, hid, .inl rfl, h.invocation id hid, rfl⟩

theorem Within.grounded (h : r.Within r') (hg : r.Grounded) : r'.Grounded := by
  refine ⟨h.floors ▸ hg.floors, fun id hid => ?_⟩
  cases hr : r.invocation with
  | none =>
    rw [h.outside hr] at hid
    cases hid
  | some previous =>
    obtain ⟨next, hnext, -, hlt, -⟩ := h.inside previous hr
    rw [hnext] at hid
    cases hid
    exact hlt

theorem Within.trans (h : r.Within r') (h' : r'.Within r'') : r.Within r'' where
  floors := h'.floors.trans h.floors
  nesting := h'.nesting.trans h.nesting
  size := Nat.le_trans h.size h'.size
  origin := by
    intro id hlt hne
    have hother : r'.invocation ≠ some id := by
      intro hid
      cases hr : r.invocation with
      | none =>
        rw [h.outside hr] at hid
        cases hid
      | some previous =>
        obtain ⟨next, hnext, hplace, -, -⟩ := h.inside previous hr
        rw [hnext] at hid
        cases hid
        rcases hplace with rfl | hle
        · exact hne hr
        · omega
    exact (h'.origin id (Nat.lt_of_lt_of_le hlt h.size) hother).trans (h.origin id hlt hne)
  outside := h'.outside ∘ h.outside
  inside := by
    intro id hid
    obtain ⟨id', hid', hplace, -, horigin⟩ := h.inside id hid
    obtain ⟨id'', hid'', hplace', hlt, horigin'⟩ := h'.inside id' hid'
    have hsize := h.size
    refine ⟨id'', hid'', ?_, hlt, horigin'.trans horigin⟩
    rcases hplace' with rfl | hle
    · exact hplace
    · exact .inr (Nat.le_trans hsize hle)

theorem within_state (hg : r.Grounded) (s : Option StateId) : r.Within { r with state := s } where
  floors := rfl
  nesting := rfl
  size := Nat.le_refl _
  origin _ _ _ := rfl
  outside := id
  inside id hid := ⟨id, hid, .inl rfl, hg.invocation id hid, rfl⟩

/-- Deeds do not leave the invocation. -/
theorem SamePlace.within (h : r.SamePlace r') (hg : r.Grounded) : r.Within r' where
  floors := h.floors
  nesting := h.nesting
  size := Nat.le_of_eq h.size.symm
  origin id _ _ := h.origin id
  outside hr := h.invocation.trans hr
  inside id hid := by
    have hlt := hg.invocation id hid
    exact ⟨id, h.invocation.trans hid, .inl rfl, by rw [h.size]; exact hlt, h.origin id⟩

theorem Returns.within (h : r.Returns r') (hg : r.Grounded) : r.Within r' where
  floors := h.floors
  nesting := h.nesting
  size := h.size
  origin id hlt _ := h.origin id hlt
  outside hr := h.invocation.trans hr
  inside id hid := by
    have hlt := hg.invocation id hid
    exact ⟨id, h.invocation.trans hid, .inl rfl, Nat.lt_of_lt_of_le hlt h.size, h.origin id hlt⟩

/-- Another round takes the place of the innermost invocation and is called from the same place. -/
theorem within_pushRecursion (hg : r.Grounded) (s : StateId) (rule : RuleId) :
    r.Within (r.pushRecursion s rule).2 := by
  cases hr : r.invocation with
  | none =>
    unfold pushRecursion
    rw [hr]
    exact .refl hg
  | some id =>
    have hlt := hg.invocation id hr
    obtain ⟨-, hsize, hnew, -, hothers⟩ := Forest.alloc_modify hlt (r.forest.nextRound rule id)
      (g := Invocation.handOver r.input.previousIndex r.forest.size s) (fun _ => rfl) fun _ => rfl
    rw [pushRecursion_eq s rule hr]
    refine ⟨rfl, rfl, ?_, ?_, ?_, ?_⟩
    · exact Nat.le_of_lt (hsize ▸ Nat.lt_succ_self _)
    · intro other ho hne
      exact congrArg Invocation.origin (hothers other ho fun he => hne (hr.trans (he ▸ rfl)))
    · intro hnone
      rw [hr] at hnone
      cases hnone
    · intro previous hprevious
      obtain rfl : id = previous := Option.some.inj (hr.symm.trans hprevious)
      refine ⟨r.forest.size, rfl, .inr (Nat.le_refl _), hsize ▸ Nat.lt_succ_self _, ?_⟩
      exact (congrArg Invocation.origin hnew).trans rfl

theorem opens_alloc {nesting : NestingLimit} (hn : r.nesting.enter = .ok nesting)
    (node : Invocation) (hnode : node.origin =
      (r.invocation, if r.invocation.isSome then r.state else none)) (s : Option StateId)
    (floors : List Int) : r.Opens { r with
      nesting, floors, state := s
      forest := (r.forest.alloc node).2
      invocation := some r.forest.size } where
  nesting := hn
  invocation := rfl
  size := Forest.size_alloc _ _
  origin id hlt := by rw [Forest.get_alloc, if_neg (Nat.ne_of_lt hlt)]
  called := by rw [Forest.get_alloc, if_pos rfl, hnode]

theorem Opens.note (h : r.Opens r') (hf : r''.forest.size = r'.forest.size)
    (ho : ∀ id, (r''.forest.get id).origin = (r'.forest.get id).origin)
    (hi : r''.invocation = r'.invocation) (hn : r''.nesting = r'.nesting) : r.Opens r'' where
  nesting := hn ▸ h.nesting
  invocation := hi.trans h.invocation
  size := hf.trans h.size
  origin id hlt := (ho id).trans (h.origin id hlt)
  called := (ho _).trans h.called

/-- Why a rule is not opened. -/
def tooDeep (env : Setting) (r : Recognizer) (rule : RuleId) : ParseFailure :=
  .nestingTooDeep (env.network.rule rule).name r.nesting.limit

/-- A rule is opened unless the nesting is too deep, and then nothing is done. -/
theorem enter_cases (env : Setting) (r : Recognizer) (rule : RuleId)
    (allocate : Recognizer → InvocationId × Recognizer) :
    r.nesting.limit ≤ r.nesting.depth ∧ r.enter env rule allocate = (.error (r.tooDeep env rule), r) ∨
      r.nesting.depth < r.nesting.limit ∧ ∃ nesting, r.nesting.enter = .ok nesting ∧
        let opened := allocate { r with nesting }
        r.enter env rule allocate = (.ok opened.1, { opened.2 with
          invocation := some opened.1
          state := some (env.network.rule rule).start }) := by
  unfold enter
  rcases Nat.lt_or_ge r.nesting.depth r.nesting.limit with hlt | hle
  · have hn := NestingLimit.enter_eq_ok_iff.2 ⟨hlt, rfl⟩
    refine .inr ⟨hlt, _, hn, ?_⟩
    rw [hn]
  · refine .inl ⟨hle, ?_⟩
    unfold NestingLimit.enter
    rw [if_pos hle]
    rfl

theorem enterRule_cases (env : Setting) (r : Recognizer) (rule : RuleId) :
    r.nesting.limit ≤ r.nesting.depth ∧ r.enterRule env rule = (.error (r.tooDeep env rule), r) ∨
      r.nesting.depth < r.nesting.limit ∧
        ∃ id r', r.enterRule env rule = (.ok id, r') ∧ r.Opens r' ∧ r'.floors = r.floors := by
  unfold enterRule
  refine (enter_cases env r rule _).imp_right fun ⟨hlt, nesting, hn, he⟩ => ?_
  refine ⟨hlt, _, _, he, ?_, (fields_addChild _ _).2.2⟩
  have hopens := opens_alloc hn (r.newInvocation rule 0) rfl (some (env.network.rule rule).start) r.floors
  have hchild := samePlace_addChild (c := .rule r.forest.size)
    { r with nesting, forest := (r.forest.alloc (r.newInvocation rule 0)).2 }
  exact hopens.note hchild.size hchild.origin rfl hchild.nesting

theorem enterRecursion_cases (env : Setting) (r : Recognizer) (rule : RuleId) (precedence : Int) :
    r.nesting.limit ≤ r.nesting.depth ∧
        r.enterRecursion env rule precedence = (.error (r.tooDeep env rule), r) ∨
      r.nesting.depth < r.nesting.limit ∧ ∃ id r', r.enterRecursion env rule precedence = (.ok id, r') ∧
        r.Opens r' ∧ r'.floors = precedence :: r.floors := by
  unfold enterRecursion
  refine (enter_cases env r rule _).imp_right fun ⟨hlt, nesting, hn, he⟩ => ?_
  refine ⟨hlt, _, _, he, ?_, rfl⟩
  exact opens_alloc hn (r.newInvocation rule precedence) rfl (some (env.network.rule rule).start)
    (precedence :: r.floors)

/-- The invocation that was opened is still the innermost one, or a later round in its place. -/
theorem Opens.within (ho : r.Opens r') (hw : r'.Within r'') : ∃ id, r''.invocation = some id ∧
    r.forest.size ≤ r''.forest.size ∧ (r''.forest.get id).origin =
      (r.invocation, if r.invocation.isSome then r.state else none) ∧
    ∀ other < r.forest.size, (r''.forest.get other).origin = (r.forest.get other).origin := by
  have hsize := ho.size
  have hle := hw.size
  obtain ⟨id, hid, -, -, horigin⟩ := hw.inside _ ho.invocation
  refine ⟨id, hid, by omega, horigin.trans ho.called, ?_⟩
  intro other hother
  refine (hw.origin other (by omega) ?_).trans (ho.origin other hother)
  rw [ho.invocation]
  intro he
  exact Nat.lt_irrefl _ (Option.some.inj he ▸ hother)

theorem Opens.grounded (ho : r.Opens r') (hf : r'.floors ≠ []) : r'.Grounded := by
  refine ⟨hf, fun id hid => ?_⟩
  rw [ho.invocation] at hid
  cases hid
  rw [ho.size]
  exact Nat.lt_succ_self _

/-- An invocation is changed, but not where it was called from. -/
theorem origin_modify (f : Forest) (id other : InvocationId) {g : Invocation → Invocation}
    (hg : (g (f.get id)).origin = (f.get id).origin) :
    ((f.modify id g).get other).origin = (f.get other).origin := by
  by_cases ho : other = id
  · subst ho
    rcases f.get_modify_cases other other g with he | he
    · rw [he]
    · rw [he, hg]
  · rw [f.get_modify_other _ _ _ ho]

/-- Closing an ordinary rule goes back to where it was opened. -/
theorem Opens.returns_exitRule (ho : r.Opens r') (hf : r'.floors = r.floors) (hw : r'.Within r'') :
    r.Returns r''.exitRule := by
  obtain ⟨id, hid, hsize, horigin, hothers⟩ := ho.within hw
  unfold exitRule
  rw [hid]
  refine ⟨congrArg Prod.fst horigin, ?_, hw.floors.trans hf, congrArg Prod.snd horigin, ?_, ?_⟩
  · exact (congrArg NestingLimit.exit hw.nesting).trans (NestingLimit.exit_of_enter ho.nesting)
  · dsimp only
    rwa [Forest.size_modify]
  · intro other hother
    exact (origin_modify _ id other rfl).trans (hothers other hother)

/-- The invocation is hung below the one around it, from where it was called. -/
theorem origin_unrollRecursion (hid : r.invocation = some id) {parent : Option InvocationId}
    (hparent : (r.forest.get id).parent = parent) :
    (r.unrollRecursion parent).2.forest.size = r.forest.size ∧
      ∀ other, ((r.unrollRecursion parent).2.forest.get other).origin =
        (r.forest.get other).origin := by
  have hclosed : ∀ other, ((r.forest.modify id fun i =>
      { i with stop := r.input.previousIndex, parent }).get other).origin =
        (r.forest.get other).origin := by
    intro other
    exact origin_modify _ id other (Prod.ext hparent.symm rfl)
  obtain ⟨-, hforest, -, -⟩ := unrollRecursion_eq parent hid
  rw [hforest]
  cases parent with
  | none => exact ⟨Forest.size_modify _ _ _, hclosed⟩
  | some parent =>
    dsimp only
    refine ⟨(Forest.size_modify _ _ _).trans (Forest.size_modify _ _ _), fun other => ?_⟩
    exact (origin_modify _ parent other rfl).trans (hclosed other)

/-- Closing a left-recursive rule goes back to where it was opened. -/
theorem Opens.returns_unrollRecursion (ho : r.Opens r') (hg : r.floors ≠ [])
    (hf : r'.floors = precedence :: r.floors) (hw : r'.Within r'') :
    r.Returns (r''.unrollRecursion r.invocation).2 := by
  obtain ⟨id, hid, hsize, horigin, hothers⟩ := ho.within hw
  obtain ⟨floor, more, hfloors⟩ := List.exists_cons_of_ne_nil hg
  obtain ⟨hsize', horigin'⟩ := origin_unrollRecursion hid (congrArg Prod.fst horigin)
  have hnesting : r''.nesting.exit = r.nesting := by
    rw [hw.nesting]
    exact NestingLimit.exit_of_enter ho.nesting
  refine ⟨(unrollRecursion_eq r.invocation hid).2.2.1, ?_, ?_, ?_, hsize' ▸ hsize, ?_⟩
  · simp only [unrollRecursion, hid, hnesting]
  · simp only [unrollRecursion, hid, hw.floors, hf, hfloors]
  · simp only [unrollRecursion, hid]
    exact congrArg Prod.snd horigin
  · intro other hother
    exact (horigin' other).trans (hothers other hother)

end Recognizer

namespace Parser

variable {p : Parser} {α β : Type}

/-- Rule methods put together from what a parser offers. -/
inductive Composed (env : Setting) : {α : Type} → ParserM α → Prop
  | pure {α : Type} (a : α) : Composed env (pure a)
  | bind {α β : Type} {m : ParserM α} {f : α → ParserM β} (hm : Composed env m)
      (hf : ∀ a, Composed env (f a)) : Composed env (m >>= f)
  | throw {α : Type} (halt : Halt) : Composed env (throw halt : ParserM α)
  | tryCatch {α : Type} {m : ParserM α} {f : Halt → ParserM α} (hm : Composed env m)
      (hf : ∀ halt, Composed env (f halt)) : Composed env (tryCatch m f)
  | get : Composed env get
  | matchToken (t : TokenType) : Composed env (matchToken env t)
  | matchSet (types : TokenSet) : Composed env (matchSet env types)
  | matchAny : Composed env (matchAny env)
  | takeToken : Composed env (takeToken env)
  | sync : Composed env (sync env)
  | predict (d : DecisionId) : Composed env (predict env d)
  | checkPrecedence (level : Int) : Composed env (checkPrecedence env level)
  | setState (s : Option StateId) :
      Composed env (modify fun p => p.modifyRecognizer fun r => { r with state := s })
  | pushRecursion (s : StateId) (rule : RuleId) :
      Composed env (modify fun p => p.modifyRecognizer fun r => (r.pushRecursion s rule).2)
  | withRule (rule : RuleId) {body : ParserM Unit} (h : Composed env body) :
      Composed env (withRule env rule body)
  | withRecursionRule (rule : RuleId) (precedence : Int) {body : ParserM Unit} (h : Composed env body) :
      Composed env (withRecursionRule env rule precedence body)

theorem onRecognizer_run {ε α : Type} {cause : ε → Halt} {f : Recognizer → Except ε α × Recognizer}
    {outcome : Except ε α} {r : Recognizer} (h : f p.recognizer = (outcome, r)) :
    onRecognizer cause f p = (outcome.mapError cause, { p with recognizer := r }) := by
  unfold onRecognizer
  rw [h]

theorem withRule_of_error {e : ParseFailure} {rule : RuleId}
    (h : p.recognizer.enterRule env rule = (.error e, p.recognizer)) (body : ParserM Unit) :
    withRule env rule body p = (.error (.failure e), p) := by
  unfold withRule enterRule
  rw [onRecognizer_run h]
  rfl

/-- After the body come deeds, and then the invocation is closed. -/
theorem withRule_of_ok {rule : RuleId} {id : InvocationId} {r : Recognizer}
    (h : p.recognizer.enterRule env rule = (.ok id, r)) (body : ParserM Unit) :
    ∃ q, Deeds env (body { p with recognizer := r }).2 q ∧
      (withRule env rule body p).2 = q.modifyRecognizer Recognizer.exitRule := by
  unfold withRule enterRule
  rw [onRecognizer_run h]
  exact ⟨_, deeds_handle _ _, rfl⟩

theorem withRecursionRule_of_error {e : ParseFailure} {rule : RuleId} {precedence : Int}
    (h : p.recognizer.enterRecursion env rule precedence = (.error e, p.recognizer))
    (body : ParserM Unit) :
    withRecursionRule env rule precedence body p = (.error (.failure e), p) := by
  unfold withRecursionRule enterRecursion
  rw [onRecognizer_run h]
  rfl

theorem withRecursionRule_of_ok {rule : RuleId} {precedence : Int} {id : InvocationId} {r : Recognizer}
    (h : p.recognizer.enterRecursion env rule precedence = (.ok id, r)) (body : ParserM Unit) :
    ∃ q, Deeds env (body { p with recognizer := r }).2 q ∧
      (withRecursionRule env rule precedence body p).2 =
        q.modifyRecognizer fun r => (r.unrollRecursion p.recognizer.invocation).2 := by
  unfold withRecursionRule enterRecursion
  rw [onRecognizer_run h]
  exact ⟨_, deeds_handle _ _, rfl⟩

/-- A call is refused where the nesting is too deep, and then nothing is done, and else it returns. -/
def Closes (env : Setting) (rule : RuleId) (call : ParserM InvocationId) (p : Parser) : Prop :=
  p.recognizer.nesting.limit ≤ p.recognizer.nesting.depth ∧
      call p = (.error (.failure (p.recognizer.tooDeep env rule)), p) ∨
    p.recognizer.nesting.depth < p.recognizer.nesting.limit ∧
      p.recognizer.Returns (call p).2.recognizer

theorem Closes.within {rule : RuleId} {call : ParserM InvocationId} (h : Closes env rule call p)
    (hg : p.recognizer.Grounded) : p.recognizer.Within (call p).2.recognizer := by
  rcases h with ⟨-, he⟩ | ⟨-, hr⟩
  · rw [he]
    exact .refl hg
  · exact hr.within hg

section

variable {body : ParserM Unit} (hg : p.recognizer.Grounded)
  (hbody : ∀ q : Parser, q.recognizer.Grounded → q.recognizer.Within (body q).2.recognizer)
include hg hbody

omit hg in
/-- What the body leaves, and what is done about its outcome after it, is within the invocation. -/
theorem within_body {r : Recognizer} {q : Parser} (hr : r.Grounded)
    (hdeeds : Deeds env (body { p with recognizer := r }).2 q) : r.Within q.recognizer := by
  have hwithin := hbody { p with recognizer := r } hr
  exact hwithin.trans (hdeeds.samePlace.within (hwithin.grounded hr))

/-- A rule around a body that stays within its invocation is closed. -/
theorem closes_withRule (rule : RuleId) : Closes env rule (withRule env rule body) p := by
  rcases p.recognizer.enterRule_cases env rule with ⟨hdeep, he⟩ | ⟨hlt, id, r, hr, hopens, hfloors⟩
  · exact .inl ⟨hdeep, withRule_of_error he body⟩
  · obtain ⟨q, hdeeds, hq⟩ := withRule_of_ok hr body
    have hr' : r.Grounded := hopens.grounded (hfloors ▸ hg.floors)
    refine .inr ⟨hlt, ?_⟩
    rw [hq]
    exact hopens.returns_exitRule hfloors (within_body hbody hr' hdeeds)

theorem closes_withRecursionRule (rule : RuleId) (precedence : Int) :
    Closes env rule (withRecursionRule env rule precedence body) p := by
  rcases p.recognizer.enterRecursion_cases env rule precedence with
    ⟨hdeep, he⟩ | ⟨hlt, id, r, hr, hopens, hfloors⟩
  · exact .inl ⟨hdeep, withRecursionRule_of_error he body⟩
  · obtain ⟨q, hdeeds, hq⟩ := withRecursionRule_of_ok hr body
    have hr' : r.Grounded := hopens.grounded (by simp [hfloors])
    refine .inr ⟨hlt, ?_⟩
    rw [hq]
    exact hopens.returns_unrollRecursion hg.floors hfloors (within_body hbody hr' hdeeds)

end

theorem tryCatch_run (m : ParserM α) (f : Halt → ParserM α) (p : Parser) :
    (tryCatch m f) p = match m p with
      | (.ok a, q) => (.ok a, q)
      | (.error halt, q) => f halt q := by
  show (ExceptT.tryCatch m f) p = _
  unfold ExceptT.tryCatch ExceptT.mk
  simp only [Bind.bind, StateT.bind]
  rcases m p with ⟨halt | a, q⟩ <;> rfl

theorem snd_checkPrecedence (level : Int) (p : Parser) : (checkPrecedence env level p).2 = p := by
  unfold checkPrecedence
  rw [get_run]
  cases p.recognizer.checkPrecedence env level <;> rfl

/-- What is put together from the methods of a parser stays within the invocation it is run in. -/
theorem Composed.within {m : ParserM α} (h : Composed env m) (hg : p.recognizer.Grounded) :
    p.recognizer.Within (m p).2.recognizer := by
  have hdeeds : ∀ {q q' : Parser}, q.recognizer.Grounded → Deeds env q q' →
      q.recognizer.Within q'.recognizer := fun hg hd => hd.samePlace.within hg
  induction h generalizing p with
  | pure _ | throw _ | get => exact .refl hg
  | @bind α β m f _ _ ihm ihf =>
    have hm := ihm hg
    rw [bind_run]
    generalize m p = result at hm
    obtain ⟨halt | a, q⟩ := result
    · exact hm
    · exact hm.trans (ihf a (hm.grounded hg))
  | @tryCatch α m f _ _ ihm ihf =>
    have hm := ihm hg
    rw [tryCatch_run]
    generalize m p = result at hm
    obtain ⟨halt | a, q⟩ := result
    · exact hm.trans (ihf halt (hm.grounded hg))
    · exact hm
  | matchToken t => exact hdeeds hg (deeds_matchToken t p)
  | matchSet types => exact hdeeds hg (deeds_matchSet types p)
  | matchAny => exact hdeeds hg (deeds_matchAny p)
  | takeToken => exact hdeeds hg (.single .consume)
  | sync => exact hdeeds hg (deeds_sync p)
  | predict d => exact hdeeds hg (.single (.predict d))
  | checkPrecedence level =>
    rw [snd_checkPrecedence]
    exact .refl hg
  | setState s => exact Recognizer.within_state hg s
  | pushRecursion s rule => exact Recognizer.within_pushRecursion hg s rule
  | withRule rule _ ih => exact (closes_withRule hg (fun q hq => ih hq) rule).within hg
  | withRecursionRule rule precedence _ ih =>
    exact (closes_withRecursionRule hg (fun q hq => ih hq) rule precedence).within hg

/-- A rule method comes to the parser: it begins outside of all rules, and what is put together from the methods
of a parser is run, here or in the body of a rule that was opened. -/
inductive Reached (env : Setting) : Parser → Prop
  | start {p : Parser} (hi : p.recognizer.invocation = none) (hf : p.recognizer.floors = [0]) :
      Reached env p
  | run {p : Parser} {α : Type} {m : ParserM α} (h : Reached env p) (hm : Composed env m) :
      Reached env (m p).2
  | enterRule {p : Parser} (h : Reached env p) (rule : RuleId) : Reached env (enterRule env rule p).2
  | enterRecursion {p : Parser} (h : Reached env p) (rule : RuleId) (precedence : Int) :
      Reached env (enterRecursion env rule precedence p).2

theorem Reached.grounded (h : Reached env p) : p.recognizer.Grounded := by
  induction h with
  | start hi hf =>
    refine ⟨by simp [hf], fun id hid => ?_⟩
    rw [hi] at hid
    cases hid
  | run _ hm ih => exact (hm.within ih).grounded ih
  | @enterRule p _ rule ih =>
    show (p.recognizer.enterRule env rule).2.Grounded
    rcases p.recognizer.enterRule_cases env rule with ⟨-, he⟩ | ⟨-, id, r, hr, hopens, hfloors⟩
    · rw [he]
      exact ih
    · rw [hr]
      exact hopens.grounded (hfloors ▸ ih.floors)
  | @enterRecursion p _ rule precedence ih =>
    show (p.recognizer.enterRecursion env rule precedence).2.Grounded
    rcases p.recognizer.enterRecursion_cases env rule precedence with
      ⟨-, he⟩ | ⟨-, id, r, hr, hopens, hfloors⟩
    · rw [he]
      exact ih
    · rw [hr]
      exact hopens.grounded (by simp [hfloors])

/-- Wherever a rule method has come to, and however the body ends, a rule is closed again. -/
theorem rule_closes (h : Reached env p) {body : ParserM Unit} (hbody : Composed env body)
    (rule : RuleId) : Closes env rule (withRule env rule body) p ∧
      ∀ precedence, Closes env rule (withRecursionRule env rule precedence body) p := by
  have hg := h.grounded
  have hwithin : ∀ q : Parser, q.recognizer.Grounded → q.recognizer.Within (body q).2.recognizer :=
    fun q hq => hbody.within hq
  exact ⟨closes_withRule hg hwithin rule, closes_withRecursionRule hg hwithin rule⟩

end Parser

/-- Another round begins, and then the parse is given up. -/
def roundThenCancel : ParserM Unit := do
  modify fun p => p.modifyRecognizer fun r => (r.pushRecursion 2 1).2
  throw (.failure (.cancelled default))

/-- A rule whose body is given up in its second round is closed all the same. -/
theorem closes_nested : ∃ p, Parser.Reached nestedSetting p ∧ p.recognizer.invocation = some 0 ∧
    (withRecursionRule nestedSetting 1 0 roundThenCancel p).1 = .error (.failure (.cancelled default)) ∧
    Parser.Closes nestedSetting 1 (withRecursionRule nestedSetting 1 0 roundThenCancel) p := by
  have hstart : Parser.Reached nestedSetting { recognizer := .start nestedSetting default {} } := .start rfl rfl
  have hinside := hstart.enterRule 0
  have hbody : Composed nestedSetting roundThenCancel := .bind (.pushRecursion 2 1) fun _ => .throw _
  exact ⟨_, hinside, rfl, rfl, (rule_closes hinside hbody 1).2 0⟩

end AdaptiveParsing
