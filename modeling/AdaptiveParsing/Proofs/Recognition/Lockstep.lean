import AdaptiveParsing.Proofs.Recognition.Mirrored
/-!
Two parses in lockstep. Parsers that mirror each other still do after every rule method, and come to the
same outcome (`Lockstep`), so two interpreters do after every step and every parse. What is reported and
what is skipped depends on indices only as far as they are equal or stand for each other. Main
statement: `Interpreter.Mirrors.parse`.
-/

namespace AdaptiveParsing

open AdaptiveParsing.Parser

/-- The strategies remember the same, where indices stand for each other. -/
structure Strategy.Mirrors (m : Mirror) (s s' : Strategy) : Prop where
  policy : s.policy = s'.policy
  recovering : s.recovering = s'.recovering
  lastErrorIndex : Option.Rel m.index s.lastErrorIndex s'.lastErrorIndex
  lastErrorStates : s.lastErrorStates = s'.lastErrorStates
  syncPoint : s.syncPoint = s'.syncPoint

structure Parser.Mirrors (m : ParseMirror) (p p' : Parser) : Prop where
  recognizer : p.recognizer.Mirrors m p'.recognizer
  strategy : p.strategy.Mirrors m.toMirror p'.strategy

/-- Both come to the same outcome, in states that mirror each other. -/
structure Lockstep {σ α : Type} (m : Mirror) (M : σ → σ → Prop) (R : α → α → Prop)
    (x y : Except Halt α × σ) : Prop where
  outcome : SameOutcome m R x.1 y.1
  state : M x.2 y.2

namespace Lockstep

variable {σ α β : Type} {m : Mirror} {M : σ → σ → Prop} {R : α → α → Prop} {S : β → β → Prop}

theorem ok {s s' : σ} {a a' : α} (h : M s s') (ha : R a a') : Lockstep m M R (.ok a, s) (.ok a', s') :=
  ⟨.ok ha, h⟩

theorem error {s s' : σ} {halt halt' : Halt} (h : M s s') (hh : halt.Mirrors m halt') :
    Lockstep m M R (.error halt, s) (.error halt', s') := ⟨.error hh, h⟩

theorem mismatch {s s' : σ} {e e' : RecognitionError} (h : M s s') (he : e.Mirrors m e') :
    Lockstep m M R (.error (.failure (.recognition e)), s) (.error (.failure (.recognition e')), s') :=
  .error h (.recognition he)

/-- Methods in lockstep, and then methods in lockstep. -/
theorem bind {m : ParseMirror} {p q : Parser} {x y : ParserM α} {f g : α → ParserM β}
    (h : Lockstep m.toMirror (Parser.Mirrors m) R (x p) (y q))
    (hf : ∀ a a' p q, R a a' → p.Mirrors m q → Lockstep m.toMirror (Parser.Mirrors m) S (f a p) (g a' q)) :
    Lockstep m.toMirror (Parser.Mirrors m) S ((x >>= f) p) ((y >>= g) q) := by
  rw [Parser.bind_run, Parser.bind_run]
  generalize x p = r at h
  generalize y q = r' at h
  obtain ⟨outcome, p₁⟩ := r
  obtain ⟨outcome', q₁⟩ := r'
  obtain ⟨ho, hp⟩ := h
  cases ho with
  | ok ha => exact hf _ _ _ _ ha hp
  | error hh => exact .error hp hh

theorem discard {m : ParseMirror} {p q : Parser} {x y : ParserM α}
    (h : Lockstep m.toMirror (Parser.Mirrors m) R (x p) (y q)) :
    Lockstep m.toMirror (Parser.Mirrors m) Eq ((discard x : ParserM Unit) p) ((discard y : ParserM Unit) q) :=
  h.bind fun _ _ _ _ _ hp => .ok hp rfl

end Lockstep

namespace Parser.Mirrors

variable {env : Setting} {m : ParseMirror} {p p' : Parser}

theorem modify (h : p.Mirrors m p') {f f' : Recognizer → Recognizer}
    (hf : (f p.recognizer).Mirrors m (f' p'.recognizer)) :
    (p.modifyRecognizer f).Mirrors m (p'.modifyRecognizer f') := ⟨hf, h.strategy⟩

theorem reportMatch (h : p.Mirrors m p') : p.reportMatch.Mirrors m p'.reportMatch :=
  ⟨h.recognizer, { h.strategy with recovering := rfl, lastErrorIndex := .none, lastErrorStates := rfl }⟩

theorem consume (hm : m.Faithful env) (h : p.Mirrors m p') :
    (p.consume env).Mirrors m (p'.consume env) := by
  unfold Parser.consume
  rw [h.strategy.recovering]
  exact h.modify (h.recognizer.consume hm _)

theorem describe (hm : m.Faithful env) (h : p.Mirrors m p') {e e' : RecognitionError}
    (he : e.Mirrors m.toMirror e') : m.error (p.describe env e) (p'.describe env e') := by
  have hk := he.kind
  generalize hkind : e.kind = k at hk
  generalize hkind' : e'.kind = k' at hk
  cases hk with
  | noViableAlternative d hs => exact hm.describe h.recognizer.input he hs hkind hkind'
  | inputMismatch =>
    simp only [Parser.describe, hkind, hkind', he.expected,
      hm.toFaithful.errorDisplay he.offending]
    exact hm.ofToken he.offending _ _
  | failedPredicate rule predicate =>
    simp only [Parser.describe, hkind, hkind', he.invocation, (h.recognizer.forest.get _).rule]
    exact hm.ofToken he.offending _ _

theorem reportOnce (hm : m.Faithful env) (h : p.Mirrors m p') {e e' : SyntaxError}
    (he : m.error e e') : (p.reportOnce env e).Mirrors m (p'.reportOnce env e') := by
  unfold Parser.reportOnce
  rw [h.strategy.recovering]
  split
  · exact h
  · exact ⟨h.recognizer.notify hm he, { h.strategy with recovering := rfl }⟩

theorem reportError (hm : m.Faithful env) (h : p.Mirrors m p') {e e' : RecognitionError}
    (he : e.Mirrors m.toMirror e') : (p.reportError env e).Mirrors m (p'.reportError env e') :=
  h.reportOnce hm (h.describe hm he)

theorem reportUnwanted (hm : m.Faithful env) (h : p.Mirrors m p') :
    (p.reportUnwanted env).Mirrors m (p'.reportUnwanted env) := by
  have ht := hm.current h.recognizer.input
  unfold Parser.reportUnwanted
  simp only [h.recognizer.expected, hm.toFaithful.errorDisplay ht]
  exact h.reportOnce hm (hm.ofToken ht _ _)

theorem reportMissing (hm : m.Faithful env) (h : p.Mirrors m p') :
    (p.reportMissing env).Mirrors m (p'.reportMissing env) := by
  have ht := hm.current h.recognizer.input
  unfold Parser.reportMissing
  simp only [h.recognizer.expected, hm.toFaithful.errorDisplay ht]
  exact h.reportOnce hm (hm.ofToken ht _ _)

/-- One token is dropped by both or by neither. -/
theorem deleteToken? (hm : m.Faithful env) (h : p.Mirrors m p') :
    Option.Rel m.token (p.deleteToken? env).1 (p'.deleteToken? env).1 ∧
      (p.deleteToken? env).2.Mirrors m (p'.deleteToken? env).2 := by
  unfold Parser.deleteToken?
  rw [hm.toFaithful.peek h.recognizer.input, h.recognizer.expected]
  split
  · have hdrop := (h.reportUnwanted hm).consume hm
    exact ⟨.some (hm.current hdrop.recognizer.input), hdrop.reportMatch⟩
  · exact ⟨.none, h⟩

theorem canInsert (hm : m.Faithful env) (h : p.Mirrors m p') :
    p.canInsert env = p'.canInsert env := by
  simp only [Parser.canInsert, h.recognizer.state, hm.toFaithful.kind_cursor h.recognizer.input,
    h.recognizer.returnsFrom, h.recognizer.invocation]

theorem missingToken (hm : m.Faithful env) (h : p.Mirrors m p') :
    m.token (p.missingToken env) (p'.missingToken env) := by
  have ht := hm.current h.recognizer.input
  have hlast := hm.look? h.recognizer.input (-1)
  unfold Parser.missingToken
  simp only [h.recognizer.expected, hm.toFaithful.isEof ht]
  refine hm.conjure ?_ _ _
  split
  · generalize p.recognizer.input.look? (-1) = x at hlast ⊢
    generalize p'.recognizer.input.look? (-1) = y at hlast ⊢
    cases hlast with
    | none => exact ht
    | some hlast => exact hlast
  · exact ht

theorem mismatchAtSyncPoint (hm : m.Faithful env) (h : p.Mirrors m p') :
    (p.mismatchAtSyncPoint env).Mirrors m.toMirror (p'.mismatchAtSyncPoint env) := by
  unfold Parser.mismatchAtSyncPoint
  rw [h.strategy.syncPoint]
  split
  · exact h.recognizer.inputMismatch hm
  · refine ⟨.inputMismatch, hm.current h.recognizer.input, rfl, rfl, ?_⟩
    dsimp only
    exact h.recognizer.expectedAt _ _

/-- Skipping takes the same tokens, if both may go on to the end of input: how many there are still to
take is not compared. -/
theorem skipUpTo (hm : m.Faithful env) (types : TokenSet) {fuel fuel' : Nat} (h : p.Mirrors m p')
    (hfuel : p.recognizer.input.remaining ≤ fuel)
    (hfuel' : p'.recognizer.input.remaining ≤ fuel') :
    (p.skipUpTo env types fuel).Mirrors m (p'.skipUpTo env types fuel') := by
  have hstep : ∀ {q : Parser} {n : Nat}, q.recognizer.input.remaining ≤ n →
      ∃ k, n = k + 1 ∧ (q.recognizer.input.current.isEof = false →
        (q.consume env).recognizer.input.remaining ≤ k) := by
    intro q n hn
    have hlt := q.recognizer.input.position_lt
    have hpos : 0 < q.recognizer.input.remaining := Nat.sub_pos_of_lt hlt
    refine ⟨n - 1, by lia, fun heof => ?_⟩
    have hless := TokenCursor.remaining_consume_lt heof
    rw [input_consume]
    lia
  induction fuel generalizing p p' fuel' with
  | zero =>
    obtain ⟨k, hk, -⟩ := hstep hfuel
    cases hk
  | succ fuel ih =>
    obtain ⟨_, hk, hnext⟩ := hstep hfuel
    obtain ⟨fuel', rfl, hnext'⟩ := hstep hfuel'
    cases hk
    unfold Parser.skipUpTo
    dsimp only
    rw [hm.toFaithful.kind_cursor h.recognizer.input]
    split
    · exact h
    · rename_i hgo
      have heof' : p'.recognizer.input.current.isEof = false := by
        have := (Bool.or_eq_false_iff.1 (Bool.eq_false_iff.2 hgo)).1
        exact this
      have heof : p.recognizer.input.current.isEof = false :=
        (hm.toFaithful.isEof (hm.current h.recognizer.input)).trans heof'
      exact ih (h.consume hm) (hnext heof) (hnext' heof')

theorem skipUntil (hm : m.Faithful env) (h : p.Mirrors m p') (types : TokenSet) :
    (p.skipUntil env types).Mirrors m (p'.skipUntil env types) :=
  h.skipUpTo hm types (Nat.le_refl _) (Nat.le_refl _)

theorem isStuck (hm : m.Faithful env) (h : p.Mirrors m p') : p.isStuck = p'.isStuck := by
  have hlast := h.strategy.lastErrorIndex
  have hpos := hm.position h.recognizer.input
  unfold Parser.isStuck
  rw [h.recognizer.state, h.strategy.lastErrorStates]
  congr 1
  generalize p.strategy.lastErrorIndex = x at hlast ⊢
  generalize p'.strategy.lastErrorIndex = y at hlast ⊢
  cases hlast with
  | none => rfl
  | some hlast =>
    rw [Bool.eq_iff_iff, beq_iff_eq, beq_iff_eq, Option.some.injEq, Option.some.injEq]
    exact hm.index_eq_iff hlast hpos

theorem resynchronize (hm : m.Faithful env) (h : p.Mirrors m p') :
    (p.resynchronize env).Mirrors m (p'.resynchronize env) := by
  have hdrop : (if p.isStuck then p.consume env else p).Mirrors m
      (if p'.isStuck then p'.consume env else p') := by
    rw [h.isStuck hm]
    split
    · exact h.consume hm
    · exact h
  unfold Parser.resynchronize
  generalize (if p.isStuck then p.consume env else p) = q at hdrop
  generalize (if p'.isStuck then p'.consume env else p') = q' at hdrop
  dsimp only
  rw [hdrop.recognizer.recoverySet, hdrop.recognizer.state, hdrop.strategy.lastErrorStates]
  have hnote : Parser.Mirrors m
      { q with strategy := { q.strategy with
        lastErrorIndex := some q.recognizer.input.position
        lastErrorStates := q'.recognizer.state.toList ++ q'.strategy.lastErrorStates } }
      { q' with strategy := { q'.strategy with
        lastErrorIndex := some q'.recognizer.input.position
        lastErrorStates := q'.recognizer.state.toList ++ q'.strategy.lastErrorStates } } :=
    ⟨hdrop.recognizer, { hdrop.strategy with
      lastErrorIndex := .some (hm.position hdrop.recognizer.input)
      lastErrorStates := rfl }⟩
  exact hnote.skipUntil hm _

theorem cancel (h : p.Mirrors m p') {e e' : RecognitionError} (he : e.Mirrors m.toMirror e') :
    Lockstep m.toMirror (Parser.Mirrors m) Eq (p.cancel e) (p'.cancel e') :=
  .error (h.modify (h.recognizer.recordError he true)) (.failure (.cancelled he))

theorem recover (hm : m.Faithful env) (h : p.Mirrors m p') {e e' : RecognitionError}
    (he : e.Mirrors m.toMirror e') :
    Lockstep m.toMirror (Parser.Mirrors m) Eq (Parser.recover env e p) (Parser.recover env e' p') := by
  unfold Parser.recover
  rw [h.strategy.policy]
  split
  · exact h.cancel he
  · exact .ok (h.resynchronize hm) rfl

theorem recoverInline (hm : m.Faithful env) (h : p.Mirrors m p') :
    Lockstep m.toMirror (Parser.Mirrors m) m.token (Parser.recoverInline env p)
      (Parser.recoverInline env p') := by
  unfold Parser.recoverInline
  rw [h.strategy.policy]
  split
  · have he := h.recognizer.inputMismatch hm
    exact .error ((h.reportError hm he).cancel he).state (.failure (.cancelled he))
  · obtain ⟨ht, hp⟩ := h.deleteToken? hm
    generalize p.deleteToken? env = x at ht hp
    generalize p'.deleteToken? env = y at ht hp
    obtain ⟨t, q⟩ := x
    obtain ⟨t', q'⟩ := y
    cases ht with
    | some ht => exact .ok (hp.consume hm) ht
    | none =>
      dsimp only
      rw [hp.canInsert hm]
      split
      · have hq := hp.reportMissing hm
        exact .ok hq (hq.missingToken hm)
      · exact .mismatch hp (hp.mismatchAtSyncPoint hm)

/-- One token is dropped in place of an error, or the error is the same. -/
theorem deleteOr (hm : m.Faithful env) (h : p.Mirrors m p') {e e' : Parser → RecognitionError}
    (he : ∀ q q', q.Mirrors m q' → (e q).Mirrors m.toMirror (e' q')) :
    Lockstep m.toMirror (Parser.Mirrors m) Eq
      (match p.deleteToken? env with
        | (some _, q) => (.ok (), q)
        | (none, q) => (.error (.failure (.recognition (e q))), q))
      (match p'.deleteToken? env with
        | (some _, q) => (.ok (), q)
        | (none, q) => (.error (.failure (.recognition (e' q))), q)) := by
  obtain ⟨ht, hp⟩ := h.deleteToken? hm
  generalize p.deleteToken? env = x at ht hp
  generalize p'.deleteToken? env = y at ht hp
  obtain ⟨t, q⟩ := x
  obtain ⟨t', q'⟩ := y
  cases ht with
  | some _ => exact .ok hp rfl
  | none => exact .mismatch hp (he _ _ hp)

/-- The error where a state finds a token it does not expect. -/
theorem unexpected (hm : m.Faithful env) (h : p.Mirrors m p') (d : Option DecisionId) :
    (match d with
      | some d => p.recognizer.noViableHere env d
      | none => p.recognizer.inputMismatch env : RecognitionError).Mirrors m.toMirror (match d with
        | some d => p'.recognizer.noViableHere env d
        | none => p'.recognizer.inputMismatch env) := by
  cases d with
  | none => exact h.recognizer.inputMismatch hm
  | some d => exact h.recognizer.noViableHere hm d

theorem syncAt (hm : m.Faithful env) (h : p.Mirrors m p') (s : StateId) :
    Lockstep m.toMirror (Parser.Mirrors m) Eq (Parser.syncAt env s p) (Parser.syncAt env s p') := by
  unfold Parser.syncAt
  dsimp only
  split
  case h_5 | h_6 =>
    have hq := h.reportUnwanted hm
    rw [hq.recognizer.expected, hq.recognizer.recoverySet]
    exact .ok (hq.skipUntil hm _) rfl
  case h_7 => exact .ok h rfl
  all_goals exact h.deleteOr hm fun _ _ hq => hq.unexpected hm _

theorem sync (hm : m.Faithful env) (h : p.Mirrors m p') :
    Lockstep m.toMirror (Parser.Mirrors m) Eq (Parser.sync env p) (Parser.sync env p') := by
  unfold Parser.sync
  rw [h.strategy.policy, h.strategy.recovering, h.recognizer.state]
  split
  · exact .ok h rfl
  · split
    · exact .ok h rfl
    · dsimp only
      rw [hm.toFaithful.kind_cursor h.recognizer.input, h.strategy.syncPoint, h.recognizer.invocation]
      split
      · exact .ok ⟨h.recognizer, { h.strategy with syncPoint := rfl }⟩ rfl
      · split
        · exact .ok ⟨h.recognizer, { h.strategy with syncPoint := rfl }⟩ rfl
        · exact h.syncAt hm _

theorem takeMatch (hm : m.Faithful env) (h : p.Mirrors m p') :
    Lockstep m.toMirror (Parser.Mirrors m) m.token (Parser.takeMatch env p)
      (Parser.takeMatch env p') :=
  .ok (h.reportMatch.consume hm) (hm.current h.recognizer.input)

theorem recoverToken (hm : m.Faithful env) (h : p.Mirrors m p') :
    Lockstep m.toMirror (Parser.Mirrors m) m.token (Parser.recoverToken env p)
      (Parser.recoverToken env p') := by
  obtain ⟨ho, hp⟩ := h.recoverInline hm
  rw [recoverToken_run, recoverToken_run]
  generalize Parser.recoverInline env p = x at ho hp
  generalize Parser.recoverInline env p' = y at ho hp
  obtain ⟨_, q⟩ := x
  obtain ⟨_, q'⟩ := y
  cases ho with
  | error hh => exact .error hp hh
  | ok ht =>
    refine .ok ?_ ht
    rw [hm.toFaithful.isConjured ht]
    split
    · exact hp.modify (hp.recognizer.addChild (.error ht))
    · exact hp

theorem matchToken (hm : m.Faithful env) (h : p.Mirrors m p') (k : TokenType) :
    Lockstep m.toMirror (Parser.Mirrors m) m.token (Parser.matchToken env k p)
      (Parser.matchToken env k p') := by
  rw [matchToken_run, matchToken_run, hm.toFaithful.kind_cursor h.recognizer.input]
  split
  · refine Parser.Mirrors.takeMatch hm ?_
    split
    · exact h.modify { h.recognizer with matchedEof := rfl }
    · exact h
  · exact h.recoverToken hm

theorem matchSet (hm : m.Faithful env) (h : p.Mirrors m p') (types : TokenSet) :
    Lockstep m.toMirror (Parser.Mirrors m) m.token (Parser.matchSet env types p)
      (Parser.matchSet env types p') := by
  rw [matchSet_run, matchSet_run, hm.toFaithful.kind_cursor h.recognizer.input]
  split
  · exact h.takeMatch hm
  · exact h.recoverToken hm

theorem matchAny (hm : m.Faithful env) (h : p.Mirrors m p') :
    Lockstep m.toMirror (Parser.Mirrors m) m.token (Parser.matchAny env p)
      (Parser.matchAny env p') := by
  rw [matchAny_run, matchAny_run, hm.toFaithful.kind_cursor h.recognizer.input]
  split
  · exact h.takeMatch hm
  · exact h.recoverToken hm

/-- An operation of the recognizer that comes to the same, or stops for causes that are the same. -/
theorem onRecognizer {ε α : Type} (h : p.Mirrors m p') {cause : ε → Halt}
    {f : Recognizer → Except ε α × Recognizer} {R : α → α → Prop}
    (ho : SameOutcome m.toMirror R ((f p.recognizer).1.mapError cause)
      ((f p'.recognizer).1.mapError cause))
    (hr : (f p.recognizer).2.Mirrors m (f p'.recognizer).2) :
    Lockstep m.toMirror (Parser.Mirrors m) R (Parser.onRecognizer cause f p)
      (Parser.onRecognizer cause f p') := ⟨ho, hr, h.strategy⟩

theorem predict (hm : m.Faithful env) (h : p.Mirrors m p') (d : DecisionId) :
    Lockstep m.toMirror (Parser.Mirrors m) Eq (Parser.predict env d p) (Parser.predict env d p') := by
  obtain ⟨ho, hr⟩ := h.recognizer.predict hm d
  refine h.onRecognizer ?_ hr
  generalize (p.recognizer.predict env d).1 = x at ho ⊢
  generalize (p'.recognizer.predict env d).1 = y at ho ⊢
  cases ho with
  | ok h => exact .ok h
  | error h => exact .error h

theorem enterRule (hm : m.Faithful env) (h : p.Mirrors m p') (rule : RuleId) :
    Lockstep m.toMirror (Parser.Mirrors m) Eq (Parser.enterRule env rule p)
      (Parser.enterRule env rule p') :=
  h.onRecognizer (h.recognizer.enterRule hm rule).1 (h.recognizer.enterRule hm rule).2

theorem enterRecursion (hm : m.Faithful env) (h : p.Mirrors m p') (rule : RuleId)
    (precedence : Int) : Lockstep m.toMirror (Parser.Mirrors m) Eq
      (Parser.enterRecursion env rule precedence p) (Parser.enterRecursion env rule precedence p') :=
  h.onRecognizer (h.recognizer.enterRecursion hm rule precedence).1
    (h.recognizer.enterRecursion hm rule precedence).2

theorem checkPrecedence (hm : m.Faithful env) (h : p.Mirrors m p') (level : Int) :
    Lockstep m.toMirror (Parser.Mirrors m) Eq (Parser.checkPrecedence env level p)
      (Parser.checkPrecedence env level p') := by
  unfold Parser.checkPrecedence
  rw [get_run, get_run]
  unfold Recognizer.checkPrecedence
  rw [h.recognizer.permits]
  cases p'.recognizer.permits level with
  | true => exact .ok h rfl
  | false => exact .mismatch h (h.recognizer.failedPredicate hm _)

theorem handle (hm : m.Faithful env) (h : p.Mirrors m p') {outcome outcome' : Except Halt Unit}
    (ho : SameOutcome m.toMirror Eq outcome outcome') :
    Lockstep m.toMirror (Parser.Mirrors m) Eq (Parser.handle env outcome p)
      (Parser.handle env outcome' p') := by
  cases ho with
  | ok _ => exact .ok h rfl
  | error hh =>
    cases hh with
    | unsettled d => exact .error h (.unsettled d)
    | failure hf =>
      cases hf with
      | nestingTooDeep rule limit => exact .error h (.failure (.nestingTooDeep rule limit))
      | cancelled he => exact .error h (.failure (.cancelled he))
      | recognition he =>
        unfold Parser.handle
        dsimp only
        rw [bind_run, bind_run]
        exact ((h.modify (h.recognizer.recordError he false)).reportError hm he).recover hm he

end Parser.Mirrors

/-- The parsers mirror each other, and the same calls of left-recursive rules are open. -/
structure Interpreter.Mirrors (m : ParseMirror) (i i' : Interpreter) : Prop where
  parser : i.parser.Mirrors m i'.parser
  callers : i.callers = i'.callers

/-- Both go on, or both are done with the same outcome. -/
inductive Progress.Mirrors (m : ParseMirror) : Progress → Progress → Prop
  | running {i i' : Interpreter} (h : i.Mirrors m i') : Mirrors m (.running i) (.running i')
  | finished {i i' : Interpreter} {outcome outcome' : Except Halt InvocationId}
      (h : Lockstep m.toMirror (Interpreter.Mirrors m) Eq (outcome, i) (outcome', i')) :
      Mirrors m (.finished outcome i) (.finished outcome' i')

namespace Interpreter

variable {env : Setting} {m : ParseMirror} {p p' : Parser} {i i' : Interpreter}

theorem chooseEdge_mirrors (hm : m.Faithful env) (h : p.Mirrors m p') (s : NetworkState) :
    Lockstep m.toMirror (Parser.Mirrors m) Eq (chooseEdge env s p) (chooseEdge env s p') := by
  unfold chooseEdge
  cases s.decision with
  | none => exact .ok h rfl
  | some d =>
    dsimp only
    split
    · exact (h.sync hm).bind fun _ _ _ _ _ h => h.predict hm d
    · exact .ok h rfl

theorem passEdge_mirrors (hm : m.Faithful env) (h : p.Mirrors m p') (s : NetworkState)
    (t : Transition) :
    Lockstep m.toMirror (Parser.Mirrors m) Eq (passEdge env s t p) (passEdge env s t p') := by
  unfold passEdge
  cases t.kind with
  | epsilon =>
    dsimp only
    split
    · exact .ok (h.modify (h.recognizer.pushRecursion hm _ _)) rfl
    · exact .ok h rfl
  | atom k => exact (h.matchToken hm k).discard
  | range _ _ | set _ | notSet _ =>
    cases env.network.label? _ with
    | some types => exact (h.matchSet hm types).discard
    | none => exact .ok h rfl
  | wildcard => exact (h.matchAny hm).discard
  | rule _ _ _ => exact .ok h rfl
  | predicate rule index _ =>
    dsimp only
    rw [get_run, get_run, h.recognizer.holds hm]
    split
    · exact .ok h rfl
    · exact .mismatch h (h.recognizer.failedPredicate hm _)
  | action rule index => exact .ok (h.modify { h.recognizer with }) rfl
  | precedence level => exact h.checkPrecedence hm level

namespace Mirrors

theorem goTo (h : i.Mirrors m i') (state : Option StateId) :
    (i.goTo state).Mirrors m (i'.goTo state) :=
  ⟨⟨h.parser.recognizer.goTo state, h.parser.strategy⟩, h.callers⟩

theorem run {α : Type} {R : α → α → Prop} (h : i.Mirrors m i') {method method' : ParserM α}
    (hr : Lockstep m.toMirror (Parser.Mirrors m) R (method i.parser) (method' i'.parser)) :
    Lockstep m.toMirror (Interpreter.Mirrors m) R (i.run method) (i'.run method') :=
  ⟨hr.outcome, hr.state, h.callers⟩

theorem enter (hm : m.Faithful env) (h : i.Mirrors m i') (rule : RuleId) (precedence : Int) :
    Lockstep m.toMirror (Interpreter.Mirrors m) Eq (i.enter env rule precedence)
      (i'.enter env rule precedence) := by
  unfold Interpreter.enter
  split
  · obtain ⟨ho, hp⟩ := h.parser.enterRecursion hm rule precedence
    have hcallers : (i.recognizer.invocation, i.recognizer.state) :: i.callers =
        (i'.recognizer.invocation, i'.recognizer.state) :: i'.callers := by
      simp only [recognizer, h.callers, h.parser.recognizer.invocation, h.parser.recognizer.state]
    dsimp only [Interpreter.run]
    generalize Parser.enterRecursion env rule precedence i.parser = x at ho hp
    generalize Parser.enterRecursion env rule precedence i'.parser = y at ho hp
    obtain ⟨_, q⟩ := x
    obtain ⟨_, q'⟩ := y
    cases ho with
    | ok hid => exact .ok ⟨hp, hcallers⟩ hid
    | error hh => exact .error ⟨hp, h.callers⟩ hh
  · exact h.run (h.parser.enterRule hm rule)

theorem arrive (target : StateId) {x y : Except Halt Unit × Interpreter}
    (h : Lockstep m.toMirror (Interpreter.Mirrors m) Eq x y) :
    Lockstep m.toMirror (Interpreter.Mirrors m) Eq (Interpreter.arrive target x)
      (Interpreter.arrive target y) := by
  obtain ⟨_, j⟩ := x
  obtain ⟨_, j'⟩ := y
  obtain ⟨ho, hi⟩ := h
  cases ho with
  | ok _ => exact .ok (hi.goTo _) rfl
  | error hh => exact .error hi hh

theorem followEdge (hm : m.Faithful env) (h : i.Mirrors m i') (s : NetworkState) (t : Transition) :
    Lockstep m.toMirror (Interpreter.Mirrors m) Eq (i.followEdge env s t)
      (i'.followEdge env s t) := by
  rw [followEdge_eq, followEdge_eq]
  refine arrive _ ?_
  unfold cross
  cases t.kind with
  | rule rule _ precedence =>
    obtain ⟨ho, hi⟩ := h.enter hm rule precedence
    dsimp only
    generalize i.enter env rule precedence = x at ho hi
    generalize i'.enter env rule precedence = y at ho hi
    obtain ⟨_, j⟩ := x
    obtain ⟨_, j'⟩ := y
    cases ho with
    | ok _ => exact .ok hi rfl
    | error hh => exact .error hi hh
  | _ => exact h.run (passEdge_mirrors hm h.parser s t)

theorem visit (hm : m.Faithful env) (h : i.Mirrors m i') (s : NetworkState) :
    Lockstep m.toMirror (Interpreter.Mirrors m) Eq (i.visit env s) (i'.visit env s) := by
  obtain ⟨ho, hi⟩ := h.run (chooseEdge_mirrors hm h.parser s)
  unfold Interpreter.visit
  generalize i.run (chooseEdge env s) = x at ho hi
  generalize i'.run (chooseEdge env s) = y at ho hi
  obtain ⟨_, j⟩ := x
  obtain ⟨_, j'⟩ := y
  cases ho with
  | error hh => exact .error hi hh
  | ok halt =>
    cases halt
    dsimp only
    split
    · exact hi.followEdge hm s _
    · exact .mismatch hi (hi.parser.recognizer.inputMismatch hm)

theorem unroll (hm : m.Faithful env) (h : i.Mirrors m i') :
    i.unroll.1 = i'.unroll.1 ∧ i.unroll.2.1 = i'.unroll.2.1 ∧
      i.unroll.2.2.Mirrors m i'.unroll.2.2 := by
  unfold Interpreter.unroll onRecognizer
  rw [h.callers]
  obtain ⟨hd, hr⟩ := h.parser.recognizer.unrollRecursion hm (i'.callers.head?.getD (none, none)).1
  exact ⟨hd, rfl, ⟨hr, h.parser.strategy⟩, rfl⟩

theorem leaveRule (hm : m.Faithful env) (h : i.Mirrors m i') (rule : RuleId) :
    (i.leaveRule env rule).Mirrors m (i'.leaveRule env rule) := by
  cases hrec : (env.network.rule rule).leftRecursive with
  | true =>
    obtain ⟨-, hs, hi⟩ := h.unroll hm
    rw [leaveRule_recursive hrec, leaveRule_recursive hrec, hs]
    exact hi.goTo _
  | false =>
    have hr := h.parser.recognizer.exitRule hm
    rw [leaveRule_plain hrec, leaveRule_plain hrec]
    refine ⟨⟨?_, h.parser.strategy⟩, h.callers⟩
    exact { hr with state := congrArg (·.bind env.network.followOf?) hr.state }

theorem finish (hm : m.Faithful env) (h : i.Mirrors m i') (rule : RuleId) (root : InvocationId) :
    (i.finish env rule root).1 = (i'.finish env rule root).1 ∧
      (i.finish env rule root).2.Mirrors m (i'.finish env rule root).2 := by
  unfold Interpreter.finish
  split
  · obtain ⟨hd, -, hi⟩ := h.unroll hm
    exact ⟨congrArg (·.getD root) hd, hi⟩
  · exact ⟨rfl, ⟨h.parser.recognizer.exitRule hm, h.parser.strategy⟩, h.callers⟩

theorem recoverFrom (hm : m.Faithful env) (h : i.Mirrors m i') (s : NetworkState)
    {e e' : RecognitionError} (he : e.Mirrors m.toMirror e') :
    Lockstep m.toMirror (Interpreter.Mirrors m) Eq (i.recoverFrom env s e)
      (i'.recoverFrom env s e') := by
  have hi := h.goTo (some (env.network.rule s.rule).stop)
  exact hi.run (hi.parser.handle hm (.error (.recognition he)))

theorem isOutermost (h : i.Mirrors m i') : i.isOutermost = i'.isOutermost := by
  simp only [Interpreter.isOutermost, recognizer, h.parser.recognizer.invocation,
    (h.parser.recognizer.forest.get _).caller]

theorem step (hm : m.Faithful env) (h : i.Mirrors m i') (rule : RuleId) (root : InvocationId) :
    (Interpreter.step env rule root i).Mirrors m (Interpreter.step env rule root i') := by
  unfold Interpreter.step recognizer
  rw [h.parser.recognizer.state]
  split
  · exact .finished (.ok h rfl)
  · dsimp only
    split
    · rw [h.isOutermost]
      split
      · obtain ⟨hd, hi⟩ := h.finish hm rule root
        exact .finished (.ok hi hd)
      · exact .running (h.leaveRule hm _)
    · rename_i s _ _
      obtain ⟨ho, hi⟩ := h.visit hm (env.network.state s)
      generalize i.visit env (env.network.state s) = x at ho hi
      generalize i'.visit env (env.network.state s) = y at ho hi
      obtain ⟨_, j⟩ := x
      obtain ⟨_, j'⟩ := y
      cases ho with
      | ok _ => exact .running hi
      | error hh =>
        cases hh with
        | unsettled d => exact .finished (.error hi (.unsettled d))
        | failure hf =>
          cases hf with
          | nestingTooDeep name limit =>
            exact .finished (.error hi (.failure (.nestingTooDeep name limit)))
          | cancelled he => exact .finished (.error hi (.failure (.cancelled he)))
          | recognition he =>
            obtain ⟨ho, hi⟩ := hi.recoverFrom hm (env.network.state s) he
            dsimp only
            generalize j.recoverFrom env (env.network.state s) _ = x at ho hi
            generalize j'.recoverFrom env (env.network.state s) _ = y at ho hi
            obtain ⟨_, k⟩ := x
            obtain ⟨_, k'⟩ := y
            cases ho with
            | ok _ => exact .running hi
            | error hh => exact .finished (.error hi hh)

theorem runFor (hm : m.Faithful env) (h : i.Mirrors m i') (rule : RuleId) (root : InvocationId)
    (fuel : Nat) : Option.Rel (Lockstep m.toMirror (Interpreter.Mirrors m) Eq)
      (Interpreter.runFor env rule root fuel i) (Interpreter.runFor env rule root fuel i') := by
  induction fuel generalizing i i' with
  | zero => exact .none
  | succ fuel ih =>
    have hstep := h.step hm rule root
    unfold Interpreter.runFor
    generalize Interpreter.step env rule root i = x at hstep
    generalize Interpreter.step env rule root i' = y at hstep
    cases hstep with
    | running h => exact ih h
    | finished h => exact .some h

/-- Interpreters that mirror each other parse in lockstep. -/
theorem parse (hm : m.Faithful env) (h : i.Mirrors m i') (fuel : Nat) (rule : RuleId) :
    Option.Rel (Lockstep m.toMirror (Interpreter.Mirrors m) Eq)
      (Interpreter.parse env fuel rule i) (Interpreter.parse env fuel rule i') := by
  obtain ⟨ho, hi⟩ := h.enter hm rule 0
  unfold Interpreter.parse
  generalize i.enter env rule 0 = x at ho hi
  generalize i'.enter env rule 0 = y at ho hi
  obtain ⟨_, j⟩ := x
  obtain ⟨_, j'⟩ := y
  cases ho with
  | error hh => exact .some (.error hi hh)
  | ok hid =>
    cases hid
    exact hi.runFor hm rule _ fuel

end Mirrors

end Interpreter

end AdaptiveParsing
