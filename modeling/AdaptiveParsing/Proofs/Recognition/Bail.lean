import AdaptiveParsing.Proofs.Recognition.Policies
/-!
How a parse that bails ends. Until the first error nothing is reported (`Parser.Bailing`); the first error
is reported and noted on every live invocation (`Parser.giveUp`), and nothing comes after it. Main
statement: `Interpreter.bail_agrees_with_recover`, on what a bailing parse and a recovering one have in
common.
-/

namespace AdaptiveParsing

open AdaptiveParsing.Parser

variable {env : Setting}

namespace Forest

variable {f : Forest} {id inner outer : InvocationId}

/-- The invocation is around the other, or is the other. -/
def Around (f : Forest) : InvocationId → InvocationId → Prop :=
  Relation.ReflTransGen fun inner outer => (f.get inner).parent = some outer

/-- An error noted on invocations of the forest is there. -/
theorem error_blame (e : RecognitionError) {ids : List InvocationId} (hmem : id ∈ ids)
    (hlt : id < f.size) :
    ((ids.foldl (fun f id => f.modify id fun i => { i with error := i.error <|> some e }) f).get
      id).error.isSome = true := by
  have hkeep : ∀ (ids : List InvocationId) (f : Forest), (f.get id).error.isSome = true →
      ((ids.foldl (fun f id => f.modify id fun i => { i with error := i.error <|> some e }) f).get
        id).error.isSome = true := by
    intro ids
    induction ids with
    | nil => exact fun _ h => h
    | cons other ids ih =>
      intro f h
      refine ih _ ?_
      obtain hg | hg := f.get_modify_cases other id fun i => { i with error := i.error <|> some e }
      all_goals
        rw [hg]
        simp [h]
  induction ids generalizing f with
  | nil => cases hmem
  | cons other ids ih =>
    obtain rfl | hmem := List.mem_cons.1 hmem
    · refine hkeep ids _ ?_
      rw [get_modify f id _ hlt]
      cases (f.get id).error <;> rfl
    · exact ih hmem (by rwa [size_modify])

end Forest

/-- Every invocation around the innermost one is live. -/
theorem Threads.mem_of_around {G : Guide} {f : Forest} {done : List InvocationId}
    {pending : List Child} {a : Station} {rest : List Station} {w : List Token} {id : InvocationId}
    (h : Threads G f done pending (a :: rest) w) (hid : f.Around a.id id) :
    id ∈ (a :: rest).map Station.id := by
  induction rest generalizing a pending w with
  | nil =>
    obtain ⟨_, _, -, -, ⟨hparent, -⟩, -⟩ := h
    obtain rfl | ⟨outer, houter, -⟩ := hid.cases_head
    · exact .head _
    · rw [hparent] at houter
      cases houter
  | cons b rest ih =>
    obtain ⟨_, _, -, -, ⟨hparent, -⟩, hrest⟩ := h
    obtain rfl | ⟨outer, houter, hid⟩ := hid.cases_head
    · exact .head _
    · rw [hparent] at houter
      cases houter
      exact .tail _ (ih hrest hid)

namespace Parser

variable {p p' : Parser} {α : Type}

/-- A parser that bails and has met no error. -/
structure Bailing (p : Parser) : Prop where
  silent : p.Silent
  bails : p.strategy.policy = .bail
  steady : p.strategy.recovering = false

theorem Twins.bailing {q : Parser} (h : Twins p q) : p.Bailing := ⟨h.silent, h.bails, h.steady⟩

/-- It has a twin. -/
theorem Bailing.twins (h : p.Bailing) : Twins p ⟨p.recognizer, {}⟩ :=
  ⟨rfl, h.silent, h.bails, rfl, h.steady, rfl⟩

theorem Bailing.modify (h : p.Bailing) {f : Recognizer → Recognizer}
    (hf : (f p.recognizer).errors = p.recognizer.errors) : (p.modifyRecognizer f).Bailing :=
  ⟨hf.trans h.silent, h.bails, h.steady⟩

theorem Bailing.predict (h : p.Bailing) (d : DecisionId) : (predict env d p).2.Bailing :=
  ⟨(p.recognizer.sameTree_predict env d).errors.trans h.silent, h.bails, h.steady⟩

/-- What is reported of a mismatch is of its kind and at its token. -/
theorem describe_spec (p : Parser) (e : RecognitionError) :
    (p.describe env e).code = e.code ∧ (p.describe env e).span = e.offending.span ∧
      (p.describe env e).tokenIndex = e.offending.index ∧
      (p.describe env e).line = e.offending.line ∧
      (p.describe env e).column = e.offending.column := by
  obtain ⟨kind, offending, state, invocation, expected⟩ := e
  cases kind with
  | noViableAlternative d start =>
    unfold describe SyntaxError.withDecisionStart
    dsimp only
    split <;> exact ⟨rfl, rfl, rfl, rfl, rfl⟩
  | inputMismatch => exact ⟨rfl, rfl, rfl, rfl, rfl⟩
  | failedPredicate rule predicate => exact ⟨rfl, rfl, rfl, rfl, rfl⟩

/-- The error a parse is given up for is the only one reported. -/
theorem errors_giveUp (h : p.Bailing) (e : RecognitionError) :
    ∃ context, (p.giveUp env e).recognizer.errors = #[{ p.describe env e with context }] := by
  refine ⟨p.recognizer.ruleStack env, ?_⟩
  show ((p.reportError env e).recognizer.recordError e true).errors = _
  have herrors : p.recognizer.errors = #[] := h.silent
  rw [Recognizer.errors_recordError]
  simp [reportError, reportOnce, h.steady, Recognizer.notify, herrors]

theorem forest_reportError (p : Parser) (e : RecognitionError) :
    (p.reportError env e).recognizer.forest = p.recognizer.forest ∧
      (p.reportError env e).recognizer.invocation = p.recognizer.invocation := by
  unfold reportError reportOnce Recognizer.notify
  split
  · exact ⟨rfl, rfl⟩
  · dsimp only
    split <;> exact ⟨rfl, rfl⟩

theorem recoverToken_bail (hp : p.strategy.policy = .bail) :
    recoverToken env p = (.error (.failure (.cancelled (p.recognizer.inputMismatch env))),
      p.giveUp env (p.recognizer.inputMismatch env)) := by
  rw [recoverToken_run]
  unfold recoverInline
  rw [hp]
  rfl

end Parser

namespace Interpreter

variable {g : Grammar} {p p' : Parser} {i i' j k : Interpreter} {s : StateId} {t : Transition}
  {halt : Halt} {rule : RuleId} {root : InvocationId}

/-- Before a decision a parse that bails just looks ahead. -/
theorem chooseEdge_bail (hp : p.Bailing) (s : NetworkState) :
    (chooseEdge env s p).2.Bailing ∧
      ∀ e, (chooseEdge env s p).1 ≠ .error (.failure (.cancelled e)) := by
  unfold chooseEdge
  cases s.decision with
  | none => exact ⟨hp, fun e h => by cases h⟩
  | some d =>
    dsimp only
    split
    · have hsync : sync env p = (.ok (), p) := by
        unfold sync
        rw [if_pos (by simp [hp.bails])]
      rw [bind_run, hsync]
      refine ⟨hp.predict d, fun e h => ?_⟩
      have hrun : ((p.recognizer.predict env d).1).mapError id =
          .error (.failure (.cancelled e)) := h
      unfold Recognizer.predict at hrun
      split at hrun
      · cases hrun
      · dsimp only at hrun
        split at hrun <;> cases hrun
    · exact ⟨hp, fun e h => by cases h⟩

/-- An edge that a parse that bails cannot pass ends the parse at once, or is a mismatch that nothing is
done about yet. -/
theorem passEdge_bail (hp : p.strategy.policy = .bail) {s : NetworkState}
    (h : passEdge env s t p = (.error halt, p')) :
    (∃ e, halt = .failure (.cancelled e) ∧ p' = p.giveUp env e) ∨
      p' = p ∧ ∃ e, halt = .failure (.recognition e) := by
  have hmatch : ∀ {m : ParserM Token} {q : Parser} {c : Prop} [Decidable c],
      (m p = if c then takeMatch env q else recoverToken env p) →
      (discard m : ParserM Unit) p = (.error halt, p') →
      ∃ e, halt = .failure (.cancelled e) ∧ p' = p.giveUp env e := by
    intro m q c _ hm h
    have h' : (m >>= fun _ => pure PUnit.unit) p = (.error halt, p') := h
    rw [bind_run, hm] at h'
    by_cases hc : c
    · rw [if_pos hc] at h'
      cases h'
    · rw [if_neg hc, recoverToken_bail hp] at h'
      cases h'
      exact ⟨_, rfl, rfl⟩
  unfold passEdge at h
  cases hk : t.kind with
  | epsilon =>
    rw [hk] at h
    dsimp only at h
    split at h <;> cases h
  | atom k =>
    rw [hk] at h
    exact .inl (hmatch (matchToken_run k) h)
  | range _ _ | set _ | notSet _ =>
    rw [hk] at h
    dsimp only at h
    generalize env.network.label? _ = label at h
    cases label with
    | none => cases h
    | some types => exact .inl (hmatch (matchSet_run types) h)
  | wildcard =>
    rw [hk] at h
    exact .inl (hmatch matchAny_run h)
  | rule _ _ _ =>
    rw [hk] at h
    cases h
  | predicate r index _ =>
    rw [hk] at h
    dsimp only at h
    rw [get_run] at h
    cases hh : p.recognizer.holds env r index
    · simp only [hh] at h
      cases h
      exact .inr ⟨rfl, _, rfl⟩
    · simp only [hh] at h
      cases h
  | action _ _ =>
    rw [hk] at h
    cases h
  | precedence level =>
    rw [hk] at h
    dsimp only at h
    unfold Parser.checkPrecedence at h
    rw [get_run] at h
    generalize p.recognizer.checkPrecedence env level = result at h
    cases result with
    | error e =>
      cases h
      exact .inr ⟨rfl, _, rfl⟩
    | ok u => cases h

/-- Where a visit fails, lookahead is all that came before. -/
theorem visit_bail (hb : i.parser.Bailing) {s : NetworkState}
    (h : i.visit env s = (.error halt, i')) :
    ∃ k : Interpreter, k.callers = i.callers ∧ Deeds env i.parser k.parser ∧ k.parser.Bailing ∧
      ((∃ e, halt = .failure (.cancelled e) ∧
          i' = { k with parser := k.parser.giveUp env e }) ∨
        i' = k ∧ ∀ e, halt ≠ .failure (.cancelled e)) := by
  have hd := @deeds_chooseEdge env s i.parser
  obtain ⟨hk, hhalt⟩ := @chooseEdge_bail env i.parser hb s
  unfold visit at h
  dsimp only [run] at h
  generalize chooseEdge env s i.parser = x at h hd hk hhalt
  obtain ⟨halt' | alt, p⟩ := x
  · cases h
    exact ⟨{ i with parser := p }, rfl, hd, hk, .inr ⟨rfl, fun e he => hhalt e (by rw [he])⟩⟩
  · refine ⟨{ i with parser := p }, rfl, hd, hk, ?_⟩
    dsimp only at h
    split at h
    · rename_i t _
      unfold followEdge at h
      cases hkind : t.kind with
      | rule c follow precedence =>
        rw [hkind] at h
        dsimp only at h
        generalize hen : Interpreter.enter env { i with parser := p } c precedence = y at h
        obtain ⟨halt' | id, i₁⟩ := y
        · cases h
          obtain ⟨rfl, name, limit, rfl⟩ := enter_eq_error hen
          exact .inr ⟨rfl, fun e he => by cases he⟩
        · cases h
      | _ =>
        rw [hkind] at h
        dsimp only [run] at h
        generalize hpass : passEdge env s t p = y at h
        obtain ⟨halt' | u, p'⟩ := y
        · cases h
          obtain ⟨e, rfl, rfl⟩ | ⟨rfl, e, rfl⟩ := passEdge_bail hk.bails hpass
          · exact .inl ⟨e, rfl, rfl⟩
          · exact .inr ⟨rfl, fun e he => by cases he⟩
        · cases h
    · cases h
      exact .inr ⟨rfl, fun e he => by cases he⟩

theorem bailing_followEdge (hb : i.parser.Bailing) {s : NetworkState}
    (h : i.followEdge env s t = (.ok (), i')) : i'.parser.Bailing := by
  have htwins : Twins i { i with parser := ⟨i.recognizer, {}⟩ } := ⟨hb.twins, rfl⟩
  obtain ⟨_, -, h'⟩ := (agree_followEdge htwins s t).recover_of_bail () i' h
  exact h'.parsers.bailing

/-- While a parse that bails goes on it has met no error. -/
theorem bailing_goes (hb : i.parser.Bailing) (h : Goes env i i') : i'.parser.Bailing := by
  obtain ⟨s, -, ⟨-, -, rfl⟩ | ⟨-, hv⟩⟩ := h
  · have htwins : Twins i { i with parser := ⟨i.recognizer, {}⟩ } := ⟨hb.twins, rfl⟩
    exact (htwins.leaveRule _).parsers.bailing
  · obtain ⟨hk, -⟩ := @chooseEdge_bail env i.parser hb (env.network.state s)
    unfold visit at hv
    dsimp only [run] at hv
    generalize chooseEdge env (env.network.state s) i.parser = x at hv hk
    obtain ⟨halt | alt, p⟩ := x
    · cases hv
    · dsimp only at hv
      split at hv
      · exact bailing_followEdge hk hv
      · cases hv

theorem bailing_follows (hb : i.parser.Bailing)
    (h : Relation.ReflTransGen (Follows env rule root) i i') : i'.parser.Bailing := by
  induction h with
  | refl => exact hb
  | tail _ hstep ih => exact bailing_goes ih (goes_of_bail ih.bails hstep)

/-- A step that ends the parse reports one error, at the very end. -/
theorem step_cancelled {e : RecognitionError} (hb : i.parser.Bailing)
    (h : step env rule root i = .finished (.error (.failure (.cancelled e))) i') :
    ∃ k, Turns env i k ∧ k.parser.Bailing ∧ i' = { k with parser := k.parser.giveUp env e } := by
  unfold step at h
  cases hs : i.recognizer.state with
  | none =>
    rw [hs] at h
    cases h
  | some s =>
    rw [hs] at h
    dsimp only at h
    split at h
    · split at h <;> cases h
    · generalize hv : i.visit env (env.network.state s) = x at h
      obtain ⟨halt | u, i₁⟩ := x
      · obtain ⟨k, hcallers, hd, hk, ⟨e', rfl, rfl⟩ | ⟨rfl, hhalt⟩⟩ := visit_bail hb hv
        · cases h
          exact ⟨k, Moves.turns (moves_of_deeds_of_callers hcallers hd), hk, rfl⟩
        · obtain (e' | ⟨_, _⟩ | e') | d := halt
          · -- the mismatch is given up for at the end of its rule
            dsimp only at h
            rw [recoverFrom_bail hk.bails] at h
            cases h
            have hmoves := moves_of_deeds_of_callers hcallers hd
            have hstate : i₁.recognizer.state = some s := (state_deeds hd).trans hs
            exact ⟨_, Moves.turns ((hmoves.tail (.skip hstate)).tail (.deed (.blame e false))),
              ⟨(Recognizer.errors_recordError _ e false).trans hk.silent, hk.bails, hk.steady⟩, rfl⟩
          · cases h
          · exact absurd rfl (hhalt e')
          · cases h
      · cases h

/-- Giving up notes the error on every live invocation. -/
theorem blamed_giveUp {G : Guide} {first : TokenCursor} {a : Station} {rest : List Station}
    {done : List InvocationId} {w : List Token}
    (h : Tracked env G rule root first k (a :: rest) done w) (e : RecognitionError) :
    (k.parser.giveUp env e).recognizer.invocation = some a.id ∧
      ∀ id, (k.parser.giveUp env e).recognizer.forest.Around a.id id →
        ((k.parser.giveUp env e).recognizer.forest.get id).error.isSome = true := by
  obtain ⟨hforest, hinv⟩ := @forest_reportError env k.parser e
  have hinv' : (k.parser.reportError env e).recognizer.invocation = some a.id :=
    hinv.trans h.invocation
  have hgive : (k.parser.giveUp env e).recognizer = { (k.parser.reportError env e).recognizer with
      forest := (k.recognizer.forest.ancestors a.id).foldl (fun f id =>
        f.modify id fun i => { i with error := i.error <|> some e }) k.recognizer.forest } := by
    show (k.parser.reportError env e).recognizer.recordError e true = _
    unfold Recognizer.recordError
    simp only [hinv', if_true, hforest]
    rfl
  rw [hgive]
  refine ⟨hinv', fun id hid => ?_⟩
  dsimp only at hid ⊢
  have haround : k.recognizer.forest.Around a.id id := by
    refine Relation.ReflTransGen.mono (fun x y hxy => ?_) _ _ hid
    rwa [Forest.get_blame Invocation.parent fun _ _ => rfl] at hxy
  have hmem := h.woven.threads.mem_of_around haround
  obtain ⟨b, hb, rfl⟩ := List.mem_map.1 hmem
  refine Forest.error_blame e ?_ (h.woven.lt b hb)
  rw [h.woven.ancestors]
  exact hmem

/-- The types in an input are those of its tokens, and the end of input. -/
theorem kind_of_mem_ofTokens {tokens : Array Token} {channel : Nat} {t : Token}
    (h : t ∈ (TokenCursor.ofTokens tokens channel).tokens) :
    t.kind = TokenType.eof ∨ ∃ u ∈ tokens, t.kind = u.kind := by
  obtain ⟨m, hm, rfl⟩ := Array.mem_mapIdx.1 h
  dsimp only
  have hmem : (TokenCursor.close tokens)[m] ∈ TokenCursor.close tokens := Array.getElem_mem hm
  generalize (TokenCursor.close tokens)[m] = u at hmem
  unfold TokenCursor.close at hmem
  split at hmem
  · exact .inr ⟨u, hmem, rfl⟩
  · obtain hmem | rfl := Array.mem_push.1 hmem
    · exact .inr ⟨u, hmem, rfl⟩
    · left
      unfold TokenCursor.closing
      split <;> rfl

/-- The interpreter with a fresh strategy of this policy. -/
def under (i : Interpreter) (policy : RecoveryPolicy) : Interpreter :=
  { i with parser := { i.parser with strategy := { policy } } }

theorem twins_under (hi : i.Fresh) : Twins (i.under .bail) (i.under .recover) :=
  ⟨⟨rfl, hi.errors, rfl, rfl, rfl, rfl⟩, rfl⟩

/-- Under a fresh strategy as well a parse that has not begun is followed from its first invocation on. -/
theorem tracked_under {tokens : Array Token} {channel start : Nat} (policy : RecoveryPolicy)
    (hg : g.compile = .ok env.grammar) (hrule : rule < g.rules.size) (hi : i.Fresh)
    (hinput : i.recognizer.input = (TokenCursor.ofTokens tokens channel).seek start) :
    ∃ G : Guide, ∀ first i₀ k, (i.under policy).enter env rule 0 = (.ok first, i₀) → Turns env i₀ k →
      ∃ a rest done w, Tracked env G rule first i.recognizer.input k (a :: rest) done w := by
  obtain ⟨G, hnet, -, -, hG⟩ := Grammar.exists_guide hg fun _ _ _ _ _ => True
  have hsize : rule < G.network.rules.size := by
    rw [hnet, (Grammar.shaped_compile hg).2]
    exact hrule
  have hstop : i.recognizer.input.Stopped := by
    rw [hinput]
    exact TokenCursor.stopped_moveTo _ _
  have hindex : ∀ t ∈ i.recognizer.input.tokens, t.isConjured = false := by
    intro t ht
    rw [hinput] at ht
    exact @isConjured_of_mem_ofTokens tokens channel t ht
  have hfresh : (i.under policy).Fresh :=
    ⟨hi.forest, hi.invocation, hi.state, hi.floors, hi.errors, hi.callers, rfl⟩
  exact ⟨G, fun first i₀ k henter hk =>
    (tracked_enter hG hnet.symm hsize hfresh hstop henter).turns hG hnet.symm hindex hk⟩

/-- From a fresh parser, a parse that bails ends well exactly if one that recovers ends well and reports
nothing, and both leave the same. -/
theorem parse_bail_iff {tokens : Array Token} {channel start fuel : Nat}
    (hg : g.compile = .ok env.grammar) (hrule : rule < g.rules.size) (hi : i.Fresh)
    (hinput : i.recognizer.input = (TokenCursor.ofTokens tokens channel).seek start)
    (hcache : i.recognizer.cache.Earned env.network) (hkinds : ∀ t ∈ tokens, TokenType.epsilon ≤ t.kind)
    (root : InvocationId) (r : Recognizer) :
    (∃ i', (i.under .bail).parse env fuel rule = some (.ok root, i') ∧ i'.recognizer = r) ↔
      ∃ i', (i.under .recover).parse env fuel rule = some (.ok root, i') ∧ i'.recognizer = r ∧
        r.errors = #[] := by
  obtain ⟨hsame, hentered⟩ := @Twins.enter env _ _ (twins_under hi) rule 0
  have hside := (@onlyTree_enter env (i.under .bail) rule 0).1
  obtain ⟨G, htracked⟩ := tracked_under .bail hg hrule hi hinput
  unfold parse
  generalize hb : (i.under .bail).enter env rule 0 = x at hsame hentered hside
  generalize (i.under .recover).enter env rule 0 = y at hsame hentered
  obtain ⟨halt | first, i₀⟩ := x
  · obtain ⟨_, j₀⟩ := y
    cases hsame
    refine ⟨?_, ?_⟩
    · rintro ⟨_, ⟨⟩, -⟩
    · rintro ⟨_, ⟨⟩, -⟩
  obtain ⟨_, j₀⟩ := y
  cases hsame
  dsimp only at hentered hside ⊢
  have hinf : ∀ k, Turns env i₀ k → k.parser.Informed env := by
    intro k hk
    refine ⟨earned_turns hk (by rw [hside.cache]; exact hcache), ?_⟩
    obtain ⟨a, rest, done, w, h⟩ := htracked first i₀ k hb hk
    obtain ⟨v, hv, -⟩ := h.consumed
    have hmem : k.recognizer.input.current ∈ (TokenCursor.ofTokens tokens channel).tokens := by
      have htokens : i.recognizer.input.tokens = (TokenCursor.ofTokens tokens channel).tokens := by
        rw [hinput]
        rfl
      rw [← htokens, ← hv.along.tokens]
      exact Array.getElem_mem _
    show TokenType.epsilon ≤ k.recognizer.input.current.kind
    obtain heof | ⟨u, hu, heq⟩ := kind_of_mem_ofTokens hmem
    · rw [heof]
      decide
    · rw [heq]
      exact hkinds u hu
  obtain ⟨hrecover, hbail⟩ := @Twins.runFor env g i₀ j₀ rule first root hg fuel hentered hinf
  refine ⟨?_, ?_⟩
  · rintro ⟨i', hrun, rfl⟩
    obtain ⟨j', hrun', h'⟩ := hrecover i' hrun
    exact ⟨j', hrun', h'.recognizer, h'.parsers.silent⟩
  · rintro ⟨j', hrun, rfl, hs⟩
    obtain ⟨i', hrun', h'⟩ := hbail j' hrun hs
    exact ⟨i', hrun', h'.recognizer.symm⟩

/-- From a fresh parser, a parse that bails ends well exactly if one that recovers ends well and reports
nothing, and both leave the same: this holds for inputs whose types are not below that of the empty word.
On every input a parse that bails and is cancelled has reported one error, the one it is cancelled for, and
every live invocation has an error noted. -/
theorem bail_agrees_with_recover {tokens : Array Token} {channel start fuel : Nat}
    (hg : g.compile = .ok env.grammar) (hrule : rule < g.rules.size) (hi : i.Fresh)
    (hinput : i.recognizer.input = (TokenCursor.ofTokens tokens channel).seek start)
    (hcache : i.recognizer.cache.Earned env.network) :
    ((∀ t ∈ tokens, TokenType.epsilon ≤ t.kind) → ∀ root r,
      (∃ i', (i.under .bail).parse env fuel rule = some (.ok root, i') ∧ i'.recognizer = r) ↔
        ∃ i', (i.under .recover).parse env fuel rule = some (.ok root, i') ∧ i'.recognizer = r ∧
          r.errors = #[]) ∧
    ∀ e i', (i.under .bail).parse env fuel rule = some (.error (.failure (.cancelled e)), i') →
      (∃ report, i'.recognizer.errors = #[report] ∧ report.code = e.code ∧
        report.span = e.offending.span ∧ report.tokenIndex = e.offending.index ∧
        report.line = e.offending.line ∧ report.column = e.offending.column) ∧
      ∃ inner, i'.recognizer.invocation = some inner ∧
        ∀ id, i'.recognizer.forest.Around inner id →
          (i'.recognizer.forest.get id).error.isSome = true := by
  refine ⟨parse_bail_iff hg hrule hi hinput hcache, fun e i' hrun => ?_⟩
  obtain ⟨-, hentered⟩ := @Twins.enter env _ _ (twins_under hi) rule 0
  obtain ⟨G, htracked⟩ := tracked_under .bail hg hrule hi hinput
  unfold parse at hrun
  generalize hb : (i.under .bail).enter env rule 0 = x at hrun hentered
  obtain ⟨halt | first, i₀⟩ := x
  · obtain ⟨-, name, limit, rfl⟩ := enter_eq_error hb
    cases hrun
  dsimp only at hrun hentered
  obtain ⟨j, hsteps, hfin⟩ := follows_runFor hrun
  obtain ⟨k, hturns, hk, rfl⟩ := step_cancelled (bailing_follows hentered.parsers.bailing hsteps) hfin
  obtain ⟨context, herrors⟩ := @errors_giveUp env k.parser hk e
  obtain ⟨a, rest, done, w, h⟩ := htracked first i₀ k hb ((turns_of_follows hsteps).trans hturns)
  exact ⟨⟨_, herrors, describe_spec k.parser e⟩, a.id, blamed_giveUp h e⟩

end Interpreter

/-- A parser that has not begun, at these tokens. -/
def beforeTokens (env : Setting) (tokens : Array Token) : Interpreter :=
  let input := (TokenCursor.ofTokens tokens defaultChannel).seek 0
  { parser := { recognizer := .start env input (.ofNetwork env.network) } }

theorem fresh_beforeTokens (env : Setting) (tokens : Array Token) : (beforeTokens env tokens).Fresh :=
  ⟨rfl, rfl, rfl, rfl, rfl, rfl, rfl⟩

/-- The parse was given up at a mismatch. -/
def cancels : Except Halt InvocationId → Bool
  | .error (.failure (.cancelled _)) => true
  | _ => false

/-- With `nested`, the parse of A B goes the same under both policies, and that of A A B is cancelled at
the second A if it bails. -/
theorem bail_nested :
    (∃ i', ((beforeTokens nestedSetting #[{ kind := 1 }, { kind := 2 }]).under .recover).parse
      nestedSetting 20 0 = some (.ok 0, i') ∧ i'.recognizer.errors = #[]) ∧
    ∃ e i', ((beforeTokens nestedSetting #[{ kind := 1 }, { kind := 1 }, { kind := 2 }]).under
        .bail).parse nestedSetting 20 0 = some (.error (.failure (.cancelled e)), i') ∧
      (∃ report, i'.recognizer.errors = #[report] ∧ report.code = e.code ∧
        report.span = e.offending.span ∧ report.tokenIndex = e.offending.index ∧
        report.line = e.offending.line ∧ report.column = e.offending.column) ∧
      ∃ inner, i'.recognizer.invocation = some inner ∧
        ∀ id, i'.recognizer.forest.Around inner id →
          (i'.recognizer.forest.get id).error.isSome = true := by
  have hsize : 0 < nested.rules.size := by
    rw [show nested.rules.size = 2 by cbv]
    decide
  have hagree := fun tokens => @Interpreter.bail_agrees_with_recover nestedSetting nested _ 0 tokens
    defaultChannel 0 20 compile_nested hsize (fresh_beforeTokens nestedSetting tokens) rfl
    (PredictionCache.earned_ofNetwork _)
  refine ⟨?_, ?_⟩
  · have hrun : (((beforeTokens nestedSetting #[{ kind := 1 }, { kind := 2 }]).under .bail).parse
        nestedSetting 20 0).map Prod.fst = some (.ok 0) := by cbv
    obtain ⟨p, hparse, hp⟩ := Option.map_eq_some_iff.1 hrun
    obtain ⟨_, i'⟩ := p
    cases hp
    have hkinds : ∀ t ∈ (#[{ kind := 1 }, { kind := 2 }] : Array Token),
        TokenType.epsilon ≤ t.kind := by decide
    obtain ⟨j', hrun', hr, hsilent⟩ := ((hagree _).1 hkinds 0 i'.recognizer).1 ⟨i', hparse, rfl⟩
    exact ⟨j', hrun', hr ▸ hsilent⟩
  · have hrun : (((beforeTokens nestedSetting #[{ kind := 1 }, { kind := 1 }, { kind := 2 }]).under
        .bail).parse nestedSetting 20 0).map (fun p => cancels p.1) = some true := by cbv
    obtain ⟨p, hparse, hp⟩ := Option.map_eq_some_iff.1 hrun
    obtain ⟨outcome, i'⟩ := p
    dsimp only at hp
    unfold cancels at hp
    split at hp
    · rename_i e
      exact ⟨e, i', hparse, (hagree _).2 e i' hparse⟩
    · cases hp

/-- `s` is a type that sets of types do not hold, or the token A. -/
def foreign : Grammar :=
  let (a, g) := ({} : Grammar).addToken "A"
  let (s, g) := g.addRule "s"
  g.define s (.plain (.alt [.token (-5), .token a]))

def foreignNetwork : Network where
  states := #[⟨.ruleStart, 0, [⟨6, .epsilon⟩], none, false⟩, ⟨.ruleStop, 0, [], none, false⟩,
    ⟨.basic, 0, [⟨3, .atom (-5)⟩], none, false⟩, ⟨.basic, 0, [⟨7, .epsilon⟩], none, false⟩,
    ⟨.basic, 0, [⟨5, .atom 1⟩], none, false⟩, ⟨.basic, 0, [⟨7, .epsilon⟩], none, false⟩,
    ⟨.blockStart, 0, [⟨2, .epsilon⟩, ⟨4, .epsilon⟩], some 0, false⟩,
    ⟨.blockEnd, 0, [⟨1, .epsilon⟩], none, false⟩]
  rules := #[⟨"s", 0, 1, false⟩]
  decisions := #[6]
  maxType := 1
  nextTokens := #[.ofList [1], .ofList [-2], .ofList [], .ofList [-2], .ofList [1], .ofList [-2],
    .ofList [1], .ofList [-2]]
  ruleFollow := #[[]]
  returnPrecedence := .replicate 8 none
  edgeCount := 8

def foreignSetting : Setting := { grammar := ⟨foreignNetwork, foreign.names⟩ }

set_option maxRecDepth 20000 in
theorem compile_foreign : foreign.compile = .ok foreignSetting.grammar := by cbv

/-- The parser that bails at the decision. -/
def atForeign : Interpreter :=
  (((beforeTokens foreignSetting #[{ kind := -5 }]).under .bail).enter foreignSetting 0 0).2.goTo
    (some 6)

/-- Lookahead takes the type that the table of next tokens lacks. -/
theorem predict_atForeign : ∃ cache, atForeign.recognizer.predict foreignSetting 0 =
    (.ok 1, { atForeign.recognizer with cache }) := by
  generalize hsim : atForeign.recognizer.simulation foreignSetting 0 = sim
  have hnet : sim.network = foreignNetwork := by
    rw [← hsim]
    rfl
  have hfloor : sim.floor = 0 := by
    rw [← hsim]
    cbv
  have hstart : sim.startSet false 0 = .ofList
      [⟨{ state := 2, precedence := 0 }, 1⟩, ⟨{ state := 4, precedence := 0 }, 2⟩] false := by
    obtain ⟨n, _, _, _, _⟩ := sim
    cases hnet
    cases hfloor
    rw [Simulation.startSet_eq_startClosure, if_neg (by cbv; decide), Simulation.startClosure,
      Simulation.closure_eq_closureRun (k := 20) (by decide) (by cbv)]
    cbv
  have hreach : sim.reach false (sim.startSet false 0) (-5) =
      .ofList [⟨{ state := 1, precedence := 0 }, 1⟩] false := by
    rw [hstart]
    obtain ⟨n, _, _, _, _⟩ := sim
    cases hnet
    cases hfloor
    rw [Simulation.reach, Simulation.closure_eq_closureRun (k := 20) (by decide) (by cbv)]
    cbv
  have hkind : atForeign.recognizer.input.kind = -5 := by cbv
  have hstop : atForeign.recognizer.input.Stopped := TokenCursor.stopped_moveTo _ _
  have hok : (atForeign.recognizer.predict foreignSetting 0).1 = .ok 1 := by
    apply Recognizer.predict_of_unique (by cbv)
    · rw [hsim, hstart]
      cbv
    · rw [hsim, hkind, hreach]
      cbv
    · rw [hsim, hkind, hreach, hstart]
      cbv
      decide
  exact ⟨_, Prod.ext hok (Recognizer.predict_snd hstop 0)⟩

/-- A parse by `foreign` ends well if it bails, and one that recovers reports an error before the
decision. -/
theorem policies_differ_foreign : foreign.compile = .ok foreignSetting.grammar ∧
    (∃ i', ((beforeTokens foreignSetting #[{ kind := -5 }]).under .bail).parse foreignSetting 10 0 =
      some (.ok 0, i')) ∧
    ∃ i', ((beforeTokens foreignSetting #[{ kind := -5 }]).under .recover).parse foreignSetting 10 0 =
      some (.ok 0, i') ∧ i'.recognizer.errors.size = 1 := by
  refine ⟨compile_foreign, ?_, ?_⟩
  · obtain ⟨cache, hpredict⟩ := predict_atForeign
    have hfirst : Interpreter.Goes foreignSetting
        (((beforeTokens foreignSetting #[{ kind := -5 }]).under .bail).enter foreignSetting 0 0).2
        atForeign := ⟨0, rfl, .inr ⟨rfl, rfl⟩⟩
    have hchoose : Interpreter.chooseEdge foreignSetting (foreignNetwork.state 6) atForeign.parser =
        (.ok 1, { atForeign.parser with recognizer := { atForeign.recognizer with cache } }) := by
      show (match atForeign.recognizer.predict foreignSetting 0 with
        | (outcome, r) => (outcome.mapError id, { atForeign.parser with recognizer := r })) = _
      rw [hpredict]
      rfl
    have hsecond : Interpreter.Goes foreignSetting atForeign ({ atForeign with parser :=
        { atForeign.parser with recognizer := { atForeign.recognizer with cache } } }.goTo
          (some 2)) := by
      refine ⟨6, rfl, .inr ⟨rfl, ?_⟩⟩
      unfold Interpreter.visit Interpreter.run
      rw [show foreignSetting.network.state 6 = foreignNetwork.state 6 from rfl, hchoose]
      rfl
    have hrest : (Interpreter.runFor foreignSetting 0 0 8 ({ atForeign with parser :=
        { atForeign.parser with recognizer := { atForeign.recognizer with cache } } }.goTo
          (some 2))).map Prod.fst = some (.ok 0) := by cbv
    show ∃ i', Interpreter.runFor foreignSetting 0 0 10
      (((beforeTokens foreignSetting #[{ kind := -5 }]).under .bail).enter foreignSetting 0 0).2 =
        some (.ok 0, i')
    rw [Interpreter.runFor, hfirst.step]
    dsimp only
    rw [Interpreter.runFor, hsecond.step]
    obtain ⟨p, hp, hfst⟩ := Option.map_eq_some_iff.1 hrest
    obtain ⟨_, i'⟩ := p
    cases hfst
    exact ⟨i', hp⟩
  · have hrun : (((beforeTokens foreignSetting #[{ kind := -5 }]).under .recover).parse foreignSetting
        10 0).map (fun p => (p.1, p.2.recognizer.errors.size)) = some (.ok 0, 1) := by cbv
    obtain ⟨p, hparse, hp⟩ := Option.map_eq_some_iff.1 hrun
    obtain ⟨outcome, i'⟩ := p
    obtain ⟨rfl, he⟩ := Prod.mk.inj hp
    exact ⟨i', hparse, he⟩

end AdaptiveParsing
