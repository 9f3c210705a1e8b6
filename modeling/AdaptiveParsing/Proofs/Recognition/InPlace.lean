import AdaptiveParsing.Proofs.Network.Expected
import AdaptiveParsing.Proofs.Recognition.Damage
import AdaptiveParsing.Proofs.Recognition.Resuming
import AdaptiveParsing.Proofs.Recognition.Sessions
/-!
Recovery in place. What a parse expects where an edge takes a token is the label of that edge, whoever the
callers are. So from the label, the next token and the callers it is known what recovery does there: it drops a
token, conjures one or changes nothing (`recoverToken_deletes`, `recoverToken_inserts`, `recoverToken_fails`).
Main statement: `Interpreter.recovers_in_place`.
-/

namespace AdaptiveParsing

open AdaptiveParsing.Parser

variable {env : Setting}

theorem Network.takes_of_mem {n : Network} {k : EdgeKind} {types : TokenSet} {token : Token}
    (hl : n.label? k = some types) (hmem : token.kind ∈ types) : n.Takes k token := by
  have hm := Network.matches_of_label hl hmem
  cases k with
  | atom a => exact hm.symm
  | wildcard => exact hm.1
  | range _ _ | set _ | notSet _ => exact ⟨types, hl, hmem⟩
  | _ => cases hl

theorem Recognizer.returnsFrom_lt (hn : env.network.Checked) (r : Recognizer) (id : Option InvocationId) :
    ∀ back ∈ r.returnsFrom env id, back < env.network.states.size := by
  intro back hback
  unfold returnsFrom at hback
  cases id with
  | none => cases hback
  | some id =>
    obtain ⟨s, -, hs⟩ := List.mem_filterMap.1 hback
    exact hn.followOf?_lt hs

namespace Parser

variable {p q : Parser} {id : InvocationId}

/-- A token that is dropped becomes a child, even if tokens do not. -/
theorem forest_consume_of_recovering (hid : p.recognizer.invocation = some id)
    (hr : p.strategy.recovering = true) : (p.consume env).recognizer.forest =
      p.recognizer.forest.addChild id (.error p.recognizer.input.current) := by
  show (Recognizer.consume env p.recognizer p.strategy.recovering).forest = _
  unfold Recognizer.consume Recognizer.addChild
  simp [hr, hid]

/-- The current token becomes a child of the innermost invocation. -/
theorem forest_consume (htree : env.config.buildTrees = true) (hid : p.recognizer.invocation = some id) :
    (p.consume env).recognizer.forest = p.recognizer.forest.addChild id
      (if p.strategy.recovering then .error p.recognizer.input.current
        else .token p.recognizer.input.current) := by
  show (Recognizer.consume env p.recognizer p.strategy.recovering).forest = _
  unfold Recognizer.consume Recognizer.addChild
  cases p.strategy.recovering <;> simp [hid, htree]

/-- The current token is dropped, and the one after it is taken: the input is past the first, and past the
second unless it ends there. -/
structure Deletes (p q : Parser) (id : InvocationId) : Prop where
  input : q.recognizer.input = p.recognizer.input.consume.consume
  past : p.recognizer.input.position < p.recognizer.input.consume.position
  past_taken : p.recognizer.input.consume.current.isEof = false →
    p.recognizer.input.consume.position < q.recognizer.input.position
  tree : p.recognizer.forest.Grows q.recognizer.forest id
    [.error p.recognizer.input.current, .token p.recognizer.input.consume.current]

/-- The missing token is added to the tree, and no token is passed. -/
structure Inserts (p q : Parser) (id : InvocationId) (t : Token) : Prop where
  input : q.recognizer.input = p.recognizer.input
  tree : p.recognizer.forest.Grows q.recognizer.forest id [.error t]
  conjured : t.isConjured = true

/-- What dropping the current token leaves. -/
theorem drop_eq (hid : p.recognizer.invocation = some id) :
    let q := ((p.reportUnwanted env).consume env).reportMatch
    q.recognizer.input = p.recognizer.input.consume ∧
      q.recognizer.forest = p.recognizer.forest.addChild id (.error p.recognizer.input.current) ∧
      q.recognizer.invocation = some id ∧ q.strategy.recovering = false := by
  have hinput : (p.reportUnwanted env).recognizer.input = p.recognizer.input := input_reportOnce _
  have hforest : (p.reportUnwanted env).recognizer.forest = p.recognizer.forest := forest_reportOnce _
  have hinv : (p.reportUnwanted env).recognizer.invocation = some id :=
    (p.samePlace_reportOnce _).invocation.trans hid
  have hrecovering : (p.reportUnwanted env).strategy.recovering = true := recovering_reportOnce _
  refine ⟨?_, ?_, ?_, rfl⟩
  · rw [← hinput]
    exact input_consume _
  · rw [← hforest, ← hinput]
    exact forest_consume_of_recovering hinv hrecovering
  · exact ((p.reportUnwanted env).recognizer.samePlace_consume _).invocation.trans hinv

section

variable (hp : p.strategy.policy = .recover)
include hp

theorem recoverInline_of_delete (h : p.recognizer.input.peek 2 ∈ p.recognizer.expected env) :
    recoverInline env p =
      (.ok ((p.reportUnwanted env).consume env).reportMatch.recognizer.input.current,
        ((p.reportUnwanted env).consume env).reportMatch.consume env) := by
  unfold recoverInline deleteToken?
  rw [hp, if_pos h]
  rfl

theorem recoverInline_of_not_delete (h : p.recognizer.input.peek 2 ∉ p.recognizer.expected env) :
    recoverInline env p = if p.canInsert env then
        (.ok ((p.reportMissing env).missingToken env), p.reportMissing env)
      else (.error (.failure (.recognition (p.mismatchAtSyncPoint env))), p) := by
  unfold recoverInline deleteToken?
  rw [hp, if_neg h]

/-- Neither helps. -/
theorem recoverToken_fails (h : p.recognizer.input.peek 2 ∉ p.recognizer.expected env)
    (hins : p.canInsert env = false) : recoverToken env p =
      (.error (.failure (.recognition (p.mismatchAtSyncPoint env))), p) := by
  have hrun := recoverInline_of_not_delete hp h
  rw [hins] at hrun
  rw [recoverToken_run, hrun]
  rfl

variable (hid : p.recognizer.invocation = some id) (hlt : id < p.recognizer.forest.size)
include hid hlt

/-- The token after the current one is expected. -/
theorem recoverToken_deletes (htree : env.config.buildTrees = true)
    (hnext : p.recognizer.input.consume.current.isConjured = false)
    (heof : p.recognizer.input.current.isEof = false)
    (h : p.recognizer.input.peek 2 ∈ p.recognizer.expected env) :
    ∃ q, recoverToken env p = (.ok p.recognizer.input.consume.current, q) ∧ Deletes p q id := by
  have hrun := recoverInline_of_delete hp h
  have hdrop := @drop_eq env p id hid
  generalize ((p.reportUnwanted env).consume env).reportMatch = dropped at hrun hdrop
  obtain ⟨hinput, hforest, hinv, hmatched⟩ := hdrop
  have hpassed : (dropped.consume env).recognizer.input = p.recognizer.input.consume.consume := by
    rw [input_consume, hinput]
  rw [hinput] at hrun
  refine ⟨dropped.consume env, ?_, hpassed, TokenCursor.position_lt_consume heof, ?_, ?_⟩
  · rw [recoverToken_run, hrun]
    dsimp only
    rw [if_neg (by simp [hnext])]
  · intro htaken
    rw [hpassed]
    exact TokenCursor.position_lt_consume htaken
  · have hgrown := Forest.grows_addChild hlt (.error p.recognizer.input.current)
    have hlt' : id < (p.recognizer.forest.addChild id (.error p.recognizer.input.current)).size := by
      rw [hgrown.size_eq]
      exact hlt
    rw [forest_consume htree hinv, if_neg (by simp [hmatched]), hforest, hinput]
    exact hgrown.trans (Forest.grows_addChild hlt' _)

/-- The current token may come after the missing one. -/
theorem recoverToken_inserts (h : p.recognizer.input.peek 2 ∉ p.recognizer.expected env)
    (hins : p.canInsert env = true) : ∃ t q, recoverToken env p = (.ok t, q) ∧
      t.kind = (p.recognizer.expected env).min?.getD TokenType.invalid ∧ Inserts p q id t := by
  have hrun := recoverInline_of_not_delete hp h
  rw [if_pos hins] at hrun
  have hreport : (p.reportMissing env).recognizer.input = p.recognizer.input ∧
      (p.reportMissing env).recognizer.forest = p.recognizer.forest ∧
      p.recognizer.SamePlace (p.reportMissing env).recognizer :=
    ⟨input_reportOnce _, forest_reportOnce _, p.samePlace_reportOnce _⟩
  generalize p.reportMissing env = reported at hrun hreport
  obtain ⟨hinput, hforest, hplace⟩ := hreport
  have hconj : (reported.missingToken env).isConjured = true := rfl
  refine ⟨_, reported.modifyRecognizer fun r => r.addChild (.error (reported.missingToken env)),
    ?_, ?_, ?_, ?_, hconj⟩
  · rw [recoverToken_run, hrun]
    dsimp only
    rw [if_pos hconj]
  · show (reported.recognizer.expected env).min?.getD TokenType.invalid = _
    rw [hplace.expected]
  · exact (reported.recognizer.onlyTree_addChild _).input.trans hinput
  · show p.recognizer.forest.Grows (reported.recognizer.addChild _).forest id _
    rw [Recognizer.forest_addChild _ (hplace.invocation.trans hid), hforest]
    exact Forest.grows_addChild hlt _

end

/-- A token is inserted just where the current one can come next past the edge. -/
theorem canInsert_iff {levels : RuleId → Int → Prop} {s : StateId} {t : Transition}
    (hshape : env.network.Shaped levels) (hn : env.network.Checked) (p : Parser)
    (hs : p.recognizer.state = some s) (hid : p.recognizer.invocation = some id)
    (halone : (env.network.state s).transitions = [t]) : p.canInsert env = true ↔
      env.network.Next t.target (some (p.recognizer.returnsFrom env (some id))) p.recognizer.input.kind := by
  have hfollow := @Network.mem_following_iff env.network levels
    (some (p.recognizer.returnsFrom env (some id))) t.target hshape hn
    (p.recognizer.returnsFrom_lt hn (some id)) p.recognizer.input.kind
  rw [← hfollow]
  unfold canInsert
  dsimp only
  rw [hs, Option.bind_some, halone, hid]
  exact decide_eq_true_iff

theorem kind_mismatchAtSyncPoint (p : Parser) : (p.mismatchAtSyncPoint env).kind = .inputMismatch := by
  unfold mismatchAtSyncPoint
  cases p.strategy.syncPoint <;> rfl

end Parser

namespace Interpreter

variable {g : Grammar} {i : Interpreter} {s : StateId} {t : Transition} {types : TokenSet}

/-- A state with one edge leaves nothing to decide. -/
theorem visit_alone {here : NetworkState} (halone : here.transitions = [t]) :
    i.visit env here = arrive t.target (i.cross env here t) := by
  have hchoose : i.run (chooseEdge env here) = (.ok 1, i) := by
    unfold chooseEdge
    cases here.decision with
    | none => rfl
    | some d =>
      dsimp only
      rw [if_neg (by simp [halone])]
      rfl
  unfold visit
  rw [hchoose]
  simp only [halone]
  rfl

/-- Where the one edge does not take the current token, the parse recovers in place. -/
theorem visit_alone_of_mismatch {here : NetworkState} (halone : here.transitions = [t])
    (hl : env.network.label? t.kind = some types)
    (hno : ¬ env.network.Takes t.kind i.recognizer.input.current) :
    i.visit env here = arrive t.target (i.run (discard (recoverToken env))) := by
  have hrun : ∀ {m : ParserM Token}, m i.parser = recoverToken env i.parser →
      i.run (discard m) = i.run (discard (recoverToken env)) := by
    intro m hm
    unfold Interpreter.run
    rw [show (discard m : ParserM Unit) i.parser = (discard (recoverToken env) : ParserM Unit) i.parser from
      by rw [discard_run, discard_run, hm]]
  rw [visit_alone halone]
  congr 1
  unfold cross passEdge
  cases hk : t.kind with
  | atom k =>
    apply hrun
    rw [matchToken_run, if_neg]
    rwa [hk] at hno
  | wildcard =>
    apply hrun
    rw [matchAny_run, if_neg]
    rwa [hk] at hno
  | range _ _ | set _ | notSet _ =>
    rw [hk] at hno hl
    dsimp only
    rw [hl]
    apply hrun
    rw [matchSet_run, if_neg]
    exact fun hmem => hno ⟨types, hl, hmem⟩
  | _ =>
    rw [hk] at hl
    cases hl

/-- Where the current token does not match, the parse recovers in place. -/
theorem visit_of_mismatch (hn : env.network.Checked) (ht : t ∈ (env.network.state s).transitions)
    (hl : env.network.label? t.kind = some types)
    (hno : ¬ env.network.Takes t.kind i.recognizer.input.current) :
    i.visit env (env.network.state s) = arrive t.target (i.run (discard (recoverToken env))) :=
  visit_alone_of_mismatch (hn.single s t ht (Network.isConsuming_of_label hl)) hl hno

/-- Where an edge takes a token and the current one does not match, one parser that recovers from errors does
one of three things, whatever it has parsed so far. If the label has the next token, the current one is
dropped and that one taken. Else, if the current token can come next past the edge, inside the live
invocations, the least token of the label is conjured. Else a mismatch is the answer, and nothing is changed. -/
theorem recovers_in_place (hg : g.compile = .ok env.grammar) (htree : env.config.buildTrees = true)
    (hi : Session env i) (hs : i.recognizer.state = some s) (ht : t ∈ (env.network.state s).transitions)
    (hl : env.network.label? t.kind = some types) (hne : types.isEmpty = false)
    (heps : TokenType.epsilon ∉ types) (hno : ¬ env.network.Takes t.kind i.recognizer.input.current) :
    ∃ id, i.recognizer.invocation = some id ∧
      i.visit env (env.network.state s) = arrive t.target (i.run (discard (recoverToken env))) ∧
      (i.recognizer.input.consume.kind ∈ types → ∃ p,
        recoverToken env i.parser = (.ok i.recognizer.input.consume.current, p) ∧
          Deletes i.parser p id) ∧
      (i.recognizer.input.consume.kind ∉ types →
        env.network.Next t.target (some (i.recognizer.returnsFrom env (some id))) i.recognizer.input.kind →
        ∃ token p, recoverToken env i.parser = (.ok token, p) ∧
          token.kind ∈ types ∧ (∀ k ∈ types, token.kind ≤ k) ∧ Inserts i.parser p id token) ∧
      (i.recognizer.input.consume.kind ∉ types →
        ¬ env.network.Next t.target (some (i.recognizer.returnsFrom env (some id)))
          i.recognizer.input.kind →
        ∃ e, recoverToken env i.parser = (.error (.failure (.recognition e)), i.parser) ∧
          e.kind = .inputMismatch) := by
  obtain ⟨hshape, -⟩ := Grammar.shaped_compile hg
  have hn := Grammar.checked_compile hg
  have hup := hi.upright hg
  obtain ⟨id, hid, hlt, -⟩ := hup.invocation hs
  have hexpected : i.parser.recognizer.expected env = types := by
    show Recognizer.expectedAt env i.recognizer i.recognizer.state i.recognizer.invocation = types
    rw [hs]
    exact Network.expectedTokens_of_label (Grammar.tabled_compile hg) hn ht hl heps _
  have hinsert := i.parser.canInsert_iff hshape hn hs hid
    (hn.single s t ht (Network.isConsuming_of_label hl))
  have hpeek : i.parser.recognizer.input.peek 2 ∈ i.parser.recognizer.expected env ↔
      i.recognizer.input.consume.kind ∈ types := by
    rw [hexpected, TokenCursor.peek_two]
    rfl
  refine ⟨id, hid, visit_of_mismatch hn ht hl hno, ?_, ?_, ?_⟩
  · intro hnext
    refine recoverToken_deletes hup.policy hid hlt htree ?_ ?_ (hpeek.2 hnext)
    · apply hup.indexed
      rw [← i.recognizer.input.along_consume.tokens]
      exact Array.getElem_mem _
    · rw [Bool.eq_false_iff]
      intro heof
      have hstays : i.recognizer.input.consume = i.recognizer.input :=
        TokenCursor.consume_of_eof (TokenCursor.isEof_current.1 heof)
      rw [hstays] at hnext
      exact hno (Network.takes_of_mem hl hnext)
  · intro hnext hcan
    obtain ⟨token, p, hrun, hkind, hins⟩ :=
      recoverToken_inserts hup.policy hid hlt (mt hpeek.1 hnext) (hinsert.2 hcan)
    obtain ⟨least, hmin, hmem, hle⟩ := TokenSet.min?_of_not_isEmpty hne
    rw [hexpected, hmin, Option.getD_some] at hkind
    subst hkind
    exact ⟨token, p, hrun, hmem, hle, hins⟩
  · intro hnext hcan
    have hcannot : i.parser.canInsert env = false := Bool.eq_false_iff.2 (mt hinsert.1 hcan)
    exact ⟨_, recoverToken_fails hup.policy (mt hpeek.1 hnext) hcannot, i.parser.kind_mismatchAtSyncPoint⟩

end Interpreter

open Interpreter

/-- Inside `r`, before A, at the input C A C. -/
def ledAtStray : Interpreter :=
  let i := ((before ledSetting #[{ kind := 2 }, { kind := 1 }, { kind := 2 }]).enter ledSetting 0 0).2
  let i := (i.step ledSetting 0 0).interpreter
  let i := (i.step ledSetting 0 0).interpreter
  (i.step ledSetting 0 0).interpreter

theorem session_ledAtStray : Session ledSetting ledAtStray :=
  ((((session_before _ _).enter 0 (by decide)).step 0 0).step 0 0).step 0 0

/-- The first C is dropped, and A is taken. -/
theorem recovers_in_place_led : ∃ p, recoverToken ledSetting ledAtStray.parser =
      (.ok { kind := 1, index := some 1 }, p) ∧ Deletes ledAtStray.parser p 1 := by
  have hstate : ledAtStray.recognizer.state = some 8 := by cbv
  have hinv : ledAtStray.recognizer.invocation = some 1 := by cbv
  have hcur : ledAtStray.recognizer.input.current = { kind := 2, index := some 0 } := by cbv
  have hnext : ledAtStray.recognizer.input.consume.current = { kind := 1, index := some 1 } := by cbv
  have hno : ¬ ledSetting.network.Takes (.atom 1) ledAtStray.recognizer.input.current := by
    rw [hcur]
    exact (by decide : ¬ (2 : TokenType) = 1)
  have hkind : ledAtStray.recognizer.input.consume.kind ∈ TokenSet.singleton 1 := by
    unfold TokenCursor.kind
    rw [hnext]
    decide
  obtain ⟨id, hid, -, hdeletes, -⟩ := @recovers_in_place ledSetting led ledAtStray 8 ⟨9, .atom 1⟩
    (.singleton 1) compile_led rfl session_ledAtStray hstate (.head _) rfl (by decide) (by decide) hno
  obtain rfl : 1 = id := Option.some.inj (hinv.symm.trans hid)
  rw [hnext] at hdeletes
  exact hdeletes hkind

/-- `s` is a token that is the empty word. -/
def hollow : Grammar :=
  let (s, g) := (({} : Grammar).addToken "A").2.addRule "s"
  g.define s (.plain (.set [TokenType.epsilon]))

def hollowNetwork : Network where
  states := #[⟨.ruleStart, 0, [⟨2, .epsilon⟩], none, false⟩, ⟨.ruleStop, 0, [], none, false⟩,
    ⟨.basic, 0, [⟨3, .set (.ofList [-2])⟩], none, false⟩,
    ⟨.basic, 0, [⟨1, .epsilon⟩], none, false⟩]
  rules := #[⟨"s", 0, 1, false⟩]
  maxType := 1
  nextTokens := #[.ofList [-2], .ofList [-2], .ofList [-2], .ofList [-2]]
  ruleFollow := #[[]]
  returnPrecedence := #[none, none, none, none]
  edgeCount := 3

def hollowSetting : Setting := { grammar := ⟨hollowNetwork, hollow.names⟩ }

set_option maxRecDepth 20000 in
theorem compile_hollow : hollow.compile = .ok hollowSetting.grammar := by cbv

/-- Before the token, at the input A. -/
def hollowAtStray : Interpreter :=
  (((before hollowSetting #[{ kind := 1 }]).enter hollowSetting 0 0).2.step hollowSetting 0 0).interpreter

/-- With the empty word in the label, what comes after the rule is expected too: a token is dropped, and the end
of input taken in its place, which the label does not have. -/
theorem taken_off_label : hollow.compile = .ok hollowSetting.grammar ∧ ∃ types token p,
    Session hollowSetting hollowAtStray ∧ hollowAtStray.recognizer.state = some 2 ∧
    (hollowSetting.network.state 2).transitions = [⟨3, .set types⟩] ∧ types.isEmpty = false ∧
    ¬ hollowSetting.network.Takes (.set types) hollowAtStray.recognizer.input.current ∧
    hollowAtStray.recognizer.input.consume.kind ∉ types ∧
    recoverToken hollowSetting hollowAtStray.parser = (.ok token, p) ∧ token.isConjured = false := by
  have hcur : hollowAtStray.recognizer.input.current = { kind := 1, index := some 0 } := by cbv
  have hnext : hollowAtStray.recognizer.input.consume.kind = TokenType.eof := by cbv
  have hrun : (recoverToken hollowSetting hollowAtStray.parser).1 =
      .ok { Token.endOfInput with index := some 1 } := by cbv
  refine ⟨compile_hollow, .ofList [-2], _, _, ?_, by cbv, rfl, by decide, ?_, ?_,
    Prod.ext hrun rfl, rfl⟩
  · exact ((session_before _ _).enter 0 (by decide)).step 0 0
  · rw [hcur]
    rintro ⟨types, hl, hmem⟩
    cases hl
    revert hmem
    decide
  · rw [hnext]
    decide

end AdaptiveParsing
