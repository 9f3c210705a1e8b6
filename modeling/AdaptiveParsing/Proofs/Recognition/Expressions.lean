import AdaptiveParsing.Proofs.Recognition.Rounds
/-!
Parsing expressions. The start rule calls the rule of operands and operators once and takes the end of input.
A parse that bails is followed through the rounds; what it ends with is what every parse ends with
(`Interpreter.parse_under`). Main statement: `Interpreter.parse_expression`, the tree of an expression is
the one that climbing builds.
-/

namespace AdaptiveParsing

open AdaptiveParsing.Parser Network

namespace Interpreter

section

variable {env : Setting} {levels : RuleId → Int → Prop} {e s : RuleId}
  {heads : List (StateId × TokenType)} {rounds : List (StateId × Binding)} {after c : StateId}
  {j : Interpreter} {a : StateId}

/-- From the start of the start rule a parse reads an expression and the end of input. -/
theorem advances_start (N : env.network.InfixTables levels e s heads rounds after c)
    (hmode : env.config.mode = .sll) (htree : env.config.buildTrees = true) {root : InvocationId}
    {y : Token} {rest : List (Token × Token)} {whole : Expr}
    (hj : j.Calling e (env.network.rule s).start root (y :: interleave rest))
    (hrule : (j.recognizer.forest.get root).rule = s) (hfloors : j.recognizer.floors ≠ []) (hy : y.kind ∈ heads.map Prod.snd)
    (hknown : ∀ q ∈ rest, (∃ x ∈ rounds, x.2.token = q.1.kind) ∧ q.2.kind ∈ heads.map Prod.snd)
    (hclimbs : Climbs (rounds.map Prod.snd) 0 (.operand y) rest whole [])
    (hdepth : j.recognizer.nesting.depth + (whole.nesting + 1) ≤ j.recognizer.nesting.limit) :
    ∃ j' sub t, Advances env j j' ∧ j'.recognizer.state = some (env.network.rule s).stop ∧
      j'.recognizer.invocation = some root ∧ t.isEof = true ∧
      j'.recognizer.forest.get root = { j.recognizer.forest.get root with
        children := ((j.recognizer.forest.get root).children.push (.rule sub)).push (.token t) } ∧
      root < j'.recognizer.forest.size ∧ j'.recognizer.forest.Depicts e sub whole := by
  have hshape := N.expressions.start
  have hbegin := advances_epsilon N.checked hj.state (transitions_of_unnumbered hshape.start)
    (congrArg NetworkState.precedenceDecision hshape.start)
  have hcalling : (j.goTo (some c)).Calling e c root (y :: interleave rest) :=
    ⟨rfl, hj.invocation, hj.lt, hj.unfinished, hj.stopped, hj.word⟩
  obtain ⟨j₁, sub, hcall, hc⟩ : ∃ j₁ sub, Advances env (j.goTo (some c)) j₁ ∧
      Calls (j.goTo (some c)) j₁ e root (c + 1) whole [] sub := by
    by_cases hne : rounds = []
    · have hnil : rest = [] := by
        cases rest with
        | nil => rfl
        | cons q more =>
          obtain ⟨⟨x, hx, -⟩, -⟩ := hknown q (.head _)
          rw [hne] at hx
          cases hx
      subst hnil
      cases hclimbs
      exact advances_plainCall N hmode htree hne N.call_start hcalling hy (by
        show j.recognizer.nesting.depth < j.recognizer.nesting.limit
        omega)
    · exact advances_recursiveCall N hmode htree hne N.call_start hcalling hfloors hy hdepth
        (performs_climbs N hmode htree hne hclimbs hknown)
  have hback := advances_epsilon N.checked hc.state (transitions_of_unnumbered hshape.back)
    (congrArg NetworkState.precedenceDecision hshape.back)
  have hkind : j₁.recognizer.input.kind = TokenType.eof := TokenCursor.word_eq_nil hc.word
  have htake := advances_atom (j := j₁.goTo (some (c + 2))) N.checked rfl N.take_end hkind
  have htakes := takes_take (j := j₁.goTo (some (c + 2))) htree hc.invocation (c + 3)
  have hlast := advances_epsilon N.checked htakes.state (transitions_of_unnumbered hshape.taken)
    (congrArg NetworkState.precedenceDecision hshape.taken)
  have hlt : root < j₁.recognizer.forest.size := Nat.lt_of_lt_of_le hj.lt hc.size_le
  have hunfinished : j₁.recognizer.forest.Unfinished e root := fun h =>
    absurd ((h.symm.trans (congrArg Invocation.rule hc.node)).trans hrule) N.expressions.ne
  generalize ((j₁.goTo (some (c + 2))).change fun r => r.take env).goTo (some (c + 3)) = j₂
    at htake htakes hlast
  have hforest : j₂.recognizer.forest =
      j₁.recognizer.forest.addChild root (.token j₁.recognizer.input.current) := htakes.forest
  refine ⟨j₂.goTo (some (env.network.rule s).stop), sub, j₁.recognizer.input.current,
    (((hbegin.trans hcall).trans hback).trans htake).trans hlast, rfl, htakes.invocation,
    TokenCursor.isEof_current.2 hkind, ?_, ?_, ?_⟩
  · show j₂.recognizer.forest.get root = _
    rw [hforest, Forest.get_addChild _ hlt, hc.node]
    rfl
  · show root < j₂.recognizer.forest.size
    rw [hforest, Forest.size_addChild]
    exact hlt
  · show j₂.recognizer.forest.Depicts e sub whole
    rw [hforest]
    refine hc.depicts.outside hunfinished fun k _ hne => ?_
    rw [Forest.get_addChild_other _ hne]
    exact ⟨rfl, rfl⟩

/-- A fresh parser opens the first invocation of a forest. -/
theorem enter_fresh {i : Interpreter} (hi : i.Fresh) (hplain : (env.network.rule s).leftRecursive = false)
    (hdepth : i.recognizer.nesting.depth < i.recognizer.nesting.limit) :
    let j := i.change fun r => (r.enterRule env s).2
    i.enter env s 0 = (.ok 0, j) ∧ j.recognizer = { i.recognizer with
      nesting := { i.recognizer.nesting with depth := i.recognizer.nesting.depth + 1 }
      forest := ⟨#[i.recognizer.newInvocation s 0]⟩
      invocation := some 0
      state := some (env.network.rule s).start } := by
  have hforest : i.recognizer.forest = ⟨#[]⟩ := hi.forest
  have henter := enter_plain (i := i) 0 hplain hdepth
  refine ⟨?_, (congrArg Prod.snd (@Recognizer.enterRule_eq env _ s hdepth)).trans ?_⟩
  · rw [hforest] at henter
    exact henter
  · unfold Recognizer.addChild
    dsimp only
    rw [hi.invocation, hforest]
    rfl

/-- At the end of the outermost invocation a run ends. -/
theorem runFor_outermost {i : Interpreter} {root : InvocationId}
    (hplain : (env.network.rule s).leftRecursive = false) (hs : i.recognizer.state = some a)
    (hstop : (env.network.state a).isRuleStop = true) (hinv : i.recognizer.invocation = some root)
    (hcaller : (i.recognizer.forest.get root).caller = none) (hlt : root < i.recognizer.forest.size) :
    ∃ i', runFor env s root 1 i = some (.ok root, i') ∧
      i.recognizer.forest.Keeps i'.recognizer.forest root := by
  have hout : i.isOutermost = true := by
    unfold isOutermost
    rw [hinv]
    dsimp only
    rw [hcaller]
    rfl
  have hfinish : i.finish env s root = (root, i.change Recognizer.exitRule) := by
    unfold finish
    rw [if_neg (by simp [hplain])]
    rfl
  obtain ⟨stop, hexit, -⟩ := Recognizer.exitRule_eq hinv
  refine ⟨i.change Recognizer.exitRule, ?_, ?_⟩
  · unfold runFor step
    rw [hs]
    dsimp only
    rw [if_pos hstop, if_pos hout, hfinish]
  · show i.recognizer.forest.Keeps i.recognizer.exitRule.forest root
    rw [hexit]
    exact Forest.keeps_modify hlt (fun _ => rfl) fun _ => rfl

/-- A parse of an expression that bails, without the callers. -/
theorem parse_bailing (N : env.network.InfixTables levels e s heads rounds after c)
    (hmode : env.config.mode = .sll) (htree : env.config.buildTrees = true) {i : Interpreter}
    {y : Token} {rest : List (Token × Token)} {whole : Expr} (hi : i.Fresh) (hbail : i.parser.Bailing)
    (hstop : i.recognizer.input.Stopped) (hearned : i.recognizer.cache.Earned env.network)
    (hsize : env.network.decisions.size ≤ i.recognizer.cache.size)
    (hw : i.recognizer.input.word = y :: interleave rest) (hy : y.kind ∈ heads.map Prod.snd)
    (hknown : ∀ q ∈ rest, (∃ x ∈ rounds, x.2.token = q.1.kind) ∧ q.2.kind ∈ heads.map Prod.snd)
    (hclimbs : Climbs (rounds.map Prod.snd) 0 (.operand y) rest whole [])
    (hdepth : i.recognizer.nesting.depth + (whole.nesting + 2) ≤ i.recognizer.nesting.limit) :
    ∃ fuel root i', i.parse env fuel s = some (.ok root, i') ∧
      i'.recognizer.forest.Reads s e root whole := by
  have hplain := N.expressions.start.plain
  obtain ⟨henter, hj⟩ := enter_fresh hi hplain (by omega)
  have hlike : Like env (i.change fun r => (r.enterRule env s).2)
      (i.change fun r => (r.enterRule env s).2) := by
    refine ⟨rfl, rfl, hbail.modify (f := fun r => (r.enterRule env s).2)
      (Recognizer.errors_enterRule _ _ _), ?_, ?_, ?_⟩ <;> rw [hj]
    · exact hstop
    · exact hearned
    · exact hsize
  generalize (i.change fun r => (r.enterRule env s).2) = j at henter hj hlike
  have hnode : j.recognizer.forest.get 0 = i.recognizer.newInvocation s 0 := by
    rw [hj]
    rfl
  have hrule : (j.recognizer.forest.get 0).rule = s := by
    rw [hnode]
    rfl
  have hcalling : j.Calling e (env.network.rule s).start 0 (y :: interleave rest) := by
    refine ⟨by rw [hj], by rw [hj], by rw [hj]; exact Nat.one_pos, fun h => ?_, by rw [hj]; exact hstop,
      by rw [hj]; exact hw⟩
    exact absurd (h.symm.trans hrule) N.expressions.ne
  obtain ⟨j', sub, t, hadvances, hstate, hinv, heof, hlast, hlt, hdepicts⟩ :=
    advances_start N hmode htree hcalling hrule (by rw [hj]; dsimp only; rw [hi.floors]; nofun) hy hknown
      hclimbs (by rw [hj]; dsimp only; omega)
  obtain ⟨i₁, hgoes, hi₁⟩ := hadvances j hlike
  rw [← hi₁.forest] at hlast hlt hdepicts
  rw [hnode] at hlast
  have hcaller : (i₁.recognizer.forest.get 0).caller = none := by
    rw [hlast]
    show (if i.recognizer.invocation.isSome then i.recognizer.state else none) = none
    rw [hi.invocation]
    rfl
  have hstop' : (env.network.state (env.network.rule s).stop).isRuleStop = true := by
    rw [NetworkState.isRuleStop, (N.shaped.rule s N.start_lt).stop_kind]
    rfl
  obtain ⟨i', hrun, hkeeps⟩ := runFor_outermost hplain (hi₁.state.trans hstate) hstop'
    (hi₁.invocation.trans hinv) hcaller hlt
  obtain ⟨fuel, hparse⟩ := Advances.runFor hgoes hrun
  refine ⟨fuel, 0, i', ?_, ?_, sub, t, heof, ?_, hdepicts.keeps hkeeps⟩
  · unfold parse
    rw [henter]
    exact hparse
  · rw [hkeeps.rule, hlast]
    rfl
  · rw [hkeeps.children, hlast]
    rfl

end

/-- What a parse that bails ends with, without the callers, is what a parse of either policy ends with, with
or without the callers. -/
theorem parse_under {env : Setting} {g : Grammar} {items : List Element} {s : RuleId} {i i' : Interpreter}
    {tokens : Array Token} {channel start fuel : Nat} {root : InvocationId} (policy : RecoveryPolicy)
    (hg : g.compile = .ok env.grammar) (hclosed : g.ClosedBy s items) (hfree : g.PredicateFree)
    (htree : env.config.buildTrees = true) (hi : i.Fresh)
    (hinput : i.recognizer.input = (TokenCursor.ofTokens tokens channel).seek start)
    (hkinds : ∀ t ∈ tokens, TokenType.epsilon ≤ t.kind ∧ t.kind ≤ env.network.maxType)
    (hcache : i.recognizer.cache.Earned env.network)
    (hrun : (i.under .bail).parse (env.inMode .sll) fuel s = some (.ok root, i')) :
    ∃ j, (i.under policy).parse env fuel s = some (.ok root, j) ∧ j.recognizer = i'.recognizer ∧
      j.recognizer.errors = #[] := by
  obtain ⟨rule, hrule, -⟩ := hclosed.body
  have hsize : s < g.rules.size := (Array.getElem?_eq_some_iff.1 hrule).1
  have hagree := fun mode => @parse_bail_iff (env.inMode mode) g i s tokens channel start fuel hg hsize hi
    hinput hcache (fun t ht => (hkinds t ht).1) root i'.recognizer
  obtain ⟨j, hsll, hsame, hquiet⟩ := (hagree .sll).1 ⟨i', hrun, rfl⟩
  have hquiet' : j.recognizer.errors = #[] := by rw [hsame, hquiet]
  have hll := parse_inMode hg hclosed hfree htree hi hinput (fun t ht => (hkinds t ht).2) hcache hsll
    hquiet'
  have hrecover : (i.under .recover).parse (env.inMode env.config.mode) fuel s = some (.ok root, j) := by
    cases env.config.mode with
    | sll => exact hsll
    | ll => exact hll
  cases policy with
  | recover => exact ⟨j, hrecover, hsame, hquiet'⟩
  | bail =>
    obtain ⟨k, hk, hk'⟩ := (hagree env.config.mode).2 ⟨j, hrecover, hsame, hquiet⟩
    exact ⟨k, hk, hk', hk' ▸ hquiet⟩

end Interpreter

/-- `s` is `e` and the end of input; `e` is NUM, `e` POW `e` to the right, or `e` PLUS `e` to the left. -/
def powers : Grammar :=
  let (num, g) := ({} : Grammar).addToken "NUM"
  let (pow, g) := g.addToken "POW"
  let (plus, g) := g.addToken "PLUS"
  let (s, g) := g.addRule "s"
  let (e, g) := g.addRule "e"
  (g.define s (startBody e)).define e (.leftRecursive
    [.binary .right [.token pow], .binary .left [.token plus], .primary [.token num]])

def powersDraft : Draft := powers.draft.toOption.getD {}
set_option maxRecDepth 20000 in
theorem draft_powers : powers.draft = .ok powersDraft := by cbv

theorem check_powersDraft : powersDraft.check = .ok () := by
  have hnullable : powersDraft.nullableRules = Array.replicate 2 false := by
    refine Draft.nullableRules_of_stop (by cbv) fun r hr => ?_
    obtain rfl | rfl : r = 0 ∨ r = 1 := by omega
    · cbv
    · cbv
  have hcycle : powersDraft.leftRecursion? = none := by
    unfold Draft.leftRecursion? Draft.leftCalls
    rw [hnullable]
    cbv
  unfold Draft.check
  rw [hcycle]
  cbv

/-- The setting of `powers`, with some table of next tokens. -/
def powersSetting (nextTokens : Array TokenSet) : Setting :=
  { grammar := ⟨{ powersDraft.skeleton with nextTokens }, powers.names⟩ }

theorem compile_powers : ∃ nextTokens, powers.compile = .ok (powersSetting nextTokens).grammar :=
  ⟨_, Grammar.compile_of_check draft_powers check_powersDraft⟩

def powerAlternatives : List InfixAlternative := [.operator .right 2, .operator .left 3, .operand 1]

theorem rules_powers : powers.rules = #[⟨"s", some (startBody 1)⟩,
    ⟨"e", some (.leftRecursive (powerAlternatives.map InfixAlternative.alternative))⟩] := by cbv

theorem infix_powers : powers.Infix 1 0 powerAlternatives where
  expression := ⟨_, by rw [rules_powers]; rfl, rfl⟩
  start := ⟨_, by rw [rules_powers]; rfl, rfl⟩
  others := by
    rintro r leaf he hs ⟨rule, body, hrule, -⟩
    rw [rules_powers] at hrule
    match r, (Array.getElem?_eq_some_iff.1 hrule).1 with
    | 0, _ => exact absurd rfl hs
    | 1, _ => exact absurd rfl he
  distinct := by decide
  disjoint := by decide
  users := by
    rintro t (h | h)
    · exact (by decide : ∀ t ∈ InfixAlternative.operands powerAlternatives, TokenType.firstUser ≤ t) t h
    · exact (by decide : ∀ t ∈ (InfixAlternative.bindings powerAlternatives).map Binding.token,
        TokenType.firstUser ≤ t) t h

/-- NUM PLUS NUM POW NUM POW NUM PLUS NUM. -/
def sumOfPowers : Array Token :=
  #[{ kind := 1 }, { kind := 3 }, { kind := 1 }, { kind := 2 }, { kind := 1 }, { kind := 2 }, { kind := 1 },
    { kind := 3 }, { kind := 1 }]

/-- The token of a type with an index. -/
def placed (kind : TokenType) (index : Nat) : Token := { kind, index := some index }

theorem word_sumOfPowers (nextTokens : Array TokenSet) :
    (beforeTokens (powersSetting nextTokens) sumOfPowers).recognizer.input.word =
      placed 1 0 :: interleave [(placed 3 1, placed 1 2), (placed 2 3, placed 1 4), (placed 2 5, placed 1 6),
        (placed 3 7, placed 1 8)] := by
  cbv

theorem climb_sumOfPowers : (climb (InfixAlternative.bindings powerAlternatives) 0 (.operand (placed 1 0))
    [(placed 3 1, placed 1 2), (placed 2 3, placed 1 4), (placed 2 5, placed 1 6), (placed 3 7, placed 1 8)]).1 =
    .binary (.binary (.operand (placed 1 0)) (placed 3 1) (.binary (.operand (placed 1 2)) (placed 2 3)
      (.binary (.operand (placed 1 4)) (placed 2 5) (.operand (placed 1 6))))) (placed 3 7) (.operand (placed 1 8)) := by
  cbv

end AdaptiveParsing
