import AdaptiveParsing.Proofs.Lookahead.Generations
import AdaptiveParsing.Proofs.Lookahead.Searching
import AdaptiveParsing.Proofs.Lookahead.Viable
import AdaptiveParsing.Proofs.Recognition.Bail
import AdaptiveParsing.Proofs.Recognition.Cache
import AdaptiveParsing.Proofs.Recognition.Whereabouts
/-!
What a parse decides. At every decision the live invocations make the place that lookahead begins at, and as
long as the end of input is not taken the start rule is not at its end. Main statement: of the alternatives
that lead to the end of the input a parse takes the least (`Interpreter.decides_least`), if the rounds of its
operators are apart. If they are not, it may take another (`round_contested`).
-/

namespace AdaptiveParsing

open AdaptiveParsing.Parser Relation

/-- The network of a compiled grammar. -/
theorem Grammar.built_compile {g : Grammar} {c : CompiledGrammar} (h : g.compile = .ok c) :
    c.network.Built g.HasLevel := by
  obtain ⟨d, -, hb⟩ := build_compile h
  obtain ⟨hshaped, hsize⟩ := shaped_compile h
  exact {
    shaped := hshaped
    checked := checked_compile h
    prices := fun a t ht r follow precedence hk => Draft.returnPrecedence_build hb hshaped ht hk
    tails := fun r hr => tails_compile h (hsize ▸ hr)
    rule_lt := fun a ha => rule_lt_compile h ha }

namespace Network

variable {n : Network} {s : RuleId} {q e : StateId} {p : Place}

/-- The outermost invocation is where its calls return or, if it is the only one, where the place is. -/
theorem Closes.ongoing_of_not_past (h : n.Closes s q e) (hn : n.Checked) {a : StateId} {floor : Int}
    {frames : List Frame} (hnested : n.Nested s a frames) (ha : ¬ n.Past s e a) :
    n.Ongoing s e ⟨a, floor, frames⟩ := by
  induction frames generalizing a floor with
  | nil =>
    rw [Ongoing, Place.outermost_of_nil rfl]
    exact not_or.1 ha
  | cons f outer ih =>
    obtain ⟨-, hback, -, hnested⟩ := hnested
    have hgo : n.Ongoing s e ⟨f.returnState, f.precedence, outer⟩ :=
      ih hnested (h.not_past_follow hn hback)
    unfold Ongoing at hgo ⊢
    rw [Place.outermost_of_cons (p := ⟨a, floor, f :: outer⟩) rfl]
    exact hgo

/-- Past the end of input there is nothing to decide. -/
theorem Closes.not_past_of_length (h : n.Closes s q e) {levels : RuleId → Int → Prop}
    (hshape : n.Shaped levels) (hn : n.Checked) {a : StateId} (hlen : 1 < (n.state a).transitions.length) :
    ¬ n.Past s e a := by
  rintro (he | hs)
  · rw [he, h.exit] at hlen
    exact absurd hlen (by simp)
  · have hstop := (hshape.rule s h.lt).stop_kind
    rw [hs, hn.last _ (by simp [NetworkState.isRuleStop, hstop])] at hlen
    exact absurd hlen (by simp)

/-- Along an edge without a token, -/
theorem reads_free {p' : Place} (t : Transition) (ht : t ∈ (n.state p.state).transitions)
    (h : p.follow? t = some p') : n.Reads p [] p' := .single (.free ht h)

/-- and along an edge for one token. -/
theorem reads_atom (t : Transition) (token : TokenType) (ht : t ∈ (n.state p.state).transitions)
    (hk : t.kind = .atom token) : n.Reads p [token] { p with state := t.target } :=
  .single (.take ht (by rw [hk]; rfl))

end Network

namespace Interpreter

variable {env : Setting} {g : Grammar} {s : RuleId} {items : List Element} {root : InvocationId}
  {i i₀ j : Interpreter} {p : Parser} {a : StateId} {d : DecisionId} {frames : List Frame}

/-- What a parse has in its cache at a decision was left by predictions in its network. -/
theorem history_of_deeds (hcache : PredictionCache.History env.network i.recognizer.cache)
    (hen : i.enter env s 0 = (.ok root, i₀)) (hj : ReflTransGen (Follows env s root) i₀ j)
    (hdeeds : Deeds env j.parser p) : PredictionCache.History env.network p.recognizer.cache := by
  have hentered := (@onlyTree_enter env i s 0).1
  rw [hen] at hentered
  refine history_turns (Moves.turns (moves_of_deeds hdeeds)) (history_turns (turns_of_follows hj) ?_)
  rw [hentered.cache]
  exact hcache

/-- For each decision of a compiled grammar such a cache has an automaton. -/
theorem exists_recorded {cache : PredictionCache} (hg : g.compile = .ok env.grammar)
    (hd : (env.network.state a).decision = some d) (hlen : 1 < (env.network.state a).transitions.length)
    (h : PredictionCache.History env.network cache) :
    ∃ known, cache.get? d = some known ∧ known.Recorded env.network d fun _ => True := by
  obtain ⟨_, -, hb⟩ := Grammar.build_compile hg
  obtain ⟨d', hd', -, hlt⟩ := Draft.decision_build hb hlen
  obtain rfl : d' = d := Option.some.inj (hd'.symm.trans hd)
  have hknown := Array.getElem?_eq_getElem (h.size_eq ▸ hlt)
  exact ⟨_, hknown, (h.automaton d' _ hknown).recorded⟩

/-- Of the alternatives that lead to the end of the input, a parse decides for the least. -/
theorem decides_least {tokens : Array Token} {channel start : Nat} (hg : g.compile = .ok env.grammar)
    (hclosed : g.ClosedBy s items) (hfree : g.PredicateFree) (hmode : env.config.mode = .ll)
    (hapart : env.network.RoundsApart) (hi : i.Fresh)
    (hnesting : i.recognizer.nesting = { limit := env.config.maxDepth })
    (hinput : i.recognizer.input = (TokenCursor.ofTokens tokens channel).seek start)
    (hcache : PredictionCache.History env.network i.recognizer.cache)
    (hen : i.enter env s 0 = (.ok root, i₀)) (hj : ReflTransGen (Follows env s root) i₀ j)
    (hstate : j.recognizer.state = some a) (hd : (env.network.state a).decision = some d)
    (hlen : 1 < (env.network.state a).transitions.length)
    (hsync : Parser.sync env j.parser = (.ok (), p))
    (houter : (p.recognizer.simulation env d).Outer p.recognizer.invocation frames)
    (hviable : ∃ alt, env.network.Viable ⟨a, (p.recognizer.simulation env d).floor, frames⟩
      p.recognizer.input.types alt) :
    (p.recognizer.predict env d).1 = .ok (sInf {alt | env.network.Viable
      ⟨a, (p.recognizer.simulation env d).floor, frames⟩ p.recognizer.input.types alt}) := by
  obtain ⟨G, hnet, -, -, hG⟩ := Grammar.exists_guide hg fun _ _ _ _ _ => True
  have hnet' : env.network = G.network := hnet.symm
  have N : env.network.Built g.HasLevel := Grammar.built_compile hg
  obtain ⟨q, e, hcloses⟩ : ∃ q e, env.network.Closes s q e := Grammar.closes_compile hg hclosed
  obtain ⟨hstop, hindex⟩ := stopped_of_input hinput
  obtain ⟨hsteps, -, -⟩ := along_parse hG hnet' (hnet' ▸ hcloses.lt) hi hstop hindex
    (counted_enter hnet' hi hnesting) (Counted.shift hnet') fun _ _ h hc _ _ => hc.leave hnet' h
  obtain ⟨b, rest, done, w, h, hc⟩ := hsteps root i₀ j hen hj
  -- what comes before the decision leaves the parse where it is
  have hdeeds : Deeds env j.parser p := by
    have hdone := @deeds_sync env j.parser
    rwa [hsync] at hdone
  obtain ⟨w', h', hc', -⟩ := h.deeds hnet' hindex hc hdeeds
  have hlocated := h'.located hc'
  obtain rfl : b.state = a := by
    have hb := h.state
    rw [hstate] at hb
    exact (Option.some.inj hb).symm
  have hinv : p.recognizer.invocation = some b.id := hlocated.invocation
  have hframes : frames = rest.map (G.frame p.recognizer.forest) := by
    rw [hinv] at houter
    exact houter.functional (hlocated.linked.outer hG hnet' rfl)
  have hdecision : env.network.decisionState d = b.state := N.checked.decision b.state d hlen hd
  have hfloor : (p.recognizer.simulation env d).floor = (p.recognizer.forest.get b.id).precedence :=
    hlocated.simulation_floor hG hnet' (hnet' ▸ hdecision)
  have hin : env.network.Inside s ⟨b.state, (p.recognizer.simulation env d).floor, frames⟩ := by
    have hinside := h'.inside hG (hnet' ▸ N.checked)
    rw [← hnet'] at hinside
    rw [hframes, hfloor]
    exact hinside
  have hgo : env.network.Ongoing s e ⟨b.state, (p.recognizer.simulation env d).floor, frames⟩ :=
    hcloses.ongoing_of_not_past N.checked hin.nested (hcloses.not_past_of_length N.shaped N.checked hlen)
  obtain ⟨known, hknown, hrecorded⟩ :=
    exists_recorded hg hd hlen (history_of_deeds hcache hen hj hdeeds)
  have hstop' : p.recognizer.input.Stopped := h'.stopped
  have hmark : p.recognizer.input.mark.2.Stopped := hstop'
  rw [← hdecision, ← TokenCursor.types_mark] at hviable ⊢
  rw [← hdecision] at hin hgo
  have hleast : IsLeast {alt | env.network.Viable ⟨env.network.decisionState d,
      (p.recognizer.simulation env d).floor, frames⟩ p.recognizer.input.mark.2.types alt} _ :=
    ⟨Nat.sInf_mem hviable, fun _ h => Nat.sInf_le h⟩
  have hpredict := @Simulation.predict_least (p.recognizer.simulation env d) s q e _ g.HasLevel d
    (fun _ => True) known frames N (Grammar.predicateFree_compile hg hfree) hcloses _ hapart houter trivial
    hrecorded hin hgo hmark hleast
  rw [← hmode] at hpredict
  rw [Recognizer.predict_eq hstop' hknown hpredict rfl]
  rfl

end Interpreter

namespace Interpreter

variable {env : Setting} {rule : RuleId} {root : InvocationId} {i j : Interpreter}

/-- Where a parse is after so many steps, if it goes on that long. -/
def later (env : Setting) (rule : RuleId) (root : InvocationId) : Nat → Interpreter → Interpreter
  | 0, i => i
  | k + 1, i =>
    match step env rule root i with
    | .running i' => later env rule root k i'
    | _ => i

theorem follows_later (k : Nat) : ReflTransGen (Follows env rule root) i (later env rule root k i) := by
  induction k generalizing i with
  | zero => exact .refl
  | succ k ih =>
    unfold later
    split
    · exact .head ‹_› ih
    · exact .refl

/-- With another cache. -/
def withCache (i : Interpreter) (cache : PredictionCache) : Interpreter :=
  { i with parser := { i.parser with recognizer := { i.parser.recognizer with cache } } }

/-- At a decision a parse that bails goes along the edge that lookahead finds. -/
theorem follows_of_prediction {s : StateId} {d : DecisionId} {alt : Nat} {a : Automaton} {t : Transition}
    (hpolicy : i.parser.strategy.policy = .bail) (hs : i.recognizer.state = some s)
    (hstop : (env.network.state s).isRuleStop = false) (hd : (env.network.state s).decision = some d)
    (hlen : 1 < (env.network.state s).transitions.length)
    (hedge : (env.network.state s).transitions[alt - 1]? = some t)
    (hinput : i.recognizer.input.Stopped) (ha : i.recognizer.cache.get? d = some a)
    (hp : ((i.recognizer.simulation env d).predict d env.config.mode a
      i.recognizer.input.mark.2).1 = .alternative alt)
    (hj : (i.withCache (i.recognizer.cache.set d ((i.recognizer.simulation env d).predict d env.config.mode a
      i.recognizer.input.mark.2).2.1)).followEdge env (env.network.state s) t = (.ok (), j)) :
    Follows env rule root i j := by
  have hsync : Parser.sync env i.parser = (.ok (), i.parser) := by
    rw [Parser.sync, hpolicy]
    rfl
  have hchoose := chooseEdge_of_predict hd hlen hsync (Recognizer.predict_eq hinput ha hp rfl)
  have hvisit : i.visit env (env.network.state s) = (.ok (), j) := by
    unfold visit run
    rw [hchoose]
    dsimp only [Recognizer.outcome]
    rw [hedge]
    exact hj
  unfold Follows step
  rw [hs]
  dsimp only
  rw [if_neg (by simp [hstop]), hvisit]

end Interpreter

/-- `s` is `e` and the end of input; `e` is `e` and these items, or ID; `t` is B `e`. -/
def suffixed (items : List Element) : Grammar :=
  let (_, g) := ({} : Grammar).addToken "U"
  let (b, g) := g.addToken "B"
  let (id, g) := g.addToken "ID"
  let (s, g) := g.addRule "s"
  let (e, g) := g.addRule "e"
  let (t, g) := g.addRule "t"
  ((g.define s (.plain (.seq [.rule e, .token TokenType.eof]))).define e
    (.leftRecursive [.suffix items, .primary [.token id]])).define t (.plain (.seq [.token b, .rule e]))

section

variable {items : List Element} (hitems : ∀ leaf ∈ Element.leavesAll items, leaf ∈ [Element.token 1, .rule 2])

theorem rules_suffixed : (suffixed items).rules = #[
    ⟨"s", some (.plain (.seq [.rule 1, .token TokenType.eof]))⟩,
    ⟨"e", some (.leftRecursive [.suffix items, .primary [.token 3]])⟩,
    ⟨"t", some (.plain (.seq [.token 2, .rule 1]))⟩] := by cbv

include hitems

/-- The leaves of the three rules. -/
theorem leaf_suffixed {r : RuleId} {leaf : Element} (h : (suffixed items).HasLeaf r leaf) :
    r = 0 ∧ leaf ∈ [Element.rule 1, .token TokenType.eof] ∨
      r ≠ 0 ∧ leaf ∈ [Element.token 1, .rule 2, .token 3, .token 2, .rule 1] := by
  obtain ⟨rule, body, hrule, hbody, hleaf⟩ := h
  rw [rules_suffixed] at hrule
  rcases r with _ | _ | _ | r
  · cases hrule
    cases hbody
    exact .inl ⟨rfl, hleaf⟩
  · cases hrule
    cases hbody
    refine .inr ⟨Nat.succ_ne_zero 0, ?_⟩
    rcases List.mem_append.1 (show leaf ∈ Element.leavesAll items ++ [.token 3] from hleaf) with hleaf | hleaf
    · exact List.mem_append_left [.token 3, .token 2, .rule 1] (hitems leaf hleaf)
    · rw [List.mem_singleton.1 hleaf]
      exact .tail _ (.tail _ (.head _))
  · cases hrule
    cases hbody
    exact .inr ⟨Nat.succ_ne_zero 1, .tail _ (.tail _ (.tail _ hleaf))⟩
  · cases hrule

theorem predicateFree_suffixed : (suffixed items).PredicateFree := by
  intro r leaf h
  rcases leaf_suffixed hitems h with ⟨-, hleaf⟩ | ⟨-, hleaf⟩ <;>
    exact (by decide : ∀ leaf ∈ _, Element.isPredicate leaf = false) leaf hleaf

theorem closedBy_suffixed : (suffixed items).ClosedBy 0 [.rule 1] where
  body := by
    rw [rules_suffixed]
    exact ⟨_, rfl, rfl⟩
  items := by decide
  others := by
    intro r leaf hr h
    rcases leaf_suffixed hitems h with ⟨rfl, -⟩ | ⟨-, hleaf⟩
    · exact absurd rfl hr
    · exact (by decide : ∀ leaf ∈ _, Element.takesEof leaf = false) leaf hleaf
  uncalled := by
    intro r leaf h
    rcases leaf_suffixed hitems h with ⟨-, hleaf⟩ | ⟨-, hleaf⟩ <;>
      exact (by decide : ∀ leaf ∈ _, Element.callee? leaf ≠ some 0) leaf hleaf

end

/-- `e` is `e` U `t`, or ID. -/
def chained : Grammar := suffixed [.token 1, .rule 2]

theorem leaves_chained : ∀ leaf ∈ Element.leavesAll [.token 1, .rule 2], leaf ∈ [Element.token 1, .rule 2] :=
  fun _ h => h

/-- The network of `chained`, with some table of next tokens. -/
def chainedNetwork (nextTokens : Array TokenSet) : Network where
  states := #[⟨.ruleStart, 0, [⟨6, .epsilon⟩], none, false⟩, ⟨.ruleStop, 0, [], none, false⟩,
    ⟨.ruleStart, 1, [⟨10, .epsilon⟩], none, false⟩, ⟨.ruleStop, 1, [], none, false⟩,
    ⟨.ruleStart, 2, [⟨22, .epsilon⟩], none, false⟩, ⟨.ruleStop, 2, [], none, false⟩,
    ⟨.basic, 0, [⟨2, .rule 1 7 0⟩], none, false⟩, ⟨.basic, 0, [⟨8, .epsilon⟩], none, false⟩,
    ⟨.basic, 0, [⟨9, .atom (-1)⟩], none, false⟩, ⟨.basic, 0, [⟨1, .epsilon⟩], none, false⟩,
    ⟨.basic, 1, [⟨11, .atom 3⟩], none, false⟩, ⟨.basic, 1, [⟨17, .epsilon⟩], none, false⟩,
    ⟨.basic, 1, [⟨13, .precedence 2⟩], none, false⟩, ⟨.basic, 1, [⟨14, .atom 1⟩], none, false⟩,
    ⟨.basic, 1, [⟨15, .epsilon⟩], none, false⟩, ⟨.basic, 1, [⟨4, .rule 2 16 0⟩], none, false⟩,
    ⟨.basic, 1, [⟨19, .epsilon⟩], none, false⟩,
    ⟨.starLoopEntry, 1, [⟨18, .epsilon⟩, ⟨21, .epsilon⟩], some 0, true⟩,
    ⟨.starBlockStart, 1, [⟨12, .epsilon⟩], none, false⟩, ⟨.blockEnd, 1, [⟨20, .epsilon⟩], none, false⟩,
    ⟨.starLoopBack, 1, [⟨17, .epsilon⟩], none, false⟩, ⟨.loopEnd, 1, [⟨3, .epsilon⟩], none, false⟩,
    ⟨.basic, 2, [⟨23, .atom 2⟩], none, false⟩, ⟨.basic, 2, [⟨24, .epsilon⟩], none, false⟩,
    ⟨.basic, 2, [⟨2, .rule 1 25 0⟩], none, false⟩, ⟨.basic, 2, [⟨5, .epsilon⟩], none, false⟩]
  rules := #[⟨"s", 0, 1, false⟩, ⟨"e", 2, 3, true⟩, ⟨"t", 4, 5, false⟩]
  decisions := #[17]
  maxType := 3
  nextTokens
  ruleFollow := #[[], [7, 25], [16]]
  returnPrecedence := #[none, none, none, none, none, none, none, some 0, none, none, none, none, none,
    none, none, none, some 0, none, none, none, none, none, none, none, none, some 0]
  edgeCount := 24

def chainedSetting (nextTokens : Array TokenSet) : Setting :=
  { grammar := ⟨chainedNetwork nextTokens, chained.names⟩ }

def chainedDraft : Draft := chained.draft.toOption.getD {}

theorem check_chainedDraft : chainedDraft.check = .ok () := by
  have hnullable : chainedDraft.nullableRules = Array.replicate 3 false := by
    refine Draft.nullableRules_of_stop (by cbv) fun r hr => ?_
    obtain rfl | rfl | rfl : r = 0 ∨ r = 1 ∨ r = 2 := by omega
    all_goals cbv
  have hcycle : chainedDraft.leftRecursion? = none := by
    unfold Draft.leftRecursion? Draft.leftCalls
    rw [hnullable]
    cbv
  unfold Draft.check
  rw [hcycle]
  cbv

theorem compile_chained : ∃ nextTokens, chained.compile = .ok (chainedSetting nextTokens).grammar := by
  have hdraft : chained.draft = .ok chainedDraft := by cbv
  have hskeleton : chainedDraft.skeleton = chainedNetwork #[] := by cbv
  have hcompile := Grammar.compile_of_check hdraft check_chainedDraft
  rw [hskeleton] at hcompile
  exact ⟨_, hcompile⟩

/-- The one return into `e` from a rule without operators is at the end of a round. -/
theorem roundsApart_chained (nextTokens : Array TokenSet) : (chainedNetwork nextTokens).RoundsApart := by
  intro loop round exit hloop hedges c b hreturns hc hb a hacts _ _
  have hmem : b ∈ (chainedNetwork nextTokens).followStates c := hreturns.mem
  have hmarked : loop = 17 := by
    have hlt : loop < 26 := by
      by_contra hle
      rw [Network.state, Array.getD,
        dif_neg (show ¬loop < (chainedNetwork nextTokens).states.size from hle)] at hloop
      cases hloop
    exact (by decide : ∀ a < 26, ((chainedNetwork #[]).state a).precedenceDecision = true → a = 17)
      loop hlt hloop
  subst hmarked
  have hback : b = 16 := by
    rcases c with _ | _ | _ | c
    · cases hmem
    · cases hc
    · exact List.mem_singleton.1 hmem
    · cases hmem
  subst hback
  have hend : (chainedNetwork nextTokens).Quiet 16 19 := .free (t := ⟨19, .epsilon⟩) .refl (.head _) rfl
  have hagain : (chainedNetwork nextTokens).Quiet 16 20 := .free (t := ⟨20, .epsilon⟩) hend (.head _) rfl
  exact .free (t := ⟨17, .epsilon⟩) hagain (.head _) rfl

/-- From the loop of `e`, called by `s`, a round takes U B ID before the end of input. -/
theorem viable_chained (nextTokens : Array TokenSet) :
    (chainedNetwork nextTokens).Viable ⟨17, 0, [⟨7, 0⟩]⟩ [1, 2, 3, -1] 1 := by
  let n := chainedNetwork nextTokens
  have hfree := @Network.reads_free n
  have htake := @Network.reads_atom n
  have hleave : ∀ {f : Frame} {outer : List Frame}, n.Reads ⟨17, 0, f :: outer⟩ [] (.back f outer) :=
    (hfree ⟨21, .epsilon⟩ (.tail _ (.head _)) rfl).trans <| (hfree ⟨3, .epsilon⟩ (.head _) rfl).trans <|
    .single (.back rfl rfl)
  have hcall : n.Reads ⟨18, 0, [⟨7, 0⟩]⟩ [1] ⟨4, 0, [⟨16, 0⟩, ⟨7, 0⟩]⟩ :=
    (hfree ⟨12, .epsilon⟩ (.head _) rfl).trans <| (hfree ⟨13, .precedence 2⟩ (.head _) rfl).trans <|
    (htake ⟨14, .atom 1⟩ 1 (.head _) rfl).trans <| (hfree ⟨15, .epsilon⟩ (.head _) rfl).trans <|
    hfree ⟨4, .rule 2 16 0⟩ (.head _) rfl
  have hoperand : n.Reads ⟨4, 0, [⟨16, 0⟩, ⟨7, 0⟩]⟩ [2, 3] ⟨17, 0, [⟨25, 0⟩, ⟨16, 0⟩, ⟨7, 0⟩]⟩ :=
    (hfree ⟨22, .epsilon⟩ (.head _) rfl).trans <| (htake ⟨23, .atom 2⟩ 2 (.head _) rfl).trans <|
    (hfree ⟨24, .epsilon⟩ (.head _) rfl).trans <| (hfree ⟨2, .rule 1 25 0⟩ (.head _) rfl).trans <|
    (hfree ⟨10, .epsilon⟩ (.head _) rfl).trans <| (htake ⟨11, .atom 3⟩ 3 (.head _) rfl).trans <|
    hfree ⟨17, .epsilon⟩ (.head _) rfl
  have hround : n.Reads ⟨25, 0, [⟨16, 0⟩, ⟨7, 0⟩]⟩ [] ⟨17, 0, [⟨7, 0⟩]⟩ :=
    (hfree ⟨5, .epsilon⟩ (.head _) rfl).trans <| (Network.Reads.single (.back rfl rfl)).trans <|
    (hfree ⟨19, .epsilon⟩ (.head _) rfl).trans <| (hfree ⟨20, .epsilon⟩ (.head _) rfl).trans <|
    hfree ⟨17, .epsilon⟩ (.head _) rfl
  have hend : n.Reads ⟨7, 0, []⟩ [-1] ⟨1, 0, []⟩ :=
    (hfree ⟨8, .epsilon⟩ (.head _) rfl).trans <| (htake ⟨9, .atom (-1)⟩ (-1) (.head _) rfl).trans <|
    hfree ⟨1, .epsilon⟩ (.head _) rfl
  refine ⟨⟨1, 0, []⟩, ⟨⟨18, 0, [⟨7, 0⟩]⟩, ⟨0, ⟨18, .epsilon⟩, rfl, rfl, rfl⟩, ?_⟩, rfl, rfl⟩
  exact hcall.trans (hoperand.trans (hleave.trans (hround.trans (hleave.trans hend))))

/-- A parser in front of ID U B ID. -/
def beforeChain (nextTokens : Array TokenSet) : Interpreter :=
  (beforeTokens (chainedSetting nextTokens)
    #[{ kind := 3 }, { kind := 1 }, { kind := 2 }, { kind := 3 }]).under .bail

/-- A parse of ID U B ID with `chained` decides for a round after the first ID. -/
theorem decides_chained : ∃ nextTokens, chained.compile = .ok (chainedSetting nextTokens).grammar ∧
    let env := chainedSetting nextTokens
    let i := Interpreter.later env 0 0 5 ((beforeChain nextTokens).enter env 0 0).2
    i.recognizer.state = some 17 ∧ (i.recognizer.predict env 0).1 = .ok 1 := by
  obtain ⟨nextTokens, hcompile⟩ := compile_chained
  refine ⟨nextTokens, hcompile, by cbv, ?_⟩
  generalize hi : Interpreter.later (chainedSetting nextTokens) 0 0 5
    ((beforeChain nextTokens).enter (chainedSetting nextTokens) 0 0).2 = i
  have hstate : i.recognizer.state = some 17 := by subst hi; cbv
  have hsync : Parser.sync (chainedSetting nextTokens) i.parser = (.ok (), i.parser) := by subst hi; cbv
  have henter : (beforeChain nextTokens).enter (chainedSetting nextTokens) 0 0 =
      (.ok 0, ((beforeChain nextTokens).enter (chainedSetting nextTokens) 0 0).2) := by cbv
  have hfloor : (i.parser.recognizer.simulation (chainedSetting nextTokens) 0).floor = 0 := by subst hi; cbv
  have htypes : i.parser.recognizer.input.types = [1, 2, 3, -1] := by subst hi; cbv
  have houter : (i.recognizer.simulation (chainedSetting nextTokens) 0).Outer i.recognizer.invocation
      [⟨7, 0⟩] := by
    refine @Simulation.Outer.caller _ _ ⟨7, 0, [], .invocation 0⟩ [] ?_ (.root ?_)
    · subst hi
      cbv
    · subst hi
      cbv
  have hleast := @Interpreter.decides_least (chainedSetting nextTokens) chained 0 [.rule 1] 0
    (beforeChain nextTokens) _ i i.parser 17 0 [⟨7, 0⟩] _ _ _ hcompile
    (closedBy_suffixed leaves_chained) (predicateFree_suffixed leaves_chained) rfl
    (roundsApart_chained nextTokens) ⟨rfl, rfl, rfl, rfl, rfl, rfl, rfl⟩ rfl rfl
    .fresh henter (by subst hi; exact Interpreter.follows_later 5) hstate rfl Nat.one_lt_two hsync houter
    (by rw [hfloor, htypes]; exact ⟨1, viable_chained nextTokens⟩)
  rw [hfloor, htypes] at hleast
  refine hleast.trans (congrArg _ (IsLeast.csInf_eq ⟨viable_chained nextTokens, ?_⟩))
  rintro alt ⟨q, ⟨p, ⟨k, t, -, rfl, -⟩, -⟩, -⟩
  exact Nat.le_add_left 1 k

/-- `e` is `e`, perhaps `t`, and U, or ID. -/
def contested : Grammar := suffixed [.opt (.rule 2), .token 1]

theorem leaves_contested :
    ∀ leaf ∈ Element.leavesAll [.opt (.rule 2), .token 1], leaf ∈ [Element.token 1, .rule 2] :=
  fun _ h => List.mem_pair.2 (List.mem_pair.1 h).symm

/-- The network of `contested`, with some table of next tokens. -/
def contestedNetwork (nextTokens : Array TokenSet) : Network where
  states := #[⟨.ruleStart, 0, [⟨6, .epsilon⟩], none, false⟩, ⟨.ruleStop, 0, [], none, false⟩,
    ⟨.ruleStart, 1, [⟨10, .epsilon⟩], none, false⟩, ⟨.ruleStop, 1, [], none, false⟩,
    ⟨.ruleStart, 2, [⟨24, .epsilon⟩], none, false⟩, ⟨.ruleStop, 2, [], none, false⟩,
    ⟨.basic, 0, [⟨2, .rule 1 7 0⟩], none, false⟩, ⟨.basic, 0, [⟨8, .epsilon⟩], none, false⟩,
    ⟨.basic, 0, [⟨9, .atom (-1)⟩], none, false⟩, ⟨.basic, 0, [⟨1, .epsilon⟩], none, false⟩,
    ⟨.basic, 1, [⟨11, .atom 3⟩], none, false⟩, ⟨.basic, 1, [⟨19, .epsilon⟩], none, false⟩,
    ⟨.basic, 1, [⟨15, .precedence 2⟩], none, false⟩, ⟨.basic, 1, [⟨4, .rule 2 14 0⟩], none, false⟩,
    ⟨.basic, 1, [⟨16, .epsilon⟩], none, false⟩,
    ⟨.blockStart, 1, [⟨13, .epsilon⟩, ⟨16, .epsilon⟩], some 0, false⟩,
    ⟨.blockEnd, 1, [⟨17, .epsilon⟩], none, false⟩, ⟨.basic, 1, [⟨18, .atom 1⟩], none, false⟩,
    ⟨.basic, 1, [⟨21, .epsilon⟩], none, false⟩,
    ⟨.starLoopEntry, 1, [⟨20, .epsilon⟩, ⟨23, .epsilon⟩], some 1, true⟩,
    ⟨.starBlockStart, 1, [⟨12, .epsilon⟩], none, false⟩, ⟨.blockEnd, 1, [⟨22, .epsilon⟩], none, false⟩,
    ⟨.starLoopBack, 1, [⟨19, .epsilon⟩], none, false⟩, ⟨.loopEnd, 1, [⟨3, .epsilon⟩], none, false⟩,
    ⟨.basic, 2, [⟨25, .atom 2⟩], none, false⟩, ⟨.basic, 2, [⟨26, .epsilon⟩], none, false⟩,
    ⟨.basic, 2, [⟨2, .rule 1 27 0⟩], none, false⟩, ⟨.basic, 2, [⟨5, .epsilon⟩], none, false⟩]
  rules := #[⟨"s", 0, 1, false⟩, ⟨"e", 2, 3, true⟩, ⟨"t", 4, 5, false⟩]
  decisions := #[15, 19]
  maxType := 3
  nextTokens
  ruleFollow := #[[], [7, 27], [14]]
  returnPrecedence := #[none, none, none, none, none, none, none, some 0, none, none, none, none, none,
    none, some 0, none, none, none, none, none, none, none, none, none, none, none, none, some 0]
  edgeCount := 27

def contestedSetting (nextTokens : Array TokenSet) : Setting :=
  { grammar := ⟨contestedNetwork nextTokens, contested.names⟩ }

def contestedDraft : Draft := contested.draft.toOption.getD {}

theorem check_contestedDraft : contestedDraft.check = .ok () := by
  have hnullable : contestedDraft.nullableRules = Array.replicate 3 false := by
    refine Draft.nullableRules_of_stop (by cbv) fun r hr => ?_
    obtain rfl | rfl | rfl : r = 0 ∨ r = 1 ∨ r = 2 := by omega
    all_goals cbv
  have hcycle : contestedDraft.leftRecursion? = none := by
    unfold Draft.leftRecursion? Draft.leftCalls
    rw [hnullable]
    cbv
  unfold Draft.check
  rw [hcycle]
  cbv

theorem compile_contested : ∃ nextTokens,
    contested.compile = .ok (contestedSetting nextTokens).grammar := by
  have hdraft : contested.draft = .ok contestedDraft := by cbv
  have hskeleton : contestedDraft.skeleton = contestedNetwork #[] := by cbv
  have hcompile := Grammar.compile_of_check hdraft check_contestedDraft
  rw [hskeleton] at hcompile
  exact ⟨_, hcompile⟩

/-- A parser in front of ID B ID U. -/
def beforeContest (nextTokens : Array TokenSet) : Interpreter :=
  (beforeTokens (contestedSetting nextTokens)
    #[{ kind := 3 }, { kind := 2 }, { kind := 3 }, { kind := 1 }]).under .bail

section

variable {nextTokens : Array TokenSet} {sim : Simulation}
  (hnet : sim.network = contestedNetwork nextTokens) (hfloor : sim.floor = 0)

include hnet hfloor

/-- Leaving the loop for the caller `t` and its caller `e` is dropped. -/
theorem startSet_contested : sim.startSet false 1 = .ofList
    [⟨{ state := 8, precedence := 0, placement := .outermostFollow }, 2⟩,
      ⟨{ state := 17, precedence := 0 }, 1⟩,
      ⟨{ state := 24, precedence := 0, stack := [⟨14, 0⟩] }, 1⟩] false := by
  obtain ⟨n, _, _, _, _⟩ := sim
  cases hnet
  cases hfloor
  rw [Simulation.startSet_eq_startClosure, if_pos (by cbv), Simulation.startClosure,
    Simulation.closure_eq_closureRun (k := 40) (by decide) (by cbv)]
  cbv

theorem startSet_option_contested : sim.startSet false 0 = .ofList
    [⟨{ state := 17, precedence := 0 }, 2⟩,
      ⟨{ state := 24, precedence := 0, stack := [⟨14, 0⟩] }, 1⟩] false := by
  obtain ⟨n, _, _, _, _⟩ := sim
  cases hnet
  cases hfloor
  rw [Simulation.startSet_eq_startClosure, if_neg (by cbv; decide), Simulation.startClosure,
    Simulation.closure_eq_closureRun (k := 40) (by decide) (by cbv)]
  cbv

theorem reach_contested : sim.reach false (sim.startSet false 1) 2 = .ofList
    [⟨{ state := 10, precedence := 0, stack := [⟨27, 0⟩, ⟨14, 0⟩] }, 1⟩] false := by
  rw [startSet_contested hnet hfloor]
  obtain ⟨n, _, _, _, _⟩ := sim
  cases hnet
  cases hfloor
  rw [Simulation.reach, Simulation.closure_eq_closureRun (k := 40) (by decide) (by cbv)]
  cbv

theorem reach_option_contested : sim.reach false (sim.startSet false 0) 2 = .ofList
    [⟨{ state := 10, precedence := 0, stack := [⟨27, 0⟩, ⟨14, 0⟩] }, 1⟩] false := by
  rw [startSet_option_contested hnet hfloor]
  obtain ⟨n, _, _, _, _⟩ := sim
  cases hnet
  cases hfloor
  rw [Simulation.reach, Simulation.closure_eq_closureRun (k := 40) (by decide) (by cbv)]
  cbv

theorem reach_round_contested : sim.reach false (sim.startSet false 1) 1 = .ofList
    [⟨{ state := 8, precedence := 0, placement := .outermostFollow }, 1⟩,
      ⟨{ state := 17, precedence := 0 }, 1⟩, ⟨{ state := 17, precedence := 0, placement := .follow }, 1⟩,
      ⟨{ state := 24, precedence := 0, stack := [⟨14, 0⟩] }, 1⟩] false := by
  rw [startSet_contested hnet hfloor]
  obtain ⟨n, _, _, _, _⟩ := sim
  cases hnet
  cases hfloor
  rw [Simulation.reach, Simulation.closure_eq_closureRun (k := 40) (by decide) (by cbv)]
  cbv

/-- B begins a round, -/
theorem predict_contested {mode : PredictionMode} {input : TokenCursor} (hk : input.kind = 2) :
    (sim.predict 1 mode {} input).1 = .alternative 1 := by
  refine @Simulation.predict_of_unique 1 sim mode input 1 ?_ ?_ ?_
  · rw [startSet_contested hnet hfloor]
    cbv
  · rw [hk, reach_contested hnet hfloor]
    cbv
  · rw [hk, reach_contested hnet hfloor, startSet_contested hnet hfloor]
    cbv
    decide

/-- and in the round a `t`. -/
theorem predict_option_contested {mode : PredictionMode} {input : TokenCursor} (hk : input.kind = 2) :
    (sim.predict 0 mode {} input).1 = .alternative 1 := by
  refine @Simulation.predict_of_unique 0 sim mode input 1 ?_ ?_ ?_
  · rw [startSet_option_contested hnet hfloor]
    cbv
  · rw [hk, reach_option_contested hnet hfloor]
    cbv
  · rw [hk, reach_option_contested hnet hfloor, startSet_option_contested hnet hfloor]
    cbv
    decide

omit hnet hfloor in
theorem repeatable_contested : (contestedNetwork nextTokens).Repeatable 1 (· = 0) := by
  refine Network.PredicateFree.repeatable (by decide : (contestedNetwork #[]).PredicateFree) ?_
  rintro floor rfl
  rw [Network.firstSet, startSet_contested rfl rfl]
  cbv

/-- Lookahead takes U for another round, whatever was asked before and whoever the callers are. -/
theorem predict_round_contested {mode : PredictionMode} {a : Automaton} {input : TokenCursor}
    (ha : a.Recorded (contestedNetwork nextTokens) 1 (· = 0)) (hk : input.kind = 1) :
    (sim.predict 1 mode a input).1 = .alternative 1 := by
  have hverdict : sim.verdict (.ofList [⟨{ state := 8, precedence := 0, placement := .outermostFollow }, 1⟩,
      ⟨{ state := 17, precedence := 0 }, 1⟩, ⟨{ state := 17, precedence := 0, placement := .follow }, 1⟩,
      ⟨{ state := 24, precedence := 0, stack := [⟨14, 0⟩] }, 1⟩] false) = (some 1, false) := by
    unfold Simulation.verdict
    rw [hnet]
    cbv
  rw [@Simulation.predict_eq_unrecorded 1 (· = 0) a sim (hnet ▸ repeatable_contested) hfloor mode (hnet ▸ ha)
    input, Simulation.unrecorded, hk, reach_round_contested hnet hfloor, hverdict]
  rw [if_neg (by cbv; decide), if_neg (by simp)]

end

section

variable (nextTokens : Array TokenSet) (c c' : PredictionCache)

/-- After the first ID of ID B ID U, -/
def atLoop : Interpreter :=
  Interpreter.later (contestedSetting nextTokens) 0 0 5
    ((beforeContest nextTokens).enter (contestedSetting nextTokens) 0 0).2

/-- in the round that begins there, -/
def inRound : Interpreter :=
  Interpreter.later (contestedSetting nextTokens) 0 0 2 (((atLoop nextTokens).withCache c).followEdge
    (contestedSetting nextTokens) ((contestedNetwork nextTokens).state 19) ⟨20, .epsilon⟩).2

/-- and after the second ID. -/
def atInnerLoop : Interpreter :=
  Interpreter.later (contestedSetting nextTokens) 0 0 8 (((inRound nextTokens c).withCache c').followEdge
    (contestedSetting nextTokens) ((contestedNetwork nextTokens).state 15) ⟨13, .epsilon⟩).2

theorem followEdge_atLoop : ((atLoop nextTokens).withCache c).followEdge (contestedSetting nextTokens)
    ((contestedNetwork nextTokens).state 19) ⟨20, .epsilon⟩ =
      (.ok (), (((atLoop nextTokens).withCache c).followEdge (contestedSetting nextTokens)
        ((contestedNetwork nextTokens).state 19) ⟨20, .epsilon⟩).2) := Prod.ext (by cbv) rfl

theorem followEdge_inRound : ((inRound nextTokens c).withCache c').followEdge (contestedSetting nextTokens)
    ((contestedNetwork nextTokens).state 15) ⟨13, .epsilon⟩ =
      (.ok (), (((inRound nextTokens c).withCache c').followEdge (contestedSetting nextTokens)
        ((contestedNetwork nextTokens).state 15) ⟨13, .epsilon⟩).2) := Prod.ext (by cbv) rfl

/-- Lookahead for the first round leaves what it has learned in the cache. -/
theorem follows_inRound : ∃ c a, c.get? 0 = some {} ∧ c.get? 1 = some a ∧
    Automaton.History (contestedNetwork nextTokens) 1 (· = 0) a ∧
    ReflTransGen (Interpreter.Follows (contestedSetting nextTokens) 0 0)
      ((beforeContest nextTokens).enter (contestedSetting nextTokens) 0 0).2 (inRound nextTokens c) := by
  have hfloor : ((atLoop nextTokens).recognizer.simulation (contestedSetting nextTokens) 1).floor = 0 := by
    cbv
  have hstopped : (atLoop nextTokens).recognizer.input.Stopped := by
    unfold TokenCursor.Stopped
    cbv
  have hround := fun j hj => @Interpreter.follows_of_prediction (contestedSetting nextTokens) 0 0
    (atLoop nextTokens) j 19 1 1 {} ⟨20, .epsilon⟩ (by cbv) (by cbv) rfl rfl Nat.one_lt_two rfl hstopped
    (by cbv) (predict_contested rfl hfloor (by cbv)) hj
  have hlearned := @Automaton.History.predict (contestedNetwork nextTokens) 1 (· = 0) {} .empty
    ((atLoop nextTokens).recognizer.simulation (contestedSetting nextTokens) 1) rfl hfloor .ll
    (atLoop nextTokens).recognizer.input.mark.2
  refine ⟨_, _, ?_, ?_, hlearned, (Interpreter.follows_later 5).trans
    (.head (hround _ (followEdge_atLoop nextTokens _)) (Interpreter.follows_later 2))⟩
  · rw [PredictionCache.get?, PredictionCache.set, Array.getElem?_setIfInBounds_ne (by decide)]
    cbv
  · rw [PredictionCache.get?, PredictionCache.set, Array.getElem?_setIfInBounds_self_of_lt (by cbv)]
    rfl

theorem follows_atInnerLoop {c : PredictionCache} {a : Automaton} (hfresh : c.get? 0 = some {})
    (ha : c.get? 1 = some a) : ∃ c', c'.get? 1 = some a ∧
      ReflTransGen (Interpreter.Follows (contestedSetting nextTokens) 0 0) (inRound nextTokens c)
        (atInnerLoop nextTokens c c') := by
  have hfloor : ((inRound nextTokens c).recognizer.simulation (contestedSetting nextTokens) 0).floor = 0 := by
    cbv
  have hstopped : (inRound nextTokens c).recognizer.input.Stopped := by
    unfold TokenCursor.Stopped
    cbv
  have hcache : (inRound nextTokens c).recognizer.cache = c := by cbv
  have hoption := fun j hj => @Interpreter.follows_of_prediction (contestedSetting nextTokens) 0 0
    (inRound nextTokens c) j 15 0 1 {} ⟨13, .epsilon⟩ (by cbv) (by cbv) rfl rfl Nat.one_lt_two rfl hstopped
    (by rw [hcache, hfresh]) (predict_option_contested rfl hfloor (by cbv)) hj
  refine ⟨_, ?_, .head (hoption _ (followEdge_inRound nextTokens c _)) (Interpreter.follows_later 8)⟩
  rw [hcache, PredictionCache.get?, PredictionCache.set, Array.getElem?_setIfInBounds_ne (by decide)]
  exact ha

/-- The invocations that are live there: of `e`, called by `t`, called in the round of `e` that `s` called. -/
theorem outer_atInnerLoop :
    ((atInnerLoop nextTokens c c').recognizer.simulation (contestedSetting nextTokens) 1).Outer
      (atInnerLoop nextTokens c c').recognizer.invocation [⟨27, 0⟩, ⟨14, 0⟩, ⟨7, 0⟩] := by
  refine @Simulation.Outer.caller _ _ ⟨27, 0, [], .invocation 3⟩ [⟨14, 0⟩, ⟨7, 0⟩] (by cbv) ?_
  refine @Simulation.Outer.caller _ _ ⟨14, 0, [], .invocation 2⟩ [⟨7, 0⟩] (by cbv) ?_
  exact @Simulation.Outer.caller _ _ ⟨7, 0, [], .invocation 0⟩ [] (by cbv) (.root (by cbv))

/-- What is left is taken if the inner loop is left: the round of the outer one takes U. -/
theorem viable_contested :
    (contestedNetwork nextTokens).Viable ⟨19, 0, [⟨27, 0⟩, ⟨14, 0⟩, ⟨7, 0⟩]⟩ [1, -1] 2 := by
  let n := contestedNetwork nextTokens
  have hfree := @Network.reads_free n
  have htake := @Network.reads_atom n
  have hleave : ∀ {f : Frame} {outer : List Frame}, n.Reads ⟨23, 0, f :: outer⟩ [] (.back f outer) :=
    (hfree ⟨3, .epsilon⟩ (.head _) rfl).trans (.single (.back rfl rfl))
  have houtward : n.Reads ⟨27, 0, [⟨14, 0⟩, ⟨7, 0⟩]⟩ [] ⟨14, 0, [⟨7, 0⟩]⟩ :=
    (hfree ⟨5, .epsilon⟩ (.head _) rfl).trans (.single (@Network.Step.back _ _ ⟨14, 0⟩ [⟨7, 0⟩] rfl rfl))
  have hround : n.Reads ⟨14, 0, [⟨7, 0⟩]⟩ [1] ⟨23, 0, [⟨7, 0⟩]⟩ :=
    (hfree ⟨16, .epsilon⟩ (.head _) rfl).trans <| (hfree ⟨17, .epsilon⟩ (.head _) rfl).trans <|
    (htake ⟨18, .atom 1⟩ 1 (.head _) rfl).trans <| (hfree ⟨21, .epsilon⟩ (.head _) rfl).trans <|
    (hfree ⟨22, .epsilon⟩ (.head _) rfl).trans <| (hfree ⟨19, .epsilon⟩ (.head _) rfl).trans <|
    hfree ⟨23, .epsilon⟩ (.tail _ (.head _)) rfl
  have hend : n.Reads ⟨7, 0, []⟩ [-1] ⟨1, 0, []⟩ :=
    (hfree ⟨8, .epsilon⟩ (.head _) rfl).trans <| (htake ⟨9, .atom (-1)⟩ (-1) (.head _) rfl).trans <|
    hfree ⟨1, .epsilon⟩ (.head _) rfl
  refine ⟨⟨1, 0, []⟩, ⟨⟨23, 0, [⟨27, 0⟩, ⟨14, 0⟩, ⟨7, 0⟩]⟩, ⟨1, ⟨23, .epsilon⟩, rfl, rfl, rfl⟩, ?_⟩, rfl, rfl⟩
  exact hleave.trans (houtward.trans (hround.trans (hleave.trans hend)))

/-- If the inner round takes U, none is left for the outer one. -/
theorem not_viable_contested :
    ¬(contestedNetwork nextTokens).Viable ⟨19, 0, [⟨27, 0⟩, ⟨14, 0⟩, ⟨7, 0⟩]⟩ [1, -1] 1 := by
  rintro ⟨q, ⟨p, ⟨k, t, ht, hk, hf⟩, hq⟩, -⟩
  obtain rfl : k = 0 := Nat.succ.inj hk.symm
  cases ht
  cases hf
  let start : Network.Errand := ([1, -1], ⟨20, 0, [⟨27, 0⟩, ⟨14, 0⟩, ⟨7, 0⟩]⟩)
  have hclosed : ∀ e ∈ (contestedNetwork #[]).explore 16 [start], ∀ e' ∈ (contestedNetwork #[]).advance e,
      e' ∈ (contestedNetwork #[]).explore 16 [start] := by decide +kernel
  have hleft : ∀ e ∈ (contestedNetwork #[]).explore 16 [start], e.1 ≠ [] := by decide +kernel
  have hfrom : start ∈ (contestedNetwork #[]).explore 16 [start] := by decide +kernel
  exact hleft _ (@Network.Reads.mem_of_closed (contestedNetwork nextTokens) _ _ _ [] _ hq hclosed hfrom) rfl

end

/-- What comes after a `t` can begin a round: with ID B ID U a parse takes U in the inner loop, although that
must be left for the input to be taken. -/
theorem round_contested : ∃ nextTokens, let env := contestedSetting nextTokens
    contested.compile = .ok env.grammar ∧ contested.ClosedBy 0 [.rule 1] ∧ contested.PredicateFree ∧
    ∃ i j frames, (beforeContest nextTokens).enter env 0 0 = (.ok 0, i) ∧
      ReflTransGen (Interpreter.Follows env 0 0) i j ∧ j.recognizer.state = some 19 ∧
      (j.recognizer.simulation env 1).Outer j.recognizer.invocation frames ∧
      IsLeast {alt | env.network.Viable ⟨19, (j.recognizer.simulation env 1).floor, frames⟩
        j.recognizer.input.types alt} 2 ∧
      (j.recognizer.predict env 1).1 = .ok 1 := by
  obtain ⟨nextTokens, hcompile⟩ := compile_contested
  obtain ⟨c, a, hfresh, hknown, hlearned, hfirst⟩ := follows_inRound nextTokens
  obtain ⟨c', hkept, hsecond⟩ := follows_atInnerLoop nextTokens hfresh hknown
  have hfloor : ((atInnerLoop nextTokens c c').recognizer.simulation (contestedSetting nextTokens) 1).floor =
      0 := by cbv
  have htypes : (atInnerLoop nextTokens c c').recognizer.input.types = [1, -1] := by cbv
  have hstopped : (atInnerLoop nextTokens c c').recognizer.input.Stopped := by
    unfold TokenCursor.Stopped
    cbv
  have hcache : (atInnerLoop nextTokens c c').recognizer.cache = c' := by cbv
  have hpredict := @predict_round_contested nextTokens
    ((atInnerLoop nextTokens c c').recognizer.simulation (contestedSetting nextTokens) 1) rfl hfloor .ll a
    (atInnerLoop nextTokens c c').recognizer.input.mark.2 hlearned.recorded (by cbv)
  refine ⟨nextTokens, hcompile, closedBy_suffixed leaves_contested,
    predicateFree_suffixed leaves_contested, _,
    atInnerLoop nextTokens c c', _, Prod.ext (by cbv) rfl, hfirst.trans hsecond, by cbv,
    outer_atInnerLoop nextTokens c c', ?_, ?_⟩
  · rw [hfloor, htypes]
    refine ⟨viable_contested nextTokens, fun alt hviable => ?_⟩
    obtain ⟨q, ⟨p, ⟨k, t, -, rfl, -⟩, -⟩, -⟩ := id hviable
    by_contra hlt
    obtain rfl : k = 0 := by omega
    exact not_viable_contested nextTokens hviable
  · rw [Recognizer.predict_eq hstopped (by rw [hcache, hkept]) hpredict rfl]
    rfl

end AdaptiveParsing
