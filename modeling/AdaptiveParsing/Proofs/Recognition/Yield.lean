import AdaptiveParsing.Proofs.Recognition.Turns
import AdaptiveParsing.Proofs.Recognition.Woven
import AdaptiveParsing.Proofs.Token.Words
/-!
No token is lost and none is taken twice, whatever errors a parse recovers from. Every deed adds the token
that it passes to the innermost invocation, or passes none (`Parser.Deed.grows`), so the leaves of the
tree are the tokens passed, and those that recovery conjured (`Tracked`). Main statement:
`Interpreter.parse_leaves`.
-/

namespace AdaptiveParsing

open AdaptiveParsing.Parser

variable {env : Setting}

namespace Simulation

variable {sim : Simulation}

theorem along_predictInContext (start : Nat) (previous : ConfigSet) (input : TokenCursor) :
    input.Along (sim.predictInContext start previous input).2 := by
  fun_induction predictInContext sim start previous input with
  | case4 previous input _ _ _ _ ih => exact input.along_consume.trans ih
  | _ => exact .refl _

theorem along_predictFrom (d : DecisionId) (mode : PredictionMode) (start : Nat) (a : Automaton)
    (s : AutomatonState) (input : TokenCursor) :
    input.Along (sim.predictFrom d mode start a s input).2.2 := by
  fun_induction predictFrom sim d mode start a s input with
  | case2 a s input s' a' h hctx p input' hp =>
    have hin := sim.along_predictInContext start (sim.startSet true d) (input.seek start)
    rw [hp] at hin
    exact (input.along_moveTo start).trans hin
  | case5 a s input s' a' h hctx hp heof ih => exact input.along_consume.trans ih
  | _ => exact .refl _

end Simulation

/-- Lookahead leaves the cursor where it was. -/
theorem Recognizer.input_predict {r : Recognizer} (h : r.input.Stopped) (d : DecisionId) :
    (r.predict env d).2.input = r.input := by
  unfold predict
  split
  · rfl
  · rename_i a _
    dsimp only
    rw [TokenCursor.speculate_eq h]
    · dsimp only
      split <;> rfl
    · intro c
      exact (r.simulation env d).along_predictFrom d env.config.mode c.position _ _ c

/-- What lookahead changes is the cache. -/
theorem Recognizer.predict_snd {r : Recognizer} (h : r.input.Stopped) (d : DecisionId) :
    (r.predict env d).2 = { r with cache := (r.predict env d).2.cache } := by
  have hinput := @input_predict env r h d
  unfold predict at hinput ⊢
  split
  · rfl
  · rename_i a ha
    rw [ha] at hinput
    dsimp only at hinput ⊢
    split <;> simp_all

/-- What a decision comes to with this outcome of lookahead. -/
def Recognizer.outcome (env : Setting) (r : Recognizer) (d : DecisionId) : Prediction → Except Halt Nat
  | .alternative alt => .ok alt
  | .noViable start offending =>
    .error (.failure (.recognition (r.noViable env d start offending)))
  | .unsettled => .error (.unsettled d)

/-- A decision comes to what lookahead finds, and what that has learned is remembered. -/
theorem Recognizer.predict_eq {r : Recognizer} {d : DecisionId} {known learned : Automaton}
    {p : Prediction} (hstop : r.input.Stopped) (ha : r.cache.get? d = some known)
    (hp : ((r.simulation env d).predict d env.config.mode known r.input.mark.2).1 = p)
    (hl : ((r.simulation env d).predict d env.config.mode known r.input.mark.2).2.1 = learned) :
    let r' := { r with cache := r.cache.set d learned }
    r.predict env d = (r'.outcome env d p, r') := by
  unfold predict
  rw [ha]
  dsimp only
  rw [TokenCursor.speculate_eq hstop]
  · unfold outcome
    cases p <;> (dsimp only; rw [hp, hl])
  · intro c
    exact (r.simulation env d).along_predictFrom d env.config.mode c.position _ _ c

namespace Forest

variable {f f' f'' : Forest} {id : InvocationId}

theorem Grows.refl (f : Forest) (id : InvocationId) : f.Grows f id [] :=
  ⟨.refl f, rfl, fun _ => rfl, fun _ => rfl, fun _ _ => rfl, (List.append_nil _).symm⟩

theorem Grows.trans {added more : List Child}
    (h : f.Grows f' id added) (h' : f'.Grows f'' id more) : f.Grows f'' id (added ++ more) where
  toExtends := h.toExtends.trans h'.toExtends
  size_eq := h'.size_eq.trans h.size_eq
  parent other := (h'.parent other).trans (h.parent other)
  caller other := (h'.caller other).trans (h.caller other)
  other other hne := (h'.other other hne).trans (h.other other hne)
  children := by rw [h'.children, h.children, List.append_assoc]

theorem grows_addChild (hlt : id < f.size) (c : Child) : f.Grows (f.addChild id c) id [c] := by
  obtain ⟨htouch, hchildren⟩ := touches_addChild c hlt
  refine ⟨htouch.toExtends, htouch.size_eq, fun other => ?_, fun other => ?_, fun other hne => ?_,
    hchildren⟩
  · by_cases h : other = id
    · rw [h, htouch.parent]
    · rw [htouch.other other h]
  · by_cases h : other = id
    · rw [h, htouch.caller]
    · rw [htouch.other other h]
  · rw [htouch.other other hne]

/-- Notes on invocations do not change the tree. -/
theorem get_modify_note {α : Type} (π : Invocation → α) {g : Invocation → Invocation}
    (hg : ∀ i, π (g i) = π i) (f : Forest) (id other : InvocationId) :
    π ((f.modify id g).get other) = π (f.get other) := by
  rcases f.get_modify_cases id other g with h | h
  · rw [h]
  · rw [h, hg]

/-- Errors are notes. -/
theorem get_blame {α : Type} (π : Invocation → α) (hπ : ∀ i e, π { i with error := e } = π i)
    (e : RecognitionError) (ids : List InvocationId) (f : Forest) (other : InvocationId) :
    π ((ids.foldl (fun f id => f.modify id fun i => { i with error := i.error <|> some e }) f).get
      other) = π (f.get other) := by
  induction ids generalizing f with
  | nil => rfl
  | cons id ids ih => exact (ih _).trans (get_modify_note π (fun i => hπ i _) f id other)

theorem size_blame (e : RecognitionError) (ids : List InvocationId) (f : Forest) :
    (ids.foldl (fun f id => f.modify id fun i => { i with error := i.error <|> some e }) f).size =
      f.size := by
  induction ids generalizing f with
  | nil => rfl
  | cons id ids ih => exact (ih _).trans (f.size_modify id _)

end Forest

theorem Recognizer.grows_recordError (r : Recognizer) (e : RecognitionError) (everywhere : Bool)
    (id : InvocationId) : r.forest.Grows (r.recordError e everywhere).forest id [] := by
  unfold recordError
  split
  · exact .refl _ _
  · dsimp only
    generalize (if everywhere = true then _ else _ : List InvocationId) = ids
    have hπ := fun {α : Type} (π : Invocation → α) hπ other =>
      Forest.get_blame π hπ e ids r.forest other
    have hsize := Forest.size_blame e ids r.forest
    refine ⟨⟨Nat.le_of_eq hsize.symm, fun other _ => hπ _ (fun _ _ => rfl) other,
      fun other _ => hπ _ (fun _ _ => rfl) other⟩, hsize, hπ _ fun _ _ => rfl, hπ _ fun _ _ => rfl,
      fun other _ => hπ _ (fun _ _ => rfl) other, ?_⟩
    rw [hπ Invocation.children (fun _ _ => rfl), List.append_nil]

/-- A token of the input, not at its end. -/
def Token.isText (t : Token) : Bool := !t.isConjured && !t.isEof

/-- Tokens are taken into the innermost invocation as they are passed. -/
inductive Passed (s : TokenCursor) : TokenCursor → List Token → Prop
  | none {added : List Token} (h : ∀ t ∈ added, t.isConjured = true) : Passed s s added
  | one : Passed s s.consume [s.current]

theorem Passed.stopped {s s' : TokenCursor} {w : List Token} (h : Passed s s' w)
    (hs : s.Stopped) : s'.Stopped := by
  cases h with
  | none _ => exact hs
  | one => exact hs.consume

theorem Passed.along {s s' : TokenCursor} {w : List Token} (h : Passed s s' w) : s.Along s' := by
  cases h with
  | none _ => exact .refl s
  | one => exact s.along_consume

/-- A deed adds leaves to the innermost invocation, and passes the tokens that it adds. -/
theorem Parser.Deed.grows {p p' : Parser} {id : InvocationId} (h : Deed env p p')
    (hinv : p.recognizer.invocation = some id) (hlt : id < p.recognizer.forest.size)
    (hstop : p.recognizer.input.Stopped) :
    p'.recognizer.invocation = p.recognizer.invocation ∧
      ∃ added passed, p.recognizer.forest.Grows p'.recognizer.forest id added ∧
        (∀ child, .rule child ∉ added) ∧
        Passed p.recognizer.input p'.recognizer.input passed ∧
        (env.config.buildTrees = true → passed = Forest.leafTokens added) := by
  have hnothing : ∀ s : TokenCursor, Passed s s [] := fun s => .none (by simp)
  cases h with
  | note _ h _ =>
    rw [h]
    exact ⟨rfl, [], [], .refl _ _, by simp, hnothing _, fun _ => rfl⟩
  | predict d =>
    have hs := p.recognizer.sameTree_predict env d
    refine ⟨hs.invocation, [], [], ?_, by simp, ?_, fun _ => rfl⟩
    · rw [show (Parser.predict env d p).2.recognizer.forest = p.recognizer.forest from hs.forest]
      exact .refl _ _
    · rw [show (Parser.predict env d p).2.recognizer.input = p.recognizer.input from
        Recognizer.input_predict hstop d]
      exact hnothing _
  | consume =>
    have hadd : ∀ c, (({ p.recognizer with
        input := p.recognizer.input.consume } : Recognizer).addChild c) =
        { p.recognizer with
          input := p.recognizer.input.consume
          forest := p.recognizer.forest.addChild id c } := by
      intro c
      unfold Recognizer.addChild
      simp only [hinv]
    show (Recognizer.consume env p.recognizer p.strategy.recovering).invocation = _ ∧
      ∃ added passed, p.recognizer.forest.Grows
        (Recognizer.consume env p.recognizer p.strategy.recovering).forest id added ∧ _ ∧
        Passed _ (Recognizer.consume env p.recognizer p.strategy.recovering).input passed ∧ _
    unfold Recognizer.consume
    dsimp only
    split
    · rw [hadd]
      exact ⟨rfl, [_], [_], Forest.grows_addChild hlt _, by simp, .one, fun _ => rfl⟩
    · split
      · rw [hadd]
        exact ⟨rfl, [_], [_], Forest.grows_addChild hlt _, by simp, .one, fun _ => rfl⟩
      · rename_i hno
        exact ⟨rfl, [], [_], .refl _ _, by simp, .one, fun h => absurd h hno⟩
  | @conjure t ht =>
    have hc : (p.recognizer.addChild (.error t)) =
        { p.recognizer with forest := p.recognizer.forest.addChild id (.error t) } := by
      unfold Recognizer.addChild
      simp only [hinv]
    show (p.recognizer.addChild (.error t)).invocation = _ ∧ ∃ added passed,
      p.recognizer.forest.Grows (p.recognizer.addChild (.error t)).forest id added ∧ _ ∧
        Passed _ (p.recognizer.addChild (.error t)).input passed ∧ _
    rw [hc]
    exact ⟨rfl, [.error t], [t], Forest.grows_addChild hlt _, by simp, .none (by simpa), fun _ => rfl⟩
  | blame e everywhere =>
    refine ⟨?_, [], [], p.recognizer.grows_recordError e everywhere id, by simp, ?_, fun _ => rfl⟩
    · show (p.recognizer.recordError e everywhere).invocation = _
      unfold Recognizer.recordError
      split <;> rfl
    · rw [show (p.modifyRecognizer fun r => r.recordError e everywhere).recognizer.input =
        p.recognizer.input from (p.recognizer.onlyTree_recordError e everywhere).input]
      exact hnothing _
  | report e =>
    have hr : ∃ errors heard, (p.reportOnce env e).recognizer =
        { p.recognizer with errors, heard } := by
      unfold reportOnce Recognizer.notify
      split
      · exact ⟨_, _, rfl⟩
      · dsimp only
        split <;> exact ⟨_, _, rfl⟩
    obtain ⟨errors, heard, hr⟩ := hr
    rw [hr]
    exact ⟨rfl, [], [], .refl _ _, by simp, hnothing _, fun _ => rfl⟩

/-- The leaves are the tokens between two places of a cursor, and conjured ones. -/
structure Consumed (first s : TokenCursor) (w : List Token) : Prop where
  along : first.Along s
  stopped : s.Stopped
  le : first.position ≤ s.position
  word : w.filter Token.isText = first.between first.position s.position

theorem Consumed.refl {s : TokenCursor} (h : s.Stopped) : Consumed s s [] :=
  ⟨.refl s, h, Nat.le_refl _, (s.between_self _).symm⟩

theorem Consumed.passed {first s s' : TokenCursor} {v w : List Token} (h : Consumed first s w)
    (hindex : ∀ t ∈ first.tokens, t.isConjured = false) (hp : Passed s s' v) :
    Consumed first s' (w ++ v) := by
  obtain ⟨halong, hstop, hle, hw⟩ := h
  cases hp with
  | none hconj =>
    refine ⟨halong, hstop, hle, ?_⟩
    have hv : v.filter Token.isText = [] := by
      rw [List.filter_eq_nil_iff]
      intro t ht
      simp [Token.isText, hconj t ht]
    rw [List.filter_append, hw, hv, List.append_nil]
  | one =>
    have hpos : s.position ≤ s.consume.position := by
      by_cases heof : s.current.isEof = true
      · exact Nat.le_of_eq (congrArg _ (TokenCursor.consume_of_eof (TokenCursor.isEof_current.1 heof)).symm)
      · exact Nat.le_of_lt (TokenCursor.position_lt_consume (by simpa using heof))
    have hcur : s.current.isConjured = false := by
      refine hindex _ ?_
      rw [← halong.tokens]
      exact Array.getElem_mem _
    have hsame : first.between s.position s.consume.position =
        s.between s.position s.consume.position := by
      unfold TokenCursor.between
      rw [halong.tokens, halong.channel]
    refine ⟨halong.trans s.along_consume, hstop.consume, Nat.le_trans hle hpos, ?_⟩
    rw [List.filter_append, hw, first.between_trans hle hpos, hsame, hstop.between_consume]
    congr 1
    cases heof : s.current.isEof <;> simp [Token.isText, heof, hcur]

/-- The recognizer stands where the live invocations of its tree stand, and the leaves are the tokens it
has passed, if tokens become leaves. -/
structure Tracked (env : Setting) (G : Guide) (rule : RuleId) (root : InvocationId) (first : TokenCursor)
    (i : Interpreter) (stations : List Station) (done : List InvocationId) (w : List Token) :
    Prop where
  woven : Woven G i.recognizer.forest stations done w
  invocation : i.recognizer.invocation = stations.head?.map Station.id
  state : i.recognizer.state = stations.head?.map Station.state
  callers : i.callers = G.callers i.recognizer.forest stations
  outermost : ∀ a, stations.getLast? = some a → Outermost G i.recognizer.forest rule root a
  consumed : ∃ v, Consumed first i.recognizer.input v ∧ (env.config.buildTrees = true → v = w)

variable {G : Guide} {rule : RuleId} {root : InvocationId} {first : TokenCursor}
  {i i' : Interpreter} {a b : Station} {stations rest : List Station} {done : List InvocationId}
  {w : List Token} {s : StateId} {t : Transition}

/-- The outermost one stays the outermost while invocations keep their rules and floors. -/
theorem Outermost.of_rest {f f' : Forest} {a' : Station}
    (h : ∀ c, (a :: rest).getLast? = some c → Outermost G f rule root c)
    (ha : rest = [] → Outermost G f' rule root a') (he : f.Extends f')
    (hlt : ∀ b ∈ rest, b.id < f.size) :
    ∀ c, (a' :: rest).getLast? = some c → Outermost G f' rule root c := by
  intro c hc
  cases rest with
  | nil =>
    cases hc
    exact ha rfl
  | cons b rest =>
    rw [List.getLast?_cons_cons] at hc
    exact (h c (by rwa [List.getLast?_cons_cons])).extends he (hlt c (List.mem_of_getLast? hc))

theorem Tracked.innermost (h : Tracked env G rule root first i stations done w)
    (hs : i.recognizer.state = some s) : ∃ a rest, stations = a :: rest ∧ a.state = s := by
  have hstate := h.state
  cases stations with
  | nil =>
    rw [hs] at hstate
    cases hstate
  | cons a rest =>
    rw [hs] at hstate
    exact ⟨a, rest, rfl, (Option.some.inj hstate).symm⟩

theorem Tracked.stopped (h : Tracked env G rule root first i stations done w) :
    i.recognizer.input.Stopped := by
  obtain ⟨v, hv, -⟩ := h.consumed
  exact hv.stopped

/-- A deed adds to the innermost invocation what it passes. -/
theorem Tracked.deed (hindex : ∀ t ∈ first.tokens, t.isConjured = false)
    (h : Tracked env G rule root first i (a :: rest) done w) {p : Parser} (hd : Deed env i.parser p) :
    ∃ added, i.recognizer.forest.Grows p.recognizer.forest a.id added ∧
      (∀ id, .rule id ∉ added) ∧
      (env.config.buildTrees = true →
        Passed i.recognizer.input p.recognizer.input (Forest.leafTokens added)) ∧
      Tracked env G rule root first { i with parser := p } (a :: rest) done
        (w ++ Forest.leafTokens added) := by
  have hlt := h.woven.lt a (.head _)
  obtain ⟨v, hv, hw⟩ := h.consumed
  obtain ⟨hinv, added, passed, hg, hadded, hp, hpassed⟩ := hd.grows h.invocation hlt hv.stopped
  refine ⟨added, hg, hadded, fun htree => hpassed htree ▸ hp, h.woven.grow hg hadded,
    hinv.trans h.invocation, (Interpreter.state_deeds (.single hd)).trans h.state, ?_, ?_, v ++ passed,
    hv.passed hindex hp, fun htree => by rw [hw htree, hpassed htree]⟩
  · exact h.callers.trans (G.callers_extends hg.toExtends h.woven.lt).symm
  · exact fun c hc => (h.outermost c hc).extends hg.toExtends
      (h.woven.lt c (List.mem_of_getLast? hc))

/-- The innermost invocation goes on in its rule. -/
theorem Tracked.goTo (h : Tracked env G rule root first i (a :: rest) done w)
    (hs : (G.network.state s).rule = (G.network.state a.state).rule) :
    Tracked env G rule root first (i.goTo (some s)) ({ a with state := s } :: rest) done w := by
  obtain ⟨_, _, -, hst, -⟩ := h.woven.threads
  refine ⟨h.woven.move (hs.trans hst.state_rule), h.invocation, rfl, h.callers, ?_, h.consumed⟩
  exact Outermost.of_rest h.outermost (fun hr => (h.outermost a (by rw [hr]; rfl))) (.refl _)
    fun b hb => h.woven.lt b (.tail _ hb)

theorem Tracked.round (hG : G.Fits)
    (h : Tracked env G rule root first i (a :: rest) done w)
    (hmark : (G.network.state a.state).precedenceDecision = true) :
    Tracked env G rule root first { i with parser := i.parser.modifyRecognizer fun r =>
        (r.pushRecursion s (G.network.state a.state).rule).2 }
      (⟨i.recognizer.forest.size, a.state⟩ :: rest) (a.id :: done) w := by
  have hlt := h.woven.lt
  obtain ⟨_, _, -, hs, -⟩ := h.woven.threads
  have heq := Recognizer.pushRecursion_eq s (G.network.state a.state).rule h.invocation
  obtain ⟨he, hsize, hnew, hold, hother⟩ := Forest.alloc_modify hs.lt
    (i.recognizer.forest.nextRound (G.network.state a.state).rule a.id)
    (g := Invocation.handOver i.recognizer.input.previousIndex i.recognizer.forest.size s)
    (fun _ => rfl) fun _ => rfl
  generalize hi' : ({ i with parser := i.parser.modifyRecognizer fun r =>
    (r.pushRecursion s (G.network.state a.state).rule).2 } : Interpreter) = i'
  have hr : i'.recognizer = { i.recognizer with
      forest := i.recognizer.forest.pushRound (G.network.state a.state).rule a.id s
        i.recognizer.input.previousIndex
      invocation := some i.recognizer.forest.size } := by
    rw [← heq, ← hi']
    rfl
  have hcallers : i'.callers = i.callers := by rw [← hi']
  have hforest : i'.recognizer.forest = i.recognizer.forest.pushRound
      (G.network.state a.state).rule a.id s i.recognizer.input.previousIndex := by rw [hr]
  unfold Forest.pushRound at hforest
  rw [← hforest] at he hsize hnew hold hother
  have hrule : (i'.recognizer.forest.get i.recognizer.forest.size).rule =
      (i.recognizer.forest.get a.id).rule := by
    rw [hnew]
    exact hs.state_rule
  have hfloor : (i'.recognizer.forest.get i.recognizer.forest.size).precedence =
      (i.recognizer.forest.get a.id).precedence := by
    rw [hnew]
    rfl
  have hrec := hG.recursive_of_mark hs.rule_lt hs.state_rule hmark
  have hrec' : G.recursive i'.recognizer.forest i.recognizer.forest.size = true := by
    unfold Guide.recursive at hrec ⊢
    rw [hrule, hrec]
  have hrest : ∀ b ∈ rest, b.id < i.recognizer.forest.size := fun b hb => hlt b (.tail _ hb)
  refine ⟨h.woven.round he hsize hother (by rw [hold]; rfl) hrule hfloor (by rw [hnew]; rfl)
    (by rw [hnew]; rfl) (by rw [hnew]; rfl) hrec, by rw [hr]; rfl, ?_, ?_, ?_, ?_⟩
  · rw [hr]
    exact h.state
  · have hc := h.callers
    rw [Guide.callers_cons, if_pos hrec] at hc
    rw [Guide.callers_cons, if_pos hrec', G.callers_extends he hrest, ← hc, hcallers]
  · refine Outermost.of_rest h.outermost (fun hnil => ?_) he hrest
    obtain ⟨h₁, h₂, h₃⟩ := h.outermost a (by rw [hnil]; rfl)
    refine ⟨hrule.trans h₁, hfloor.trans h₂, fun hf => ?_⟩
    unfold Guide.recursive at hrec
    rw [h₁, hf] at hrec
    cases hrec
  · rw [hr]
    exact h.consumed

theorem Tracked.enter {c : RuleId} {precedence : Int} {id : InvocationId} (hG : G.Fits)
    (hnet : env.network = G.network) (h : Tracked env G rule root first i stations done w)
    (hc : c < G.network.rules.size) (he : i.enter env c precedence = (.ok id, i'))
    (hcall : ∀ a, stations.head? = some a → ∃ t ∈ (G.network.state a.state).transitions,
      ∃ follow, t.kind = .rule c follow precedence)
    (hfirst : stations = [] → c = rule ∧ precedence = 0 ∧ root = id) :
    Tracked env G rule root first i' (⟨id, (G.network.rule c).start⟩ :: stations) done w := by
  have hen := Interpreter.enters_of_enter he
  obtain ⟨hext, hsize, hrule, hfloor, hchildren, hparent, hcaller, hother, htop⟩ :=
    hen.facts hnet h.invocation h.state h.woven.lt
  have hid := hen.id_eq
  have hw := h.woven.enter hG hext hc hsize hrule hfloor hchildren hparent hcaller hcall hother htop
  rw [← hid] at hw hrule hfloor
  have hlt := h.woven.lt
  have hrec : G.recursive i'.recognizer.forest id = (G.network.rule c).leftRecursive := by
    unfold Guide.recursive
    rw [hrule]
  have hcallers := hen.callers
  rw [hnet] at hcallers
  refine ⟨hw, hen.invocation, ?_, ?_, ?_, ?_⟩
  · rw [hen.state, hnet]
    rfl
  · rw [Guide.callers_cons, hcallers, h.callers, hrec, G.callers_extends hext hlt, h.invocation,
      h.state]
  · intro b hb
    cases stations with
    | nil =>
      cases hb
      obtain ⟨h₁, h₂, h₃⟩ := hfirst rfl
      refine ⟨hrule.trans h₁, ?_, fun _ => h₃.symm⟩
      show (i'.recognizer.forest.get id).precedence = 0
      rw [hfloor, h₂]
      cases (G.network.rule c).leftRecursive <;> rfl
    | cons a rest =>
      rw [List.getLast?_cons_cons] at hb
      exact (h.outermost b hb).extends hext (hlt b (List.mem_of_getLast? hb))
  · have hside := (@Interpreter.onlyTree_enter env i c precedence).1
    rw [he] at hside
    rw [hside.input]
    exact h.consumed

theorem Tracked.leave {follow : StateId} (hG : G.Fits) (hnet : env.network = G.network)
    (h : Tracked env G rule root first i (a :: b :: rest) done w)
    (hfollow : G.network.followOf? b.state = some follow) :
    Tracked env G rule root first (i.leaveRule env (G.network.state a.state).rule)
      ({ b with state := follow } :: rest) (a.id :: done) w := by
  obtain ⟨_, _, -, hs, ⟨hparent, hcaller, -⟩, -⟩ := h.woven.threads
  have hlt_b : b.id < i.recognizer.forest.size := h.woven.lt b (.tail _ (.head _))
  obtain ⟨hl, hcallers, -⟩ := Interpreter.leaves_leaveRule hnet hs.lt hlt_b
    (h.woven.ne_innermost.1 b (.head _)) hs.state_rule hparent hcaller h.invocation h.callers
  have hw := h.woven.leave hG hl.extends_forest hl.size hl.other hl.inner hl.parent hl.caller
    hl.children hfollow
  have hlt : ∀ c ∈ b :: rest, c.id < i.recognizer.forest.size := fun c hc =>
    h.woven.lt c (.tail _ hc)
  have hout : ∀ c, (b :: rest).getLast? = some c →
      Outermost G i.recognizer.forest rule root c := by
    intro c hc
    exact h.outermost c (by rwa [List.getLast?_cons_cons])
  refine ⟨hw, hl.invocation, ?_, ?_, ?_, ?_⟩
  · rw [hl.state, hfollow]
    rfl
  · rw [hcallers, ← G.callers_extends hl.extends_forest hlt]
    rfl
  · refine Outermost.of_rest hout (fun hnil => ?_) hl.extends_forest fun c hc => hlt c (.tail _ hc)
    exact (hout b (by rw [hnil]; rfl)).extends hl.extends_forest hlt_b
  · rw [(Interpreter.onlyTree_leaveRule _).1.input]
    exact h.consumed

/-- A parse underway: its live and finished invocations, and the leaves so far. -/
structure Scene where
  interpreter : Interpreter
  stations : List Station
  done : List InvocationId
  leaves : List Token

/-- The scene is one of a parse that is tracked. -/
abbrev Scene.Tracked (env : Setting) (G : Guide) (rule : RuleId) (root : InvocationId)
    (first : TokenCursor) (scene : Scene) : Prop :=
  AdaptiveParsing.Tracked env G rule root first scene.interpreter scene.stations scene.done
    scene.leaves

/-- What a move does to the live invocations, the finished ones and the leaves. -/
inductive Shift (env : Setting) (G : Guide) : Scene → Scene → Prop
  | deed {i : Interpreter} {a : Station} {rest : List Station} {done : List InvocationId}
      {w : List Token} {p : Parser} {added : List Child} (hd : Deed env i.parser p)
      (hg : i.recognizer.forest.Grows p.recognizer.forest a.id added)
      (hadded : ∀ id, .rule id ∉ added)
      (hp : env.config.buildTrees = true →
        Passed i.recognizer.input p.recognizer.input (Forest.leafTokens added)) :
      Shift env G ⟨i, a :: rest, done, w⟩
        ⟨{ i with parser := p }, a :: rest, done, w ++ Forest.leafTokens added⟩
  | goTo {i : Interpreter} {a : Station} {rest : List Station} {done : List InvocationId}
      {w : List Token} {s : StateId}
      (hs : (G.network.state s).rule = (G.network.state a.state).rule) :
      Shift env G ⟨i, a :: rest, done, w⟩ ⟨i.goTo (some s), { a with state := s } :: rest, done, w⟩
  | round {i : Interpreter} {a : Station} {rest : List Station} {done : List InvocationId}
      {w : List Token} {s : StateId}
      (hmark : (G.network.state a.state).precedenceDecision = true) :
      Shift env G ⟨i, a :: rest, done, w⟩
        ⟨{ i with parser := i.parser.modifyRecognizer fun r =>
            (r.pushRecursion s (G.network.state a.state).rule).2 },
          ⟨i.recognizer.forest.size, a.state⟩ :: rest, a.id :: done, w⟩
  | enter {i i' : Interpreter} {a : Station} {rest : List Station} {done : List InvocationId}
      {w : List Token} {t : Transition} {c : RuleId} {follow : StateId} {precedence : Int}
      {id : InvocationId} (hc : c < G.network.rules.size)
      (ht : t ∈ (G.network.state a.state).transitions) (hk : t.kind = .rule c follow precedence)
      (he : i.enter env c precedence = (.ok id, i')) :
      Shift env G ⟨i, a :: rest, done, w⟩
        ⟨i', ⟨id, (G.network.rule c).start⟩ :: a :: rest, done, w⟩

theorem Interpreter.goTo_of_state (h : i.recognizer.state = some s) : i.goTo (some s) = i := by
  obtain ⟨⟨⟨⟩, _⟩, _⟩ := i
  cases h
  rfl

/-- Every move is a shift, and keeps track. -/
theorem Tracked.move (hG : G.Fits) (hnet : env.network = G.network)
    (hindex : ∀ t ∈ first.tokens, t.isConjured = false)
    (h : Tracked env G rule root first i (a :: rest) done w) (ht : Interpreter.Move env i i') :
    ∃ a' rest' done' w', Tracked env G rule root first i' (a' :: rest') done' w' ∧
      Shift env G ⟨i, a :: rest, done, w⟩ ⟨i', a' :: rest', done', w'⟩ := by
  have hstate : ∀ {s}, i.recognizer.state = some s → s = a.state := fun hs =>
    Option.some.inj (hs.symm.trans h.state)
  obtain ⟨_, _, -, hst, -⟩ := h.woven.threads
  have hshape := hG.rule _ hst.rule_lt
  cases ht with
  | deed hd =>
    obtain ⟨added, hg, hadded, hp, h'⟩ := h.deed hindex hd
    exact ⟨a, rest, done, _, h', .deed hd hg hadded hp⟩
  | @pass s t hs ht hcall =>
    cases hstate hs
    rw [hnet] at ht
    have hnext := (hshape.next a.state hst.state_rule t ht).2
    rw [Transition.next_eq_target hcall, ← hst.state_rule] at hnext
    exact ⟨_, rest, done, w, h.goTo hnext, .goTo hnext⟩
  | skip hs =>
    cases hstate hs
    rw [hnet, hst.state_rule]
    have hstop := hshape.stop_rule
    rw [← hst.state_rule] at hstop ⊢
    exact ⟨_, rest, done, w, h.goTo hstop, .goTo hstop⟩
  | round hs hmark =>
    cases hstate hs
    rw [hnet] at hmark ⊢
    exact ⟨_, rest, _, w, h.round hG hmark, .round hmark⟩
  | @enter s t c follow precedence id i₁ hs ht hk he =>
    cases hstate hs
    rw [hnet] at ht
    obtain ⟨hc, htarget⟩ := hG.call a.state t ht c follow precedence hk
    have h₁ := h.enter hG hnet hc he
      (by
        rintro _ ⟨⟩
        exact ⟨t, ht, follow, hk⟩)
      (by rintro ⟨⟩)
    rw [htarget, Interpreter.goTo_of_state h₁.state]
    exact ⟨_, _, done, w, h₁, .enter hc ht hk he⟩

/-- An invocation that is left was called by another one. -/
theorem Tracked.returns (hG : G.Fits) (hnet : env.network = G.network)
    (h : Tracked env G rule root first i (a :: rest) done w) (hs : i.recognizer.state = some s)
    (hout : i.isOutermost = false) : s = a.state ∧ ∃ b outer follow, rest = b :: outer ∧
      G.network.followOf? b.state = some follow ∧
      Tracked env G rule root first (i.leaveRule env (G.network.state s).rule)
        ({ b with state := follow } :: outer) (a.id :: done) w := by
  obtain rfl : s = a.state := Option.some.inj (hs.symm.trans h.state)
  obtain ⟨_, _, -, -, hcalled, -⟩ := h.woven.threads
  cases rest with
  | nil =>
    unfold Interpreter.isOutermost at hout
    rw [h.invocation] at hout
    simp only [List.head?_cons, Option.map_some] at hout
    rw [hcalled.2] at hout
    cases hout
  | cons b rest =>
    obtain ⟨follow, hfollow⟩ := hG.followOf?_of_called hcalled
    exact ⟨rfl, b, rest, follow, rfl, hfollow, h.leave hG hnet hfollow⟩

/-- What every shift keeps, a sequence of moves keeps. -/
theorem Tracked.moves {P : Scene → Prop} (hG : G.Fits) (hnet : env.network = G.network)
    (hindex : ∀ t ∈ first.tokens, t.isConjured = false)
    (hkeep : ∀ {scene scene' : Scene}, scene.Tracked env G rule root first →
      scene'.Tracked env G rule root first → P scene → Shift env G scene scene' → P scene')
    (h : Tracked env G rule root first i (a :: rest) done w) (hP : P ⟨i, a :: rest, done, w⟩)
    (ht : Interpreter.Moves env i i') :
    ∃ a' rest' done' w', Tracked env G rule root first i' (a' :: rest') done' w' ∧
      P ⟨i', a' :: rest', done', w'⟩ := by
  induction ht with
  | refl => exact ⟨a, rest, done, w, h, hP⟩
  | tail _ ht ih =>
    obtain ⟨a', rest', done', w', h', hP'⟩ := ih
    obtain ⟨a₂, rest₂, done₂, w₂, h₂, hshift⟩ := h'.move hG hnet hindex ht
    exact ⟨a₂, rest₂, done₂, w₂, h₂, hkeep h' h₂ hP' hshift⟩

theorem Tracked.turns (hG : G.Fits) (hnet : env.network = G.network)
    (hindex : ∀ t ∈ first.tokens, t.isConjured = false)
    (h : Tracked env G rule root first i (a :: rest) done w) (ht : Interpreter.Turns env i i') :
    ∃ a' rest' done' w', Tracked env G rule root first i' (a' :: rest') done' w' := by
  induction ht with
  | refl => exact ⟨a, rest, done, w, h⟩
  | tail _ ht ih =>
    obtain ⟨a', rest', done', w', h'⟩ := ih
    cases ht with
    | move ht =>
      obtain ⟨a₂, rest₂, done₂, w₂, h₂, -⟩ := h'.move hG hnet hindex ht
      exact ⟨a₂, rest₂, done₂, w₂, h₂⟩
    | leave hs hstop hout =>
      obtain ⟨-, b, outer, follow, -, -, h₂⟩ := h'.returns hG hnet hs hout
      rw [hnet]
      exact ⟨_, _, _, _, h₂⟩

/-- Where the live invocations are one, it is the outermost. -/
theorem Tracked.single (h : Tracked env G rule root first i (a :: rest) done w)
    (hout : i.isOutermost = true) : rest = [] := by
  cases rest with
  | nil => rfl
  | cons b rest =>
    obtain ⟨_, _, -, -, ⟨-, hcaller, -⟩, -⟩ := h.woven.threads
    unfold Interpreter.isOutermost at hout
    rw [h.invocation] at hout
    simp only [List.head?_cons, Option.map_some] at hout
    rw [hcaller] at hout
    cases hout

/-- And the outermost one alone is where it is. -/
theorem Tracked.isOutermost (h : Tracked env G rule root first i [a] done w) :
    i.isOutermost = true := by
  obtain ⟨_, _, -, -, ⟨-, hcaller⟩, -⟩ := h.woven.threads
  unfold Interpreter.isOutermost
  rw [h.invocation]
  simp only [List.head?_cons, Option.map_some]
  rw [hcaller]
  rfl

/-- A compiled grammar has a guide. -/
theorem Grammar.exists_guide {g : Grammar} {c : CompiledGrammar} (hg : g.compile = .ok c)
    (held : InvocationId → Conditions) : ∃ G : Guide, G.network = c.network ∧ G.held = held ∧
      G.levels = g.HasLevel ∧ G.Fits := by
  obtain ⟨hshaped, -⟩ := shaped_compile hg
  have hex : ∀ r, ∃ loop zone, r < c.network.rules.size →
      (c.network.rule r).leftRecursive = true →
      LoopShape c.network.state r (c.network.rule r) (g.HasLevel r) loop zone := by
    intro r
    by_cases hr : r < c.network.rules.size ∧ (c.network.rule r).leftRecursive = true
    · obtain ⟨loop, zone, hz⟩ := (hshaped.rule r hr.1).recursive hr.2
      exact ⟨loop, zone, fun _ _ => hz⟩
    · exact ⟨0, fun _ => .head, fun h₁ h₂ => absurd ⟨h₁, h₂⟩ hr⟩
  choose loop zone hloops using hex
  exact ⟨⟨c.network, g.HasLevel, held, loop, zone⟩, rfl, rfl, rfl, ⟨hshaped, hloops⟩⟩

namespace Interpreter

variable {g : Grammar} {fuel : Nat} {id : InvocationId}

/-- A parse from a fresh parser keeps track from its first invocation on. -/
theorem tracked_enter {i₀ : Interpreter} (hG : G.Fits) (hnet : env.network = G.network)
    (hrule : rule < G.network.rules.size) (hi : i.Fresh) (hstop : i.recognizer.input.Stopped)
    (he : i.enter env rule 0 = (.ok id, i₀)) :
    Tracked env G rule id i.recognizer.input i₀ [⟨id, (G.network.rule rule).start⟩] [] [] := by
  have hempty : Tracked env G rule id i.recognizer.input i [] [] [] := by
    refine ⟨⟨rfl, by simp, List.nodup_nil, by simp, fun id hid => ?_, by simp⟩, hi.invocation,
      hi.state, hi.callers, ?_, [], .refl hstop, fun _ => rfl⟩
    · rw [hi.forest] at hid
      cases hid
    · intro a ha
      cases ha
  exact hempty.enter hG hnet hrule he (by rintro a ⟨⟩) fun _ => ⟨rfl, rfl, rfl⟩

/-- A parse that ends well has kept track up to the end of its outermost invocation. -/
theorem tracked_of_parse (hG : G.Fits) (hnet : env.network = G.network)
    (hrule : rule < G.network.rules.size) (hi : i.Fresh)
    (hstop : i.recognizer.input.Stopped)
    (hindex : ∀ t ∈ i.recognizer.input.tokens, t.isConjured = false)
    (hrun : i.parse env fuel rule = some (.ok root, i')) :
    ∃ first i₀ j a done w, i.enter env rule 0 = (.ok first, i₀) ∧
      Relation.ReflTransGen (Follows env rule first) i₀ j ∧
      Tracked env G rule first i.recognizer.input j [a] done w ∧
      j.finish env rule first = (root, i') := by
  unfold parse at hrun
  generalize hen : i.enter env rule 0 = result at hrun
  obtain ⟨halt | first, i₀⟩ := result
  · cases hrun
  · obtain ⟨j, hsteps, hfin⟩ := follows_runFor hrun
    have h₀ := tracked_enter hG hnet hrule hi hstop hen
    obtain ⟨a, rest, done, w, hj⟩ := h₀.turns hG hnet hindex (turns_of_follows hsteps)
    rcases step_finished hfin with hnone | ⟨s, -, -, hout, hclose⟩
    · rw [hj.state] at hnone
      cases hnone
    · obtain rfl := hj.single hout
      exact ⟨first, i₀, j, a, done, w, rfl, hsteps, hj, hclose⟩

/-- What holds as the first invocation is opened, is kept by every shift and when an invocation is left,
holds at every step of a parse from a fresh parser, where it stops with a failure, and at the end of its
outermost invocation. -/
theorem along_parse {P : Scene → Prop} (hG : G.Fits) (hnet : env.network = G.network)
    (hrule : rule < G.network.rules.size) (hi : i.Fresh) (hstop : i.recognizer.input.Stopped)
    (hindex : ∀ t ∈ i.recognizer.input.tokens, t.isConjured = false)
    (hfirst : ∀ {first i₀}, i.enter env rule 0 = (.ok first, i₀) →
      P ⟨i₀, [⟨first, (G.network.rule rule).start⟩], [], []⟩)
    (hkeep : ∀ {root : InvocationId} {scene scene' : Scene},
      scene.Tracked env G rule root i.recognizer.input →
      scene'.Tracked env G rule root i.recognizer.input → P scene → Shift env G scene scene' →
      P scene')
    (hleave : ∀ {first i₀ j a b rest done w follow}, i.enter env rule 0 = (.ok first, i₀) →
      Relation.ReflTransGen (Follows env rule first) i₀ j →
      Tracked env G rule first i.recognizer.input j (a :: b :: rest) done w →
      P ⟨j, a :: b :: rest, done, w⟩ → (G.network.state a.state).isRuleStop = true →
      G.network.followOf? b.state = some follow →
      P ⟨j.leaveRule env (G.network.state a.state).rule, { b with state := follow } :: rest,
        a.id :: done, w⟩) :
    (∀ first i₀ j, i.enter env rule 0 = (.ok first, i₀) →
      Relation.ReflTransGen (Follows env rule first) i₀ j → ∃ a rest done w,
        Tracked env G rule first i.recognizer.input j (a :: rest) done w ∧
          P ⟨j, a :: rest, done, w⟩) ∧
    (∀ fuel halt i', i.parse env fuel rule = some (.error halt, i') → i' = i ∨
      ∃ first a rest done w, Tracked env G rule first i.recognizer.input i' (a :: rest) done w ∧
        P ⟨i', a :: rest, done, w⟩) ∧
    ∀ fuel root i', i.parse env fuel rule = some (.ok root, i') → ∃ first i₀ j a done w,
      i.enter env rule 0 = (.ok first, i₀) ∧ Relation.ReflTransGen (Follows env rule first) i₀ j ∧
      Tracked env G rule first i.recognizer.input j [a] done w ∧ P ⟨j, [a], done, w⟩ ∧
        j.finish env rule first = (root, i') := by
  have hsteps : ∀ first i₀ j, i.enter env rule 0 = (.ok first, i₀) →
      Relation.ReflTransGen (Follows env rule first) i₀ j → ∃ a rest done w,
        Tracked env G rule first i.recognizer.input j (a :: rest) done w ∧
          P ⟨j, a :: rest, done, w⟩ := by
    intro first i₀ j hen hj
    induction hj with
    | refl => exact ⟨_, _, _, _, tracked_enter hG hnet hrule hi hstop hen, hfirst hen⟩
    | @tail j j' hj hstep ih =>
      obtain ⟨a, rest, done, w, h, hP⟩ := ih
      rcases moves_step.1 j' hstep with hmoves | ⟨s, hs, hend, hout, rfl⟩
      · exact h.moves hG hnet hindex hkeep hP hmoves
      · obtain ⟨rfl, b, outer, follow, rfl, hfollow, h'⟩ := h.returns hG hnet hs hout
        rw [hnet] at hend ⊢
        exact ⟨_, _, _, _, h', hleave hen hj h hP hend hfollow⟩
  refine ⟨hsteps, ?_, ?_⟩
  · intro fuel halt i' hrun
    unfold parse at hrun
    generalize hen : i.enter env rule 0 = result at hrun
    obtain ⟨halt' | first, i₀⟩ := result
    · cases hrun
      exact .inl (enter_eq_error hen).1
    · obtain ⟨j, hj, hfin⟩ := follows_runFor hrun
      obtain ⟨a, rest, done, w, h, hP⟩ := hsteps first i₀ j hen hj
      exact .inr ⟨first, h.moves hG hnet hindex hkeep hP (moves_step.2 halt i' hfin)⟩
  · intro fuel root i' hrun
    obtain ⟨first, i₀, j, a, done, w, hen, hj, h, hfin⟩ :=
      tracked_of_parse hG hnet hrule hi hstop hindex hrun
    obtain ⟨a', rest', done', w', h', hP⟩ := hsteps first i₀ j hen hj
    obtain rfl := h'.single h.isOutermost
    exact ⟨first, i₀, j, a', done', w', hen, hj, h', hP, hfin⟩

/-- The tokens of an input have indices. -/
theorem isConjured_of_mem_ofTokens {tokens : Array Token} {channel : Nat} {t : Token}
    (h : t ∈ (TokenCursor.ofTokens tokens channel).tokens) : t.isConjured = false := by
  obtain ⟨j, hj, rfl⟩ := Array.mem_iff_getElem.1 h
  simp [TokenCursor.ofTokens, TokenCursor.number, Token.isConjured]

/-- A parser at a place of an input stands at a visible token of it. -/
theorem stopped_of_input {tokens : Array Token} {channel start : Nat}
    (hinput : i.recognizer.input = (TokenCursor.ofTokens tokens channel).seek start) :
    i.recognizer.input.Stopped ∧ ∀ t ∈ i.recognizer.input.tokens, t.isConjured = false := by
  rw [hinput]
  exact ⟨TokenCursor.stopped_moveTo _ _, fun _ ht =>
    @isConjured_of_mem_ofTokens tokens channel _ ht⟩

/-- If a parse from a fresh parser ends well, then whatever errors it recovered from, the leaves of its
tree, conjured tokens and the end of input apart, are the visible tokens between where it began and where
it ended, each once and in order. -/
theorem parse_leaves {tokens : Array Token} {channel start : Nat}
    (hg : g.compile = .ok env.grammar) (htree : env.config.buildTrees = true)
    (hrule : rule < g.rules.size) (hi : i.Fresh)
    (hinput : i.recognizer.input = (TokenCursor.ofTokens tokens channel).seek start)
    (hrun : i.parse env fuel rule = some (.ok root, i')) :
    ∃ leaves, i'.recognizer.forest.Leaves [.rule root] leaves ∧
      leaves.filter Token.isText = i.recognizer.input.between i.recognizer.input.position
        i'.recognizer.input.position := by
  obtain ⟨G, hnet, -, -, hG⟩ := Grammar.exists_guide hg fun _ _ _ _ _ => True
  have hsize : rule < G.network.rules.size := by
    rw [hnet, (Grammar.shaped_compile hg).2]
    exact hrule
  obtain ⟨hstop, hindex⟩ := stopped_of_input hinput
  obtain ⟨first, i₀, j, a, done, w, -, -, h, hfin⟩ :=
    tracked_of_parse hG hnet.symm hsize hi hstop hindex hrun
  obtain ⟨_, own, rfl, hs, -, rfl⟩ := h.woven.threads
  obtain ⟨children, hch, hd, hl⟩ := hs.below
  obtain ⟨rfl, note, hforest, hnote⟩ :=
    forest_finish hnet.symm h.invocation (h.outermost a rfl) h.callers hfin
  have hkeep : ∀ id, (i'.recognizer.forest.get id).children =
      (j.recognizer.forest.get id).children := by
    intro id
    rw [hforest]
    exact Forest.get_modify_note Invocation.children (fun i => (hnote i).2.2.1) _ _ id
  refine ⟨own, ?_, ?_⟩
  · have hown := h.woven.leaves_keep (fun id _ => hkeep id) children own hd hl
    rw [List.append_nil] at hch
    rw [← hch, ← hkeep] at hown
    exact hown.single
  · have hside := (@onlyTree_finish env j rule first).input
    rw [hfin] at hside
    rw [hside]
    obtain ⟨v, hv, hw⟩ := h.consumed
    obtain rfl : v = own := hw htree
    exact hv.word

end Interpreter

/-- A parser that has not begun, at the input A A B. -/
def beforeStray : Interpreter :=
  let input := TokenCursor.ofTokens #[{ kind := 1 }, { kind := 1 }, { kind := 2 }] defaultChannel
  { parser := { recognizer := .start nestedSetting (input.seek 0) {} } }

/-- The parse of A A B by `nested` drops a token, which is not lost. -/
theorem leaves_stray : ∃ i', beforeStray.parse nestedSetting 20 0 = some (.ok 0, i') ∧
    i'.recognizer.errors.size = 1 ∧ ∃ leaves, i'.recognizer.forest.Leaves [.rule 0] leaves ∧
      leaves.filter Token.isText = beforeStray.recognizer.input.between
        beforeStray.recognizer.input.position i'.recognizer.input.position := by
  have hrun : (beforeStray.parse nestedSetting 20 0).map
      (fun p => (p.1, p.2.recognizer.errors.size)) = some (.ok 0, 1) := by cbv
  cases hparse : beforeStray.parse nestedSetting 20 0 with
  | none =>
    rw [hparse] at hrun
    cases hrun
  | some p =>
    rw [hparse] at hrun
    obtain ⟨outcome, i'⟩ := p
    obtain ⟨rfl, he⟩ := Prod.mk.inj (Option.some.inj hrun)
    have hsize : nested.rules.size = 2 := by cbv
    exact ⟨i', rfl, he, Interpreter.parse_leaves compile_nested rfl (by rw [hsize]; decide)
      ⟨rfl, rfl, rfl, rfl, rfl, rfl, rfl⟩ rfl hparse⟩

end AdaptiveParsing
