import AdaptiveParsing.Proofs.Recognition.Policies
import AdaptiveParsing.Proofs.Recognition.Standing
/-!
One parser for several parses. Each begins where the last one ended or failed, so its outermost invocation may
have been opened inside one that an earlier parse left open, and callers that an earlier parse left on the list
may still be there (`Interpreter.Session`). All the same the parser stands at a state of the rule of its
innermost invocation, and so it will when that one goes back to the invocation around it
(`Forest.GoesBack`). Main statement: `Interpreter.Session.upright`.
-/

namespace AdaptiveParsing

open Relation AdaptiveParsing.Parser

variable {env : Setting}

/-- An invocation, if there is one, and a state to go on at, if the parse has not ended. -/
abbrev CallSite := Option InvocationId × Option StateId

/-- Which rule was called, and from where. -/
def Invocation.call (i : Invocation) : RuleId × CallSite := (i.rule, i.origin)

theorem Invocation.rule_of_call {i j : Invocation} (h : i.call = j.call) : i.rule = j.rule :=
  congrArg Prod.fst h

theorem Invocation.origin_of_call {i j : Invocation} (h : i.call = j.call) : i.origin = j.origin :=
  congrArg Prod.snd h

namespace Forest

variable {n : Network} {f f' : Forest} {bound bound' id : InvocationId} {s next : StateId} {site : CallSite}
  {callers : List CallSite}

theorem call_addChild (f : Forest) (id : InvocationId) (c : Child) (other : InvocationId) :
    ((f.addChild id c).get other).call = (f.get other).call := by
  refine get_modify_note Invocation.call ?_ f id other
  exact fun _ => rfl

/-- The state is of the rule of the invocation. -/
structure Stands (n : Network) (f : Forest) (id : InvocationId) (s : StateId) : Prop where
  rule : (n.state s).rule = (f.get id).rule
  known : (f.get id).rule < n.rules.size

theorem Stands.congr (h : f.Stands n id s) (hr : (f'.get id).rule = (f.get id).rule) : f'.Stands n id s :=
  ⟨h.rule.trans hr.symm, hr ▸ h.known⟩

/-- The way back from a place, through invocations older than `bound`. One of an ordinary rule goes back to
where it was called from, and one of a left-recursive rule to the first place on the list of callers. Where
there is no state the way ends, whatever is on the list. -/
inductive GoesBack (n : Network) (f : Forest) : InvocationId → CallSite → List CallSite → Prop
  | ended {bound : InvocationId} {callers : List CallSite} (id : Option InvocationId) :
      GoesBack n f bound (id, none) callers
  | plain {bound id : InvocationId} {s : StateId} {callers : List CallSite} (hlt : id < bound)
      (hs : f.Stands n id s) (hl : (n.rule (f.get id).rule).leftRecursive = false)
      (h : GoesBack n f id (f.get id).origin callers) : GoesBack n f bound (some id, some s) callers
  | recursive {bound id : InvocationId} {s : StateId} {caller : CallSite} {callers : List CallSite}
      (hlt : id < bound) (hs : f.Stands n id s)
      (hl : (n.rule (f.get id).rule).leftRecursive = true) (h : GoesBack n f id caller callers) :
      GoesBack n f bound (some id, some s) (caller :: callers)

/-- The way back depends on the calls of older invocations only. -/
theorem GoesBack.congr (h : f.GoesBack n bound site callers) (hle : bound ≤ bound')
    (hcall : ∀ id < bound, (f'.get id).call = (f.get id).call) : f'.GoesBack n bound' site callers := by
  induction h generalizing bound' with
  | ended id => exact .ended id
  | @plain bound id s callers hlt hs hl _ ih =>
    have hrule := Invocation.rule_of_call (hcall id hlt)
    have hback := ih (Nat.le_refl id) fun j hj => hcall j (Nat.lt_trans hj hlt)
    rw [← Invocation.origin_of_call (hcall id hlt)] at hback
    exact .plain (Nat.lt_of_lt_of_le hlt hle) (hs.congr hrule) (hrule ▸ hl) hback
  | @recursive bound id s caller callers hlt hs hl _ ih =>
    have hrule := Invocation.rule_of_call (hcall id hlt)
    have hback := ih (Nat.le_refl id) fun j hj => hcall j (Nat.lt_trans hj hlt)
    exact .recursive (Nat.lt_of_lt_of_le hlt hle) (hs.congr hrule) (hrule ▸ hl) hback

theorem GoesBack.stands (h : f.GoesBack n bound site callers) (hs : site.2 = some s) :
    ∃ id, site.1 = some id ∧ id < bound ∧ f.Stands n id s := by
  cases h with
  | ended => cases hs
  | plain hlt hst | recursive hlt hst =>
    cases hs
    exact ⟨_, rfl, hlt, hst⟩

/-- An ordinary invocation goes back to where it was called from. -/
theorem GoesBack.of_plain (h : f.GoesBack n bound (some id, some s) callers)
    (hl : (n.rule (f.get id).rule).leftRecursive = false) : f.GoesBack n id (f.get id).origin callers := by
  cases h with
  | plain _ _ _ h => exact h
  | recursive _ _ hrec _ => exact absurd hrec (by simp [hl])

theorem GoesBack.of_recursive (h : f.GoesBack n bound (some id, some s) callers)
    (hl : (n.rule (f.get id).rule).leftRecursive = true) :
    ∃ caller rest, callers = caller :: rest ∧ f.GoesBack n id caller rest := by
  cases h with
  | plain _ _ hplain _ => exact absurd hl (by simp [hplain])
  | recursive _ _ _ h => exact ⟨_, _, rfl, h⟩

/-- The way back is the same from all states of the rule, and from a new invocation in the place of the old. -/
theorem GoesBack.renew {new : InvocationId} (h : f.GoesBack n bound (some id, some s) callers)
    (hle : id ≤ new) (hlt : new < bound') (hs : f'.Stands n new next)
    (hnew : (f'.get new).call = (f.get id).call) (hcall : ∀ j < id, (f'.get j).call = (f.get j).call) :
    f'.GoesBack n bound' (some new, some next) callers := by
  have hrule := Invocation.rule_of_call hnew
  cases h with
  | plain _ _ hl h =>
    refine .plain hlt hs (hrule ▸ hl) ?_
    rw [Invocation.origin_of_call hnew]
    exact h.congr hle hcall
  | recursive _ _ hl h => exact .recursive hlt hs (hrule ▸ hl) (h.congr hle hcall)

theorem GoesBack.goTo (h : f.GoesBack n bound (some id, some s) callers)
    (hrule : (n.state next).rule = (n.state s).rule) : f.GoesBack n bound (some id, some next) callers := by
  obtain ⟨_, hid, hlt, hs⟩ := h.stands rfl
  cases hid
  exact h.renew (Nat.le_refl id) hlt ⟨hrule.trans hs.rule, hs.known⟩ rfl fun _ _ => rfl

/-- A call returns to a state of the same rule. -/
theorem GoesBack.follow {levels : RuleId → Int → Prop} (h : f.GoesBack n bound site callers)
    (hshape : n.Shaped levels) : f.GoesBack n bound (site.1, site.2.bind n.followOf?) callers := by
  obtain ⟨inv, state⟩ := site
  cases state with
  | none => exact .ended inv
  | some s =>
    obtain ⟨id, hid, -, hs⟩ := h.stands rfl
    dsimp only at hid ⊢
    subst hid
    rw [Option.bind_some]
    cases hback : n.followOf? s with
    | none => exact .ended _
    | some back =>
      obtain ⟨t, ht, -, rfl⟩ := Network.exists_call_of_followOf? hback
      apply h.goTo
      rw [hs.rule, ((hshape.rule _ hs.known).next s hs.rule t ht).2]

end Forest

/-- Another round is called from where the invocation was called from whose place it takes. -/
theorem Recognizer.calls_pushRecursion {r : Recognizer} {id : InvocationId} (hid : r.invocation = some id)
    (hlt : id < r.forest.size) (start : StateId) (rule : RuleId) :
    let r' := (r.pushRecursion start rule).2
    r'.invocation = some r.forest.size ∧ r'.state = r.state ∧ r'.forest.size = r.forest.size + 1 ∧
      (r'.forest.get r.forest.size).call = (rule, (r.forest.get id).origin) ∧
      ∀ j < id, (r'.forest.get j).call = (r.forest.get j).call := by
  obtain ⟨-, hsize, hnew, -, hothers⟩ := Forest.alloc_modify hlt (r.forest.nextRound rule id)
    (g := Invocation.handOver r.input.previousIndex r.forest.size start) (fun _ => rfl) fun _ => rfl
  rw [pushRecursion_eq start rule hid]
  refine ⟨rfl, rfl, hsize, congrArg Invocation.call hnew, fun j hj => ?_⟩
  exact congrArg Invocation.call (hothers j (Nat.lt_trans hj hlt) (Nat.ne_of_lt hj))

/-- Where the parser stands. -/
def Interpreter.site (i : Interpreter) : CallSite := (i.recognizer.invocation, i.recognizer.state)

/-- A new invocation is called from where the parse stands, and the others stay as they are. -/
theorem Enters.calls {i i' : Interpreter} {c : RuleId} {precedence : Int} {id : InvocationId}
    (h : Enters env c precedence i id i')
    (hstate : i.recognizer.state.isSome = true → i.recognizer.invocation.isSome = true) :
    i'.recognizer.forest.size = id + 1 ∧ (i'.recognizer.forest.get id).call = (c, i.site) ∧
      ∀ j < id, (i'.recognizer.forest.get j).call = (i.recognizer.forest.get j).call := by
  obtain ⟨rfl, -, -, -, -, node, rfl, -, -, hparent, hcaller, -, hforest⟩ := h
  have hgrown : i'.recognizer.forest.size = i.recognizer.forest.size + 1 ∧
      ∀ j, (i'.recognizer.forest.get j).call = ((i.recognizer.forest.alloc node).2.get j).call := by
    rw [← Forest.size_alloc i.recognizer.forest node, hforest]
    split
    · exact ⟨rfl, fun _ => rfl⟩
    · split
      · exact ⟨rfl, fun _ => rfl⟩
      · exact ⟨Forest.size_modify _ _ _, Forest.call_addChild _ _ _⟩
  obtain ⟨hsize, hcall⟩ := hgrown
  refine ⟨hsize, ?_, fun j hj => ?_⟩
  · rw [hcall, Forest.get_alloc, if_pos rfl]
    refine Prod.ext rfl (Prod.ext hparent (hcaller.trans ?_))
    show _ = i.recognizer.state
    split
    · rfl
    · rename_i hinv
      exact (Option.not_isSome_iff_eq_none.1 (mt hstate hinv)).symm
  · rw [hcall, Forest.get_alloc, if_neg (Nat.ne_of_lt hj)]

namespace Interpreter

variable {i i' : Interpreter} {g : Grammar} {s : StateId}

/-- What one parser comes to that recovers from errors and parses one rule after another, each from where the
last parse ended or failed, or from where the input was moved to. -/
inductive Session (env : Setting) : Interpreter → Prop
  | start {i : Interpreter} {tokens : Array Token} {channel start : Nat} (hi : i.Fresh)
      (hp : i.parser.strategy.policy = .recover)
      (hinput : i.recognizer.input = (TokenCursor.ofTokens tokens channel).seek start) : Session env i
  | enter {i : Interpreter} (h : Session env i) (rule : RuleId) (hr : rule < env.network.rules.size) :
      Session env (i.enter env rule 0).2
  | step {i : Interpreter} (h : Session env i) (rule : RuleId) (root : InvocationId) :
      Session env (i.step env rule root).interpreter
  | seek {i : Interpreter} (h : Session env i) (index : Nat) :
      Session env { i with parser := i.parser.modifyRecognizer fun r =>
        { r with input := r.input.seek index } }
  | reset {i : Interpreter} (h : Session env i) : Session env { i with parser := i.parser.reset }

/-- A parser that has not begun, at the first of some tokens. -/
def before (env : Setting) (tokens : Array Token) : Interpreter :=
  { parser := { recognizer := .start env ((TokenCursor.ofTokens tokens defaultChannel).seek 0) {} } }

theorem session_before (env : Setting) (tokens : Array Token) : Session env (before env tokens) :=
  .start ⟨rfl, rfl, rfl, rfl, rfl, rfl, rfl⟩ rfl rfl

/-- Invocation `id` was left for `caller`: the parse goes on where the call returns to that was made there, with
these callers still on the list, and older invocations are called from where they were. -/
structure LeavesFor (env : Setting) (i : Interpreter) (id : InvocationId) (caller : CallSite)
    (callers : List CallSite) (j : Interpreter) : Prop where
  site : j.site = (caller.1, caller.2.bind env.network.followOf?)
  callers : j.callers = callers
  size : j.recognizer.forest.size = i.recognizer.forest.size
  calls : ∀ k < id, (j.recognizer.forest.get k).call = (i.recognizer.forest.get k).call

/-- An invocation of an ordinary rule is left for where it was called from. -/
theorem leavesFor_plain {id : InvocationId} {rule : RuleId} (hid : i.recognizer.invocation = some id)
    (hl : (env.network.rule rule).leftRecursive = false) :
    LeavesFor env i id (i.recognizer.forest.get id).origin i.callers (i.leaveRule env rule) := by
  obtain ⟨stop, hforest, hinv, hstate, -⟩ := Recognizer.exitRule_eq hid
  rw [leaveRule_plain hl]
  refine ⟨?_, rfl, ?_, fun k _ => ?_⟩
  · show (i.recognizer.exitRule.invocation, i.recognizer.exitRule.state.bind _) = _
    rw [hinv, hstate]
    rfl
  · show i.recognizer.exitRule.forest.size = _
    rw [hforest, Forest.size_modify]
  · show (i.recognizer.exitRule.forest.get k).call = _
    rw [hforest]
    refine Forest.get_modify_note Invocation.call ?_ _ id k
    exact fun _ => rfl

/-- An invocation of a left-recursive rule is left for the first place on the list of callers. -/
theorem leavesFor_recursive {id : InvocationId} {rule : RuleId} {caller : CallSite} {callers : List CallSite}
    (hid : i.recognizer.invocation = some id) (hl : (env.network.rule rule).leftRecursive = true)
    (hcallers : i.callers = caller :: callers) :
    LeavesFor env i id caller callers (i.leaveRule env rule) := by
  obtain ⟨parent, state⟩ := caller
  obtain ⟨-, hforest, hinv, -⟩ := Recognizer.unrollRecursion_eq parent hid
  have hrecognizer : (i.leaveRule env rule).recognizer =
      { (i.recognizer.unrollRecursion parent).2 with state := state.bind env.network.followOf? } := by
    rw [leaveRule_recursive hl]
    unfold unroll
    rw [hcallers]
    rfl
  -- the invocation is hung below the one it returns to, and the older ones stay as they are
  have hold : ∀ k < id, ((i.recognizer.forest.modify id fun i' =>
      { i' with stop := i.recognizer.input.previousIndex, parent }).get k).call =
        (i.recognizer.forest.get k).call :=
    fun k hk => congrArg Invocation.call (Forest.get_modify_other _ _ _ _ (Nat.ne_of_lt hk))
  refine ⟨?_, ?_, ?_, fun k hk => ?_⟩
  · unfold site
    rw [hrecognizer]
    exact Prod.ext hinv rfl
  · rw [leaveRule_recursive hl]
    show i.callers.tail = callers
    rw [hcallers]
    rfl
  · rw [hrecognizer]
    dsimp only
    rw [hforest]
    cases parent with
    | none => exact Forest.size_modify _ _ _
    | some p => exact (Forest.size_modify _ _ _).trans (Forest.size_modify _ _ _)
  · rw [hrecognizer]
    dsimp only
    rw [hforest]
    cases parent with
    | none => exact hold k hk
    | some p => exact (Forest.call_addChild _ p _ k).trans (hold k hk)

/-- There is a way back from where the parser stands. -/
abbrev Returns (env : Setting) (i : Interpreter) : Prop :=
  i.recognizer.forest.GoesBack env.network i.recognizer.forest.size i.site i.callers

/-- The parser recovers from errors, its tokens are those of an input, and there is a way back from where it
stands. -/
structure Upright (env : Setting) (i : Interpreter) : Prop where
  policy : i.parser.strategy.policy = .recover
  stopped : i.recognizer.input.Stopped
  indexed : ∀ t ∈ i.recognizer.input.tokens, t.isConjured = false
  returns : i.Returns env

/-- At a state there is an invocation. -/
theorem Upright.invocation (h : i.Upright env) (hs : i.recognizer.state = some s) :
    ∃ id, i.recognizer.invocation = some id ∧ id < i.recognizer.forest.size ∧
      i.recognizer.forest.Stands env.network id s :=
  h.returns.stands hs

theorem returns_of_ended (hs : i.recognizer.state = none) : i.Returns env := by
  unfold Returns site
  rw [hs]
  exact .ended _

theorem upright_start {tokens : Array Token} {channel start : Nat} (hi : i.Fresh)
    (hp : i.parser.strategy.policy = .recover)
    (hinput : i.recognizer.input = (TokenCursor.ofTokens tokens channel).seek start) :
    i.Upright env := by
  obtain ⟨hstop, hindex⟩ := stopped_of_input hinput
  exact ⟨hp, hstop, hindex, returns_of_ended hi.state⟩

/-- A deed adds leaves and passes tokens. -/
theorem Upright.deed (h : i.Upright env) (hs : i.recognizer.state = some s) {p : Parser}
    (hd : Deed env i.parser p) : ({ i with parser := p } : Interpreter).Upright env := by
  obtain ⟨id, hid, hlt, -⟩ := h.invocation hs
  obtain ⟨-, added, passed, hg, -, hp, -⟩ := hd.grows hid hlt h.stopped
  have hsame := (Deeds.samePlace (.single hd) : i.recognizer.SamePlace p.recognizer)
  have hsite : (p.recognizer.invocation, p.recognizer.state) = i.site :=
    Prod.ext hsame.invocation hsame.state
  refine ⟨(policy_deeds (.single hd)).trans h.policy, hp.stopped h.stopped, ?_, ?_⟩
  · show ∀ t ∈ p.recognizer.input.tokens, _
    rw [hp.along.tokens]
    exact h.indexed
  · show p.recognizer.forest.GoesBack _ _ (p.recognizer.invocation, p.recognizer.state) i.callers
    rw [hsite]
    exact h.returns.congr (Nat.le_of_eq hg.size_eq.symm) fun j hj =>
      Prod.ext (hg.toExtends.rule j hj) (hsame.origin j)

/-- What changes the tree and the place in the network only. -/
theorem Upright.of_onlyTree (h : i.Upright env) (ht : i.recognizer.OnlyTree i'.recognizer)
    (hp : i'.parser.strategy = i.parser.strategy) (hback : i'.Returns env) : i'.Upright env where
  policy := hp ▸ h.policy
  stopped := ht.input ▸ h.stopped
  indexed := ht.input ▸ h.indexed
  returns := hback

/-- Going to another state of the rule. -/
theorem Upright.goTo (h : i.Upright env) (hs : i.recognizer.state = some s) {next : StateId}
    (hrule : (env.network.state next).rule = (env.network.state s).rule) :
    (i.goTo (some next)).Upright env := by
  obtain ⟨id, hid, -⟩ := h.invocation hs
  have hreturns := h.returns
  refine h.of_onlyTree ⟨rfl, rfl, rfl, rfl, rfl⟩ rfl ?_
  show i.recognizer.forest.GoesBack _ _ (i.recognizer.invocation, some next) i.callers
  unfold Returns site at hreturns
  rw [hid, hs] at hreturns
  rw [hid]
  exact hreturns.goTo hrule

variable {levels : RuleId → Int → Prop}

theorem Upright.shape (h : i.Upright env) (hshape : env.network.Shaped levels)
    (hs : i.recognizer.state = some s) : RuleShape env.network.state (env.network.state s).rule
      (env.network.rule (env.network.state s).rule) (levels (env.network.state s).rule)
      env.network.states.size := by
  obtain ⟨id, -, -, hst⟩ := h.invocation hs
  apply hshape.rule
  rw [hst.rule]
  exact hst.known

/-- Another round takes the place of the innermost invocation. -/
theorem Upright.round (h : i.Upright env) (hs : i.recognizer.state = some s) (start : StateId) :
    ({ i with parser := i.parser.modifyRecognizer fun r =>
      (r.pushRecursion start (env.network.state s).rule).2 } : Interpreter).Upright env := by
  obtain ⟨id, hid, hlt, hst⟩ := h.invocation hs
  have hreturns := h.returns
  unfold Returns site at hreturns
  rw [hid, hs] at hreturns
  obtain ⟨hinv, hstate, hsize, hnew, hold⟩ :=
    Recognizer.calls_pushRecursion hid hlt start (env.network.state s).rule
  have hrule : ((i.recognizer.pushRecursion start (env.network.state s).rule).2.forest.get
      i.recognizer.forest.size).rule = (env.network.state s).rule := congrArg Prod.fst hnew
  refine h.of_onlyTree (i.recognizer.onlyTree_pushRecursion _ _) rfl ?_
  show Forest.GoesBack _ (i.recognizer.pushRecursion start _).2.forest _
    ((i.recognizer.pushRecursion start _).2.invocation, (i.recognizer.pushRecursion start _).2.state) i.callers
  rw [hinv, hstate, hs]
  refine hreturns.renew (Nat.le_of_lt hlt) ?_ ⟨hrule.symm, ?_⟩ (hnew.trans (Prod.ext hst.rule rfl)) hold
  · show i.recognizer.forest.size < (i.recognizer.pushRecursion start _).2.forest.size
    exact Nat.lt_of_lt_of_eq (Nat.lt_succ_self _) hsize.symm
  · exact hrule.trans hst.rule ▸ hst.known

/-- Opening an invocation notes where it was called from. -/
theorem Upright.enter (h : i.Upright env) (hshape : env.network.Shaped levels) {c : RuleId}
    (hc : c < env.network.rules.size) (precedence : Int) : (i.enter env c precedence).2.Upright env := by
  have honly := @onlyTree_enter env i c precedence
  generalize hen : i.enter env c precedence = result at honly
  obtain ⟨halt | id, i'⟩ := result
  · obtain ⟨rfl, -⟩ := enter_eq_error hen
    exact h
  have henters := enters_of_enter hen
  obtain ⟨hsize, hnew, hold⟩ := henters.calls fun hs => by
    obtain ⟨s, hs⟩ := Option.isSome_iff_exists.1 hs
    obtain ⟨id, hid, -⟩ := h.invocation hs
    rw [hid]
    rfl
  obtain ⟨rfl, hinv, hstate, -, hcallers, -⟩ := henters
  obtain ⟨honly, hstrategy⟩ := honly
  have hback : i'.recognizer.forest.GoesBack env.network i.recognizer.forest.size i.site i.callers :=
    h.returns.congr (Nat.le_refl _) hold
  have hrule : (i'.recognizer.forest.get i.recognizer.forest.size).rule = c := congrArg Prod.fst hnew
  have hstands : i'.recognizer.forest.Stands env.network i.recognizer.forest.size
      (env.network.rule c).start :=
    ⟨(hshape.rule _ hc).start_rule.trans hrule.symm, hrule ▸ hc⟩
  have hlt : i.recognizer.forest.size < i'.recognizer.forest.size := hsize ▸ Nat.lt_succ_self _
  refine h.of_onlyTree honly hstrategy ?_
  unfold Returns site
  rw [hinv, hstate, hcallers]
  cases hl : (env.network.rule c).leftRecursive with
  | false =>
    refine .plain hlt hstands (hrule ▸ hl) ?_
    rw [show (i'.recognizer.forest.get i.recognizer.forest.size).origin = i.site from congrArg Prod.snd hnew]
    exact hback
  | true => exact .recursive hlt hstands (hrule ▸ hl) hback

/-- Leaving an invocation goes back to where it was called from. -/
theorem Upright.leaveRule (h : i.Upright env) (hshape : env.network.Shaped levels)
    (hs : i.recognizer.state = some s) : (i.leaveRule env (env.network.state s).rule).Upright env := by
  obtain ⟨id, hid, hlt, hst⟩ := h.invocation hs
  have hreturns := h.returns
  unfold Returns site at hreturns
  rw [hid, hs] at hreturns
  have hleft : ∃ caller callers, i.recognizer.forest.GoesBack env.network id caller callers ∧
      LeavesFor env i id caller callers (i.leaveRule env (env.network.state s).rule) := by
    cases hl : (env.network.rule (env.network.state s).rule).leftRecursive with
    | false => exact ⟨_, _, hreturns.of_plain (hst.rule ▸ hl), leavesFor_plain hid hl⟩
    | true =>
      obtain ⟨caller, callers, hcallers, hback⟩ := hreturns.of_recursive (hst.rule ▸ hl)
      exact ⟨caller, callers, hback, leavesFor_recursive hid hl hcallers⟩
  obtain ⟨caller, callers, hback, hleft⟩ := hleft
  have honly := @onlyTree_leaveRule env i (env.network.state s).rule
  refine h.of_onlyTree honly.1 honly.2 ?_
  unfold Returns
  rw [hleft.site, hleft.callers]
  exact (hback.follow hshape).congr (hleft.size ▸ Nat.le_of_lt hlt) hleft.calls

/-- Closing the outermost invocation leaves no state to go on at. -/
theorem state_finish {id : InvocationId} (hid : i.recognizer.invocation = some id)
    (hout : i.isOutermost = true) (rule : RuleId) (root : InvocationId) :
    (i.finish env rule root).2.recognizer.state = none := by
  have hcaller : (i.recognizer.forest.get id).caller = none := by
    unfold isOutermost at hout
    rw [hid] at hout
    exact Option.isNone_iff_eq_none.1 hout
  unfold Interpreter.finish
  split
  · show (i.recognizer.unrollRecursion _).2.state = none
    unfold Recognizer.unrollRecursion
    simp only [hid, hcaller]
  · obtain ⟨-, -, -, hstate, -⟩ := Recognizer.exitRule_eq hid
    exact hstate.trans hcaller

/-- At the end of a parse there is no state to go on at. -/
theorem Upright.finish (h : i.Upright env) (hs : i.recognizer.state = some s)
    (hout : i.isOutermost = true) (rule : RuleId) (root : InvocationId) :
    (i.finish env rule root).2.Upright env := by
  obtain ⟨id, hid, -⟩ := h.invocation hs
  have hstrategy : (i.finish env rule root).2.parser.strategy = i.parser.strategy := by
    unfold Interpreter.finish
    split <;> rfl
  exact h.of_onlyTree (onlyTree_finish rule root) hstrategy (returns_of_ended (state_finish hid hout rule root))

/-- Every move keeps the parser upright, and at a state. -/
theorem Upright.moves (h : i.Upright env) (hshape : env.network.Shaped levels)
    (hs : i.recognizer.state = some s) (hm : Moves env i i') :
    i'.Upright env ∧ ∃ s', i'.recognizer.state = some s' := by
  induction hm with
  | refl => exact ⟨h, s, hs⟩
  | tail _ hmove ih =>
    obtain ⟨hj, s', hs'⟩ := ih
    cases hmove with
    | deed hd => exact ⟨hj.deed hs' hd, s', (state_deeds (.single hd)).trans hs'⟩
    | @pass st t hst ht hcall =>
      refine ⟨hj.goTo hst ?_, _, rfl⟩
      rw [← Transition.next_eq_target hcall]
      exact ((hj.shape hshape hst).next st rfl t ht).2
    | @skip st hst => exact ⟨hj.goTo hst (hj.shape hshape hst).stop_rule, _, rfl⟩
    | @round st hst hmark =>
      obtain ⟨id, hid, hlt, -⟩ := hj.invocation hst
      obtain ⟨-, hstate, -⟩ := Recognizer.calls_pushRecursion hid hlt
        (env.network.rule (env.network.state st).rule).start (env.network.state st).rule
      exact ⟨hj.round hst _, st, hstate.trans hst⟩
    | @enter st t c follow precedence id j hst ht hk he =>
      obtain ⟨hc, htarget⟩ := hshape.call st t ht c follow precedence hk
      have hj' := hj.enter hshape hc precedence
      rw [he] at hj'
      refine ⟨hj'.goTo (enters_of_enter he).state ?_, _, rfl⟩
      rw [htarget]

/-- Every step keeps the parser upright. -/
theorem Upright.step (h : i.Upright env) (hshape : env.network.Shaped levels) (rule : RuleId)
    (root : InvocationId) : (i.step env rule root).interpreter.Upright env := by
  cases hs : i.recognizer.state with
  | none =>
    rw [step_of_none hs]
    exact h
  | some s =>
    generalize hstep : i.step env rule root = progress
    cases progress with
    | running i' =>
      rcases moves_step.1 i' hstep with hmoves | ⟨_, hs', -, -, rfl⟩
      · exact (h.moves hshape hs hmoves).1
      · exact h.leaveRule hshape hs'
    | finished outcome i' =>
      cases outcome with
      | error halt => exact (h.moves hshape hs (moves_step.2 halt i' hstep)).1
      | ok id =>
        rcases step_finished hstep with hnone | ⟨_, hs', -, hout, hfin⟩
        · rw [hs] at hnone
          cases hnone
        · have hfinish := h.finish hs' hout rule root
          rw [hfin] at hfinish
          exact hfinish

theorem Upright.seek (h : i.Upright env) (index : Nat) :
    ({ i with parser := i.parser.modifyRecognizer fun r =>
      { r with input := r.input.seek index } } : Interpreter).Upright env where
  policy := h.policy
  stopped := TokenCursor.stopped_moveTo _ _
  indexed := h.indexed
  returns := h.returns

theorem Upright.reset (h : i.Upright env) :
    ({ i with parser := i.parser.reset } : Interpreter).Upright env where
  policy := h.policy
  stopped := TokenCursor.stopped_moveTo _ _
  indexed := h.indexed
  returns := returns_of_ended rfl

/-- Whatever one parser has parsed, it is upright. -/
theorem Session.upright (hg : g.compile = .ok env.grammar) (h : Session env i) : i.Upright env := by
  obtain ⟨hshape, -⟩ := Grammar.shaped_compile hg
  induction h with
  | start hi hp hinput => exact upright_start hi hp hinput
  | enter _ _ hr ih => exact ih.enter hshape hr 0
  | step _ rule root ih => exact ih.step hshape rule root
  | seek _ index ih => exact ih.seek index
  | reset _ ih => exact ih.reset

end Interpreter

end AdaptiveParsing
