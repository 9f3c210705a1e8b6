import AdaptiveParsing.Proofs.Network.Homing
import AdaptiveParsing.Proofs.Recognition.Bail
import AdaptiveParsing.Proofs.Recognition.Sessions
/-!
Where calls return to. The parse notes the state a call was made at, not its edge, and on the way back takes the
first call that leaves that state. In a network whose calls return to one state each (`Network.Homing`) every
call that is open (`Interpreter.InCalls`) returns where its edge says, in the parse and in lookahead alike.
Main statement: `Interpreter.calls_return`. A state whose calls part has only one of them return where it should
(`returns_elsewhere`).
-/

namespace AdaptiveParsing

open Relation AdaptiveParsing.Parser

variable {env : Setting}

/-- A call that has not returned: the invocation it was made in, and the state it returns to. A parse that was
begun from outside is a call too, and where it returns to is not said. -/
structure OpenCall where
  caller : Option InvocationId
  back : Option StateId
deriving DecidableEq, Inhabited, Repr

namespace Forest

variable {n : Network} {f f' : Forest} {bound bound' id new : InvocationId} {s next back : StateId}
  {site : CallSite} {callers : List CallSite} {calls : List OpenCall}

/-- From a place on, through invocations older than `bound`, open calls return where they say, and on the list of
callers are those of the left-recursive rules among them. Where there is no state there are no open calls. -/
inductive Owes (n : Network) (f : Forest) : InvocationId → CallSite → List CallSite → List OpenCall → Prop
  | ended {bound : InvocationId} {callers : List CallSite} (id : Option InvocationId) :
      Owes n f bound (id, none) callers []
  | inside {bound id : InvocationId} {s : StateId} {callers rest : List CallSite} {call : OpenCall}
      {calls : List OpenCall} (hlt : id < bound) (hs : (n.state s).rule < n.rules.size)
      (hcaller : (f.get id).parent = call.caller)
      (hback : ∀ back, call.back = some back → (f.get id).caller.bind n.followOf? = some back)
      (hcallers : callers =
        if (n.rule (n.state s).rule).leftRecursive then (f.get id).origin :: rest else rest)
      (h : Owes n f id (f.get id).origin rest calls) :
      Owes n f bound (some id, some s) callers (call :: calls)

/-- Open calls depend on where older invocations were called from only. -/
theorem Owes.congr (h : f.Owes n bound site callers calls) (hle : bound ≤ bound')
    (horigin : ∀ id < bound, (f'.get id).origin = (f.get id).origin) :
    f'.Owes n bound' site callers calls := by
  induction h generalizing bound' with
  | ended id => exact .ended id
  | @inside bound id s callers rest call calls hlt hs hcaller hback hcallers _ ih =>
    have hsame := horigin id hlt
    have hold := ih (Nat.le_refl id) fun j hj => horigin j (Nat.lt_trans hj hlt)
    rw [← hsame] at hcallers hold
    refine .inside (Nat.lt_of_lt_of_le hlt hle) hs ((congrArg Prod.fst hsame).trans hcaller) ?_ hcallers hold
    intro back hcall
    rw [show (f'.get id).caller = (f.get id).caller from congrArg Prod.snd hsame]
    exact hback back hcall

/-- They are the same at all states of the rule, and for a new invocation in the place of the old. -/
theorem Owes.renew (h : f.Owes n bound (some id, some s) callers calls) (hle : id ≤ new) (hlt : new < bound')
    (hrule : (n.state next).rule = (n.state s).rule) (hnew : (f'.get new).origin = (f.get id).origin)
    (hold : ∀ j < id, (f'.get j).origin = (f.get j).origin) :
    f'.Owes n bound' (some new, some next) callers calls := by
  cases h with
  | inside _ hs hcaller hback hcallers h =>
    have holder := h.congr hle hold
    rw [← hnew] at hcallers holder
    refine .inside hlt (hrule ▸ hs) ((congrArg Prod.fst hnew).trans hcaller) ?_ (hrule ▸ hcallers) holder
    intro back hcall
    rw [show (f'.get new).caller = (f.get id).caller from congrArg Prod.snd hnew]
    exact hback back hcall

theorem Owes.goTo (h : f.Owes n bound (some id, some s) callers calls)
    (hrule : (n.state next).rule = (n.state s).rule) : f.Owes n bound (some id, some next) callers calls := by
  cases h with
  | inside hlt hs hcaller hback hcallers h => exact .inside hlt (hrule ▸ hs) hcaller hback (hrule ▸ hcallers) h

/-- A call returns to a state of the same rule. -/
theorem Owes.follow (h : f.Owes n bound site callers calls) (hn : n.Homing)
    (hback : site.2.bind n.followOf? = some back) : f.Owes n bound (site.1, some back) callers calls := by
  cases h with
  | ended => cases hback
  | inside hlt hs hcaller hback' hcallers h =>
    exact (Owes.inside hlt hs hcaller hback' hcallers h).goTo (hn.rule_back hback)

/-- At a state there is an invocation, and it was called. -/
theorem Owes.invocation (h : f.Owes n bound site callers calls) (hs : site.2 = some s) :
    ∃ id, site.1 = some id ∧ id < bound ∧ (n.state s).rule < n.rules.size := by
  cases h with
  | ended => cases hs
  | inside hlt hknown =>
    cases hs
    exact ⟨_, rfl, hlt, hknown⟩

/-- Once the calls inside it have returned, the invocation that a call opened is left for where the call says. -/
theorem Owes.liveReturn {inner outer : List OpenCall} {call : OpenCall}
    (h : f.Owes n bound site callers (inner ++ call :: outer)) (hcall : call.back = some back) :
    ∃ live caller, inner.foldl (fun _ call => call.caller) site.1 = some live ∧ call.caller = some caller ∧
      (f.get live).parent = some caller ∧ (f.get live).caller.bind n.followOf? = some back := by
  induction inner generalizing bound site callers with
  | nil =>
    cases h with
    | @inside bound id _ _ _ _ _ _ _ hcaller hback _ h =>
      have hfollow := hback back hcall
      obtain ⟨p, hp, -⟩ := Option.bind_eq_some_iff.1 hfollow
      obtain ⟨caller, hparent, -⟩ := h.invocation (s := p) hp
      exact ⟨id, caller, rfl, hcaller.symm.trans hparent, hparent, hfollow⟩
  | cons first inner ih =>
    cases h with
    | inside _ _ hcaller _ _ h =>
      rw [List.foldl_cons, ← hcaller]
      exact ih h

end Forest

theorem Simulation.liveReturn?_eq {sim : Simulation} {id parent : InvocationId} {back : StateId}
    (hparent : (sim.forest.get id).parent = some parent)
    (hback : (sim.forest.get id).caller.bind sim.network.followOf? = some back) :
    sim.liveReturn? id = some { state := back
                                precedence := (sim.forest.get parent).precedence
                                placement := .invocation parent } := by
  obtain ⟨caller, hcaller, hfollow⟩ := Option.bind_eq_some_iff.1 hback
  simp [liveReturn?, hparent, hcaller, hfollow]

namespace Interpreter

variable {i i' j : Interpreter} {s next : StateId} {calls : List OpenCall}

/-- Where the parser stands at a state, the open calls return where they say. -/
def Owes (env : Setting) (i : Interpreter) (calls : List OpenCall) : Prop :=
  ∀ s, i.recognizer.state = some s → i.recognizer.forest.Owes env.network i.recognizer.forest.size
    (i.recognizer.invocation, some s) i.callers calls

theorem Owes.of_ended (hs : i.recognizer.state = none) : i.Owes env calls := by
  intro s hs'
  rw [hs] at hs'
  cases hs'

theorem Owes.invocation (h : i.Owes env calls) (hs : i.recognizer.state = some s) :
    ∃ id, i.recognizer.invocation = some id ∧ id < i.recognizer.forest.size ∧
      (env.network.state s).rule < env.network.rules.size ∧
      i.recognizer.forest.Owes env.network i.recognizer.forest.size (some id, some s) i.callers calls := by
  have howes := h s hs
  obtain ⟨id, hid, hlt, hknown⟩ := howes.invocation rfl
  dsimp only at hid
  rw [hid] at howes
  exact ⟨id, hid, hlt, hknown, howes⟩

/-- Open calls depend on where the parse stands only. -/
theorem Owes.samePlace (h : i.Owes env calls) (hc : i'.callers = i.callers)
    (hsame : i.recognizer.SamePlace i'.recognizer) : i'.Owes env calls := by
  intro s hs
  rw [hsame.state] at hs
  rw [hsame.invocation, hc]
  exact (h s hs).congr (Nat.le_of_eq hsame.size.symm) fun id _ => hsame.origin id

theorem Owes.goTo (h : i.Owes env calls) (hs : i.recognizer.state = some s)
    (hrule : (env.network.state next).rule = (env.network.state s).rule) :
    (i.goTo (some next)).Owes env calls := by
  obtain ⟨id, hid, -, -, howes⟩ := h.invocation hs
  intro s' hs'
  cases hs'
  show i.recognizer.forest.Owes _ _ (i.recognizer.invocation, some next) i.callers calls
  rw [hid]
  exact howes.goTo hrule

/-- Another round is called from where the invocation was called from whose place it takes. -/
theorem Owes.round (h : i.Owes env calls) (hs : i.recognizer.state = some s) (start : StateId)
    (rule : RuleId) : ({ i with parser := i.parser.modifyRecognizer fun r =>
      (r.pushRecursion start rule).2 } : Interpreter).Owes env calls := by
  obtain ⟨id, hid, hlt, -, howes⟩ := h.invocation hs
  obtain ⟨hinv, hstate, hsize, hnew, hold⟩ := Recognizer.calls_pushRecursion hid hlt start rule
  intro s' hs'
  have hss : s' = s := by
    have := hstate.symm.trans hs'
    rw [hs] at this
    exact (Option.some.inj this).symm
  subst hss
  show (i.recognizer.pushRecursion start rule).2.forest.Owes _ (i.recognizer.pushRecursion start rule).2.forest.size
    ((i.recognizer.pushRecursion start rule).2.invocation, some s') i.callers calls
  rw [hinv]
  refine howes.renew (Nat.le_of_lt hlt) ?_ rfl (congrArg Prod.snd hnew) fun k hk => ?_
  · rw [hsize]
    exact Nat.lt_succ_self _
  · exact Invocation.origin_of_call (hold k hk)

/-- A new invocation owes what its call says. -/
theorem Owes.enter (h : i.Owes env calls) (hw : env.network.Wired) {c : RuleId}
    (hc : c < env.network.rules.size) {precedence : Int} {id : InvocationId}
    (he : i.enter env c precedence = (.ok id, i')) {back : Option StateId}
    (hback : ∀ b, back = some b → i.recognizer.state.bind env.network.followOf? = some b) :
    i'.Owes env (⟨i.recognizer.invocation, back⟩ :: if i.recognizer.state.isSome then calls else []) := by
  have henters := enters_of_enter he
  obtain ⟨hsize, hnew, hold⟩ := henters.calls fun hs => by
    obtain ⟨s, hs⟩ := Option.isSome_iff_exists.1 hs
    obtain ⟨id, hid, -⟩ := h.invocation hs
    rw [hid]
    rfl
  obtain ⟨rfl, hinv, hstate, -, hcallers, -⟩ := henters
  have horigin : (i'.recognizer.forest.get i.recognizer.forest.size).origin = i.site := congrArg Prod.snd hnew
  have hout : i'.recognizer.forest.Owes env.network i.recognizer.forest.size i.site i.callers
      (if i.recognizer.state.isSome then calls else []) := by
    unfold site
    cases hs : i.recognizer.state with
    | none => exact .ended _
    | some s => exact (h s hs).congr (Nat.le_refl _) fun k hk => Invocation.origin_of_call (hold k hk)
  intro s hs
  rw [hstate] at hs
  cases hs
  rw [hinv]
  refine .inside ?_ ?_ (congrArg Prod.fst horigin) ?_ ?_ (horigin ▸ hout)
  · rw [hsize]
    exact Nat.lt_succ_self _
  · rw [hw.start c hc]
    exact hc
  · intro b hb
    rw [show (i'.recognizer.forest.get i.recognizer.forest.size).caller = i.recognizer.state from
      congrArg Prod.snd horigin]
    exact hback b hb
  · rw [hw.start c hc, hcallers, horigin]
    rfl

/-- Leaving an invocation returns from its call. -/
theorem Owes.leaveRule (h : i.Owes env calls) (hn : env.network.Homing) (hs : i.recognizer.state = some s) :
    ∃ call rest, calls = call :: rest ∧ (i.leaveRule env (env.network.state s).rule).Owes env rest ∧
      (i.leaveRule env (env.network.state s).rule).recognizer.invocation = call.caller ∧
      ∀ back, call.back = some back →
        (i.leaveRule env (env.network.state s).rule).recognizer.state = some back := by
  obtain ⟨id, hid, hlt, -, howes⟩ := h.invocation hs
  cases howes with
  | @inside _ _ _ _ rest call calls _ _ hcaller hback hcallers hout =>
    have hleft : LeavesFor env i id (i.recognizer.forest.get id).origin rest
        (i.leaveRule env (env.network.state s).rule) := by
      cases hl : (env.network.rule (env.network.state s).rule).leftRecursive with
      | false =>
        rw [hl] at hcallers
        have hplain := @leavesFor_plain env i id _ hid hl
        rwa [show i.callers = rest from hcallers] at hplain
      | true =>
        rw [hl] at hcallers
        exact leavesFor_recursive hid hl hcallers
    generalize i.leaveRule env (env.network.state s).rule = j at hleft
    have hinv : j.recognizer.invocation = (i.recognizer.forest.get id).parent := congrArg Prod.fst hleft.site
    have hstate : j.recognizer.state = (i.recognizer.forest.get id).caller.bind env.network.followOf? :=
      congrArg Prod.snd hleft.site
    refine ⟨call, calls, rfl, ?_, hinv.trans hcaller, fun back hcall => hstate.trans (hback back hcall)⟩
    intro s' hs'
    rw [hinv, hleft.callers, hleft.size]
    refine (hout.follow hn (hstate.symm.trans hs')).congr (Nat.le_of_lt hlt) fun k hk => ?_
    exact Invocation.origin_of_call (hleft.calls k hk)

/-- Where the call returns to that following the edge makes, if it makes one. -/
def callOn (env : Setting) (i : Interpreter) (t : Transition) : Option StateId :=
  match t.kind with
  | .rule c follow precedence => if (i.enter env c precedence).1.isOk then some follow else none
  | _ => none

/-- Where the call returns to that leaving a state makes, if it makes one. -/
def callMade (env : Setting) (i : Interpreter) (here : NetworkState) : Option StateId :=
  match i.run (chooseEdge env here) with
  | (.ok alt, j) => here.transitions[alt - 1]?.bind (j.callOn env)
  | (.error _, _) => none

/-- The open calls once this one is made, if it is one. -/
def withCall (i : Interpreter) (back : Option StateId) (calls : List OpenCall) : List OpenCall :=
  match back with
  | some back => ⟨i.recognizer.invocation, some back⟩ :: calls
  | none => calls

/-- The open calls after the next step: at the end of a rule the innermost one is returned from. -/
def callsAfter (env : Setting) (i : Interpreter) (calls : List OpenCall) : List OpenCall :=
  match i.recognizer.state with
  | none => calls
  | some s =>
    let here := env.network.state s
    if here.isRuleStop then calls.tail else i.withCall (i.callMade env here) calls

/-- Following an edge opens the call that it makes, if it makes one. An edge that is not followed to its end makes
none. -/
theorem Owes.followEdge (h : i.Owes env calls) (hw : env.network.Wired) (hn : env.network.Homing)
    (hs : i.recognizer.state = some s) {t : Transition} (ht : t ∈ (env.network.state s).transitions)
    {outcome : Except Halt Unit} (hf : i.followEdge env (env.network.state s) t = (outcome, i')) :
    i'.Owes env (i.withCall (i.callOn env t) calls) ∧
      ∀ halt, outcome = .error halt → i'.recognizer.state = some s ∧ i.callOn env t = none := by
  have hinside := hn.inside s (Network.lt_of_edge ht) t ht
  unfold Interpreter.followEdge at hf
  unfold callOn
  cases hk : t.kind with
  | rule c follow precedence =>
    rw [hk] at hf
    dsimp only at hf ⊢
    generalize he : i.enter env c precedence = entered at hf
    obtain ⟨halt | id, i₁⟩ := entered
    · cases hf
      obtain ⟨rfl, -⟩ := enter_eq_error he
      exact ⟨h, fun _ _ => ⟨hs, rfl⟩⟩
    · cases hf
      obtain ⟨hc, htarget⟩ := hw.call s t ht c follow precedence hk
      have hback : ∀ b, some follow = some b → i.recognizer.state.bind env.network.followOf? = some b := by
        intro b hb
        rw [hs, Option.bind_some, hn.followOf?_eq ht (by simp [Transition.call?, hk]), Transition.next, hk]
        exact hb
      have hopened := h.enter hw hc he hback
      rw [hs] at hopened
      refine ⟨hopened.goTo (enters_of_enter he).state (by rw [htarget]), fun halt hhalt => ?_⟩
      cases hhalt
  | _ =>
    rw [Transition.next_eq_target (by simp [Transition.call?, hk])] at hinside
    rw [hk] at hf
    dsimp only [run] at hf
    have hp := @deeds_passEdge env (env.network.state s) t i.parser
    generalize passEdge env (env.network.state s) t i.parser = passed at hf hp
    obtain ⟨halt | u, p⟩ := passed
    · cases hf
      rcases hp with hd | ⟨-, he⟩
      · exact ⟨h.samePlace rfl hd.samePlace, fun _ _ => ⟨(state_deeds hd).trans hs, rfl⟩⟩
      · cases he
    · cases hf
      refine ⟨?_, fun halt hhalt => by cases hhalt⟩
      rcases hp with hd | ⟨-, he⟩
      · have hpassed : ({ i with parser := p } : Interpreter).Owes env calls := h.samePlace rfl hd.samePlace
        exact hpassed.goTo ((state_deeds hd).trans hs) hinside
      · cases he
        obtain ⟨id, hid, hlt, -⟩ := h.invocation hs
        obtain ⟨-, hstate, -⟩ := Recognizer.calls_pushRecursion hid hlt
          (env.network.rule (env.network.state s).rule).start (env.network.state s).rule
        exact (h.round hs _ _).goTo (hstate.trans hs) hinside

theorem Owes.visit (h : i.Owes env calls) (hw : env.network.Wired) (hn : env.network.Homing)
    (hs : i.recognizer.state = some s) {outcome : Except Halt Unit}
    (hv : i.visit env (env.network.state s) = (outcome, i')) :
    i'.Owes env (i.withCall (i.callMade env (env.network.state s)) calls) ∧
      ∀ halt, outcome = .error halt →
        i'.recognizer.state = some s ∧ i.callMade env (env.network.state s) = none := by
  have hd := @deeds_chooseEdge env (env.network.state s) i.parser
  unfold Interpreter.visit at hv
  unfold callMade
  dsimp only [run] at hv ⊢
  generalize chooseEdge env (env.network.state s) i.parser = result at hv hd ⊢
  obtain ⟨halt | alt, p⟩ := result
  · cases hv
    exact ⟨h.samePlace rfl hd.samePlace, fun _ _ => ⟨(state_deeds hd).trans hs, rfl⟩⟩
  · have hchosen : ({ i with parser := p } : Interpreter).Owes env calls := h.samePlace rfl hd.samePlace
    have hstate : ({ i with parser := p } : Interpreter).recognizer.state = some s := (state_deeds hd).trans hs
    have hinv : ({ i with parser := p } : Interpreter).recognizer.invocation = i.recognizer.invocation :=
      hd.samePlace.invocation
    dsimp only at hv ⊢
    cases ht : (env.network.state s).transitions[alt - 1]? with
    | none =>
      rw [ht] at hv
      cases hv
      exact ⟨hchosen, fun _ _ => ⟨hstate, rfl⟩⟩
    | some t =>
      rw [ht] at hv
      have hfollowed := hchosen.followEdge hw hn hstate (List.mem_of_getElem? ht) hv
      unfold withCall at hfollowed ⊢
      rw [hinv] at hfollowed
      exact hfollowed

/-- Recovery goes to the stop of the rule. -/
theorem Owes.recoverFrom (h : i.Owes env calls) (hw : env.network.Wired) (hs : i.recognizer.state = some s)
    (e : RecognitionError) : (i.recoverFrom env (env.network.state s) e).2.Owes env calls := by
  obtain ⟨-, -, -, hknown, -⟩ := h.invocation hs
  have hskip := h.goTo hs (hw.stop _ hknown)
  exact hskip.samePlace rfl (deeds_handle (.error (.failure (.recognition e))) _).samePlace

/-- One step of a parse. -/
theorem Owes.step (h : i.Owes env calls) (hw : env.network.Wired) (hn : env.network.Homing) (rule : RuleId)
    (root : InvocationId) : (i.step env rule root).interpreter.Owes env (i.callsAfter env calls) := by
  cases hs : i.recognizer.state with
  | none =>
    rw [step_of_none hs]
    exact .of_ended hs
  | some s =>
    obtain ⟨id, hid, -⟩ := h.invocation hs
    unfold Interpreter.step callsAfter
    rw [hs]
    dsimp only
    cases hstop : (env.network.state s).isRuleStop with
    | true =>
      rw [if_pos rfl, if_pos rfl]
      cases hout : i.isOutermost with
      | true => exact .of_ended (state_finish hid hout rule root)
      | false =>
        obtain ⟨call, rest, rfl, hleft, -⟩ := h.leaveRule hn hs
        exact hleft
    | false =>
      rw [if_neg Bool.false_ne_true, if_neg Bool.false_ne_true]
      generalize hv : i.visit env (env.network.state s) = result
      obtain ⟨outcome, i₁⟩ := result
      obtain ⟨hvisited, hfailed⟩ := h.visit hw hn hs hv
      obtain halt | u := outcome
      · obtain ⟨hs₁, hnone⟩ := hfailed halt rfl
        rw [hnone] at hvisited ⊢
        rcases halt with (e | ⟨_, _⟩ | e) | d
        · have hrecovered := hvisited.recoverFrom hw hs₁ e
          dsimp only
          generalize i₁.recoverFrom env (env.network.state s) e = recovered at hrecovered ⊢
          obtain ⟨halt | u, i₂⟩ := recovered <;> exact hrecovered
        all_goals exact hvisited
      · exact hvisited

/-- What one interpreter comes to that parses one rule after another, each from where the last parse ended or
failed, and the calls that are open then, innermost first. In between the input may be moved, and other parses may
add to what lookahead knows. -/
inductive InCalls (env : Setting) : Interpreter → List OpenCall → Prop
  | start {i : Interpreter} (hs : i.recognizer.state = none) : InCalls env i []
  | enter {i i' : Interpreter} {calls : List OpenCall} (h : InCalls env i calls) {rule : RuleId}
      (hr : rule < env.network.rules.size) {root : InvocationId} (he : i.enter env rule 0 = (.ok root, i')) :
      InCalls env i' (⟨i.recognizer.invocation, none⟩ :: if i.recognizer.state.isSome then calls else [])
  | step {i : Interpreter} {calls : List OpenCall} (h : InCalls env i calls) (rule : RuleId)
      (root : InvocationId) : InCalls env (i.step env rule root).interpreter (i.callsAfter env calls)
  | stay {i i' : Interpreter} {calls : List OpenCall} (h : InCalls env i calls) (hc : i'.callers = i.callers)
      (hsame : i.recognizer.SamePlace i'.recognizer) : InCalls env i' calls
  | reset {i : Interpreter} {calls : List OpenCall} (h : InCalls env i calls) :
      InCalls env { i with parser := i.parser.reset } []

/-- In whatever course of parses, open calls return where they say. -/
theorem InCalls.owes (h : InCalls env i calls) (hw : env.network.Wired) (hn : env.network.Homing) :
    i.Owes env calls := by
  induction h with
  | start hs => exact .of_ended hs
  | enter _ hr he ih => exact ih.enter hw hr he fun _ hb => by cases hb
  | step _ rule root ih => exact ih.step hw hn rule root
  | stay _ hc hsame ih => exact ih.samePlace hc hsame
  | reset _ _ => exact .of_ended rfl

/-- The invocation that the parse is in once these calls have returned. -/
def backIn (i : Interpreter) (calls : List OpenCall) : Option InvocationId :=
  calls.foldl (fun _ call => call.caller) i.recognizer.invocation

/-- Every call returns where its edge says: the parse, when the innermost open call comes to the end of a rule,
and lookahead in full context, when it comes to the end of a rule in the invocation that any of them opened. -/
theorem calls_return {d : Draft} (hd : d.Made) (hb : d.build = .ok env.network) (hn : env.network.Homing)
    {inner outer : List OpenCall} {call : OpenCall} {back : StateId}
    (h : InCalls env i (inner ++ call :: outer)) (hcall : call.back = some back)
    (hs : i.recognizer.state = some s) :
    (inner = [] → (env.network.state s).isRuleStop = true → ∀ rule root,
      ∃ j, i.step env rule root = .running j ∧ j.site = (call.caller, some back)) ∧
    ∀ r, i.recognizer.SamePlace r → ∀ decision c rule, c.key.stack = [] →
      (r.simulation env decision).liveInvocation? c.key.placement = i.backIn inner →
      ∃ caller, call.caller = some caller ∧ (r.simulation env decision).leave true c rule =
        .inl [{ c with key := { state := back
                                precedence := (r.forest.get caller).precedence
                                placement := .invocation caller } }] := by
  have howes := h.owes (hd.wired hb) hn
  refine ⟨?_, fun r hsame decision c rule hstack hlive => ?_⟩
  · rintro rfl hstop rule root
    obtain ⟨live, -, hinv, -, -, hfollow⟩ := (howes s hs).liveReturn hcall
    obtain ⟨caller, hcaller, -⟩ := Option.bind_eq_some_iff.1 hfollow
    have hout : i.isOutermost = false := by
      unfold isOutermost
      rw [show i.recognizer.invocation = some live from hinv]
      simp [hcaller]
    obtain ⟨_, _, hcalls, -, hback, hstate⟩ := howes.leaveRule hn hs
    cases hcalls
    refine ⟨i.leaveRule env (env.network.state s).rule, ?_, Prod.ext hback (hstate back hcall)⟩
    simp [Interpreter.step, hs, hstop, hout]
  · have howes' : ({ i with parser := { i.parser with recognizer := r } } : Interpreter).Owes env
        (inner ++ call :: outer) := howes.samePlace rfl hsame
    obtain ⟨live, caller, hinv, hcaller, hparent, hfollow⟩ :=
      (howes' s (hsame.state.trans hs)).liveReturn hcall
    refine ⟨caller, hcaller, ?_⟩
    have hin : i.backIn inner = some live := by
      unfold backIn
      rw [← hsame.invocation]
      exact hinv
    have hreturn := @Simulation.liveReturn?_eq (r.simulation env decision) live caller back hparent hfollow
    unfold Simulation.leave
    rw [hstack]
    dsimp only
    rw [if_pos rfl, hlive, hin, Option.bind_some, hreturn]
    rfl

/-- A parse that has begun owes nothing but its own end. -/
theorem inCalls_begun {tokens : Array Token} {rule : RuleId} (hr : rule < env.network.rules.size)
    (he : ((beforeTokens env tokens).enter env rule 0).1 = .ok 0) :
    InCalls env ((beforeTokens env tokens).enter env rule 0).2 [⟨none, none⟩] :=
  @InCalls.enter env (beforeTokens env tokens) _ [] (.start rfl) rule hr 0 (Prod.ext he rfl)

end Interpreter

open Interpreter

/-- Rule `s` calls the left-recursive rule `e`, and the call returns to state 5. -/
def homeward : Draft :=
  let d := ((({ maxType := 2 } : Draft).addRule "s").2.addRule "e").2.setLeftRecursive 1
  let d := ((d.addState .basic 0).2.addState .basic 0).2
  let d := (d.addEpsilon 0 4).addTransition 4 ⟨2, .rule 1 5 0⟩
  (d.addTransition 5 ⟨1, .atom 1⟩).addTransition 2 ⟨3, .atom 2⟩

def homewardNetwork : Network where
  states := #[⟨.ruleStart, 0, [⟨4, .epsilon⟩], none, false⟩, ⟨.ruleStop, 0, [], none, false⟩,
    ⟨.ruleStart, 1, [⟨3, .atom 2⟩], none, false⟩, ⟨.ruleStop, 1, [], none, false⟩,
    ⟨.basic, 0, [⟨2, .rule 1 5 0⟩], none, false⟩, ⟨.basic, 0, [⟨1, .atom 1⟩], none, false⟩]
  rules := #[⟨"s", 0, 1, false⟩, ⟨"e", 2, 3, true⟩]
  maxType := 2
  nextTokens := #[.ofList [2], .ofList [-2], .ofList [2], .ofList [-2], .ofList [2], .ofList [1]]
  ruleFollow := #[[], [5]]
  returnPrecedence := #[none, none, none, none, none, some 0]
  edgeCount := 4

def homewardSetting : Setting := { grammar := ⟨homewardNetwork, {}⟩ }

set_option maxRecDepth 20000 in
theorem build_homeward : homeward.build = .ok homewardNetwork := by cbv

theorem made_homeward : homeward.Made := by
  unfold homeward
  dsimp only
  repeat' constructor

/-- A parse of `s` at the end of `e`. -/
def homewardAt : Nat → Interpreter
  | 0 => ((beforeTokens homewardSetting #[{ kind := 2 }, { kind := 1 }]).enter homewardSetting 0 0).2
  | n + 1 => ((homewardAt n).step homewardSetting 0 0).interpreter

theorem homing_homeward : homewardNetwork.Homing := ⟨by decide, by decide⟩

theorem inCalls_homeward : InCalls homewardSetting (homewardAt 3) [⟨some 0, some 5⟩, ⟨none, none⟩] := by
  have hbegun : InCalls homewardSetting (homewardAt 0) [⟨none, none⟩] := inCalls_begun (by decide) rfl
  have hcalls : (homewardAt 2).callsAfter homewardSetting ((homewardAt 1).callsAfter homewardSetting
      ((homewardAt 0).callsAfter homewardSetting [⟨none, none⟩])) = [⟨some 0, some 5⟩, ⟨none, none⟩] := by cbv
  exact hcalls ▸ ((hbegun.step 0 0).step 0 0).step 0 0

/-- The call of `e` returns to state 5. -/
theorem return_homeward : ∃ j, (homewardAt 3).step homewardSetting 0 0 = .running j ∧
    j.site = (some 0, some 5) := by
  have hstate : (homewardAt 3).recognizer.state = some 3 := by cbv
  have h := @calls_return homewardSetting (homewardAt 3) 3 homeward made_homeward build_homeward homing_homeward [] _
    ⟨some 0, some 5⟩ 5 inCalls_homeward rfl hstate
  exact h.1 rfl rfl 0 0

/-- Rule `s` calls `r` or `q`; the one call returns to state 7, the other to state 8. -/
def parting : Draft :=
  let d := (((({ maxType := 4 } : Draft).addRule "s").2.addRule "r").2.addRule "q").2
  let d := (((d.addState .basic 0).2.addState .basic 0).2.addState .basic 0).2
  let d := d.addEpsilon 0 6
  let d := (d.addTransition 6 ⟨2, .rule 1 7 0⟩).addTransition 6 ⟨4, .rule 2 8 0⟩
  let d := (d.addTransition 7 ⟨1, .atom 1⟩).addTransition 8 ⟨1, .atom 2⟩
  (d.addTransition 2 ⟨3, .atom 3⟩).addTransition 4 ⟨5, .atom 4⟩

def partingNetwork : Network where
  states := #[⟨.ruleStart, 0, [⟨6, .epsilon⟩], none, false⟩, ⟨.ruleStop, 0, [], none, false⟩,
    ⟨.ruleStart, 1, [⟨3, .atom 3⟩], none, false⟩, ⟨.ruleStop, 1, [], none, false⟩,
    ⟨.ruleStart, 2, [⟨5, .atom 4⟩], none, false⟩, ⟨.ruleStop, 2, [], none, false⟩,
    ⟨.basic, 0, [⟨2, .rule 1 7 0⟩, ⟨4, .rule 2 8 0⟩], some 0, false⟩,
    ⟨.basic, 0, [⟨1, .atom 1⟩], none, false⟩, ⟨.basic, 0, [⟨1, .atom 2⟩], none, false⟩]
  rules := #[⟨"s", 0, 1, false⟩, ⟨"r", 2, 3, false⟩, ⟨"q", 4, 5, false⟩]
  decisions := #[6]
  maxType := 4
  nextTokens := #[.ofList [3, 4], .ofList [-2], .ofList [3], .ofList [-2], .ofList [4], .ofList [-2],
    .ofList [3, 4], .ofList [1], .ofList [2]]
  ruleFollow := #[[], [7], [8]]
  returnPrecedence := #[none, none, none, none, none, none, none, some 0, some 0]
  edgeCount := 7

def partingSetting : Setting := { grammar := ⟨partingNetwork, {}⟩ }

set_option maxRecDepth 20000 in
theorem build_parting : parting.build = .ok partingNetwork := by cbv

theorem made_parting : parting.Made := by
  unfold parting
  dsimp only
  repeat' constructor

/-- A parse of `s` on the word of `q`, after so many steps. -/
def partingAt : Nat → Interpreter
  | 0 => ((beforeTokens partingSetting #[{ kind := 4 }, { kind := 2 }]).enter partingSetting 0 0).2
  | n + 1 => ((partingAt n).step partingSetting 0 0).interpreter

theorem predict_parting {sim : Simulation} (hnet : sim.network = partingNetwork) (hfloor : sim.floor = 0)
    {input : TokenCursor} (hk : input.kind = 4) : (sim.predict 0 .ll {} input).1 = .alternative 2 := by
  have hstart : sim.startSet false 0 = .ofList
      [⟨{ state := 2, precedence := 0, stack := [⟨7, 0⟩] }, 1⟩,
        ⟨{ state := 4, precedence := 0, stack := [⟨8, 0⟩] }, 2⟩] false := by
    obtain ⟨n, _, _, _, _⟩ := sim
    cases hnet
    cases hfloor
    rw [Simulation.startSet, Simulation.closure_eq_closureRun (k := 10) (by decide) (by cbv)]
    cbv
  have hreach : sim.reach false (sim.startSet false 0) 4 = .ofList [⟨{ state := 8, precedence := 0 }, 2⟩] false := by
    rw [hstart]
    obtain ⟨n, _, _, _, _⟩ := sim
    cases hnet
    cases hfloor
    rw [Simulation.reach, Simulation.closure_eq_closureRun (k := 10) (by decide) (by cbv)]
    cbv
  refine Simulation.predict_of_unique ?_ ?_ ?_
  · rw [hstart]
    cbv
  · rw [hk, hreach]
    cbv
  · rw [hk, hreach, hstart]
    cbv
    decide

theorem chooseEdge_parting : ∃ cache, chooseEdge partingSetting (partingNetwork.state 6) (partingAt 1).parser =
    (.ok 2, { (partingAt 1).parser with recognizer := { (partingAt 1).recognizer with cache } }) := by
  have hsync : sync partingSetting (partingAt 1).parser = (.ok (), (partingAt 1).parser) := by cbv
  have hstop : (partingAt 1).recognizer.input.Stopped := TokenCursor.stopped_moveTo _ _
  have hcache : (partingAt 1).recognizer.cache.get? 0 = some {} := by cbv
  have hpredict := @Recognizer.predict_eq partingSetting (partingAt 1).recognizer 0 {} _ (.alternative 2) hstop hcache
    (predict_parting rfl (by cbv) (by cbv)) rfl
  exact ⟨_, chooseEdge_of_predict rfl (by decide) hsync hpredict⟩

/-- The parse has called `q`. -/
def partingCalled (cache : PredictionCache) : Interpreter :=
  let i : Interpreter := { partingAt 1 with parser := { (partingAt 1).parser with
    recognizer := { (partingAt 1).recognizer with cache } } }
  (i.enter partingSetting 2 0).2.goTo (some 4)

theorem called_parting : ∃ cache, partingAt 2 = partingCalled cache ∧
    (partingAt 1).callsAfter partingSetting [⟨none, none⟩] = [⟨some 0, some 8⟩, ⟨none, none⟩] := by
  obtain ⟨cache, hchoose⟩ := chooseEdge_parting
  have hstate : (partingAt 1).recognizer.state = some 6 := by cbv
  refine ⟨cache, ?_, ?_⟩
  · show ((partingAt 1).step partingSetting 0 0).interpreter = _
    unfold Interpreter.step
    rw [hstate]
    dsimp only
    rw [if_neg (by decide)]
    unfold visit run
    rw [show partingSetting.network.state 6 = partingNetwork.state 6 from rfl, hchoose]
    rfl
  · unfold callsAfter
    rw [hstate]
    dsimp only
    rw [if_neg (by decide)]
    unfold callMade run
    rw [show partingSetting.network.state 6 = partingNetwork.state 6 from rfl, hchoose]
    rfl

theorem inCalls_parting : InCalls partingSetting (partingAt 3) [⟨some 0, some 8⟩, ⟨none, none⟩] := by
  obtain ⟨cache, hcalled, hcalls⟩ := called_parting
  have hbegun : InCalls partingSetting (partingAt 0) [⟨none, none⟩] := inCalls_begun (by decide) rfl
  have hat : InCalls partingSetting (partingAt 1) [⟨none, none⟩] := by
    have h := hbegun.step 0 0
    rwa [show (partingAt 0).callsAfter partingSetting [⟨none, none⟩] = [⟨none, none⟩] by cbv] at h
  have hopened : InCalls partingSetting (partingAt 2) [⟨some 0, some 8⟩, ⟨none, none⟩] := hcalls ▸ hat.step 0 0
  have h := hopened.step 0 0
  rwa [show (partingAt 2).callsAfter partingSetting [⟨some 0, some 8⟩, ⟨none, none⟩] =
    [⟨some 0, some 8⟩, ⟨none, none⟩] by rw [hcalled]; cbv] at h

/-- The call of `q` says that it returns to state 8. The parse returns to state 7, where the call of `r` returns,
and lookahead in full context does as well. -/
theorem returns_elsewhere : parting.Made ∧ parting.build = .ok partingSetting.network ∧
    (∀ s < partingNetwork.states.size, (partingNetwork.state s).isRuleStop = true →
      ∃ r < partingNetwork.rules.size, (partingNetwork.rule r).stop = s) ∧
    (∀ s < partingNetwork.states.size, ∀ t ∈ (partingNetwork.state s).transitions,
      (partingNetwork.state t.next).rule = (partingNetwork.state s).rule) ∧
    ⟨4, .rule 2 8 0⟩ ∈ (partingNetwork.state 6).transitions ∧
    InCalls partingSetting (partingAt 3) [⟨some 0, some 8⟩, ⟨none, none⟩] ∧
    (partingAt 3).recognizer.state = some (partingNetwork.rule 2).stop ∧
    (partingAt 4).site = (some 0, some 7) ∧
    ((partingAt 3).recognizer.simulation partingSetting 0).leave true ⟨{ state := 5, precedence := 0 }, 1⟩ 2 =
      .inl [⟨{ state := 7, precedence := 0, placement := .invocation 0 }, 1⟩] := by
  obtain ⟨cache, hcalled, -⟩ := called_parting
  have hat : partingAt 3 = ((partingCalled cache).step partingSetting 0 0).interpreter := by
    rw [← hcalled]
    rfl
  refine ⟨made_parting, build_parting, by decide, by decide, by decide, inCalls_parting, ?_, ?_, ?_⟩
  · rw [hat]
    cbv
  · show ((partingAt 3).step partingSetting 0 0).interpreter.site = _
    rw [hat]
    cbv
  · rw [hat]
    cbv

end AdaptiveParsing
