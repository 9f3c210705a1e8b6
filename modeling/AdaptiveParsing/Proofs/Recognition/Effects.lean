import AdaptiveParsing.Proofs.Recognition.Invocations
import AdaptiveParsing.Proofs.Recognition.Silence
/-!
What the steps of a parse without reports do to the tree. Choosing an edge leaves it as it is; passing
an edge adds a child or begins a round, or only goes on (`Passes`); a call opens an invocation
(`Enters`). Main statements: `Interpreter.passes_passEdge` and `Interpreter.enters_of_enter`.
-/

namespace AdaptiveParsing

open AdaptiveParsing.Parser

namespace Recognizer

variable {r r' r'' : Recognizer}

theorem SameTree.refl (r : Recognizer) : r.SameTree r := ⟨rfl, rfl, rfl, rfl, rfl⟩

theorem SameTree.trans (h : r.SameTree r') (h' : r'.SameTree r'') : r.SameTree r'' :=
  ⟨h'.forest.trans h.forest, h'.invocation.trans h.invocation, h'.state.trans h.state,
    h'.floors.trans h.floors, h'.errors.trans h.errors⟩

end Recognizer

variable {env : Setting} {p p' : Parser} {s : NetworkState} {t : Transition}

theorem Parser.predict_eq_ok {d : DecisionId} {alt : Nat}
    (h : Parser.predict env d p = (.ok alt, p')) : (p.recognizer.predict env d).1 = .ok alt ∧
      p' = { p with recognizer := (p.recognizer.predict env d).2 } := by
  have hrun : (Except.mapError id (p.recognizer.predict env d).1,
      ({ p with recognizer := (p.recognizer.predict env d).2 } : Parser)) = (.ok alt, p') := h
  obtain ⟨hok, hp⟩ := Prod.mk.inj hrun
  refine ⟨?_, hp.symm⟩
  cases hr : (p.recognizer.predict env d).1 with
  | error e =>
    rw [hr] at hok
    cases hok
  | ok a =>
    rw [hr] at hok
    exact hok

/-- Without a report, an edge is chosen by lookahead if there are several, and else it is the first. -/
theorem Interpreter.chooseEdge_eq_ok {alt : Nat} (ht : p.Tidy)
    (h : chooseEdge env s p = (.ok alt, p')) (hs : p'.Silent) :
    (∃ d q, s.decision = some d ∧ 1 < s.transitions.length ∧ sync env p = (.ok (), q) ∧
      q.recognizer = p.recognizer ∧ (p.recognizer.predict env d).1 = .ok alt ∧
        p' = { q with recognizer := (p.recognizer.predict env d).2 }) ∨
    (∀ d, s.decision = some d → s.transitions.length ≤ 1) ∧ alt = 1 ∧ p' = p := by
  unfold chooseEdge at h
  cases hd : s.decision with
  | none =>
    rw [hd] at h
    cases h
    exact .inr ⟨nofun, rfl, rfl⟩
  | some d =>
    rw [hd] at h
    dsimp only at h
    by_cases hlen : 1 < s.transitions.length
    · rw [if_pos hlen, bind_run] at h
      have hsync := @sync_of_silent env p ht
      generalize sync env p = result at h hsync ⊢
      obtain ⟨halt | u, q⟩ := result
      · cases h
      · obtain ⟨hok, rfl⟩ := predict_eq_ok h
        have hq : q.Silent := (q.recognizer.sameTree_predict env d).errors.symm.trans hs
        have hrec : q.recognizer = p.recognizer := hsync hq
        rw [hrec] at hok
        exact .inl ⟨d, q, rfl, hlen, rfl, hrec, hok, by rw [hrec]⟩
    · rw [if_neg hlen] at h
      cases h
      exact .inr ⟨fun _ _ => Nat.not_lt.1 hlen, rfl, rfl⟩

/-- Without a report, choosing an edge leaves the tree as it is. -/
theorem Interpreter.sameTree_chooseEdge {alt : Nat} (ht : p.Tidy)
    (h : chooseEdge env s p = (.ok alt, p')) (hs : p'.Silent) :
    p.recognizer.SameTree p'.recognizer := by
  rcases chooseEdge_eq_ok ht h hs with ⟨d, q, -, -, -, -, -, rfl⟩ | ⟨-, -, rfl⟩
  · exact p.recognizer.sameTree_predict env d
  · exact .refl _

/-- What passing an edge that is not a call does to the tree. -/
inductive Passes (env : Setting) (s : NetworkState) (t : Transition) (r r' : Recognizer) : Prop
  | free (hk : t.kind = .epsilon ∨ ∃ c index, t.kind = .action c index)
      (hround : s.precedenceDecision = true → t.kind = .epsilon →
        (env.network.state t.target).kind = .loopEnd)
      (h : r.SameTree r')
  | round (hk : t.kind = .epsilon) (hmark : s.precedenceDecision = true)
      (hloop : (env.network.state t.target).kind ≠ .loopEnd)
      (h : (r.pushRecursion (env.network.rule s.rule).start s.rule).2.SameTree r')
  | token (hk : env.network.Takes t.kind r.input.current)
      (h : (r.addChild (.token r.input.current)).SameTree r')
  | condition {c : RuleId} {index : Nat} {dependent : Bool}
      (hk : t.kind = .predicate c index dependent) (hh : r.holds env c index = true)
      (h : r.SameTree r')
  | level {level : Int} (hk : t.kind = .precedence level) (hl : r.precedence ≤ level)
      (h : r.SameTree r')

/-- A token that is taken becomes a child. -/
theorem Parser.sameTree_takeMatch (htree : env.config.buildTrees = true) (p : Parser) :
    (p.recognizer.addChild (.token p.recognizer.input.current)).SameTree
      (takeMatch env p).2.recognizer := by
  have h : (takeMatch env p).2.recognizer =
      ({ p.recognizer with input := p.recognizer.input.consume }).addChild
        (.token p.recognizer.input.current) := by
    show p.recognizer.consume env false = _
    unfold Recognizer.consume
    rw [htree]
    rfl
  rw [h]
  unfold Recognizer.addChild
  dsimp only
  split <;> exact ⟨rfl, rfl, rfl, rfl, rfl⟩

/-- Without a report, a method that takes a token or recovers takes it. -/
theorem Parser.match_eq_ok {m : ParserM Token} {c : Prop} [Decidable c] {q : Parser} (ht : p.Tidy)
    (hm : m p = if c then takeMatch env q else recoverToken env p)
    (h : (discard m : ParserM Unit) p = (.ok (), p')) (hs : p'.Silent) :
    c ∧ (takeMatch env q).2 = p' := by
  have hd : (discard m : ParserM Unit) p = (m >>= fun _ => pure ()) p := rfl
  rw [hd, bind_run, hm] at h
  by_cases hc : c
  · rw [if_pos hc] at h
    exact ⟨hc, (Prod.mk.inj h).2⟩
  · rw [if_neg hc] at h
    have hr := @recoverToken_of_silent env p ht
    generalize recoverToken env p = result at h hr
    obtain ⟨halt | token, p₁⟩ := result
    · cases h
    · cases h
      obtain ⟨halt, hh⟩ := hr hs
      cases hh

/-- A method that takes a token along the edge, or recovers. -/
theorem Passes.of_match {m : ParserM Token} {c : Prop} [Decidable c] {q : Parser}
    (htree : env.config.buildTrees = true) (ht : p.Tidy)
    (hm : m p = if c then takeMatch env q else recoverToken env p)
    (hq : q.recognizer.input = p.recognizer.input ∧ p.recognizer.SameTree q.recognizer)
    (htakes : c → env.network.Takes t.kind p.recognizer.input.current)
    (h : (discard m : ParserM Unit) p = (.ok (), p')) (hs : p'.Silent) :
    Passes env s t p.recognizer p'.recognizer := by
  obtain ⟨hc, rfl⟩ := match_eq_ok ht hm h hs
  refine .token (htakes hc) (Recognizer.SameTree.trans ?_ (sameTree_takeMatch htree q))
  obtain ⟨hinput, hsame⟩ := hq
  rw [hinput]
  unfold Recognizer.addChild
  rw [hsame.invocation]
  cases p.recognizer.invocation with
  | none => exact hsame
  | some id =>
    refine ⟨?_, rfl, hsame.state, hsame.floors, hsame.errors⟩
    dsimp only
    rw [hsame.forest]

/-- Without a report an edge is passed the way it is meant to be. -/
theorem Interpreter.passes_passEdge (htree : env.config.buildTrees = true) (ht : p.Tidy)
    (h : passEdge env s t p = (.ok (), p')) (hs : p'.Silent) (hcall : t.call? = none) :
    Passes env s t p.recognizer p'.recognizer := by
  unfold passEdge at h
  cases hk : t.kind with
  | epsilon =>
    rw [hk] at h
    dsimp only at h
    split at h
    · rename_i hround
      cases h
      rw [Bool.and_eq_true] at hround
      exact .round hk hround.1 (by simpa using hround.2) (.refl _)
    · rename_i hround
      cases h
      refine .free (.inl hk) (fun hm _ => ?_) (.refl _)
      rw [hm] at hround
      simpa using hround
  | atom k =>
    rw [hk] at h
    refine Passes.of_match htree ht (matchToken_run k) ?_ ?_ h hs
    · split
      · exact ⟨rfl, rfl, rfl, rfl, rfl, rfl⟩
      · exact ⟨rfl, .refl _⟩
    · intro hc
      rw [hk]
      exact hc
  | range _ _ | set _ | notSet _ =>
    rw [hk] at h
    dsimp only at h
    cases hl : env.network.label? t.kind with
    | none =>
      rw [hk] at hl
      cases hl
    | some types =>
      rw [hk] at hl
      rw [hl] at h
      refine Passes.of_match htree ht (matchSet_run types) ⟨rfl, .refl _⟩ ?_ h hs
      intro hc
      rw [hk]
      exact ⟨types, hl, hc⟩
  | wildcard =>
    rw [hk] at h
    refine Passes.of_match htree ht matchAny_run ⟨rfl, .refl _⟩ ?_ h hs
    intro hc
    rw [hk]
    exact hc
  | rule c follow precedence =>
    simp [Transition.call?, hk] at hcall
  | predicate c index dependent =>
    rw [hk] at h
    dsimp only at h
    rw [get_run] at h
    by_cases hh : p.recognizer.holds env c index = true
    · simp only [hh] at h
      cases h
      exact .condition hk hh (.refl _)
    · simp only [hh] at h
      cases h
  | action c index =>
    rw [hk] at h
    cases h
    exact .free (.inr ⟨c, index, hk⟩) (fun _ he => by rw [hk] at he; cases he)
      ⟨rfl, rfl, rfl, rfl, rfl⟩
  | precedence level =>
    rw [hk] at h
    dsimp only at h
    unfold Parser.checkPrecedence at h
    rw [get_run] at h
    by_cases hl : p.recognizer.permits level = true
    · simp only [Recognizer.checkPrecedence, hl] at h
      cases h
      exact .level hk (by simpa [Recognizer.permits] using hl) (.refl _)
    · simp only [Recognizer.checkPrecedence, hl] at h
      cases h

variable {i i' : Interpreter} {f : Forest}

theorem Recognizer.holds_sameTree {r r' : Recognizer} (h : r.SameTree r') (c : RuleId)
    (index : Nat) : r'.holds env c index = r.holds env c index := by
  unfold holds
  rw [h.forest, h.invocation]

theorem Touches.refl (f : Forest) (id : InvocationId) : Touches f f id :=
  ⟨.refl f, rfl, fun _ _ => rfl, rfl, rfl⟩

theorem Recognizer.forest_addChild {r : Recognizer} {id : InvocationId} (c : Child)
    (h : r.invocation = some id) : (r.addChild c).forest = r.forest.addChild id c := by
  unfold addChild
  rw [h]

theorem Recognizer.fields_addChild (r : Recognizer) (c : Child) :
    (r.addChild c).invocation = r.invocation ∧ (r.addChild c).state = r.state ∧
      (r.addChild c).floors = r.floors := by
  unfold addChild
  split <;> exact ⟨rfl, rfl, rfl⟩

theorem Forest.extends_addChild (id : InvocationId) (c : Child) : f.Extends (f.addChild id c) :=
  f.extends_modify id _ (fun _ => rfl) fun _ => rfl

theorem Forest.touches_addChild {id : InvocationId} (c : Child) (hlt : id < f.size) :
    Touches f (f.addChild id c) id ∧
      ((f.addChild id c).get id).children.toList = (f.get id).children.toList ++ [c] := by
  have hget : (f.addChild id c).get id =
      { f.get id with children := (f.get id).children.push c } := f.get_modify id _ hlt
  refine ⟨⟨extends_addChild id c, f.size_modify id _, ?_, ?_, ?_⟩, ?_⟩
  · exact fun other hne => f.get_modify_other id other _ hne
  · rw [hget]
  · rw [hget]
  · rw [hget]
    simp

/-- The invocation that begins another round after `id`. -/
def Forest.nextRound (f : Forest) (rule : RuleId) (id : InvocationId) : Invocation where
  rule := rule
  parent := (f.get id).parent
  caller := (f.get id).caller
  precedence := (f.get id).precedence
  children := #[.rule id]
  start := (f.get id).start

/-- What becomes of an invocation once another round has begun after it. -/
def Invocation.handOver (stop : Option Nat) (next : InvocationId) (s : StateId) (i : Invocation) :
    Invocation :=
  { i with stop, parent := some next, caller := some s }

/-- The forest once another round has begun after `id`. -/
def Forest.pushRound (f : Forest) (rule : RuleId) (id : InvocationId) (s : StateId)
    (stop : Option Nat) : Forest :=
  (f.alloc (f.nextRound rule id)).2.modify id (Invocation.handOver stop f.size s)

theorem Recognizer.pushRecursion_eq {r : Recognizer} {id : InvocationId} (s : StateId)
    (rule : RuleId) (h : r.invocation = some id) :
    (r.pushRecursion s rule).2 =
      { r with
        forest := r.forest.pushRound rule id s r.input.previousIndex
        invocation := some r.forest.size } := by
  unfold pushRecursion
  rw [h]
  rfl

/-- A forest with a new invocation, once something was noted in an old one. -/
theorem Forest.alloc_modify {id : InvocationId} (hlt : id < f.size) (node : Invocation)
    {g : Invocation → Invocation} (hr : ∀ i, (g i).rule = i.rule)
    (hp : ∀ i, (g i).precedence = i.precedence) :
    let f' := (f.alloc node).2.modify id g
    f.Extends f' ∧ f'.size = f.size + 1 ∧ f'.get f.size = node ∧ f'.get id = g (f.get id) ∧
      ∀ other, other < f.size → other ≠ id → f'.get other = f.get other := by
  have hne : f.size ≠ id := Nat.ne_of_gt hlt
  refine ⟨(f.extends_alloc node).trans (Forest.extends_modify _ _ _ hr hp), ?_, ?_, ?_, ?_⟩
  · rw [size_modify, size_alloc]
  · rw [get_modify_other _ _ _ _ hne, get_alloc, if_pos rfl]
  · rw [get_modify, get_alloc, if_neg hne.symm]
    rw [size_alloc]
    exact Nat.lt_succ_of_lt hlt
  · intro other ho hno
    rw [get_modify_other _ _ _ _ hno, get_alloc, if_neg (Nat.ne_of_lt ho)]

/-- The forest once the innermost left-recursive invocation was closed. -/
theorem Recognizer.unrollRecursion_eq {r : Recognizer} {id : InvocationId}
    (parent : Option InvocationId) (h : r.invocation = some id) :
    let f' := r.forest.modify id fun i => { i with stop := r.input.previousIndex, parent }
    (r.unrollRecursion parent).1 = some id ∧
      (r.unrollRecursion parent).2.forest = (match parent with
        | none => f'
        | some p => f'.addChild p (.rule id)) ∧
      (r.unrollRecursion parent).2.invocation = parent ∧
      (r.unrollRecursion parent).2.floors = (match r.floors with
        | _ :: floor :: more => floor :: more
        | few => few) := by
  unfold unrollRecursion
  dsimp only
  rw [h]
  exact ⟨rfl, rfl, rfl, rfl⟩

theorem Recognizer.exitRule_eq {r : Recognizer} {id : InvocationId} (h : r.invocation = some id) :
    ∃ stop, r.exitRule.forest = (r.forest.modify id fun i => { i with stop }) ∧
      r.exitRule.invocation = (r.forest.get id).parent ∧
      r.exitRule.state = (r.forest.get id).caller ∧ r.exitRule.floors = r.floors := by
  unfold exitRule
  rw [h]
  exact ⟨_, rfl, rfl, rfl, rfl⟩

/-- An invocation with something noted at its end: only its place in the tree can differ. -/
theorem Forest.modify_facts {id : InvocationId} {g : Invocation → Invocation} (hlt : id < f.size)
    (hr : ∀ i, (g i).rule = i.rule) (hp : ∀ i, (g i).precedence = i.precedence)
    (hc : ∀ i, (g i).children = i.children) :
    f.Extends (f.modify id g) ∧ (f.modify id g).size = f.size ∧
      ((f.modify id g).get id).children = (f.get id).children ∧
      ∀ other, other ≠ id → (f.modify id g).get other = f.get other := by
  refine ⟨f.extends_modify id g hr hp, f.size_modify id g, ?_, fun other hno =>
    f.get_modify_other id other g hno⟩
  rw [f.get_modify id g hlt, hc]

/-- What opening an invocation of a rule leads to. -/
structure Enters (env : Setting) (c : RuleId) (precedence : Int) (i : Interpreter)
    (id : InvocationId) (i' : Interpreter) : Prop where
  id_eq : id = i.recognizer.forest.size
  invocation : i'.recognizer.invocation = some id
  state : i'.recognizer.state = some (env.network.rule c).start
  floors : i'.recognizer.floors =
    if (env.network.rule c).leftRecursive then precedence :: i.recognizer.floors
    else i.recognizer.floors
  callers : i'.callers =
    if (env.network.rule c).leftRecursive then
      (i.recognizer.invocation, i.recognizer.state) :: i.callers
    else i.callers
  forest : ∃ node : Invocation, node.rule = c ∧
    node.precedence = (if (env.network.rule c).leftRecursive then precedence else 0) ∧
    node.children = #[] ∧ node.parent = i.recognizer.invocation ∧
    (node.caller = if i.recognizer.invocation.isSome then i.recognizer.state else none) ∧
    node.start = i.recognizer.input.current.index ∧
    i'.recognizer.forest =
      match i.recognizer.invocation with
      | none => (i.recognizer.forest.alloc node).2
      | some top =>
        if (env.network.rule c).leftRecursive then (i.recognizer.forest.alloc node).2
        else (i.recognizer.forest.alloc node).2.addChild top (.rule i.recognizer.forest.size)

theorem Interpreter.enters_of_enter {c : RuleId} {precedence : Int} {id : InvocationId}
    (h : i.enter env c precedence = (.ok id, i')) : Enters env c precedence i id i' := by
  unfold enter at h
  cases hl : (env.network.rule c).leftRecursive with
  | true =>
    rw [if_pos hl] at h
    dsimp only [run, Parser.enterRecursion, Parser.onRecognizer, Recognizer.enterRecursion,
      Recognizer.enter] at h
    cases hn : i.parser.recognizer.nesting.enter with
    | error e =>
      simp only [recognizer, hn] at h
      cases h
    | ok nesting =>
      simp only [recognizer, hn] at h
      cases h
      refine ⟨rfl, rfl, rfl, by rw [hl]; rfl, by rw [hl]; rfl,
        i.recognizer.newInvocation c precedence, rfl, ?_, rfl, rfl, rfl, rfl, ?_⟩
      · rw [hl]
        rfl
      · rw [hl]
        cases i.recognizer.invocation <;> rfl
  | false =>
    rw [if_neg (by simp [hl])] at h
    dsimp only [run, Parser.enterRule, Parser.onRecognizer, Recognizer.enterRule,
      Recognizer.enter] at h
    cases hn : i.parser.recognizer.nesting.enter with
    | error e =>
      simp only [hn] at h
      cases h
    | ok nesting =>
      simp only [hn] at h
      cases h
      have hadd : ∀ (r : Recognizer) (child : Child),
          (r.addChild child).forest = match r.invocation with
            | none => r.forest
            | some top => r.forest.addChild top child := by
        intro r child
        unfold Recognizer.addChild
        cases r.invocation <;> rfl
      refine ⟨rfl, rfl, rfl, ?_, by rw [hl]; rfl, i.recognizer.newInvocation c 0, rfl, ?_, rfl, rfl,
        rfl, rfl, ?_⟩
      · rw [hl]
        exact (Recognizer.fields_addChild _ _).2.2
      · rw [hl]
        rfl
      · rw [hl]
        exact hadd _ _

theorem Interpreter.followEdge_eq_ok (h : i.followEdge env s t = (.ok (), i')) :
    (∃ c follow precedence id i₂, t.kind = .rule c follow precedence ∧
      i.enter env c precedence = (.ok id, i₂) ∧ i' = i₂.goTo (some t.target)) ∨
    t.call? = none ∧ ∃ p₂, passEdge env s t i.parser = (.ok (), p₂) ∧
      i' = ({ i with parser := p₂ } : Interpreter).goTo (some t.target) := by
  unfold followEdge at h
  cases hk : t.kind with
  | rule c follow precedence =>
    rw [hk] at h
    dsimp only at h
    generalize he : i.enter env c precedence = result at h
    obtain ⟨halt | id, i₂⟩ := result
    · cases h
    · cases h
      exact .inl ⟨c, follow, precedence, id, i₂, rfl, he, rfl⟩
  | _ =>
    rw [hk] at h
    dsimp only [run] at h
    generalize hp : passEdge env s t i.parser = result at h
    obtain ⟨halt | u, p₂⟩ := result
    · cases h
    · cases h
      exact .inr ⟨by simp [Transition.call?, hk], p₂, rfl, rfl⟩

end AdaptiveParsing
