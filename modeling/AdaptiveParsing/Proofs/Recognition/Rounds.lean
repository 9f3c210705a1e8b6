import AdaptiveParsing.Proofs.Lookahead.Infix
import AdaptiveParsing.Proofs.Recognition.Advances
import AdaptiveParsing.Proofs.Recognition.ExpressionTrees
/-!
The rounds of a rule of operands and operators. A call of the rule takes an operand, and then for each operator
at or above its floor another round begins, with a call for the right operand. What such a call leaves as it
was is said by `Interpreter.Stays` and `Interpreter.Calls`. Main statement: `Interpreter.performs_climbs`, what
climbing does the parse does.
-/

namespace AdaptiveParsing

open AdaptiveParsing.Parser Network

namespace Interpreter

/-- A parse in rule `e` has read an expression, and operators with their operands come next. -/
structure Holds (j : Interpreter) (e : RuleId) (a : StateId) (id : InvocationId) (x : Expr)
    (rest : List (Token × Token)) : Prop where
  state : j.recognizer.state = some a
  invocation : j.recognizer.invocation = some id
  stopped : j.recognizer.input.Stopped
  word : j.recognizer.input.word = interleave rest
  depicts : j.recognizer.forest.Depicts e id x

/-- What is outside of an invocation stays, if another one may take its place. -/
structure Stays (j j' : Interpreter) (id id' : InvocationId) : Prop where
  callers : j'.callers = j.callers
  floors : j'.recognizer.floors = j.recognizer.floors
  nesting : j'.recognizer.nesting = j.recognizer.nesting
  forest : j.recognizer.forest.Keeps j'.recognizer.forest id
  caller : (j'.recognizer.forest.get id').caller = (j.recognizer.forest.get id).caller
  place : id' = id ∨ j.recognizer.forest.size ≤ id'

section

variable {env : Setting} {levels : RuleId → Int → Prop} {e s : RuleId}
  {heads : List (StateId × TokenType)} {rounds : List (StateId × Binding)} {after c : StateId}
  {j j' : Interpreter} {id : InvocationId} {a b : StateId} {x : Token} {w : List Token}

/-- The current token becomes a child of an invocation. -/
structure Takes (j j' : Interpreter) (id : InvocationId) (b : StateId) : Prop where
  state : j'.recognizer.state = some b
  invocation : j'.recognizer.invocation = some id
  input : j'.recognizer.input = j.recognizer.input.consume
  forest : j'.recognizer.forest = j.recognizer.forest.addChild id (.token j.recognizer.input.current)
  callers : j'.callers = j.callers
  floors : j'.recognizer.floors = j.recognizer.floors
  nesting : j'.recognizer.nesting = j.recognizer.nesting

theorem takes_take (htree : env.config.buildTrees = true) (h : j.recognizer.invocation = some id)
    (b : StateId) : Takes j ((j.change fun r => r.take env).goTo (some b)) id b := by
  have hr : ((j.change fun r => r.take env).goTo (some b)).recognizer =
      { j.recognizer.take env with state := some b } := rfl
  rw [Recognizer.take_eq htree h] at hr
  exact ⟨rfl, by rw [hr]; exact h, by rw [hr], by rw [hr], rfl, by rw [hr], by rw [hr]⟩

theorem Takes.goTo (h : Takes j j' id a) (b : StateId) : Takes j (j'.goTo (some b)) id b :=
  ⟨rfl, h.invocation, h.input, h.forest, h.callers, h.floors, h.nesting⟩

theorem take_goTo (j : Interpreter) (state : Option StateId) (b : StateId) :
    ((j.goTo state).change fun r => r.take env).goTo (some b) =
      (j.change fun r => r.take env).goTo (some b) := by
  obtain ⟨⟨⟨_, _, _, invocation, _, _, _, _, _, _, _, _⟩, _⟩, _⟩ := j
  unfold change goTo Recognizer.take Recognizer.consume
  cases env.config.buildTrees <;> cases invocation <;> rfl

/-- An operand is taken, whichever of the alternatives takes it. -/
theorem advances_operand (N : env.network.InfixTables levels e s heads rounds after c)
    (hmode : env.config.mode = .sll) (hs : j.recognizer.state = some (env.network.rule e).start)
    {h : StateId × TokenType} (hh : h ∈ heads) (hk : j.recognizer.input.kind = h.2) :
    Advances env j ((j.change fun r => r.take env).goTo (some after)) := by
  obtain ⟨entry, exit, hstart, hheads⟩ := N.expressions.shape.heads
  have hentry := advances_epsilon N.checked hs (transitions_of_unnumbered hstart)
    (congrArg NetworkState.precedenceDecision hstart)
  refine hentry.trans ?_
  cases hheads with
  | @one y hy =>
    obtain rfl := List.mem_singleton.1 hh
    have htake := advances_atom (j := j.goTo (some h.1)) N.checked rfl
      (transitions_of_unnumbered hy.take) hk
    have hlast := advances_epsilon N.checked (j := (j.change fun r => r.take env).goTo (some (h.1 + 1)))
      rfl (transitions_of_unnumbered hy.taken) (congrArg NetworkState.precedenceDecision hy.taken)
    rw [take_goTo] at htake
    exact htake.trans hlast
  | block hlen hblock hexit hheads =>
    have hedges := transitions_of_unnumbered hblock
    have hlen' : 1 < (env.network.state entry).transitions.length := by
      rw [hedges, List.length_map]
      exact hlen
    obtain ⟨d, hd, hdecision, hlt⟩ := N.decision entry hlen'
    refine advances_decided (j := j.goTo (some entry)) hmode N.checked rfl hd hlt hlen'
      (P := fun i => ∃ y, heads[i]? = some y ∧ y.2 = j.recognizer.input.kind) ?_ ?_
    · intro known hknown
      obtain ⟨i, y, hy, htoken, hp⟩ := @Simulation.predict_operand
        ((j.goTo (some entry)).recognizer.simulation env d) _ _ _ _ _ _ _ _ N _ _ _ _
        j.recognizer.input.mark.2 h hlen (.block hlen hblock hexit hheads) hdecision trivial hknown hh hk
      exact ⟨i, ⟨y, hy, htoken⟩, hp⟩
    · rintro i ⟨y, hy, htoken⟩
      have hmem := hheads y (List.mem_of_getElem? hy)
      refine ⟨.epsilon y.1, _, ?_, along_epsilon (.inl (congrArg NetworkState.precedenceDecision hblock)),
        ?_⟩
      · rw [hedges, List.getElem?_map, hy]
        rfl
      · have htake := advances_atom (j := j.goTo (some y.1)) N.checked rfl
          (transitions_of_unnumbered hmem.take) htoken.symm
        rw [take_goTo] at htake
        have hlast := advances_epsilon N.checked
          (j := (j.change fun r => r.take env).goTo (some (y.1 + 1))) rfl
          (transitions_of_unnumbered hmem.taken) (congrArg NetworkState.precedenceDecision hmem.taken)
        have hdone := advances_epsilon N.checked
          (j := (j.change fun r => r.take env).goTo (some exit)) rfl
          (transitions_of_unnumbered hexit) (congrArg NetworkState.precedenceDecision hexit)
        exact (htake.trans hlast).trans hdone

/-- What is found in the table is the operator of some round. -/
theorem exists_of_find? {t : TokenType} {b : Binding}
    (h : Binding.find? (rounds.map Prod.snd) t = some b) :
    ∃ x ∈ rounds, x.2 = b ∧ b.token = t := by
  obtain ⟨x, hx, rfl⟩ := List.mem_map.1 (List.mem_of_find?_eq_some h)
  exact ⟨x, hx, rfl, by simpa using List.find?_some h⟩

/-- From the loop of a rule to its end, an expression grows as climbing says. -/
def Performs (env : Setting) (e : RuleId) (after : StateId) (p : Int) (left : Expr)
    (rest : List (Token × Token)) (whole : Expr) (last : List (Token × Token)) : Prop :=
  ∀ (j : Interpreter) (id : InvocationId) (fs : List Int), j.Holds e after id left rest →
    j.recognizer.floors = p :: fs →
    j.recognizer.nesting.depth + whole.nesting ≤ j.recognizer.nesting.limit →
    ∃ j' id', Advances env j j' ∧ j'.Holds e (env.network.rule e).stop id' whole last ∧
      Stays j j' id id'

/-- In a loop lookahead has the floor of the innermost left-recursive invocation. -/
theorem floor_loop (N : env.network.InfixTables levels e s heads rounds after c) (hne : rounds ≠ [])
    {d : DecisionId} (hd : (env.network.state (env.network.decisionState d)).rule = e) {p : Int}
    {fs : List Int} (hf : j.recognizer.floors = p :: fs) :
    (j.recognizer.simulation env d).floor = p := by
  show (if (env.network.rule (env.network.state (env.network.decisionState d)).rule).leftRecursive
    then j.recognizer.precedence else 0) = p
  rw [hd, N.leftRecursive, if_pos (decide_eq_true hne), Recognizer.precedence, hf]
  rfl

/-- The operator of a type is found in the table. -/
theorem find?_round (N : env.network.InfixTables levels e s heads rounds after c)
    {x : StateId × Binding} {t : TokenType} (hx : x ∈ rounds) (h : x.2.token = t) :
    Binding.find? (rounds.map Prod.snd) t = some x.2 := by
  have hsome : (Binding.find? (rounds.map Prod.snd) t).isSome = true :=
    List.find?_isSome.2 ⟨x.2, List.mem_map_of_mem hx, by simp [h]⟩
  obtain ⟨b, hb⟩ := Option.isSome_iff_exists.1 hsome
  obtain ⟨y, hy, rfl, htoken⟩ := exists_of_find? hb
  rw [hb, N.eq_of_token hx hy (h.trans htoken.symm)]

/-- Where no operator at or above the floor comes next, the loop is left. -/
theorem performs_stop (N : env.network.InfixTables levels e s heads rounds after c)
    (hmode : env.config.mode = .sll) (hne : rounds ≠ []) {p : Int} {left : Expr}
    {rest : List (Token × Token)}
    (hknown : ∀ q ∈ rest, ∃ x ∈ rounds, x.2.token = q.1.kind)
    (hstop : ∀ op y more b, rest = (op, y) :: more →
      Binding.find? (rounds.map Prod.snd) op.kind = some b → b.level < p) :
    Performs env e after p left rest left rest := by
  intro j id fs hj hf _
  have hentry := (N.loop hne).entry
  have hedges := transitions_of_unnumbered hentry
  have hexit := (N.loop hne).exit
  have hkind : (env.network.state (after + 4)).kind = .loopEnd := congrArg NetworkState.kind hexit
  have hlen : 1 < (env.network.state after).transitions.length := by
    rw [hedges]
    exact Nat.lt_succ_self 1
  obtain ⟨d, hd, hdecision, hlt⟩ := N.decision after hlen
  have hrule : (env.network.state (env.network.decisionState d)).rule = e := by
    rw [hdecision]
    exact congrArg NetworkState.rule hentry
  have hnext : (∃ x ∈ rounds, j.recognizer.input.kind = x.2.token ∧ x.2.level < p) ∨
      j.recognizer.input.kind = TokenType.eof := by
    have hword := hj.word
    cases rest with
    | nil => exact .inr (TokenCursor.word_eq_nil hword)
    | cons q more =>
      obtain ⟨-, hop, -⟩ := TokenCursor.word_eq_cons hword
      obtain ⟨x, hx, htoken⟩ := hknown q (.head _)
      have hkind : j.recognizer.input.kind = q.1.kind := congrArg Token.kind hop
      exact .inl ⟨x, hx, hkind.trans htoken.symm,
        hstop q.1 q.2 more x.2 rfl (find?_round N hx htoken)⟩
  have hout : Advances env j (j.goTo (some (after + 4))) := by
    refine advances_decided (P := (· = 1)) hmode N.checked hj.state hd hlt hlen ?_ ?_
    · intro known hrecorded
      refine ⟨1, rfl, Simulation.predict_exit N hne hdecision trivial hrecorded ?_⟩
      rw [floor_loop N hne hrule hf]
      exact hnext
    · rintro _ rfl
      exact ⟨.epsilon (after + 4), _, by rw [hedges]; rfl, along_epsilon (.inr hkind), .refl env _⟩
  have hlast := advances_epsilon (j := j.goTo (some (after + 4))) N.checked rfl
    (transitions_of_unnumbered hexit) (congrArg NetworkState.precedenceDecision hexit)
  exact ⟨_, id, hout.trans hlast, ⟨rfl, hj.invocation, hj.stopped, hj.word, hj.depicts⟩,
    ⟨rfl, rfl, rfl, ⟨Nat.le_refl _, fun _ _ _ => rfl, rfl, rfl⟩, rfl, .inl rfl⟩⟩

/-- Of several operators the one that comes next is chosen. -/
theorem advances_choice (N : env.network.InfixTables levels e s heads rounds after c)
    (hmode : env.config.mode = .sll) {x : StateId × Binding} (hx : x ∈ rounds) {p : Int}
    {fs : List Int} (hs : j.recognizer.state = some (after + 1)) (hf : j.recognizer.floors = p :: fs)
    (hk : j.recognizer.input.kind = x.2.token) (hp : p ≤ x.2.level) :
    Advances env j (j.goTo (some x.1)) := by
  have hne := List.ne_nil_of_mem hx
  have hchoice := (N.loop hne).choice
  have hedges := transitions_of_unnumbered hchoice
  have hplain : (env.network.state (after + 1)).precedenceDecision = false :=
    congrArg NetworkState.precedenceDecision hchoice
  obtain ⟨i, hi⟩ := List.mem_iff_getElem?.1 hx
  by_cases hlen : 1 < rounds.length
  · have hlen' : 1 < (env.network.state (after + 1)).transitions.length := by
      rw [hedges, List.length_map]
      exact hlen
    obtain ⟨d, hd, hdecision, hlt⟩ := N.decision (after + 1) hlen'
    have hrule : (env.network.state (env.network.decisionState d)).rule = e := by
      rw [hdecision]
      exact congrArg NetworkState.rule hchoice
    refine advances_decided (P := (· = i)) hmode N.checked hs hd hlt hlen' ?_ ?_
    · intro known hrecorded
      refine ⟨i, rfl, Simulation.predict_choice N hi hdecision trivial hrecorded hk ?_⟩
      rw [floor_loop N hne hrule hf]
      exact hp
    · rintro _ rfl
      refine ⟨.epsilon x.1, _, ?_, along_epsilon (.inl hplain), .refl env _⟩
      rw [hedges, List.getElem?_map, hi]
      rfl
  · have hone : rounds = [x] := by
      obtain ⟨y, rfl⟩ := List.length_eq_one_iff.1
        (Nat.le_antisymm (Nat.not_lt.1 hlen) (List.length_pos_of_mem hx))
      rw [List.mem_singleton.1 hx]
    refine advances_epsilon N.checked hs ?_ hplain
    rw [hedges, hone]
    rfl

/-- Another round has begun after an invocation, and its operator was taken. -/
structure Begins (j j' : Interpreter) (e : RuleId) (id : InvocationId) (b : StateId) : Prop where
  state : j'.recognizer.state = some b
  invocation : j'.recognizer.invocation = some j.recognizer.forest.size
  input : j'.recognizer.input = j.recognizer.input.consume
  callers : j'.callers = j.callers
  floors : j'.recognizer.floors = j.recognizer.floors
  nesting : j'.recognizer.nesting = j.recognizer.nesting
  size : j'.recognizer.forest.size = j.recognizer.forest.size + 1
  keeps : j.recognizer.forest.Keeps j'.recognizer.forest id
  rule : (j'.recognizer.forest.get j.recognizer.forest.size).rule = e
  caller : (j'.recognizer.forest.get j.recognizer.forest.size).caller =
    (j.recognizer.forest.get id).caller
  children : (j'.recognizer.forest.get j.recognizer.forest.size).children =
    #[.rule id, .token j.recognizer.input.current]

/-- Another round and its operator, in the recognizer. -/
theorem begins_of_takes {j₁ : Interpreter} (h : Takes j₁ j' j.recognizer.forest.size b)
    (hlt : id < j.recognizer.forest.size) (hj₁ : ∃ state, j₁.recognizer = { j.recognizer with
      forest := j.recognizer.forest.pushRound e id a j.recognizer.input.previousIndex
      invocation := some j.recognizer.forest.size
      state }) (hcallers : j₁.callers = j.callers) : Begins j j' e id b := by
  obtain ⟨state, hj₁⟩ := hj₁
  obtain ⟨hkeeps, hsize, hnode⟩ :=
    Forest.keeps_pushRound e a j.recognizer.input.previousIndex hlt
  have hforest := h.forest
  rw [hj₁] at hforest
  dsimp only at hforest
  have hnew := Forest.get_addChild (.token j.recognizer.input.current)
    (Nat.lt_of_lt_of_eq (Nat.lt_succ_self _) hsize.symm)
  rw [hnode, ← hforest] at hnew
  have hsize' := (congrArg Forest.size hforest).trans (Forest.size_addChild _)
  refine ⟨h.state, h.invocation, h.input.trans (by rw [hj₁]), h.callers.trans hcallers,
    h.floors.trans (by rw [hj₁]), h.nesting.trans (by rw [hj₁]), hsize'.trans hsize, ?_, ?_, ?_, ?_⟩
  · refine hkeeps.append hlt (Nat.le_of_eq hsize'.symm) fun k hk => ?_
    rw [hforest]
    exact Forest.get_addChild_other _ (Nat.ne_of_lt hk)
  · exact (congrArg Invocation.rule hnew :)
  · exact (congrArg Invocation.caller hnew :)
  · exact (congrArg Invocation.children hnew :)

/-- Another round begins, and its operator is taken. -/
theorem advances_operator (N : env.network.InfixTables levels e s heads rounds after c)
    (hmode : env.config.mode = .sll) (htree : env.config.buildTrees = true)
    {x : StateId × Binding} (hx : x ∈ rounds) {p : Int} {fs : List Int}
    (hs : j.recognizer.state = some after) (hinv : j.recognizer.invocation = some id)
    (hlt : id < j.recognizer.forest.size) (hf : j.recognizer.floors = p :: fs)
    (hk : j.recognizer.input.kind = x.2.token) (hp : p ≤ x.2.level) :
    ∃ j', Advances env j j' ∧ Begins j j' e id (x.1 + 3) := by
  have hne := List.ne_nil_of_mem hx
  have hentry := (N.loop hne).entry
  have hedges := transitions_of_unnumbered hentry
  have hkind : (env.network.state (after + 1)).kind ≠ .loopEnd := by
    rw [show (env.network.state (after + 1)).kind = .starBlockStart from
      congrArg NetworkState.kind (N.loop hne).choice]
    nofun
  have hlen : 1 < (env.network.state after).transitions.length := by
    rw [hedges]
    exact Nat.lt_succ_self 1
  obtain ⟨d, hd, hdecision, hbound⟩ := N.decision after hlen
  have hrule : (env.network.state after).rule = e := congrArg NetworkState.rule hentry
  -- the parse past the entry of the loop
  let j₁ := (j.change fun r =>
    (r.pushRecursion (env.network.rule (env.network.state after).rule).start
      (env.network.state after).rule).2).goTo (some (after + 1))
  have hj₁ : j₁.recognizer = { j.recognizer with
      forest := j.recognizer.forest.pushRound e id (env.network.rule e).start
        j.recognizer.input.previousIndex
      invocation := some j.recognizer.forest.size
      state := some (after + 1) } := by
    show ({ (j.recognizer.pushRecursion _ _).2 with state := some (after + 1) } : Recognizer) = _
    rw [hrule, Recognizer.pushRecursion_eq _ _ hinv]
  have hbegin : Advances env j j₁ := by
    refine advances_decided (P := (· = 0)) hmode N.checked hs hd hbound hlen ?_ ?_
    · intro known hrecorded
      refine ⟨0, rfl, Simulation.predict_round N hx hdecision trivial hrecorded hk ?_⟩
      rw [floor_loop N hne (hdecision ▸ hrule) hf]
      exact hp
    · rintro _ rfl
      exact ⟨.epsilon (after + 1), _, by rw [hedges]; rfl,
        along_round (congrArg NetworkState.precedenceDecision hentry) hkind, .refl env _⟩
  have hround := N.round hx
  have hk₁ : j₁.recognizer.input.kind = x.2.token := by
    rw [hj₁]
    exact hk
  have hf₁ : j₁.recognizer.floors = p :: fs := by
    rw [hj₁]
    exact hf
  have hchoice : Advances env j₁ (j₁.goTo (some x.1)) := advances_choice N hmode hx rfl hf₁ hk₁ hp
  have hguard : Advances env (j₁.goTo (some x.1)) (j₁.goTo (some (x.1 + 1))) := by
    refine (along_precedence ?_).single N.checked rfl (transitions_of_unnumbered hround.guard)
    show j₁.recognizer.floors.head?.getD 0 ≤ x.2.level
    rw [hf₁]
    exact hp
  have htake := advances_atom (j := j₁.goTo (some (x.1 + 1))) N.checked rfl (N.take_round hx) hk₁
  have htakes := takes_take (j := j₁.goTo (some (x.1 + 1))) htree
    (show j₁.recognizer.invocation = some j.recognizer.forest.size by rw [hj₁]) (x.1 + 2)
  have hcall := advances_epsilon N.checked htakes.state (transitions_of_unnumbered hround.taken)
    (congrArg NetworkState.precedenceDecision hround.taken)
  refine ⟨_, (((hbegin.trans hchoice).trans hguard).trans htake).trans hcall,
    begins_of_takes (a := (env.network.rule e).start) (htakes.goTo (x.1 + 3)) hlt
      ⟨some (x.1 + 1), ?_⟩ rfl⟩
  show ({ j₁.recognizer with state := some (x.1 + 1) } : Recognizer) = _
  rw [hj₁]

/-- A parse is at a call of rule `e` in an invocation that is no expression yet, and these tokens are next. -/
structure Calling (j : Interpreter) (e : RuleId) (a : StateId) (id : InvocationId) (w : List Token) :
    Prop where
  state : j.recognizer.state = some a
  invocation : j.recognizer.invocation = some id
  lt : id < j.recognizer.forest.size
  unfinished : j.recognizer.forest.Unfinished e id
  stopped : j.recognizer.input.Stopped
  word : j.recognizer.input.word = w

theorem Calling.caller_newInvocation {w : List Token} (h : j.Calling e a id w) (rule : RuleId) (p : Int) :
    (j.recognizer.newInvocation rule p).caller = some a := by
  show (if j.recognizer.invocation.isSome then j.recognizer.state else none) = some a
  rw [h.invocation, h.state]
  rfl

/-- The called invocation has taken its operand. -/
structure Opens (j j' : Interpreter) (e : RuleId) (a : StateId) (id : InvocationId) (b : StateId)
    (p : Int) (x : Expr) (rest : List (Token × Token)) : Prop where
  holds : j'.Holds e b j.recognizer.forest.size x rest
  callers : j'.callers = (some id, some a) :: j.callers
  floors : j'.recognizer.floors = p :: j.recognizer.floors
  nesting : j'.recognizer.nesting =
    { j.recognizer.nesting with depth := j.recognizer.nesting.depth + 1 }
  size : j'.recognizer.forest.size = j.recognizer.forest.size + 1
  other : ∀ k < j.recognizer.forest.size, j'.recognizer.forest.get k = j.recognizer.forest.get k
  caller : (j'.recognizer.forest.get j.recognizer.forest.size).caller = some a

/-- A call has returned to `b`, and left an expression below the invocation that made it. -/
structure Calls (j j' : Interpreter) (e : RuleId) (id : InvocationId) (b : StateId) (x : Expr)
    (rest : List (Token × Token)) (sub : InvocationId) : Prop where
  state : j'.recognizer.state = some b
  invocation : j'.recognizer.invocation = some id
  stopped : j'.recognizer.input.Stopped
  word : j'.recognizer.input.word = interleave rest
  callers : j'.callers = j.callers
  floors : j'.recognizer.floors = j.recognizer.floors
  nesting : j'.recognizer.nesting = j.recognizer.nesting
  size_le : j.recognizer.forest.size ≤ j'.recognizer.forest.size
  other : ∀ k < j.recognizer.forest.size, k ≠ id →
    j'.recognizer.forest.get k = j.recognizer.forest.get k
  node : j'.recognizer.forest.get id = { j.recognizer.forest.get id with
    children := (j.recognizer.forest.get id).children.push (.rule sub) }
  depicts : j'.recognizer.forest.Depicts e sub x

/-- A call opens an invocation, which takes its operand. -/
theorem advances_open (N : env.network.InfixTables levels e s heads rounds after c)
    (hmode : env.config.mode = .sll) (htree : env.config.buildTrees = true) (hne : rounds ≠ [])
    {back : StateId} {p : Int} {y : Token} {rest : List (Token × Token)}
    (ht : (env.network.state a).transitions = [⟨(env.network.rule e).start, .rule e back p⟩])
    (hj : j.Calling e a id (y :: interleave rest)) (hy : y.kind ∈ heads.map Prod.snd)
    (hdepth : j.recognizer.nesting.depth < j.recognizer.nesting.limit) :
    ∃ j', Advances env j j' ∧ Opens j j' e a id after p (.operand y) rest := by
  obtain ⟨-, hcurrent, hword⟩ := TokenCursor.word_eq_cons hj.word
  obtain ⟨h, hh, hk⟩ := List.mem_map.1 hy
  have hrec : (env.network.rule e).leftRecursive = true := N.leftRecursive.trans (decide_eq_true hne)
  let node := j.recognizer.newInvocation e p
  -- the parse at the start of the rule
  let j₁ := Interpreter.goTo
    { j.change fun r => (r.enterRecursion env e p).2 with
      callers := (j.recognizer.invocation, j.recognizer.state) :: j.callers }
    (some (env.network.rule e).start)
  have hj₁ : j₁.recognizer = { j.recognizer with
      nesting := { j.recognizer.nesting with depth := j.recognizer.nesting.depth + 1 }
      forest := (j.recognizer.forest.alloc node).2
      floors := p :: j.recognizer.floors
      invocation := some j.recognizer.forest.size
      state := some (env.network.rule e).start } := by
    show ({ (j.recognizer.enterRecursion env e p).2 with
      state := some (env.network.rule e).start } : Recognizer) = _
    rw [Recognizer.enterRecursion_eq e p hdepth]
  have hbegin : Advances env j j₁ := (along_recursion hrec hdepth).single N.checked hj.state ht
  have hinput : j₁.recognizer.input = j.recognizer.input := by rw [hj₁]
  have hkind : j₁.recognizer.input.kind = h.2 := by
    rw [hinput, hk]
    exact congrArg Token.kind hcurrent
  have hoperand := advances_operand N hmode (j := j₁) rfl hh hkind
  have htakes := takes_take (j := j₁) htree
    (show j₁.recognizer.invocation = some j.recognizer.forest.size by rw [hj₁]) after
  refine ⟨_, hbegin.trans hoperand, ?_⟩
  generalize (j₁.change fun r => r.take env).goTo (some after) = j' at htakes
  have hforest := htakes.forest
  rw [hj₁] at hforest
  dsimp only at hforest
  have hsize : (j.recognizer.forest.alloc node).2.size = j.recognizer.forest.size + 1 :=
    Forest.size_alloc _ _
  have hnew : (j.recognizer.forest.alloc node).2.get j.recognizer.forest.size = node := by
    rw [Forest.get_alloc, if_pos rfl]
  have hget := Forest.get_addChild (.token j.recognizer.input.current)
    (Nat.lt_of_lt_of_eq (Nat.lt_succ_self _) hsize.symm)
  rw [hnew, ← hforest] at hget
  refine ⟨⟨htakes.state, htakes.invocation, ?_, ?_, .operand ?_ ?_⟩, ?_, ?_, ?_, ?_, ?_, ?_⟩
  · rw [htakes.input, hinput]
    exact hj.stopped.consume
  · rw [htakes.input, hinput, hword]
  · rw [hget]
    rfl
  · rw [hget, hcurrent]
    rfl
  · rw [htakes.callers, ← hj.invocation, ← hj.state]
    rfl
  · rw [htakes.floors, hj₁]
  · rw [htakes.nesting, hj₁]
  · rw [hforest, Forest.size_addChild, hsize]
  · intro k hlt
    rw [hforest, Forest.get_addChild_other _ (Nat.ne_of_lt hlt), Forest.get_alloc,
      if_neg (Nat.ne_of_lt hlt)]
  · rw [hget]
    exact hj.caller_newInvocation e p

/-- Only the called invocation and newer ones have changed. -/
theorem Opens.other_of_stays {p : Int} {y : Expr} {rest : List (Token × Token)} {j₁ j₂ : Interpreter}
    {sub k : InvocationId} (h : Opens j j₁ e a id b p y rest)
    (hstays : Stays j₁ j₂ j.recognizer.forest.size sub) (hk : k < j.recognizer.forest.size) :
    k ≠ sub ∧ j₂.recognizer.forest.get k = j.recognizer.forest.get k := by
  have hsize := h.size
  have hlt : k < j₁.recognizer.forest.size := hsize ▸ Nat.lt_succ_of_lt hk
  refine ⟨?_, (hstays.forest.other k hlt (Nat.ne_of_lt hk)).trans (h.other k hk)⟩
  rcases hstays.place with rfl | hle
  · exact Nat.ne_of_lt hk
  · exact Nat.ne_of_lt (Nat.lt_of_lt_of_le hlt hle)

/-- At the end of the called invocation the parse goes on behind the call. -/
theorem advances_close (N : env.network.InfixTables levels e s heads rounds after c)
    (hne : rounds ≠ []) {back : StateId} {p : Int} {x y : Expr} {w : List Token}
    {rest last : List (Token × Token)} {j₁ j₂ : Interpreter} {sub : InvocationId}
    (ht : (env.network.state a).transitions = [⟨(env.network.rule e).start, .rule e back p⟩])
    (hj : j.Calling e a id w) (hfloors : j.recognizer.floors ≠ [])
    (ho : Opens j j₁ e a id b p x rest) (hstays : Stays j₁ j₂ j.recognizer.forest.size sub)
    (hh : j₂.Holds e (env.network.rule e).stop sub y last) :
    ∃ j', Advances env j₂ j' ∧ Calls j j' e id back y last sub := by
  have hrec : (env.network.rule e).leftRecursive = true := N.leftRecursive.trans (decide_eq_true hne)
  have hcaller : (j₂.recognizer.forest.get sub).caller = some a := hstays.caller.trans ho.caller
  have hleave := @advances_leaveRule env _ _ _ hh.state N.isRuleStop_stop hh.invocation
    (hcaller ▸ rfl)
  have hcallers := hstays.callers.trans ho.callers
  rw [N.rule_stop, leaveRule_unroll hrec, hcallers] at hleave
  obtain ⟨-, hforest, hinv, hfl⟩ :=
    j₂.recognizer.unrollRecursion_eq (some id) hh.invocation
  have hnesting : (j₂.recognizer.unrollRecursion (some id)).2.nesting = j.recognizer.nesting := by
    rw [Recognizer.nesting_unrollRecursion _ hh.invocation, hstays.nesting, ho.nesting]
    rfl
  have hinput := (j₂.recognizer.onlyTree_unrollRecursion (some id)).input
  dsimp only at hforest
  have hunfinished : j₂.recognizer.forest.Unfinished e id := by
    unfold Forest.Unfinished
    rw [(ho.other_of_stays hstays hj.lt).2]
    exact hj.unfinished
  have hgrown : j.recognizer.forest.size < j₂.recognizer.forest.size :=
    Nat.lt_of_lt_of_le (Nat.lt_of_lt_of_eq (Nat.lt_succ_self _) ho.size.symm) hstays.forest.size_le
  obtain ⟨hsize, hnode, hother, hdepicts⟩ := hh.depicts.hang
    (g := fun i => { i with stop := j₂.recognizer.input.previousIndex, parent := some id }) hunfinished
    (Nat.lt_trans hj.lt hgrown) (fun _ => rfl) fun _ => rfl
  rw [← hforest] at hsize hnode hother hdepicts
  refine ⟨_, hleave, Network.followOf?_of_call ht, hinv, ?_, ?_, rfl, ?_, hnesting, ?_, ?_, ?_, hdepicts⟩
  · exact hinput ▸ hh.stopped
  · exact (congrArg TokenCursor.word hinput).trans hh.word
  · refine hfl.trans ?_
    rw [hstays.floors, ho.floors]
    cases hf : j.recognizer.floors with
    | nil => exact absurd hf hfloors
    | cons q fs => rfl
  · exact hsize ▸ Nat.le_of_lt hgrown
  · intro k hk hid
    obtain ⟨hsub, hsame⟩ := ho.other_of_stays hstays hk
    exact (hother k hid hsub).trans hsame
  · refine hnode.trans ?_
    rw [(ho.other_of_stays hstays hj.lt).2]

/-- A call of the rule reads as much as climbing from the floor of the call does. -/
theorem advances_recursiveCall (N : env.network.InfixTables levels e s heads rounds after c)
    (hmode : env.config.mode = .sll) (htree : env.config.buildTrees = true) (hne : rounds ≠ [])
    {back : StateId} {p : Int} {y : Token} {rest last : List (Token × Token)} {whole : Expr}
    (ht : (env.network.state a).transitions = [⟨(env.network.rule e).start, .rule e back p⟩])
    (hj : j.Calling e a id (y :: interleave rest)) (hfloors : j.recognizer.floors ≠ [])
    (hy : y.kind ∈ heads.map Prod.snd)
    (hdepth : j.recognizer.nesting.depth + (whole.nesting + 1) ≤ j.recognizer.nesting.limit)
    (hperforms : Performs env e after p (.operand y) rest whole last) :
    ∃ j' sub, Advances env j j' ∧ Calls j j' e id back whole last sub := by
  obtain ⟨j₁, hopen, ho⟩ := advances_open N hmode htree hne ht hj hy (by omega)
  obtain ⟨j₂, sub, hmiddle, hh, hstays⟩ := hperforms j₁ _ j.recognizer.floors ho.holds ho.floors (by
    rw [ho.nesting]
    dsimp only
    omega)
  obtain ⟨j', hclose, hcalls⟩ := advances_close N hne ht hj hfloors ho hstays hh
  exact ⟨j', sub, (hopen.trans hmiddle).trans hclose, hcalls⟩

/-- An operator is taken, its right operand is read, and the loop is entered again. -/
theorem performs_round (N : env.network.InfixTables levels e s heads rounds after c)
    (hmode : env.config.mode = .sll) (htree : env.config.buildTrees = true)
    {x : StateId × Binding} (hx : x ∈ rounds) {p : Int} {left right whole : Expr} {op y : Token}
    {more rest last : List (Token × Token)} (hop : x.2.token = op.kind) (hp : p ≤ x.2.level)
    (hy : y.kind ∈ heads.map Prod.snd) (hle : (Expr.binary left op right).nesting ≤ whole.nesting)
    (hright : Performs env e after x.2.floor (.operand y) more right rest)
    (h : Performs env e after p (.binary left op right) rest whole last) :
    Performs env e after p left ((op, y) :: more) whole last := by
  intro j id fs hj hf hdepth
  have hne := List.ne_nil_of_mem hx
  obtain ⟨-, hcurrent, hword⟩ := TokenCursor.word_eq_cons hj.word
  obtain ⟨j₁, hbegin, hb⟩ := advances_operator N hmode htree hx hj.state hj.invocation hj.depicts.lt hf
    ((congrArg Token.kind hcurrent).trans hop.symm) hp
  have hchildren : (j₁.recognizer.forest.get j.recognizer.forest.size).children =
      #[.rule id, .token op] := by rw [hb.children, hcurrent]
  have hcalling : j₁.Calling e (x.1 + 3) j.recognizer.forest.size (y :: interleave more) := by
    refine ⟨hb.state, hb.invocation, ?_, fun _ => ?_, ?_, ?_⟩
    · exact Nat.lt_of_lt_of_eq (Nat.lt_succ_self _) hb.size.symm
    · rw [hchildren]
      rfl
    · exact hb.input ▸ hj.stopped.consume
    · rw [hb.input, hword]
      rfl
  have hnesting : right.nesting + 1 ≤ whole.nesting := Nat.le_trans (Nat.le_max_right _ _) hle
  obtain ⟨j₂, sub, hcall, hc⟩ := advances_recursiveCall N hmode htree hne (N.call_round hx) hcalling
    (by rw [hb.floors, hf]; exact List.cons_ne_nil _ _) hy (by rw [hb.nesting]; omega) hright
  have hloop := N.loop hne
  have hback := advances_epsilon N.checked hc.state (transitions_of_unnumbered (N.round hx).back)
    (congrArg NetworkState.precedenceDecision (N.round hx).back)
  have hdone := advances_epsilon N.checked (j := j₂.goTo (some (after + 2))) rfl
    (transitions_of_unnumbered hloop.done) (congrArg NetworkState.precedenceDecision hloop.done)
  have hagain := advances_epsilon N.checked (j := j₂.goTo (some (after + 3))) rfl
    (transitions_of_unnumbered hloop.back) (congrArg NetworkState.precedenceDecision hloop.back)
  -- the invocations there were are as they were
  have hkeeps : j.recognizer.forest.Keeps j₂.recognizer.forest id :=
    hb.keeps.append hj.depicts.lt hc.size_le fun k hk =>
      hc.other k (Nat.lt_of_lt_of_eq (Nat.lt_succ_of_lt hk) hb.size.symm) (Nat.ne_of_lt hk)
  have hnode : (j₂.recognizer.forest.get j.recognizer.forest.size).children =
      #[.rule id, .token op, .rule sub] := by
    rw [hc.node, hchildren]
    rfl
  have hj₃ : (j₂.goTo (some after)).Holds e after j.recognizer.forest.size (.binary left op right)
      rest := by
    refine ⟨rfl, hc.invocation, hc.stopped, hc.word, .binary ?_ hnode ?_ hc.depicts⟩
    · exact (congrArg Invocation.rule hc.node).trans hb.rule
    · exact hj.depicts.keeps hkeeps
  obtain ⟨j', id', hrest, hh, hstays⟩ := h _ _ fs hj₃ ((hc.floors.trans hb.floors).trans hf) (by
    show j₂.recognizer.nesting.depth + _ ≤ j₂.recognizer.nesting.limit
    rw [hc.nesting, hb.nesting]
    exact hdepth)
  have hsize : j.recognizer.forest.size < j₂.recognizer.forest.size :=
    Nat.lt_of_lt_of_le (Nat.lt_of_lt_of_eq (Nat.lt_succ_self _) hb.size.symm) hc.size_le
  refine ⟨j', id', ((((hbegin.trans hcall).trans hback).trans hdone).trans hagain).trans hrest, hh, ?_⟩
  refine ⟨?_, ?_, ?_, ?_, ?_, ?_⟩
  · exact (hstays.callers.trans hc.callers).trans hb.callers
  · exact (hstays.floors.trans hc.floors).trans hb.floors
  · exact (hstays.nesting.trans hc.nesting).trans hb.nesting
  · exact hkeeps.append hj.depicts.lt hstays.forest.size_le fun k hk =>
      hstays.forest.other k (Nat.lt_trans hk hsize) (Nat.ne_of_lt hk)
  · refine hstays.caller.trans ((congrArg Invocation.caller hc.node).trans ?_)
    exact hb.caller
  · rcases hstays.place with rfl | hle
    · exact .inr (Nat.le_refl _)
    · exact .inr (Nat.le_trans (Nat.le_of_lt hsize) hle)

/-- What climbing does the parse does. -/
theorem performs_climbs (N : env.network.InfixTables levels e s heads rounds after c)
    (hmode : env.config.mode = .sll) (htree : env.config.buildTrees = true) (hne : rounds ≠ [])
    {p : Int} {left whole : Expr} {rest last : List (Token × Token)}
    (h : Climbs (rounds.map Prod.snd) p left rest whole last)
    (hknown : ∀ q ∈ rest, (∃ x ∈ rounds, x.2.token = q.1.kind) ∧ q.2.kind ∈ heads.map Prod.snd) :
    Performs env e after p left rest whole last := by
  induction h with
  | stop hstop => exact performs_stop N hmode hne (fun q hq => (hknown q hq).1) hstop
  | round hb hfloor hright h ih₁ ih₂ =>
    obtain ⟨x, hx, rfl, hop⟩ := exists_of_find? hb
    have hmore := fun q hq => hknown q (.tail _ hq)
    exact performs_round N hmode htree hx hop hfloor (hknown _ (.head _)).2 h.nesting_le (ih₁ hmore)
      (ih₂ fun q hq => hmore q (hright.suffix.subset hq))

/-- Without operators a called invocation hangs below the one that called it from its beginning on, and takes
its operand. -/
structure OpensBelow (j j' : Interpreter) (e : RuleId) (a : StateId) (id : InvocationId) (b : StateId)
    (y : Token) : Prop where
  state : j'.recognizer.state = some b
  invocation : j'.recognizer.invocation = some j.recognizer.forest.size
  input : j'.recognizer.input = j.recognizer.input.consume
  callers : j'.callers = j.callers
  floors : j'.recognizer.floors = j.recognizer.floors
  nesting : j'.recognizer.nesting =
    { j.recognizer.nesting with depth := j.recognizer.nesting.depth + 1 }
  size : j'.recognizer.forest.size = j.recognizer.forest.size + 1
  new : j'.recognizer.forest.get j.recognizer.forest.size =
    { j.recognizer.newInvocation e 0 with children := #[.token y] }
  node : j'.recognizer.forest.get id = { j.recognizer.forest.get id with
    children := (j.recognizer.forest.get id).children.push (.rule j.recognizer.forest.size) }
  other : ∀ k < j.recognizer.forest.size, k ≠ id →
    j'.recognizer.forest.get k = j.recognizer.forest.get k

theorem plain_of_nil (N : env.network.InfixTables levels e s heads rounds after c) (hnil : rounds = []) :
    (env.network.rule e).leftRecursive = false :=
  N.leftRecursive.trans (decide_eq_false (not_not_intro hnil))

theorem advances_openBelow (N : env.network.InfixTables levels e s heads rounds after c)
    (hmode : env.config.mode = .sll) (htree : env.config.buildTrees = true) (hnil : rounds = [])
    {back : StateId} {p : Int} {y : Token}
    (ht : (env.network.state a).transitions = [⟨(env.network.rule e).start, .rule e back p⟩])
    (hj : j.Calling e a id [y]) (hy : y.kind ∈ heads.map Prod.snd)
    (hdepth : j.recognizer.nesting.depth < j.recognizer.nesting.limit) :
    ∃ j', Advances env j j' ∧ OpensBelow j j' e a id (env.network.rule e).stop y := by
  obtain ⟨-, hcurrent, -⟩ := TokenCursor.word_eq_cons hj.word
  obtain ⟨h, hh, hk⟩ := List.mem_map.1 hy
  -- the parse at the start of the rule
  let j₁ := (j.change fun r => (r.enterRule env e).2).goTo (some (env.network.rule e).start)
  have hj₁ : j₁.recognizer = { j.recognizer with
      nesting := { j.recognizer.nesting with depth := j.recognizer.nesting.depth + 1 }
      forest := (j.recognizer.forest.alloc (j.recognizer.newInvocation e 0)).2.addChild id
        (.rule j.recognizer.forest.size)
      invocation := some j.recognizer.forest.size
      state := some (env.network.rule e).start } := by
    show ({ (j.recognizer.enterRule env e).2 with
      state := some (env.network.rule e).start } : Recognizer) = _
    rw [Recognizer.enterRule_eq e hdepth]
    unfold Recognizer.addChild
    dsimp only
    rw [hj.invocation]
  have hbegin : Advances env j j₁ :=
    (along_rule (plain_of_nil N hnil) hdepth).single N.checked hj.state ht
  have hinput : j₁.recognizer.input = j.recognizer.input := by rw [hj₁]
  have hkind : j₁.recognizer.input.kind = h.2 := by
    rw [hinput, hk]
    exact congrArg Token.kind hcurrent
  have hoperand := advances_operand N hmode (j := j₁) rfl hh hkind
  have htakes := takes_take (j := j₁) htree
    (show j₁.recognizer.invocation = some j.recognizer.forest.size by rw [hj₁]) after
  rw [N.after_eq hnil] at hoperand htakes
  refine ⟨_, hbegin.trans hoperand, ?_⟩
  generalize (j₁.change fun r => r.take env).goTo (some (env.network.rule e).stop) = j' at htakes
  obtain ⟨hsize, hnew, hnode, hother⟩ :=
    Forest.get_allocBelow hj.lt (j.recognizer.newInvocation e 0) (.token y)
  have hforest := htakes.forest
  rw [hj₁] at hforest
  dsimp only at hforest
  rw [hcurrent] at hforest
  rw [← hforest] at hsize hnew hnode hother
  exact ⟨htakes.state, htakes.invocation, by rw [htakes.input, hinput], htakes.callers,
    by rw [htakes.floors, hj₁], by rw [htakes.nesting, hj₁], hsize, hnew, hnode, hother⟩

/-- Without operators a call reads an operand. -/
theorem advances_plainCall (N : env.network.InfixTables levels e s heads rounds after c)
    (hmode : env.config.mode = .sll) (htree : env.config.buildTrees = true) (hnil : rounds = [])
    {back : StateId} {p : Int} {y : Token}
    (ht : (env.network.state a).transitions = [⟨(env.network.rule e).start, .rule e back p⟩])
    (hj : j.Calling e a id [y]) (hy : y.kind ∈ heads.map Prod.snd)
    (hdepth : j.recognizer.nesting.depth < j.recognizer.nesting.limit) :
    ∃ j' sub, Advances env j j' ∧ Calls j j' e id back (.operand y) [] sub := by
  obtain ⟨-, -, hword⟩ := TokenCursor.word_eq_cons hj.word
  obtain ⟨j₁, hopen, ho⟩ := advances_openBelow N hmode htree hnil ht hj hy hdepth
  have hnew := ho.new
  have hcaller : (j₁.recognizer.forest.get j.recognizer.forest.size).caller = some a := by
    rw [hnew]
    exact hj.caller_newInvocation e 0
  have hleave := @advances_leaveRule env _ _ _ ho.state N.isRuleStop_stop ho.invocation
    (hcaller ▸ rfl)
  rw [N.rule_stop, leaveRule_plain (plain_of_nil N hnil)] at hleave
  obtain ⟨stop, hexit, hinv, hstate, hfloors⟩ := Recognizer.exitRule_eq ho.invocation
  have hinput := j₁.recognizer.onlyTree_exitRule.input
  have hother : ∀ l, l ≠ j.recognizer.forest.size →
      j₁.recognizer.exitRule.forest.get l = j₁.recognizer.forest.get l := by
    intro l hl
    rw [hexit, Forest.get_modify_other _ _ _ _ hl]
  have hlast : j₁.recognizer.exitRule.forest.get j.recognizer.forest.size =
      { j₁.recognizer.forest.get j.recognizer.forest.size with stop } := by
    rw [hexit, Forest.get_modify _ _ _ (Nat.lt_of_lt_of_eq (Nat.lt_succ_self _) ho.size.symm)]
  refine ⟨_, j.recognizer.forest.size, hopen.trans hleave, ?_, ?_, ?_, ?_, ho.callers, ?_, ?_, ?_, ?_, ?_,
    .operand ?_ ?_⟩
  · show j₁.recognizer.exitRule.state.bind env.network.followOf? = some back
    rw [hstate, hcaller]
    exact Network.followOf?_of_call ht
  · refine hinv.trans ?_
    rw [hnew]
    exact hj.invocation
  · show j₁.recognizer.exitRule.input.Stopped
    rw [hinput, ho.input]
    exact hj.stopped.consume
  · show j₁.recognizer.exitRule.input.word = []
    rw [hinput, ho.input, hword]
  · exact hfloors.trans ho.floors
  · refine (Recognizer.nesting_exitRule ho.invocation).trans ?_
    rw [ho.nesting]
    rfl
  · show j.recognizer.forest.size ≤ j₁.recognizer.exitRule.forest.size
    rw [hexit, Forest.size_modify, ho.size]
    exact Nat.le_succ _
  · intro l hl hne
    exact (hother l (Nat.ne_of_lt hl)).trans (ho.other l hl hne)
  · exact (hother id (Nat.ne_of_lt hj.lt)).trans ho.node
  · refine (congrArg Invocation.rule hlast).trans ?_
    exact (congrArg Invocation.rule hnew :)
  · refine (congrArg Invocation.children hlast).trans ?_
    exact (congrArg Invocation.children hnew :)

end

end Interpreter

end AdaptiveParsing
