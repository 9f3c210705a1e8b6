import AdaptiveParsing.Proofs.Network.Compiled
import AdaptiveParsing.Recognition.Interpreter
/-!
Parse trees as derivations. The children of an invocation spell a way through the network
(`Spells`): a token is taken along an edge, an invocation stands for a call. An invocation of an
ordinary rule spells a way from start to stop; one of a left-recursive rule either a way to the loop
of operators, or, after a first child of the same rule, one round of that loop (`Completes`). Main
statements: what is spelled stays spelled while the forest grows (`Spells.extends`), and finished
invocations in the order they were finished are derivations (`Finished.derivation`).
-/

namespace AdaptiveParsing

/-- A parse takes token `t` along an edge of this kind. -/
def Network.Takes (n : Network) (k : EdgeKind) (t : Token) : Prop :=
  match k with
  | .atom a => t.kind = a
  | .wildcard => TokenType.firstUser ≤ t.kind
  | .range _ _ | .set _ | .notSet _ => ∃ types, n.label? k = some types ∧ t.kind ∈ types
  | _ => False

/-- The loop of operators of a left-recursive rule. -/
def Network.IsLoop (n : Network) (r : RuleId) (loop : StateId) : Prop :=
  (n.state loop).rule = r ∧ (n.state loop).precedenceDecision = true

/-- A condition held: with the children the invocation had so far, at a state, and its number. -/
abbrev Conditions := List Child → StateId → RuleId → Nat → Prop

section

variable (n : Network) (f : Forest)

/-- The invocation is what a call of rule `r` with this precedence leads to. -/
structure AnswersCall (r : RuleId) (precedence : Int) (id : InvocationId) : Prop where
  lt : id < f.size
  rule : (f.get id).rule = r
  precedence : (f.get id).precedence = if (n.rule r).leftRecursive then precedence else 0

variable (held : Conditions)

/-- An edge is crossed after some children: which children and which levels that adds. -/
inductive Crosses (s : StateId) (t : Transition) (children : List Child) :
    List Child → List Int → Prop
  | free (hk : t.kind = .epsilon ∨ ∃ r index, t.kind = .action r index) : Crosses s t children [] []
  | condition {r : RuleId} {index : Nat} {dependent : Bool}
      (hk : t.kind = .predicate r index dependent) (hh : held children s r index) :
      Crosses s t children [] []
  | level {level : Int} (hk : t.kind = .precedence level) : Crosses s t children [] [level]
  | token {token : Token} (hk : n.Takes t.kind token) : Crosses s t children [.token token] []
  | call {r : RuleId} {follow : StateId} {precedence : Int} {id : InvocationId}
      (hk : t.kind = .rule r follow precedence) (ha : AnswersCall n f r precedence id) :
      Crosses s t children [.rule id] []

/-- The children spell a way from `start` to a state, on which these levels are asked for. -/
inductive Spells (start : StateId) : StateId → List Child → List Int → Prop
  | refl : Spells start start [] []
  | step {s : StateId} {children added : List Child} {levels more : List Int} {t : Transition}
      (h : Spells start s children levels) (ht : t ∈ (n.state s).transitions)
      (hc : Crosses n f held s t children added more) :
      Spells start t.next (children ++ added) (levels ++ more)

/-- The children of an invocation of rule `r` with this floor are complete. -/
inductive Completes (levels : Int → Prop) (r : RuleId) (floor : Int) (children : List Child) : Prop
  /-- An ordinary rule: from its start to its stop. -/
  | ordinary (hr : (n.rule r).leftRecursive = false)
      (h : Spells n f held (n.rule r).start (n.rule r).stop children [])
  /-- An alternative that starts without an operand. -/
  | head {loop : StateId} (hr : (n.rule r).leftRecursive = true) (hl : n.IsLoop r loop)
      (h : Spells n f held (n.rule r).start loop children [])
  /-- An operand of the same rule, and one operator at or above the floor. -/
  | operator {loop : StateId} {first : InvocationId} {rest : List Child} {level : Int}
      (hr : (n.rule r).leftRecursive = true) (hl : n.IsLoop r loop)
      (hc : children = .rule first :: rest) (hlt : first < f.size) (hrule : (f.get first).rule = r)
      (hfloor : (f.get first).precedence = floor)
      (h : Spells n f (fun children => held (.rule first :: children)) loop loop rest [level])
      (hlevel : levels level) (hle : floor ≤ level)

end

/-- The invocation and all below it are complete. -/
inductive Derivation (n : Network) (levels : RuleId → Int → Prop) (f : Forest)
    (held : InvocationId → Conditions) : InvocationId → Prop
  | node {id : InvocationId}
      (h : Completes n f (held id) (levels (f.get id).rule) (f.get id).rule (f.get id).precedence
        (f.get id).children.toList)
      (hc : ∀ child, .rule child ∈ (f.get id).children.toList → Derivation n levels f held child) :
      Derivation n levels f held id

/-- Invocations stay, with their rules and their floors. -/
structure Forest.Extends (f f' : Forest) : Prop where
  size : f.size ≤ f'.size
  rule : ∀ id, id < f.size → (f'.get id).rule = (f.get id).rule
  precedence : ∀ id, id < f.size → (f'.get id).precedence = (f.get id).precedence

variable {n : Network} {f f' f'' : Forest} {held : Conditions} {s a : StateId} {t : Transition}
  {children added : List Child} {asked more : List Int} {r : RuleId} {floor : Int}
  {levels : Int → Prop}

theorem Forest.Extends.refl (f : Forest) : f.Extends f :=
  ⟨Nat.le_refl _, fun _ _ => rfl, fun _ _ => rfl⟩

theorem Forest.Extends.trans (h : f.Extends f') (h' : f'.Extends f'') : f.Extends f'' := by
  have hlt : ∀ id, id < f.size → id < f'.size := fun id hid => Nat.lt_of_lt_of_le hid h.size
  refine ⟨Nat.le_trans h.size h'.size, ?_, ?_⟩
  · intro id hid
    rw [h'.rule id (hlt id hid), h.rule id hid]
  · intro id hid
    rw [h'.precedence id (hlt id hid), h.precedence id hid]

theorem AnswersCall.extends {precedence : Int} {id : InvocationId}
    (h : AnswersCall n f r precedence id) (he : f.Extends f') : AnswersCall n f' r precedence id :=
  ⟨Nat.lt_of_lt_of_le h.lt he.size, by rw [he.rule id h.lt, h.rule],
    by rw [he.precedence id h.lt, h.precedence]⟩

theorem Crosses.extends (h : Crosses n f held s t children added more) (he : f.Extends f') :
    Crosses n f' held s t children added more := by
  cases h with
  | free hk => exact .free hk
  | condition hk hh => exact .condition hk hh
  | level hk => exact .level hk
  | token hk => exact .token hk
  | call hk ha => exact .call hk (ha.extends he)

theorem Crosses.more_of_epsilon (h : Crosses n f held s t children added more)
    (hk : t.kind = .epsilon) : added = [] ∧ more = [] := by
  cases h with
  | free _ | condition _ _ => exact ⟨rfl, rfl⟩
  | level hk' | call hk' _ =>
    rw [hk] at hk'
    cases hk'
  | token hk' =>
    rw [hk] at hk'
    cases hk'

theorem Crosses.more_of_level {level : Int} (h : Crosses n f held s t children added more)
    (hk : t.kind = .precedence level) : added = [] ∧ more = [level] := by
  cases h with
  | free hk' =>
    rw [hk] at hk'
    rcases hk' with hk' | ⟨_, _, hk'⟩ <;> cases hk'
  | level hk' =>
    rw [hk] at hk'
    cases hk'
    exact ⟨rfl, rfl⟩
  | condition hk' _ | call hk' _ =>
    rw [hk] at hk'
    cases hk'
  | token hk' =>
    rw [hk] at hk'
    cases hk'

theorem Crosses.more_of_not_level (h : Crosses n f held s t children added more)
    (hk : t.kind.isPrecedence = false) : more = [] := by
  cases h with
  | level hk' =>
    rw [hk'] at hk
    cases hk
  | free _ | condition _ _ | token _ | call _ _ => rfl

/-- After a first child, an edge is crossed as it is without it. -/
theorem Crosses.tail {first : Child} (h : Crosses n f held s t (first :: children) added more) :
    Crosses n f (fun children => held (first :: children)) s t children added more := by
  cases h with
  | free hk => exact .free hk
  | condition hk hh => exact .condition hk hh
  | level hk => exact .level hk
  | token hk => exact .token hk
  | call hk ha => exact .call hk ha

/-- What is spelled stays spelled while the forest grows. -/
theorem Spells.extends (h : Spells n f held a s children asked) (he : f.Extends f') :
    Spells n f' held a s children asked := by
  induction h with
  | refl => exact .refl
  | step _ ht hc ih => exact .step ih ht (hc.extends he)

theorem Completes.extends (h : Completes n f held levels r floor children) (he : f.Extends f') :
    Completes n f' held levels r floor children := by
  cases h with
  | ordinary hr h => exact .ordinary hr (h.extends he)
  | head hr hl h => exact .head hr hl (h.extends he)
  | operator hr hl hc hlt hrule hfloor h hlevel hle =>
    refine .operator hr hl hc (Nat.lt_of_lt_of_le hlt he.size) ?_ ?_ (h.extends he) hlevel hle
    · rw [he.rule _ hlt, hrule]
    · rw [he.precedence _ hlt, hfloor]

/-- Invocations, the last one finished first: each is complete, and those below it were finished
before. -/
inductive Finished (n : Network) (levels : RuleId → Int → Prop) (f : Forest)
    (held : InvocationId → Conditions) : List InvocationId → Prop
  | nil : Finished n levels f held []
  | cons {id : InvocationId} {ids : List InvocationId}
      (h : Completes n f (held id) (levels (f.get id).rule) (f.get id).rule (f.get id).precedence
        (f.get id).children.toList)
      (hc : ∀ child, .rule child ∈ (f.get id).children.toList → child ∈ ids)
      (hids : Finished n levels f held ids) : Finished n levels f held (id :: ids)

section

variable {levels : RuleId → Int → Prop} {held : InvocationId → Conditions} {ids : List InvocationId}

/-- Finished invocations are derivations. -/
theorem Finished.derivation (h : Finished n levels f held ids) :
    ∀ id ∈ ids, Derivation n levels f held id := by
  induction h with
  | nil =>
    intro id hid
    cases hid
  | cons h hc _ ih =>
    intro id hid
    rcases List.mem_cons.1 hid with rfl | hid
    · exact .node h fun child hchild => ih child (hc child hchild)
    · exact ih id hid

/-- Invocations stay finished if no children are added to them. -/
theorem Finished.extends (h : Finished n levels f held ids) (he : f.Extends f')
    (hlt : ∀ id ∈ ids, id < f.size)
    (hsame : ∀ id ∈ ids, (f'.get id).children = (f.get id).children) :
    Finished n levels f' held ids := by
  induction h with
  | nil => exact .nil
  | cons h hc _ ih =>
    refine .cons ?_ ?_ (ih (fun id hid => hlt id (.tail _ hid)) fun id hid => hsame id (.tail _ hid))
    · rw [he.rule _ (hlt _ (.head _)), he.precedence _ (hlt _ (.head _)), hsame _ (.head _)]
      exact h.extends he
    · rw [hsame _ (.head _)]
      exact hc

end

/-- How far an invocation of rule `r` has come at a state. The loop and the zones are those of the
rule if it is left-recursive. -/
inductive Underway (n : Network) (f : Forest) (held : Conditions) (levels : Int → Prop) (r : RuleId)
    (floor : Int) (loop : StateId) (zone : StateId → Zone) (s : StateId) (children : List Child) :
    Prop
  | plain (hr : (n.rule r).leftRecursive = false)
      (h : Spells n f held (n.rule r).start s children [])
  | head (hr : (n.rule r).leftRecursive = true) (hz : zone s = .head)
      (h : Spells n f held (n.rule r).start s children [])
  | whole (hr : (n.rule r).leftRecursive = true) (hz : s = loop ∨ zone s = .ended)
      (h : Completes n f held levels r floor children)
  | guard {first : InvocationId} {rest : List Child} (hr : (n.rule r).leftRecursive = true)
      (hz : zone s = .guard) (hc : children = .rule first :: rest) (hlt : first < f.size)
      (hrule : (f.get first).rule = r) (hfloor : (f.get first).precedence = floor)
      (h : Spells n f (fun children => held (.rule first :: children)) loop s rest [])
  | operator {first : InvocationId} {rest : List Child} {level : Int}
      (hr : (n.rule r).leftRecursive = true) (hz : zone s = .operator)
      (hc : children = .rule first :: rest) (hlt : first < f.size)
      (hrule : (f.get first).rule = r) (hfloor : (f.get first).precedence = floor)
      (h : Spells n f (fun children => held (.rule first :: children)) loop s rest [level])
      (hlevel : levels level) (hle : floor ≤ level)

section

variable {loop : StateId} {zone : StateId → Zone}

theorem Underway.extends (h : Underway n f held levels r floor loop zone s children)
    (he : f.Extends f') : Underway n f' held levels r floor loop zone s children := by
  cases h with
  | plain hr h => exact .plain hr (h.extends he)
  | head hr hz h => exact .head hr hz (h.extends he)
  | whole hr hz h => exact .whole hr hz (h.extends he)
  | guard hr hz hc hlt hrule hfloor h =>
    refine .guard hr hz hc (Nat.lt_of_lt_of_le hlt he.size) ?_ ?_ (h.extends he)
    · rw [he.rule _ hlt, hrule]
    · rw [he.precedence _ hlt, hfloor]
  | operator hr hz hc hlt hrule hfloor h hlevel hle =>
    refine .operator hr hz hc (Nat.lt_of_lt_of_le hlt he.size) ?_ ?_ (h.extends he) hlevel hle
    · rw [he.rule _ hlt, hrule]
    · rw [he.precedence _ hlt, hfloor]

variable (hs : RuleShape n.state r (n.rule r) levels n.states.size)
  (hloop : (n.rule r).leftRecursive = true → LoopShape n.state r (n.rule r) levels loop zone)

include hloop

/-- At the start of its rule an invocation has no children. -/
theorem Underway.start :
    Underway n f held levels r floor loop zone (n.rule r).start [] := by
  cases hr : (n.rule r).leftRecursive with
  | false => exact .plain hr .refl
  | true => exact .head hr (hloop hr).zone_start .refl

/-- At the stop of its rule an invocation is complete. -/
theorem Underway.stop (h : Underway n f held levels r floor loop zone (n.rule r).stop children) :
    Completes n f held levels r floor children := by
  cases h with
  | plain hr h => exact .ordinary hr h
  | whole hr hz h => exact h
  | head hr hz | guard hr hz | operator hr hz =>
    rw [(hloop hr).zone_stop] at hz
    cases hz

/-- At the loop an invocation is complete. -/
theorem Underway.complete (hr : (n.rule r).leftRecursive = true)
    (h : Underway n f held levels r floor loop zone loop children) :
    Completes n f held levels r floor children := by
  cases h with
  | plain hr' h =>
    rw [hr] at hr'
    cases hr'
  | whole hr hz h => exact h
  | head hr hz | guard hr hz | operator hr hz =>
    rw [(hloop hr).zone_loop] at hz
    cases hz

include hs

/-- An edge takes an invocation further, unless it begins another round. -/
theorem Underway.step (hrule : (n.state s).rule = r)
    (h : Underway n f held levels r floor loop zone s children)
    (ht : t ∈ (n.state s).transitions) (hc : Crosses n f held s t children added more)
    (hround : (n.state s).precedenceDecision = true → t.kind = .epsilon →
      (n.state t.target).kind = .loopEnd)
    (hfloor : ∀ level ∈ more, floor ≤ level) :
    Underway n f held levels r floor loop zone t.next (children ++ added) := by
  cases h with
  | plain hr h =>
    have hmore := hc.more_of_not_level ((hs.plain hr).no_levels s hrule t ht)
    have hstep := h.step ht hc
    rw [hmore] at hstep
    exact .plain hr hstep
  | head hr hz h =>
    obtain ⟨hk, hnext⟩ := (hloop hr).head s hrule hz t ht
    have hstep := h.step ht hc
    rw [hc.more_of_not_level hk] at hstep
    rcases hnext with hnext | hnext
    · exact .head hr hnext hstep
    · rw [hnext] at hstep
      refine .whole hr (.inl hnext) (.head hr ⟨?_, ?_⟩ hstep)
      · exact (hloop hr).loop_rule
      · exact (hloop hr).loop_marked
  | whole hr hz h =>
    -- only free edges lead on from here
    have hfree : t.kind = .epsilon ∧ zone t.target = .ended := by
      rcases hz with rfl | hz
      · obtain ⟨hk, hif⟩ := (hloop hr).rounds t ht
        rw [if_pos (hround (hloop hr).loop_marked hk)] at hif
        exact ⟨hk, hif⟩
      · exact (hloop hr).ended s hrule hz t ht
    have hnext : t.next = t.target := by simp [Transition.next, hfree.1]
    rw [(hc.more_of_epsilon hfree.1).1, List.append_nil, hnext]
    exact .whole hr (.inr hfree.2) h
  | guard hr hz hchildren hlt hrule' hfloor' h =>
    subst hchildren
    rcases (hloop hr).guard s hrule hz t ht with ⟨level, hk, hlevel, hnext⟩ | ⟨hk, hnext⟩
    · obtain ⟨hadded, hmore⟩ := hc.more_of_level hk
      have hstep := h.step ht hc.tail
      rw [hadded, hmore, List.append_nil] at hstep
      have htarget : t.next = t.target := by simp [Transition.next, hk]
      rw [hadded, List.append_nil]
      refine .operator hr ?_ rfl hlt hrule' hfloor' hstep hlevel (hfloor level ?_)
      · rw [htarget, hnext]
      · rw [hmore]
        exact .head _
    · obtain ⟨hadded, hmore⟩ := hc.more_of_epsilon hk
      have hstep := h.step ht hc.tail
      rw [hadded, hmore, List.append_nil] at hstep
      have htarget : t.next = t.target := by simp [Transition.next, hk]
      rw [hadded, List.append_nil]
      refine .guard hr ?_ rfl hlt hrule' hfloor' hstep
      rw [htarget, hnext]
  | operator hr hz hchildren hlt hrule' hfloor' h hlevel hle =>
    subst hchildren
    obtain ⟨hk, hnext⟩ := (hloop hr).operator s hrule hz t ht
    have hstep := h.step ht hc.tail
    rw [hc.more_of_not_level hk, List.append_nil] at hstep
    rcases hnext with hnext | hnext
    · exact .operator hr hnext rfl hlt hrule' hfloor' hstep hlevel hle
    · rw [hnext] at hstep
      refine .whole hr (.inl hnext) (.operator hr ⟨?_, ?_⟩ rfl hlt hrule' hfloor' hstep hlevel hle)
      · exact (hloop hr).loop_rule
      · exact (hloop hr).loop_marked

end

end AdaptiveParsing
