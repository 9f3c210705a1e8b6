import AdaptiveParsing.Proofs.Network.Bodies
/-!
The network of a grammar. Building a network keeps the states and edges of its draft, and the check
of the draft puts calls at the starts of the rules they name. Main statement: the rules of a compiled
grammar have their shapes (`Grammar.shaped_compile`).
-/

namespace AdaptiveParsing

/-- The rules of the network have their shapes, with these levels, and calls enter them. -/
structure Network.Shaped (n : Network) (levels : RuleId → Int → Prop) : Prop where
  rule : ∀ r, r < n.rules.size → RuleShape n.state r (n.rule r) (levels r) n.states.size
  alone : ∀ s, ∀ t ∈ (n.state s).transitions, t.call? ≠ none →
    (n.state s).transitions = [t] ∧ t.next = s + 1 ∧ 0 ≤ t.argument
  call : ∀ s, ∀ t ∈ (n.state s).transitions, ∀ r follow precedence,
    t.kind = .rule r follow precedence → r < n.rules.size ∧ t.target = (n.rule r).start

theorem Network.lt_of_edge {n : Network} {s : StateId} {t : Transition}
    (ht : t ∈ (n.state s).transitions) : s < n.states.size := by
  by_contra hs
  rw [state, Array.getD_eq_getD_getElem?, Array.getElem?_eq_none (Nat.le_of_not_lt hs)] at ht
  cases ht

/-- Some call that leaves the state returns there. -/
theorem Network.exists_call_of_followOf? {n : Network} {s back : StateId} (h : n.followOf? s = some back) :
    ∃ t ∈ (n.state s).transitions, t.call?.isSome = true ∧ t.next = back := by
  obtain ⟨t, ht, hcall⟩ := List.exists_of_findSome?_eq_some h
  refine ⟨t, ht, ?_⟩
  cases hk : t.kind with
  | rule r follow precedence =>
    simp only [Transition.call?, hk, Option.map_some, Option.some.injEq] at hcall
    simpa [Transition.call?, Transition.next, hk] using hcall
  | _ => simp [Transition.call?, hk] at hcall

/-- A call returns to the state that its edge names. -/
theorem Network.Shaped.followOf?_eq {n : Network} {levels : RuleId → Int → Prop} (h : n.Shaped levels)
    {s follow : StateId} {t : Transition} {r : RuleId} {precedence : Int}
    (ht : t ∈ (n.state s).transitions) (hk : t.kind = .rule r follow precedence) :
    n.followOf? s = some follow := by
  have hcall : t.call? = some (r, follow) := by simp [Transition.call?, hk]
  obtain ⟨halone, -⟩ := h.alone s t ht (by simp [hcall])
  simp [followOf?, halone, hcall]

/-- One of the operators of rule `r` has this level. -/
def Grammar.HasLevel (g : Grammar) (r : RuleId) (level : Int) : Prop :=
  ∃ rule, g.rules[r]? = some rule ∧ rule.HasLevel level

/-- A loop stops nowhere if it passes every element. -/
theorem forM_eq_ok_iff {α : Type} {f : α → Except NetworkError Unit} {l : List α} :
    l.forM f = .ok () ↔ ∀ a ∈ l, f a = .ok () := by
  induction l with
  | nil => exact ⟨fun _ a ha => absurd ha (by simp), fun _ => rfl⟩
  | cons a rest ih =>
    rw [List.forM, List.forall_mem_cons, ← ih]
    cases f a with
    | error e => exact ⟨fun h => absurd h (by simp [bind, Except.bind]), fun h => absurd h.1 (by simp)⟩
    | ok u => exact ⟨fun h => ⟨rfl, h⟩, fun h => h.2⟩

namespace NetworkState

/-- The state before its decision is numbered. -/
def unnumbered (s : NetworkState) : NetworkState := { s with decision := none }

variable {s s' : NetworkState}

theorem fields_of_unnumbered (h : s.unnumbered = s'.unnumbered) :
    s.kind = s'.kind ∧ s.rule = s'.rule ∧ s.transitions = s'.transitions ∧
      s.precedenceDecision = s'.precedenceDecision :=
  ⟨(congrArg kind h :), (congrArg rule h :), (congrArg transitions h :),
    (congrArg precedenceDecision h :)⟩

end NetworkState

namespace Draft

variable {d : Draft} {n : Network}

/-- Numbering changes nothing but the decisions. -/
theorem unnumbered_numberedStates (d : Draft) :
    d.numberedStates.map NetworkState.unnumbered = d.states.map NetworkState.unnumbered := by
  unfold numberedStates
  rw [← Array.foldl_toList]
  generalize hf : (fun (p : Array NetworkState × Nat) (s : NetworkState) =>
    if 1 < s.transitions.length then (p.1.push { s with decision := some p.2 }, p.2 + 1)
    else (p.1.push s, p.2)) = f
  have hstep : ∀ p s, (f p s).1.map NetworkState.unnumbered =
      (p.1.map NetworkState.unnumbered).push s.unnumbered := by
    intro p s
    rw [← hf]
    dsimp only
    split <;> simp [NetworkState.unnumbered]
  have hall : ∀ (l : List NetworkState) p, (l.foldl f p).1.map NetworkState.unnumbered =
      p.1.map NetworkState.unnumbered ++ l.toArray.map NetworkState.unnumbered := by
    intro l
    induction l with
    | nil => simp
    | cons s rest ih =>
      intro p
      rw [List.foldl_cons, ih, hstep]
      simp
  have := hall d.states.toList (#[], 0)
  simpa using this

theorem size_skeleton (d : Draft) : d.skeleton.states.size = d.states.size := by
  have := congrArg Array.size d.unnumbered_numberedStates
  simpa [skeleton] using this

theorem unnumbered_skeleton (d : Draft) (s : StateId) :
    (d.skeleton.state s).unnumbered = (d.state s).unnumbered := by
  have h := congrArg (fun a => a[s]?) d.unnumbered_numberedStates
  simp only [Array.getElem?_map] at h
  simp only [skeleton, Network.state, state, Array.getD_eq_getD_getElem?]
  cases h₁ : d.numberedStates[s]? <;> cases h₂ : d.states[s]? <;> rw [h₁, h₂] at h <;>
    simp_all

theorem rule_skeleton (d : Draft) (r : RuleId) : d.skeleton.rule r = (d.rule r).toRule := by
  simp only [skeleton, Network.rule, rule, Array.getD_eq_getD_getElem?, Array.getElem?_map]
  cases d.rules[r]? <;> rfl

/-- The states of the network are those of the draft, but for the numbers of their decisions. -/
theorem unnumbered_of_states (h : n.states = d.skeleton.states) (s : StateId) :
    (n.state s).unnumbered = (d.state s).unnumbered := by
  rw [← unnumbered_skeleton, Network.state, Network.state, h]

theorem rule_of_rules (h : n.rules = d.skeleton.rules) (r : RuleId) : n.rule r = (d.rule r).toRule := by
  rw [← rule_skeleton, Network.rule, Network.rule, h]

theorem count_of_rules (h : n.rules = d.skeleton.rules) : n.rules.size = d.rules.size := by
  rw [h]
  simp [skeleton]

/-- Nothing is wrong with any rule and any state of the draft, though rules may call each other before
any token. -/
structure Sound (d : Draft) : Prop where
  rule : ∀ r ∈ d.rules.toList, d.checkRule r = .ok ()
  state : ∀ s, s < d.states.size → d.checkState s (d.state s) = .ok ()

theorem forM_checkState_iff :
    d.states.toList.zipIdx.forM (fun (s, source) => d.checkState source s) = .ok () ↔
      ∀ s, s < d.states.size → d.checkState s (d.state s) = .ok () := by
  rw [forM_eq_ok_iff]
  constructor
  · intro h s hs
    refine h (d.state s, s) ?_
    rw [List.mem_zipIdx_iff_getElem?]
    simp [state, Array.getD_eq_getD_getElem?, hs]
  · rintro h ⟨st, s⟩ hst
    have hst : d.states[s]? = some st := by
      rwa [List.mem_zipIdx_iff_getElem?, Array.getElem?_toList] at hst
    obtain ⟨hs, -⟩ := Array.getElem?_eq_some_iff.1 hst
    have := h s hs
    rwa [state, Array.getD_eq_getD_getElem?, hst, Option.getD_some] at this

/-- What the check of a sound draft comes to. -/
theorem Sound.check_eq (h : d.Sound) : d.check = match d.leftRecursion? with
    | none => .ok ()
    | some rules => .error (.leftRecursion (rules.map fun r => (d.rule r).name)) := by
  have h₁ := forM_eq_ok_iff.2 h.rule
  have h₂ := forM_checkState_iff.2 h.state
  unfold check
  rw [h₁]
  dsimp only [bind, Except.bind]
  rw [h₂]
  cases d.leftRecursion? <;> rfl

/-- A draft that passes its check is sound, and no rules call each other before any token. -/
theorem sound_of_check (h : d.check = .ok ()) : d.Sound ∧ d.leftRecursion? = none := by
  have hsound : d.Sound := by
    unfold check at h
    cases h₁ : d.rules.toList.forM d.checkRule with
    | error e =>
      rw [h₁] at h
      cases h
    | ok u =>
      rw [h₁] at h
      cases h₂ : d.states.toList.zipIdx.forM (fun (s, source) => d.checkState source s) with
      | error e =>
        simp only [h₂] at h
        cases h
      | ok u => exact ⟨forM_eq_ok_iff.1 h₁, forM_checkState_iff.1 h₂⟩
  refine ⟨hsound, ?_⟩
  rw [hsound.check_eq] at h
  cases hleft : d.leftRecursion? with
  | none => rfl
  | some rules =>
    rw [hleft] at h
    cases h

theorem lt_of_edge {s : StateId} {t : Transition} (ht : t ∈ (d.state s).transitions) :
    s < d.states.size := by
  by_contra hs
  rw [state_of_size_le (by lia)] at ht
  cases ht

theorem Sound.transition (h : d.Sound) {s : StateId} {t : Transition}
    (ht : t ∈ (d.state s).transitions) : d.checkTransition s t = .ok () := by
  have hstate := h.state s (lt_of_edge ht)
  unfold checkState at hstate
  split at hstate
  · cases hstate
  · split at hstate
    · cases hstate
    · exact forM_eq_ok_iff.1 hstate t ht

/-- An edge of a sound draft leads to a state that exists. -/
theorem Sound.target_lt (h : d.Sound) {s : StateId} {t : Transition}
    (ht : t ∈ (d.state s).transitions) : t.target < d.states.size := by
  have htransition := h.transition ht
  unfold checkTransition at htransition
  split at htransition
  · cases htransition
  · rename_i hlt
    exact Nat.lt_of_not_le hlt

/-- A call of a sound draft enters the rule it names, and returns somewhere. -/
theorem Sound.call (h : d.Sound) {s : StateId} {t : Transition}
    (ht : t ∈ (d.state s).transitions) {r : RuleId} {follow : StateId} {precedence : Int}
    (hk : t.kind = .rule r follow precedence) :
    r < d.rules.size ∧ t.target = (d.rule r).start ∧ follow < d.states.size := by
  have htransition := h.transition ht
  have hc : t.call? = some (r, follow) := by simp [Transition.call?, hk]
  unfold checkTransition at htransition
  rw [hc] at htransition
  simp only at htransition
  split at htransition
  · cases htransition
  · cases hr : d.rules[r]? with
    | none =>
      rw [hr] at htransition
      cases htransition
    | some rule =>
      rw [hr] at htransition
      simp only at htransition
      split at htransition
      · cases htransition
      · rename_i hstart
        split at htransition
        · cases htransition
        · rename_i hfollow
          obtain ⟨hlt, -⟩ := Array.getElem?_eq_some_iff.1 hr
          refine ⟨hlt, ?_, Nat.lt_of_not_le hfollow⟩
          have hrule : d.rule r = rule := by
            simp [Draft.rule, Array.getD_eq_getD_getElem?, hr]
          rw [hrule]
          have : rule.start = t.target := by simpa using hstart
          exact this.symm

/-- A draft that passes its check keeps its shapes in the network. -/
theorem shaped_skeleton {levels : RuleId → Int → Prop}
    (hshape : ∀ r, r < d.rules.size → d.RuleShape r (levels r)) (halone : d.CallsAlone)
    (hcheck : d.check = .ok ()) (hstates : n.states = d.skeleton.states)
    (hrules : n.rules = d.skeleton.rules) : n.Shaped levels := by
  have hsize : n.states.size = d.states.size := by rw [hstates, size_skeleton]
  have hcount := count_of_rules hrules
  have hrule := rule_of_rules hrules
  have hstate : n.state = fun s => { d.state s with decision := (n.state s).decision } := by
    funext s
    obtain ⟨h₁, h₂, h₃, h₄⟩ := NetworkState.fields_of_unnumbered (unnumbered_of_states hstates s)
    dsimp only
    rw [← h₁, ← h₂, ← h₃, ← h₄]
  have hedges : ∀ s, (n.state s).transitions = (d.state s).transitions := by
    intro s
    rw [hstate]
  refine ⟨?_, ?_, ?_⟩
  · intro r hr
    obtain ⟨h₁, h₂, h₃, h₄, h₅, h₆, h₇, h₈, h₉⟩ := hshape r (hcount ▸ hr)
    rw [hrule, hsize, hstate]
    refine ⟨h₁, h₂, h₃, h₄, h₅, h₆, h₇, ?_, ?_⟩
    · intro hl
      obtain ⟨hp₁, hp₂⟩ := h₈ hl
      exact ⟨hp₁, hp₂⟩
    · intro hl
      obtain ⟨loop, zone, hz⟩ := h₉ hl
      exact ⟨loop, zone, hz.1, hz.2, hz.3, hz.4, hz.5, hz.6, hz.7, hz.8, hz.9, hz.10, hz.11, hz.12⟩
  · intro s t ht hc
    rw [hedges] at ht ⊢
    exact halone s t ht hc
  · intro s t ht r follow precedence hk
    rw [hedges] at ht
    obtain ⟨hr, htarget, -⟩ := (sound_of_check hcheck).1.call ht hk
    rw [hcount, htarget, hrule]
    exact ⟨hr, rfl⟩

theorem build_eq_ok (h : d.build = .ok n) :
    d.check = .ok () ∧ n.states = d.skeleton.states ∧ n.rules = d.skeleton.rules := by
  unfold build at h
  cases hcheck : d.check with
  | error e =>
    rw [hcheck] at h
    cases h
  | ok u =>
    rw [hcheck] at h
    cases h
    exact ⟨rfl, rfl, rfl⟩

theorem build_of_check (h : d.check = .ok ()) : d.build = .ok { d.skeleton with
    nextTokens := (Array.range d.skeleton.states.size).map fun s => d.skeleton.following s none } := by
  unfold build
  rw [h]
  rfl

end Draft

/-- A grammar compiles if its draft passes the check. -/
theorem Grammar.compile_of_check {g : Grammar} {d : Draft} (hd : g.draft = .ok d)
    (h : d.check = .ok ()) : g.compile = .ok ⟨{ d.skeleton with
      nextTokens := (Array.range d.skeleton.states.size).map fun s => d.skeleton.following s none },
      g.names⟩ := by
  unfold compile
  rw [hd]
  change (d.build >>= fun n => pure (CompiledGrammar.mk n g.names)) = _
  rw [Draft.build_of_check h]
  rfl

/-- The network of a compiled grammar was built from a draft. -/
theorem Grammar.build_compile {g : Grammar} {c : CompiledGrammar} (h : g.compile = .ok c) :
    ∃ d, g.draft = .ok d ∧ d.build = .ok c.network := by
  unfold compile at h
  cases hd : g.draft with
  | error e =>
    rw [hd] at h
    cases h
  | ok d =>
    rw [hd] at h
    change (d.build >>= fun network => pure { network, names := g.names }) = .ok c at h
    cases hb : d.build with
    | error e =>
      rw [hb] at h
      cases h
    | ok n =>
      rw [hb] at h
      cases h
      exact ⟨d, rfl, hb⟩

/-- The rules of a compiled grammar have their shapes. -/
theorem Grammar.shaped_compile {g : Grammar} {c : CompiledGrammar} (h : g.compile = .ok c) :
    c.network.Shaped g.HasLevel ∧ c.network.rules.size = g.rules.size := by
  obtain ⟨d, hd, hb⟩ := build_compile h
  obtain ⟨hshape, halone, hcount⟩ := shape_draft hd
  obtain ⟨hcheck, hstates, hrules⟩ := Draft.build_eq_ok hb
  refine ⟨Draft.shaped_skeleton ?_ halone hcheck hstates hrules, ?_⟩
  · intro r hr
    have hr' : r < g.rules.size := hcount ▸ hr
    have hlevel : g.HasLevel r = g.rules[r].HasLevel := by
      funext level
      simp [HasLevel, hr']
    rw [hlevel]
    exact hshape r _ (by simp [hr'])
  · simp [hrules, Draft.skeleton, hcount]

end AdaptiveParsing
