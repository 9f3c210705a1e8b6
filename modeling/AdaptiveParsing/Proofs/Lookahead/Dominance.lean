import AdaptiveParsing.Proofs.Lookahead.InContext
import AdaptiveParsing.Proofs.Network.Expected
/-!
Lookahead without the callers does all that lookahead with them does. Past the end of a rule the former
goes on wherever the rule is called from, with floor zero, so that one of its configurations is where the
live caller goes on, with floors that are not higher (`Simulation.Dominates`). Every step of a closure
keeps this (`Dominates.step`), and so does every token (`covered_reach`). Main statement: a
configuration with the callers that waits for a token is at the state and in the calls of one without
them, of the same alternative (`Grammar.below_of_context`).
-/

namespace AdaptiveParsing

/-- At the same state, inside the same calls, with floors that are not higher. -/
structure ConfigKey.Below (k' k : ConfigKey) : Prop where
  state : k'.state = k.state
  precedence : k'.precedence ≤ k.precedence
  stack : List.Forall₂ (fun f' f => f'.returnState = f.returnState ∧ f'.precedence ≤ f.precedence)
    k'.stack k.stack

theorem ConfigKey.below_refl (k : ConfigKey) : k.Below k :=
  ⟨rfl, Int.le_refl _, List.forall₂_same.2 fun _ _ => ⟨rfl, Int.le_refl _⟩⟩

/-- The invocation was made by a call, and so were those around it, up to an outermost one. -/
inductive LiveChain (n : Network) (f : Forest) : InvocationId → Prop
  | outermost {id : InvocationId} (hparent : (f.get id).parent = none)
      (hfloor : 0 ≤ (f.get id).precedence) : LiveChain n f id
  | called {id parent : InvocationId} {caller : StateId} {t : Transition} {follow : StateId}
      {precedence : Int} (hparent : (f.get id).parent = some parent)
      (hcaller : (f.get id).caller = some caller) (hrule : (n.state caller).rule = (f.get parent).rule)
      (ht : t ∈ (n.state caller).transitions) (hk : t.kind = .rule (f.get id).rule follow precedence)
      (hfloor : (f.get id).precedence =
        if (n.rule (f.get id).rule).leftRecursive then precedence else 0)
      (h : LiveChain n f parent) : LiveChain n f id

/-- No floor of a live invocation is below zero. -/
theorem LiveChain.floor_nonneg {n : Network} {f : Forest} {id : InvocationId}
    {levels : RuleId → Int → Prop} (hshape : n.Shaped levels) (h : LiveChain n f id) :
    0 ≤ (f.get id).precedence := by
  cases h with
  | outermost _ hfloor => exact hfloor
  | called _ _ _ ht hk hfloor _ =>
    obtain ⟨-, -, hargument⟩ := hshape.alone _ _ ht (by simp [Transition.call?, hk])
    rw [hfloor]
    split
    · rwa [Transition.argument, hk] at hargument
    · exact Int.le_refl 0

namespace Simulation

open ConfigSet Network

variable (sim : Simulation)

/-- Back from its own calls, the configuration is in the rule of the live invocation that it is placed
in. -/
def Anchored (k : ConfigKey) : Prop :=
  ∀ id, sim.liveInvocation? k.placement = some id → LiveChain sim.network sim.forest id ∧
    (sim.network.state (outermost k.state (k.stack.map Frame.returnState))).rule =
      (sim.forest.get id).rule

/-- What the second configuration does with the live callers, the first does without them. -/
structure Dominates (c' c : Config) : Prop where
  alt : c'.alt = c.alt
  below : c'.key.Below c.key
  anchored : sim.Anchored c.key

/-- Each configuration of the second set that waits for a token is dominated by one of the first. -/
def Covered (free context : ConfigSet) : Prop :=
  ∀ c ∈ context.toList, (sim.network.state c.key.state).isRuleStop = false →
    ∃ c' ∈ free.toList, sim.Dominates c' c

variable {sim : Simulation} {levels : RuleId → Int → Prop} {c c' d : Config} {k : ConfigKey}
  {t : Transition} {id : InvocationId} {next seeds seeds' : List Config} {free context : ConfigSet}

/-- Where the state and the calls stay in the rules they are in, the configuration stays anchored. -/
theorem Anchored.congr (h : sim.Anchored k) {l : ConfigKey} (hp : l.placement = k.placement)
    (hr : (sim.network.state (outermost l.state (l.stack.map Frame.returnState))).rule =
      (sim.network.state (outermost k.state (k.stack.map Frame.returnState))).rule) :
    sim.Anchored l := by
  intro id hid
  rw [hp] at hid
  rw [hr]
  exact h id hid

/-- What the edge does to the second configuration it does to the first. -/
theorem Dominates.follow (h : sim.Dominates c' c) (hp : t.kind.isPredicate = false)
    (hd : sim.follow? c t = some d) :
    ∃ d', sim.follow? c' t = some d' ∧ d'.alt = d.alt ∧ d'.key.Below d.key := by
  obtain ⟨halt, ⟨hstate, hprec, hstack⟩, -⟩ := h
  unfold follow? at hd ⊢
  cases hk : t.kind with
  | epsilon | action _ _ =>
    rw [hk] at hd
    obtain rfl := Option.some.inj hd
    exact ⟨_, rfl, halt, rfl, hprec, hstack⟩
  | rule r back precedence =>
    rw [hk] at hd
    obtain rfl := Option.some.inj hd
    exact ⟨_, rfl, halt, rfl, Int.le_refl _, .cons ⟨rfl, hprec⟩ hstack⟩
  | precedence level =>
    simp only [hk] at hd
    split at hd
    · rename_i hl
      obtain rfl := Option.some.inj hd
      exact ⟨_, if_pos (Int.le_trans hprec hl), halt, rfl, hprec, hstack⟩
    · cases hd
  | predicate _ _ _ =>
    rw [hk] at hp
    cases hp
  | atom _ | range _ _ | set _ | notSet _ | wildcard => simp [hk] at hd

/-- Where the closure with the callers finds what waits for a token, so does the one without them. -/
theorem Dominates.rest (h : sim.Dominates c' c) (he : sim.expand true c = .inr d)
    (hd : (sim.network.state d.key.state).isRuleStop = false) :
    d = c ∧ sim.expand false c' = .inr c' := by
  unfold expand at he ⊢
  rw [h.below.state]
  dsimp only at he ⊢
  split at he
  · rename_i hstop
    -- to stay at the end of a rule is not to wait
    unfold Simulation.leave at he
    split at he
    · cases he
    · simp only [if_true] at he
      split at he
      · cases he
      · obtain rfl := Sum.inr.inj he
        exact absurd hstop (by simp [hd])
  · rename_i hstop
    rw [if_neg hstop]
    split at he
    · rename_i hcons
      rw [if_pos hcons]
      exact ⟨(Sum.inr.inj he).symm, rfl⟩
    · cases he

section

variable (hn : sim.network.Checked) (hshape : sim.network.Shaped levels)
  (hrules : ∀ s, s < sim.network.states.size →
    (sim.network.state s).rule < sim.network.rules.size)

include hshape hrules

/-- An edge stays in the rule, apart from the call it may make. -/
theorem rule_of_edge {s : StateId} (ht : t ∈ (sim.network.state s).transitions) :
    (sim.network.state t.next).rule = (sim.network.state s).rule :=
  ((hshape.rule _ (hrules s (lt_of_edge ht))).next s rfl t ht).2

/-- At another state of the same rule the configuration stays anchored. -/
theorem Anchored.advance (h : sim.Anchored k) (ht : t ∈ (sim.network.state k.state).transitions) :
    sim.Anchored (k.moveTo t.next) := by
  refine h.congr rfl ?_
  by_cases hstack : k.stack = []
  · rw [ConfigKey.moveTo, hstack]
    exact rule_of_edge hshape hrules ht
  · have hne : k.stack.map Frame.returnState ≠ [] := by simpa using hstack
    exact congrArg (fun s => (sim.network.state s).rule) (outermost_of_ne hne)

theorem Anchored.follow (h : sim.Anchored c.key)
    (ht : t ∈ (sim.network.state c.key.state).transitions) (hd : sim.follow? c t = some d) :
    sim.Anchored d.key := by
  have hnext := h.advance hshape hrules ht
  rcases follow?_eq_some hd with ⟨r, back, precedence, hk, rfl⟩ | ⟨hcall, -, rfl⟩
  · refine hnext.congr rfl ?_
    rw [List.map_cons, outermost_cons, Transition.next, hk]
    rfl
  · rwa [Transition.next_eq_target hcall] at hnext

include hn

/-- A live invocation returns after a call of its rule, into the rule of its caller. -/
theorem liveReturn?_spec (h : LiveChain sim.network sim.forest id)
    (hk : sim.liveReturn? id = some k) :
    k.state ∈ sim.network.followStates (sim.forest.get id).rule ∧ 0 ≤ k.precedence ∧ k.stack = [] ∧
      sim.Anchored k := by
  obtain ⟨parent, caller, back, hparent, hcaller, hback, rfl⟩ := liveReturn?_eq_some hk
  cases h with
  | outermost hnone _ =>
    rw [hparent] at hnone
    cases hnone
  | @called _ parent' caller' t follow precedence hparent' hcaller' hrule ht hkind _ h =>
    obtain rfl := Option.some.inj (hparent.symm.trans hparent')
    obtain rfl := Option.some.inj (hcaller.symm.trans hcaller')
    obtain rfl := Option.some.inj (hback.symm.trans (hshape.followOf?_eq ht hkind))
    refine ⟨hn.returns _ t ht _ _ _ hkind, h.floor_nonneg hshape, rfl, ?_⟩
    intro id' hid
    obtain rfl := Option.some.inj hid
    have hnext := rule_of_edge hshape hrules ht
    rw [Transition.next, hkind] at hnext
    exact ⟨h, hnext.trans hrule⟩

/-- At the end of a rule the first configuration goes where the second does, among other places. -/
theorem Dominates.leave (h : sim.Dominates c' c)
    (he : sim.leave true c (sim.network.state c.key.state).rule = .inl next) (hd : d ∈ next) :
    ∃ next' d', sim.leave false c' (sim.network.state c.key.state).rule = .inl next' ∧ d' ∈ next' ∧
      sim.Dominates d' d := by
  obtain ⟨halt, ⟨hstate, hprec, hstack⟩, hanchored⟩ := h
  cases hs : c.key.stack with
  | cons f stack =>
    rw [hs] at hstack
    unfold Simulation.leave at he ⊢
    rw [hs] at he
    obtain rfl := Sum.inl.inj he
    obtain rfl := List.mem_singleton.1 hd
    cases hs' : c'.key.stack with
    | nil =>
      rw [hs'] at hstack
      cases hstack
    | cons f' stack' =>
      rw [hs'] at hstack
      obtain ⟨hf, hstack⟩ := List.forall₂_cons.1 hstack
      refine ⟨_, _, rfl, .head _, halt, ⟨hf.1, hf.2, hstack⟩, hanchored.congr rfl ?_⟩
      rw [hs, List.map_cons, outermost_cons]
  | nil =>
    rw [hs] at hstack
    have hs' : c'.key.stack = [] := List.forall₂_nil_right_iff.1 hstack
    unfold Simulation.leave at he
    simp only [hs, if_true] at he
    split at he
    · rename_i key hkey
      obtain rfl := Sum.inl.inj he
      obtain rfl := List.mem_singleton.1 hd
      obtain ⟨id, hid, hkey⟩ := Option.bind_eq_some_iff.1 hkey
      obtain ⟨hchain, hrule⟩ := hanchored id hid
      obtain ⟨hback, hpos, hnil, hanchored⟩ := liveReturn?_spec hn hshape hrules hchain hkey
      -- the live caller goes on at one of the returns of the rule
      rw [hs] at hrule
      rw [← hrule] at hback
      obtain ⟨next', key', he', hd', hstate', hprec', hnil'⟩ := exists_mem_leave hs' hback
      refine ⟨next', { c' with key := key' }, he', hd', halt, ⟨hstate', ?_, ?_⟩, hanchored⟩
      · show key'.precedence ≤ key.precedence
        rw [hprec']
        exact hpos
      · show List.Forall₂ _ key'.stack key.stack
        rw [hnil, hnil']
        exact .nil
    · cases he

variable (hf : sim.network.PredicateFree)

include hf

/-- A step of the closure with the callers is a step of the one without them. -/
theorem Dominates.step (h : sim.Dominates c' c) (he : sim.expand true c = .inl next) (hd : d ∈ next) :
    ∃ next' d', sim.expand false c' = .inl next' ∧ d' ∈ next' ∧ sim.Dominates d' d := by
  unfold expand at he ⊢
  rw [h.below.state]
  dsimp only at he ⊢
  split at he
  · rename_i hstop
    rw [if_pos hstop]
    exact h.leave hn hshape hrules he hd
  · rename_i hstop
    rw [if_neg hstop]
    split at he
    · cases he
    · rename_i hcons
      rw [if_neg hcons]
      obtain rfl := Sum.inl.inj he
      obtain ⟨t, ht, hfollow⟩ := List.mem_filterMap.1 hd
      obtain ⟨d', hd', halt, hbelow⟩ := h.follow (hf.isPredicate ht) hfollow
      exact ⟨_, d', rfl, List.mem_filterMap.2 ⟨t, ht, hd'⟩, halt, hbelow,
        h.anchored.follow hshape hrules ht hfollow⟩

/-- From dominated seeds the closure with the callers finds nothing that the other does not cover. -/
theorem covered_closure (asked asked' p p' : Bool)
    (hseeds : ∀ c ∈ seeds, ∃ c' ∈ seeds', sim.Dominates c' c) :
    sim.Covered (.ofList (sim.closure false seeds' asked').found p')
      (.ofList (sim.closure true seeds asked).found p) := by
  have hexpands : ∀ c, sim.Expands true seeds c → ∃ c', sim.Expands false seeds' c' ∧
      sim.Dominates c' c := by
    intro c hc
    induction hc with
    | seed hc =>
      obtain ⟨c', hc', h⟩ := hseeds _ hc
      exact ⟨c', .seed hc', h⟩
    | step _ he hd ih =>
      obtain ⟨c', hc', h⟩ := ih
      obtain ⟨next', d', he', hd', h'⟩ := h.step hn hshape hrules hf he hd
      exact ⟨d', .step hc' he' hd', h'⟩
  intro d hd hstop
  rw [mem_toList_ofList, mem_found_closure (pending_closure_nil hshape hn asked)] at hd
  obtain ⟨c, hc, he⟩ := hd
  obtain ⟨c', hc', h⟩ := hexpands c hc
  obtain ⟨rfl, he'⟩ := h.rest he hstop
  refine ⟨c', ?_, h⟩
  rw [mem_toList_ofList, mem_found_closure (pending_closure_nil hshape hn asked')]
  exact ⟨c', hc', he'⟩

/-- A token keeps the one set covered by the other. -/
theorem covered_reach (h : sim.Covered free context) {token : TokenType}
    (htoken : token ≠ TokenType.eof) :
    sim.Covered (sim.reach false free token) (sim.reach true context token) := by
  rw [reach_of_ne_eof htoken, reach_of_ne_eof htoken]
  refine covered_closure hn hshape hrules hf _ _ _ _ ?_
  intro d hd
  obtain ⟨c, hc, hd⟩ := List.mem_flatMap.1 hd
  dsimp only at hd
  split at hd
  · cases hd
  · rename_i hstop
    obtain ⟨c', hc', h⟩ := h c hc (by simpa using hstop)
    obtain ⟨t, ht, rfl⟩ := List.mem_map.1 hd
    obtain ⟨htrans, hmatch⟩ := List.mem_filter.1 ht
    refine ⟨{ c' with key := c'.key.moveTo t.target }, ?_, h.alt,
      ⟨rfl, h.below.precedence, h.below.stack⟩, ?_⟩
    · refine List.mem_flatMap.2 ⟨c', hc', ?_⟩
      dsimp only
      rw [h.below.state, if_neg hstop]
      exact List.mem_map.2 ⟨t, ht, rfl⟩
    · have hnext := h.anchored.advance hshape hrules htrans
      rwa [Transition.next_eq_target (call?_of_matches (by simpa using hmatch))] at hnext

/-- The set to start with is covered, unless the decision is at a loop of operators. -/
theorem covered_startSet {d : DecisionId}
    (hd : (sim.network.state (sim.network.decisionState d)).precedenceDecision = false)
    (ha : sim.Anchored (sim.startKey d)) :
    sim.Covered (sim.startSet false d) (sim.startSet true d) := by
  rw [startSet_eq_startClosure, startSet_eq_startClosure, hd]
  refine covered_closure hn hshape hrules hf _ _ _ _ ?_
  intro c hc
  refine ⟨c, hc, rfl, c.key.below_refl, ?_⟩
  obtain ⟨⟨t, i⟩, ht, hfollow⟩ := List.mem_filterMap.1 hc
  exact Anchored.follow hshape hrules (c := ⟨sim.startKey d, i + 1⟩) ha
    (List.fst_mem_of_mem_zipIdx ht) hfollow

/-- Whatever tokens come before the end of input, the set with the callers is covered by the other. -/
theorem covered_foldl {w : List TokenType} (hw : TokenType.eof ∉ w)
    (h : sim.Covered free context) :
    sim.Covered (w.foldl (sim.reach false) free) (w.foldl (sim.reach true) context) := by
  induction w generalizing free context with
  | nil => exact h
  | cons token w ih =>
    rw [List.mem_cons, not_or] at hw
    exact ih hw.2 (covered_reach hn hshape hrules hf h fun he => hw.1 he.symm)

end

end Simulation

open Simulation Network

/-- Without conditions and off the loops of operators, each configuration of lookahead in the live callers
that waits for a token stands at the state and in the calls of one of lookahead without them, of the same
alternative and with floors that are not higher. What the latter is left with alone, all of them belong
to. -/
theorem Grammar.below_of_context {g : Grammar} {compiled : CompiledGrammar}
    (h : g.compile = .ok compiled) (hf : compiled.network.PredicateFree) {sim : Simulation}
    (hnet : sim.network = compiled.network) {d : DecisionId}
    (hd : (sim.network.state (sim.network.decisionState d)).precedenceDecision = false)
    (hlive : ∀ id, sim.invocation = some id → LiveChain sim.network sim.forest id ∧
      (sim.network.state (sim.network.decisionState d)).rule = (sim.forest.get id).rule)
    {w : List TokenType} (hw : TokenType.eof ∉ w) :
    let free := w.foldl (sim.reach false) (sim.startSet false d)
    let context := w.foldl (sim.reach true) (sim.startSet true d)
    ∀ c ∈ context.toList, (sim.network.state c.key.state).isRuleStop = false →
      (∃ c' ∈ free.toList, c'.alt = c.alt ∧ c'.key.Below c.key) ∧
        ∀ alt, free.uniqueAlt? = some alt → c.alt = alt := by
  intro free context c hc hstop
  rw [← hnet] at hf
  obtain ⟨hshape, -⟩ := shaped_compile h
  have hn := checked_compile h
  have hrules := @rule_lt_compile g compiled h
  rw [← hnet] at hshape hn hrules
  have hcovered := covered_foldl hn hshape @hrules hf hw (covered_startSet hn hshape @hrules hf hd hlive)
  obtain ⟨c', hc', halt, hbelow, -⟩ := hcovered c hc hstop
  refine ⟨⟨c', hc', halt, hbelow⟩, ?_⟩
  intro alt hunique
  exact halt.symm.trans (ConfigSet.uniqueAlt?_eq_some hunique (ConfigSet.mem_toList.1 hc'))

/-- At the end of an `s` that another `s` has called. -/
def insideRow : Simulation where
  network := rowNetwork
  predicates := .always
  forest := ⟨#[{ rule := 0 }, { rule := 0, parent := some 0, caller := some 4 }]⟩
  invocation := some 1
  floor := 0

theorem liveChain_insideRow : LiveChain rowNetwork insideRow.forest 1 :=
  have houtermost : LiveChain rowNetwork insideRow.forest 0 := .outermost rfl (Int.le_refl 0)
  .called rfl rfl rfl (.head _) rfl rfl houtermost

theorem mem_context_insideRow : ⟨{ state := 2, precedence := 0, stack := [⟨5, 0⟩, ⟨5, 0⟩] }, 1⟩ ∈
    (insideRow.reach true (insideRow.startSet true 0) 1).toList := by
  have hstart : insideRow.startSet true 0 = .ofList
      [⟨{ state := 1, precedence := 0, placement := .root }, 2⟩,
        ⟨{ state := 2, precedence := 0, stack := [⟨5, 0⟩] }, 1⟩] false := by
    rw [startSet_eq_startClosure, if_neg (by cbv; decide), startClosure,
      closure_eq_closureRun (k := 20) (by decide) (by cbv)]
    cbv
  rw [hstart, reach, closure_eq_closureRun (k := 20) (by decide) (by cbv)]
  cbv
  exact .tail _ (.head _)

/-- Without the callers only another `s` is left, though `s` may end as well. -/
theorem uniqueAlt_insideRow :
    (insideRow.reach false (insideRow.startSet false 0) 1).uniqueAlt? = some 1 := by
  have hstart : insideRow.startSet false 0 =
      .ofList [⟨{ state := 2, precedence := 0, stack := [⟨5, 0⟩] }, 1⟩] false := by
    rw [startSet_eq_startClosure, if_neg (by cbv; decide), startClosure,
      closure_eq_closureRun (k := 20) (by decide) (by cbv)]
    cbv
  rw [hstart, reach, closure_eq_closureRun (k := 20) (by decide) (by cbv)]
  cbv

/-- After A another A can come in a third `s`, with the live callers and without them, and all that waits
is on the way there. -/
theorem below_insideRow :
    (∃ c ∈ (insideRow.reach false (insideRow.startSet false 0) 1).toList,
      c.alt = 1 ∧ c.key.Below { state := 2, precedence := 0, stack := [⟨5, 0⟩, ⟨5, 0⟩] }) ∧
    ∀ c ∈ (insideRow.reach true (insideRow.startSet true 0) 1).toList,
      (rowNetwork.state c.key.state).isRuleStop = false → c.alt = 1 := by
  have hbelow := @Grammar.below_of_context row _ compile_row (by unfold PredicateFree; decide)
    insideRow rfl 0 rfl
    (fun id hid => by
      obtain rfl := Option.some.inj hid
      exact ⟨liveChain_insideRow, rfl⟩)
    [1] (by decide)
  refine ⟨(hbelow _ mem_context_insideRow (by decide)).1, ?_⟩
  intro c hc hstop
  exact (hbelow c hc hstop).2 1 uniqueAlt_insideRow

end AdaptiveParsing
