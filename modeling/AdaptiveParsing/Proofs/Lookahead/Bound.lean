import AdaptiveParsing.Proofs.Lookahead.Saturation
import AdaptiveParsing.Proofs.Network.Tables
import Mathlib
/-!
A closure comes to its end. The calls that are open at once, apart from those of the seeds, are of
different rules, since no rule calls itself before it takes a token (`LeftChain.nodup`). So there are
no more configurations than the bound of a closure tells. Main statement: in a checked network the
closure of any seeds has nothing left to follow (`Simulation.pending_closure_nil`).
-/

namespace AdaptiveParsing

/-- The lists over `s` of at most this length. -/
def listsUpTo {α : Type} [DecidableEq α] (s : Finset α) : Nat → Finset (List α)
  | 0 => {[]}
  | k + 1 => insert [] (Finset.image₂ List.cons s (listsUpTo s k))

section

variable {α : Type} [DecidableEq α] {s : Finset α} {k : Nat} {l : List α}

theorem mem_listsUpTo (hs : ∀ a ∈ l, a ∈ s) (hk : l.length ≤ k) : l ∈ listsUpTo s k := by
  induction k generalizing l with
  | zero =>
    obtain rfl : l = [] := List.eq_nil_of_length_eq_zero (by omega)
    exact Finset.mem_singleton_self _
  | succ k ih =>
    cases l with
    | nil => exact Finset.mem_insert_self _ _
    | cons a l =>
      refine Finset.mem_insert_of_mem (Finset.mem_image₂_of_mem (hs a (.head _)) (ih ?_ ?_))
      · exact fun b hb => hs b (.tail _ hb)
      · rw [List.length_cons] at hk
        omega

theorem card_listsUpTo : (listsUpTo s k).card ≤ (s.card + 1) ^ k := by
  induction k with
  | zero => simp [listsUpTo]
  | succ k ih =>
    have h₁ : (listsUpTo s (k + 1)).card ≤ s.card * (listsUpTo s k).card + 1 :=
      (Finset.card_insert_le _ _).trans (Nat.succ_le_succ (Finset.card_image₂_le _ _ _))
    have h₂ : s.card * (listsUpTo s k).card ≤ s.card * (s.card + 1) ^ k := Nat.mul_le_mul_left _ ih
    have h₃ : 1 ≤ (s.card + 1) ^ k := Nat.one_le_pow _ _ (Nat.succ_pos _)
    rw [Nat.pow_succ, Nat.mul_add, Nat.mul_one, Nat.mul_comm ((s.card + 1) ^ k)]
    omega

end

/-- Calls that are open at once before any token, the innermost first, with the rules they are of. -/
inductive LeftChain (n : Network) (nullable : RuleId → Prop) :
    StateId → List Frame → List RuleId → Prop
  | nil {s : StateId} : LeftChain n nullable s [] []
  | cons {s x : StateId} {f : Frame} {stack : List Frame} {r : RuleId} {rules : List RuleId}
      {t : Transition} {precedence : Int} (hs : FreeFrom n.state nullable (n.rule r).start s)
      (hr : r < n.rules.size) (ht : t ∈ (n.state x).transitions)
      (hk : t.kind = .rule r f.returnState precedence) (h : LeftChain n nullable x stack rules) :
      LeftChain n nullable s (f :: stack) (r :: rules)

section

variable {n : Network} {nullable : RuleId → Prop} {levels : RuleId → Int → Prop} {s s' : StateId}
  {f : Frame} {stack : List Frame} {r : RuleId} {rules : List RuleId} {t : Transition}

theorem LeftChain.length_eq (h : LeftChain n nullable s stack rules) :
    stack.length = rules.length := by
  induction h with
  | nil => rfl
  | cons _ _ _ _ _ ih => rw [List.length_cons, List.length_cons, ih]

/-- Each open call was made, over others, by all those around it. -/
theorem LeftChain.pairwise (h : LeftChain n nullable s stack rules) :
    rules.Pairwise fun a b => Relation.TransGen (n.LeftCalls nullable) b a := by
  induction h with
  | nil => exact .nil
  | @cons s x f stack r rules t precedence hs hr ht hk h ih =>
    refine List.pairwise_cons.2 ⟨?_, ih⟩
    cases h with
    | nil => simp
    | @cons _ y g stack r' rules u _ hx hr' _ _ _ =>
      have hcall : n.LeftCalls nullable r' r := ⟨hr', x, hx, t, ht, f.returnState, precedence, hk⟩
      intro b hb
      rcases List.mem_cons.1 hb with rfl | hb
      · exact .single hcall
      · exact .tail ((List.pairwise_cons.1 ih).1 b hb) hcall

theorem LeftChain.lt (h : LeftChain n nullable s stack rules) : ∀ r ∈ rules, r < n.rules.size := by
  induction h with
  | nil => simp
  | cons _ hr _ _ _ ih =>
    intro r hr'
    rcases List.mem_cons.1 hr' with rfl | hr'
    · exact hr
    · exact ih r hr'

/-- Calls that are open at once before any token are of different rules. -/
theorem LeftChain.nodup (hn : n.Progressive nullable) (h : LeftChain n nullable s stack rules) :
    rules.Nodup := by
  refine h.pairwise.imp ?_
  rintro a b hab rfl
  exact hn.acyclic a hab

theorem LeftChain.length_le (hn : n.Progressive nullable) (h : LeftChain n nullable s stack rules) :
    stack.length ≤ n.rules.size := by
  rw [h.length_eq, ← List.toFinset_card_of_nodup (h.nodup hn), ← Finset.card_range n.rules.size]
  exact Finset.card_le_card fun r hr => Finset.mem_range.2 (h.lt r (List.mem_toFinset.1 hr))

/-- What is reached from the start of a rule is in the rule. -/
theorem FreeFrom.rule_eq (hn : n.Shaped levels) (hr : r < n.rules.size)
    (h : FreeFrom n.state nullable (n.rule r).start s) : (n.state s).rule = r := by
  have hshape := hn.rule r hr
  induction h with
  | refl => exact hshape.start_rule
  | @step s s' t _ ht he ih =>
    have hnext := (hshape.next s ih t ht).2
    cases he with
    | edge hc _ =>
      have : t.next = t.target := by
        unfold Transition.next
        unfold Transition.call? at hc
        split <;> simp_all
      rwa [this] at hnext
    | call hk _ => rwa [Transition.next, hk] at hnext

/-- Past the stop of a rule the chain goes on where the call returns. -/
theorem LeftChain.pop (hs : n.Shaped levels) (hn : n.Progressive nullable)
    (h : LeftChain n nullable s (f :: stack) (r :: rules)) (hstop : (n.state s).isRuleStop = true) :
    LeftChain n nullable f.returnState stack rules := by
  cases h with
  | @cons _ x _ _ _ _ t precedence hfree hr ht hk h =>
    have hnull : nullable r := by
      refine hn.closed r hr ?_
      have hkind : (n.state s).kind = .ruleStop := by
        simpa [NetworkState.isRuleStop] using hstop
      rwa [(hs.rule r hr).stop_only s (hfree.rule_eq hs hr) hkind] at hfree
    cases h with
    | nil => exact .nil
    | cons hx hr' ht' hk' h => exact .cons (.step hx ht (.call hk hnull)) hr' ht' hk' h

/-- A free edge keeps the chain. -/
theorem LeftChain.step (h : LeftChain n nullable s stack rules) (ht : t ∈ (n.state s).transitions)
    (hc : t.call? = none) (hk : t.isConsuming = false) :
    LeftChain n nullable t.target stack rules := by
  cases h with
  | nil => exact .nil
  | cons hs hr ht' hk' h => exact .cons (.step hs ht (.edge hc hk)) hr ht' hk' h

end

namespace Simulation

variable {sim : Simulation} {c d : Config} {t : Transition}

/-- Where an edge leads that takes no token. -/
theorem follow?_eq_some (h : sim.follow? c t = some d) :
    (∃ r back precedence, t.kind = .rule r back precedence ∧
      d = { c with key := { c.key with
        state := t.target, precedence, stack := ⟨back, c.key.precedence⟩ :: c.key.stack } }) ∨
    t.call? = none ∧ t.isConsuming = false ∧ d = { c with key := c.key.moveTo t.target } := by
  unfold follow? at h
  cases hk : t.kind with
  | rule r back precedence =>
    rw [hk] at h
    exact .inl ⟨r, back, precedence, rfl, (Option.some.inj h).symm⟩
  | epsilon | action _ _ =>
    rw [hk] at h
    refine .inr ⟨by simp [Transition.call?, hk], by simp [Transition.isConsuming, hk,
      EdgeKind.isConsuming], (Option.some.inj h).symm⟩
  | precedence level | predicate _ _ _ =>
    refine .inr ⟨by simp [Transition.call?, hk], by simp [Transition.isConsuming, hk,
      EdgeKind.isConsuming], ?_⟩
    simp only [hk] at h
    repeat' split at h
    all_goals first | exact (Option.some.inj h).symm | cases h
  | atom _ | range _ _ | set _ | notSet _ | wildcard => simp [hk] at h

/-- Where a live return leads: to the caller, where its call returns. -/
theorem liveReturn?_eq_some {id : InvocationId} {key : ConfigKey}
    (h : sim.liveReturn? id = some key) :
    ∃ parent caller back, (sim.forest.get id).parent = some parent ∧
      (sim.forest.get id).caller = some caller ∧ sim.network.followOf? caller = some back ∧
      key = { state := back, precedence := (sim.forest.get parent).precedence,
              placement := .invocation parent } := by
  unfold liveReturn? at h
  cases hp : (sim.forest.get id).parent with
  | none => simp [hp] at h
  | some parent =>
    cases hc : (sim.forest.get id).caller with
    | none => simp [hp, hc] at h
    | some caller =>
      cases hf : sim.network.followOf? caller with
      | none => simp [hp, hc, hf] at h
      | some back =>
        refine ⟨parent, caller, back, rfl, rfl, hf, ?_⟩
        simp only [hp, hc, hf, Option.bind_eq_bind, Option.bind_some, Option.some.injEq] at h
        exact h.symm

section

variable (sim : Simulation) (full : Bool) (seeds : List Config)

/-- The longest stack of the seeds. -/
def seedFrames : Nat := seeds.foldl (fun m c => max m c.key.stack.length) 0

/-- How many choices there are for a state, a precedence, a caller or an alternative. -/
def atoms : Nat :=
  sim.network.states.size + sim.network.edgeCount + sim.network.rules.size +
    seeds.length * (seedFrames seeds + 1) + (if full then sim.forest.size else 0) + 8

/-- The states of a closure. -/
def closureStates : Finset StateId :=
  Finset.range sim.network.states.size ∪
    (seeds.flatMap fun c => c.key.state :: c.key.stack.map Frame.returnState).toFinset

/-- The floors of a closure. -/
def closureFloors : Finset Int :=
  insert 0 (((Finset.range sim.network.states.size).biUnion fun s =>
      ((sim.network.state s).transitions.map Transition.argument).toFinset) ∪
    ((seeds.flatMap fun c => c.key.precedence :: c.key.stack.map Frame.precedence).toFinset ∪
      if full then (Finset.range sim.forest.size).image fun id => (sim.forest.get id).precedence
      else ∅))

/-- The placements of a closure. -/
def closurePlacements : Finset Placement :=
  {.inside, .follow, .outermostFollow, .root} ∪ ((seeds.map fun c => c.key.placement).toFinset ∪
    if full then (Finset.range sim.forest.size).image fun id =>
      .invocation (((sim.forest.get id).parent).getD 0)
    else ∅)

/-- The frames of a closure. -/
def closureFrames : Finset Frame :=
  Finset.image₂ Frame.mk (sim.closureStates seeds) (sim.closureFloors full seeds)

/-- The configurations of a closure. -/
def closureConfigs : Finset Config :=
  Finset.image₂ (fun key alt => ⟨key, alt⟩)
    (Finset.image₂ (fun (p : StateId × Int) (q : List Frame × Placement) =>
        ({ state := p.1, precedence := p.2, stack := q.1, placement := q.2 } : ConfigKey))
      (sim.closureStates seeds ×ˢ sim.closureFloors full seeds)
      (listsUpTo (sim.closureFrames full seeds) (sim.network.rules.size + seedFrames seeds) ×ˢ
        sim.closurePlacements full seeds))
    (seeds.map Config.alt).toFinset

/-- A configuration made of what the seeds and the network have to offer. -/
structure Within (nullable : RuleId → Prop) (c : Config) : Prop where
  state : c.key.state ∈ sim.closureStates seeds
  precedence : c.key.precedence ∈ sim.closureFloors full seeds
  stack : ∀ f ∈ c.key.stack, f ∈ sim.closureFrames full seeds
  placement : c.key.placement ∈ sim.closurePlacements full seeds
  alt : c.alt ∈ (seeds.map Config.alt).toFinset
  chain : ∃ new old rules, c.key.stack = new ++ old ∧ old.length ≤ seedFrames seeds ∧
    LeftChain sim.network nullable c.key.state new rules

end

variable {full : Bool} {seeds : List Config} {nullable : RuleId → Prop}
  {levels : RuleId → Int → Prop}

theorem length_le_seedFrames (hc : c ∈ seeds) : c.key.stack.length ≤ seedFrames seeds := by
  have hfold : ∀ (l : List Config) m, m ≤ l.foldl (fun m c => max m c.key.stack.length) m ∧
      ∀ c ∈ l, c.key.stack.length ≤ l.foldl (fun m c => max m c.key.stack.length) m := by
    intro l
    induction l with
    | nil => simp
    | cons a l ih =>
      intro m
      obtain ⟨h₁, h₂⟩ := ih (max m a.key.stack.length)
      rw [List.foldl_cons]
      refine ⟨by omega, fun c hc => ?_⟩
      rcases List.mem_cons.1 hc with rfl | hc
      · omega
      · exact h₂ c hc
  exact (hfold seeds 0).2 c hc

theorem state_mem_closureStates {s : StateId} (hs : s < sim.network.states.size) :
    s ∈ sim.closureStates seeds :=
  Finset.mem_union_left _ (Finset.mem_range.2 hs)

theorem frame_mem_closureFrames {f : Frame} : f ∈ sim.closureFrames full seeds ↔
    f.returnState ∈ sim.closureStates seeds ∧ f.precedence ∈ sim.closureFloors full seeds := by
  unfold closureFrames
  rw [Finset.mem_image₂]
  constructor
  · rintro ⟨s, hs, p, hp, rfl⟩
    exact ⟨hs, hp⟩
  · exact fun h => ⟨f.returnState, h.1, f.precedence, h.2, rfl⟩

theorem argument_mem_closureFloors {s : StateId} (hs : s < sim.network.states.size)
    (ht : t ∈ (sim.network.state s).transitions) {r : RuleId} {back : StateId} {precedence : Int}
    (hk : t.kind = .rule r back precedence) : precedence ∈ sim.closureFloors full seeds := by
  refine Finset.mem_insert_of_mem (Finset.mem_union_left _ ?_)
  refine Finset.mem_biUnion.2 ⟨s, Finset.mem_range.2 hs, List.mem_toFinset.2 ?_⟩
  exact List.mem_map.2 ⟨t, ht, by rw [Transition.argument, hk]⟩

theorem within_seed (hc : c ∈ seeds) : sim.Within full seeds nullable c := by
  have hstate : ∀ s ∈ c.key.state :: c.key.stack.map Frame.returnState,
      s ∈ sim.closureStates seeds := fun s hs =>
    Finset.mem_union_right _ (List.mem_toFinset.2 (List.mem_flatMap.2 ⟨c, hc, hs⟩))
  have hfloor : ∀ p ∈ c.key.precedence :: c.key.stack.map Frame.precedence,
      p ∈ sim.closureFloors full seeds := fun p hp =>
    Finset.mem_insert_of_mem (Finset.mem_union_right _ (Finset.mem_union_left _
      (List.mem_toFinset.2 (List.mem_flatMap.2 ⟨c, hc, hp⟩))))
  refine ⟨hstate _ (.head _), hfloor _ (.head _), ?_, ?_, ?_, [], c.key.stack, [], rfl,
    length_le_seedFrames hc, .nil⟩
  · intro f hf
    exact frame_mem_closureFrames.2 ⟨hstate _ (.tail _ (List.mem_map_of_mem hf)),
      hfloor _ (.tail _ (List.mem_map_of_mem hf))⟩
  · exact Finset.mem_union_right _ (Finset.mem_union_left _
      (List.mem_toFinset.2 (List.mem_map_of_mem hc)))
  · exact List.mem_toFinset.2 (List.mem_map_of_mem hc)

/-- Following an edge stays within the bounds. -/
theorem Within.follow (hs : sim.network.Shaped levels) (hn : sim.network.Checked)
    (h : sim.Within full seeds nullable c) (ht : t ∈ (sim.network.state c.key.state).transitions)
    (hd : sim.follow? c t = some d) : sim.Within full seeds nullable d := by
  obtain ⟨new, old, rules, hstack, hold, hchain⟩ := h.chain
  have htarget := @state_mem_closureStates sim seeds _ (hn.target_lt _ t ht)
  rcases follow?_eq_some hd with ⟨r, back, precedence, hk, rfl⟩ | ⟨hc, hk, rfl⟩
  · obtain ⟨hr, hstart⟩ := hs.call _ t ht r back precedence hk
    have harg := @argument_mem_closureFloors sim t full seeds _ (Network.lt_of_edge ht) ht _ _ _ hk
    have hback := @state_mem_closureStates sim seeds _ (hn.follow_lt _ t ht r back precedence hk)
    refine ⟨htarget, harg, ?_, h.placement, h.alt, ⟨back, c.key.precedence⟩ :: new, old, r :: rules,
      ?_, hold, ?_⟩
    · intro f hf
      rcases List.mem_cons.1 hf with rfl | hf
      · exact frame_mem_closureFrames.2 ⟨hback, h.precedence⟩
      · exact h.stack f hf
    · rw [List.cons_append, ← hstack]
    · dsimp only
      rw [hstart]
      exact .cons .refl hr ht hk hchain
  · exact ⟨htarget, h.precedence, h.stack, h.placement, h.alt, new, old, rules, hstack, hold,
      hchain.step ht hc hk⟩

/-- Leaving a rule stays within the bounds. -/
theorem Within.leave (hs : sim.network.Shaped levels) (hn : sim.network.Checked)
    (hp : sim.network.Progressive nullable) (h : sim.Within full seeds nullable c)
    (hstop : (sim.network.state c.key.state).isRuleStop = true) {next : List Config}
    (he : sim.leave full c (sim.network.state c.key.state).rule = .inl next) (hd : d ∈ next) :
    sim.Within full seeds nullable d := by
  obtain ⟨new, old, rules, hstack, hold, hchain⟩ := h.chain
  unfold Simulation.leave at he
  cases hst : c.key.stack with
  | cons f stack =>
    rw [hst] at he
    cases he
    obtain rfl := List.mem_singleton.1 hd
    obtain ⟨hf₁, hf₂⟩ := frame_mem_closureFrames.1 (h.stack f (by rw [hst]; exact .head _))
    refine ⟨hf₁, hf₂, fun g hg => h.stack g (by rw [hst]; exact .tail _ hg), h.placement, h.alt, ?_⟩
    rw [hst] at hstack
    cases new with
    | nil =>
      refine ⟨[], stack, [], rfl, ?_, .nil⟩
      rw [List.nil_append] at hstack
      rw [← hstack, List.length_cons] at hold
      omega
    | cons g new =>
      rw [List.cons_append] at hstack
      obtain ⟨rfl, rfl⟩ := List.cons.inj hstack
      cases rules with
      | nil => cases hchain
      | cons r rules => exact ⟨new, old, rules, rfl, hold, hchain.pop hs hp hstop⟩
  | nil =>
    have hzero : (0 : Int) ∈ sim.closureFloors full seeds := Finset.mem_insert_self _ _
    rw [hst] at he
    dsimp only at he
    cases full with
    | true =>
      rw [if_pos rfl] at he
      cases hl : (sim.liveInvocation? c.key.placement).bind sim.liveReturn? with
      | none =>
        rw [hl] at he
        cases he
      | some key =>
        rw [hl] at he
        cases he
        obtain rfl := List.mem_singleton.1 hd
        obtain ⟨id, -, hid⟩ := Option.bind_eq_some_iff.1 hl
        obtain ⟨parent, caller, back, hparent, hcaller, hback, rfl⟩ := liveReturn?_eq_some hid
        have hlt : id < sim.forest.size := by
          by_contra hlt
          rw [Forest.get_of_le (Nat.le_of_not_lt hlt)] at hparent
          cases hparent
        refine ⟨state_mem_closureStates (hn.followOf?_lt hback), ?_, by simp, ?_, h.alt, [], [], [],
          rfl, Nat.zero_le _, .nil⟩
        · by_cases hplt : parent < sim.forest.size
          · refine Finset.mem_insert_of_mem (Finset.mem_union_right _ (Finset.mem_union_right _ ?_))
            rw [if_pos rfl]
            exact Finset.mem_image.2 ⟨parent, Finset.mem_range.2 hplt, rfl⟩
          · dsimp only
            rw [Forest.get_of_le (Nat.le_of_not_lt hplt)]
            exact hzero
        · refine Finset.mem_union_right _ (Finset.mem_union_right _ ?_)
          rw [if_pos rfl]
          exact Finset.mem_image.2 ⟨id, Finset.mem_range.2 hlt, by rw [hparent]; rfl⟩
    | false =>
      rw [if_neg (by simp)] at he
      cases hu : sim.unknownReturns (sim.network.state c.key.state).rule with
      | nil =>
        rw [hu] at he
        cases he
      | cons key keys =>
        rw [hu] at he
        cases he
        obtain ⟨k, hk, rfl⟩ := List.mem_map.1 hd
        rw [← hu] at hk
        obtain ⟨back, hback, rfl⟩ := List.mem_map.1 hk
        obtain ⟨s, t, ht, precedence, hkind⟩ := hn.returns_call _ back hback
        refine ⟨state_mem_closureStates (hn.follow_lt s t ht _ back precedence hkind), hzero,
          by simp, ?_, h.alt, [], [], [], rfl, Nat.zero_le _, .nil⟩
        refine Finset.mem_union_left _ ?_
        dsimp only
        split <;> simp

theorem within_of_expands (hs : sim.network.Shaped levels) (hn : sim.network.Checked)
    (hp : sim.network.Progressive nullable) (hc : sim.Expands full seeds c) :
    sim.Within full seeds nullable c := by
  induction hc with
  | seed hc => exact within_seed hc
  | @step c d next _ he hd ih =>
    unfold expand at he
    dsimp only at he
    split at he
    · rename_i hstop
      exact ih.leave hs hn hp hstop he hd
    · split at he
      · cases he
      · cases he
        obtain ⟨t, ht, hfollow⟩ := List.mem_filterMap.1 hd
        exact ih.follow hs hn ht hfollow

theorem Within.mem (hp : sim.network.Progressive nullable) (h : sim.Within full seeds nullable c) :
    c ∈ sim.closureConfigs full seeds := by
  obtain ⟨new, old, rules, hstack, hold, hchain⟩ := h.chain
  refine Finset.mem_image₂.2 ⟨c.key, ?_, c.alt, h.alt, rfl⟩
  refine Finset.mem_image₂.2 ⟨(c.key.state, c.key.precedence),
    Finset.mem_product.2 ⟨h.state, h.precedence⟩, (c.key.stack, c.key.placement),
    Finset.mem_product.2 ⟨mem_listsUpTo h.stack ?_, h.placement⟩, rfl⟩
  rw [hstack, List.length_append]
  exact Nat.add_le_add (hchain.length_le hp) hold

theorem length_flatMap_le {α : Type} {f : Config → List α} {k : Nat}
    (h : ∀ c ∈ seeds, (f c).length ≤ k) : (seeds.flatMap f).length ≤ seeds.length * k := by
  induction seeds with
  | nil => simp
  | cons c l ih =>
    have hc := h c (.head _)
    have hl := ih fun d hd => h d (.tail _ hd)
    rw [List.flatMap_cons, List.length_append, List.length_cons, Nat.succ_mul]
    omega

/-- How many invocations a closure knows of. -/
def liveSize (sim : Simulation) (full : Bool) : Nat := if full then sim.forest.size else 0

theorem card_closureStates : (sim.closureStates seeds).card ≤
    sim.network.states.size + seeds.length * (seedFrames seeds + 1) := by
  refine (Finset.card_union_le _ _).trans (Nat.add_le_add (by simp) ?_)
  refine (List.toFinset_card_le _).trans (length_flatMap_le fun c hc => ?_)
  rw [List.length_cons, List.length_map]
  exact Nat.succ_le_succ (length_le_seedFrames hc)

theorem card_closureFloors (hn : sim.network.Checked) : (sim.closureFloors full seeds).card ≤
    sim.network.edgeCount + (seeds.length * (seedFrames seeds + 1) + sim.liveSize full) + 1 := by
  refine (Finset.card_insert_le _ _).trans (Nat.succ_le_succ ?_)
  refine (Finset.card_union_le _ _).trans (Nat.add_le_add ?_ ?_)
  · rw [hn.edges]
    refine Finset.card_biUnion_le.trans (Finset.sum_le_sum fun s _ => ?_)
    exact (List.toFinset_card_le _).trans (Nat.le_of_eq (List.length_map _))
  · refine (Finset.card_union_le _ _).trans (Nat.add_le_add ?_ ?_)
    · refine (List.toFinset_card_le _).trans (length_flatMap_le fun c hc => ?_)
      rw [List.length_cons, List.length_map]
      exact Nat.succ_le_succ (length_le_seedFrames hc)
    · unfold liveSize
      split
      · exact Finset.card_image_le.trans (by simp)
      · simp

theorem card_closurePlacements :
    (sim.closurePlacements full seeds).card ≤ 4 + (seeds.length + sim.liveSize full) := by
  refine (Finset.card_union_le _ _).trans (Nat.add_le_add (by decide) ?_)
  refine (Finset.card_union_le _ _).trans (Nat.add_le_add ?_ ?_)
  · exact (List.toFinset_card_le _).trans (by simp)
  · unfold liveSize
    split
    · exact Finset.card_image_le.trans (by simp)
    · simp

theorem atoms_eq : sim.atoms full seeds = sim.network.states.size + sim.network.edgeCount +
    sim.network.rules.size + seeds.length * (seedFrames seeds + 1) + sim.liveSize full + 8 := rfl

/-- There are no more configurations than the choices for each part of one. -/
theorem card_closureConfigs (hn : sim.network.Checked) :
    (sim.closureConfigs full seeds).card ≤
      sim.atoms full seeds ^ (2 * (sim.network.rules.size + seedFrames seeds) + 4) := by
  have h₁ := @card_closureStates sim seeds
  have h₂ := @card_closureFloors sim full seeds hn
  have h₃ := @card_closurePlacements sim full seeds
  have h₄ : (seeds.map Config.alt).toFinset.card ≤ seeds.length :=
    (List.toFinset_card_le _).trans (by simp)
  have hmul : seeds.length ≤ seeds.length * (seedFrames seeds + 1) :=
    Nat.le_mul_of_pos_right _ (Nat.succ_pos _)
  have ha := @atoms_eq sim full seeds
  unfold closureConfigs
  generalize sim.atoms full seeds = a at *
  generalize sim.network.rules.size + seedFrames seeds = depth
  have hframes : (sim.closureFrames full seeds).card + 1 ≤ a * a := by
    have h : (sim.closureFrames full seeds).card ≤
        (sim.closureStates seeds).card * (sim.closureFloors full seeds).card :=
      Finset.card_image₂_le _ _ _
    have h' : (sim.closureStates seeds).card * (sim.closureFloors full seeds).card ≤ (a - 1) * a :=
      Nat.mul_le_mul (by omega) (by omega)
    have h'' : (a - 1) * a + a = a * a := by
      rw [← Nat.succ_mul, Nat.succ_eq_add_one, Nat.sub_add_cancel (by omega)]
    omega
  have hstacks : (listsUpTo (sim.closureFrames full seeds) depth).card ≤ a ^ (2 * depth) := by
    refine card_listsUpTo.trans ((Nat.pow_le_pow_left hframes depth).trans (Nat.le_of_eq ?_))
    rw [← Nat.pow_two, ← Nat.pow_mul]
  have hkeys : ((sim.closureStates seeds ×ˢ sim.closureFloors full seeds).card *
      (listsUpTo (sim.closureFrames full seeds) depth ×ˢ
        sim.closurePlacements full seeds).card) * (seeds.map Config.alt).toFinset.card ≤
      ((a * a) * (a ^ (2 * depth) * a)) * a := by
    rw [Finset.card_product, Finset.card_product]
    refine Nat.mul_le_mul (Nat.mul_le_mul (Nat.mul_le_mul ?_ ?_) (Nat.mul_le_mul hstacks ?_)) ?_ <;>
      omega
  refine (Finset.card_image₂_le _ _ _).trans ((Nat.mul_le_mul_right _
    (Finset.card_image₂_le _ _ _)).trans (hkeys.trans (Nat.le_of_eq ?_)))
  ring

/-- A configuration leads to no more than there are edges, and one. -/
theorem length_expand (hn : sim.network.Checked) {next : List Config}
    (he : sim.expand full c = .inl next) : next.length ≤ sim.network.edgeCount + 1 := by
  unfold expand at he
  dsimp only at he
  split at he
  · unfold Simulation.leave at he
    split at he
    · cases he
      exact Nat.succ_le_succ (Nat.zero_le _)
    · split at he
      · split at he
        · cases he
          exact Nat.succ_le_succ (Nat.zero_le _)
        · cases he
      · split at he
        · cases he
        · cases he
          have := hn.returns_le (sim.network.state c.key.state).rule
          rw [List.length_map, unknownReturns, List.length_map]
          omega
  · split at he
    · cases he
    · cases he
      refine (List.length_filterMap_le _ _).trans ((?_ : _ ≤ sim.network.edgeCount).trans
        (Nat.le_succ _))
      by_cases hlt : c.key.state < sim.network.states.size
      · rw [hn.edges]
        exact Finset.single_le_sum (f := fun s => (sim.network.state s).transitions.length)
          (fun _ _ => Nat.zero_le _) (Finset.mem_range.2 hlt)
      · rw [Network.state, Array.getD_eq_getD_getElem?,
          Array.getElem?_eq_none (Nat.le_of_not_lt hlt)]
        exact Nat.zero_le _

/-- The bound of a closure has room for all that its seeds lead to. -/
theorem expansion_le_closureBound (hn : sim.network.Checked) :
    seeds.length + (sim.network.edgeCount + 1) * (sim.closureConfigs full seeds).card ≤
      sim.closureBound full seeds := by
  have hcard := @card_closureConfigs sim full seeds hn
  have hbound : sim.closureBound full seeds =
      sim.atoms full seeds ^ (2 * (sim.network.rules.size + seedFrames seeds) + 8) := rfl
  have hmul : seeds.length ≤ seeds.length * (seedFrames seeds + 1) :=
    Nat.le_mul_of_pos_right _ (Nat.succ_pos _)
  have ha := @atoms_eq sim full seeds
  rw [hbound]
  generalize 2 * (sim.network.rules.size + seedFrames seeds) = depth at *
  generalize (sim.closureConfigs full seeds).card = count at *
  generalize sim.atoms full seeds = a at *
  have hpos : 1 ≤ a ^ (depth + 4) := Nat.one_le_pow _ _ (by omega)
  have h₁ : (sim.network.edgeCount + 1) * count ≤ a * a ^ (depth + 4) :=
    Nat.mul_le_mul (by omega) hcard
  have h₂ : seeds.length ≤ a * a ^ (depth + 4) :=
    (show seeds.length ≤ a by omega).trans (Nat.le_mul_of_pos_right _ hpos)
  have h₃ : a * a ^ (depth + 4) + a * a ^ (depth + 4) ≤ a * (a * a ^ (depth + 4)) := by
    rw [← Nat.two_mul]
    exact Nat.mul_le_mul_right _ (by omega)
  have h₄ : a * (a * a ^ (depth + 4)) ≤ a ^ (depth + 8) := by
    rw [← Nat.pow_succ', ← Nat.pow_succ']
    exact Nat.pow_le_pow_right (by omega) (by omega)
  omega

/-- The pending configurations of a closure are followed to the end, whatever was seen before. -/
theorem pending_closureRun_nil (hs : sim.network.Shaped levels) (hn : sim.network.Checked)
    (w : Closure) : (sim.closureRun full (sim.closureBound full w.pending) w).pending = [] := by
  obtain ⟨nullable, hp⟩ := hn.progressive
  refine pending_run (U := sim.closureConfigs full w.pending) (k := sim.network.edgeCount + 1)
    (fun c hc => .seed hc) (fun c hc => (within_of_expands hs hn hp hc).mem hp)
    (fun c next _ => length_expand hn) (Nat.le_trans ?_ (expansion_le_closureBound hn))
  exact Nat.add_le_add_left (Nat.mul_le_mul_left _ (Finset.card_filter_le _ _)) _

/-- A closure has nothing left to follow. -/
theorem pending_closure_nil (hs : sim.network.Shaped levels) (hn : sim.network.Checked)
    (asked : Bool) : (sim.closure full seeds asked).pending = [] :=
  pending_closureRun_nil hs hn { pending := seeds, predicated := asked }

end Simulation

end AdaptiveParsing
