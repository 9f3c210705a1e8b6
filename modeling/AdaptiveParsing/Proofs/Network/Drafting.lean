import AdaptiveParsing.Grammar.Lowering
import Mathlib
/-!
What lowering an element adds to a draft. States that were there stay as they are; the new ones are
of the rule that is lowered, and what leaves them stays among them (`Draft.Grows`). A fragment lies
among the new states, and nothing has called from its exit (`Draft.Holds`). Main statement: lowering
an element adds such a fragment (`Element.lower_adds`).
-/

namespace AdaptiveParsing

/-- Where an edge goes on in its rule: a call does so where it returns to. -/
def Transition.next (t : Transition) : StateId :=
  match t.kind with
  | .rule _ follow _ => follow
  | _ => t.target

theorem Transition.next_eq_target {t : Transition} (h : t.call? = none) : t.next = t.target := by
  unfold next
  cases hk : t.kind with
  | rule _ _ _ => simp [call?, hk] at h
  | _ => rfl

/-- The precedence that a call is made with; zero for another edge. -/
def Transition.argument (t : Transition) : Int :=
  match t.kind with
  | .rule _ _ precedence => precedence
  | _ => 0

def EdgeKind.isPrecedence : EdgeKind → Bool
  | precedence _ => true
  | _ => false

namespace Draft

variable {d d₀ d₁ : Draft} {r : RuleId} {s a b : StateId} {t : Transition} {kind : StateKind}

theorem size_addState : (d.addState kind r).2.states.size = d.states.size + 1 := by
  simp [addState]

theorem state_addState :
    (d.addState kind r).2.state s = if s = d.states.size then { kind, rule := r } else d.state s := by
  simp only [addState, state, Array.getD_eq_getD_getElem?, Array.getElem?_push]
  split <;> simp_all

theorem states_addTransition :
    (d.addTransition a t).states =
      d.states.modify a fun s => { s with transitions := s.transitions ++ [t] } := by
  unfold addTransition
  split <;> rfl

theorem size_addTransition : (d.addTransition a t).states.size = d.states.size := by
  rw [states_addTransition, Array.size_modify]

theorem count_addTransition : (d.addTransition a t).rules.size = d.rules.size := by
  unfold addTransition
  split
  · exact Array.size_modify
  · rfl

theorem state_addTransition (ha : a < d.states.size) :
    (d.addTransition a t).state s =
      if s = a then { d.state s with transitions := (d.state s).transitions ++ [t] }
      else d.state s := by
  simp only [state, states_addTransition, Array.getD_eq_getD_getElem?, Array.getElem?_modify]
  by_cases hs : s = a
  · subst hs
    simp [ha]
  · rw [if_neg (fun h => hs h.symm), if_neg hs]

theorem rule_addTransition (c : RuleId) :
    ((d.addTransition a t).rule c).toRule = (d.rule c).toRule := by
  unfold addTransition
  split
  · simp only [rule, markDefined, Array.getD_eq_getD_getElem?, Array.getElem?_modify]
    split
    · rename_i h
      subst h
      cases d.rules[(d.state a).rule]? <;> rfl
    · rfl
  · rfl

/-- No call leaves the state. -/
def Open (d : Draft) (s : StateId) : Prop := ∀ t ∈ (d.state s).transitions, t.call? = none

/-- A state inside the part of rule `r` from state `lo` up to state `hi`. `guards` are the states
that only levels lead on from, with their levels; nothing inside the part leads to them. -/
structure Inner (d : Draft) (r : RuleId) (guards : List (StateId × Int)) (lo hi s : StateId) :
    Prop where
  rule : (d.state s).rule = r
  not_start : (d.state s).kind ≠ .ruleStart
  not_stop : (d.state s).kind ≠ .ruleStop
  not_loop : (d.state s).precedenceDecision = false
  bounds : ∀ t ∈ (d.state s).transitions, lo ≤ t.next ∧ t.next < hi
  levels : ∀ t ∈ (d.state s).transitions, ∀ level, t.kind = .precedence level → (s, level) ∈ guards
  guarded : ∀ t ∈ (d.state s).transitions, s ∈ guards.map Prod.fst → t.kind.isPrecedence = true
  unguarded : ∀ t ∈ (d.state s).transitions, t.next ∉ guards.map Prod.fst
  /-- A call is the only edge of its state, and returns to the state after that. -/
  call : ∀ t ∈ (d.state s).transitions, t.call? ≠ none →
    (d.state s).transitions = [t] ∧ t.next = s + 1 ∧ 0 ≤ t.argument

theorem Inner.congr {guards : List (StateId × Int)} {lo hi : StateId}
    (h : d.Inner r guards lo hi s) (he : d₁.state s = d.state s) : d₁.Inner r guards lo hi s := by
  obtain ⟨h1, h2, h3, h4, h5, h6, h7, h8, h9⟩ := h
  rw [← he] at h1 h2 h3 h4 h5 h6 h7 h8 h9
  exact ⟨h1, h2, h3, h4, h5, h6, h7, h8, h9⟩

/-- The draft `d` comes from `d₀` by adding states inside rule `r`. -/
structure Grows (r : RuleId) (guards : List (StateId × Int)) (d₀ d : Draft) : Prop where
  size : d₀.states.size ≤ d.states.size
  count : d.rules.size = d₀.rules.size
  rules : ∀ c, (d.rule c).toRule = (d₀.rule c).toRule
  old : ∀ s, s < d₀.states.size → d.state s = d₀.state s
  new : ∀ s, d₀.states.size ≤ s → s < d.states.size →
    d.Inner r guards d₀.states.size d.states.size s
  guards_new : ∀ g ∈ guards, d₀.states.size ≤ g.1 ∧ g.1 < d.states.size

/-- The fragment lies among the states added to `d₀`, and nothing calls from its exit. -/
structure Holds (d₀ d : Draft) (f : Fragment) : Prop where
  entry_ge : d₀.states.size ≤ f.entry
  entry_lt : f.entry < d.states.size
  exit_ge : d₀.states.size ≤ f.exit
  exit_lt : f.exit < d.states.size
  exit_open : d.Open f.exit

theorem Grows.refl (r : RuleId) (d : Draft) : d.Grows r [] d :=
  ⟨Nat.le_refl _, rfl, fun _ => rfl, fun _ _ => rfl, fun s h h' => by lia, by simp⟩

variable {guards guards' : List (StateId × Int)}

theorem Grows.trans (h : Grows r guards d₀ d) (h' : Grows r guards' d d₁) :
    Grows r (guards ++ guards') d₀ d₁ := by
  have hmem : ∀ s, s ∈ (guards ++ guards').map Prod.fst ↔
      s ∈ guards.map Prod.fst ∨ s ∈ guards'.map Prod.fst := by simp
  have hlow : ∀ s, s ∈ guards.map Prod.fst → s < d.states.size := by
    intro s hs
    obtain ⟨g, hg, rfl⟩ := List.mem_map.1 hs
    exact (h.guards_new g hg).2
  have hhigh : ∀ s, s ∈ guards'.map Prod.fst → d.states.size ≤ s := by
    intro s hs
    obtain ⟨g, hg, rfl⟩ := List.mem_map.1 hs
    exact (h'.guards_new g hg).1
  have hsize := h.size
  have hsize' := h'.size
  refine ⟨Nat.le_trans h.size h'.size, h'.count.trans h.count,
    fun c => (h'.rules c).trans (h.rules c), ?_, ?_, ?_⟩
  · intro s hs
    rw [h'.old s (by lia), h.old s hs]
  · intro s hs hs'
    by_cases hd : s < d.states.size
    · have hi := (h.new s hs hd).congr (h'.old s hd)
      refine ⟨hi.rule, hi.not_start, hi.not_stop, hi.not_loop, ?_, ?_, ?_, ?_, hi.call⟩
      · intro t ht
        have := hi.bounds t ht
        lia
      · intro t ht level hl
        exact List.mem_append_left _ (hi.levels t ht level hl)
      · intro t ht hg
        rcases (hmem s).1 hg with hg | hg
        · exact hi.guarded t ht hg
        · have := hhigh s hg
          lia
      · intro t ht hg
        rcases (hmem _).1 hg with hg | hg
        · exact hi.unguarded t ht hg
        · have := hhigh _ hg
          have := hi.bounds t ht
          lia
    · have hi := h'.new s (by lia) hs'
      refine ⟨hi.rule, hi.not_start, hi.not_stop, hi.not_loop, ?_, ?_, ?_, ?_, hi.call⟩
      · intro t ht
        have := hi.bounds t ht
        lia
      · intro t ht level hl
        exact List.mem_append_right _ (hi.levels t ht level hl)
      · intro t ht hg
        rcases (hmem s).1 hg with hg | hg
        · have := hlow s hg
          lia
        · exact hi.guarded t ht hg
      · intro t ht hg
        rcases (hmem _).1 hg with hg | hg
        · have := hlow _ hg
          have := hi.bounds t ht
          lia
        · exact hi.unguarded t ht hg
  · intro g hg
    rcases List.mem_append.1 hg with hg | hg
    · have := h.guards_new g hg
      lia
    · have := h'.guards_new g hg
      lia

theorem Open.congr (h : d.Open s) (he : d₁.state s = d.state s) : d₁.Open s := by
  unfold Open
  rw [he]
  exact h

theorem Holds.grows {f : Fragment} (h : Holds d₀ d f) (hg : Grows r guards d d₁) : Holds d₀ d₁ f := by
  have hs := hg.size
  exact ⟨h.entry_ge, by have := h.entry_lt; lia, h.exit_ge, by have := h.exit_lt; lia,
    h.exit_open.congr (hg.old _ h.exit_lt)⟩

/-- A fragment among later states is one among the states added before, too. -/
theorem Holds.of_le {f : Fragment} (h : Holds d d₁ f) (hs : d₀.states.size ≤ d.states.size) :
    Holds d₀ d₁ f :=
  ⟨Nat.le_trans hs h.entry_ge, h.entry_lt, Nat.le_trans hs h.exit_ge, h.exit_lt, h.exit_open⟩

theorem grows_addState (hstart : kind ≠ .ruleStart) (hstop : kind ≠ .ruleStop) :
    Grows r [] d (d.addState kind r).2 := by
  refine ⟨by rw [size_addState]; lia, rfl, fun _ => rfl, ?_, ?_, by simp⟩
  · intro s hs
    rw [state_addState, if_neg (by lia)]
  · intro s hs hs'
    rw [size_addState] at hs'
    have he : (d.addState kind r).2.state s = { kind, rule := r } := by
      rw [state_addState, if_pos (by lia)]
    refine ⟨?_, ?_, ?_, ?_, ?_, ?_, ?_, ?_, ?_⟩ <;> rw [he] <;> simp_all

/-- An edge that is not a call keeps a state open. -/
theorem Open.addTransition (h : d.Open s) (ha : a < d.states.size) (ht : t.call? = none) :
    (d.addTransition a t).Open s := by
  unfold Open
  rw [state_addTransition ha]
  split
  · intro u hu
    rcases List.mem_append.1 hu with hu | hu
    · exact h u hu
    · rwa [List.mem_singleton.1 hu]
  · exact h

theorem Holds.addTransition {f : Fragment} (h : Holds d₀ d f) (ha : a < d.states.size)
    (ht : t.call? = none) : Holds d₀ (d.addTransition a t) f := by
  refine ⟨h.entry_ge, ?_, h.exit_ge, ?_, h.exit_open.addTransition ha ht⟩
  · rw [size_addTransition]
    exact h.entry_lt
  · rw [size_addTransition]
    exact h.exit_lt

/-- A new state may get an edge that stays among the new states, and a call if it is its only one. -/
theorem Grows.addTransition (h : Grows r guards d₀ d) (ha : d₀.states.size ≤ a)
    (ha' : a < d.states.size) (hp : t.kind.isPrecedence = false) (hn : d₀.states.size ≤ t.next)
    (hn' : t.next < d.states.size) (ho : d.Open a)
    (hc : t.call? = none ∨ (d.state a).transitions = [] ∧ t.next = a + 1 ∧ 0 ≤ t.argument) (hg : a ∉ guards.map Prod.fst)
    (hg' : t.next ∉ guards.map Prod.fst) : Grows r guards d₀ (d.addTransition a t) := by
  refine ⟨by rw [size_addTransition]; exact h.size, count_addTransition.trans h.count,
    fun c => (rule_addTransition c).trans (h.rules c), ?_, ?_, by
      rw [size_addTransition]; exact h.guards_new⟩
  · intro s hs
    rw [state_addTransition ha', if_neg (by lia), h.old s hs]
  · intro s hs hs'
    rw [size_addTransition] at hs' ⊢
    have hi := h.new s hs hs'
    by_cases hsa : s = a
    · subst hsa
      have he : (d.addTransition s t).state s =
          { d.state s with transitions := (d.state s).transitions ++ [t] } := by
        rw [state_addTransition ha', if_pos rfl]
      refine ⟨?_, ?_, ?_, ?_, ?_, ?_, ?_, ?_, ?_⟩ <;> rw [he]
      · exact hi.rule
      · exact hi.not_start
      · exact hi.not_stop
      · exact hi.not_loop
      · intro u hu
        rcases List.mem_append.1 hu with hu | hu
        · exact hi.bounds u hu
        · rw [List.mem_singleton.1 hu]
          exact ⟨hn, hn'⟩
      · intro u hu level hl
        rcases List.mem_append.1 hu with hu | hu
        · exact hi.levels u hu level hl
        · rw [← List.mem_singleton.1 hu, hl] at hp
          cases hp
      · exact fun u _ hs => absurd hs hg
      · intro u hu
        rcases List.mem_append.1 hu with hu | hu
        · exact hi.unguarded u hu
        · rwa [List.mem_singleton.1 hu]
      · intro u hu huc
        rcases List.mem_append.1 hu with hu | hu
        · exact absurd (ho u hu) huc
        · obtain rfl := List.mem_singleton.1 hu
          rcases hc with hc | hc
          · exact absurd hc huc
          · exact ⟨by rw [hc.1, List.nil_append], hc.2⟩
    · exact hi.congr (by rw [state_addTransition ha', if_neg hsa])

theorem Grows.addEpsilon (h : Grows r [] d₀ d) (ha : d₀.states.size ≤ a) (ha' : a < d.states.size)
    (hb : d₀.states.size ≤ b) (hb' : b < d.states.size) (ho : d.Open a) :
    Grows r [] d₀ (d.addEpsilon a b) :=
  h.addTransition ha ha' rfl hb hb' ho (.inl rfl) (by simp) (by simp)

/-- What a program that adds a fragment of rule `r` does to a draft. -/
structure Adds (r : RuleId) (d : Draft) (result : Fragment × Draft) : Prop where
  grows : d.Grows r [] result.2
  holds : d.Holds result.2 result.1

end Draft

namespace DraftM

open Draft

variable {d d₀ : Draft} {r : RuleId} {f : Fragment} {parts : List Fragment}

/-- Two new states of rule `r`. -/
def pair (r : RuleId) (entry exit : StateKind) (d : Draft) : Draft :=
  ((d.addState entry r).2.addState exit r).2

theorem size_pair (r : RuleId) (entry exit : StateKind) (d : Draft) :
    (pair r entry exit d).states.size = d.states.size + 2 := by
  rw [pair, size_addState, size_addState]

theorem grows_pair {entry exit : StateKind} (h : entry ≠ .ruleStart ∧ entry ≠ .ruleStop)
    (h' : exit ≠ .ruleStart ∧ exit ≠ .ruleStop) : d.Grows r [] (pair r entry exit d) :=
  (grows_addState h.1 h.2).trans (grows_addState h'.1 h'.2)

theorem state_pair {entry exit : StateKind} {s : StateId} :
    (pair r entry exit d).state s =
      if s = d.states.size then { kind := entry, rule := r }
      else if s = d.states.size + 1 then { kind := exit, rule := r } else d.state s := by
  rw [pair, state_addState, state_addState, size_addState]
  by_cases h : s = d.states.size
  · rw [if_neg (by lia), if_pos h, if_pos h]
  · rw [if_neg h, if_neg h]

theorem open_pair (entry exit : StateKind) {s : StateId} (h : d.states.size ≤ s)
    (h' : s < d.states.size + 2) : (pair r entry exit d).Open s := by
  unfold Draft.Open
  rw [state_pair]
  by_cases hs : s = d.states.size
  · rw [if_pos hs]
    simp
  · rw [if_neg hs, if_pos (by lia)]
    simp

/-- Two states joined by an edge are a fragment. -/
theorem adds_joined {t : Transition} (hp : t.kind.isPrecedence = false)
    (hn : t.next = d.states.size + 1) (ha : 0 ≤ t.argument) :
    Adds r d (⟨d.states.size, d.states.size + 1⟩,
      (pair r .basic .basic d).addTransition d.states.size t) := by
  have hg : d.Grows r [] (pair r .basic .basic d) := grows_pair (by decide) (by decide)
  have hsize := size_pair r .basic .basic d
  refine ⟨?_, ?_, ?_, ?_, ?_, ?_⟩
  · refine hg.addTransition (Nat.le_refl _) (by lia) hp (by lia) (by lia) ?_ (.inr ?_) (by simp)
      (by simp)
    · exact open_pair _ _ (Nat.le_refl _) (by lia)
    · rw [state_pair, if_pos rfl]
      exact ⟨rfl, hn, ha⟩
  · exact Nat.le_refl _
  · rw [size_addTransition]
    lia
  · exact Nat.le_add_right _ _
  · rw [size_addTransition]
    lia
  · refine (open_pair (r := r) (d := d) .basic .basic ?_ ?_).congr ?_
    · exact Nat.le_add_right _ _
    · exact Nat.lt_succ_self _
    · rw [state_addTransition (by lia), if_neg (by lia)]

theorem single_run (k : EdgeKind) :
    (single r k).run d = (⟨d.states.size, d.states.size + 1⟩,
      (pair r .basic .basic d).addTransition d.states.size ⟨d.states.size + 1, k⟩) := by
  simp [single, state, edge, pair, StateT.run, bind, StateT.bind, modifyGet, MonadStateOf.modifyGet,
    modify, StateT.modifyGet, pure, StateT.pure, addState]

theorem adds_single {k : EdgeKind} (hp : k.isPrecedence = false)
    (hk : ∀ c follow p, k ≠ .rule c follow p) : Adds r d ((single r k).run d) := by
  rw [single_run]
  refine adds_joined hp ?_ ?_ <;>
    cases k <;> first | exact Int.le_refl 0 | rfl | exact absurd rfl (hk _ _ _)

theorem call_run (callee : RuleId) (precedence : Int) :
    (call r callee precedence).run d = (⟨d.states.size, d.states.size + 1⟩,
      (pair r .basic .basic d).addTransition d.states.size
        ⟨(d.rule callee).start, .rule callee (d.states.size + 1) precedence⟩) := by
  simp [call, state, edge, pair, StateT.run, bind, StateT.bind, modifyGet, MonadStateOf.modifyGet,
    modify, StateT.modifyGet, pure, StateT.pure, addState, get, getThe, MonadStateOf.get, StateT.get,
    Draft.rule]

theorem adds_call (callee : RuleId) {precedence : Int} (h : 0 ≤ precedence) :
    Adds r d ((call r callee precedence).run d) := by
  rw [call_run]
  exact adds_joined rfl rfl h

/-- What is said of a list of fragments that lie among new states. -/
structure Parts (r : RuleId) (d₀ d : Draft) (parts : List Fragment) : Prop where
  grows : d₀.Grows r [] d
  holds : ∀ f ∈ parts, d₀.Holds d f

theorem Parts.addEpsilon {a b : StateId} (h : Parts r d₀ d parts) (ha : d₀.states.size ≤ a)
    (ha' : a < d.states.size) (hb : d₀.states.size ≤ b) (hb' : b < d.states.size) (ho : d.Open a) :
    Parts r d₀ (d.addEpsilon a b) parts :=
  ⟨h.grows.addEpsilon ha ha' hb hb' ho, fun f hf => (h.holds f hf).addTransition ha' rfl⟩

theorem Parts.tail (h : Parts r d₀ d (f :: parts)) : Parts r d₀ d parts :=
  ⟨h.grows, fun g hg => h.holds g (.tail _ hg)⟩

theorem Parts.grows_to {d₁ : Draft} (h : Parts r d₀ d parts) (hg : d.Grows r [] d₁) :
    Parts r d₀ d₁ parts :=
  ⟨h.grows.trans hg, fun f hf => (h.holds f hf).grows hg⟩

/-- Joins the first two of several fragments. -/
theorem Parts.join {g : Fragment} (h : Parts r d₀ d (f :: g :: parts)) :
    Parts r d₀ (d.addEpsilon f.exit g.entry) (⟨f.entry, g.exit⟩ :: parts) := by
  have hf := h.holds f (.head _)
  have hg := h.holds g (.tail _ (.head _))
  have hp := h.addEpsilon hf.exit_ge hf.exit_lt hg.entry_ge hg.entry_lt hf.exit_open
  have hfirst := hp.holds f (.head _)
  have hnext := hp.holds g (.tail _ (.head _))
  refine ⟨hp.grows, fun k hm => ?_⟩
  rcases List.mem_cons.1 hm with rfl | hm
  · exact ⟨hfirst.entry_ge, hfirst.entry_lt, hnext.exit_ge, hnext.exit_lt, hnext.exit_open⟩
  · exact hp.holds k (.tail _ (.tail _ hm))

theorem adds_chain {first : Fragment} (h : Parts r d₀ d (first :: parts)) :
    Adds r d₀ ((chain first parts).run d) := by
  induction parts generalizing first d with
  | nil => exact ⟨h.grows, h.holds first (.head _)⟩
  | cons next rest ih => exact ih h.join

theorem adds_sequence (h : Parts r d₀ d parts) : Adds r d₀ ((sequence r parts).run d) := by
  cases parts with
  | nil =>
    have ha := adds_single (r := r) (d := d) (k := .epsilon) rfl (by simp)
    exact ⟨h.grows.trans ha.grows, ha.holds.of_le h.grows.size⟩
  | cons first rest => exact adds_chain h

/-- Parts of rule `r` and `k` states from `e` on that still are to be joined to them. -/
structure Frame (r : RuleId) (d₀ d : Draft) (parts : List Fragment) (e k : StateId) : Prop
    extends Parts r d₀ d parts where
  base : d₀.states.size ≤ e
  room : e + k ≤ d.states.size
  opens : ∀ i, i < k → d.Open (e + i)

variable {e k i j : StateId}

theorem Frame.addEpsilon {a b : StateId} (h : Frame r d₀ d parts e k) (ha : d₀.states.size ≤ a)
    (ha' : a < d.states.size) (hb : d₀.states.size ≤ b) (hb' : b < d.states.size) (ho : d.Open a) :
    Frame r d₀ (d.addEpsilon a b) parts e k := by
  refine ⟨h.toParts.addEpsilon ha ha' hb hb' ho, h.base, ?_, ?_⟩
  · rw [Draft.addEpsilon, size_addTransition]
    exact h.room
  · exact fun i hi => (h.opens i hi).addTransition ha' rfl

/-- Joins two states of a frame. -/
theorem Frame.link (h : Frame r d₀ d parts e k) (hi : i < k) (hj : j < k) :
    Frame r d₀ (d.addEpsilon (e + i) (e + j)) parts e k := by
  have hb := h.base
  have hr := h.room
  exact h.addEpsilon (by lia) (by lia) (by lia) (by lia) (h.opens i hi)

/-- Leads through the alternatives from one state of a frame to another. -/
theorem Frame.alternatives (h : Frame r d₀ d parts e k) (hi : i < k) (hj : j < k) :
    Frame r d₀ ((alternatives (e + i) (e + j) parts).run d).2 parts e k := by
  suffices hs : ∀ rest d, Frame r d₀ d parts e k → (∀ f ∈ rest, f ∈ parts) →
      Frame r d₀ ((DraftM.alternatives (e + i) (e + j) rest).run d).2 parts e k from
    hs parts d h (fun _ hf => hf)
  intro rest
  induction rest with
  | nil => exact fun d h _ => h
  | cons f rest ih =>
    intro d h hm
    have hb := h.base
    have hr := h.room
    have hf := h.holds f (hm f (.head _))
    have h₁ := h.addEpsilon (by lia) (by lia) hf.entry_ge hf.entry_lt (h.opens i hi)
    have hf₁ := h₁.holds f (hm f (.head _))
    have hr₁ := h₁.room
    have h₂ := h₁.addEpsilon hf₁.exit_ge hf₁.exit_lt (b := e + j) (by lia) (by lia) hf₁.exit_open
    exact ih _ h₂ fun g hg => hm g (.tail _ hg)

/-- Two states of a frame are the ends of a fragment. -/
theorem Frame.adds (h : Frame r d₀ d parts e k) (hi : i < k) (hj : j < k) :
    Adds r d₀ (⟨e + i, e + j⟩, d) := by
  have hb := h.base
  have hr := h.room
  exact ⟨h.grows, by lia, by simp only; lia, by lia, by simp only; lia, h.opens j hj⟩

/-- New states are a frame. -/
theorem Parts.frame {d₁ : Draft} (h : Parts r d₀ d parts) (hg : d.Grows r [] d₁)
    (hs : d₁.states.size = d.states.size + k) (ho : ∀ i, i < k → d₁.Open (d.states.size + i)) :
    Frame r d₀ d₁ parts d.states.size k :=
  ⟨h.grows_to hg, h.grows.size, by lia, ho⟩

theorem block_run (bypass : Bool) :
    (block r parts bypass).run d =
      (⟨d.states.size, d.states.size + 1⟩,
        let d₁ := ((alternatives d.states.size (d.states.size + 1) parts).run
          (pair r .blockStart .blockEnd d)).2
        if bypass then d₁.addEpsilon d.states.size (d.states.size + 1) else d₁) := by
  cases bypass <;>
    simp [block, state, epsilon, pair, StateT.run, bind, StateT.bind, modifyGet,
      MonadStateOf.modifyGet, modify, StateT.modifyGet, pure, StateT.pure, addState] <;> rfl

theorem adds_block (bypass : Bool) (h : Parts r d₀ d parts) :
    Adds r d₀ ((block r parts bypass).run d) := by
  have hf : Frame r d₀ (pair r .blockStart .blockEnd d) parts d.states.size 2 :=
    h.frame (grows_pair (by decide) (by decide)) (size_pair _ _ _ _)
      fun i hi => open_pair _ _ (Nat.le_add_right _ _) (by lia)
  have ha := hf.alternatives (i := 0) (j := 1) (by decide) (by decide)
  rw [block_run]
  cases bypass with
  | false => exact ha.adds (i := 0) (j := 1) (by decide) (by decide)
  | true =>
    have hl := ha.link (i := 0) (j := 1) (by decide) (by decide)
    exact hl.adds (i := 0) (j := 1) (by decide) (by decide)

theorem adds_choice (h : Parts r d₀ d parts) : Adds r d₀ ((choice r parts).run d) := by
  rcases parts with - | ⟨only, - | ⟨next, rest⟩⟩
  · exact adds_block false h
  · exact ⟨h.grows, h.holds only (.head _)⟩
  · exact adds_block false h

/-- The states of a zero-or-more loop, before any edge. -/
def starStates (r : RuleId) (d : Draft) : Draft :=
  ((pair r .blockEnd .starLoopBack (pair r .starLoopEntry .starBlockStart d)).addState .loopEnd r).2

theorem size_starStates (r : RuleId) (d : Draft) :
    (starStates r d).states.size = d.states.size + 5 := by
  rw [starStates, size_addState, size_pair, size_pair]

theorem grows_starStates : d.Grows r [] (starStates r d) :=
  ((grows_pair (by decide) (by decide)).trans (grows_pair (by decide) (by decide))).trans
    (grows_addState (by decide) (by decide))

theorem state_starStates {s : StateId} :
    (starStates r d).state s =
      if s = d.states.size then { kind := .starLoopEntry, rule := r }
      else if s = d.states.size + 1 then { kind := .starBlockStart, rule := r }
      else if s = d.states.size + 2 then { kind := .blockEnd, rule := r }
      else if s = d.states.size + 3 then { kind := .starLoopBack, rule := r }
      else if s = d.states.size + 4 then { kind := .loopEnd, rule := r }
      else d.state s := by
  rw [starStates, state_addState, state_pair, state_pair, size_pair, size_pair]
  grind

theorem starLoop_run :
    (starLoop r parts).run d =
      (⟨d.states.size, d.states.size + 4⟩,
        let e := d.states.size
        let d₁ := ((alternatives (e + 1) (e + 2) parts).run
          (((starStates r d).addEpsilon e (e + 1)).addEpsilon e (e + 4))).2
        (d₁.addEpsilon (e + 2) (e + 3)).addEpsilon (e + 3) e) := by
  simp [starLoop, state, epsilon, pair, starStates, StateT.run, bind, StateT.bind,
    modifyGet, MonadStateOf.modifyGet, modify, StateT.modifyGet, pure, StateT.pure, addState]
  rfl

theorem adds_starLoop (h : Parts r d₀ d parts) : Adds r d₀ ((starLoop r parts).run d) := by
  have hf : Frame r d₀ (starStates r d) parts d.states.size 5 := by
    refine h.frame grows_starStates (size_starStates r d) fun i hi => ?_
    unfold Draft.Open
    rw [state_starStates]
    grind
  have h₁ := hf.link (i := 0) (j := 1) (by decide) (by decide)
  have h₂ := h₁.link (i := 0) (j := 4) (by decide) (by decide)
  have h₃ := h₂.alternatives (i := 1) (j := 2) (by decide) (by decide)
  have h₄ := h₃.link (i := 2) (j := 3) (by decide) (by decide)
  have h₅ := h₄.link (i := 3) (j := 0) (by decide) (by decide)
  rw [starLoop_run]
  exact h₅.adds (i := 0) (j := 4) (by decide) (by decide)

/-- The states of a one-or-more loop, before any edge. -/
def plusStates (r : RuleId) (d : Draft) : Draft :=
  pair r .plusLoopBack .loopEnd (pair r .plusBlockStart .blockEnd d)

theorem plusLoop_run :
    (plusLoop r parts).run d =
      (⟨d.states.size, d.states.size + 3⟩,
        let e := d.states.size
        let d₁ := ((alternatives e (e + 1) parts).run (plusStates r d)).2
        ((d₁.addEpsilon (e + 1) (e + 2)).addEpsilon (e + 2) e).addEpsilon (e + 2) (e + 3)) := by
  simp [plusLoop, state, epsilon, pair, plusStates, StateT.run, bind, StateT.bind,
    modifyGet, MonadStateOf.modifyGet, modify, StateT.modifyGet, pure, StateT.pure, addState]
  rfl

theorem adds_plusLoop (h : Parts r d₀ d parts) : Adds r d₀ ((plusLoop r parts).run d) := by
  have hf : Frame r d₀ (plusStates r d) parts d.states.size 4 := by
    refine h.frame ((grows_pair (by decide) (by decide)).trans (grows_pair (by decide) (by decide)))
      (by rw [plusStates, size_pair, size_pair]) fun i hi => ?_
    unfold Draft.Open
    rw [plusStates, state_pair, state_pair, size_pair]
    grind
  have h₁ := hf.alternatives (i := 0) (j := 1) (by decide) (by decide)
  have h₂ := h₁.link (i := 1) (j := 2) (by decide) (by decide)
  have h₃ := h₂.link (i := 2) (j := 0) (by decide) (by decide)
  have h₄ := h₃.link (i := 2) (j := 3) (by decide) (by decide)
  rw [plusLoop_run]
  exact h₄.adds (i := 0) (j := 3) (by decide) (by decide)

end DraftM

open Draft DraftM

variable {d : Draft} {r : RuleId}

/-- Fragments that were added before stay parts when more is added. -/
theorem parts_cons {f : Fragment} {d₁ d₂ : Draft} {parts : List Fragment}
    (h : Adds r d (f, d₁)) (hp : Parts r d₁ d₂ parts) : Parts r d d₂ (f :: parts) := by
  refine ⟨h.grows.trans hp.grows, fun g hg => ?_⟩
  rcases List.mem_cons.1 hg with rfl | hg
  · exact h.holds.grows hp.grows
  · exact (hp.holds g hg).of_le h.grows.size

/-- The alternatives of a block or loop around an element. -/
def Element.lowerParts (r : RuleId) : Element → DraftM (List Fragment)
  | .alt alternatives => Element.lowerAll r alternatives
  | e => Element.lower r e >>= fun part => pure [part]

section

variable (d : Draft) (r : RuleId) (e : Element) (items rest : List Element)

theorem run_bind {α β : Type} (m : DraftM α) (f : α → DraftM β) :
    (m >>= f).run d = (f (m.run d).1).run (m.run d).2 := rfl

theorem Element.lower_seq :
    Element.lower r (.seq items) = Element.lowerAll r items >>= sequence r := by
  rw [Element.lower]

theorem Element.lower_alt :
    Element.lower r (.alt items) = Element.lowerAll r items >>= choice r := by
  rw [Element.lower]

theorem Element.lower_opt :
    Element.lower r (.opt e) = Element.lowerParts r e >>= fun parts => block r parts true := by
  cases e <;> rw [Element.lower] <;> first | rfl | (intro as h; cases h)

theorem Element.lower_star :
    Element.lower r (.star e) = Element.lowerParts r e >>= starLoop r := by
  cases e <;> rw [Element.lower] <;> first | rfl | (intro as h; cases h)

theorem Element.lower_plus :
    Element.lower r (.plus e) = Element.lowerParts r e >>= plusLoop r := by
  cases e <;> rw [Element.lower] <;> first | rfl | (intro as h; cases h)

theorem Element.lowerAll_nil : Element.lowerAll r [] = pure [] := by rw [Element.lowerAll]

theorem Element.lowerAll_cons :
    Element.lowerAll r (e :: rest) =
      Element.lower r e >>= fun part => Element.lowerAll r rest >>= fun parts =>
        pure (part :: parts) := by
  rw [Element.lowerAll]

end

theorem parts_one {f : Fragment} {d₁ : Draft} (h : Adds r d (f, d₁)) : Parts r d d₁ [f] :=
  parts_cons h ⟨.refl r d₁, by simp⟩

mutual

/-- Lowering an element adds a fragment. -/
theorem Element.adds_lower (r : RuleId) (e : Element) (d : Draft) :
    Adds r d ((e.lower r).run d) := by
  match e with
  | .seq items =>
    rw [Element.lower_seq, run_bind]
    exact adds_sequence (Element.parts_lowerAll r items d)
  | .alt alternatives =>
    rw [Element.lower_alt, run_bind]
    exact adds_choice (Element.parts_lowerAll r alternatives d)
  | .opt e =>
    rw [Element.lower_opt, run_bind]
    exact adds_block true (Element.parts_lowerParts r e d)
  | .star e =>
    rw [Element.lower_star, run_bind]
    exact adds_starLoop (Element.parts_lowerParts r e d)
  | .plus e =>
    rw [Element.lower_plus, run_bind]
    exact adds_plusLoop (Element.parts_lowerParts r e d)
  | .rule c =>
    rw [Element.lower]
    exact adds_call c (by decide)
  | .token _ | .set _ | .notSet _ | .wildcard | .predicate _ | .contextPredicate _ | .action _
  | .epsilon =>
    rw [Element.lower]
    exact adds_single rfl (by simp)
termination_by (sizeOf e, 0)

/-- Lowering the alternatives around an element adds a fragment for each. -/
theorem Element.parts_lowerParts (r : RuleId) (e : Element) (d : Draft) :
    Parts r d ((Element.lowerParts r e).run d).2 ((Element.lowerParts r e).run d).1 := by
  cases e with
  | alt alternatives =>
    rw [Element.lowerParts]
    exact Element.parts_lowerAll r alternatives d
  | _ =>
    rw [Element.lowerParts, run_bind]
    · exact parts_one (Element.adds_lower r _ d)
    · simp
termination_by (sizeOf e, 1)

/-- Lowering elements adds a fragment for each. -/
theorem Element.parts_lowerAll (r : RuleId) (items : List Element) (d : Draft) :
    Parts r d ((Element.lowerAll r items).run d).2 ((Element.lowerAll r items).run d).1 := by
  match items with
  | [] =>
    rw [Element.lowerAll_nil]
    exact ⟨.refl r d, by simp [pure, StateT.pure, StateT.run]⟩
  | e :: rest =>
    rw [Element.lowerAll_cons, run_bind, run_bind]
    exact parts_cons (Element.adds_lower r e d) (Element.parts_lowerAll r rest _)
termination_by (sizeOf items, 0)

end

end AdaptiveParsing
