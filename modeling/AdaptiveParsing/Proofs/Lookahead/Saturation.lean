import AdaptiveParsing.Lookahead.Closure
import Mathlib
/-!
How far a closure goes. A closure that has nothing left to follow stays as it is, so that any number
of steps that empties it gives the closure itself (`closure_eq_closureRun`). What it then has found is
what the seeds lead to (`mem_found_closure`), and it comes to that if the seeds lead to few enough
configurations, whatever it had seen before (`pending_run`).
-/

namespace AdaptiveParsing.Simulation

variable {sim : Simulation} {full asked : Bool} {w : Closure} {seeds : List Config} {fuel k : Nat}

theorem closureRun_of_pending (h : w.pending.isEmpty = true) : sim.closureRun full fuel w = w := by
  cases fuel with
  | zero => rfl
  | succ fuel => rw [closureRun, if_pos h]

theorem closureRun_add (w : Closure) :
    sim.closureRun full (fuel + k) w = sim.closureRun full k (sim.closureRun full fuel w) := by
  induction fuel generalizing w with
  | zero => rw [Nat.zero_add, closureRun]
  | succ fuel ih =>
    rw [Nat.add_right_comm, closureRun, closureRun]
    split
    · rename_i h
      rw [closureRun_of_pending h]
    · exact ih _

theorem le_closureBound : 8 ^ 8 ≤ sim.closureBound full seeds := by
  unfold closureBound
  refine Nat.le_trans ?_ (Nat.pow_le_pow_right (n := _) ?_ (Nat.le_add_left 8 _))
  · exact Nat.pow_le_pow_left (by omega) _
  · omega

theorem closure_eq_closureRun (hk : k ≤ 8 ^ 8)
    (h : (sim.closureRun full k { pending := seeds, predicated := asked }).pending.isEmpty = true) :
    sim.closure full seeds asked =
      sim.closureRun full k { pending := seeds, predicated := asked } := by
  obtain ⟨m, hm⟩ := Nat.exists_eq_add_of_le (Nat.le_trans hk le_closureBound)
  rw [closure, hm, closureRun_add, closureRun_of_pending h]

/-- Before the end of input a token leaves only what has taken it. -/
theorem reach_of_ne_eof {set : ConfigSet} {token : TokenType} (h : token ≠ TokenType.eof) :
    sim.reach full set token =
      .ofList (sim.closure full (sim.taken set token) set.predicated).found
        (sim.closure full (sim.taken set token) set.predicated).predicated := by
  unfold reach atEnd
  simp only [if_neg h, List.append_nil]

/-- What becomes of a configuration in a closure: those it leads to, or what is found. -/
def expand (sim : Simulation) (full : Bool) (c : Config) : List Config ⊕ Config :=
  let here := sim.network.state c.key.state
  if here.isRuleStop then sim.leave full c here.rule
  else if here.isConsuming then .inr c
  else .inl (here.transitions.filterMap (sim.follow? c))

/-- The configurations that the seeds lead to. -/
inductive Expands (sim : Simulation) (full : Bool) (seeds : List Config) : Config → Prop
  | seed {c : Config} (h : c ∈ seeds) : Expands sim full seeds c
  | step {c d : Config} {next : List Config} (h : Expands sim full seeds c)
      (he : sim.expand full c = .inl next) (hd : d ∈ next) : Expands sim full seeds d

variable {c d : Config} {next pending : List Config}

/-- What a step does with the first pending configuration. -/
theorem closureStep_cons (hw : w.pending = c :: pending) :
    (w.seen.contains c = true ∧ sim.closureStep full w = { w with pending }) ∨
    w.seen.contains c = false ∧ (sim.closureStep full w).seen = w.seen.insert c ∧
      ((∃ next, sim.expand full c = .inl next ∧
          (sim.closureStep full w).pending = next.reverse ++ pending ∧
          (sim.closureStep full w).found = w.found) ∨
        ∃ d, sim.expand full c = .inr d ∧ (sim.closureStep full w).pending = pending ∧
          (sim.closureStep full w).found = d :: w.found) := by
  unfold closureStep expand
  rw [hw]
  cases hc : w.seen.contains c with
  | true =>
    left
    simp [hc]
  | false =>
    right
    simp only [hc, Bool.false_eq_true, if_false, true_and]
    split
    · cases sim.leave full c (sim.network.state c.key.state).rule with
      | inl next => exact ⟨rfl, .inl ⟨next, rfl, rfl, rfl⟩⟩
      | inr d => exact ⟨rfl, .inr ⟨d, rfl, rfl, rfl⟩⟩
    · split
      · exact ⟨rfl, .inr ⟨c, rfl, rfl, rfl⟩⟩
      · exact ⟨rfl, .inl ⟨_, rfl, rfl, rfl⟩⟩

/-- What is pending comes from the seeds, whatever was seen before. -/
theorem pending_step (h : ∀ c ∈ w.pending, sim.Expands full seeds c) :
    ∀ c ∈ (sim.closureStep full w).pending, sim.Expands full seeds c := by
  cases hw : w.pending with
  | nil =>
    have hstay : sim.closureStep full w = w := by
      unfold closureStep
      rw [hw]
    rwa [hstay]
  | cons c pending =>
    have hc : sim.Expands full seeds c := h c (by simp [hw])
    have hrest : ∀ d ∈ pending, sim.Expands full seeds d := fun d hd => h d (by simp [hw, hd])
    rcases @closureStep_cons sim full w _ _ hw with ⟨-, he⟩ | ⟨-, -, ⟨next, he, hp, -⟩ | ⟨d, -, hp, -⟩⟩
    · rwa [he]
    · rw [hp]
      intro d hd
      rcases List.mem_append.1 hd with hd | hd
      · exact .step hc he (List.mem_reverse.1 hd)
      · exact hrest d hd
    · rwa [hp]

theorem mem_pending_run (h : ∀ c ∈ w.pending, sim.Expands full seeds c) (fuel : Nat) :
    ∀ c ∈ (sim.closureRun full fuel w).pending, sim.Expands full seeds c := by
  induction fuel generalizing w with
  | zero => exact h
  | succ fuel ih =>
    unfold closureRun
    split
    · exact h
    · exact ih (pending_step h)

/-- A closure underway: all it holds comes from the seeds, and nothing they lead to is forgotten. -/
structure Explores (sim : Simulation) (full : Bool) (seeds : List Config) (w : Closure) : Prop where
  pending : ∀ c ∈ w.pending, sim.Expands full seeds c
  seen : ∀ c, w.seen.contains c = true → sim.Expands full seeds c
  found : ∀ d ∈ w.found, ∃ c, sim.Expands full seeds c ∧ sim.expand full c = .inr d
  seeds : ∀ c ∈ seeds, w.seen.contains c = true ∨ c ∈ w.pending
  next : ∀ c, w.seen.contains c = true → ∀ next, sim.expand full c = .inl next → ∀ d ∈ next,
    w.seen.contains d = true ∨ d ∈ w.pending
  kept : ∀ c, w.seen.contains c = true → ∀ d, sim.expand full c = .inr d → d ∈ w.found

theorem explores_start : sim.Explores full seeds { pending := seeds, predicated := asked } := by
  refine ⟨fun c hc => .seed hc, ?_, ?_, fun c hc => .inr hc, ?_, ?_⟩ <;> simp

theorem Explores.step (h : sim.Explores full seeds w) :
    sim.Explores full seeds (sim.closureStep full w) := by
  cases hw : w.pending with
  | nil =>
    have : sim.closureStep full w = w := by
      unfold closureStep
      rw [hw]
    rwa [this]
  | cons c pending =>
    have hc : sim.Expands full seeds c := h.pending c (by simp [hw])
    have hpending := pending_step h.pending
    rcases @closureStep_cons sim full w _ _ hw with ⟨hs, he⟩ | ⟨hs, hseen, hstep⟩
    · -- seen before: only the repetition goes
      have hmem : ∀ d, d ∈ w.pending → w.seen.contains d = true ∨ d ∈ pending := by
        intro d hd
        rw [hw] at hd
        rcases List.mem_cons.1 hd with rfl | hd
        · exact .inl hs
        · exact .inr hd
      rw [he] at hpending ⊢
      refine ⟨hpending, h.seen, h.found, ?_, ?_, h.kept⟩
      · intro d hd
        exact (h.seeds d hd).elim .inl (hmem d)
      · intro a ha next hn d hd
        exact (h.next a ha next hn d hd).elim .inl (hmem d)
    · generalize sim.closureStep full w = w' at hseen hstep hpending
      have hin : ∀ d, w'.seen.contains d = true ↔ c = d ∨ w.seen.contains d = true := by
        intro d
        rw [hseen]
        simp
      have hmem : ∀ d, d ∈ w.pending → w'.seen.contains d = true ∨ d ∈ pending := by
        intro d hd
        rw [hw] at hd
        rcases List.mem_cons.1 hd with rfl | hd
        · exact .inl ((hin d).2 (.inl rfl))
        · exact .inr hd
      have hkeep : ∀ d, w.seen.contains d = true ∨ d ∈ w.pending →
          w'.seen.contains d = true ∨ d ∈ pending := by
        rintro d (hd | hd)
        · exact .inl ((hin d).2 (.inr hd))
        · exact hmem d hd
      rcases hstep with ⟨next, he, hp, hf⟩ | ⟨b, he, hp, hf⟩
      · refine ⟨hpending, ?_, ?_, ?_, ?_, ?_⟩
        · intro d hd
          rcases (hin d).1 hd with rfl | hd
          · exact hc
          · exact h.seen d hd
        · rw [hf]
          exact h.found
        · intro d hd
          rw [hp]
          exact (hkeep d (h.seeds d hd)).imp_right (List.mem_append_right _)
        · intro a ha next' hn d hd
          rw [hp]
          rcases (hin a).1 ha with rfl | ha
          · rw [he] at hn
            cases hn
            exact .inr (List.mem_append_left _ (List.mem_reverse.2 hd))
          · exact (hkeep d (h.next a ha next' hn d hd)).imp_right (List.mem_append_right _)
        · intro a ha d hd
          rw [hf]
          rcases (hin a).1 ha with rfl | ha
          · rw [he] at hd
            cases hd
          · exact h.kept a ha d hd
      · refine ⟨hpending, ?_, ?_, ?_, ?_, ?_⟩
        · intro d hd
          rcases (hin d).1 hd with rfl | hd
          · exact hc
          · exact h.seen d hd
        · intro d hd
          rw [hf] at hd
          rcases List.mem_cons.1 hd with rfl | hd
          · exact ⟨c, hc, he⟩
          · exact h.found d hd
        · intro d hd
          rw [hp]
          exact hkeep d (h.seeds d hd)
        · intro a ha next' hn d hd
          rw [hp]
          rcases (hin a).1 ha with rfl | ha
          · rw [he] at hn
            cases hn
          · exact hkeep d (h.next a ha next' hn d hd)
        · intro a ha d hd
          rw [hf]
          rcases (hin a).1 ha with rfl | ha
          · rw [he] at hd
            cases hd
            exact .head _
          · exact .tail _ (h.kept a ha d hd)

theorem Explores.run (h : sim.Explores full seeds w) (fuel : Nat) :
    sim.Explores full seeds (sim.closureRun full fuel w) := by
  induction fuel generalizing w with
  | zero => exact h
  | succ fuel ih =>
    unfold closureRun
    split
    · exact h
    · exact ih h.step

/-- All that the seeds lead to is seen once nothing is pending. -/
theorem Explores.contains (h : sim.Explores full seeds w) (hw : w.pending = [])
    (hc : sim.Expands full seeds c) : w.seen.contains c = true := by
  induction hc with
  | @seed c hc =>
    rcases h.seeds c hc with hs | hs
    · exact hs
    · simp [hw] at hs
  | @step c d next _ he hd ih =>
    rcases h.next c ih next he d hd with hs | hs
    · exact hs
    · simp [hw] at hs

/-- A closure that has come to its end has found what the seeds lead to. -/
theorem mem_found_closure (h : (sim.closure full seeds asked).pending = []) :
    d ∈ (sim.closure full seeds asked).found ↔
      ∃ c, sim.Expands full seeds c ∧ sim.expand full c = .inr d := by
  have hw : sim.Explores full seeds (sim.closure full seeds asked) := explores_start.run _
  constructor
  · exact hw.found d
  · rintro ⟨c, hc, he⟩
    exact hw.kept c (hw.contains h hc) d he

/-- Steps up to the number of configurations, each with all it leads to, leave nothing pending. -/
theorem pending_run {U : Finset Config} {k : Nat} (h : ∀ c ∈ w.pending, sim.Expands full seeds c)
    (hU : ∀ c, sim.Expands full seeds c → c ∈ U)
    (hk : ∀ c next, sim.Expands full seeds c → sim.expand full c = .inl next → next.length ≤ k)
    (hfuel : w.pending.length + k * (U.filter fun c => w.seen.contains c = false).card ≤ fuel) :
    (sim.closureRun full fuel w).pending = [] := by
  induction fuel generalizing w with
  | zero => exact List.eq_nil_of_length_eq_zero (by rw [closureRun]; omega)
  | succ fuel ih =>
    unfold closureRun
    split
    · rename_i he
      exact List.isEmpty_iff.1 he
    · rename_i he
      refine ih (pending_step h) ?_
      cases hw : w.pending with
      | nil => simp [hw] at he
      | cons c pending =>
        rw [hw, List.length_cons] at hfuel
        have hc : sim.Expands full seeds c := h c (by simp [hw])
        rcases @closureStep_cons sim full w _ _ hw with ⟨-, hs⟩ | ⟨hs, hseen, hstep⟩
        · rw [hs]
          dsimp only
          omega
        · have hless : ((U.filter fun d => (w.seen.insert c).contains d = false).card) + 1 ≤
              (U.filter fun d => w.seen.contains d = false).card := by
            refine Finset.card_lt_card (Finset.ssubset_iff_of_subset ?_ |>.2 ⟨c, ?_, ?_⟩)
            · intro d
              simp only [Finset.mem_filter, Std.HashSet.contains_insert, Bool.or_eq_false_iff]
              exact fun hd => ⟨hd.1, hd.2.2⟩
            · exact Finset.mem_filter.2 ⟨hU c hc, hs⟩
            · simp
          have hmul := Nat.mul_le_mul_left k hless
          rw [Nat.mul_add, Nat.mul_one] at hmul
          rw [hseen]
          rcases hstep with ⟨next, hn, hp, -⟩ | ⟨d, hn, hp, -⟩
          · have := hk c next hc hn
            rw [hp, List.length_append, List.length_reverse]
            omega
          · rw [hp]
            omega

end AdaptiveParsing.Simulation
