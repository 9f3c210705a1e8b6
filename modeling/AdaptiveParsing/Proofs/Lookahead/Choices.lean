import AdaptiveParsing.Proofs.Lookahead.FirstToken
import AdaptiveParsing.Proofs.Lookahead.InContext
/-!
What a decision can come to. The alternatives of a set that lookahead comes to are those it started with,
which number the edges of the decision. Main statement: an alternative that is decided on is the number of
an edge (`Simulation.edge_of_predict`).
-/

namespace AdaptiveParsing

open ConfigSet Automaton

namespace ConfigSet

variable {s : ConfigSet} {V : Nat → Prop} {alt : Nat} {t : TokenType}

/-- Every alternative of the set is one of these. -/
def Among (s : ConfigSet) (V : Nat → Prop) : Prop := ∀ k alt, Listed s.entries k alt → V alt

theorem Among.of_mem_alts (h : s.Among V) (ha : alt ∈ s.alts) : V alt := by
  obtain ⟨k, hk⟩ := mem_alts.1 ha
  exact h k alt hk

theorem Among.min? (h : s.Among V) (hm : s.alts.min? = some alt) : V alt :=
  h.of_mem_alts (AltSet.min?_eq_some hm).1

theorem Among.uniqueAlt? (h : s.Among V) (hu : s.uniqueAlt? = some alt) : V alt := by
  refine h.of_mem_alts ?_
  unfold ConfigSet.uniqueAlt? AltSet.single? at hu
  rw [AltSet.mem_iff]
  split at hu
  · rename_i b hb
    obtain rfl := Option.some.inj hu
    rw [hb]
    exact .head _
  · cases hu

theorem Among.finishedAlt? {n : Network} (h : s.Among V) (hf : s.finishedAlt? n = some alt) : V alt := by
  obtain ⟨k, hk, -⟩ := listed_of_finishedAlt? hf
  exact h k alt hk

/-- What is settled on is in the set, unless the set is empty. -/
theorem Among.settledAlt? (h : s.Among V) (ho : Ordered s.entries) (hne : s.isEmpty = false)
    (hs : s.settledAlt? t = some alt) : V alt := by
  unfold ConfigSet.settledAlt? at hs
  rcases (Option.orElse_eq_some _ _ _).1 hs with hu | ⟨-, hs⟩
  · exact h.uniqueAlt? hu
  rcases (Option.orElse_eq_some _ _ _).1 hs with ha | ⟨-, hs⟩
  · cases he : s.entries with
    | nil => simp [isEmpty, he] at hne
    | cons entry es =>
      have hmin := agreedAlt?_eq_some ha entry (by simp [he])
      exact h entry.1 alt ⟨entry.2, by simp [he], (AltSet.min?_eq_some hmin).1⟩
  · split at hs
    · obtain ⟨least, hleast⟩ := Option.isSome_iff_exists.1 (isSome_min?_alts ho hne)
      rw [hleast] at hs
      obtain rfl := Option.some.inj hs
      exact h.min? hleast
    · cases hs

end ConfigSet

/-- The number of an edge that leaves the state of the decision, counted from one. -/
def Network.IsEdge (n : Network) (d : DecisionId) (alt : Nat) : Prop :=
  1 ≤ alt ∧ alt ≤ (n.state (n.decisionState d)).transitions.length

namespace Simulation

variable {sim : Simulation} {full asked : Bool} {c c' : Config} {next seeds : List Config}
  {V : Nat → Prop} {set : ConfigSet} {d : DecisionId} {floors : Int → Prop} {a : Automaton}
  {alt : Nat} {mode : PredictionMode} {t : Transition}

theorem alt_follow? (h : sim.follow? c t = some c') : c'.alt = c.alt := by
  rcases follow?_eq_some h with ⟨_, _, _, -, rfl⟩ | ⟨-, -, rfl⟩ <;> rfl

/-- To follow a configuration does not change its alternative. -/
theorem alt_expand : (∀ next, sim.expand full c = .inl next → ∀ c' ∈ next, c'.alt = c.alt) ∧
    ∀ c', sim.expand full c = .inr c' → c'.alt = c.alt := by
  unfold expand leave
  dsimp only
  split
  · split
    · refine ⟨?_, nofun⟩
      rintro _ ⟨⟩ c' hc'
      rw [List.mem_singleton.1 hc']
    · split
      · split
        · refine ⟨?_, nofun⟩
          rintro _ ⟨⟩ c' hc'
          rw [List.mem_singleton.1 hc']
        · refine ⟨nofun, ?_⟩
          rintro _ ⟨⟩
          rfl
      · split
        · refine ⟨nofun, ?_⟩
          rintro _ ⟨⟩
          rfl
        · refine ⟨?_, nofun⟩
          rintro _ ⟨⟩ c' hc'
          obtain ⟨key, -, rfl⟩ := List.mem_map.1 hc'
          rfl
  · split
    · refine ⟨nofun, ?_⟩
      rintro _ ⟨⟩
      rfl
    · refine ⟨?_, nofun⟩
      rintro _ ⟨⟩ c' hc'
      obtain ⟨t, -, ht⟩ := List.mem_filterMap.1 hc'
      exact alt_follow? ht

theorem Expands.among (h : sim.Expands full seeds c) (hseeds : ∀ c ∈ seeds, V c.alt) : V c.alt := by
  induction h with
  | seed hc => exact hseeds _ hc
  | step _ he hd ih =>
    rw [alt_expand.1 _ he _ hd]
    exact ih

/-- What a closure finds has the alternatives of its seeds. -/
theorem among_closure (hseeds : ∀ c ∈ seeds, V c.alt) :
    ∀ c ∈ (sim.closure full seeds asked).found, V c.alt := by
  intro c hc
  obtain ⟨c₀, hexp, he⟩ := (explores_start.run _).found c hc
  rw [alt_expand.2 _ he]
  exact hexp.among hseeds

/-- A token leads to alternatives that were there. -/
theorem among_reach (h : set.Among V) (token : TokenType) : (sim.reach full set token).Among V := by
  have hall : (ofList ((sim.closure full (sim.taken set token) set.predicated).found ++
      sim.atEnd set token) (sim.closure full (sim.taken set token) set.predicated).predicated).Among
      V := by
    intro k alt hk
    rcases List.mem_append.1 (listed_ofList.1 hk) with hfound | hend
    · refine among_closure (fun c hc => ?_) _ hfound
      obtain ⟨k, hk, -⟩ := mem_taken hc
      exact h k c.alt hk
    · unfold atEnd at hend
      split at hend
      · exact h k alt (mem_toList.1 (List.mem_filter.1 hend).1)
      · cases hend
  intro k alt hk
  unfold reach at hk
  dsimp only at hk
  split at hk
  · exact hall k alt (listed_filterStates.1 hk).1
  · exact hall k alt hk

/-- A decision starts with its edges. -/
theorem among_startSet (sim : Simulation) (full : Bool) (d : DecisionId) :
    (sim.startSet full d).Among (sim.network.IsEdge d) := by
  have hclosure : (sim.startClosure full d).Among (sim.network.IsEdge d) := by
    intro k alt hk
    refine among_closure (fun c hc => ?_) _ (listed_ofList.1 hk)
    obtain ⟨⟨t, i⟩, hti, hf⟩ := List.mem_filterMap.1 hc
    rw [alt_follow? hf]
    exact ⟨Nat.le_add_left 1 i, List.snd_lt_of_mem_zipIdx hti⟩
  intro k alt hk
  rw [startSet_eq_startClosure] at hk
  split at hk
  · exact hclosure k alt (listed_filterPrecedence.1 hk).1
  · exact hclosure k alt hk

theorem among_deadEnd {start offending : Nat} (h : set.Among V)
    (hp : sim.deadEnd set start offending = .alternative alt) : V alt := by
  unfold deadEnd at hp
  split at hp
  · rename_i hf
    cases hp
    exact h.finishedAlt? hf
  · cases hp

theorem among_predictInContext {start : Nat} {input : TokenCursor} (h : set.Among V)
    (hp : (sim.predictInContext start set input).1 = .alternative alt) : V alt := by
  fun_induction predictInContext sim start set input with
  | case1 set input configs hempty => exact among_deadEnd h hp
  | case2 set input configs hempty alt' hs =>
    cases hp
    exact (among_reach h _).settledAlt? (ordered_reach _ _) (by simpa using hempty) hs
  | case3 => cases hp
  | case4 set input configs hempty hs heof ih => exact ih (among_reach h _) hp

theorem among_predictFrom {start : Nat} {state : AutomatonState} {input : TokenCursor}
    (ha : Recorded sim.network d floors a) (hready : Ready sim.network d floors a state)
    (h : state.configs.Among (sim.network.IsEdge d))
    (hp : (sim.predictFrom d mode start a state input).1 = .alternative alt) :
    sim.network.IsEdge d alt := by
  fun_induction predictFrom sim d mode start a state input with
  | case1 a state input a' hnone => exact among_deadEnd h hp
  | case2 a state input next a' hnext hctx p input' hin =>
    have hlive := @among_predictInContext sim _ _ alt start (input.seek start)
      (among_startSet sim true d)
    rw [hin] at hlive
    exact hlive hp
  | case3 a state input next a' hnext hctx alt' hpred =>
    cases hp
    obtain ⟨-, -, -, hc, -, hverdict⟩ := hnext ▸ target_spec (t := input.kind) ha hready
    have hamong := @among_reach sim false _ _ h input.kind
    rw [← hc] at hamong
    rcases hverdict with hv | ⟨hv, -⟩
    · unfold verdict at hv
      split at hv
      · rename_i hu
        rw [(Prod.mk.inj hv).1] at hpred
        cases hpred
        exact hamong.uniqueAlt? hu
      · split at hv
        · rw [(Prod.mk.inj hv).1] at hpred
          exact hamong.min? hpred
        · rw [(Prod.mk.inj hv).1] at hpred
          cases hpred
    · rw [(Prod.mk.inj hv).1] at hpred
      cases hpred
  | case4 => cases hp
  | case5 a state input next a' hnext hctx hpred heof ih =>
    obtain ⟨hrec, -, hfind⟩ := hnext ▸ target_spec (t := input.kind) ha hready
    have hamong := @among_reach sim false _ _ h input.kind
    rw [← hfind.2.1] at hamong
    exact ih hrec (hfind.1.ready hrec hpred) hamong hp

/-- An alternative that is decided on is the number of an edge. -/
theorem edge_of_predict {input : TokenCursor} (hf : floors sim.floor)
    (ha : Recorded sim.network d floors a)
    (hp : (sim.predict d mode a input).1 = .alternative alt) : sim.network.IsEdge d alt := by
  obtain ⟨hrec, -, hready, hset⟩ := startState_spec (d := d) hf ha
  refine among_predictFrom hrec hready ?_ hp
  rw [hset]
  exact among_startSet sim false d

end Simulation

end AdaptiveParsing
