import AdaptiveParsing.Proofs.Lookahead.Dominance
/-!
How deep a closure goes into calls. A configuration keeps the calls of the seed that it comes from
under those it made itself, and these are of different rules (`LeftChain.length_le`). So there are
only so many configurations, and the work list of a closure runs out, whatever was seen before it.
Main statement: `Simulation.closure_runs_out`.
-/

namespace AdaptiveParsing

namespace Simulation

variable {sim : Simulation} {full : Bool} {seeds : List Config} {seed c : Config}
  {levels : RuleId → Int → Prop}

/-- What a closure comes to, it comes to from one of its seeds. -/
theorem Expands.exists_seed (h : sim.Expands full seeds c) :
    ∃ seed ∈ seeds, sim.Expands full [seed] c := by
  induction h with
  | @seed c hc => exact ⟨c, hc, .seed (.head _)⟩
  | step _ he hd ih =>
    obtain ⟨seed, hseed, hc⟩ := ih
    exact ⟨seed, hseed, hc.step he hd⟩

/-- Over the calls of its seed a configuration has at most one call for each rule. -/
theorem Expands.length_stack_le (hs : sim.network.Shaped levels) (hn : sim.network.Checked)
    (h : sim.Expands full [seed] c) :
    c.key.stack.length ≤ seed.key.stack.length + sim.network.rules.size := by
  obtain ⟨nullable, hp⟩ := hn.progressive
  obtain ⟨new, old, rules, hstack, hold, hchain⟩ := (within_of_expands hs hn hp h).chain
  have hnew : new.length ≤ sim.network.rules.size := hchain.length_le hp
  have hseed : seedFrames [seed] = seed.key.stack.length := Nat.zero_max _
  rw [hstack, List.length_append]
  omega

/-- In a compiled grammar the work list of a closure runs out, whatever was seen before, and all that
is ever on it comes from a seed, with at most one call more for each rule. -/
theorem closure_runs_out {g : Grammar} {cg : CompiledGrammar} (hg : g.compile = .ok cg)
    (hsim : sim.network = cg.network) (full : Bool) (w : Closure) :
    (sim.closureRun full (sim.closureBound full w.pending) w).pending = [] ∧
      ∀ steps, ∀ c ∈ (sim.closureRun full steps w).pending, ∃ seed ∈ w.pending,
        sim.Expands full [seed] c ∧ c.key.stack.length ≤ seed.key.stack.length + g.rules.size := by
  obtain ⟨hshape, hsize⟩ := Grammar.shaped_compile hg
  have hchecked := Grammar.checked_compile hg
  rw [← hsim] at hshape hsize hchecked
  refine ⟨pending_closureRun_nil hshape hchecked w, fun steps c hc => ?_⟩
  obtain ⟨seed, hseed, hexp⟩ := (mem_pending_run (fun c hc => .seed hc) steps c hc).exists_seed
  refine ⟨seed, hseed, hexp, ?_⟩
  rw [← hsize]
  exact hexp.length_stack_le hshape hchecked

/-- Past A in an `s` that was called on the way, with one place seen on another way. -/
def pastCall : Closure where
  pending := [⟨{ state := 3, precedence := 0, stack := [⟨5, 0⟩] }, 1⟩]
  seen := {⟨{ state := 6, precedence := 0 }, 1⟩}

/-- A third `s` is called, and there is but the one rule, so no closure goes deeper. -/
theorem runs_out_pastCall : row.compile = .ok ⟨rowNetwork, row.names⟩ ∧
    (insideRow.closureRun true (insideRow.closureBound true pastCall.pending) pastCall).pending = [] ∧
    (∃ c ∈ (insideRow.closureRun true 11 pastCall).pending,
      c.key.stack.length = 1 + row.rules.size) ∧
    ∀ steps, ∀ c ∈ (insideRow.closureRun true steps pastCall).pending,
      c.key.stack.length ≤ 1 + row.rules.size := by
  obtain ⟨hend, hdepth⟩ := @closure_runs_out insideRow row _ compile_row rfl true pastCall
  have hthird : (insideRow.closureRun true 11 pastCall).pending =
      [⟨{ state := 0, precedence := 0, stack := [⟨5, 0⟩, ⟨5, 0⟩] }, 1⟩] := by cbv
  have hsize : row.rules.size = 1 := by cbv
  refine ⟨compile_row, hend, ⟨_, by rw [hthird]; exact .head _, by rw [hsize]; rfl⟩, ?_⟩
  intro steps c hc
  obtain ⟨seed, hseed, -, hle⟩ := hdepth steps c hc
  obtain rfl := List.mem_singleton.1 hseed
  exact hle

end Simulation

end AdaptiveParsing
