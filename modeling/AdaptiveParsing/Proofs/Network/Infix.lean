import AdaptiveParsing.Proofs.Grammar.Climbing
import AdaptiveParsing.Proofs.Network.Closing
import AdaptiveParsing.Proofs.Network.Language
/-!
The states of a rule of operands and operators of one token each. An operand is a state that takes it
(`HeadAt`), an operator five states one after the other: its level, the operator, and the call of the
right operand (`RoundAt`). Main statement: what the draft holds of such a rule once its body has been
lowered (`RuleBody.infix_lower`).
-/

namespace AdaptiveParsing

open Draft DraftM RuleBody

/-- A state within rule `r`, with these edges. -/
def NetworkState.basic (r : RuleId) (transitions : List Transition) : NetworkState :=
  { kind := .basic, rule := r, transitions }

/-- Pairs the elements of a list with states at distance `k` from each other. -/
def spread {α : Type} (k : Nat) : StateId → List α → List (StateId × α)
  | _, [] => []
  | b, a :: l => (b, a) :: spread k (b + k) l

section

variable {α : Type} {k : Nat} {b : StateId} {l : List α} {x : StateId × α}

theorem bounds_spread (h : x ∈ spread k b l) : b ≤ x.1 ∧ x.1 + k ≤ b + k * l.length := by
  induction l generalizing b with
  | nil => cases h
  | cons a l ih =>
    rw [List.length_cons, Nat.mul_succ]
    rcases List.mem_cons.1 h with rfl | h
    · dsimp only
      lia
    · have := ih h
      lia

theorem map_snd_spread (k : Nat) (b : StateId) (l : List α) : (spread k b l).map Prod.snd = l := by
  induction l generalizing b with
  | nil => rfl
  | cons a l ih => rw [spread, List.map_cons, ih]

/-- States with room between them do not meet at any offset. -/
theorem nodup_spread {i : Nat} (hk : 0 < k) (b : StateId) (l : List α) :
    ((spread k b l).map fun x => x.1 + i).Nodup := by
  induction l generalizing b with
  | nil => exact .nil
  | cons a l ih =>
    rw [spread, List.map_cons, List.nodup_cons]
    refine ⟨fun hm => ?_, ih (b + k)⟩
    obtain ⟨x, hx, he⟩ := List.mem_map.1 hm
    have := (bounds_spread hx).1
    lia

end

/-- An operand: its state and the one after it, which has these edges. -/
structure HeadAt (σ : StateId → NetworkState) (r : RuleId) (next : List Transition)
    (h : StateId × TokenType) : Prop where
  take : σ h.1 = .basic r [⟨h.1 + 1, .atom h.2⟩]
  taken : σ (h.1 + 1) = .basic r next

/-- An operator from its level to the return of its right operand, which has these edges. -/
structure RoundAt (σ : StateId → NetworkState) (r : RuleId) (start : StateId)
    (next : List Transition) (x : StateId × Binding) : Prop where
  guard : σ x.1 = .basic r [⟨x.1 + 1, .precedence x.2.level⟩]
  take : σ (x.1 + 1) = .basic r [⟨x.1 + 2, .atom x.2.token⟩]
  taken : σ (x.1 + 2) = .basic r [.epsilon (x.1 + 3)]
  call : σ (x.1 + 3) = .basic r [⟨start, .rule r (x.1 + 4) x.2.floor⟩]
  back : σ (x.1 + 4) = .basic r next

/-- Operands between an entry and an exit: one alone, or several in a block. -/
inductive HeadsAt (σ : StateId → NetworkState) (r : RuleId) (next : List Transition) :
    List (StateId × TokenType) → StateId → StateId → Prop
  | one {h : StateId × TokenType} (hh : HeadAt σ r next h) : HeadsAt σ r next [h] h.1 (h.1 + 1)
  | block {heads : List (StateId × TokenType)} {c x : StateId} (hlen : 1 < heads.length)
      (hc : σ c = { kind := .blockStart, rule := r, transitions := heads.map fun h => .epsilon h.1 })
      (hx : σ x = { kind := .blockEnd, rule := r, transitions := next })
      (hheads : ∀ h ∈ heads, HeadAt σ r [.epsilon x] h) : HeadsAt σ r next heads c x

/-- The loop of a rule at its entry `e`, and the operators in it. -/
structure LoopAt (σ : StateId → NetworkState) (r : RuleId) (rule : Rule)
    (rounds : List (StateId × Binding)) (e : StateId) : Prop where
  entry : σ e = { kind := .starLoopEntry, rule := r
                  transitions := [.epsilon (e + 1), .epsilon (e + 4)], precedenceDecision := true }
  choice : σ (e + 1) = { kind := .starBlockStart, rule := r
                         transitions := rounds.map fun x => .epsilon x.1 }
  done : σ (e + 2) = { kind := .blockEnd, rule := r, transitions := [.epsilon (e + 3)] }
  back : σ (e + 3) = { kind := .starLoopBack, rule := r, transitions := [.epsilon e] }
  exit : σ (e + 4) = { kind := .loopEnd, rule := r, transitions := [.epsilon rule.stop] }
  rounds : ∀ x ∈ rounds, RoundAt σ r rule.start [.epsilon (e + 2)] x

/-- A rule of operands and operators: its operands come first and lead to the loop, or to the stop if
there are no operators. -/
structure InfixShape (σ : StateId → NetworkState) (r : RuleId) (rule : Rule)
    (heads : List (StateId × TokenType)) (rounds : List (StateId × Binding)) (after : StateId) :
    Prop where
  heads : ∃ entry exit, σ rule.start = { kind := .ruleStart, rule := r, transitions := [.epsilon entry] } ∧
    HeadsAt σ r [.epsilon after] heads entry exit
  loop : if rounds = [] then after = rule.stop ∧ rule.leftRecursive = false
    else LoopAt σ r rule rounds after ∧ rule.leftRecursive = true
  calls : ∀ s, (σ s).rule = r → ∀ t ∈ (σ s).transitions, t.call? ≠ none → ∃ x ∈ rounds, s = x.1 + 3

section

variable {σ σ' : StateId → NetworkState} {r : RuleId} {next : List Transition} {rule : Rule}
  {heads : List (StateId × TokenType)} {rounds : List (StateId × Binding)} {after : StateId}

/-- States of the rule that have edges are the same. -/
def SameEdges (r : RuleId) (σ σ' : StateId → NetworkState) : Prop :=
  ∀ s, (σ s).rule = r → (σ s).transitions ≠ [] → (σ s).decision = none → σ' s = σ s

theorem SameEdges.trans {σ'' : StateId → NetworkState} (h : SameEdges r σ σ')
    (h' : SameEdges r σ' σ'') : SameEdges r σ σ'' := fun s hr ht hd => by
  have he := h s hr ht hd
  rw [← he] at hr ht hd ⊢
  exact h' s hr ht hd

theorem SameEdges.state {s : StateId} {here : NetworkState} (h : SameEdges r σ σ') (hs : σ s = here)
    (hr : here.rule = r) (ht : here.transitions ≠ []) (hd : here.decision = none) : σ' s = here := by
  subst hs
  exact h s hr ht hd

theorem HeadAt.congr {h : StateId × TokenType} (hh : HeadAt σ r next h) (he : SameEdges r σ σ')
    (hx : σ' (h.1 + 1) = σ (h.1 + 1)) : HeadAt σ' r next h :=
  ⟨he.state hh.take rfl nofun rfl, hx.trans hh.taken⟩

theorem RoundAt.congr {x : StateId × Binding} {start : StateId} (h : RoundAt σ r start next x)
    (he : SameEdges r σ σ') (hx : σ' (x.1 + 4) = σ (x.1 + 4)) : RoundAt σ' r start next x :=
  ⟨he.state h.guard rfl nofun rfl, he.state h.take rfl nofun rfl, he.state h.taken rfl nofun rfl,
    he.state h.call rfl nofun rfl, hx.trans h.back⟩

theorem HeadsAt.exit_state {entry exit : StateId} (h : HeadsAt σ r next heads entry exit) :
    ∃ kind, σ exit = { kind, rule := r, transitions := next } := by
  cases h with
  | one hh => exact ⟨_, hh.taken⟩
  | block _ _ hx _ => exact ⟨_, hx⟩

theorem HeadsAt.congr {entry exit : StateId} (h : HeadsAt σ r next heads entry exit)
    (he : SameEdges r σ σ') (hx : σ' exit = σ exit) : HeadsAt σ' r next heads entry exit := by
  cases h with
  | one hh => exact .one (hh.congr he hx)
  | block hlen hc hend hheads =>
    refine .block hlen (he.state hc rfl ?_ rfl) (hx.trans hend)
      fun h hh => (hheads h hh).congr he (he.state (hheads h hh).taken rfl nofun rfl ▸
        (hheads h hh).taken.symm)
    simpa using List.ne_nil_of_length_pos (Nat.lt_trans Nat.one_pos hlen)

/-- What leaves the exit of operands does not matter for the rest. -/
theorem HeadsAt.leave {entry exit : StateId} {more : List Transition}
    (h : HeadsAt σ r next heads entry exit) (he : SameEdges r σ σ')
    (hx : σ' exit = { σ exit with transitions := more }) : HeadsAt σ' r more heads entry exit := by
  cases h with
  | one hh =>
    rw [hh.taken] at hx
    exact .one ⟨he.state hh.take rfl nofun rfl, hx⟩
  | block hlen hc hend hheads =>
    rw [hend] at hx
    refine .block hlen (he.state hc rfl ?_ rfl) hx
      fun h hh => (hheads h hh).congr he (he.state (hheads h hh).taken rfl nofun rfl ▸
        (hheads h hh).taken.symm)
    simpa using List.ne_nil_of_length_pos (Nat.lt_trans Nat.one_pos hlen)

/-- The rules have the same ends, and both or neither are left-recursive. -/
def Rule.Same (rule rule' : Rule) : Prop :=
  rule'.start = rule.start ∧ rule'.stop = rule.stop ∧ rule'.leftRecursive = rule.leftRecursive

/-- What has edges in the rule is the same. -/
structure SameRule (r : RuleId) (σ σ' : StateId → NetworkState) : Prop where
  edges : SameEdges r σ σ'
  back : ∀ s, (σ' s).rule = r → (σ' s).transitions ≠ [] →
    (σ s).rule = r ∧ (σ s).transitions = (σ' s).transitions

theorem LoopAt.congr {rule' : Rule} {e : StateId} (h : LoopAt σ r rule rounds e)
    (he : SameEdges r σ σ') (hrule : rule.Same rule') (hr : rounds ≠ []) :
    LoopAt σ' r rule' rounds e where
  entry := he.state h.entry rfl nofun rfl
  choice := he.state h.choice rfl (by simpa using hr) rfl
  done := he.state h.done rfl nofun rfl
  back := he.state h.back rfl nofun rfl
  exit := by
    rw [hrule.2.1]
    exact he.state h.exit rfl nofun rfl
  rounds := fun x hx => by
    rw [hrule.1]
    exact (h.rounds x hx).congr he (he.state (h.rounds x hx).back rfl nofun rfl ▸
      (h.rounds x hx).back.symm)

theorem InfixShape.congr {rule' : Rule} (h : InfixShape σ r rule heads rounds after)
    (he : SameRule r σ σ') (hrule : rule.Same rule') :
    InfixShape σ' r rule' heads rounds after where
  heads := by
    obtain ⟨entry, exit, hs, hh⟩ := h.heads
    obtain ⟨kind, hx⟩ := hh.exit_state
    rw [hrule.1]
    exact ⟨entry, exit, he.edges.state hs rfl nofun rfl,
      hh.congr he.edges (he.edges.state hx rfl nofun rfl ▸ hx.symm)⟩
  loop := by
    rw [hrule.2.1, hrule.2.2]
    have hl := h.loop
    split at hl
    · rwa [if_pos ‹_›]
    · rw [if_neg ‹_›]
      exact ⟨hl.1.congr he.edges hrule ‹_›, hl.2⟩
  calls := by
    intro s hs t ht hc
    obtain ⟨hr, hts⟩ := he.back s hs (List.ne_nil_of_mem ht)
    exact h.calls s hr t (hts ▸ ht) hc

end

variable {d d' : Draft} {r : RuleId}

/-- An operand is lowered to two states. -/
theorem lowerHeads_infix (r : RuleId) (l : List InfixAlternative) (d : Draft) :
    ∃ d₁, runOn (lowerHeads r (levels (l.map InfixAlternative.alternative))) d =
        (.ok ((spread 2 d.states.size (InfixAlternative.operands l)).map fun h => ⟨h.1, h.1 + 1⟩),
          d₁) ∧
      d₁.states.size = d.states.size + 2 * (InfixAlternative.operands l).length ∧
      (∀ s, s < d.states.size → d₁.state s = d.state s) ∧
      ∀ h ∈ spread 2 d.states.size (InfixAlternative.operands l), HeadAt d₁.state r [] h := by
  induction l generalizing d with
  | nil => exact ⟨d, lowerHeads_nil r d, rfl, fun _ _ => rfl, nofun⟩
  | cons a l ih =>
    rw [List.map_cons, levels_cons, lowerHeads_cons]
    cases a with
    | operator associativity t =>
      obtain ⟨d₁, hrun, h⟩ := ih d
      refine ⟨d₁, ?_, h⟩
      dsimp only
      rw [show (((InfixAlternative.operator associativity t).alternative.lowerHead? r _).run d) =
        (none, d) from rfl, hrun]
      rfl
    | operand t =>
      have hlower : ((InfixAlternative.operand t).alternative.lowerHead? r
          ((l.map InfixAlternative.alternative).length + 1)).run d =
          (some ((single r (.atom t)).run d).1, ((single r (.atom t)).run d).2) := rfl
      have hone := state_single (s := r) (.atom t) d
      have hsize : ((single r (.atom t)).run d).2.states.size = d.states.size + 2 := by
        rw [single_run, size_addTransition, size_pair]
      have hpart : ((single r (.atom t)).run d).1 = ⟨d.states.size, d.states.size + 1⟩ := by
        rw [single_run]
      dsimp only
      rw [hlower, hpart]
      generalize ((single r (.atom t)).run d).2 = d₁ at *
      obtain ⟨d₂, hrun, hsize', hold, hheads⟩ := ih d₁
      rw [hsize] at hrun hsize' hold hheads
      rw [hrun]
      refine ⟨d₂, rfl, ?_, ?_, ?_⟩
      · rw [hsize', InfixAlternative.operands, List.length_cons]
        lia
      · intro s hs
        rw [hold s (by lia), hone, if_neg (by lia), if_neg (by lia)]
      · intro h hh
        rcases List.mem_cons.1 hh with rfl | hh
        · refine ⟨?_, ?_⟩
          · rw [hold _ (by simp), hone, if_pos rfl]
            rfl
          · rw [hold _ (by simp), hone, if_neg (by simp), if_pos rfl]
            rfl
        · exact hheads h hh

/-- The operator of a left-recursive rule. -/
def Binding.operator (b : Binding) : Operator := ⟨b.level, [.token b.token], some b.floor⟩

theorem operators_infix (l : List InfixAlternative) :
    (RuleBody.leftRecursive (l.map InfixAlternative.alternative)).operators =
      (InfixAlternative.bindings l).map Binding.operator := by
  induction l with
  | nil => rfl
  | cons a l ih =>
    rw [RuleBody.operators] at ih ⊢
    rw [List.map_cons, levels_cons, List.length_map]
    cases a with
    | operand t => exact ih
    | operator associativity t =>
      rw [InfixAlternative.bindings, List.map_cons, ← ih]
      cases associativity <;> rfl

/-- An operator is lowered to five states. -/
theorem Binding.lower_run (b : Binding) (r : RuleId) (d : Draft) :
    (b.operator.lower r).run d =
      (⟨d.states.size, d.states.size + 4⟩,
        let g := d.states.size
        let d₁ := ((single r (.atom b.token)).run (d.addState .basic r).2).2.addTransition g
          ⟨g + 1, .precedence b.level⟩
        ((pair r .basic .basic d₁).addTransition (g + 3)
          ⟨(d₁.rule r).start, .rule r (g + 4) b.floor⟩).addEpsilon (g + 2) (g + 3)) := by
  have hone : ((single r (.atom b.token)).run (d.addState .basic r).2).1 =
      ⟨d.states.size + 1, d.states.size + 2⟩ := by
    rw [single_run, size_addState]
  have hsize : (((single r (.atom b.token)).run (d.addState .basic r).2).2.addTransition d.states.size
      ⟨d.states.size + 1, .precedence b.level⟩).states.size = d.states.size + 3 := by
    rw [size_addTransition, single_run, size_addTransition, size_pair, size_addState]
  rw [Operator.lower_run]
  show (let body := (single r (.atom b.token)).run (d.addState .basic r).2
    let d₁ := body.2.addTransition d.states.size ⟨body.1.entry, .precedence b.level⟩
    let c := (DraftM.call r r b.floor).run d₁
    ((⟨d.states.size, c.1.exit⟩, c.2.addEpsilon body.1.exit c.1.entry) : Fragment × Draft)) = _
  dsimp only
  rw [call_run, hone, hsize]

theorem Binding.state_lower (b : Binding) (r : RuleId) (d : Draft) :
    ((b.operator.lower r).run d).2.states.size = d.states.size + 5 ∧
      (∀ c, (((b.operator.lower r).run d).2.rule c).toRule = (d.rule c).toRule) ∧
      (∀ s, s < d.states.size → ((b.operator.lower r).run d).2.state s = d.state s) ∧
      RoundAt ((b.operator.lower r).run d).2.state r (d.rule r).start [] (d.states.size, b) := by
  rw [b.lower_run]
  dsimp only
  have hone := state_single (s := r) (.atom b.token) (d.addState .basic r).2
  have hsize : ((single r (.atom b.token)).run (d.addState .basic r).2).2.states.size =
      d.states.size + 3 := by
    rw [single_run, size_addTransition, size_pair, size_addState]
  have hrule : ∀ c, (((single r (.atom b.token)).run (d.addState .basic r).2).2.rule c).toRule =
      (d.rule c).toRule := fun c => by
    rw [single_run, rule_addTransition]
    rfl
  rw [size_addState] at hone
  generalize ((single r (.atom b.token)).run (d.addState .basic r).2).2 = d₁ at *
  have hguard : ∀ s, (d₁.addTransition d.states.size
      ⟨d.states.size + 1, .precedence b.level⟩).state s = _ :=
    fun s => state_addTransition (by lia)
  have hsize' : (d₁.addTransition d.states.size
      ⟨d.states.size + 1, .precedence b.level⟩).states.size = d.states.size + 3 := by
    rw [size_addTransition, hsize]
  have hrule' : ∀ c, ((d₁.addTransition d.states.size
      ⟨d.states.size + 1, .precedence b.level⟩).rule c).toRule = (d.rule c).toRule := fun c => by
    rw [rule_addTransition, hrule]
  have hstart := congrArg Rule.start (hrule' r)
  generalize d₁.addTransition d.states.size _ = d₂ at *
  have hstate : ∀ s, (((pair r .basic .basic d₂).addTransition (d.states.size + 3)
      ⟨(d₂.rule r).start, .rule r (d.states.size + 4) b.floor⟩).addEpsilon (d.states.size + 2)
        (d.states.size + 3)).state s =
      if s = d.states.size then .basic r [⟨d.states.size + 1, .precedence b.level⟩]
      else if s = d.states.size + 1 then .basic r [⟨d.states.size + 2, .atom b.token⟩]
      else if s = d.states.size + 2 then .basic r [.epsilon (d.states.size + 3)]
      else if s = d.states.size + 3 then
        .basic r [⟨(d.rule r).start, .rule r (d.states.size + 4) b.floor⟩]
      else if s = d.states.size + 4 then .basic r [] else d.state s := fun s => by
    rw [Draft.addEpsilon, state_addTransition (by rw [size_addTransition, size_pair]; lia),
      state_addTransition (by rw [size_pair]; lia), state_pair, hsize', hguard, hone,
      state_addState]
    grind [NetworkState.basic]
  refine ⟨?_, ?_, ?_, ?_⟩
  · rw [size_addEpsilon, size_addTransition, size_pair, hsize']
  · intro c
    rw [Draft.addEpsilon, rule_addTransition, rule_addTransition]
    exact hrule' c
  · intro s hs
    rw [hstate]
    grind
  · constructor <;> rw [hstate] <;> grind

/-- Operators are lowered one after the other. -/
theorem lowerRounds_infix (r : RuleId) (bs : List Binding) (d : Draft) :
    let result := ((bs.map Binding.operator).mapM (Operator.lower r)).run d
    result.1 = (spread 5 d.states.size bs).map (fun x => ⟨x.1, x.1 + 4⟩) ∧
      result.2.states.size = d.states.size + 5 * bs.length ∧
      (∀ s, s < d.states.size → result.2.state s = d.state s) ∧
      ∀ x ∈ spread 5 d.states.size bs, RoundAt result.2.state r (d.rule r).start [] x := by
  induction bs generalizing d with
  | nil => exact ⟨rfl, rfl, fun _ _ => rfl, nofun⟩
  | cons b bs ih =>
    rw [List.map_cons, List.mapM_cons, run_bind, run_bind]
    have hpart : ((b.operator.lower r).run d).1 = ⟨d.states.size, d.states.size + 4⟩ := by
      rw [b.lower_run]
    obtain ⟨hsize, hrules, hold, hround⟩ := b.state_lower r d
    rw [hpart]
    have hstart : (((b.operator.lower r).run d).2.rule r).start = (d.rule r).start :=
      congrArg Rule.start (hrules r)
    generalize ((b.operator.lower r).run d).2 = d₁ at *
    obtain ⟨hparts, hsize', hold', hrounds⟩ := ih d₁
    rw [hsize] at hparts hsize' hold' hrounds
    rw [hstart] at hrounds
    refine ⟨?_, ?_, ?_, ?_⟩
    · show _ :: (((bs.map Binding.operator).mapM (Operator.lower r)).run d₁).1 = _
      rw [hparts]
      rfl
    · refine hsize'.trans ?_
      rw [List.length_cons]
      lia
    · intro s hs
      exact (hold' s (by lia)).trans (hold s hs)
    · intro x hx
      rcases List.mem_cons.1 hx with rfl | hx
      · exact ⟨(hold' _ (by simp)).trans hround.guard, (hold' _ (by simp)).trans hround.take,
          (hold' _ (by simp)).trans hround.taken, (hold' _ (by simp)).trans hround.call,
          (hold' _ (by simp)).trans hround.back⟩
      · exact hrounds x hx

section

variable {d : Draft} {entry exit : StateId} {parts : List Fragment} {f : Fragment}

/-- An edge from a state without edges changes no other that has some. -/
theorem sameEdges_addEpsilon {a : StateId} (b : StateId) (ha : (d.state a).transitions = []) :
    SameEdges r d.state (d.addEpsilon a b).state := fun _ _ hs _ =>
  state_addEpsilon_other fun he => hs (he ▸ ha)

theorem sameEdges_of_old {d' : Draft} (h : ∀ s, s < d.states.size → d'.state s = d.state s) :
    SameEdges r d.state d'.state := by
  intro s _ hs _
  obtain ⟨t, ht⟩ := List.exists_mem_of_ne_nil _ hs
  exact h s (lt_of_edge ht)

/-- Several operands become a block. -/
theorem block_infix {heads : List (StateId × TokenType)} (hlen : 1 < heads.length)
    (hlt : ∀ h ∈ heads, h.1 + 1 < d.states.size)
    (hnodup : (heads.map fun h => h.1 + 1).Nodup) (hheads : ∀ h ∈ heads, HeadAt d.state r [] h) :
    let result := (block r (heads.map fun h => ⟨h.1, h.1 + 1⟩) false).run d
    HeadsAt result.2.state r [] heads result.1.entry result.1.exit ∧
      SameEdges r d.state result.2.state := by
  rw [block_run]
  dsimp only
  rw [if_neg (by decide)]
  have hpair := fun s => @state_pair d r .blockStart .blockEnd s
  have hsize := size_pair r .blockStart .blockEnd d
  have hexits : ∀ f ∈ heads.map fun h => (⟨h.1, h.1 + 1⟩ : Fragment),
      f.exit < (pair r .blockStart .blockEnd d).states.size ∧ f.exit ≠ d.states.size := by
    intro f hf
    obtain ⟨h, hh, rfl⟩ := List.mem_map.1 hf
    have := hlt h hh
    dsimp only
    lia
  have hsame : SameEdges r d.state ((alternatives d.states.size (d.states.size + 1)
      (heads.map fun h => ⟨h.1, h.1 + 1⟩)).run (pair r .blockStart .blockEnd d)).2.state := by
    intro s _ hs _
    obtain ⟨t, ht⟩ := List.exists_mem_of_ne_nil _ hs
    have hs' := lt_of_edge ht
    rw [state_alternatives_other (by lia), hpair, if_neg (by lia), if_neg (by lia)]
    intro f hf he
    obtain ⟨h, hh, rfl⟩ := List.mem_map.1 hf
    rw [he, (hheads h hh).taken] at hs
    exact hs rfl
  refine ⟨.block hlen ?_ ?_ fun h hh => ⟨?_, ?_⟩, hsame⟩
  · rw [state_alternatives_entry (by lia) hexits, hpair, if_pos rfl]
    simp
  · rw [state_alternatives_other (by lia), hpair, if_neg (by lia), if_pos rfl]
    intro f hf
    obtain ⟨h, hh, rfl⟩ := List.mem_map.1 hf
    have := hlt h hh
    dsimp only
    lia
  · exact hsame.state (hheads h hh).take rfl nofun rfl
  · have hmem : (⟨h.1, h.1 + 1⟩ : Fragment) ∈ heads.map fun h => (⟨h.1, h.1 + 1⟩ : Fragment) :=
      List.mem_map_of_mem hh
    have := hlt h hh
    refine (state_alternatives_exit (by lia) hexits ?_ hmem).trans ?_
    · rwa [List.map_map]
    · dsimp only
      rw [hpair, if_neg (by lia), if_neg (by lia), (hheads h hh).taken]
      rfl

/-- One operand stands alone. -/
theorem choice_infix {heads : List (StateId × TokenType)} (hne : heads ≠ [])
    (hlt : ∀ h ∈ heads, h.1 + 1 < d.states.size)
    (hnodup : (heads.map fun h => h.1 + 1).Nodup) (hheads : ∀ h ∈ heads, HeadAt d.state r [] h) :
    let result := (choice r (heads.map fun h => ⟨h.1, h.1 + 1⟩)).run d
    HeadsAt result.2.state r [] heads result.1.entry result.1.exit ∧
      SameEdges r d.state result.2.state := by
  rcases heads with - | ⟨h, - | ⟨h', rest⟩⟩
  · exact absurd rfl hne
  · exact ⟨.one (hheads h (.head _)), fun _ _ _ _ => rfl⟩
  · have hblock : choice r ((h :: h' :: rest).map fun h => ⟨h.1, h.1 + 1⟩) =
        block r ((h :: h' :: rest).map fun h => ⟨h.1, h.1 + 1⟩) false := rfl
    rw [hblock]
    exact block_infix (by simp) hlt hnodup hheads

section

variable {head : Fragment} {d₂ : Draft}

/-- Operands and operators once the loop is there. -/
theorem looped_infix {heads : List (StateId × TokenType)} {rounds : List (StateId × Binding)}
    {rule : Rule} {d₂ : Draft} {head : Fragment}
    (hh : HeadsAt d₂.state r [] heads head.entry head.exit) (hexit : head.exit < d₂.states.size)
    (hrounds : ∀ x ∈ rounds, RoundAt d₂.state r rule.start [] x)
    (hlt : ∀ x ∈ rounds, x.1 + 4 < d₂.states.size ∧ head.exit ≠ x.1 + 4)
    (hnodup : (rounds.map fun x => x.1 + 4).Nodup) (hrule : (d.rule r).stop = rule.stop)
    (hlooped : looped d r head (rounds.map fun x => ⟨x.1, x.1 + 4⟩) d₂ = d') :
    HeadsAt d'.state r [.epsilon d₂.states.size] heads head.entry head.exit ∧
      LoopAt d'.state r rule rounds d₂.states.size ∧ SameEdges r d₂.state d'.state := by
  have hparts : ∀ f ∈ rounds.map fun x => (⟨x.1, x.1 + 4⟩ : Fragment),
      f.exit < d₂.states.size := by
    intro f hf
    obtain ⟨x, hx, rfl⟩ := List.mem_map.1 hf
    exact (hlt x hx).1
  have hnodup' : ((rounds.map fun x => (⟨x.1, x.1 + 4⟩ : Fragment)).map Fragment.exit).Nodup := by
    rwa [List.map_map]
  have hmem : ∀ x ∈ rounds, (⟨x.1, x.1 + 4⟩ : Fragment) ∈
      rounds.map fun x => (⟨x.1, x.1 + 4⟩ : Fragment) := fun x hx => List.mem_map_of_mem hx
  have hloop := states_starLoop (r := r) hparts
  have hends := fun x hx => state_starLoop_exit (r := r) hparts hnodup' (hmem x hx)
  have hother := fun s hs hne => @state_starLoop_other d₂ r
    (rounds.map fun x => (⟨x.1, x.1 + 4⟩ : Fragment)) s hs hne
  have hsize := (rewired_starLoop r (rounds.map fun x => (⟨x.1, x.1 + 4⟩ : Fragment)) d₂).size
  rw [size_starStates] at hsize
  rw [looped, hrule] at hlooped
  generalize ((starLoop r (rounds.map fun x => ⟨x.1, x.1 + 4⟩)).run d₂).2 = d₃ at *
  have hstate : ∀ s, (((d₃.markPrecedenceDecision d₂.states.size).addEpsilon head.exit
      d₂.states.size).addEpsilon (d₂.states.size + 4) rule.stop).state s =
      if s = d₂.states.size + 4 then
        { d₃.state s with transitions := (d₃.state s).transitions ++ [.epsilon rule.stop] }
      else if s = head.exit then
        { d₃.state s with transitions := (d₃.state s).transitions ++ [.epsilon d₂.states.size] }
      else if s = d₂.states.size then { d₃.state s with precedenceDecision := true }
      else d₃.state s := fun s => by
    unfold addEpsilon
    rw [state_addTransition (by rw [size_addTransition, size_markPrecedenceDecision]; lia),
      state_addTransition (by rw [size_markPrecedenceDecision]; lia),
      state_markPrecedenceDecision (by lia)]
    grind
  rw [hlooped] at hstate
  obtain ⟨hentry, hchoice, hdone, hback, hloopEnd⟩ := hloop
  have hsame : SameEdges r d₂.state d'.state := by
    intro s _ hs _
    obtain ⟨t, ht⟩ := List.exists_mem_of_ne_nil _ hs
    have hs' := lt_of_edge ht
    obtain ⟨kind, hx⟩ := hh.exit_state
    have hne : s ≠ head.exit := by
      rintro rfl
      rw [hx] at hs
      exact hs rfl
    rw [hstate, if_neg (by lia), if_neg hne, if_neg (by lia), hother s hs']
    intro f hf he
    obtain ⟨x, hx, rfl⟩ := List.mem_map.1 hf
    rw [he, (hrounds x hx).back] at hs
    exact hs rfl
  have hexit' : d'.state head.exit =
      { d₂.state head.exit with transitions := [.epsilon d₂.states.size] } := by
    obtain ⟨kind, hx⟩ := hh.exit_state
    rw [hstate, if_neg (by lia), if_pos rfl, hother _ hexit, hx]
    · rfl
    · intro f hf
      obtain ⟨x, hx, rfl⟩ := List.mem_map.1 hf
      exact (hlt x hx).2
  refine ⟨hh.leave hsame hexit', ⟨?_, ?_, ?_, ?_, ?_, ?_⟩, hsame⟩
  · rw [hstate, if_neg (by lia), if_neg (by lia), if_pos rfl, hentry]
  · rw [hstate, if_neg (by lia), if_neg (by lia), if_neg (by lia), hchoice, List.map_map]
    rfl
  · rw [hstate, if_neg (by lia), if_neg (by lia), if_neg (by lia), hdone]
  · rw [hstate, if_neg (by lia), if_neg (by lia), if_neg (by lia), hback]
  · rw [hstate, if_pos rfl, hloopEnd]
    rfl
  · intro x hx
    obtain ⟨hlt', hne⟩ := hlt x hx
    have hr := hrounds x hx
    refine ⟨hsame.state hr.guard rfl (List.cons_ne_nil _ _) rfl,
      hsame.state hr.take rfl (List.cons_ne_nil _ _) rfl,
      hsame.state hr.taken rfl (List.cons_ne_nil _ _) rfl,
      hsame.state hr.call rfl (List.cons_ne_nil _ _) rfl, ?_⟩
    have hend := hends x hx
    dsimp only at hend
    rw [hstate, if_neg (by lia), if_neg hne.symm, if_neg (by lia), hend, hr.back]
    rfl

end

/-- An edge that is no call, unless its state is before `lo` or may have one. -/
def CallsAt (lo : StateId) (calls : StateId → Prop) (a : StateId) (k : EdgeKind) : Prop :=
  a < lo ∨ calls a ∨ ∀ c follow precedence, k ≠ .rule c follow precedence

section

variable {lo : StateId} {calls : StateId → Prop}

theorem callsAt_of_ne {k : EdgeKind} (h : ∀ c follow precedence, k ≠ .rule c follow precedence)
    (a : StateId) : CallsAt lo calls a k := .inr (.inr h)

theorem callsAt_epsilon (a : StateId) : CallsAt lo calls a .epsilon := callsAt_of_ne (by simp) a

theorem callsAt_lowerHeads (r : RuleId) (l : List InfixAlternative)
    (h : d.Only (CallsAt lo calls)) :
    (runOn (lowerHeads r (levels (l.map InfixAlternative.alternative))) d).2.Only
      (CallsAt lo calls) := by
  refine keepsIf_lowerHeads r _ (fun a ha => ?_) _ (kept_only _) d h
  obtain ⟨x, -, hx⟩ := List.mem_map.1 (mem_of_mem_levels ha)
  rw [← hx]
  cases x with
  | operator associativity t => exact keeps_pure _
  | operand t =>
    refine (Element.keeps_lowerSequence r callsAt_epsilon [Element.token t] ?_).bind
      fun _ => keeps_pure _
    intro leaf hl a follow
    obtain rfl : leaf = Element.token t := by simpa [Element.leavesAll, Element.leaves] using hl
    exact callsAt_of_ne (by simp [Element.edge]) a

/-- Among the states of operators only the fourth of each makes a call. -/
theorem callsAt_lowerRounds (r : RuleId) (bs : List Binding) (h : d.Only (CallsAt lo calls))
    (hcalls : ∀ x ∈ spread 5 d.states.size bs, calls (x.1 + 3)) :
    (((bs.map Binding.operator).mapM (Operator.lower r)).run d).2.Only (CallsAt lo calls) := by
  induction bs generalizing d with
  | nil => exact h
  | cons b bs ih =>
    rw [List.map_cons, List.mapM_cons, run_bind, run_bind]
    refine ih ?_ ?_
    · rw [b.lower_run]
      have hone : ((single r (.atom b.token)).run (d.addState .basic r).2).2.Only (CallsAt lo calls) :=
        (keeps_single (callsAt_of_ne (by simp))).only (h.addState _ _)
      refine Only.addTransition (Only.addTransition ?_ (.inr (.inl (hcalls _ (.head _)))))
        (callsAt_epsilon _)
      exact ((hone.addTransition (callsAt_of_ne (by simp) _)).addState _ _).addState _ _
    · rw [(b.state_lower r d).1]
      exact fun x hx => hcalls x (.tail _ hx)

end

/-- The calls of a rule that was fresh are where they may be. -/
theorem Draft.Fresh.calls {calls : StateId → Prop} (h : d.Fresh r) (hu : Untouched r d d')
    (hcalls : d'.Only (CallsAt d.states.size calls))
    (hstart : ∀ t ∈ (d'.state (d.rule r).start).transitions, t.call? = none)
    (hstop : ∀ t ∈ (d'.state (d.rule r).stop).transitions, t.call? = none) (s : StateId)
    (hs : (d'.state s).rule = r) {t : Transition} (ht : t ∈ (d'.state s).transitions)
    (hc : t.call? ≠ none) : calls s := by
  rcases hcalls s t ht with hlt | hin | hne
  · have hr : (d.state s).rule = r := by
      by_contra hr
      exact hr (hu.old s hlt hr ▸ hs)
    rcases h.only s hlt hr with rfl | rfl
    · exact absurd (hstart t ht) hc
    · exact absurd (hstop t ht) hc
  · exact hin
  · obtain ⟨target, k⟩ := t
    cases k <;> first | exact absurd rfl hc | exact absurd rfl (hne _ _ _)

/-- Operands between the start and the stop of a rule. -/
theorem Draft.Fresh.infix_operands {head : Fragment} {d₂ : Draft}
    {heads : List (StateId × TokenType)} (h : d.Fresh r) (hd : d.CallsAlone)
    (ha : Adds r d (head, d₂)) (hh : HeadsAt d₂.state r [] heads head.entry head.exit)
    (hcalls : d₂.Only (CallsAt d.states.size fun _ => False)) :
    let d' := (d₂.addEpsilon (d.rule r).start head.entry).addEpsilon head.exit (d.rule r).stop
    InfixShape d'.state r (d'.rule r).toRule heads [] (d.rule r).stop := by
  have hu := (@Fresh.lowers_plain _ _ _ (fun _ => True) h hd ha).untouched
  have hr := ha.grows.rules r
  have hstart : (d₂.rule r).start = (d.rule r).start := congrArg Rule.start hr
  have hstop : (d₂.rule r).stop = (d.rule r).stop := congrArg Rule.stop hr
  have hexit := ha.holds.exit_ge
  have hexit' := ha.holds.exit_lt
  have hsize := ha.grows.size
  have hlt := h.start_lt
  have hlt' := h.stop_lt
  have hne := h.start_ne_stop
  have hold := ha.grows.old
  dsimp only at hexit hexit' hsize hold hstart hstop hu
  rw [hstart, hstop] at hu
  intro d'
  have hstate : ∀ s, d'.state s =
      if s = head.exit then
        { d₂.state s with transitions := (d₂.state s).transitions ++ [.epsilon (d.rule r).stop] }
      else if s = (d.rule r).start then
        { d₂.state s with transitions := (d₂.state s).transitions ++ [.epsilon head.entry] }
      else d₂.state s := fun s => by
    show ((d₂.addTransition (d.rule r).start (.epsilon head.entry)).addTransition head.exit
      (.epsilon (d.rule r).stop)).state s = _
    rw [state_addTransition (by rwa [size_addTransition]), state_addTransition (by lia)]
    grind
  have hbegin : d'.state (d.rule r).start =
      { kind := .ruleStart, rule := r, transitions := [.epsilon head.entry] } := by
    rw [hstate, if_neg (by lia), if_pos rfl, hold _ hlt, h.start_state]
    rfl
  have hrule : (d'.rule r).toRule = (d.rule r).toRule := by
    show (((d₂.addTransition (d.rule r).start (.epsilon head.entry)).addTransition head.exit
      (.epsilon (d.rule r).stop)).rule r).toRule = _
    rw [rule_addTransition, rule_addTransition]
    exact hr
  have hsame : SameEdges r d₂.state d'.state := by
    intro s _ hs _
    obtain ⟨kind, hx⟩ := hh.exit_state
    rw [hstate, if_neg, if_neg]
    · rintro rfl
      rw [hold _ hlt, h.start_state] at hs
      exact hs rfl
    · rintro rfl
      rw [hx] at hs
      exact hs rfl
  refine ⟨⟨head.entry, head.exit, ?_, hh.leave hsame ?_⟩, ?_, ?_⟩
  · rw [hrule]
    exact hbegin
  · obtain ⟨kind, hx⟩ := hh.exit_state
    rw [hstate, if_pos rfl, hx]
    rfl
  · rw [if_pos rfl, hrule]
    exact ⟨rfl, h.plain⟩
  · intro s hs t ht hc
    refine (h.calls hu ((hcalls.addTransition (callsAt_epsilon _)).addTransition
      (callsAt_epsilon _)) ?_ ?_ s hs ht hc).elim
    · intro t ht
      rw [hbegin] at ht
      rw [List.mem_singleton.1 ht]
      rfl
    · intro t ht
      rw [hstate, if_neg (by lia), if_neg hne.symm, hold _ hlt', h.stop_state] at ht
      cases ht

/-- Operands, and a loop of operators after them. -/
theorem Draft.Fresh.infix_operators {head : Fragment} {d₂ : Draft}
    {heads : List (StateId × TokenType)} {bs : List Binding} (h : d.Fresh r) (hd : d.CallsAlone)
    (ha : Adds r d (head, d₂)) (hh : HeadsAt d₂.state r [] heads head.entry head.exit)
    (hcalls : ∀ calls, d₂.Only (CallsAt d.states.size calls)) (hne : bs ≠ [])
    (hfloors : ∀ b ∈ bs, 0 ≤ b.floor) :
    let lowered := ((bs.map Binding.operator).mapM (Operator.lower r)).run
      ((d₂.addEpsilon (d.rule r).start head.entry).setLeftRecursive r)
    let d' := looped d r head lowered.1 lowered.2
    InfixShape d'.state r (d'.rule r).toRule heads (spread 5 d₂.states.size bs)
      lowered.2.states.size := by
  have hexit := ha.holds.exit_ge
  have hexit' := ha.holds.exit_lt
  have hsize := ha.grows.size
  have hlt := h.start_lt
  have hold := ha.grows.old
  dsimp only at hexit hexit' hsize hold
  have hlooped := @RuleBody.looped_operators _ _ _ _ (fun _ => True)
    (bs.map Binding.operator) h hd ha (fun _ _ => trivial) fun op hop floor hf => by
      obtain ⟨b, hb, rfl⟩ := List.mem_map.1 hop
      cases hf
      exact hfloors b hb
  have hsame : SameEdges r d₂.state
      ((d₂.addEpsilon (d.rule r).start head.entry).setLeftRecursive r).state :=
    sameEdges_addEpsilon _ (by rw [hold _ hlt, h.start_state])
  have hexit₂ : ((d₂.addEpsilon (d.rule r).start head.entry).setLeftRecursive r).state head.exit =
      d₂.state head.exit := state_addEpsilon_other (by lia)
  have hsize₂ : ((d₂.addEpsilon (d.rule r).start head.entry).setLeftRecursive r).states.size =
      d₂.states.size := size_addEpsilon
  have hstart₂ : (((d₂.addEpsilon (d.rule r).start head.entry).setLeftRecursive r).rule r).start =
      (d.rule r).start := by
    have hr := rule_setLeftRecursive (d := d₂.addEpsilon (d.rule r).start head.entry) (r := r)
      (by rw [count_addEpsilon, ha.grows.count]; exact h.lt) r
    have hr' : (d₂.rule r).start = (d.rule r).start := congrArg Rule.start (ha.grows.rules r)
    rw [if_pos rfl, rule_addEpsilon] at hr
    exact (congrArg Rule.start hr).trans hr'
  have hlowered := lowerRounds_infix r bs
    ((d₂.addEpsilon (d.rule r).start head.entry).setLeftRecursive r)
  have hcalls' := fun calls => @callsAt_lowerRounds
    ((d₂.addEpsilon (d.rule r).start head.entry).setLeftRecursive r) d.states.size calls r bs
    ((hcalls calls).addTransition (callsAt_epsilon _))
  dsimp only at hlooped hlowered ⊢
  rw [hsize₂, hstart₂] at hlowered
  rw [hsize₂] at hcalls'
  generalize ((bs.map Binding.operator).mapM (Operator.lower r)).run
    ((d₂.addEpsilon (d.rule r).start head.entry).setLeftRecursive r) = lowered at *
  obtain ⟨parts, d₄⟩ := lowered
  obtain ⟨guards, hloop⟩ := hlooped
  obtain ⟨hparts, hsize', hold', hrounds⟩ := hlowered
  dsimp only at hparts hsize' hold' hrounds hcalls' hloop ⊢
  have hsame' := hsame.trans (sameEdges_of_old fun s hs => hold' s (hsize₂ ▸ hs))
  subst hparts
  obtain ⟨hstart, hstop, hleft⟩ := hloop.ends_looped r
  rw [if_pos rfl] at hleft
  have hbounds := fun x (hx : x ∈ spread 5 d₂.states.size bs) => bounds_spread hx
  have hh' : HeadsAt d₄.state r [] heads head.entry head.exit :=
    hh.congr hsame' ((hold' _ hexit').trans hexit₂)
  have hcalls₄ : (looped d r head ((spread 5 d₂.states.size bs).map fun x => ⟨x.1, x.1 + 4⟩) d₄).Only
      (CallsAt d.states.size fun s => ∃ x ∈ spread 5 d₂.states.size bs, s = x.1 + 3) :=
    ((((keeps_starLoop callsAt_epsilon _).only
      (hcalls' _ fun x hx => ⟨x, hx, rfl⟩)).markPrecedenceDecision _).addTransition
        (callsAt_epsilon _)).addTransition (callsAt_epsilon _)
  have hu := hloop.untouched
  have hbegin := hloop.state_start
  have hfirst := hloop.transitions_start
  have hlast := hloop.transitions_stop
  generalize hd' : looped d r head ((spread 5 d₂.states.size bs).map fun x => ⟨x.1, x.1 + 4⟩) d₄ =
    d' at *
  obtain ⟨hheads, hloopAt, hedges⟩ := looped_infix hh' (Nat.lt_of_lt_of_le hexit' (hsize' ▸ Nat.le_add_right _ _))
    (fun x hx => hstart ▸ hrounds x hx) (fun x hx => by have := hbounds x hx; lia)
    (nodup_spread (by decide) _ _) hstop.symm hd'
  have hrounds_ne : spread 5 d₂.states.size bs ≠ [] := fun he => hne <| by
    rw [← map_snd_spread 5 d₂.states.size bs, he]
    rfl
  refine ⟨⟨head.entry, head.exit, ?_, hheads⟩, ?_, ?_⟩
  · rw [hstart]
    exact hedges.state hbegin rfl nofun rfl
  · rw [if_neg hrounds_ne]
    exact ⟨hloopAt, hleft⟩
  · intro s hs t ht hc
    refine h.calls hu hcalls₄ ?_ ?_ s hs ht hc
    · intro t ht
      rw [hfirst] at ht
      rw [List.mem_singleton.1 ht]
      rfl
    · intro t ht
      rw [hlast] at ht
      cases ht

/-- What a rule of operands and operators is lowered to. -/
theorem RuleBody.infix_lower {name : String} {l : List InfixAlternative} (h : d.Fresh r)
    (hd : d.CallsAlone)
    (hrun : runOn ((RuleBody.leftRecursive (l.map InfixAlternative.alternative)).lower name r) d =
      (.ok (), d')) :
    ∃ heads rounds after, heads.map Prod.snd = InfixAlternative.operands l ∧
      rounds.map Prod.snd = InfixAlternative.bindings l ∧
      InfixShape d'.state r (d'.rule r).toRule heads rounds after := by
  obtain ⟨d₁, hheads, hsize₁, hold₁, hat⟩ := lowerHeads_infix r l d
  have hcalls₁ := fun calls => @callsAt_lowerHeads d d.states.size calls r l
    fun s t ht => .inl (lt_of_edge ht)
  obtain ⟨heads', d₁', hheads', hparts⟩ := parts_heads r
    (levels (l.map InfixAlternative.alternative)) (fun a ha => Int.le_of_lt (pos_levels ha)) d
  rw [hheads] at hcalls₁ hheads'
  obtain ⟨hok, rfl⟩ := Prod.mk.inj hheads'
  obtain rfl := Except.ok.inj hok
  have ha := adds_choice hparts
  have hlt := fun x (hx : x ∈ spread 2 d.states.size (InfixAlternative.operands l)) =>
    bounds_spread hx
  have hnodup := nodup_spread (i := 1) (k := 2) (by decide) d.states.size
    (InfixAlternative.operands l)
  rw [lower_leftRecursive name r _ hheads] at hrun
  by_cases he : (spread 2 d.states.size (InfixAlternative.operands l)) = []
  · rw [he] at hrun
    cases hrun
  rw [if_neg (by simpa using he)] at hrun
  have hmap := map_snd_spread 2 d.states.size (InfixAlternative.operands l)
  generalize spread 2 d.states.size (InfixAlternative.operands l) = heads at *
  obtain ⟨hprimary, -⟩ := choice_infix he (fun x hx => by have := hlt x hx; lia) hnodup hat
  have hcalls₂ := fun calls => (keeps_choice (r := r) (Q := CallsAt d.states.size calls)
    (fun a => callsAt_of_ne (by simp) a) (heads.map fun x => ⟨x.1, x.1 + 1⟩)).only (hcalls₁ calls)
  generalize (choice r (heads.map fun x => ⟨x.1, x.1 + 1⟩)).run d₁ = result at *
  obtain ⟨head, d₂⟩ := result
  dsimp only at hrun hprimary hcalls₂
  have hr := ha.grows.rules r
  have hstart : (d₂.rule r).start = (d.rule r).start := congrArg Rule.start hr
  have hstop : (d₂.rule r).stop = (d.rule r).stop := congrArg Rule.stop hr
  rw [hstart, hstop, operators_infix] at hrun
  cases hbs : InfixAlternative.bindings l with
  | nil =>
    rw [hbs] at hrun
    obtain rfl := (Prod.mk.inj hrun).2
    exact ⟨heads, [], _, hmap, rfl, h.infix_operands hd ha hprimary (hcalls₂ _)⟩
  | cons b bs =>
    rw [hbs] at hrun
    obtain rfl := (Prod.mk.inj hrun).2
    rw [lowerOperators_run]
    refine ⟨heads, _, _, hmap, map_snd_spread 5 _ _, h.infix_operators hd ha hprimary hcalls₂ nofun
      fun b' hb' => ?_⟩
    have hpos := InfixAlternative.pos_bindings (hbs ▸ hb')
    unfold Binding.floor
    split <;> lia

end

end AdaptiveParsing
