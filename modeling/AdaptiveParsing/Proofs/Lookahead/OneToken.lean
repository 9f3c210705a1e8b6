import AdaptiveParsing.Proofs.Lookahead.InContext
import AdaptiveParsing.Proofs.Lookahead.Store
/-!
Decisions by the next token alone. If the token leads to a set in which every key has the same
alternatives, then lookahead without the callers has a verdict on that set: there is one alternative, or
they cannot be told apart (`ConfigSet.Even`). Main statement: it decides for one of these alternatives
whatever the automaton holds (`Simulation.predict_sll`).
-/

namespace AdaptiveParsing

open ConfigSet

namespace ConfigSet

variable {s : ConfigSet} {k l : ConfigKey} {alt : Nat} {V : Nat → Prop}

/-- Every key has the same alternatives. -/
def Even (s : ConfigSet) : Prop :=
  ∀ k l a b, Listed s.entries k a → Listed s.entries l b → Listed s.entries l a

theorem Ordered.mem_of_listed {es : List (ConfigKey × AltSet)} {alts : AltSet} (ho : Ordered es)
    (he : (k, alts) ∈ es) (h : Listed es k alt) : alt ∈ alts := by
  induction es with
  | nil => cases he
  | cons e es ih =>
    rcases List.mem_cons.1 he with rfl | he
    · rcases listed_cons.1 h with ⟨-, h⟩ | h
      · exact h
      · exact absurd h ho.not_listed
    · rcases listed_cons.1 h with ⟨hk, -⟩ | h
      · exact absurd hk.symm ((List.pairwise_cons.1 ho.1).1 _ he).2
      · exact ih ho.tail he h

/-- All entries of an even set have one set of alternatives. -/
theorem Even.exists_eq (h : s.Even) (ho : Ordered s.entries) :
    ∃ alts, ∀ e ∈ s.entries, e.2 = alts := by
  cases he : s.entries with
  | nil => exact ⟨∅, nofun⟩
  | cons e es =>
    refine ⟨e.2, fun f hf => AltSet.eq_of_mem_iff fun a => ?_⟩
    rw [← he] at hf
    have hfirst : e ∈ s.entries := he ▸ .head _
    obtain ⟨b, hb⟩ := ho.2 e hfirst
    obtain ⟨c, hc⟩ := ho.2 f hf
    exact ⟨fun ha => ho.mem_of_listed hfirst (h f.1 e.1 a b ⟨f.2, hf, ha⟩ ⟨e.2, hfirst, hb⟩),
      fun ha => ho.mem_of_listed hf (h e.1 f.1 a c ⟨e.2, hfirst, ha⟩ ⟨f.2, hf, hc⟩)⟩

theorem Among.even {a : Nat} (h : s.Among (· = a)) : s.Even := fun k l b c hb hc =>
  (h k b hb).trans (h l c hc).symm ▸ hc

theorem mem_altsAtState {state : StateId} :
    alt ∈ s.altsAtState state ↔ ∃ k, Listed s.entries k alt ∧ k.state = state := by
  have fold : ∀ (es : List (ConfigKey × AltSet)) (all : AltSet),
      alt ∈ es.foldl (fun all e => if e.1.state == state then all ∪ e.2 else all) all ↔
        alt ∈ all ∨ ∃ k, Listed es k alt ∧ k.state = state := by
    intro es
    induction es with
    | nil => simp [Listed]
    | cons e es ih =>
      intro all
      obtain ⟨k, alts⟩ := e
      rw [List.foldl_cons, ih]
      by_cases hk : k.state = state
      · simp only [hk, beq_self_eq_true, if_true, AltSet.mem_union, or_assoc]
        refine or_congr_right ⟨?_, ?_⟩
        · rintro (h | ⟨l, h, hl⟩)
          · exact ⟨k, listed_cons.2 (.inl ⟨rfl, h⟩), hk⟩
          · exact ⟨l, listed_cons.2 (.inr h), hl⟩
        · rintro ⟨l, h, hl⟩
          rcases listed_cons.1 h with ⟨-, h⟩ | h
          · exact .inl h
          · exact .inr ⟨l, h, hl⟩
      · rw [if_neg (by simpa using hk)]
        refine or_congr_right ⟨?_, ?_⟩
        · rintro ⟨l, h, hl⟩
          exact ⟨l, listed_cons.2 (.inr h), hl⟩
        · rintro ⟨l, h, hl⟩
          rcases listed_cons.1 h with ⟨rfl, -⟩ | h
          · exact absurd hl hk
          · exact ⟨l, h, hl⟩
  rw [altsAtState]
  refine (fold s.entries ∅).trans ?_
  simp

end ConfigSet

/-- The same configuration of another alternative. -/
def Config.withAlt (c : Config) (alt : Nat) : Config := { c with alt }

namespace Simulation

open Automaton

variable {sim : Simulation} {full : Bool} {seeds : List Config} {c c' : Config} {t : Transition}
  {set : ConfigSet} {d : DecisionId} {k : ConfigKey} {alt : Nat} {levels : RuleId → Int → Prop}
  {token : TokenType}

/-- Edges that take no token are followed. -/
theorem expand_of_edge {edges : List Transition} (hn : sim.network.Checked)
    (h : (sim.network.state c.key.state).transitions = edges) (ht : t ∈ edges)
    (hfree : t.isConsuming = false) :
    sim.expand full c = .inl (edges.filterMap (sim.follow? c)) := by
  subst h
  have hwait : (sim.network.state c.key.state).isConsuming = false := by
    rw [← Bool.not_eq_true]
    intro hw
    obtain ⟨u, hu, hc⟩ := hn.isConsuming_iff.1 hw
    rw [hu, List.mem_singleton] at ht
    rw [ht, hc] at hfree
    cases hfree
  rw [expand, if_neg (by simp [hn.not_stop ht]), if_neg (by simp [hwait])]

theorem expand_of_epsilons {α : Type} {l : List α} {f : α → StateId} (hn : sim.network.Checked)
    (h : (sim.network.state c.key.state).transitions = l.map fun a => .epsilon (f a))
    (hne : l ≠ []) :
    sim.expand full c = .inl (l.map fun a => { c with key := c.key.moveTo (f a) }) := by
  obtain ⟨a, ha⟩ := List.exists_mem_of_ne_nil _ hne
  have he : Transition.epsilon (f a) ∈ l.map fun a => Transition.epsilon (f a) :=
    List.mem_map_of_mem ha
  rw [expand_of_edge hn h he rfl, List.filterMap_map]
  refine congrArg Sum.inl ?_
  exact congrFun (List.filterMap_eq_map (f := fun a => { c with key := c.key.moveTo (f a) })) l

theorem expand_of_epsilon {s : StateId} (hn : sim.network.Checked)
    (h : (sim.network.state c.key.state).transitions = [.epsilon s]) :
    sim.expand full c = .inl [{ c with key := c.key.moveTo s }] :=
  expand_of_edge hn h (.head _) rfl

theorem expand_of_precedence {s : StateId} {level : Int} (hn : sim.network.Checked)
    (h : (sim.network.state c.key.state).transitions = [⟨s, .precedence level⟩]) :
    sim.expand full c =
      .inl (if c.key.precedence ≤ level then [{ c with key := c.key.moveTo s }] else []) := by
  rw [expand_of_edge hn h (.head _) rfl]
  refine congrArg Sum.inl ?_
  by_cases hl : c.key.precedence ≤ level <;> simp [follow?, hl]

theorem expand_of_call {s back : StateId} {rule : RuleId} {precedence : Int}
    (hn : sim.network.Checked)
    (h : (sim.network.state c.key.state).transitions = [⟨s, .rule rule back precedence⟩]) :
    sim.expand full c = .inl [{ c with key := { c.key with
      state := s, precedence, stack := ⟨back, c.key.precedence⟩ :: c.key.stack } }] :=
  expand_of_edge hn h (.head _) rfl

/-- A configuration that waits for a token is found. -/
theorem expand_of_isConsuming (hn : sim.network.Checked)
    (h : (sim.network.state c.key.state).transitions = [t]) (hc : t.isConsuming = true) :
    sim.expand full c = .inr c := by
  have ht : t ∈ (sim.network.state c.key.state).transitions := h ▸ List.mem_singleton_self t
  rw [expand, if_neg (by simp [hn.not_stop ht]), if_pos (hn.isConsuming_iff.2 ⟨t, h, hc⟩)]

/-- Where a rule ends and the callers are not known, each return is followed. -/
theorem expand_of_isRuleStop (hstop : (sim.network.state c.key.state).isRuleStop = true)
    (hstack : c.key.stack = []) :
    sim.expand false c =
      if sim.unknownReturns (sim.network.state c.key.state).rule = [] then .inr c
      else .inl ((sim.unknownReturns (sim.network.state c.key.state).rule).map
        fun key => { c with key }) := by
  rw [expand, if_pos hstop, leave, hstack]
  dsimp only
  cases sim.unknownReturns (sim.network.state c.key.state).rule <;> rfl

/-- A decision between edges that take no token starts past each of them. -/
theorem mem_startSeeds {α : Type} {l : List α} {f : α → StateId}
    (h : (sim.network.state (sim.network.decisionState d)).transitions = l.map fun a => .epsilon (f a)) :
    c ∈ sim.startSeeds d ↔
      ∃ i a, l[i]? = some a ∧ c = ⟨{ state := f a, precedence := sim.floor }, i + 1⟩ := by
  rw [startSeeds, startEdges, h, List.mem_filterMap]
  constructor
  · rintro ⟨⟨t, i⟩, hti, hf⟩
    have hi := List.mem_zipIdx_iff_getElem?.1 hti
    rw [List.getElem?_map, Option.map_eq_some_iff] at hi
    obtain ⟨a, ha, rfl⟩ := hi
    exact ⟨i, a, ha, (Option.some.inj hf).symm⟩
  · rintro ⟨i, a, ha, rfl⟩
    refine ⟨(.epsilon (f a), i), List.mem_zipIdx_iff_getElem?.2 ?_, rfl⟩
    rw [List.getElem?_map, ha]
    rfl

theorem follow?_withAlt (c : Config) (alt : Nat) (t : Transition) :
    sim.follow? (c.withAlt alt) t = (sim.follow? c t).map fun d => d.withAlt alt := by
  unfold follow? Config.withAlt
  split <;> first | rfl | (split_ifs <;> rfl)

theorem leave_withAlt (c : Config) (alt : Nat) (rule : RuleId) :
    sim.leave full (c.withAlt alt) rule =
      Sum.map (List.map fun d => d.withAlt alt) (fun d => d.withAlt alt) (sim.leave full c rule) := by
  rw [leave, leave]
  dsimp only [Config.withAlt]
  cases c.key.stack with
  | cons f stack => rfl
  | nil =>
    dsimp only
    split_ifs
    · cases (sim.liveInvocation? c.key.placement).bind sim.liveReturn? <;> rfl
    · cases sim.unknownReturns rule with
      | nil => rfl
      | cons key keys => simp

/-- Where a configuration leads does not depend on its alternative. -/
theorem expand_withAlt (c : Config) (alt : Nat) :
    sim.expand full (c.withAlt alt) =
      Sum.map (List.map fun d => d.withAlt alt) (fun d => d.withAlt alt) (sim.expand full c) := by
  have hfollow : sim.follow? (c.withAlt alt) = fun t => (sim.follow? c t).map fun d => d.withAlt alt :=
    funext fun t => follow?_withAlt c alt t
  have hkey : (c.withAlt alt).key = c.key := rfl
  unfold expand
  dsimp only
  rw [hkey, hfollow, leave_withAlt]
  split_ifs
  · rfl
  · rfl
  · rw [Sum.map_inl, List.map_filterMap]

/-- If the seeds all lead to one key, then whatever one of them leads to the others do as well. -/
theorem Expands.withAlt {key : ConfigKey}
    (hseeds : ∀ c ∈ seeds, sim.expand full c = .inl [⟨key, c.alt⟩]) (h : sim.Expands full seeds c) :
    c ∈ seeds ∨ ∀ s ∈ seeds, sim.Expands full seeds (c.withAlt s.alt) := by
  induction h with
  | seed h => exact .inl h
  | @step c c' next h he hc ih =>
    refine .inr fun s hs => ?_
    rcases ih with hseed | ih
    · rw [hseeds c hseed] at he
      cases he
      rw [List.mem_singleton] at hc
      subst hc
      exact .step (.seed hs) (hseeds s hs) (.head _)
    · have hnext : sim.expand full (c.withAlt s.alt) = .inl (next.map fun d => d.withAlt s.alt) := by
        rw [expand_withAlt, he, Sum.map_inl]
      exact .step (ih s hs) hnext (List.mem_map_of_mem hc)

/-- Without the callers what is found is the configuration itself. -/
theorem eq_of_expand (h : sim.expand false c = .inr c') : c' = c := by
  unfold expand at h
  dsimp only at h
  split at h
  · rw [leave] at h
    cases hs : c.key.stack with
    | cons f stack =>
      rw [hs] at h
      cases h
    | nil =>
      rw [hs] at h
      dsimp only at h
      split at h
      · contradiction
      · split at h
        · exact (Sum.inr.inj h).symm
        · cases h
  · split at h
    · exact (Sum.inr.inj h).symm
    · cases h

theorem mem_taken_iff (hn : sim.network.Checked) : c ∈ sim.taken set token ↔
    ∃ k, Listed set.entries k c.alt ∧ ∃ t ∈ (sim.network.state k.state).transitions,
      sim.network.Matches t.kind token ∧ c.key = k.moveTo t.target := by
  rw [taken, List.mem_flatMap]
  constructor
  · rintro ⟨b, hb, hc⟩
    dsimp only at hc
    split at hc
    · cases hc
    · obtain ⟨t, ht, rfl⟩ := List.mem_map.1 hc
      obtain ⟨ht, hm⟩ := List.mem_filter.1 ht
      exact ⟨b.key, mem_toList.1 hb, t, ht, by simpa using hm, rfl⟩
  · rintro ⟨k, hk, t, ht, hm, hkey⟩
    refine ⟨⟨k, c.alt⟩, mem_toList.2 hk, ?_⟩
    dsimp only
    rw [if_neg (by simp [hn.not_stop ht])]
    exact List.mem_map.2 ⟨t, List.mem_filter.2 ⟨ht, by simpa using hm⟩, by rw [← hkey]⟩

/-- The seeds lead here and no further, the callers not being known. -/
def Rests (sim : Simulation) (seeds : List Config) (c : Config) : Prop :=
  sim.Expands false seeds c ∧ sim.expand false c = .inr c

/-- What a closure finds. -/
theorem listed_closure (hs : sim.network.Shaped levels) (hn : sim.network.Checked)
    (asked predicated : Bool) :
    Listed (ofList (sim.closure false seeds asked).found predicated).entries k alt ↔
      sim.Rests seeds ⟨k, alt⟩ := by
  rw [listed_ofList, mem_found_closure (pending_closure_nil hs hn asked)]
  exact ⟨fun ⟨c, hc, he⟩ => eq_of_expand he ▸ ⟨hc, eq_of_expand he ▸ he⟩, fun ⟨hc, he⟩ => ⟨_, hc, he⟩⟩

/-- What a decision starts with. Leaving a loop of operators is dropped where another round comes to. -/
theorem listed_startSet (hs : sim.network.Shaped levels) (hn : sim.network.Checked) :
    Listed (sim.startSet false d).entries k alt ↔ sim.Rests (sim.startSeeds d) ⟨k, alt⟩ ∧
      ((sim.network.state (sim.network.decisionState d)).precedenceDecision = true →
        alt = 1 ∨ k.placement = .outermostFollow ∨
          ¬ ∃ l, sim.Rests (sim.startSeeds d) ⟨l, 1⟩ ∧ l.state = k.state ∧ l.stack = k.stack) := by
  have hclosure : ∀ l b, Listed (sim.startClosure false d).entries l b ↔
      sim.Rests (sim.startSeeds d) ⟨l, b⟩ := fun l b => listed_closure hs hn _ _
  rw [startSet_eq_startClosure, Bool.not_false, Bool.and_true]
  split
  · rename_i hprec
    rw [listed_filterPrecedence, hclosure, ← Bool.not_eq_true, firstAltAt_iff]
    simp only [hclosure]
    exact and_congr_right fun _ => ⟨fun h _ => h, fun h => h hprec⟩
  · rename_i hprec
    rw [hclosure]
    exact (and_iff_left fun h => absurd h hprec).symm

/-- What a token leads to if nothing before it was at the end of a rule. -/
theorem listed_reach (hs : sim.network.Shaped levels) (hn : sim.network.Checked)
    (hnot : ∀ k alt, Listed set.entries k alt → (sim.network.state k.state).isRuleStop = false) :
    Listed (sim.reach false set token).entries k alt ↔
      sim.Rests (sim.taken set token) ⟨k, alt⟩ ∧
        (token = TokenType.eof → (sim.network.state k.state).isRuleStop = true) := by
  have hend : sim.atEnd set token = [] := by
    unfold atEnd
    split
    · rw [List.filter_eq_nil_iff]
      intro c hc
      rw [hnot c.key c.alt (mem_toList.1 hc)]
      exact Bool.false_ne_true
    · rfl
  unfold reach
  dsimp only
  rw [hend, List.append_nil]
  split
  · rename_i ht
    rw [listed_filterStates, listed_closure hs hn]
    exact and_congr_right fun _ => ⟨fun h _ => h, fun h => h ht⟩
  · rename_i ht
    rw [listed_closure hs hn]
    exact (and_iff_left fun h => absurd h ht).symm

/-- On a set in which every key has the same alternatives there is a verdict. -/
theorem isSome_verdict_of_even (h : set.Even) (ho : Ordered set.entries)
    (hne : set.isEmpty = false) : (sim.verdict set).1.isSome = true := by
  obtain ⟨alts, heq⟩ := h.exists_eq ho
  obtain ⟨k, a, hk⟩ := exists_listed ho hne
  have he : (k, alts) ∈ set.entries := by
    obtain ⟨more, he, -⟩ := hk
    exact (show more = alts from heq _ he) ▸ he
  have hmem : ∀ b, b ∈ alts ↔ Listed set.entries k b := fun b =>
    ⟨fun hb => ⟨alts, he, hb⟩, ho.mem_of_listed he⟩
  have halts : set.alts = alts := AltSet.eq_of_mem_iff fun b => by
    rw [mem_alts, hmem]
    exact ⟨fun ⟨l, hl⟩ => h l k b a hl hk, fun hb => ⟨k, hb⟩⟩
  have hstate : ∀ e ∈ set.entries, set.altsAtState e.1.state = alts := fun e he =>
    AltSet.eq_of_mem_iff fun b => by
      rw [mem_altsAtState, hmem]
      obtain ⟨c, hc⟩ := ho.2 e he
      exact ⟨fun ⟨l, hl, _⟩ => h l k b a hl hk,
        fun hb => ⟨e.1, h k e.1 b c hb ⟨e.2, he, hc⟩, rfl⟩⟩
  unfold verdict
  split
  · rfl
  · rename_i hu
    have hsize : alts.size ≠ 1 := by
      intro hs
      obtain ⟨b, hb⟩ := List.length_eq_one_iff.1 hs
      rw [uniqueAlt?, halts, AltSet.single?, hb] at hu
      cases hu
    have hpos : alts.size ≠ 0 := fun hs =>
      List.not_mem_nil (List.eq_nil_of_length_eq_zero hs ▸ AltSet.mem_iff.1 ((hmem a).2 hk))
    have hconflict : set.isConflict sim.network = true := by
      rw [isConflict, Bool.or_eq_true, Bool.and_eq_true, List.any_eq_true, List.all_eq_true]
      refine .inr ⟨⟨_, he, ?_⟩, fun e he => ?_⟩
      · rw [decide_eq_true_iff]
        lia
      · dsimp only
        rw [hstate e he]
        simpa using hsize
    rw [if_pos hconflict]
    exact isSome_min?_alts ho hne

/-- Seeds that all lead to one key lead to a set in which every key has the same alternatives. -/
theorem even_reach (hs : sim.network.Shaped levels) (hn : sim.network.Checked)
    (hnot : ∀ k alt, Listed set.entries k alt → (sim.network.state k.state).isRuleStop = false)
    {key : ConfigKey} (h : ∀ c ∈ sim.taken set token, sim.expand false c = .inl [⟨key, c.alt⟩]) :
    (sim.reach false set token).Even := by
  intro k l a b ha hb
  rw [listed_reach hs hn hnot] at ha hb ⊢
  obtain ⟨⟨hc, -⟩, -⟩ := ha
  obtain ⟨⟨hc', hrest⟩, hend⟩ := hb
  refine ⟨?_, hend⟩
  obtain ⟨s, hs, rfl⟩ := hc.among (V := fun a => ∃ s ∈ sim.taken set token, s.alt = a)
    fun s hs => ⟨s, hs, rfl⟩
  rcases hc'.withAlt h with hseed | hall
  · rw [h _ hseed] at hrest
    cases hrest
  · refine ⟨hall s hs, ?_⟩
    have hexpand : sim.expand false (Config.withAlt ⟨l, b⟩ s.alt) = _ := expand_withAlt ⟨l, b⟩ s.alt
    rwa [hrest] at hexpand

/-- What lookahead without the callers decides for if the next token leads to a set in which every key has
the same alternatives and which is no set to start with. -/
theorem predict_of_even {floors : Int → Prop} {a : Automaton} {input : TokenCursor} {V : Nat → Prop}
    (hfree : sim.network.PredicateFree) (hf : floors sim.floor)
    (ha : Recorded sim.network d floors a)
    (heven : (sim.reach false (sim.startSet false d) input.kind).Even)
    (hamong : (sim.reach false (sim.startSet false d) input.kind).Among V)
    (hnew : ∃ k alt, Listed (sim.reach false (sim.startSet false d) input.kind).entries k alt ∧
      ∀ floor, ¬ Listed (sim.network.firstSet d floor).entries k alt) :
    ∃ alt, V alt ∧ (sim.predict d .sll a input).1 = .alternative alt := by
  obtain ⟨k, alt, hk, hold⟩ := hnew
  have hne := isEmpty_of_listed hk
  obtain ⟨hrec, -, hready, hconfigs⟩ := startState_spec hf ha
  rw [predict]
  generalize sim.startState d a = start at *
  obtain ⟨s, a'⟩ := start
  dsimp only at hrec hready hconfigs ⊢
  obtain ⟨-, -, hfind⟩ := target_spec (t := input.kind) hrec hready
  rw [predictFrom]
  generalize sim.target a' s input.kind = found at *
  obtain ⟨- | s', a''⟩ := found
  · have hempty := hfind hfree.deadEndsAgree
    rw [hconfigs, hne] at hempty
    cases hempty
  · obtain ⟨-, hset, -, hverdict⟩ := hfind
    rw [hconfigs] at hset
    have hpred : (s'.prediction, s'.needsContext) = sim.verdict s'.configs := by
      rcases hverdict with h | ⟨-, -, -, -, floor, -, hfirst⟩
      · exact h
      · rw [hset] at hfirst
        exact absurd (hfirst ▸ hk) (hold floor)
    rw [hset] at hpred
    have hsome : (sim.verdict (sim.reach false (sim.startSet false d) input.kind)).1.isSome := by
      exact isSome_verdict_of_even heven (ordered_reach _ _) hne
    obtain ⟨m, hm⟩ := Option.isSome_iff_exists.1 hsome
    obtain ⟨c, hc, rfl⟩ := alt_of_verdict (ordered_reach _ _) hm
    have hp : s'.prediction = some c.alt := (congrArg Prod.fst hpred).trans hm
    refine ⟨c.alt, hamong c.key c.alt ((ordered_reach _ _).mem_lookup.1 hc), ?_⟩
    simp [hp]

/-- The same, told from what takes the token: it has one alternative, or leads to one key. What is found
then is not as in any set to start with, which is at no end of a rule. -/
theorem predict_sll {floors : Int → Prop} {a : Automaton} {input : TokenCursor} {V : Nat → Prop}
    {Old : ConfigKey → Prop} (hs : sim.network.Shaped levels) (hn : sim.network.Checked)
    (hfree : sim.network.PredicateFree) (hf : floors sim.floor)
    (ha : Recorded sim.network d floors a)
    (hold : ∀ floor k alt, Listed (sim.network.firstSet d floor).entries k alt →
      Old k ∧ (sim.network.state k.state).isRuleStop = false)
    (hV : ∀ c ∈ sim.taken (sim.startSet false d) input.kind, V c.alt)
    (hone : (∃ alt, ∀ c ∈ sim.taken (sim.startSet false d) input.kind, c.alt = alt) ∨
      ∃ key, ∀ c ∈ sim.taken (sim.startSet false d) input.kind,
        sim.expand false c = .inl [⟨key, c.alt⟩])
    (hnew : ∃ c, sim.Rests (sim.taken (sim.startSet false d) input.kind) c ∧ ¬ Old c.key ∧
      (input.kind = TokenType.eof → (sim.network.state c.key.state).isRuleStop = true)) :
    ∃ alt, V alt ∧ (sim.predict d .sll a input).1 = .alternative alt := by
  have hfirst : sim.startSet false d = sim.network.firstSet d sim.floor :=
    startSet_eq_firstSet (predicated_startSet_of_free hfree)
  have hnot : ∀ k alt, Listed (sim.startSet false d).entries k alt →
      (sim.network.state k.state).isRuleStop = false := fun k alt hk =>
    (hold _ k alt (hfirst ▸ hk)).2
  have among : ∀ {W : Nat → Prop},
      (∀ c ∈ sim.taken (sim.startSet false d) input.kind, W c.alt) →
        (sim.reach false (sim.startSet false d) input.kind).Among W := by
    intro W hW k alt hk
    obtain ⟨⟨hc, -⟩, -⟩ := (listed_reach hs hn hnot).1 hk
    exact hc.among hW
  obtain ⟨c, hc, hnew, heof⟩ := hnew
  refine predict_of_even hfree hf ha ?_ (among hV)
    ⟨c.key, c.alt, (listed_reach hs hn hnot).2 ⟨hc, heof⟩, ?_⟩
  · obtain ⟨alt, halt⟩ | ⟨key, hkey⟩ := hone
    · exact (among halt).even
    · exact even_reach hs hn hnot hkey
  · exact fun floor hk => hnew (hold floor _ _ hk).1

end Simulation

end AdaptiveParsing
