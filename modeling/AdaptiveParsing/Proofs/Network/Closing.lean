import AdaptiveParsing.Proofs.Network.Edges
/-!
Grammars whose start rule ends with the end of input. If that occurs nowhere else and no rule calls the
start rule, then only one edge of the network takes it, and no way comes to the stop of the start rule
but through that edge. Main statement: `Grammar.closes_compile`.
-/

namespace AdaptiveParsing

/-- The element takes the end of input. -/
def Element.takesEof : Element → Bool
  | .token t => t.isEof
  | .set types => types.contains TokenType.eof
  | _ => false

/-- The rule that the element calls. -/
def Element.callee? : Element → Option RuleId
  | .rule r => some r
  | _ => none

/-- Rule `s` is the items and then the end of input. That occurs nowhere else, and no rule calls `s`. -/
structure Grammar.ClosedBy (g : Grammar) (s : RuleId) (items : List Element) : Prop where
  body : ∃ rule, g.rules[s]? = some rule ∧
    rule.body = some (.plain (.seq (items ++ [.token TokenType.eof])))
  items : ∀ leaf ∈ Element.leavesAll items, leaf.takesEof = false
  others : ∀ r leaf, r ≠ s → g.HasLeaf r leaf → leaf.takesEof = false
  uncalled : ∀ r leaf, g.HasLeaf r leaf → leaf.callee? ≠ some s

/-- The edge takes the end of input. -/
def EdgeKind.takesEof : EdgeKind → Bool
  | .atom t => t.isEof
  | .range lo hi => decide (lo ≤ TokenType.eof ∧ TokenType.eof ≤ hi)
  | .set types => decide (TokenType.eof ∈ types)
  | _ => false

theorem EdgeKind.takesEof_of_matches {k : EdgeKind} {hi : TokenType}
    (h : k.Matches TokenType.eof TokenType.firstUser hi) : k.takesEof = true := by
  cases k with
  | atom t => simpa [takesEof, TokenType.isEof, Matches] using h
  | range lo hi => simpa [takesEof, Matches] using h
  | set types => simpa [takesEof, Matches] using h
  | notSet types | wildcard =>
    unfold Matches at h
    have h₁ : TokenType.firstUser ≤ TokenType.eof := by tauto
    cases h₁
  | _ => cases h

/-- The edge is no call of `s`, and takes the end of input only at the state that may. -/
structure EdgeKind.Ordinary (s : RuleId) (last : Option StateId) (a : StateId) (k : EdgeKind) :
    Prop where
  call : ∀ follow precedence, k ≠ .rule s follow precedence
  eof : some a ≠ last → k.takesEof = false

theorem Element.ordinary_edge {leaf : Element} {s r : RuleId} {last : Option StateId} {a follow : StateId}
    (hc : leaf.callee? ≠ some s) (he : leaf.takesEof = false) :
    (leaf.edge r follow).Ordinary s last a := by
  constructor
  · rintro follow' precedence hk
    cases leaf <;> cases hk
    exact hc rfl
  · intro _
    cases leaf with
    | token t => simpa [edge, EdgeKind.takesEof, takesEof] using he
    | set types =>
      simp only [takesEof, List.contains_eq_mem, decide_eq_false_iff_not] at he
      simp [edge, EdgeKind.takesEof, he]
    | _ => rfl

theorem Element.mem_leavesAll_append {items more : List Element} {leaf : Element}
    (h : leaf ∈ Element.leavesAll items) : leaf ∈ Element.leavesAll (items ++ more) := by
  induction items with
  | nil => cases h
  | cons e rest ih =>
    rw [Element.leavesAll] at h
    rw [List.cons_append, Element.leavesAll]
    rcases List.mem_append.1 h with h | h
    · exact List.mem_append_left _ h
    · exact List.mem_append_right _ (ih h)

section

open Draft DraftM

variable {d : Draft} {first : Fragment} {rest : List Fragment} {a : StateId} {t : Transition}

theorem chain_cons (first next : Fragment) (rest : List Fragment) (d : Draft) :
    (chain first (next :: rest)).run d =
      (chain ⟨first.entry, next.exit⟩ rest).run (d.addEpsilon first.exit next.entry) := rfl

/-- A chain leads from the entry of the first fragment to the exit of the last. -/
theorem chain_ends (first : Fragment) (rest : List Fragment) (d : Draft) :
    ((chain first rest).run d).1 =
      ⟨first.entry, ((first :: rest).getLast (List.cons_ne_nil _ _)).exit⟩ := by
  induction rest generalizing first d with
  | nil => rfl
  | cons next rest ih =>
    rw [chain_cons, ih]
    cases rest <;> rfl

theorem rewired_chain (first : Fragment) (rest : List Fragment) (d : Draft) :
    d.Rewired ((chain first rest).run d).2 := by
  suffices h : ∀ d₀ : Draft, d₀.Rewired d → d₀.Rewired ((chain first rest).run d).2 from
    h d (.refl d)
  induction rest generalizing first d with
  | nil => exact fun d₀ h => h
  | cons next rest ih =>
    intro d₀ h
    rw [chain_cons]
    exact ih _ _ d₀ (h.addEpsilon _ _)

/-- A chain adds edges from the exits of all fragments but the last to the entries of all but the
first. -/
theorem mem_chain (h : t ∈ (((chain first rest).run d).2.state a).transitions) :
    t ∈ (d.state a).transitions ∨
      ∃ f ∈ (first :: rest).dropLast, ∃ g ∈ rest, a = f.exit ∧ t = .epsilon g.entry := by
  induction rest generalizing first d with
  | nil => exact .inl h
  | cons next rest ih =>
    rw [chain_cons] at h
    rcases ih h with h | ⟨f, hf, g, hg, ha, ht⟩
    · rcases mem_addEpsilon h with h | ⟨ha, ht⟩
      · exact .inl h
      · exact .inr ⟨first, .head _, next, .head _, ha, ht⟩
    · refine .inr ?_
      cases rest with
      | nil => cases hf
      | cons more rest =>
        rcases List.mem_cons.1 hf with rfl | hf
        · exact ⟨next, .tail _ (.head _), g, .tail _ hg, ha, ht⟩
        · exact ⟨f, .tail _ (.tail _ hf), g, .tail _ hg, ha, ht⟩

/-- A state that is no exit of a fragment before the last keeps its edges. -/
theorem state_chain_other (h : ∀ f ∈ (first :: rest).dropLast, a ≠ f.exit) :
    ((chain first rest).run d).2.state a = d.state a := by
  induction rest generalizing first d with
  | nil => rfl
  | cons next rest ih =>
    rw [chain_cons, ih, state_addEpsilon_other (h first (.head _))]
    intro f hf
    cases rest with
    | nil => cases hf
    | cons more rest =>
      rcases List.mem_cons.1 hf with rfl | hf
      · exact h next (.tail _ (.head _))
      · exact h f (.tail _ (.tail _ hf))

theorem Element.lowerAll_concat (r : RuleId) (items : List Element) (e : Element) (d : Draft) :
    (Element.lowerAll r (items ++ [e])).run d =
      let before := (Element.lowerAll r items).run d
      let last := (e.lower r).run before.2
      (before.1 ++ [last.1], last.2) := by
  induction items generalizing d with
  | nil =>
    rw [List.nil_append, Element.lowerAll_cons, run_bind, run_bind, Element.lowerAll_nil]
    rfl
  | cons item items ih =>
    rw [List.cons_append, Element.lowerAll_cons, run_bind, run_bind, ih, Element.lowerAll_cons]
    rfl

end

/-- The edge at `q` that takes the end of input is followed by the stop of rule `s` alone, and no other
way leads there. -/
structure Draft.Closing (d : Draft) (s : RuleId) (q e : StateId) : Prop where
  take_rule : (d.state q).rule = s
  exit_rule : (d.state e).rule = s
  take : (d.state q).transitions = [⟨e, .atom TokenType.eof⟩]
  exit : (d.state e).transitions = [.epsilon (d.rule s).stop]
  into_exit : ∀ a, (d.state a).rule = s → ∀ t ∈ (d.state a).transitions, t.next = e → a = q
  into_stop : ∀ a, (d.state a).rule = s → ∀ t ∈ (d.state a).transitions,
    t.next = (d.rule s).stop → a = e

namespace Draft

variable {d d' : Draft} {s r : RuleId} {q e : StateId}

/-- Lowering another rule leaves the end of rule `s` as it is. -/
theorem Closing.untouched (h : d.Closing s q e) (hu : Untouched r d d') (hs : s ≠ r) :
    d'.Closing s q e := by
  have hlt : ∀ a t, t ∈ (d.state a).transitions → a < d.states.size := fun a t ht => lt_of_edge ht
  have hq := hu.old q (hlt q ⟨e, .atom TokenType.eof⟩ (by simp [h.take])) (by rw [h.take_rule]; exact hs)
  have he := hu.old e (hlt e (.epsilon (d.rule s).stop) (by simp [h.exit]))
    (by rw [h.exit_rule]; exact hs)
  have hstop := (hu.ends s).2
  refine ⟨?_, ?_, ?_, ?_, ?_, ?_⟩
  · rw [hq, h.take_rule]
  · rw [he, h.exit_rule]
  · rw [hq, h.take]
  · rw [he, h.exit, hstop]
  · intro a ha t ht
    have hst := hu.state_eq hs ha
    rw [hst] at ha ht
    exact h.into_exit a ha t ht
  · intro a ha t ht
    have hst := hu.state_eq hs ha
    rw [hst] at ha ht
    rw [hstop]
    exact h.into_stop a ha t ht

open DraftM

/-- A chain of fragments has been added to `d` inside rule `s`; the last of them is the edge from `q` that
takes the end of input. -/
structure Chained (d : Draft) (s : RuleId) (q : StateId) (result : Fragment × Draft) : Prop where
  rules : ∀ c, (result.2.rule c).toRule = (d.rule c).toRule
  exit : result.1.exit = q + 1
  exit_lt : q + 1 < result.2.states.size
  entry_ge : d.states.size ≤ result.1.entry
  entry_le : result.1.entry ≤ q
  old_lt : d.states.size ≤ q
  take : result.2.state q =
    { kind := .basic, rule := s, transitions := [⟨q + 1, .atom TokenType.eof⟩] }
  last : result.2.state (q + 1) = { kind := .basic, rule := s }
  /-- Any other edge of the rule stays before the last state. -/
  edges : ∀ a, (result.2.state a).rule = s → ∀ t ∈ (result.2.state a).transitions,
    a = q ∨ d.states.size ≤ t.next ∧ t.next ≤ q

/-- The state of a draft with a new edge between two new states. -/
theorem state_single (k : EdgeKind) (d : Draft) (a : StateId) :
    ((single s k).run d).2.state a =
      if a = d.states.size then
        { kind := .basic, rule := s, transitions := [⟨d.states.size + 1, k⟩] }
      else if a = d.states.size + 1 then { kind := .basic, rule := s } else d.state a := by
  have hsize := size_pair s .basic .basic d
  rw [single_run]
  dsimp only
  rw [state_addTransition (by lia), state_pair]
  by_cases ha : a = d.states.size
  · rw [if_pos ha, if_pos ha, if_pos ha]
    rfl
  · rw [if_neg ha, if_neg ha, if_neg ha]

theorem Fresh.chained (h : d.Fresh s) {d₁ : Draft} {parts : List Fragment} (hp : Parts s d d₁ parts) :
    let last := (single s (.atom TokenType.eof)).run d₁
    d.Chained s d₁.states.size ((sequence s (parts ++ [last.1])).run last.2) := by
  intro last
  have hstate : ∀ a, last.2.state a = _ := state_single (.atom TokenType.eof) d₁
  have hsize : last.2.states.size = d₁.states.size + 2 := by
    show ((single s (.atom TokenType.eof)).run d₁).2.states.size = _
    rw [single_run, size_addTransition, size_pair]
  have hrules : ∀ c, (last.2.rule c).toRule = (d.rule c).toRule := by
    intro c
    show ((((single s (.atom TokenType.eof)).run d₁).2).rule c).toRule = _
    rw [single_run, rule_addTransition]
    exact hp.grows.rules c
  have hlast : last.1 = ⟨d₁.states.size, d₁.states.size + 1⟩ := by
    show ((single s (.atom TokenType.eof)).run d₁).1 = _
    rw [single_run]
  generalize last = result at *
  obtain ⟨f, d₂⟩ := result
  dsimp only at *
  subst hlast
  have hge := hp.grows.size
  generalize hq : d₁.states.size = q at *
  -- the fragments as a first one and the rest
  obtain ⟨first, rest, hlist⟩ : ∃ first rest, parts ++ [(⟨q, q + 1⟩ : Fragment)] = first :: rest := by
    cases parts with
    | nil => exact ⟨_, _, rfl⟩
    | cons f parts => exact ⟨_, _, rfl⟩
  have hentries : ∀ f ∈ first :: rest, d.states.size ≤ f.entry ∧ f.entry ≤ q := by
    intro f hf
    rw [← hlist] at hf
    rcases List.mem_append.1 hf with hf | hf
    · have hlt := (hp.holds f hf).entry_lt
      exact ⟨(hp.holds f hf).entry_ge, by lia⟩
    · rw [List.mem_singleton.1 hf]
      exact ⟨hge, Nat.le_refl q⟩
  have hexits : ∀ f ∈ (first :: rest).dropLast, f.exit < q := by
    intro f hf
    rw [← hlist, List.dropLast_concat] at hf
    have := (hp.holds f hf).exit_lt
    lia
  have hends := chain_ends first rest d₂
  simp only [← hlist, List.getLast_concat] at hends
  have hrewired := rewired_chain first rest d₂
  have hother : ∀ a, q ≤ a → ((chain first rest).run d₂).2.state a = d₂.state a := fun a ha =>
    state_chain_other fun f hf => by
      have := hexits f hf
      lia
  have hmem := @mem_chain d₂ first rest
  rw [hlist, show sequence s (first :: rest) = chain first rest from rfl]
  generalize (chain first rest).run d₂ = result at *
  obtain ⟨f, d₃⟩ := result
  dsimp only at *
  subst hends
  refine ⟨?_, rfl, ?_, ?_, ?_, hge, ?_, ?_, ?_⟩
  · exact fun c => (hrewired.rules c).trans (hrules c)
  · rw [hrewired.size, hsize]
    exact Nat.lt_succ_self _
  · exact (hentries first (.head _)).1
  · exact (hentries first (.head _)).2
  · rw [hother q (Nat.le_refl q), hstate, if_pos rfl]
  · rw [hother (q + 1) (Nat.le_succ q), hstate, if_neg (Nat.succ_ne_self q), if_pos rfl]
  · intro a ha t ht
    rcases hmem ht with ht | ⟨-, -, g, hg, -, rfl⟩
    · rw [hrewired.rule] at ha
      rw [hstate] at ha ht
      split at ht
      · exact .inl ‹_›
      · split at ht
        · cases ht
        · right
          rw [if_neg ‹_›, if_neg ‹_›] at ha
          by_cases hold : a < d.states.size
          · rw [hp.grows.old a hold] at ha ht
            rcases h.only a hold ha with rfl | rfl
            · rw [h.start_state] at ht
              cases ht
            · rw [h.stop_state] at ht
              cases ht
          · have hin := (hp.grows.new a (by lia) (lt_of_edge ht)).bounds t ht
            exact ⟨hin.1, by lia⟩
    · exact .inr (hentries g (.tail _ hg))

/-- A chain that ends with the end of input closes its rule. -/
theorem Chained.closing {result : Fragment × Draft} (h : d.Fresh s) (hc : d.Chained s q result) :
    ((result.2.addEpsilon (d.rule s).start result.1.entry).addEpsilon result.1.exit
      (d.rule s).stop).Closing s q (q + 1) := by
  obtain ⟨f, d₃⟩ := result
  have hrules := hc.rules
  have hexit := hc.exit
  have hlt := hc.exit_lt
  have hentry := hc.entry_ge
  have hentry' := hc.entry_le
  have hge := hc.old_lt
  have htake := hc.take
  have hlast := hc.last
  have hedges := hc.edges
  have hstart_lt := h.start_lt
  have hstop_lt := h.stop_lt
  dsimp only at *
  rw [hexit]
  generalize hd : d₃.addEpsilon (d.rule s).start f.entry = d₄
  have hstop : (((d₄.addEpsilon (q + 1) (d.rule s).stop).rule s)).stop = (d.rule s).stop := by
    have h₁ := rule_addEpsilon (d := d₄) (a := q + 1) (b := (d.rule s).stop) s
    have h₂ := rule_addEpsilon (d := d₃) (a := (d.rule s).start) (b := f.entry) s
    rw [hd] at h₂
    exact congrArg Rule.stop ((h₁.trans h₂).trans (hrules s))
  have hother : ∀ a, a ≠ (d.rule s).start → d₄.state a = d₃.state a := by
    rw [← hd]
    exact fun a => state_addEpsilon_other
  have hsize : d₄.states.size = d₃.states.size := by
    rw [← hd, size_addEpsilon]
  have hall : ∀ a, ((d₄.addEpsilon (q + 1) (d.rule s).stop).state a).rule = s →
      ∀ t ∈ ((d₄.addEpsilon (q + 1) (d.rule s).stop).state a).transitions,
      a = q ∧ t.next = q + 1 ∨ (d.states.size ≤ t.next ∧ t.next ≤ q) ∨
        a = q + 1 ∧ t.next = (d.rule s).stop := by
    intro a ha t ht
    rw [rule_state_addEpsilon, ← hd, rule_state_addEpsilon] at ha
    rcases mem_addEpsilon ht with ht₁ | ⟨rfl, rfl⟩
    · rw [← hd] at ht₁
      rcases mem_addEpsilon ht₁ with ht₂ | ⟨-, rfl⟩
      · rcases hedges a ha t ht₂ with rfl | hin
        · rw [htake] at ht₂
          rw [List.mem_singleton.1 ht₂]
          exact .inl ⟨rfl, rfl⟩
        · exact .inr (.inl hin)
      · exact .inr (.inl ⟨hentry, hentry'⟩)
    · exact .inr (.inr ⟨rfl, rfl⟩)
  refine ⟨?_, ?_, ?_, ?_, ?_, ?_⟩
  · rw [rule_state_addEpsilon, hother q (by lia), htake]
  · rw [rule_state_addEpsilon, hother (q + 1) (by lia), hlast]
  · rw [state_addEpsilon_other (by lia), hother q (by lia), htake]
  · rw [hstop, addEpsilon, state_addTransition (by lia), if_pos rfl, hother (q + 1) (by lia), hlast]
    rfl
  · intro a ha t ht hn
    rcases hall a ha t ht with ⟨rfl, -⟩ | ⟨-, hle⟩ | ⟨-, hs⟩
    · rfl
    · lia
    · lia
  · intro a ha t ht hn
    rw [hstop] at hn
    rcases hall a ha t ht with ⟨-, hnext⟩ | ⟨hge, -⟩ | ⟨rfl, -⟩
    · lia
    · lia
    · rfl

/-- The state at which the last of a body's items is taken. -/
def lastState (d : Draft) (s : RuleId) (items : List Element) : StateId :=
  ((Element.lowerAll s items).run d).2.states.size

/-- A body that ends with the end of input closes its rule. -/
theorem Fresh.closing_lower {name : String} {items : List Element} (h : d.Fresh s)
    (hrun : runOn ((RuleBody.plain (.seq (items ++ [.token TokenType.eof]))).lower name s) d =
      (.ok (), d')) : d'.Closing s (d.lastState s items) (d.lastState s items + 1) := by
  have hparts := Element.parts_lowerAll s items d
  have hsingle : (Element.token TokenType.eof).lower s = single s (.atom TokenType.eof) := by
    rw [Element.lower]
  rw [RuleBody.lower_plain, Element.lower_seq, run_bind, Element.lowerAll_concat, hsingle] at hrun
  unfold lastState
  dsimp only at hrun ⊢
  generalize (Element.lowerAll s items).run d = before at *
  have hc := h.chained hparts
  dsimp only at hc
  generalize (sequence s _).run _ = result at hc hrun
  have hstart : (result.2.rule s).start = (d.rule s).start := congrArg Rule.start (hc.rules s)
  have hstop : (result.2.rule s).stop = (d.rule s).stop := congrArg Rule.stop (hc.rules s)
  rw [hstart, hstop] at hrun
  obtain rfl := (Prod.mk.inj hrun).2
  exact hc.closing h

theorem Only.mono {Q Q' : StateId → EdgeKind → Prop} (h : d.Only Q) (hq : ∀ a k, Q a k → Q' a k) :
    d.Only Q' := fun a t ht => hq a _ (h a t ht)

theorem ordinary_epsilon {last : Option StateId} (a : StateId) : EdgeKind.epsilon.Ordinary s last a :=
  ⟨fun _ _ => nofun, fun _ => rfl⟩

/-- In a body that ends with the end of input only the last edge takes it. -/
theorem Only.closing_lower {name : String} {items : List Element}
    (h : d.Only fun a k => k.Ordinary s none a)
    (hitems : ∀ leaf ∈ Element.leavesAll items, leaf.takesEof = false)
    (hcalls : ∀ leaf ∈ Element.leavesAll items, leaf.callee? ≠ some s)
    (hrun : runOn ((RuleBody.plain (.seq (items ++ [.token TokenType.eof]))).lower name s) d =
      (.ok (), d')) : d'.Only fun a k => k.Ordinary s (some (d.lastState s items)) a := by
  have hsingle : (Element.token TokenType.eof).lower s = single s (.atom TokenType.eof) := by
    rw [Element.lower]
  rw [RuleBody.lower_plain, Element.lower_seq, run_bind, Element.lowerAll_concat, hsingle] at hrun
  have hbefore := (Element.keeps_lowerAll s (fun a => ordinary_epsilon a) items
    fun leaf hl _ _ => Element.ordinary_edge (hcalls leaf hl) (hitems leaf hl)).only h
  unfold lastState
  dsimp only at hrun ⊢
  generalize (Element.lowerAll s items).run d = before at hrun hbefore ⊢
  have hlast : ((single s (.atom TokenType.eof)).run before.2).2.Only fun a k =>
      k.Ordinary s (some before.2.states.size) a := by
    rw [single_run]
    have hmono : before.2.Only fun a k => k.Ordinary s (some before.2.states.size) a :=
      hbefore.mono fun a k hk => ⟨hk.call, fun _ => hk.eof (by simp)⟩
    exact ((hmono.addState .basic s).addState .basic s).addTransition
      ⟨fun _ _ => nofun, fun hne => absurd rfl hne⟩
  have hchain := (keeps_sequence (r := s) (fun a => ordinary_epsilon a)
    (before.1 ++ [((single s (.atom TokenType.eof)).run before.2).1])).only hlast
  generalize (sequence s _).run _ = result at hrun hchain
  obtain rfl := (Prod.mk.inj hrun).2
  exact (hchain.addTransition (ordinary_epsilon _)).addTransition (ordinary_epsilon _)

end Draft

/-- The edge at `q` takes the end of input, as no other does, and the stop of rule `s` comes next. No
other way leads to the stop, and nothing calls the rule. -/
structure Network.Closes (n : Network) (s : RuleId) (q e : StateId) : Prop where
  lt : s < n.rules.size
  take : (n.state q).transitions = [⟨e, .atom TokenType.eof⟩]
  exit : (n.state e).transitions = [.epsilon (n.rule s).stop]
  exit_rule : (n.state e).rule = s
  into_exit : ∀ a, ∀ t ∈ (n.state a).transitions, t.next = e → a = q
  into_stop : ∀ a, ∀ t ∈ (n.state a).transitions, t.next = (n.rule s).stop → a = e
  only : ∀ a, ∀ t ∈ (n.state a).transitions, n.Matches t.kind TokenType.eof → a = q
  uncalled : ∀ a, ∀ t ∈ (n.state a).transitions, ∀ follow precedence,
    t.kind ≠ .rule s follow precedence

open Draft in
/-- A start rule that ends with the end of input closes the network. -/
theorem Grammar.closes_compile {g : Grammar} {c : CompiledGrammar} {s : RuleId}
    {items : List Element} (h : g.compile = .ok c) (hg : g.ClosedBy s items) :
    ∃ q e, c.network.Closes s q e := by
  obtain ⟨hshaped, hcount⟩ := shaped_compile h
  obtain ⟨start, hstart, hbody⟩ := hg.body
  have hs : s < g.rules.size := (Array.getElem?_eq_some_iff.1 hstart).1
  obtain ⟨d, hd, hstate, hrule⟩ := compile_eq_ok h
  -- until rule `s` is lowered nothing takes the end of input, and then only its last edge
  have hall : if g.rules.size ≤ s then d.Only (fun a k => k.Ordinary s none a)
      else ∃ q e, d.Closing s q e ∧ d.Only fun a k => k.Ordinary s (some q) a := by
    refine draft_induct hd (I := fun k d => if k ≤ s then d.Only (fun a k => k.Ordinary s none a)
      else ∃ q e, d.Closing s q e ∧ d.Only fun a k => k.Ordinary s (some q) a) ?_ ?_
    · intro d hd _
      rw [if_pos (Nat.zero_le s)]
      intro a t ht
      rw [hd.edgeless] at ht
      cases ht
    · intro k rule d d' hk hfresh halone hrun hI
      have hothers : ∀ last, k ≠ s → d.Only (fun a k => k.Ordinary s last a) →
          d'.Only fun a k => k.Ordinary s last a := by
        intro last hne hI
        cases hb : rule.body with
        | none =>
          rw [GrammarRule.lower_none hb] at hrun
          obtain rfl := (Prod.mk.inj hrun).2
          exact hI
        | some body =>
          rw [GrammarRule.lower_some hb] at hrun
          refine RuleBody.only_lower k ordinary_epsilon ?_ ?_ ?_ hI hrun
          · exact fun _ _ => ⟨fun _ _ => nofun, fun _ => rfl⟩
          · exact fun _ _ a follow precedence => ⟨fun _ _ hk => hne (by cases hk; rfl), fun _ => rfl⟩
          · intro leaf hl a follow
            have hleaf : g.HasLeaf k leaf := ⟨rule, body, hk, hb, hl⟩
            exact Element.ordinary_edge (hg.uncalled k leaf hleaf) (hg.others k leaf hne hleaf)
      rcases Nat.lt_trichotomy k s with hlt | rfl | hgt
      · rw [if_pos (Nat.le_of_lt hlt)] at hI
        rw [if_pos (Nat.succ_le_of_lt hlt)]
        exact hothers none (Nat.ne_of_lt hlt) hI
      · rw [if_pos (Nat.le_refl k)] at hI
        rw [if_neg (Nat.not_succ_le_self k)]
        rw [hstart] at hk
        obtain rfl := Option.some.inj hk
        rw [GrammarRule.lower_some hbody] at hrun
        refine ⟨_, _, hfresh.closing_lower hrun, hI.closing_lower hg.items ?_ hrun⟩
        intro leaf hl
        refine hg.uncalled k leaf ⟨start, _, hstart, hbody, ?_⟩
        rw [RuleBody.leaves, Element.leaves]
        exact Element.mem_leavesAll_append hl
      · rw [if_neg (Nat.not_le_of_lt hgt)] at hI
        rw [if_neg (by lia)]
        obtain ⟨q, e, hclosing, honly⟩ := hI
        obtain ⟨-, hu, -⟩ := GrammarRule.shape_lower hfresh halone hrun
        refine ⟨q, e, ?_, hothers (some q) (Nat.ne_of_gt hgt) honly⟩
        rcases hu with rfl | hu
        · exact hclosing
        · exact hclosing.untouched hu (Nat.ne_of_lt hgt)
  rw [if_neg (Nat.not_le_of_lt hs)] at hall
  obtain ⟨q, e, hc, honly⟩ := hall
  have hshape := hshaped.rule s (hcount ▸ hs)
  have hstop : (c.network.rule s).stop = (d.rule s).stop := by rw [hrule]
  -- an edge that leads into the rule comes from it
  have hinto : ∀ a, ∀ t ∈ (c.network.state a).transitions, (c.network.state t.next).rule = s →
      (c.network.state a).rule = s := by
    intro a t ht hn
    have hlt := rule_lt_compile h (Network.lt_of_edge ht)
    rw [← hn]
    exact (((hshaped.rule _ hlt).next a rfl t ht).2).symm
  refine ⟨q, e, ⟨hcount ▸ hs, ?_, ?_, ?_, ?_, ?_, ?_, ?_⟩⟩
  · rw [(hstate q).1, hc.take]
  · rw [(hstate e).1, hc.exit, hstop]
  · rw [(hstate e).2, hc.exit_rule]
  · intro a t ht hn
    have ha := hinto a t ht (by rw [hn, (hstate e).2, hc.exit_rule])
    rw [(hstate a).2] at ha
    rw [(hstate a).1] at ht
    exact hc.into_exit a ha t ht hn
  · intro a t ht hn
    have ha := hinto a t ht (by rw [hn]; exact hshape.stop_rule)
    rw [(hstate a).2] at ha
    rw [(hstate a).1] at ht
    exact hc.into_stop a ha t ht (by rw [hn, hstop])
  · intro a t ht hm
    rw [(hstate a).1] at ht
    by_contra hne
    have := (honly a t ht).eof (by simpa using hne)
    rw [EdgeKind.takesEof_of_matches hm] at this
    cases this
  · intro a t ht follow precedence
    rw [(hstate a).1] at ht
    exact (honly a t ht).call follow precedence

end AdaptiveParsing
