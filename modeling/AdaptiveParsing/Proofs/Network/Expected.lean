import AdaptiveParsing.Proofs.Network.Edges
import AdaptiveParsing.Proofs.Network.Following
/-!
What can come next, rule by rule. A way that takes no token either stays inside the rule it starts in or
comes to its end and goes on in the callers (`Network.Drifts.split`), so what can come next inside live
invocations is put together from what can come next within each rule. Main statements: the tables of a
compiled grammar are exact (`Grammar.mem_nextTokensAt_iff`), and chaining them through the callers gives
what the walk through the callers gives (`Grammar.expectedTokens_eq`).
-/

namespace AdaptiveParsing

namespace Network

/-- No edge takes the empty word for a token. -/
def EpsilonFree (n : Network) : Prop :=
  ∀ s ∈ n.states, ∀ t ∈ s.transitions, ∀ types ∈ n.label? t.kind, TokenType.epsilon ∉ types

variable {n : Network} {levels : RuleId → Int → Prop} {a b s x : StateId}
  {outer rest returns more : List StateId} {token : TokenType}

theorem Meets.ne_epsilon (h : n.Meets a outer token) (he : n.EpsilonFree) :
    token ≠ TokenType.epsilon := by
  rintro rfl
  obtain ⟨s, returns, -, t, ht, types, hl, hx⟩ := h
  refine he (n.state s) ?_ t ht types hl hx
  have hs := lt_of_edge ht
  simp [state, Array.getD_eq_getD_getElem?, hs]

theorem Drifts.trans (h : n.Drifts a outer s returns) (h' : n.Drifts s returns x more) :
    n.Drifts a outer x more := by
  induction h' with
  | refl => exact h
  | free _ ht hc hk ih => exact ih.free ht hc hk
  | call _ ht hk ih => exact ih.call ht hk
  | back _ hs ih => exact ih.back hs

/-- What the way leaves outside is free. -/
theorem Drifts.under (h : n.Drifts a outer s returns) (rest : List StateId) :
    n.Drifts a (outer ++ rest) s (returns ++ rest) := by
  induction h with
  | refl => exact .refl
  | free _ ht hc hk ih => exact ih.free ht hc hk
  | call _ ht hk ih => exact ih.call ht hk
  | back _ hs ih => exact ih.back hs

theorem Exits.drifts (h : n.Exits a []) : n.Drifts a (b :: rest) b rest := by
  obtain ⟨s, h, hs⟩ := h
  exact (h.under (b :: rest)).back hs

/-- A way stays above the first of the callers, or comes to the end of its rule and goes on there. -/
theorem Drifts.split (h : n.Drifts a (b :: rest) s returns) :
    (∃ opened, returns = opened ++ b :: rest ∧ n.Drifts a [] s opened) ∨
      n.Exits a [] ∧ n.Drifts b rest s returns := by
  induction h with
  | refl => exact .inl ⟨[], rfl, .refl⟩
  | free _ ht hc hk ih =>
    rcases ih with ⟨opened, rfl, h⟩ | ⟨hexits, h⟩
    · exact .inl ⟨opened, rfl, h.free ht hc hk⟩
    · exact .inr ⟨hexits, h.free ht hc hk⟩
  | call _ ht hk ih =>
    rcases ih with ⟨opened, rfl, h⟩ | ⟨hexits, h⟩
    · exact .inl ⟨_ :: opened, rfl, h.call ht hk⟩
    · exact .inr ⟨hexits, h.call ht hk⟩
  | back _ hs ih =>
    rcases ih with ⟨opened, he, h⟩ | ⟨hexits, h⟩
    · cases opened with
      | nil =>
        obtain ⟨rfl, rfl⟩ := List.cons.inj he
        exact .inr ⟨⟨_, h, hs⟩, .refl⟩
      | cons back opened =>
        obtain ⟨rfl, rfl⟩ := List.cons.inj he
        exact .inl ⟨opened, rfl, h.back hs⟩
    · exact .inr ⟨hexits, h.back hs⟩

theorem meets_cons_iff :
    n.Meets a (b :: rest) token ↔ n.Meets a [] token ∨ n.Exits a [] ∧ n.Meets b rest token := by
  constructor
  · rintro ⟨s, returns, h, hedge⟩
    rcases h.split with ⟨opened, -, h⟩ | ⟨hexits, h⟩
    · exact .inl ⟨s, opened, h, hedge⟩
    · exact .inr ⟨hexits, s, returns, h, hedge⟩
  · rintro (⟨s, returns, h, hedge⟩ | ⟨hexits, s, returns, h, hedge⟩)
    · exact ⟨s, _, h.under (b :: rest), hedge⟩
    · exact ⟨s, returns, hexits.drifts.trans h, hedge⟩

theorem exits_cons_iff : n.Exits a (b :: rest) ↔ n.Exits a [] ∧ n.Exits b rest := by
  constructor
  · rintro ⟨s, h, hs⟩
    rcases h.split with ⟨opened, he, -⟩ | ⟨hexits, h⟩
    · simp at he
    · exact ⟨hexits, s, h, hs⟩
  · rintro ⟨hexits, s, h, hs⟩
    exact ⟨s, hexits.drifts.trans h, hs⟩

/-- What comes after the end of a rule inside these callers. -/
def Beyond (n : Network) (token : TokenType) : List StateId → Prop
  | [] => token = TokenType.eof
  | back :: rest => n.Next back (some rest) token

theorem next_some : n.Next a (some rest) token ↔
    n.Meets a rest token ∨ token = TokenType.eof ∧ n.Exits a rest := Iff.rfl

theorem beyond_cons : n.Beyond token (b :: rest) ↔ n.Next b (some rest) token := Iff.rfl

/-- What can come next inside callers comes within the rule, or after its end. -/
theorem next_some_iff :
    n.Next a (some rest) token ↔ n.Meets a [] token ∨ n.Exits a [] ∧ n.Beyond token rest := by
  cases rest with
  | nil => exact or_congr_right and_comm
  | cons back rest =>
    rw [beyond_cons, next_some, next_some, meets_cons_iff, exits_cons_iff]
    tauto

theorem next_none_iff (he : n.EpsilonFree) :
    n.Next a none token ↔ token ≠ TokenType.epsilon ∧ n.Meets a [] token ∨
      token = TokenType.epsilon ∧ n.Exits a [] :=
  or_congr_left ⟨fun hm => ⟨hm.ne_epsilon he, hm⟩, fun hm => hm.2⟩

/-- The outermost state of a way: where it will be once all calls have returned. -/
def outermost (s : StateId) (returns : List StateId) : StateId := returns.getLast?.getD s

theorem outermost_cons : outermost s (b :: returns) = outermost b returns := by
  unfold outermost
  rw [List.getLast?_cons, Option.getD_some]

theorem outermost_of_ne (h : returns ≠ []) : outermost s returns = outermost x returns := by
  obtain ⟨b, returns, rfl⟩ := List.exists_cons_of_ne_nil h
  rw [outermost_cons, outermost_cons]

/-- A way that takes no token and goes on in no caller stays in its rule, apart from calls. -/
theorem Drifts.rule_outermost (hs : n.Shaped levels) (ha : (n.state a).rule < n.rules.size)
    (h : n.Drifts a [] s returns) : (n.state (outermost s returns)).rule = (n.state a).rule := by
  -- an edge stays in the rule if no call is open, and leaves the outermost state alone otherwise
  have hnext : ∀ {s x returns} {t : Transition}, (n.state (outermost s returns)).rule = (n.state a).rule →
      t ∈ (n.state s).transitions → t.next = x →
      (n.state (outermost x returns)).rule = (n.state a).rule := by
    intro s x returns t hrule ht hx
    by_cases he : returns = []
    · subst he
      rw [← hx]
      exact ((hs.rule _ ha).next s hrule t ht).2
    · rwa [outermost_of_ne he] at hrule
  induction h with
  | refl => rfl
  | free _ ht hc _ ih => exact hnext ih ht (Transition.next_eq_target hc)
  | @call s follow returns t r precedence _ ht hk ih =>
    rw [outermost_cons]
    exact hnext ih ht (by simp [Transition.next, hk])
  | back _ _ ih => rwa [outermost_cons] at ih

/-- The end that a way comes to is the stop of its rule. -/
theorem exits_iff (hs : n.Shaped levels) (ha : (n.state a).rule < n.rules.size) :
    n.Exits a [] ↔ n.Drifts a [] (n.rule (n.state a).rule).stop [] := by
  have hshape := hs.rule _ ha
  constructor
  · rintro ⟨s, h, hstop⟩
    have hkind : (n.state s).kind = .ruleStop := by simpa [NetworkState.isRuleStop] using hstop
    rwa [← hshape.stop_only s (h.rule_outermost hs ha) hkind]
  · intro h
    exact ⟨_, h, by simp [NetworkState.isRuleStop, hshape.stop_kind]⟩

/-- The table of each state holds what can come next within its rule. -/
def Tabled (n : Network) : Prop :=
  ∀ s token, s < n.states.size → (token ∈ n.nextTokensAt s ↔ n.Next s none token)

theorem Tabled.epsilon_mem_iff (h : n.Tabled) (he : n.EpsilonFree) (ha : a < n.states.size) :
    TokenType.epsilon ∈ n.nextTokensAt a ↔ n.Exits a [] := by
  rw [h a _ ha, next_none_iff he]
  simp

/-- Going outwards through the callers adds what comes after the end of the last rule. -/
theorem mem_expectedOutwards_iff (h : n.Tabled) (he : n.EpsilonFree) (callers : List StateId)
    (hcallers : ∀ b ∈ callers, b < n.states.size) (expected : TokenSet)
    (hexpected : TokenType.epsilon ∉ expected) (ha : a < n.states.size) :
    token ∈ n.expectedOutwards expected (n.nextTokensAt a) callers ↔
      token ∈ expected ∨ n.Exits a [] ∧ n.Beyond token callers := by
  induction callers generalizing a expected with
  | nil =>
    unfold expectedOutwards
    by_cases hexits : n.Exits a []
    · rw [if_pos ((h.epsilon_mem_iff he ha).2 hexits), TokenSet.mem_insert, or_comm]
      refine or_congr_right ⟨fun ht => ⟨hexits, ht.2⟩, fun ht => ⟨?_, ht.2⟩⟩
      rw [show token = TokenType.eof from ht.2]
      decide
    · rw [if_neg (mt (h.epsilon_mem_iff he ha).1 hexits)]
      tauto
  | cons back callers ih =>
    unfold expectedOutwards
    have hback := hcallers back (.head _)
    by_cases hexits : n.Exits a []
    · rw [if_pos ((h.epsilon_mem_iff he ha).2 hexits)]
      rw [ih (fun b hb => hcallers b (.tail _ hb)) _ (by simp) hback, TokenSet.mem_erase,
        TokenSet.mem_union, h back _ hback, next_none_iff he, beyond_cons, next_some_iff]
      have hne : token ∈ expected → token ≠ TokenType.epsilon := by
        rintro ht rfl
        exact hexpected ht
      have hmeets : n.Meets back [] token → token ≠ TokenType.epsilon := (·.ne_epsilon he)
      tauto
    · rw [if_neg (mt (h.epsilon_mem_iff he ha).1 hexits)]
      tauto

/-- What is put together from the tables can come next inside the callers, and nothing else can. -/
theorem mem_expectedTokens_iff (h : n.Tabled) (he : n.EpsilonFree) {callers : List StateId}
    (hcallers : ∀ b ∈ callers, b < n.states.size) (ha : a < n.states.size) :
    token ∈ n.expectedTokens a callers ↔ n.Next a (some callers) token := by
  rw [next_some_iff]
  unfold expectedTokens
  dsimp only
  have hmeets : n.Meets a [] token → token ≠ TokenType.epsilon := (·.ne_epsilon he)
  by_cases hexits : n.Exits a []
  · rw [if_pos ((h.epsilon_mem_iff he ha).2 hexits),
      mem_expectedOutwards_iff h he callers hcallers _ (by simp) ha, TokenSet.mem_erase, h a _ ha,
      next_none_iff he]
    tauto
  · rw [if_neg (mt (h.epsilon_mem_iff he ha).1 hexits), h a _ ha, next_none_iff he]
    tauto

/-- No way that takes no token leads away from where an edge takes one. -/
theorem Drifts.stays {t : Transition} (hn : n.Checked) (ht : t ∈ (n.state a).transitions) (hc : t.isConsuming = true)
    (h : n.Drifts a outer s returns) : s = a ∧ returns = outer := by
  have halone := hn.single a t ht hc
  induction h with
  | refl => exact ⟨rfl, rfl⟩
  | free _ ht' _ hk ih =>
    obtain ⟨rfl, -⟩ := ih
    rw [halone, List.mem_singleton] at ht'
    rw [ht', hc] at hk
    cases hk
  | call _ ht' hk ih =>
    obtain ⟨rfl, -⟩ := ih
    rw [halone, List.mem_singleton] at ht'
    rw [ht'] at hk
    rw [Transition.isConsuming, hk] at hc
    cases hc
  | back _ hs ih =>
    obtain ⟨rfl, -⟩ := ih
    rw [hn.not_stop ht] at hs
    cases hs

theorem next_iff_of_label {t : Transition} {types : TokenSet} (hn : n.Checked) (ht : t ∈ (n.state a).transitions)
    (hl : n.label? t.kind = some types) : n.Next a none token ↔ token ∈ types := by
  have hc := isConsuming_of_label hl
  constructor
  · rintro (⟨s, returns, h, t', ht', types', hl', hx⟩ | ⟨-, s, h, hs⟩)
    · obtain ⟨rfl, -⟩ := h.stays hn ht hc
      rw [hn.single _ t ht hc, List.mem_singleton] at ht'
      rw [ht', hl] at hl'
      cases hl'
      exact hx
    · obtain ⟨rfl, -⟩ := h.stays hn ht hc
      rw [hn.not_stop ht] at hs
      cases hs
  · intro hx
    exact .inl ⟨a, _, .refl, t, ht, types, hl, hx⟩

/-- Where an edge takes a token, its label is what is expected, inside whatever callers, unless it has the
empty word in it. -/
theorem expectedTokens_of_label {t : Transition} {types : TokenSet} (htab : n.Tabled) (hn : n.Checked)
    (ht : t ∈ (n.state a).transitions) (hl : n.label? t.kind = some types)
    (heps : TokenType.epsilon ∉ types) (callers : List StateId) :
    n.expectedTokens a callers = types := by
  have hhere : n.nextTokensAt a = types := by
    apply TokenSet.eq_of_mem_iff
    intro token
    rw [htab a token (lt_of_edge ht), next_iff_of_label hn ht hl]
  unfold expectedTokens
  dsimp only
  rw [hhere, if_neg heps]

end Network

open Network

variable {g : Grammar} {c : CompiledGrammar} {s : StateId}

theorem Grammar.tabled_compile (h : g.compile = .ok c) : c.network.Tabled := by
  intro s token hs
  obtain ⟨hshaped, -⟩ := shaped_compile h
  rw [nextTokensAt_compile h hs, mem_following_iff hshaped (checked_compile h) (by simp)]

/-- The table of a state holds a token just if some way that takes no token and does not leave its rule
meets an edge with that token in its label, and the empty word just if such a way comes to the stop of
its rule, back from all its calls. -/
theorem Grammar.mem_nextTokensAt_iff (h : g.compile = .ok c) (he : c.network.EpsilonFree)
    (hs : s < c.network.states.size) :
    (∀ token, token ≠ TokenType.epsilon →
        (token ∈ c.network.nextTokensAt s ↔ c.network.Meets s [] token)) ∧
      (TokenType.epsilon ∈ c.network.nextTokensAt s ↔
        c.network.Drifts s [] (c.network.rule (c.network.state s).rule).stop []) := by
  have htable := tabled_compile h
  refine ⟨?_, ?_⟩
  · intro token htoken
    rw [htable s token hs, next_none_iff he]
    simp [htoken]
  · rw [htable.epsilon_mem_iff he hs, exits_iff (shaped_compile h).1 (rule_lt_compile h hs)]

/-- Chaining the tables through the callers gives what a walk through the callers gives. -/
theorem Grammar.expectedTokens_eq (h : g.compile = .ok c) (he : c.network.EpsilonFree)
    (hs : s < c.network.states.size) (callers : List StateId)
    (hcallers : ∀ b ∈ callers, ∃ a, ∃ t ∈ (c.network.state a).transitions, ∃ r precedence,
      t.kind = .rule r b precedence) :
    c.network.expectedTokens s callers = c.network.followingInContext s callers := by
  have hlt : ∀ b ∈ callers, b < c.network.states.size := by
    intro b hb
    obtain ⟨a, t, ht, r, precedence, hk⟩ := hcallers b hb
    exact (checked_compile h).follow_lt a t ht r b precedence hk
  refine TokenSet.eq_of_mem_iff fun token => ?_
  unfold followingInContext
  rw [mem_expectedTokens_iff (tabled_compile h) he hlt hs]
  exact (@mem_following_iff c.network g.HasLevel (some callers) s (shaped_compile h).1
    (checked_compile h) hlt token).symm

/-- `s` is A, and then `s` or nothing. -/
def row : Grammar :=
  let (a, g) := ({} : Grammar).addToken "A"
  let (s, g) := g.addRule "s"
  g.define s (.plain (.seq [.token a, .opt (.rule s)]))

def rowNetwork : Network where
  states := #[⟨.ruleStart, 0, [⟨2, .epsilon⟩], none, false⟩, ⟨.ruleStop, 0, [], none, false⟩,
    ⟨.basic, 0, [⟨3, .atom 1⟩], none, false⟩, ⟨.basic, 0, [⟨6, .epsilon⟩], none, false⟩,
    ⟨.basic, 0, [⟨0, .rule 0 5 0⟩], none, false⟩, ⟨.basic, 0, [⟨7, .epsilon⟩], none, false⟩,
    ⟨.blockStart, 0, [⟨4, .epsilon⟩, ⟨7, .epsilon⟩], some 0, false⟩,
    ⟨.blockEnd, 0, [⟨1, .epsilon⟩], none, false⟩]
  rules := #[⟨"s", 0, 1, false⟩]
  decisions := #[6]
  maxType := 1
  nextTokens := #[.ofList [1], .ofList [-2], .ofList [1], .ofList [-2, 1], .ofList [1], .ofList [-2],
    .ofList [-2, 1], .ofList [-2]]
  ruleFollow := #[[5]]
  returnPrecedence := #[none, none, none, none, none, some 0, none, none]
  edgeCount := 8

set_option maxRecDepth 20000 in
theorem compile_row : row.compile = .ok ⟨rowNetwork, row.names⟩ := by cbv

theorem epsilonFree_rowNetwork : rowNetwork.EpsilonFree := by
  unfold EpsilonFree
  decide

/-- Past the first A another can come, or the end of `s`. -/
theorem next_row : rowNetwork.Meets 3 [] 1 ∧ rowNetwork.Drifts 3 [] 1 [] := by
  obtain ⟨htokens, hend⟩ :=
    @Grammar.mem_nextTokensAt_iff row _ 3 compile_row epsilonFree_rowNetwork (by decide)
  exact ⟨(htokens 1 (by decide)).1 (by decide), hend.1 (by decide)⟩

theorem expectedTokens_row : rowNetwork.expectedTokens 3 [5] = rowNetwork.followingInContext 3 [5] := by
  refine Grammar.expectedTokens_eq compile_row epsilonFree_rowNetwork (by decide) [5] ?_
  intro b hb
  rw [List.mem_singleton.1 hb]
  exact ⟨4, ⟨0, .rule 0 5 0⟩, .head _, 0, 0, rfl⟩

end AdaptiveParsing
