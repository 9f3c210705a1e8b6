import AdaptiveParsing.Proofs.Completion.Alongside
import AdaptiveParsing.Proofs.Completion.FirstEdges
import AdaptiveParsing.Proofs.Recognition.Soundness
import AdaptiveParsing.Proofs.Token.Hidden
/-!
Preferred rules stand for the types they begin with. A walk with preferred rules goes the way of one
without, and where it reports a rule the other reports types; so no type is new, and one that is missing
has a rule in its place. The calls that are open on the way are a chain (`CompletionInput.Opens`), and so
are those up to an edge that a rule can begin with (`Network.linked_followSets`): a rule is reported with the
chain above it. Main statement: `CompiledGrammar.complete_preferring`.
-/

namespace AdaptiveParsing

/-- A list with places is split at one of its elements. -/
theorem split_of_zipIdx {α : Type} {l : List α} {before after : List (α × Nat)} {a : α} {k : Nat}
    (h : l.zipIdx = before ++ (a, k) :: after) :
    l = l.take k ++ a :: after.map Prod.fst ∧ l.take k = before.map Prod.fst := by
  have hl : l = before.map Prod.fst ++ a :: after.map Prod.fst := by
    rw [← List.zipIdx_map_fst 0 l, h, List.map_append, List.map_cons]
  have hk : k = before.length := by
    have hget : l.zipIdx[before.length]? = some (a, k) := by
      rw [h, List.getElem?_append_right (Nat.le_refl _), Nat.sub_self]
      rfl
    rw [List.getElem?_zipIdx, Nat.zero_add] at hget
    obtain ⟨x, -, hx⟩ := Option.map_eq_some_iff.1 hget
    exact (Prod.mk.inj hx).2.symm
  have htake : l.take k = before.map Prod.fst := by
    rw [hk, ← List.length_map Prod.fst, hl, List.take_left']
    rfl
  exact ⟨by rw [htake]; exact hl, htake⟩

namespace Network

variable {n : Network} {levels : RuleId → Int → Prop} {r : RuleId} {path : List RuleId} {s b : StateId}
  {t : Transition}

/-- The rule has a call of the other. -/
def Calls (n : Network) (a b : RuleId) : Prop :=
  ∃ s, (n.state s).rule = a ∧ ∃ t ∈ (n.state s).transitions, ∃ follow precedence,
    t.kind = .rule b follow precedence

/-- The state is in the last of these rules, each of which calls the next. -/
def Linked (n : Network) (rules : List RuleId) (s : StateId) : Prop :=
  ∃ front r, rules = front ++ [r] ∧ r < n.rules.size ∧ (n.state s).rule = r ∧ rules.IsChain n.Calls

theorem linked_start (hs : n.Shaped levels) (hr : r < n.rules.size) :
    n.Linked [r] (n.rule r).start :=
  ⟨[], r, rfl, hr, (hs.rule r hr).start_rule, .singleton r⟩

theorem Linked.chain {rules : List RuleId} (h : n.Linked rules s) : rules.IsChain n.Calls := by
  obtain ⟨-, -, -, -, -, hchain⟩ := h
  exact hchain

/-- Past an edge the way is in the same rule. -/
theorem Linked.next {rules : List RuleId} (hs : n.Shaped levels) (h : n.Linked rules s)
    (ht : t ∈ (n.state s).transitions) : n.Linked rules t.next := by
  obtain ⟨front, r, hrules, hr, hrule, hchain⟩ := h
  exact ⟨front, r, hrules, hr, ((hs.rule r hr).next s hrule t ht).2, hchain⟩

theorem Linked.call {rules : List RuleId} (hs : n.Shaped levels) (h : n.Linked rules s)
    (ht : t ∈ (n.state s).transitions) {follow : StateId} {precedence : Int}
    (hk : t.kind = .rule r follow precedence) : n.Linked (rules ++ [r]) (n.rule r).start := by
  obtain ⟨front, outer, rfl, -, hrule, hchain⟩ := h
  have hr := (hs.call s t ht r follow precedence hk).1
  refine ⟨front ++ [outer], r, rfl, hr, (hs.rule r hr).start_rule, ?_⟩
  rw [List.append_assoc, List.singleton_append, List.isChain_split]
  exact ⟨hchain, List.isChain_pair.2 ⟨s, hrule, t, ht, follow, precedence, hk⟩⟩

theorem Passes.next_eq (h : n.Passes t b) : t.next = b := by
  cases h with
  | free hc _ => exact Transition.next_eq_target hc
  | call hk _ => simp [Transition.next, hk]

/-- The rules entered on a way from the start of a rule are a chain below it. -/
theorem lasts_linked (hs : n.Shaped levels) (r : RuleId) :
    n.Lasts fun path s => n.Linked (r :: path) s := by
  refine ⟨?_, ?_⟩
  · intro path s t b h ht hx
    rw [← hx.next_eq]
    exact h.next hs ht
  · intro path s t c follow precedence h ht hk
    rw [(hs.call s t ht c follow precedence hk).2]
    exact h.call hs ht hk

theorem linked_followSets (hs : n.Shaped levels) (hr : r < n.rules.size) {set : FollowSet}
    (hset : set ∈ (n.followSets r).sets) : (r :: set.path).IsChain n.Calls := by
  obtain ⟨s, hlinked, -⟩ := mem_followSets (lasts_linked hs r) (linked_start hs hr) hset
  exact hlinked.chain

end Network

/-- The rules of a chain of calls, outermost first, that begins with this rule; each is entered at one of
these indices. -/
structure Chained (n : Network) (first : RuleId) (covered : Nat → Prop) (calls : List OpenRule) : Prop where
  head : (calls.map OpenRule.rule).head? = some first
  links : (calls.map OpenRule.rule).IsChain n.Calls
  covered : ∀ c ∈ calls, covered c.startIndex

/-- The chain can go on with rules that are entered at one index. -/
theorem Chained.append {n : Network} {first : RuleId} {covered : Nat → Prop} {calls : List OpenRule}
    {startIndex : Nat} (h : Chained n first covered calls) (path : List RuleId)
    (hlinks : (calls.map OpenRule.rule ++ path).IsChain n.Calls) (hindex : covered startIndex) :
    Chained n first covered (calls ++ path.map fun r => ⟨r, startIndex⟩) := by
  have hrules : (calls ++ path.map fun r => (⟨r, startIndex⟩ : OpenRule)).map OpenRule.rule =
      calls.map OpenRule.rule ++ path := by
    simp [Function.comp_def]
  refine ⟨?_, by rwa [hrules], List.forall_mem_append.2 ⟨h.covered, ?_⟩⟩
  · rw [hrules, List.head?_append, h.head]
    rfl
  · simpa using fun r _ => hindex

namespace Candidates

/-- The second candidates have rules of this kind in place of types of the first. -/
structure Replaces (kind : RuleId → CandidateRule → Prop) (c c' : Candidates) : Prop where
  cancelled : c'.cancelled = c.cancelled
  tokens : ∀ t ∈ c'.tokens, t ∈ c.tokens
  missing : (∃ t ∈ c.tokens, t ∉ c'.tokens) → ∃ r, r ∈ c'.rules
  rules : ∀ (r : RuleId) (rule : CandidateRule), c'.rules[r]? = some rule → kind r rule

variable {kind : RuleId → CandidateRule → Prop} {c c' : Candidates}
  {add : Candidates → TokenType → Candidates} {types : List TokenType} {r : OpenRule}
  {calls : List RuleId}

theorem mem_rules_addRule (c : Candidates) (r : OpenRule) (calls : List RuleId) :
    r.rule ∈ (c.addRule r calls).rules := by
  unfold addRule
  split
  · rename_i hany
    obtain ⟨rule, hrule, -⟩ := (Option.any_eq_true _ _).1 hany
    rw [Std.TreeMap.mem_iff_isSome_getElem?, hrule]
    rfl
  · simp

theorem rules_addRule (h : kind r.rule ⟨r.startIndex, calls⟩)
    (hc : ∀ (r : RuleId) (rule : CandidateRule), c.rules[r]? = some rule → kind r rule) (r' : RuleId)
    (rule : CandidateRule) (hrule : (c.addRule r calls).rules[r']? = some rule) : kind r' rule := by
  unfold addRule at hrule
  split at hrule
  · exact hc r' rule hrule
  · rw [Std.TreeMap.getElem?_insert] at hrule
    split at hrule
    · rename_i heq
      obtain rfl := Std.LawfulEqCmp.eq_of_compare heq
      cases hrule
      exact h
    · exact hc r' rule hrule

/-- A rule stands for more types than before. -/
theorem Replaces.addRule {c₁ : Candidates} (h : Replaces kind c c')
    (htokens : ∀ t ∈ c.tokens, t ∈ c₁.tokens) (hcancelled : c₁.cancelled = c.cancelled)
    (hkind : kind r.rule ⟨r.startIndex, calls⟩) : Replaces kind c₁ (c'.addRule r calls) := by
  refine ⟨?_, ?_, fun _ => ⟨_, mem_rules_addRule c' r calls⟩, rules_addRule hkind h.rules⟩
  · rw [cancelled_addRule, hcancelled, h.cancelled]
  · intro t ht
    rw [tokens_addRule] at ht
    exact htokens t (h.tokens t ht)

/-- The same types are added to both. -/
theorem Replaces.foldl (h : Replaces kind c c') (ha : Adds add) :
    Replaces kind (types.foldl add c) (types.foldl add c') := by
  refine ⟨?_, fun t ht => ?_, ?_, ?_⟩
  · rw [ha.cancelled_foldl, ha.cancelled_foldl, h.cancelled]
  · rw [ha.mem_foldl] at ht ⊢
    exact ht.imp_left (h.tokens t)
  · rintro ⟨t, ht, hno⟩
    rw [ha.mem_foldl] at ht hno
    rw [ha.rules_foldl]
    exact h.missing ⟨t, ht.resolve_right fun h => hno (.inr h), fun h => hno (.inl h)⟩
  · rw [ha.rules_foldl]
    exact h.rules

end Candidates

namespace CompletionInput

open Candidates

variable {input : CompletionInput} {calls : List OpenRule} {r : RuleId} {i : Nat} {w w' : CandidateWalk}
  {preferred : List RuleId} {kind : RuleId → CandidateRule → Prop} {levels : RuleId → Int → Prop}
  {first : RuleId}

/-- The options with other preferred rules. -/
def preferring (input : CompletionInput) (preferred : List RuleId) : CompletionOptions :=
  { input.options with preferred }

/-- The indices of the tokens. -/
def HasIndex (input : CompletionInput) (index : Nat) : Prop := ∃ kind, (index, kind) ∈ input.tokens

/-- The open calls, innermost first, are a chain from this rule on, and the state is in the innermost. -/
structure Opens (input : CompletionInput) (first : RuleId) (calls : List OpenRule) (s : StateId) :
    Prop where
  chained : Chained input.network first input.HasIndex calls.reverse
  linked : input.network.Linked (calls.reverse.map OpenRule.rule) s

/-- A rule is preferred, and reported with the chain of calls above it; reported outermost first, none of
them is preferred. -/
def Reported (input : CompletionInput) (first : RuleId) (r : RuleId) (rule : CandidateRule) : Prop :=
  r ∈ input.options.preferred ∧ (rule.ruleList ++ [r]).head? = some first ∧
    (rule.ruleList ++ [r]).IsChain input.network.Calls ∧
    (input.options.innermostFirst = false → ∀ p ∈ rule.ruleList, p ∉ input.options.preferred) ∧
    input.HasIndex rule.startIndex

/-- The preferred rule of a chain of calls is one of them. -/
theorem preferredOn_eq_some {c : OpenRule} {above : List RuleId}
    (h : input.preferredOn calls = some (c, above)) :
    ∃ before after, calls = before ++ c :: after ∧ above = before.map OpenRule.rule ∧
      c.rule ∈ input.options.preferred ∧
      (input.options.innermostFirst = false → ∀ b ∈ before, b.rule ∉ input.options.preferred) := by
  unfold preferredOn at h
  obtain ⟨⟨c', k⟩, hfound, he⟩ := Option.map_eq_some_iff.1 h
  obtain ⟨rfl, rfl⟩ := Prod.mk.inj he
  by_cases hinner : input.options.innermostFirst = true
  · rw [if_pos hinner] at hfound
    obtain ⟨hmem, hpreferred⟩ := List.mem_filter.1 (List.mem_of_getLast? hfound)
    obtain ⟨before, after, hsplit⟩ := List.append_of_mem hmem
    exact ⟨_, _, (split_of_zipIdx hsplit).1, rfl, by simpa using hpreferred,
      fun h => absurd (hinner.symm.trans h) (by decide)⟩
  · rw [if_neg hinner, List.head?_filter, List.find?_eq_some_iff_append] at hfound
    obtain ⟨hpreferred, before, after, hsplit, hbefore⟩ := hfound
    obtain ⟨hcalls, htake⟩ := split_of_zipIdx hsplit
    refine ⟨_, _, hcalls, rfl, by simpa using hpreferred, fun _ b hb => ?_⟩
    rw [htake] at hb
    obtain ⟨x, hx, rfl⟩ := List.mem_map.1 hb
    simpa using hbefore x hx

/-- If one of the calls is preferred, one is found. -/
theorem exists_preferredOn (input : CompletionInput) {c : OpenRule} (hc : c ∈ calls)
    (hpreferred : c.rule ∈ input.options.preferred) :
    ∃ found, input.preferredOn calls = some found := by
  obtain ⟨k, hk⟩ := List.getElem?_of_mem hc
  unfold preferredOn
  generalize hsplits : calls.zipIdx.filter _ = splits
  cases splits with
  | nil =>
    have hnot := List.filter_eq_nil_iff.1 hsplits (c, k) (List.mem_zipIdx_iff_getElem?.2 hk)
    exact absurd (by simpa using hpreferred) hnot
  | cons x rest =>
    dsimp only
    split <;> simp [List.getLast?_cons]

/-- What is reported of a chain of calls. -/
theorem reported_of_chained (input : CompletionInput)
    (h : Chained input.network first input.HasIndex calls) {c : OpenRule} {above : List RuleId}
    (hfound : input.preferredOn calls = some (c, above)) :
    input.Reported first c.rule ⟨c.startIndex, above⟩ := by
  obtain ⟨before, after, rfl, rfl, hpreferred, houter⟩ := preferredOn_eq_some hfound
  have hrules : (before ++ c :: after).map OpenRule.rule =
      (before.map OpenRule.rule ++ [c.rule]) ++ after.map OpenRule.rule := by simp
  refine ⟨hpreferred, ?_, ?_, ?_, h.covered c (by simp)⟩
  · have := h.head
    rw [hrules, List.head?_append] at this
    simpa using this
  · have := h.links
    rw [hrules] at this
    exact this.left_of_append
  · intro hinner p hp
    obtain ⟨b, hb, rfl⟩ := List.mem_map.1 hp
    exact houter hinner b hb

/-- A rule is entered at the index of a token. -/
theorem hasIndex_opened (hi : i < input.tokens.size) :
    input.HasIndex (input.opened r i).startIndex :=
  ⟨(input.tokenAt i).2, by simp [opened, tokenAt, Array.getD, hi]⟩

/-- The calls of a rule are a chain below it. -/
theorem Opens.enter (hs : input.network.Shaped levels) {s : StateId} (h : input.Opens first calls s)
    {t : Transition} (ht : t ∈ (input.network.state s).transitions) {follow : StateId} {precedence : Int}
    (hk : t.kind = .rule r follow precedence) (hi : i < input.tokens.size) :
    input.Opens first (input.opened r i :: calls) (input.network.rule r).start := by
  have hlinked := h.linked.call hs ht hk
  refine ⟨?_, by simpa [opened] using hlinked⟩
  rw [List.reverse_cons]
  exact h.chained.append [r] hlinked.chain (hasIndex_opened (r := r) hi)

section

variable (hnone : input.options.preferred = [])

include hnone

/-- Where a rule is reported, types are offered without preferred rules. -/
theorem replaces_offer {add : Candidates → TokenType → Candidates} {types : List TokenType}
    (hw : Replaces kind w.candidates w'.candidates) (ha : Adds add)
    (hkind : ∀ c above, (input.under (input.preferring preferred)).preferredOn calls = some (c, above) →
      kind c.rule ⟨c.startIndex, above⟩) :
    Replaces kind (input.offer calls types add w).candidates
      ((input.under (input.preferring preferred)).offer calls types add w').candidates := by
  unfold offer
  rw [preferredOn_eq_none hnone]
  dsimp only
  split
  · exact hw.foldl ha
  · rename_i c above hfound
    exact hw.addRule (fun t ht => ha.mem_foldl.2 (.inl ht)) ha.cancelled_foldl (hkind c above hfound)

theorem replaces_addBeginnings {startIndex : Nat} {sets : Array FollowSet}
    (hw : Replaces kind w.candidates w'.candidates)
    (hkind : ∀ set ∈ sets, ∀ c above, (input.under (input.preferring preferred)).preferredOn
      (callsTo calls startIndex set) = some (c, above) → kind c.rule ⟨c.startIndex, above⟩) :
    Replaces kind (input.addBeginnings calls startIndex sets w).candidates
      ((input.under (input.preferring preferred)).addBeginnings calls startIndex sets w').candidates := by
  have hkind : ∀ set ∈ sets.toList, _ := fun set hset => hkind set (Array.mem_toList_iff.1 hset)
  rw [addBeginnings_eq, addBeginnings_eq]
  generalize sets.toList = sets at hkind
  induction sets generalizing w w' with
  | nil => exact hw
  | cons set rest ih =>
    obtain ⟨hset, hrest⟩ := List.forall_mem_cons.1 hkind
    exact ih (replaces_offer hnone hw (adds_addOfSet set) hset) hrest

/-- At the caret a preferred rule is reported in place of what it begins with. -/
theorem replaces_atCaretIn (hs : input.network.Shaped levels)
    (hsets : ∀ r, r < input.network.rules.size → input.followSets r = input.network.followSets r)
    (h : input.Opens first (input.opened r i :: calls) (input.network.rule r).start)
    (hw : Replaces ((input.under (input.preferring preferred)).Reported first) w.candidates w'.candidates) :
    Replaces ((input.under (input.preferring preferred)).Reported first)
      (input.atCaretIn (input.opened r i :: calls).reverse r i w).2.candidates
      ((input.under (input.preferring preferred)).atCaretIn
        (input.opened r i :: calls).reverse r i w').2.candidates := by
  have hreported : ∀ {calls}, Chained input.network first input.HasIndex calls → ∀ c above,
      (input.under (input.preferring preferred)).preferredOn calls = some (c, above) →
      (input.under (input.preferring preferred)).Reported first c.rule ⟨c.startIndex, above⟩ :=
    fun hchained _ _ hfound =>
      reported_of_chained (input.under (input.preferring preferred)) hchained hfound
  obtain ⟨front, r', hrules, hr, -, hchain⟩ := h.linked
  rw [List.reverse_cons, List.map_append] at hrules
  obtain ⟨rfl, hlast⟩ := List.append_inj' hrules rfl
  obtain rfl : r = r' := List.singleton_inj.1 hlast
  unfold atCaretIn
  dsimp only
  rw [if_neg (by simp [hnone])]
  split
  · rename_i hpreferred
    have hopen : input.opened r i ∈ (input.opened r i :: calls).reverse := by simp
    obtain ⟨⟨c, above⟩, hfound⟩ := exists_preferredOn (input.under (input.preferring preferred)) hopen
      (by simpa [opened] using hpreferred)
    have hreports := reports_addBeginnings input (input.opened r i :: calls).reverse
      (input.tokenAt i).1 (input.followSets r).sets w
    unfold reportPreferred
    rw [hfound]
    exact hw.addRule hreports.tokens hreports.cancelled (hreported h.chained c above hfound)
  · refine replaces_addBeginnings hnone hw fun set hset => hreported ?_
    have hpath := Network.linked_followSets hs hr (hsets r hr ▸ hset)
    refine h.chained.append _ ?_ (h.chained.covered (input.opened r i) (by simp))
    rw [List.reverse_cons, List.map_append, List.append_assoc]
    rw [List.reverse_cons, List.map_append] at hchain
    exact List.isChain_split.2 ⟨hchain, hpath⟩

/-- A walk with preferred rules keeps to one without. -/
theorem keeps_preferring (first : RuleId) (hs : input.network.Shaped levels)
    (hsets : ∀ r, r < input.network.rules.size → input.followSets r = input.network.followSets r) :
    input.Keeps (input.preferring preferred) (input.Opens first)
      (Replaces ((input.under (input.preferring preferred)).Reported first)) := by
  refine ⟨rfl, fun c c' h => h.cancelled, fun c c' h => ⟨rfl, h.tokens, h.missing, h.rules⟩, ?_, ?_, ?_, ?_⟩
  · exact fun calls s h t ht => ⟨h.chained, h.linked.next hs ht⟩
  · intro calls s h t ht r follow precedence hk i hi
    exact h.enter hs ht hk hi
  · intro calls r i h w w' hw
    exact replaces_atCaretIn hnone hs hsets h hw
  · intro calls s h t ht types hl w w' hw
    rw [addEdge_eq, addEdge_eq]
    exact replaces_offer hnone hw (adds_addOnEdge t types) fun c above hfound =>
      reported_of_chained (input.under (input.preferring preferred)) h.chained hfound

end

end CompletionInput

/-- A walk from index `start` to the caret covers the token at an index: the token is visible, and none
before it is the end of input or a visible one at or after the caret. -/
structure TokenCursor.Covers (input : TokenCursor) (start caret index : Nat) : Prop where
  start_le : start ≤ index
  visible : ∃ t, input.tokens[index]? = some t ∧ t.channel = defaultChannel
  before : ∀ k, start ≤ k → k < index → ∀ t, input.tokens[k]? = some t →
    t.isEof = false ∧ (t.channel = defaultChannel → k < caret)

/-- The tokens up to the caret token are visible, and none before them ends the walk. -/
theorem exists_of_mem_tokensToCaret {caret index n : Nat} {kind : TokenType} {tokens : List Token}
    (hindex : ∀ k t, tokens[k]? = some t → t.index = some (n + k))
    (h : (index, kind) ∈ tokensToCaret caret tokens) :
    ∃ k, index = n + k ∧ (∃ t, tokens[k]? = some t ∧ t.channel = defaultChannel) ∧
      ∀ j < k, ∀ t, tokens[j]? = some t →
        t.isEof = false ∧ (t.channel = defaultChannel → n + j < caret) := by
  induction tokens generalizing n with
  | nil => cases h
  | cons first rest ih =>
    have hfirst : first.index.getD 0 = n := by rw [hindex 0 first rfl]; rfl
    have hrest : ∀ k t, rest[k]? = some t → t.index = some (n + 1 + k) := by
      intro k t ht
      rw [hindex (k + 1) t (by simpa using ht), Nat.add_assoc, Nat.add_comm 1 k]
    -- past a token that does not end the walk
    have hpast : first.isEof = false → (first.channel = defaultChannel → n < caret) →
        (index, kind) ∈ tokensToCaret caret rest →
        ∃ k, index = n + k ∧ (∃ t, (first :: rest)[k]? = some t ∧ t.channel = defaultChannel) ∧
          ∀ j < k, ∀ t, (first :: rest)[j]? = some t →
            t.isEof = false ∧ (t.channel = defaultChannel → n + j < caret) := by
      intro heof hcaret h
      obtain ⟨k, hk, hvisible, hbefore⟩ := ih hrest h
      refine ⟨k + 1, by omega, by simpa using hvisible, fun j hj t ht => ?_⟩
      cases j with
      | zero =>
        obtain rfl : first = t := by simpa using ht
        exact ⟨heof, hcaret⟩
      | succ j =>
        have := hbefore j (by omega) t (by simpa using ht)
        exact ⟨this.1, fun hc => by have := this.2 hc; omega⟩
    unfold tokensToCaret at h
    dsimp only at h
    rw [hfirst] at h
    split at h
    · rename_i hchannel
      rcases List.mem_cons.1 h with he | h
      · exact ⟨0, (Prod.mk.inj he).1, ⟨first, rfl, hchannel⟩, fun j hj => absurd hj (Nat.not_lt_zero j)⟩
      · split at h
        · cases h
        · rename_i hgo
          simp only [Bool.or_eq_true, decide_eq_true_eq, not_or, Nat.not_le, Bool.not_eq_true] at hgo
          exact hpast hgo.2 (fun _ => hgo.1) h
    · rename_i hchannel
      split at h
      · cases h
      · rename_i hgo
        exact hpast (by simpa using hgo) (fun hc => absurd hc hchannel) h

namespace CompiledGrammar

theorem covers_of_mem {tokens : Array Token} {channel caret index : Nat} {kind : TokenType}
    {context : Option Invocation}
    (h : (index, kind) ∈ covered (.ofTokens tokens channel) caret context) :
    (TokenCursor.ofTokens tokens channel).Covers (firstIndex context) caret index := by
  obtain ⟨k, rfl, hvisible, hbefore⟩ := exists_of_mem_tokensToCaret (n := firstIndex context) (by
    intro k t ht
    rw [List.getElem?_drop, Array.getElem?_toList] at ht
    exact numbered_number _ _ t ht) h
  simp only [List.getElem?_drop, Array.getElem?_toList] at hvisible hbefore
  refine ⟨Nat.le_add_right _ _, hvisible, fun j hstart hj t ht => ?_⟩
  have := hbefore (j - firstIndex context) (by omega) t (by rwa [Nat.add_sub_cancel' hstart])
  rwa [Nat.add_sub_cancel' hstart] at this

/-- With preferred rules a completion reports rules in place of what it reports without. -/
theorem replaces_complete {g : Grammar} {c : CompiledGrammar} (hg : g.compile = .ok c)
    {predicates : Predicates} {options : CompletionOptions} {preferred : List RuleId}
    {input : TokenCursor} {caret fuel fuel' : Nat} {context : Option Invocation}
    (hcontext : ∀ outer ∈ context, outer.rule < c.network.rules.size) {found found' : Candidates}
    (h : c.complete predicates { options with preferred := [] } input caret context fuel = some found)
    (h' : c.complete predicates { options with preferred } input caret context fuel' = some found') :
    Candidates.Replaces ((c.completion predicates { options with preferred }
      (covered input caret context)).Reported (firstRule context)) found found' := by
  obtain ⟨hshaped, -⟩ := Grammar.shaped_compile hg
  refine complete_alongside h h' ⟨rfl, by simp, by simp, by simp⟩ fun hrules htokens =>
    ⟨CompletionInput.keeps_preferring rfl (firstRule context) hshaped fun r hr =>
      followSets_completion.trans (if_pos hr), ?_⟩
  have hr : firstRule context < c.network.rules.size := firstRule_lt hrules hcontext
  have hpos : 0 < (covered input caret context).toArray.size := by
    simpa [List.length_pos_iff] using htokens
  have hindex : (c.completion predicates { options with preferred := [] }
      (covered input caret context)).HasIndex
      ((c.completion predicates { options with preferred := [] } (covered input caret context)).opened
        (firstRule context) 0).startIndex :=
    CompletionInput.hasIndex_opened hpos
  exact ⟨⟨rfl, .singleton _, by simpa using hindex⟩, Network.linked_start hshaped hr⟩

/-- Preferred rules replace types and lose none. With them a completion reports no type that it does not
report without them, and a rule if a type is missing. A rule that is reported is preferred; the calls above
it and the rule itself are a chain that begins with the first rule, and of those calls, reported outermost
first, none is preferred; it begins at a token between the first and the caret token. -/
theorem complete_preferring {g : Grammar} {c : CompiledGrammar} (hg : g.compile = .ok c)
    (predicates : Predicates) (options : CompletionOptions) (preferred : List RuleId)
    (tokens : Array Token) (channel caret : Nat) (context : Option Invocation)
    (hcontext : ∀ outer ∈ context, outer.rule < c.network.rules.size)
    {fuel fuel' : Nat} {found found' : Candidates}
    (h : c.complete predicates { options with preferred := [] } (.ofTokens tokens channel) caret context
      fuel = some found)
    (h' : c.complete predicates { options with preferred } (.ofTokens tokens channel) caret context
      fuel' = some found') :
    (∀ t ∈ found'.tokens, t ∈ found.tokens) ∧
      ((∃ t ∈ found.tokens, t ∉ found'.tokens) → ∃ r, r ∈ found'.rules) ∧
      ∀ (r : RuleId) (rule : CandidateRule), found'.rules[r]? = some rule → r ∈ preferred ∧
        (rule.ruleList ++ [r]).head? = some (firstRule context) ∧
        (rule.ruleList ++ [r]).IsChain c.network.Calls ∧
        (options.innermostFirst = false → ∀ p ∈ rule.ruleList, p ∉ preferred) ∧
        (TokenCursor.ofTokens tokens channel).Covers (firstIndex context) caret rule.startIndex := by
  have hreplaces := replaces_complete hg hcontext h h'
  refine ⟨hreplaces.tokens, hreplaces.missing, fun r rule hrule => ?_⟩
  obtain ⟨hpreferred, hhead, hchain, houter, kind, hindex⟩ := hreplaces.rules r rule hrule
  exact ⟨hpreferred, hhead, hchain, houter, covers_of_mem (List.mem_toArray.1 hindex)⟩

end CompiledGrammar

/-- After A the grammar `nested` offers B. With `t` preferred it reports `t` in its place, called by `s` at
the caret token. -/
theorem preferring_nested : ∃ found found',
    CompiledGrammar.complete nestedSetting.grammar .always {} (.ofTokens #[{ kind := 1 }] defaultChannel)
      1 none 30 = some found ∧
    CompiledGrammar.complete nestedSetting.grammar .always { preferred := [1] }
      (.ofTokens #[{ kind := 1 }] defaultChannel) 1 none 30 = some found' ∧
    2 ∈ found.tokens ∧ 2 ∉ found'.tokens ∧ (∃ r, r ∈ found'.rules) ∧
    ∃ rule, found'.rules[(1 : RuleId)]? = some rule ∧ rule = ⟨1, [0]⟩ ∧
      (rule.ruleList ++ [1]).IsChain nestedNetwork.Calls ∧
      (TokenCursor.ofTokens #[{ kind := 1 }] defaultChannel).Covers 0 1 rule.startIndex := by
  have hrun : (CompiledGrammar.complete nestedSetting.grammar .always {}
      (.ofTokens #[{ kind := 1 }] defaultChannel) 1 none 30).map (fun found => found.tokens.contains 2) =
      some true := by cbv
  have hrun' : (CompiledGrammar.complete nestedSetting.grammar .always { preferred := [1] }
      (.ofTokens #[{ kind := 1 }] defaultChannel) 1 none 30).map
        (fun found => (found.tokens.contains 2, found.rules[(1 : RuleId)]?)) =
      some (false, some ⟨1, [0]⟩) := by cbv
  obtain ⟨found, hfound, hmem⟩ := Option.map_eq_some_iff.1 hrun
  obtain ⟨found', hfound', hpair⟩ := Option.map_eq_some_iff.1 hrun'
  obtain ⟨hno, hrule⟩ := Prod.mk.inj hpair
  have hmem : 2 ∈ found.tokens := Std.TreeMap.contains_iff_mem.1 hmem
  have hno : 2 ∉ found'.tokens := by
    rw [← Std.TreeMap.contains_iff_mem, hno]
    decide
  obtain ⟨-, hmissing, hrules⟩ := CompiledGrammar.complete_preferring compile_nested .always {} [1]
    #[{ kind := 1 }] defaultChannel 1 none (by simp) hfound hfound'
  obtain ⟨-, -, hchain, -, hcovers⟩ := hrules 1 _ hrule
  exact ⟨found, found', hfound, hfound', hmem, hno, hmissing ⟨2, hmem, hno⟩, _, hrule, rfl, hchain, hcovers⟩

end AdaptiveParsing
