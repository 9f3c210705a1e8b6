import AdaptiveParsing.Completion.Candidates
import AdaptiveParsing.Proofs.Completion.FirstEdges
import AdaptiveParsing.Proofs.Completion.Steps
import AdaptiveParsing.Proofs.Network.Tables
import AdaptiveParsing.Proofs.Recognition.Soundness
/-!
What is offered at the caret is what can come next there. The walk takes every way that the tokens before
the caret allow: over its items it follows each edge (`CompletionInput.edges_exact`), and what it remembers
of a rule entered at a token is what another walk through the rule would find (`Remembers`). That holds as
long as no edge is under a condition, since what is remembered does not tell the floor of the call. Main
statement: in a grammar whose edges are under no condition the types offered are those that some way
through the first rule can take after the tokens before the caret (`CompiledGrammar.offered_iff`).
-/

namespace AdaptiveParsing

namespace CompletionInput

variable (input : CompletionInput)

/-- The place of the caret token. -/
def caretPlace : Nat := input.tokens.size - 1

/-- The types of the tokens from one place to another. -/
def word (i j : Nat) : List TokenType := ((input.tokens.toList.map Prod.snd).take j).drop i

/-- From a state at one place the rule can end at another. -/
def Reaches (s : StateId) (i j : Nat) : Prop :=
  i ≤ j ∧ j ≤ input.caretPlace ∧ input.network.Spans s 0 (input.word i j)

/-- From a state at a place a token of this type can be the caret token. -/
def Shown (s : StateId) (i : Nat) (token : TokenType) : Prop :=
  TokenType.epsilon ≤ token ∧ input.network.Offers s (input.word i input.caretPlace) token

/-- Past an edge at a place the walk can stand there. -/
def Moves (t : Transition) (i : Nat) (item : WalkItem) : Prop :=
  i ≤ item.position ∧ item.position ≤ input.caretPlace ∧
    input.network.Crosses t (input.word i item.position) item.state

/-- At a place the edge, or the rule it enters, can take a caret token of this type. -/
def EdgeShows (t : Transition) (i : Nat) (token : TokenType) : Prop :=
  (i = input.caretPlace ∧ TokenType.epsilon ≤ token ∧ input.network.Matches t.kind token) ∨
    ∃ r follow precedence, t.kind = .rule r follow precedence ∧ input.Shown t.target i token

/-- What a walk begins with: a network whose edges are under no condition, nothing that hides types or
stops the walk, and known types before the caret. -/
structure Regular (levels : RuleId → Int → Prop) : Prop where
  shaped : input.network.Shaped levels
  checked : input.network.Checked
  ungated : input.network.Ungated
  sets : ∀ r, r < input.network.rules.size → input.followSets r = input.network.followSets r
  ignored : input.options.ignored = []
  preferred : input.options.preferred = []
  stop : input.options.stop = false
  size_pos : 0 < input.tokens.size
  known : ∀ i, i < input.caretPlace → TokenType.firstUser ≤ (input.tokenAt i).2 ∧
    (input.tokenAt i).2 ≤ input.network.maxType

/-- The walk is not over, and what it remembers of a rule is what another walk through it finds. -/
structure Remembers (w : CandidateWalk) : Prop where
  running : w.candidates.cancelled = false
  ends : ∀ r i known, w.ends[(r, i)]? = some known → r < input.network.rules.size →
    (∀ j, j ∈ known ↔ input.Reaches (input.network.rule r).start i j) ∧
      ∀ token, input.Shown (input.network.rule r).start i token → token ∈ w.candidates.tokens

/-- A part of a walk that adds these types. -/
structure Learns (w w' : CandidateWalk) (types : TokenType → Prop) : Prop where
  remembers : input.Remembers w'
  tokens : ∀ token, token ∈ w'.candidates.tokens ↔ token ∈ w.candidates.tokens ∨ types token

variable {input} {w w' w'' : CandidateWalk} {types types' : TokenType → Prop} {i j k : Nat}
  {s b : StateId} {t : Transition} {token : TokenType} {levels : RuleId → Int → Prop}
  {item : WalkItem} {r : RuleId} {follow : StateId} {precedence : Int}

theorem Learns.refl (h : input.Remembers w) : input.Learns w w fun _ => False :=
  ⟨h, fun _ => by simp⟩

theorem Learns.congr (h : input.Learns w w' types) (he : ∀ token, types token ↔ types' token) :
    input.Learns w w' types' := ⟨h.remembers, fun token => by rw [h.tokens, he]⟩

theorem Learns.trans (h : input.Learns w w' types) (h' : input.Learns w' w'' types') :
    input.Learns w w'' fun token => types token ∨ types' token :=
  ⟨h'.remembers, fun token => by rw [h'.tokens, h.tokens, or_assoc]⟩

/-- Candidates that are added change nothing of what is remembered. -/
theorem Remembers.learns (h : input.Remembers w) {f : Candidates → Candidates}
    (hstop : (f w.candidates).cancelled = w.candidates.cancelled)
    (hadd : ∀ token, token ∈ (f w.candidates).tokens ↔ token ∈ w.candidates.tokens ∨ types token) :
    input.Learns w (w.modify f) types := by
  refine ⟨⟨hstop.trans h.running, fun r i known hk hr => ?_⟩, hadd⟩
  obtain ⟨h₁, h₂⟩ := h.ends r i known hk hr
  exact ⟨h₁, fun token ht => (hadd token).2 (.inl (h₂ token ht))⟩

/-! The tokens between two places. -/

theorem length_word (hj : j ≤ input.tokens.size) : (input.word i j).length = j - i := by
  simp [word, hj]

theorem word_self (i : Nat) : input.word i i = [] := by
  unfold word
  rw [List.drop_eq_nil_of_le (List.length_take_le ..)]

theorem word_append (hik : i ≤ k) (hkj : k ≤ j) :
    input.word i j = input.word i k ++ input.word k j := by
  unfold word
  rw [List.drop_take, List.drop_take, List.drop_take]
  have hsplit : j - i = (k - i) + (j - k) := by omega
  rw [hsplit, List.take_add, List.drop_drop, Nat.add_sub_cancel' hik]

theorem word_succ (h : i < input.tokens.size) : input.word i (i + 1) = [(input.tokenAt i).2] := by
  unfold word tokenAt
  rw [List.drop_take, Nat.add_sub_cancel_left, List.drop_eq_getElem_cons (by simpa using h)]
  simp [Array.getD, h]

/-- A word between two places that is put together of two parts has a place between them. -/
theorem exists_of_word_append {u v : List TokenType} (h : input.word i j = v ++ u) (hij : i ≤ j)
    (hj : j ≤ input.tokens.size) :
    ∃ k, i ≤ k ∧ k ≤ j ∧ input.word i k = v ∧ input.word k j = u := by
  have hlen := congrArg List.length h
  rw [length_word hj, List.length_append] at hlen
  refine ⟨i + v.length, by omega, by omega, ?_⟩
  rw [word_append (k := i + v.length) (by omega) (by omega)] at h
  exact List.append_inj h (by rw [length_word (by omega)]; omega)

theorem Regular.caretPlace_lt (h : input.Regular levels) : input.caretPlace < input.tokens.size := by
  have := h.size_pos
  unfold caretPlace
  omega

theorem Regular.atCaret_iff (h : input.Regular levels) (hi : i ≤ input.caretPlace) :
    input.atCaret i = true ↔ i = input.caretPlace := by
  have := h.size_pos
  simp only [atCaret, caretPlace, decide_eq_true_eq] at *
  omega

/-! What a walk finds from a state is what it finds past the edges of the state. -/

theorem reaches_stop (h : input.Regular levels) (hs : (input.network.state s).isRuleStop = true)
    (hi : i ≤ input.caretPlace) : input.Reaches s i j ↔ j = i := by
  have hlt := h.caretPlace_lt
  constructor
  · rintro ⟨hij, hj, hspans⟩
    obtain ⟨e, he, -⟩ := (Network.spans_iff h.ungated).1 hspans
    generalize hw : input.word i j = v at he
    cases he with
    | refl =>
      have hlen : (input.word i j).length = j - i := length_word (by omega)
      rw [hw, List.length_nil] at hlen
      omega
    | step ht _ _ =>
      rw [h.checked.last s hs] at ht
      cases ht
  · rintro rfl
    refine ⟨Nat.le_refl _, hi, (Network.spans_iff h.ungated).2 ⟨s, ?_, hs⟩⟩
    rw [word_self]
    exact .refl

theorem not_shown_stop (h : input.Regular levels) (hs : (input.network.state s).isRuleStop = true) :
    ¬ input.Shown s i token := by
  have hno := h.checked.last s hs
  rintro ⟨-, ho⟩
  generalize input.word i input.caretPlace = v at ho
  cases ho with
  | take ht _ | enter ht _ _ | step ht _ _ =>
    rw [hno] at ht
    cases ht

theorem reaches_iff (h : input.Regular levels) (hs : (input.network.state s).isRuleStop = false) :
    input.Reaches s i j ↔ ∃ t ∈ (input.network.state s).transitions, ∃ item,
      input.Moves t i item ∧ input.Reaches item.state item.position j := by
  have hlt := h.caretPlace_lt
  constructor
  · rintro ⟨hij, hj, hspans⟩
    obtain ⟨e, he, hstop⟩ := (Network.spans_iff h.ungated).1 hspans
    generalize hw : input.word i j = v at he
    cases he with
    | refl =>
      rw [hs] at hstop
      cases hstop
    | @step _ b _ v u t ht hx he =>
      obtain ⟨k, hik, hkj, rfl, rfl⟩ := exists_of_word_append hw hij (by omega)
      exact ⟨t, ht, ⟨b, k⟩, ⟨hik, Nat.le_trans hkj hj, hx⟩, hkj, hj,
        (Network.spans_iff h.ungated).2 ⟨e, he, hstop⟩⟩
  · rintro ⟨t, ht, ⟨b, k⟩, ⟨hik, -, hx⟩, hkj, hj, hspans⟩
    obtain ⟨e, he, hstop⟩ := (Network.spans_iff h.ungated).1 hspans
    refine ⟨Nat.le_trans hik hkj, hj, (Network.spans_iff h.ungated).2 ⟨e, ?_, hstop⟩⟩
    rw [word_append hik hkj]
    exact .step ht hx he

theorem shown_iff (h : input.Regular levels) (hi : i ≤ input.caretPlace) :
    input.Shown s i token ↔ (∃ t ∈ (input.network.state s).transitions, input.EdgeShows t i token) ∨
      ∃ t ∈ (input.network.state s).transitions, ∃ item,
        input.Moves t i item ∧ input.Shown item.state item.position token := by
  have hlt := h.caretPlace_lt
  constructor
  · rintro ⟨htoken, ho⟩
    generalize hw : input.word i input.caretPlace = v at ho
    cases ho with
    | @take _ _ t ht hm =>
      have hlen : (input.word i input.caretPlace).length = input.caretPlace - i := length_word (by omega)
      rw [hw, List.length_nil] at hlen
      exact .inl ⟨t, ht, .inl ⟨by omega, htoken, hm⟩⟩
    | @enter _ _ _ t r follow precedence ht hk ho =>
      subst hw
      exact .inl ⟨t, ht, .inr ⟨r, follow, precedence, hk, htoken, ho⟩⟩
    | @step _ b v u _ t ht hx ho =>
      obtain ⟨k, hik, hkj, rfl, rfl⟩ := exists_of_word_append hw hi (by omega)
      exact .inr ⟨t, ht, ⟨b, k⟩, ⟨hik, hkj, hx⟩, htoken, ho⟩
  · rintro (⟨t, ht, ⟨rfl, htoken, hm⟩ | ⟨r, follow, precedence, hk, htoken, ho⟩⟩ |
      ⟨t, ht, ⟨b, k⟩, ⟨hik, hk, hx⟩, htoken, ho⟩)
    · refine ⟨htoken, ?_⟩
      rw [word_self]
      exact .take ht hm
    · exact ⟨htoken, .enter ht hk ho⟩
    · refine ⟨htoken, ?_⟩
      rw [word_append hik hk]
      exact .step ht hx ho

/-! Where the walk stands past an edge, for each kind of edge. -/

theorem moves_free (hlt : input.caretPlace < input.tokens.size) (hk : t.kind.isFree = true)
    (hi : i ≤ input.caretPlace) : input.Moves t i item ↔ item = ⟨t.target, i⟩ := by
  obtain ⟨b, k⟩ := item
  constructor
  · rintro ⟨hik, hkc, hx⟩
    dsimp only at hik hkc hx
    have hlen : (input.word i k).length = k - i := length_word (by omega)
    generalize input.word i k = v at hx hlen
    cases hx with
    | free _ =>
      rw [List.length_nil] at hlen
      obtain rfl : k = i := by omega
      rfl
    | take hm => cases hk' : t.kind <;> simp_all [EdgeKind.isFree, Network.Matches, EdgeKind.Matches]
    | call hk' _ => simp [hk', EdgeKind.isFree] at hk
  · intro h
    cases h
    refine ⟨Nat.le_refl _, hi, ?_⟩
    rw [word_self]
    exact .free hk

theorem moves_call (hk : t.kind = .rule r follow precedence) :
    input.Moves t i item ↔ item.state = follow ∧ input.Reaches t.target i item.position := by
  obtain ⟨b, k⟩ := item
  constructor
  · rintro ⟨hik, hkc, hx⟩
    dsimp only at hik hkc hx
    refine ⟨?_, hik, hkc, ?_⟩ <;> generalize input.word i k = v at hx <;> cases hx with
    | free hf => simp [hk, EdgeKind.isFree] at hf
    | take hm => simp [hk, Network.Matches, EdgeKind.Matches] at hm
    | call hk' hc =>
      rw [hk] at hk'
      cases hk'
      first | rfl | exact hc
  · rintro ⟨hb, hik, hkc, hspans⟩
    dsimp only at hb
    subst hb
    exact ⟨hik, hkc, .call hk hspans⟩

theorem moves_take (hlt : input.caretPlace < input.tokens.size) (hk : t.kind.isConsuming = true)
    (hi : i ≤ input.caretPlace) :
    input.Moves t i item ↔ i ≠ input.caretPlace ∧ input.network.Matches t.kind (input.tokenAt i).2 ∧
      item = ⟨t.target, i + 1⟩ := by
  obtain ⟨b, k⟩ := item
  constructor
  · rintro ⟨hik, hkc, hx⟩
    dsimp only at hik hkc hx
    have hlen : (input.word i k).length = k - i := length_word (by omega)
    generalize hw : input.word i k = v at hx hlen
    cases hx with
    | free hf => cases hk' : t.kind <;> simp_all [EdgeKind.isFree, EdgeKind.isConsuming]
    | take hm =>
      rw [List.length_singleton] at hlen
      obtain rfl : k = i + 1 := by omega
      rw [word_succ (by omega)] at hw
      rw [List.singleton_inj.1 hw]
      exact ⟨by omega, hm, rfl⟩
    | call hk' _ => simp [hk', EdgeKind.isConsuming] at hk
  · rintro ⟨hne, hm, he⟩
    cases he
    refine ⟨Nat.le_succ _, Nat.lt_of_le_of_ne hi hne, ?_⟩
    rw [word_succ (by omega)]
    exact .take hm

/-- Before the caret an edge is taken by the walk if it takes the token. -/
theorem taken_iff (h : input.Regular levels) (hi : i < input.caretPlace) {types : TokenSet}
    (hl : input.network.label? t.kind = some types) :
    (t.kind == .wildcard || types.contains (input.tokenAt i).2) = true ↔
      input.network.Matches t.kind (input.tokenAt i).2 := by
  have hknown := h.known i hi
  rw [Bool.or_eq_true]
  constructor
  · rintro (hw | hmem)
    · rw [show t.kind = .wildcard by simpa using hw]
      exact hknown
    · exact Network.matches_of_label hl hmem
  · intro hm
    have hreal : TokenType.epsilon ≤ (input.tokenAt i).2 :=
      Int.le_trans (by decide : TokenType.epsilon ≤ TokenType.firstUser) hknown.1
    obtain ⟨types', hl', hmem⟩ := Network.label?_of_matches hm hreal
    rw [hl] at hl'
    cases hl'
    exact .inr hmem

/-! What the walk does at one place. -/

theorem checkStop_eq (h : input.Regular levels) (hw : input.Remembers w) :
    input.checkStop w = (false, w) := by
  unfold checkStop
  rw [if_neg (by simp [hw.running]), if_neg (by simp [h.stop])]

theorem shown_filter (h : input.Regular levels) (types : List TokenType) :
    (types.filter fun t => !input.isIgnored t) = types := by
  rw [List.filter_eq_self]
  intro t _
  simp [isIgnored, h.ignored]

/-- Types are offered. -/
theorem learns_offer (h : input.Regular levels) (hw : input.Remembers w)
    {add : Candidates → TokenType → Candidates} (ha : Candidates.Adds add) (calls : List OpenRule)
    (types : TokenSet) :
    input.Learns w (input.offer calls types.toList add w) fun token => token ∈ types := by
  unfold offer
  rw [preferredOn_eq_none h.preferred]
  dsimp only
  rw [shown_filter h]
  exact hw.learns ha.cancelled_foldl fun token => by rw [ha.mem_foldl, TokenSet.mem_toList]

/-- An edge at the caret adds its types. -/
theorem learns_addEdge (h : input.Regular levels) (hw : input.Remembers w) (calls : List OpenRule)
    (t : Transition) (types : TokenSet) :
    input.Learns w (input.addEdge calls t types w) fun token => token ∈ types := by
  rw [addEdge_eq]
  exact learns_offer h hw (adds_addOnEdge t types) calls types

/-- An edge reports its types at the caret; one with an empty label has none to report. -/
theorem report_eq (h : input.Regular levels) (hi : i ≤ input.caretPlace) {types : TokenSet}
    (hl : input.network.label? t.kind = some types) (calls : List OpenRule) (w : CandidateWalk) :
    input.report calls i t w = if i = input.caretPlace then input.addEdge calls t types w else w := by
  have hat := h.atCaret_iff hi
  unfold report
  rw [hl]
  dsimp only
  by_cases hcaret : i = input.caretPlace
  · rw [if_pos hcaret, hat.2 hcaret, Bool.true_and]
    split
    · rfl
    · rename_i hnone
      have hempty : types = ∅ := by
        rw [← TokenSet.isEmpty_iff]
        by_contra he
        exact hnone (by simp [he])
      rw [addEdge_eq, offer, preferredOn_eq_none h.preferred, hempty]
      rfl
  · rw [if_neg hcaret, Bool.eq_false_iff.2 (fun h => hcaret (hat.1 h)), Bool.false_and,
      if_neg (by decide)]

/-- An edge that is no call shows nothing but its own types. -/
theorem edgeShows_plain (hcall : t.call? = none) :
    input.EdgeShows t i token ↔
      i = input.caretPlace ∧ TokenType.epsilon ≤ token ∧ input.network.Matches t.kind token := by
  refine or_iff_left ?_
  rintro ⟨r, follow, precedence, hk, -⟩
  simp [Transition.call?, hk] at hcall

theorem learns_report (h : input.Regular levels) (hw : input.Remembers w) (hcall : t.call? = none)
    (hi : i ≤ input.caretPlace) (calls : List OpenRule) :
    input.Learns w (input.report calls i t w) (input.EdgeShows t i) := by
  cases hl : input.network.label? t.kind with
  | none =>
    rw [report, hl]
    refine (Learns.refl hw).congr fun token => ?_
    rw [edgeShows_plain hcall, false_iff]
    rintro ⟨-, htoken, hm⟩
    obtain ⟨types, hl', -⟩ := Network.label?_of_matches hm htoken
    rw [hl] at hl'
    cases hl'
  | some types =>
    rw [report_eq h hi hl]
    split
    · rename_i hcaret
      refine (learns_addEdge h hw calls t types).congr fun token => ?_
      rw [edgeShows_plain hcall, Network.mem_label_iff hl, and_iff_right hcaret]
    · rename_i hcaret
      refine (Learns.refl hw).congr fun token => ?_
      rw [edgeShows_plain hcall, false_iff]
      exact fun hshows => hcaret hshows.1

/-- A free edge is always passed. -/
theorem past_of_free (input : CompletionInput) (floor : Option Int) (i : Nat) (hk : t.kind.isFree = true) :
    t.call? = none ∧ input.past floor i t = [⟨t.target, i⟩] := by
  obtain ⟨target, kind⟩ := t
  cases kind with
  | epsilon | action _ _ => exact ⟨rfl, rfl⟩
  | _ => cases hk

/-- Past an edge that is no call the walk goes on where it can stand. -/
theorem mem_past_iff (h : input.Regular levels) (ht : t ∈ (input.network.state s).transitions)
    (hcall : t.call? = none) (hi : i ≤ input.caretPlace) {floor : Option Int} :
    item ∈ input.past floor i t ↔ input.Moves t i item := by
  rcases h.ungated.kind ht with hk | hk | ⟨r, follow, precedence, hk⟩
  · rw [(past_of_free input floor i hk).2, moves_free h.caretPlace_lt hk hi, List.mem_singleton]
  · obtain ⟨types, hl⟩ : ∃ types, input.network.label? t.kind = some types :=
      Option.isSome_iff_exists.1 (EdgeKind.label?_isSome.trans hk)
    rw [moves_take h.caretPlace_lt hk hi, past_of_label hl]
    by_cases hcaret : i = input.caretPlace
    · simp [hcaret, (h.atCaret_iff (Nat.le_refl _)).2 rfl]
    · have hat : input.atCaret i = false :=
        Bool.eq_false_iff.2 fun hat => hcaret ((h.atCaret_iff hi).1 hat)
      rw [← taken_iff h (Nat.lt_of_le_of_ne hi hcaret) hl, hat, Bool.not_false, Bool.true_and]
      split
      · rename_i htaken
        simp [hcaret, htaken]
      · rename_i htaken
        simp [htaken]
  · simp [Transition.call?, hk] at hcall

/-- What a rule begins with is added at the caret. -/
theorem learns_addBeginnings (h : input.Regular levels) (hw : input.Remembers w)
    (calls : List OpenRule) (startIndex : Nat) (sets : Array FollowSet) :
    input.Learns w (input.addBeginnings calls startIndex sets w) (FollowSets.Lists sets) := by
  rw [addBeginnings_eq]
  refine (?_ : input.Learns w _ fun token => ∃ set ∈ sets.toList, token ∈ set.types).congr
    (by simp [FollowSets.Lists])
  induction sets.toList generalizing w with
  | nil => exact (Learns.refl hw).congr (by simp)
  | cons set rest ih =>
    have hset : input.Learns w (input.offer (callsTo calls startIndex set) set.types.toList
        (input.addOfSet set) w) fun token => token ∈ set.types :=
      learns_offer h hw (adds_addOfSet set) _ set.types
    exact (hset.trans (ih hset.remembers)).congr (by simp)

/-! One part of the walk with so much fuel: what it answers is exact. -/

def RuleExact (input : CompletionInput) (fuel : Nat) : Prop :=
  ∀ r i outer floor precedence w ends w',
    input.walkRule fuel r i outer floor precedence w = some (ends, w') →
    r < input.network.rules.size → i ≤ input.caretPlace → input.Remembers w →
    (∀ j, j ∈ ends ↔ input.Reaches (input.network.rule r).start i j) ∧
      input.Learns w w' (input.Shown (input.network.rule r).start i)

def ItemsExact (input : CompletionInput) (fuel : Nat) : Prop :=
  ∀ calls floor items found w found' w',
    input.walkItems fuel calls floor items found w = some (found', w') →
    (∀ item ∈ items, item.position ≤ input.caretPlace) → input.Remembers w →
    (∀ j, j ∈ found' ↔ j ∈ found ∨ ∃ item ∈ items, input.Reaches item.state item.position j) ∧
      input.Learns w w' fun token => ∃ item ∈ items, input.Shown item.state item.position token

def EdgesExact (input : CompletionInput) (fuel : Nat) : Prop :=
  ∀ calls floor i s edges items w items' w',
    input.walkEdges fuel calls floor i edges items w = some (items', w') →
    (∀ t ∈ edges, t ∈ (input.network.state s).transitions) → i ≤ input.caretPlace →
    input.Remembers w →
    (∀ item, item ∈ items' ↔ item ∈ items ∨ ∃ t ∈ edges, input.Moves t i item) ∧
      input.Learns w w' fun token => ∃ t ∈ edges, input.EdgeShows t i token

section

variable {fuel : Nat} {calls : List OpenRule} {floor : Option Int} {edges : List Transition}
  {items items' : List WalkItem} {result : Option (List WalkItem × CandidateWalk)}

/-- The first edge, and then the others. -/
theorem EdgesExact.cons (ih : input.EdgesExact fuel) {items₁ : List WalkItem} {w₁ : CandidateWalk}
    (hrun : input.walkEdges fuel calls floor i edges items₁ w₁ = some (items', w'))
    (hedges : ∀ u ∈ t :: edges, u ∈ (input.network.state s).transitions) (hi : i ≤ input.caretPlace)
    (hitems : ∀ item, item ∈ items₁ ↔ item ∈ items ∨ input.Moves t i item)
    (hlearns : input.Learns w w₁ (input.EdgeShows t i)) :
    (∀ item, item ∈ items' ↔ item ∈ items ∨ ∃ u ∈ t :: edges, input.Moves u i item) ∧
      input.Learns w w' fun token => ∃ u ∈ t :: edges, input.EdgeShows u i token := by
  obtain ⟨h₁, h₂⟩ := ih _ _ _ s _ _ _ _ _ hrun (fun u hu => hedges u (.tail _ hu)) hi hlearns.remembers
  refine ⟨fun item => ?_, (hlearns.trans h₂).congr (by simp)⟩
  rw [h₁, hitems, or_assoc]
  simp

/-- A call goes on where the rule it enters can end. -/
theorem edge_call_exact (h : input.Regular levels) (ihr : input.RuleExact fuel)
    (ihe : input.EdgesExact fuel) (hk : t.kind = .rule r follow precedence)
    (hrun : input.walkEdges (fuel + 1) calls floor i (t :: edges) items w = some (items', w'))
    (hedges : ∀ u ∈ t :: edges, u ∈ (input.network.state s).transitions) (hi : i ≤ input.caretPlace)
    (hw : input.Remembers w) :
    (∀ item, item ∈ items' ↔ item ∈ items ∨ ∃ u ∈ t :: edges, input.Moves u i item) ∧
      input.Learns w w' fun token => ∃ u ∈ t :: edges, input.EdgeShows u i token := by
  obtain ⟨hr, htarget⟩ := h.shaped.call s t (hedges t (.head _)) r follow precedence hk
  rw [walkEdges_call hk] at hrun
  obtain ⟨⟨ends, w₁⟩, hrule, hrun⟩ := Option.bind_eq_some_iff.1 hrun
  obtain ⟨hends, hlearns⟩ := ihr _ _ _ _ _ _ _ _ hrule hr hi hw
  refine ihe.cons hrun hedges hi (fun item => ?_) (hlearns.congr fun token => ?_)
  · rw [List.mem_append, mem_backAt, hends, moves_call hk, htarget, or_comm]
  · constructor
    · intro hshown
      rw [← htarget] at hshown
      exact .inr ⟨r, follow, precedence, hk, hshown⟩
    · rintro (⟨-, -, hm⟩ | ⟨r', follow', precedence', hk', hshown⟩)
      · simp [hk, Network.Matches, EdgeKind.Matches] at hm
      · rw [hk] at hk'
        cases hk'
        rwa [htarget] at hshown

/-- The edges of a state are followed exactly. -/
theorem edges_exact (h : input.Regular levels) (ihr : input.RuleExact fuel)
    (ihe : input.EdgesExact fuel) : input.EdgesExact (fuel + 1) := by
  intro calls floor i s edges items w items' w' hrun hedges hi hw
  cases edges with
  | nil =>
    rw [walkEdges_nil] at hrun
    cases hrun
    exact ⟨by simp, (Learns.refl hw).congr (by simp)⟩
  | cons t edges =>
    cases hcall : t.call? with
    | none =>
      rw [walkEdges_plain hcall] at hrun
      refine ihe.cons hrun hedges hi (fun item => ?_) (learns_report h hw hcall hi _)
      rw [List.mem_append, mem_past_iff h (hedges t (.head _)) hcall hi, or_comm]
    | some call =>
      obtain ⟨r, follow, precedence, hk⟩ := exists_of_call? hcall
      exact edge_call_exact h ihr ihe hk hrun hedges hi hw

/-- The items are gone on from exactly. -/
theorem items_exact (h : input.Regular levels) (ihi : input.ItemsExact fuel)
    (ihe : input.EdgesExact fuel) : input.ItemsExact (fuel + 1) := by
  intro calls floor items found w found' w' hrun hitems hw
  cases items with
  | nil =>
    rw [walkItems_nil] at hrun
    cases hrun
    exact ⟨by simp, (Learns.refl hw).congr (by simp)⟩
  | cons item items =>
    have hi := hitems item (.head _)
    have hrest := fun x hx => hitems x (List.mem_cons_of_mem item hx)
    rw [walkItems_cons, checkStop_eq h hw] at hrun
    dsimp only at hrun
    split at hrun
    · rename_i hstop
      obtain ⟨h₁, h₂⟩ := ihi _ _ _ _ _ _ _ hrun hrest hw
      refine ⟨fun j => ?_, h₂.congr fun token => ?_⟩
      · rw [h₁, mem_insertAscending]
        simp [reaches_stop h hstop hi, or_assoc, or_left_comm]
      · simp [not_shown_stop h hstop]
    · rename_i hstop
      rw [Bool.not_eq_true] at hstop
      obtain ⟨⟨items₁, w₁⟩, hedges, hrun⟩ := Option.bind_eq_some_iff.1 hrun
      obtain ⟨hmem, hlearns⟩ := ihe _ _ _ _ _ _ _ _ _ hedges (fun _ ht => ht) hi hw
      have hpositions : ∀ x ∈ items₁, x.position ≤ input.caretPlace := by
        intro x hx
        rcases (hmem x).1 hx with hx | ⟨t, -, hmove⟩
        · exact hrest x hx
        · exact hmove.2.1
      obtain ⟨h₁, h₂⟩ := ihi _ _ _ _ _ _ _ hrun hpositions hlearns.remembers
      refine ⟨fun j => ?_, (hlearns.trans h₂).congr fun token => ?_⟩
      · rw [h₁]
        simp only [hmem, List.mem_cons, exists_eq_or_imp, reaches_iff h hstop]
        grind
      · simp only [hmem, List.mem_cons, exists_eq_or_imp, shown_iff h hi]
        grind

/-- At the caret a rule is answered from what it begins with. -/
theorem caret_exact (h : input.Regular levels) (hr : r < input.network.rules.size)
    (hw : input.Remembers w) {calls : List OpenRule} {ends : List Nat}
    (hrun : input.atCaretIn calls r input.caretPlace w = (ends, w')) :
    (∀ j, j ∈ ends ↔ input.Reaches (input.network.rule r).start input.caretPlace j) ∧
      input.Learns w w' (input.Shown (input.network.rule r).start input.caretPlace) := by
  have hexhaustive := Network.exhaustive_followSets h.shaped h.checked h.ungated hr
  have hlists : ∀ token, TokenType.epsilon ≤ token →
      (FollowSets.Lists (input.network.followSets r).sets token ↔
        input.network.Offers (input.network.rule r).start [] token) :=
    fun _ => Network.lists_followSets h.shaped h.checked h.ungated hr
  have hpreferred : input.options.preferred.contains r = false := by
    simp [h.preferred]
  unfold atCaretIn at hrun
  simp only [h.sets r hr, hpreferred, Bool.false_eq_true, if_false] at hrun
  obtain ⟨rfl, rfl⟩ := Prod.mk.inj hrun
  refine ⟨fun j => ?_, (learns_addBeginnings h hw calls _ _).congr fun token => ?_⟩
  · have hreaches : input.Reaches (input.network.rule r).start input.caretPlace j ↔
        j = input.caretPlace ∧ (input.network.followSets r).isExhaustive = false := by
      rw [hexhaustive]
      constructor
      · rintro ⟨hle, hge, hspans⟩
        obtain rfl : j = input.caretPlace := Nat.le_antisymm hge hle
        rw [word_self] at hspans
        exact ⟨rfl, hspans⟩
      · rintro ⟨rfl, hspans⟩
        refine ⟨Nat.le_refl _, Nat.le_refl _, ?_⟩
        rwa [word_self]
    rw [hreaches]
    cases (input.network.followSets r).isExhaustive <;> simp
  · unfold Shown
    rw [word_self]
    constructor
    · rintro ⟨set, hset, hmem⟩
      have htoken := TokenSet.epsilon_le_of_mem hmem
      exact ⟨htoken, (hlists token htoken).1 ⟨set, hset, hmem⟩⟩
    · exact fun ⟨htoken, ho⟩ => (hlists token htoken).2 ho

/-- A rule that cannot begin with the token leads nowhere. -/
theorem refused_exact (h : input.Regular levels) (hr : r < input.network.rules.size)
    (hi : i < input.caretPlace) (hrefused : input.refuses r i = true) :
    (∀ j, ¬ input.Reaches (input.network.rule r).start i j) ∧
      ∀ token, ¬ input.Shown (input.network.rule r).start i token := by
  have hlt := h.caretPlace_lt
  rw [refuses, h.sets r hr, Bool.and_eq_true, Bool.not_eq_true'] at hrefused
  obtain ⟨hfull, hno⟩ := hrefused
  have hreal : TokenType.epsilon ≤ (input.tokenAt i).2 :=
    Int.le_trans (by decide : TokenType.epsilon ≤ TokenType.firstUser) (h.known i hi).1
  have hnone : ¬ input.network.Offers (input.network.rule r).start [] (input.tokenAt i).2 := by
    intro ho
    rw [← Network.lists_followSets h.shaped h.checked h.ungated hr hreal,
      ← FollowSets.contains_combined, hno] at ho
    cases ho
  have hhead : ∀ j, i < j → input.word i j = (input.tokenAt i).2 :: input.word (i + 1) j := by
    intro j hj
    rw [word_append (k := i + 1) (Nat.le_succ i) hj, word_succ (by omega)]
    rfl
  constructor
  · rintro j ⟨hij, hj, hspans⟩
    rcases Nat.eq_or_lt_of_le hij with rfl | hij
    · rw [word_self] at hspans
      rw [(Network.exhaustive_followSets h.shaped h.checked h.ungated hr).2 hspans] at hfull
      cases hfull
    · rw [hhead j hij] at hspans
      obtain ⟨e, he, -⟩ := (Network.spans_iff h.ungated).1 hspans
      exact hnone (he.offers_head h.ungated)
  · rintro token ⟨-, ho⟩
    rw [hhead _ hi] at ho
    exact hnone (ho.head h.ungated)

/-- What is found of a rule can be remembered. -/
theorem Remembers.insert (h : input.Remembers w) {found : List Nat}
    (hfound : ∀ j, j ∈ found ↔ input.Reaches (input.network.rule r).start i j)
    (hshown : ∀ token, input.Shown (input.network.rule r).start i token →
      token ∈ w.candidates.tokens) :
    input.Remembers { w with ends := w.ends.insert (r, i) found } := by
  refine ⟨h.running, fun r' i' known hk hr => ?_⟩
  rw [Std.HashMap.getElem?_insert] at hk
  split at hk
  · rename_i he
    obtain ⟨rfl, rfl⟩ := Prod.mk.inj (eq_of_beq he)
    cases hk
    exact ⟨hfound, hshown⟩
  · exact h.ends r' i' known hk hr

/-- A rule is walked through exactly. -/
theorem rule_exact (h : input.Regular levels) (ihi : input.ItemsExact fuel) :
    input.RuleExact (fuel + 1) := by
  intro r i outer floor precedence w ends w' hrun hr hi hw
  cases hknown : w.ends[(r, i)]? with
  | some known =>
    rw [walkRule_of_known hknown] at hrun
    cases hrun
    obtain ⟨h₁, h₂⟩ := hw.ends r i ends hknown hr
    exact ⟨h₁, hw, fun token => ⟨.inl, fun ht => ht.elim id (h₂ token)⟩⟩
  | none =>
    rw [walkRule_of_new hknown, checkStop_eq h hw] at hrun
    dsimp only at hrun
    split at hrun
    · rename_i hat
      obtain rfl := (h.atCaret_iff hi).1 hat
      exact caret_exact h hr hw (Option.some.inj hrun)
    · rename_i hat
      have hlt : i < input.caretPlace :=
        Nat.lt_of_le_of_ne hi fun he => hat ((h.atCaret_iff hi).2 he)
      split at hrun
      · rename_i hrefused
        cases hrun
        obtain ⟨h₁, h₂⟩ := refused_exact h hr hlt hrefused
        exact ⟨by simp [h₁], (Learns.refl hw).congr (by simp [h₂])⟩
      · obtain ⟨⟨found, w₁⟩, hitems, he⟩ := Option.map_eq_some_iff.1 hrun
        cases he
        obtain ⟨h₁, h₂⟩ := ihi _ _ _ _ _ _ _ hitems (by simpa using hi) hw
        have hfound : ∀ j, j ∈ found ↔ input.Reaches (input.network.rule r).start i j := by
          intro j
          rw [h₁]
          simp
        have hlearns : input.Learns w w₁ (input.Shown (input.network.rule r).start i) :=
          h₂.congr (by simp)
        unfold CandidateWalk.remember
        rw [if_neg (by simp [h₂.remembers.running])]
        refine ⟨hfound, ?_, hlearns.tokens⟩
        exact h₂.remembers.insert hfound fun token ht => (hlearns.tokens token).2 (.inr ht)

end

/-- Whatever the fuel: what the walk answers is exact. -/
theorem walk_exact (h : input.Regular levels) (fuel : Nat) :
    input.RuleExact fuel ∧ input.ItemsExact fuel ∧ input.EdgesExact fuel := by
  induction fuel with
  | zero =>
    refine ⟨?_, ?_, ?_⟩
    · intro r i outer floor precedence w ends w' hrun
      rw [walkRule] at hrun
      cases hrun
    · intro calls floor items found w found' w' hrun
      rw [walkItems] at hrun
      cases hrun
    · intro calls floor i s edges items w items' w' hrun
      rw [walkEdges] at hrun
      cases hrun
  | succ fuel ih =>
    obtain ⟨ihr, ihi, ihe⟩ := ih
    exact ⟨rule_exact h ihi, items_exact h ihi ihe, edges_exact h ihr ihe⟩

/-- What a walk has of its tokens: the types before the caret, and that of the caret token. -/
theorem word_of_types {before : List TokenType} {last : TokenType}
    (h : input.tokens.toList.map Prod.snd = before ++ [last]) :
    input.tokens.size = before.length + 1 ∧ input.word 0 input.caretPlace = before := by
  have hsize := congrArg List.length h
  rw [List.length_map, List.length_append, Array.length_toList] at hsize
  refine ⟨hsize, ?_⟩
  rw [word, caretPlace, h, hsize]
  exact List.take_left

theorem mem_of_types {before : List TokenType} {last : TokenType}
    (h : input.tokens.toList.map Prod.snd = before ++ [last]) (hi : i < input.caretPlace) :
    (input.tokenAt i).2 ∈ before := by
  have hlt : i < before.length := by
    have := (word_of_types h).1
    unfold caretPlace at hi
    omega
  have hat : (input.tokens.toList.map Prod.snd)[i]? = some before[i] := by
    rw [h, List.getElem?_append_left hlt, List.getElem?_eq_getElem hlt]
  rw [List.getElem?_map, Array.getElem?_toList] at hat
  obtain ⟨x, hx, hkind⟩ := Option.map_eq_some_iff.1 hat
  rw [tokenAt, Array.getD_eq_getD_getElem?, hx, Option.getD_some, hkind]
  exact List.getElem_mem hlt

end CompletionInput

/-- The tokens up to the caret token are those before it, and one more. -/
theorem tokensToCaret_mapIdx {e : Token} (he : e.channel = defaultChannel)
    (caret : Nat) (tokens : List Token) (k : Nat)
    (hchannel : ∀ t ∈ tokens, t.channel = defaultChannel) (hreal : ∀ t ∈ tokens, t.isEof = false) :
    ∃ last, (tokensToCaret caret ((tokens ++ [e]).mapIdx fun i t => { t with index := some (k + i) })).map
      Prod.snd = (tokens.take (caret - k)).map Token.kind ++ [last] := by
  induction tokens generalizing k with
  | nil =>
    refine ⟨e.kind, ?_⟩
    simp [tokensToCaret, he]
  | cons t tokens ih =>
    have ht : ({ t with index := some k } : Token).isEof = false := hreal t (.head _)
    have hshift : (fun (i : Nat) (t : Token) => { t with index := some (k + (i + 1)) }) =
        fun (i : Nat) (t : Token) => { t with index := some (k + 1 + i) } := by
      funext i t
      rw [Nat.add_assoc, Nat.add_comm 1 i]
    rw [List.cons_append, List.mapIdx_cons, hshift, tokensToCaret,
      if_pos (show ({ t with index := some (k + 0) } : Token).channel = defaultChannel from
        hchannel t (.head _))]
    simp only [Nat.add_zero, Option.getD_some, ht, Bool.or_false, decide_eq_true_eq]
    by_cases hcaret : caret ≤ k
    · refine ⟨t.kind, ?_⟩
      rw [if_pos hcaret, Nat.sub_eq_zero_of_le hcaret]
      rfl
    · obtain ⟨last, hlast⟩ := ih (k + 1) (fun u hu => hchannel u (.tail _ hu))
        (fun u hu => hreal u (.tail _ hu))
      refine ⟨last, ?_⟩
      rw [if_neg hcaret, List.map_cons, hlast, show caret - k = caret - (k + 1) + 1 by omega,
        List.take_succ_cons]
      rfl

/-- Visible tokens before the end of input: up to the caret token there are those before it. -/
theorem tokensToCaret_ofTokens {tokens : Array Token} (caret : Nat)
    (hchannel : ∀ t ∈ tokens, t.channel = defaultChannel) (hreal : ∀ t ∈ tokens, t.isEof = false) :
    ∃ last, (tokensToCaret caret (TokenCursor.ofTokens tokens defaultChannel).tokens.toList).map Prod.snd =
      (tokens.toList.take caret).map Token.kind ++ [last] := by
  have hopen : tokens.back?.any Token.isEof = false := by
    cases hb : tokens.back? with
    | none => rfl
    | some t => exact hreal t (Array.mem_of_back? hb)
  have hclosing : (TokenCursor.closing tokens).channel = defaultChannel := by
    unfold TokenCursor.closing
    split <;> rfl
  have htokens : (TokenCursor.ofTokens tokens defaultChannel).tokens.toList =
      (tokens.toList ++ [TokenCursor.closing tokens]).mapIdx fun i t => { t with index := some (0 + i) } := by
    simp [TokenCursor.ofTokens, TokenCursor.number, TokenCursor.close, hopen]
  rw [htokens]
  exact tokensToCaret_mapIdx hclosing caret tokens.toList 0
    (fun t ht => hchannel t (Array.mem_toList_iff.1 ht)) (fun t ht => hreal t (Array.mem_toList_iff.1 ht))

/-- A grammar without rules has no edges. -/
theorem Grammar.no_edges {g : Grammar} {c : CompiledGrammar} (h : g.compile = .ok c)
    (hrules : g.rules.size = 0) (s : StateId) : (c.network.state s).transitions = [] := by
  obtain ⟨names, rules⟩ := g
  obtain rfl : rules = #[] := Array.eq_empty_of_size_eq_zero hrules
  have hdraft : (Grammar.mk names #[]).draft = .ok { maxType := names.maxType } := rfl
  unfold compile at h
  rw [hdraft] at h
  change (Draft.build { maxType := names.maxType } >>= fun network => pure { network, names }) = .ok c at h
  cases hb : Draft.build { maxType := names.maxType } with
  | error e =>
    rw [hb] at h
    cases h
  | ok n =>
    rw [hb] at h
    cases h
    obtain ⟨-, hstates, -⟩ := Draft.build_eq_ok hb
    have hsize : n.states.size = 0 := by
      rw [hstates, Draft.size_skeleton]
      rfl
    simp [Network.state, Array.getD_eq_getD_getElem?, Array.eq_empty_of_size_eq_zero hsize]
    rfl

namespace CompiledGrammar

/-- After the tokens some way through the first rule can take a token of this type before the rule ends. -/
def CanTake (c : CompiledGrammar) (tokens : List TokenType) (token : TokenType) : Prop :=
  ∃ p, c.network.Reads ⟨(c.network.rule 0).start, 0, []⟩ tokens p ∧
    ∃ t ∈ (c.network.state p.state).transitions, c.network.Matches t.kind token

theorem word_completion (c : CompiledGrammar) (predicates : Predicates) (options : CompletionOptions)
    {tokens : List (Nat × TokenType)} {before : List TokenType} {last : TokenType}
    (htypes : tokens.map Prod.snd = before ++ [last]) :
    (c.completion predicates options tokens).word 0
      (c.completion predicates options tokens).caretPlace = before := by
  have htypes : (c.completion predicates options tokens).tokens.toList.map Prod.snd = before ++ [last] :=
    htypes
  exact (CompletionInput.word_of_types htypes).2

/-- A completion over known types, in a grammar whose edges are under no condition, begins as it should. -/
theorem regular_completion {g : Grammar} {c : CompiledGrammar} (hg : g.compile = .ok c)
    (hu : c.network.Ungated) (predicates : Predicates) (innermostFirst : Bool)
    {tokens : List (Nat × TokenType)} {before : List TokenType} {last : TokenType}
    (htypes : tokens.map Prod.snd = before ++ [last])
    (hknown : ∀ k ∈ before, TokenType.firstUser ≤ k ∧ k ≤ c.network.maxType) :
    (c.completion predicates { innermostFirst } tokens).Regular g.HasLevel := by
  have htypes : (c.completion predicates { innermostFirst } tokens).tokens.toList.map Prod.snd =
      before ++ [last] := htypes
  refine ⟨(Grammar.shaped_compile hg).1, Grammar.checked_compile hg, hu, fun r hr => ?_, rfl, rfl, rfl,
    ?_, ?_⟩
  · exact followSets_completion.trans (if_pos hr)
  · rw [(CompletionInput.word_of_types htypes).1]
    exact Nat.succ_pos _
  · exact fun i hi => hknown _ (CompletionInput.mem_of_types htypes hi)

/-- In a grammar whose edges are under no condition, whatever the predicates and the caret: when the walk
is done, the types it offers are those that can be taken after the tokens before the caret. -/
theorem offered_iff {g : Grammar} {c : CompiledGrammar} (hg : g.compile = .ok c)
    (hu : c.network.Ungated) (predicates : Predicates) (innermostFirst : Bool) {tokens : Array Token}
    (hchannel : ∀ t ∈ tokens, t.channel = defaultChannel)
    (hknown : ∀ t ∈ tokens, TokenType.firstUser ≤ t.kind ∧ t.kind ≤ c.network.maxType)
    (caret fuel : Nat) {found : Candidates}
    (h : c.complete predicates { innermostFirst } (.ofTokens tokens defaultChannel) caret none fuel =
      some found) (token : TokenType) :
    token ∈ found.tokens ↔
      TokenType.epsilon ≤ token ∧ c.CanTake ((tokens.toList.take caret).map Token.kind) token := by
  obtain ⟨-, hcount⟩ := Grammar.shaped_compile hg
  have hreal : ∀ t ∈ tokens, t.isEof = false := by
    intro t ht
    have := (hknown t ht).1
    rw [Bool.eq_false_iff]
    intro he
    rw [TokenType.isEof_iff.1 he] at this
    exact absurd this (by decide)
  obtain ⟨last, hlast⟩ := tokensToCaret_ofTokens caret hchannel hreal
  have hbefore : ∀ k ∈ (tokens.toList.take caret).map Token.kind,
      TokenType.firstUser ≤ k ∧ k ≤ c.network.maxType := by
    intro k hk
    obtain ⟨t, ht, rfl⟩ := List.mem_map.1 hk
    exact hknown t (Array.mem_toList_iff.1 (List.mem_of_mem_take ht))
  have htypes : (covered (.ofTokens tokens defaultChannel) caret none).map Prod.snd =
      (tokens.toList.take caret).map Token.kind ++ [last] := hlast
  generalize (tokens.toList.take caret).map Token.kind = before at htypes hbefore ⊢
  rcases complete_cases h with ⟨hempty, rfl⟩ | ⟨hfull, ⟨ends, w⟩, hwalk, rfl⟩
  · -- without rules there is nothing to take
    have hcovered : (covered (.ofTokens tokens defaultChannel) caret none).isEmpty = false := by
      rw [List.isEmpty_eq_false_iff]
      rintro he
      simp [he] at htypes
    have hrules : g.rules.size = 0 := by
      rw [← hcount]
      simpa [hcovered] using hempty
    constructor
    · intro hmem
      exact absurd hmem Std.TreeMap.not_mem_emptyc
    · rintro ⟨-, p, -, t, ht, -⟩
      rw [Grammar.no_edges hg hrules] at ht
      cases ht
  · have hrules : firstRule none < c.network.rules.size :=
      firstRule_lt (Bool.or_eq_false_iff.1 hfull).1 (by simp)
    have hregular := regular_completion hg hu predicates innermostFirst htypes hbefore
    have hempty : (c.completion predicates { innermostFirst }
        (covered (.ofTokens tokens defaultChannel) caret none)).Remembers {} :=
      ⟨rfl, fun r i known hk => by simp at hk⟩
    obtain ⟨-, hlearns⟩ := (CompletionInput.walk_exact hregular fuel).1 _ 0 [] none 0 {} ends w hwalk
      hrules (Nat.zero_le _) hempty
    rw [hlearns.tokens, or_iff_right Std.TreeMap.not_mem_emptyc, CompletionInput.Shown,
      word_completion c _ _ htypes]
    exact and_congr_right fun _ => Network.offers_iff hu 0

end CompiledGrammar

/-- After A the grammar `nested` offers B, and nothing else. -/
theorem offered_nested : ∃ found,
    CompiledGrammar.complete nestedSetting.grammar .always {} (.ofTokens #[{ kind := 1 }] defaultChannel)
      1 none 30 = some found ∧
    ∀ token, token ∈ found.tokens ↔
      TokenType.epsilon ≤ token ∧ nestedSetting.grammar.CanTake [1] token := by
  have hdone : (CompiledGrammar.complete nestedSetting.grammar .always {}
      (.ofTokens #[{ kind := 1 }] defaultChannel) 1 none 30).isSome = true := by cbv
  obtain ⟨found, hfound⟩ := Option.isSome_iff_exists.1 hdone
  exact ⟨found, hfound, CompiledGrammar.offered_iff compile_nested (by decide) .always false (by decide)
    (by decide) 1 30 hfound⟩

/-- `e` is MINUS `e` X, MINUS `e`, `e` PLUS, or ID. After MINUS its operand is entered in two ways, with
different floors. -/
def twoFloors : Grammar :=
  let (minus, g) := ({} : Grammar).addToken "MINUS"
  let (plus, g) := g.addToken "PLUS"
  let (id, g) := g.addToken "ID"
  let (x, g) := g.addToken "X"
  let (e, g) := g.addRule "e"
  g.define e (.leftRecursive [.primary [.token minus, .rule e, .token x], .prefixed [.token minus],
    .suffix [.token plus], .primary [.token id]])

def twoFloorsDraft : Draft where
  states := #[⟨.ruleStart, 0, [⟨14, .epsilon⟩], none, false⟩, ⟨.ruleStop, 0, [], none, false⟩,
    ⟨.basic, 0, [⟨3, .atom 1⟩], none, false⟩, ⟨.basic, 0, [⟨4, .epsilon⟩], none, false⟩,
    ⟨.basic, 0, [⟨0, .rule 0 5 0⟩], none, false⟩, ⟨.basic, 0, [⟨6, .epsilon⟩], none, false⟩,
    ⟨.basic, 0, [⟨7, .atom 4⟩], none, false⟩, ⟨.basic, 0, [⟨15, .epsilon⟩], none, false⟩,
    ⟨.basic, 0, [⟨9, .atom 1⟩], none, false⟩, ⟨.basic, 0, [⟨10, .epsilon⟩], none, false⟩,
    ⟨.basic, 0, [⟨0, .rule 0 11 3⟩], none, false⟩, ⟨.basic, 0, [⟨15, .epsilon⟩], none, false⟩,
    ⟨.basic, 0, [⟨13, .atom 3⟩], none, false⟩, ⟨.basic, 0, [⟨15, .epsilon⟩], none, false⟩,
    ⟨.blockStart, 0, [⟨2, .epsilon⟩, ⟨8, .epsilon⟩, ⟨12, .epsilon⟩], none, false⟩,
    ⟨.blockEnd, 0, [⟨19, .epsilon⟩], none, false⟩, ⟨.basic, 0, [⟨17, .precedence 2⟩], none, false⟩,
    ⟨.basic, 0, [⟨18, .atom 2⟩], none, false⟩, ⟨.basic, 0, [⟨21, .epsilon⟩], none, false⟩,
    ⟨.starLoopEntry, 0, [⟨20, .epsilon⟩, ⟨23, .epsilon⟩], none, true⟩,
    ⟨.starBlockStart, 0, [⟨16, .epsilon⟩], none, false⟩, ⟨.blockEnd, 0, [⟨22, .epsilon⟩], none, false⟩,
    ⟨.starLoopBack, 0, [⟨19, .epsilon⟩], none, false⟩, ⟨.loopEnd, 0, [⟨1, .epsilon⟩], none, false⟩]
  rules := #[⟨⟨"e", 0, 1, true⟩, true⟩]
  maxType := 4

theorem draft_twoFloors : twoFloors.draft = .ok twoFloorsDraft := by cbv

theorem check_twoFloors : twoFloorsDraft.check = .ok () := by
  have hnullable : twoFloorsDraft.nullableRules = Array.replicate 1 false := by
    refine Draft.nullableRules_of_stop (by cbv) fun r hr => ?_
    obtain rfl : r = 0 := by omega
    cbv
  have hcycle : twoFloorsDraft.leftRecursion? = none := by
    unfold Draft.leftRecursion? Draft.leftCalls
    rw [hnullable]
    cbv
  unfold Draft.check
  rw [hcycle]
  cbv

/-- The network of `twoFloors`, with some table of next tokens. -/
def twoFloorsGrammar (nextTokens : Array TokenSet) : CompiledGrammar :=
  ⟨{ twoFloorsDraft.skeleton with nextTokens }, twoFloors.names⟩

theorem compile_twoFloors : ∃ nextTokens, twoFloors.compile = .ok (twoFloorsGrammar nextTokens) :=
  ⟨_, Grammar.compile_of_check draft_twoFloors check_twoFloors⟩

/-- MINUS ID PLUS X is a beginning of `e`: the operand takes ID PLUS at floor zero. -/
theorem canTake_twoFloors (nextTokens : Array TokenSet) :
    (twoFloorsGrammar nextTokens).CanTake [1, 3, 2] 4 := by
  have hstart : ((twoFloorsGrammar nextTokens).network.rule 0).start = 0 := by
    rw [show (twoFloorsGrammar nextTokens).network.rule 0 = twoFloorsDraft.skeleton.rule 0 from rfl,
      Draft.rule_skeleton]
    rfl
  generalize hn : (twoFloorsGrammar nextTokens).network = n at hstart
  have hfree : ∀ {p p' : Place} (t : Transition), t ∈ (twoFloorsDraft.skeleton.state p.state).transitions →
      p.follow? t = some p' → n.Step p [] p' := by
    subst hn
    exact fun _ ht hf => .free ht hf
  have htake : ∀ {p : Place} (t : Transition) (token : TokenType),
      t ∈ (twoFloorsDraft.skeleton.state p.state).transitions → t.kind = .atom token →
      n.Step p [token] { p with state := t.target } := by
    subst hn
    exact fun t token ht hk => .take ht (by rw [hk]; rfl)
  have hback : n.Step ⟨1, 0, [⟨5, 0⟩]⟩ [] ⟨5, 0, []⟩ := by
    subst hn
    exact @Network.Step.back _ _ ⟨5, 0⟩ [] rfl rfl
  -- MINUS, and the call with floor zero
  have hcall : n.Reads ⟨0, 0, []⟩ [1] ⟨0, 0, [⟨5, 0⟩]⟩ :=
    .head (hfree ⟨14, .epsilon⟩ (by decide) rfl) <| .head (hfree ⟨2, .epsilon⟩ (by decide) rfl) <|
    .head (htake ⟨3, .atom 1⟩ 1 (by decide) rfl) <| .head (hfree ⟨4, .epsilon⟩ (by decide) rfl) <|
    .head (hfree ⟨0, .rule 0 5 0⟩ (by decide) rfl) .refl
  have hprimary : n.Reads ⟨0, 0, [⟨5, 0⟩]⟩ [3] ⟨19, 0, [⟨5, 0⟩]⟩ :=
    .head (hfree ⟨14, .epsilon⟩ (by decide) rfl) <| .head (hfree ⟨12, .epsilon⟩ (by decide) rfl) <|
    .head (htake ⟨13, .atom 3⟩ 3 (by decide) rfl) <| .head (hfree ⟨15, .epsilon⟩ (by decide) rfl) <|
    .head (hfree ⟨19, .epsilon⟩ (by decide) rfl) .refl
  -- the level of PLUS is open at floor zero
  have hround : n.Reads ⟨19, 0, [⟨5, 0⟩]⟩ [2] ⟨19, 0, [⟨5, 0⟩]⟩ :=
    .head (hfree ⟨20, .epsilon⟩ (by decide) rfl) <| .head (hfree ⟨16, .epsilon⟩ (by decide) rfl) <|
    .head (hfree ⟨17, .precedence 2⟩ (by decide) rfl) <|
    .head (htake ⟨18, .atom 2⟩ 2 (by decide) rfl) <| .head (hfree ⟨21, .epsilon⟩ (by decide) rfl) <|
    .head (hfree ⟨22, .epsilon⟩ (by decide) rfl) <| .head (hfree ⟨19, .epsilon⟩ (by decide) rfl) .refl
  have hend : n.Reads ⟨19, 0, [⟨5, 0⟩]⟩ [] ⟨6, 0, []⟩ :=
    .head (hfree ⟨23, .epsilon⟩ (by decide) rfl) <| .head (hfree ⟨1, .epsilon⟩ (by decide) rfl) <|
    .head hback <| .head (hfree ⟨6, .epsilon⟩ (by decide) rfl) .refl
  refine ⟨⟨6, 0, []⟩, ?_, ⟨7, .atom 4⟩, ?_, ?_⟩
  · rw [hn, hstart]
    exact ((hcall.trans hprimary).trans hround).trans hend
  · subst hn
    exact .head _
  · subst hn
    rfl

theorem complete_twoFloors (nextTokens : Array TokenSet) :
    ((twoFloorsGrammar nextTokens).complete .always {}
      (.ofTokens #[{ kind := 1 }, { kind := 3 }, { kind := 2 }] defaultChannel) 3 none 60).map
        (fun found => found.tokens.contains 4) = some false := by cbv

/-- With an operator that a floor can close, what is remembered of a rule entered with one floor stands for
another: X is not offered after MINUS ID PLUS, although it can be taken there. -/
theorem candidate_missed : ∃ c, twoFloors.compile = .ok c ∧ c.CanTake [1, 3, 2] 4 ∧
    ∃ found, c.complete .always {}
      (.ofTokens #[{ kind := 1 }, { kind := 3 }, { kind := 2 }] defaultChannel) 3 none 60 = some found ∧
      4 ∉ found.tokens := by
  obtain ⟨nextTokens, hcompile⟩ := compile_twoFloors
  obtain ⟨found, hfound, hmem⟩ := Option.map_eq_some_iff.1 (complete_twoFloors nextTokens)
  refine ⟨_, hcompile, canTake_twoFloors nextTokens, found, hfound, ?_⟩
  rw [← Std.TreeMap.contains_iff_mem, hmem]
  decide

end AdaptiveParsing
