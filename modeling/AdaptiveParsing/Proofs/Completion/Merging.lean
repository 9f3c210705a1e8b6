import AdaptiveParsing.Proofs.Completion.Exactness
/-!
The run after a type is merged from the runs of its edges. What is known of a type is told in parts, each by
an edge at the caret or by a rule that is entered there (`Tells`); the two are merged in different ways. The
parts that a walk tells are those of the edges it could take at the caret, those of a remembered rule among
them (`CompletionInput.walk_teaches`). Main statement: in a grammar whose edges are under no condition every
run reported is one that the runs of all its edges begin with, and where these merge it is all they have in
common (`CompiledGrammar.complete_following`).
-/

namespace AdaptiveParsing

/-- What is known of a type, after it has been told these runs, each on an edge or (`fresh`) by a rule that
is entered at the caret. -/
structure Tells (known : Option (List TokenType)) (told : List TokenType → Bool → Prop) : Prop where
  some_iff : known.isSome = true ↔ ∃ run fresh, told run fresh
  begins : ∀ following, known = some following → ∀ run fresh, told run fresh → following <+: run
  /-- Told on edges only, or one run only, it knows all that the runs have in common. -/
  greatest : ∀ following, known = some following →
    ((∀ run fresh, told run fresh → fresh = false) ∨ ∃ only, ∀ run fresh, told run fresh → run = only) →
    ∀ common, (∀ run fresh, told run fresh → common <+: run) → common <+: following

namespace Tells

variable {known f : List TokenType} {answer : Option (List TokenType)}
  {told told' : List TokenType → Bool → Prop}

theorem congr (h : Tells answer told) (he : ∀ run fresh, told run fresh ↔ told' run fresh) :
    Tells answer told' := by
  obtain rfl : told = told' := by
    funext run fresh
    exact propext (he run fresh)
  exact h

theorem nothing : Tells none fun _ _ => False :=
  ⟨by simp, fun _ h => (nomatch h), fun _ h => (nomatch h)⟩

/-- The first run it is told is what it knows. -/
theorem first (h : Tells none told) (fresh : Bool) :
    Tells (some f) fun run fresh' => told run fresh' ∨ run = f ∧ fresh' = fresh := by
  have hno : ∀ run fresh, ¬ told run fresh := by
    intro run fresh ht
    have := h.some_iff.2 ⟨run, fresh, ht⟩
    cases this
  refine ⟨⟨fun _ => ⟨f, fresh, .inr ⟨rfl, rfl⟩⟩, fun _ => rfl⟩, ?_, ?_⟩
  · rintro following ⟨⟩ run fresh' ht
    obtain ⟨rfl, -⟩ := ht.resolve_left (hno run fresh')
    exact List.prefix_refl _
  · rintro following ⟨⟩ - common hcommon
    exact hcommon f fresh (.inr ⟨rfl, rfl⟩)

/-- Told a run on an edge, it keeps the common start. -/
theorem onEdge (h : Tells (some known) told) :
    Tells (some (commonStart known f)) fun run fresh => told run fresh ∨ run = f ∧ fresh = false := by
  obtain ⟨hknown, hf⟩ := prefix_commonStart.1 (List.prefix_refl (commonStart known f))
  refine ⟨⟨fun _ => ⟨f, false, .inr ⟨rfl, rfl⟩⟩, fun _ => rfl⟩, ?_, ?_⟩
  · rintro following ⟨⟩ run fresh (ht | ⟨rfl, -⟩)
    · exact hknown.trans (h.begins known rfl run fresh ht)
    · exact hf
  · rintro following ⟨⟩ hmerge common hcommon
    refine prefix_commonStart.2 ⟨?_, hcommon f false (.inr ⟨rfl, rfl⟩)⟩
    refine h.greatest known rfl ?_ common fun run fresh ht => hcommon run fresh (.inl ht)
    exact hmerge.imp (fun hm run fresh ht => hm run fresh (.inl ht))
      fun ⟨only, hm⟩ => ⟨only, fun run fresh ht => hm run fresh (.inl ht)⟩

/-- Told a run by a rule, it keeps what it knows only if that is the run. -/
theorem byRule (h : Tells (some known) told) :
    Tells (some (if known = f then known else []))
      fun run fresh => told run fresh ∨ run = f ∧ fresh = true := by
  refine ⟨⟨fun _ => ⟨f, true, .inr ⟨rfl, rfl⟩⟩, fun _ => rfl⟩, ?_, ?_⟩
  · rintro following ⟨⟩ run fresh ht
    split
    · rename_i hsame
      rcases ht with ht | ⟨rfl, -⟩
      · exact h.begins known rfl run fresh ht
      · rw [hsame]
    · exact List.nil_prefix
  · rintro following ⟨⟩ hmerge common hcommon
    have hf := hcommon f true (.inr ⟨rfl, rfl⟩)
    rcases hmerge with hm | ⟨only, hm⟩
    · exact absurd (hm f true (.inr ⟨rfl, rfl⟩)) (by decide)
    · -- all runs it was told are this one, which is then what it knows
      obtain rfl : f = only := hm f true (.inr ⟨rfl, rfl⟩)
      have hrun : ∀ run fresh, told run fresh → run = f := fun run fresh ht => hm run fresh (.inl ht)
      obtain ⟨run, fresh, ht⟩ := h.some_iff.1 rfl
      have hle : known <+: f := hrun run fresh ht ▸ h.begins known rfl run fresh ht
      have hge : f <+: known := h.greatest known rfl (.inr ⟨f, hrun⟩) f fun run fresh ht => by
        rw [hrun run fresh ht]
      have hsame : known = f := hle.eq_of_length_le hge.length_le
      rwa [if_pos hsame, hsame]

/-- Told that anything may follow, it knows nothing. -/
theorem anything : Tells (some []) fun run fresh => told run fresh ∨ run = [] ∧ fresh = false := by
  refine ⟨⟨fun _ => ⟨[], false, .inr ⟨rfl, rfl⟩⟩, fun _ => rfl⟩, ?_, ?_⟩
  · rintro following ⟨⟩ run fresh -
    exact List.nil_prefix
  · rintro following ⟨⟩ - common hcommon
    exact hcommon [] false (.inr ⟨rfl, rfl⟩)

end Tells

namespace Candidates

variable {c : Candidates} {token : TokenType} {told : List TokenType → Bool → Prop}
  {add : Candidates → TokenType → Candidates} {run : List TokenType} {fresh : Bool}

/-- A way to add a type that tells it this run, and tells the other types nothing. -/
structure AddsRun (add : Candidates → TokenType → Candidates) (run : List TokenType) (fresh : Bool) :
    Prop where
  other : ∀ c t token, t ≠ token → (add c t).tokens[token]? = c.tokens[token]?
  tells : ∀ c t told, Tells c.tokens[t]? told →
    Tells (add c t).tokens[t]? fun r f => told r f ∨ r = run ∧ f = fresh

theorem addsRun_alter {f : Option (List TokenType) → Option (List TokenType)}
    (hf : ∀ known told, Tells known told → Tells (f known) fun r f => told r f ∨ r = run ∧ f = fresh) :
    AddsRun (fun c t => { c with tokens := c.tokens.alter t f }) run fresh := by
  refine ⟨fun c t token hne => ?_, fun c t told h => ?_⟩
  · rw [Std.TreeMap.getElem?_alter, if_neg (by rwa [Std.LawfulEqCmp.compare_eq_iff_eq])]
  · rw [Std.TreeMap.getElem?_alter, if_pos Std.ReflCmp.compare_self]
    exact hf _ told h

theorem addsRun_addFromRule : AddsRun (fun c t => c.addFromRule t run) run true :=
  addsRun_alter fun known _ h => match known with
    | none => h.first true
    | some _ => h.byRule

theorem addsRun_addFromEdge : AddsRun (fun c t => c.addFromEdge t run) run false :=
  addsRun_alter fun known _ h => match known with
    | none => h.first false
    | some _ => h.onEdge

theorem addsRun_addOpen : AddsRun addOpen [] false := by
  refine ⟨fun c t token hne => ?_, fun c t told h => ?_⟩
  · rw [addOpen, Std.TreeMap.getElem?_insert, if_neg (by rwa [Std.LawfulEqCmp.compare_eq_iff_eq])]
  · rw [addOpen, Std.TreeMap.getElem?_insert, if_pos Std.ReflCmp.compare_self]
    exact .anything

/-- Types that are added are told the run, and the others nothing. -/
theorem AddsRun.foldl (ha : AddsRun add run fresh) (types : List TokenType)
    (h : Tells c.tokens[token]? told) : Tells (types.foldl add c).tokens[token]?
      fun r f => told r f ∨ token ∈ types ∧ r = run ∧ f = fresh := by
  induction types generalizing c told with
  | nil => exact h.congr (by simp)
  | cons t types ih =>
    rw [List.foldl_cons]
    by_cases ht : t = token
    · subst ht
      exact (ih (ha.tells c t told h)).congr (by simp; tauto)
    · rw [← ha.other c t token ht] at h
      exact (ih h).congr (by simp [Ne.symm ht])

end Candidates

namespace Network

variable {n : Network} {a : StateId} {t u : Transition} {token : TokenType}

/-- The run that is reported of a type on the edge: none for a wildcard, nor for an edge with several types
unless a rule is entered at the caret before it. -/
def shownRun (n : Network) (t : Transition) (fresh : Bool) : List TokenType :=
  if t.kind = .wildcard then []
  else if fresh || (n.label? t.kind).any fun types => types.size = 1 then n.fixedRun t.target
  else []

theorem shownRun_prefix (t : Transition) (fresh : Bool) : n.shownRun t fresh <+: n.fixedRun t.target := by
  unfold shownRun
  split
  · exact List.nil_prefix
  · split
    · exact List.prefix_refl _
    · exact List.nil_prefix

/-- Before any token the edges that come next are those that ways without a token come to. -/
theorem presents_iff_sights (hu : n.Ungated) : (∃ fresh, n.Presents a [] u fresh) ↔ n.Sights a u := by
  rw [presents_iff hu 0]
  constructor
  · rintro ⟨p, hp, ht⟩
    exact ⟨p.state, _, hp.drifts, ht⟩
  · rintro ⟨s, returns, h, ht⟩
    obtain ⟨p, hp, rfl, -⟩ := h.reads hu
    exact ⟨p, hp, ht⟩

/-- What is collected of an edge for a rule. -/
theorem followedBy_followSet? {path : List RuleId} {set : FollowSet} (h : n.followSet? t path = some set) :
    set.followedBy = n.shownRun t true := by
  unfold followSet? at h
  unfold shownRun
  split at h
  · cases h
  · split at h
    · rename_i hk
      cases h
      rw [if_pos hk]
    · rename_i hk
      split at h
      · cases h
      · cases h
        rw [if_neg hk, if_pos (by simp)]

end Network

namespace CompletionInput

variable {input : CompletionInput} {token : TokenType} {levels : RuleId → Int → Prop}
  {w w' w'' : CandidateWalk} {new new' told told' : List TokenType → Bool → Prop} {i : Nat} {s : StateId}
  {t : Transition} {r : RuleId} {run : List TokenType} {fresh : Bool}

/-- From a state at a place the caret token can be of this type on an edge, which shows this run. -/
def RunsFrom (input : CompletionInput) (token : TokenType) (s : StateId) (i : Nat) (run : List TokenType)
    (fresh : Bool) : Prop :=
  TokenType.epsilon ≤ token ∧ ∃ t, input.network.Presents s (input.word i input.caretPlace) t fresh ∧
    input.network.Matches t.kind token ∧ run = input.network.shownRun t fresh

/-- The same in a rule that is entered at the place, from its start. -/
def RunsIn (input : CompletionInput) (token : TokenType) (s : StateId) (i : Nat) (run : List TokenType)
    (fresh : Bool) : Prop :=
  TokenType.epsilon ≤ token ∧ ∃ t inner, input.network.Presents s (input.word i input.caretPlace) t inner ∧
    input.network.Matches t.kind token ∧ fresh = (inner || decide (i = input.caretPlace)) ∧
    run = input.network.shownRun t fresh

/-- The same on an edge, or in the rule it enters. -/
def RunsOn (input : CompletionInput) (token : TokenType) (t : Transition) (i : Nat)
    (run : List TokenType) (fresh : Bool) : Prop :=
  (i = input.caretPlace ∧ fresh = false ∧ TokenType.epsilon ≤ token ∧ input.network.Matches t.kind token ∧
      run = input.network.shownRun t false) ∨
    ∃ r follow precedence, t.kind = .rule r follow precedence ∧ input.RunsIn token t.target i run fresh

/-- What is known of the type comes from these runs, and those in a rule that is remembered are among them. -/
structure Hears (input : CompletionInput) (token : TokenType) (told : List TokenType → Bool → Prop)
    (w : CandidateWalk) : Prop where
  tells : Tells w.candidates.tokens[token]? told
  remembered : ∀ r i known, w.ends[(r, i)]? = some known → r < input.network.rules.size →
    ∀ run fresh, input.RunsIn token (input.network.rule r).start i run fresh → told run fresh

/-- A part of a walk that tells these runs. -/
def Teaches (input : CompletionInput) (token : TokenType) (w w' : CandidateWalk)
    (new : List TokenType → Bool → Prop) : Prop :=
  ∀ told, input.Hears token told w → input.Hears token (fun run fresh => told run fresh ∨ new run fresh) w'

theorem Hears.congr (h : input.Hears token told w) (he : ∀ run fresh, told run fresh ↔ told' run fresh) :
    input.Hears token told' w :=
  ⟨h.tells.congr he, fun r i known hk hr run fresh ht =>
    (he run fresh).1 (h.remembered r i known hk hr run fresh ht)⟩

namespace Teaches

theorem congr (h : input.Teaches token w w' new) (he : ∀ run fresh, new run fresh ↔ new' run fresh) :
    input.Teaches token w w' new' :=
  fun told hw => (h told hw).congr fun run fresh => by rw [he]

theorem refl (w : CandidateWalk) : input.Teaches token w w fun _ _ => False :=
  fun _ hw => hw.congr (by simp)

theorem trans (h : input.Teaches token w w' new) (h' : input.Teaches token w' w'' new') :
    input.Teaches token w w'' fun run fresh => new run fresh ∨ new' run fresh :=
  fun told hw => (h' _ (h told hw)).congr fun run fresh => by rw [or_assoc]

/-- A part that tells nothing, since there is nothing to tell. -/
theorem of_not (hno : ∀ run fresh, ¬ new run fresh) : input.Teaches token w w new :=
  (refl w).congr fun run fresh => iff_of_false id (hno run fresh)

end Teaches

/-! Where the runs from a state come from. -/

theorem RunsFrom.shown (h : input.RunsFrom token s i run fresh) : input.Shown s i token := by
  obtain ⟨htoken, t, hpresents, hm, -⟩ := h
  exact ⟨htoken, hpresents.offers hm⟩

theorem RunsIn.shown (h : input.RunsIn token s i run fresh) : input.Shown s i token := by
  obtain ⟨htoken, t, inner, hpresents, hm, -⟩ := h
  exact ⟨htoken, hpresents.offers hm⟩

/-- Before the caret it makes no difference that a rule is entered. -/
theorem runsIn_iff_of_lt (hi : i < input.caretPlace) :
    input.RunsIn token s i run fresh ↔ input.RunsFrom token s i run fresh := by
  have hno : decide (i = input.caretPlace) = false := decide_eq_false (Nat.ne_of_lt hi)
  constructor
  · rintro ⟨htoken, t, inner, hpresents, hm, hfresh, hrun⟩
    rw [hno, Bool.or_false] at hfresh
    exact ⟨htoken, t, hfresh ▸ hpresents, hm, hrun⟩
  · rintro ⟨htoken, t, hpresents, hm, hrun⟩
    exact ⟨htoken, t, fresh, hpresents, hm, by rw [hno, Bool.or_false], hrun⟩

theorem word_isEmpty (h : input.Regular levels) (hi : i ≤ input.caretPlace) :
    (input.word i input.caretPlace).isEmpty = decide (i = input.caretPlace) := by
  have hlen : (input.word i input.caretPlace).length = input.caretPlace - i :=
    length_word (Nat.le_of_lt h.caretPlace_lt)
  rw [Bool.eq_iff_iff, List.isEmpty_iff_length_eq_zero, hlen, decide_eq_true_eq]
  omega

theorem runsFrom_iff (h : input.Regular levels) (hi : i ≤ input.caretPlace) :
    input.RunsFrom token s i run fresh ↔
      (∃ t ∈ (input.network.state s).transitions, input.RunsOn token t i run fresh) ∨
        ∃ t ∈ (input.network.state s).transitions, ∃ item,
          input.Moves t i item ∧ input.RunsFrom token item.state item.position run fresh := by
  have hlt := h.caretPlace_lt
  constructor
  · rintro ⟨htoken, u, hpresents, hm, hrun⟩
    have hempty := word_isEmpty h hi
    generalize hw : input.word i input.caretPlace = v at hpresents hempty
    cases hpresents with
    | here ht =>
      have hcaret : i = input.caretPlace := by simpa using hempty
      exact .inl ⟨u, ht, .inl ⟨hcaret, rfl, htoken, hm, hrun⟩⟩
    | @enter _ _ t _ r follow precedence inner ht hk hinner =>
      subst hw
      rw [hempty] at hrun
      exact .inl ⟨t, ht, .inr ⟨r, follow, precedence, hk, htoken, u, inner, hinner, hm, by rw [hempty],
        by rw [hempty, hrun]⟩⟩
    | @step _ b v w t _ _ ht hx hnext =>
      obtain ⟨k, hik, hkj, rfl, rfl⟩ := exists_of_word_append hw hi (by omega)
      exact .inr ⟨t, ht, ⟨b, k⟩, ⟨hik, hkj, hx⟩, htoken, u, hnext, hm, hrun⟩
  · rintro (⟨t, ht, ⟨rfl, rfl, htoken, hm, hrun⟩ |
      ⟨r, follow, precedence, hk, htoken, u, inner, hpresents, hm, hfresh, hrun⟩⟩ |
      ⟨t, ht, ⟨b, k⟩, ⟨hik, hk, hx⟩, htoken, u, hpresents, hm, hrun⟩)
    · refine ⟨htoken, t, ?_, hm, hrun⟩
      rw [word_self]
      exact .here ht
    · refine ⟨htoken, u, ?_, hm, hrun⟩
      rw [hfresh, ← word_isEmpty h hi]
      exact .enter ht hk hpresents
    · refine ⟨htoken, u, ?_, hm, hrun⟩
      rw [word_append hik hk]
      exact .step ht hx hpresents

/-! What each part of the walk tells. -/

theorem visibleRun_eq (h : input.Regular levels) (run : List TokenType) : input.visibleRun run = run := by
  simp [visibleRun, isIgnored, h.ignored, List.takeWhile_eq_self_iff]

/-- Types are offered with a run. -/
theorem teaches_offer (h : input.Regular levels) {add : Candidates → TokenType → Candidates}
    (ha : Candidates.AddsRun add run fresh) (calls : List OpenRule) (types : TokenSet) (w : CandidateWalk) :
    input.Teaches token w (input.offer calls types.toList add w)
      fun r f => token ∈ types ∧ r = run ∧ f = fresh := by
  intro told hw
  unfold offer
  rw [preferredOn_eq_none h.preferred]
  dsimp only
  rw [shown_filter h]
  refine ⟨(ha.foldl types.toList hw.tells).congr fun r f => by rw [TokenSet.mem_toList], ?_⟩
  exact fun r i known hk hr run fresh ht => .inl (hw.remembered r i known hk hr run fresh ht)

theorem addsRun_addOnEdge (h : input.Regular levels) {types : TokenSet}
    (hl : input.network.label? t.kind = some types) :
    Candidates.AddsRun (input.addOnEdge t types) (input.network.shownRun t false) false := by
  unfold addOnEdge Network.shownRun
  rw [hl, visibleRun_eq h]
  cases hk : t.kind with
  | wildcard => simpa using Candidates.addsRun_addOpen
  | _ => simpa using Candidates.addsRun_addFromEdge

/-- At the caret an edge tells its own run. -/
theorem teaches_report (h : input.Regular levels) (hcall : t.call? = none) (hi : i ≤ input.caretPlace)
    (calls : List OpenRule) (w : CandidateWalk) :
    input.Teaches token w (input.report calls i t w) (input.RunsOn token t i) := by
  have hruns : ∀ run fresh, i = input.caretPlace ∧ fresh = false ∧ TokenType.epsilon ≤ token ∧
      input.network.Matches t.kind token ∧ run = input.network.shownRun t false ↔
        input.RunsOn token t i run fresh := by
    intro run fresh
    refine (or_iff_left ?_).symm
    rintro ⟨r, follow, precedence, hk, -⟩
    simp [Transition.call?, hk] at hcall
  refine Teaches.congr ?_ hruns
  cases hl : input.network.label? t.kind with
  | none =>
    rw [report, hl]
    refine .of_not ?_
    rintro run fresh ⟨-, -, htoken, hm, -⟩
    obtain ⟨types, hl', -⟩ := Network.label?_of_matches hm htoken
    rw [hl] at hl'
    cases hl'
  | some types =>
    rw [report_eq h hi hl]
    split
    · rename_i hcaret
      rw [addEdge_eq]
      refine (teaches_offer h (addsRun_addOnEdge h hl) calls types w).congr fun run fresh => ?_
      rw [Network.mem_label_iff hl]
      tauto
    · rename_i hcaret
      exact .of_not fun run fresh hruns => hcaret hruns.1

theorem teaches_addBeginnings (h : input.Regular levels) (calls : List OpenRule) (startIndex : Nat)
    (sets : Array FollowSet) (w : CandidateWalk) :
    input.Teaches token w (input.addBeginnings calls startIndex sets w)
      fun run fresh => ∃ set ∈ sets, token ∈ set.types ∧ run = set.followedBy ∧ fresh = true := by
  rw [addBeginnings_eq]
  refine (?_ : input.Teaches token w _ fun run fresh => ∃ set ∈ sets.toList, token ∈ set.types ∧
    run = set.followedBy ∧ fresh = true).congr (by simp)
  induction sets.toList generalizing w with
  | nil => exact .of_not (by simp)
  | cons set rest ih =>
    have hadd : Candidates.AddsRun (input.addOfSet set) set.followedBy true := by
      unfold addOfSet
      rw [visibleRun_eq h]
      exact Candidates.addsRun_addFromRule
    exact ((teaches_offer h hadd _ set.types w).trans (ih _)).congr (by simp)

/-- The edges that a rule can begin with are those in its sets. -/
theorem runsIn_caret (h : input.Regular levels) (hr : r < input.network.rules.size) :
    input.RunsIn token (input.network.rule r).start input.caretPlace run fresh ↔
      ∃ set ∈ (input.network.followSets r).sets, token ∈ set.types ∧ run = set.followedBy ∧ fresh = true := by
  unfold RunsIn
  rw [word_self]
  constructor
  · rintro ⟨htoken, t, inner, hpresents, hm, hfresh, hrun⟩
    obtain rfl : fresh = true := by simpa using hfresh
    obtain ⟨types, hl, hmem⟩ := Network.label?_of_matches hm htoken
    obtain ⟨path, set, hset, htake⟩ := Network.listed_followSets h.shaped h.checked hr
      (Network.isSome_followSet? hl hmem) ((Network.presents_iff_sights h.ungated).1 ⟨inner, hpresents⟩)
    have hl' := Network.types_followSet? htake
    rw [hl] at hl'
    cases hl'
    exact ⟨set, hset, hmem, by rw [hrun, Network.followedBy_followSet? htake], rfl⟩
  · rintro ⟨set, hset, hmem, hrun, rfl⟩
    obtain ⟨s, ⟨returns, hdrifts⟩, t, ht, htake⟩ :=
      Network.mem_followSets (Network.lasts_drifts _) ⟨[], .refl⟩ hset
    obtain ⟨inner, hpresents⟩ := (Network.presents_iff_sights h.ungated).2 ⟨s, returns, hdrifts, ht⟩
    refine ⟨TokenSet.epsilon_le_of_mem hmem, t, inner, hpresents,
      Network.matches_of_label (Network.types_followSet? htake) hmem, by simp, ?_⟩
    rw [hrun, Network.followedBy_followSet? htake]

theorem teaches_atCaretIn (h : input.Regular levels) (hr : r < input.network.rules.size)
    (calls : List OpenRule) (w : CandidateWalk) :
    input.Teaches token w (input.atCaretIn calls r input.caretPlace w).2
      (input.RunsIn token (input.network.rule r).start input.caretPlace) := by
  have hpreferred : input.options.preferred.contains r = false := by
    simp [h.preferred]
  unfold atCaretIn
  simp only [h.sets r hr, hpreferred, Bool.false_eq_true, if_false]
  exact (teaches_addBeginnings h calls _ _ w).congr fun run fresh => (runsIn_caret h hr).symm

/-! One part of the walk with so much fuel: what it tells. -/

def RuleTeaches (input : CompletionInput) (token : TokenType) (fuel : Nat) : Prop :=
  ∀ r i outer floor precedence w ends w',
    input.walkRule fuel r i outer floor precedence w = some (ends, w') →
    r < input.network.rules.size → i ≤ input.caretPlace → input.Remembers w →
    input.Teaches token w w' (input.RunsIn token (input.network.rule r).start i)

def ItemsTeach (input : CompletionInput) (token : TokenType) (fuel : Nat) : Prop :=
  ∀ calls floor items found w found' w',
    input.walkItems fuel calls floor items found w = some (found', w') →
    (∀ item ∈ items, item.position ≤ input.caretPlace) → input.Remembers w →
    input.Teaches token w w' fun run fresh =>
      ∃ item ∈ items, input.RunsFrom token item.state item.position run fresh

def EdgesTeach (input : CompletionInput) (token : TokenType) (fuel : Nat) : Prop :=
  ∀ calls floor i s edges items w items' w',
    input.walkEdges fuel calls floor i edges items w = some (items', w') →
    (∀ t ∈ edges, t ∈ (input.network.state s).transitions) → i ≤ input.caretPlace →
    input.Remembers w →
    input.Teaches token w w' fun run fresh => ∃ t ∈ edges, input.RunsOn token t i run fresh

section

variable {fuel : Nat}

theorem edges_teach (h : input.Regular levels) (ihr : input.RuleTeaches token fuel)
    (ihe : input.EdgesTeach token fuel) : input.EdgesTeach token (fuel + 1) := by
  intro calls floor i s edges items w items' w' hrun hedges hi hw
  cases edges with
  | nil =>
    rw [walkEdges_nil] at hrun
    cases hrun
    exact .of_not (by simp)
  | cons t edges =>
    have hrest := fun u hu => hedges u (List.mem_cons_of_mem t hu)
    cases hcall : t.call? with
    | none =>
      rw [walkEdges_plain hcall] at hrun
      have hremembers := (learns_report h hw hcall hi calls.reverse).remembers
      exact ((teaches_report h hcall hi _ w).trans
        (ihe _ _ _ s _ _ _ _ _ hrun hrest hi hremembers)).congr (by simp)
    | some call =>
      obtain ⟨r, follow, precedence, hk⟩ := exists_of_call? hcall
      obtain ⟨hr, htarget⟩ := h.shaped.call s t (hedges t (.head _)) r follow precedence hk
      rw [walkEdges_call hk] at hrun
      obtain ⟨⟨ends, w₁⟩, hrule, hrun⟩ := Option.bind_eq_some_iff.1 hrun
      have hremembers := ((walk_exact h fuel).1 _ _ _ _ _ _ _ _ hrule hr hi hw).2.remembers
      have hon : ∀ run fresh, input.RunsIn token (input.network.rule r).start i run fresh ↔
          input.RunsOn token t i run fresh := by
        intro run fresh
        rw [← htarget]
        constructor
        · exact fun hruns => .inr ⟨r, follow, precedence, hk, hruns⟩
        · rintro (⟨-, -, -, hm, -⟩ | ⟨r', follow', precedence', -, hruns⟩)
          · simp [hk, Network.Matches, EdgeKind.Matches] at hm
          · exact hruns
      exact (((ihr _ _ _ _ _ _ _ _ hrule hr hi hw).congr hon).trans
        (ihe _ _ _ s _ _ _ _ _ hrun hrest hi hremembers)).congr (by simp)

theorem items_teach (h : input.Regular levels) (ihi : input.ItemsTeach token fuel)
    (ihe : input.EdgesTeach token fuel) : input.ItemsTeach token (fuel + 1) := by
  intro calls floor items found w found' w' hrun hitems hw
  cases items with
  | nil =>
    rw [walkItems_nil] at hrun
    cases hrun
    exact .of_not (by simp)
  | cons item items =>
    have hi := hitems item (.head _)
    have hrest := fun x hx => hitems x (List.mem_cons_of_mem item hx)
    rw [walkItems_cons, checkStop_eq h hw] at hrun
    dsimp only at hrun
    split at hrun
    · rename_i hstop
      refine (ihi _ _ _ _ _ _ _ hrun hrest hw).congr fun run fresh => ?_
      have hno : ¬ input.RunsFrom token item.state item.position run fresh :=
        fun hruns => not_shown_stop h hstop hruns.shown
      simp [hno]
    · obtain ⟨⟨items₁, w₁⟩, hedges, hrun⟩ := Option.bind_eq_some_iff.1 hrun
      obtain ⟨hmem, hlearns⟩ := (walk_exact h fuel).2.2 _ _ _ _ _ _ _ _ _ hedges (fun _ ht => ht) hi hw
      have hpositions : ∀ x ∈ items₁, x.position ≤ input.caretPlace := by
        intro x hx
        rcases (hmem x).1 hx with hx | ⟨t, -, hmove⟩
        · exact hrest x hx
        · exact hmove.2.1
      refine ((ihe _ _ _ _ _ _ _ _ _ hedges (fun _ ht => ht) hi hw).trans
        (ihi _ _ _ _ _ _ _ hrun hpositions hlearns.remembers)).congr fun run fresh => ?_
      simp only [hmem, List.mem_cons, exists_eq_or_imp, runsFrom_iff h hi]
      grind

theorem rule_teaches (h : input.Regular levels) (ihi : input.ItemsTeach token fuel) :
    input.RuleTeaches token (fuel + 1) := by
  intro r i outer floor precedence w ends w' hrun hr hi hw
  cases hknown : w.ends[(r, i)]? with
  | some known =>
    -- what is remembered has been told
    rw [walkRule_of_known hknown] at hrun
    obtain ⟨-, rfl⟩ := Prod.mk.inj (Option.some.inj hrun)
    intro told hhears
    refine hhears.congr fun run fresh => ?_
    exact (or_iff_left_of_imp (hhears.remembered r i known hknown hr run fresh)).symm
  | none =>
    rw [walkRule_of_new hknown, checkStop_eq h hw] at hrun
    dsimp only at hrun
    split at hrun
    · rename_i hat
      obtain rfl := (h.atCaret_iff hi).1 hat
      have hw' := congrArg Prod.snd (Option.some.inj hrun)
      dsimp only at hw'
      rw [← hw']
      exact teaches_atCaretIn h hr _ w
    · rename_i hat
      have hlt : i < input.caretPlace :=
        Nat.lt_of_le_of_ne hi fun he => hat ((h.atCaret_iff hi).2 he)
      split at hrun
      · rename_i hrefused
        cases hrun
        obtain ⟨-, hno⟩ := refused_exact h hr hlt hrefused
        exact .of_not fun run fresh hruns => hno token hruns.shown
      · obtain ⟨⟨found, w₁⟩, hitems, he⟩ := Option.map_eq_some_iff.1 hrun
        cases he
        have hpositions : ∀ item ∈ [(⟨(input.network.rule r).start, i⟩ : WalkItem)],
            item.position ≤ input.caretPlace := by
          simpa using hi
        have hrunning := ((walk_exact h fuel).2.1 _ _ _ _ _ _ _ hitems hpositions hw).2.remembers.running
        have hteaches : input.Teaches token w w₁ (input.RunsIn token (input.network.rule r).start i) :=
          (ihi _ _ _ _ _ _ _ hitems hpositions hw).congr fun run fresh => by
            rw [runsIn_iff_of_lt hlt]
            simp
        intro told hhears
        obtain ⟨htells, hremembered⟩ := hteaches told hhears
        unfold CandidateWalk.remember
        rw [if_neg (by simp [hrunning])]
        refine ⟨htells, fun r' i' known hk hr' run fresh hruns => ?_⟩
        rw [Std.HashMap.getElem?_insert] at hk
        split at hk
        · rename_i heq
          obtain ⟨rfl, rfl⟩ := Prod.mk.inj (eq_of_beq heq)
          exact .inr hruns
        · exact hremembered r' i' known hk hr' run fresh hruns

end

/-- Whatever the fuel: the walk tells every run. -/
theorem walk_teaches (h : input.Regular levels) (token : TokenType) (fuel : Nat) :
    input.RuleTeaches token fuel ∧ input.ItemsTeach token fuel ∧ input.EdgesTeach token fuel := by
  induction fuel with
  | zero =>
    refine ⟨?_, ?_, ?_⟩
    · intro r i outer floor precedence w ends w' hrun
      rw [walkRule] at hrun
      cases hrun
    · intro calls floor items found w found' w' hrun
      rw [walkItems] at hrun
      cases hrun
    · intro calls floor i s edges items w items' w' hrun
      rw [walkEdges] at hrun
      cases hrun
  | succ fuel ih =>
    obtain ⟨ihr, ihi, ihe⟩ := ih
    exact ⟨rule_teaches h ihi, items_teach h ihi ihe, edges_teach h ihr ihe⟩

end CompletionInput

namespace CompiledGrammar

/-- The types of the tokens that a completion takes before the caret token. -/
def typesBefore (input : TokenCursor) (caret : Nat) (context : Option Invocation) : List TokenType :=
  (covered input caret context).dropLast.map Prod.snd

/-- After these tokens some way through the rule can take a token of this type on the edge. -/
def Takes (c : CompiledGrammar) (r : RuleId) (before : List TokenType) (token : TokenType)
    (t : Transition) : Prop :=
  ∃ p, c.network.Reads ⟨(c.network.rule r).start, 0, []⟩ before p ∧
    t ∈ (c.network.state p.state).transitions ∧ c.network.Matches t.kind token

/-- The same, and `fresh` tells whether on the way a rule is entered after the tokens. -/
def TakesIn (c : CompiledGrammar) (r : RuleId) (before : List TokenType) (token : TokenType)
    (t : Transition) (fresh : Bool) : Prop :=
  ∃ inner, c.network.Presents (c.network.rule r).start before t inner ∧
    c.network.Matches t.kind token ∧ fresh = (inner || before.isEmpty)

/-- Every edge for the type shows its run, and unless no rule is entered at the caret before such an edge,
all of them show the same. -/
structure Merges (c : CompiledGrammar) (r : RuleId) (before : List TokenType) (token : TokenType) :
    Prop where
  shown : ∀ t fresh, c.TakesIn r before token t fresh →
    c.network.shownRun t fresh = c.network.fixedRun t.target
  merged : (∀ t fresh, c.TakesIn r before token t fresh → fresh = false) ∨
    ∃ run, ∀ t, c.Takes r before token t → c.network.fixedRun t.target = run

variable {c : CompiledGrammar} {r : RuleId} {before : List TokenType} {token : TokenType} {t : Transition}

theorem takes_iff (hu : c.network.Ungated) :
    c.Takes r before token t ↔ ∃ fresh, c.TakesIn r before token t fresh := by
  constructor
  · rintro ⟨p, hp, ht, hm⟩
    obtain ⟨inner, hpresents⟩ := Network.presents_of_reads hu hp ht
    exact ⟨_, inner, hpresents, hm, rfl⟩
  · rintro ⟨fresh, inner, hpresents, hm, -⟩
    obtain ⟨p, hp, ht⟩ := hpresents.reads hu 0
    exact ⟨p, hp, ht, hm⟩

/-- The runs merge if no rule is called and every edge for the type is for this type alone. -/
theorem merges_of_plain (hbefore : before ≠ [])
    (hplain : ∀ s, ∀ t ∈ (c.network.state s).transitions, t.call? = none ∧
      (c.network.Matches t.kind token → c.network.shownRun t false = c.network.fixedRun t.target)) :
    c.Merges r before token := by
  have hnext : ∀ {a w u inner}, c.network.Presents a w u inner →
      inner = false ∧ ∃ s, u ∈ (c.network.state s).transitions := by
    intro a w u inner h
    induction h with
    | here ht => exact ⟨rfl, _, ht⟩
    | enter ht hk _ _ =>
      have := (hplain _ _ ht).1
      simp [Transition.call?, hk] at this
    | step _ _ _ ih => exact ih
  have hfresh : ∀ t fresh, c.TakesIn r before token t fresh → fresh = false := by
    rintro t fresh ⟨inner, hpresents, -, rfl⟩
    simp [(hnext hpresents).1, hbefore]
  refine ⟨fun t fresh h => ?_, .inl hfresh⟩
  obtain rfl := hfresh t fresh h
  obtain ⟨inner, hpresents, hm, -⟩ := h
  obtain ⟨-, s, ht⟩ := hnext hpresents
  exact (hplain s t ht).2 hm

/-- What a walk from the start of a rule is told of a type is what is shown on its edges. -/
theorem tells_walk (token : TokenType) {g : Grammar} (hg : g.compile = .ok c) (hu : c.network.Ungated)
    {predicates : Predicates} {innermostFirst : Bool} {tokens : List (Nat × TokenType)} {last : TokenType}
    (htypes : tokens.map Prod.snd = before ++ [last])
    (hknown : ∀ k ∈ before, TokenType.firstUser ≤ k ∧ k ≤ c.network.maxType)
    (hr : r < c.network.rules.size) {fuel : Nat} {answer : List Nat × CandidateWalk}
    (h : (c.completion predicates { innermostFirst } tokens).walkRule fuel r 0 [] none 0 {} = some answer) :
    Tells answer.2.candidates.tokens[token]? fun run fresh => TokenType.epsilon ≤ token ∧
      ∃ t, c.TakesIn r before token t fresh ∧ run = c.network.shownRun t fresh := by
  have hregular := regular_completion hg hu predicates innermostFirst htypes hknown
  have hword := word_completion c predicates { innermostFirst } htypes
  have hempty : (c.completion predicates { innermostFirst } tokens).Remembers {} :=
    ⟨rfl, fun r i known hk => by simp at hk⟩
  have hnothing : (c.completion predicates { innermostFirst } tokens).Hears token (fun _ _ => False) {} :=
    ⟨by simpa using Tells.nothing, fun r i known hk => by simp at hk⟩
  have hheard := ((CompletionInput.walk_teaches hregular token fuel).1 r 0 [] none 0 {} _ _ h hr
    (Nat.zero_le _) hempty _ hnothing).tells
  refine hheard.congr fun run fresh => ?_
  rw [false_or, CompletionInput.RunsIn, ← CompletionInput.word_isEmpty hregular (Nat.zero_le _), hword]
  constructor
  · rintro ⟨htoken, t, inner, hpresents, hm, hfresh, hrun⟩
    exact ⟨htoken, t, ⟨inner, hpresents, hm, hfresh⟩, hrun⟩
  · rintro ⟨htoken, t, ⟨inner, hpresents, hm, hfresh⟩, hrun⟩
    exact ⟨htoken, t, inner, hpresents, hm, hfresh, hrun⟩

/-- In a grammar whose edges are under no condition, over known types before the caret: the run reported
after a type is one that the runs of all its edges begin with, and it is all that they have in common if
they merge. -/
theorem complete_following {g : Grammar} (hg : g.compile = .ok c) (hu : c.network.Ungated)
    (predicates : Predicates) (innermostFirst : Bool) (input : TokenCursor) (caret : Nat)
    (context : Option Invocation) (hcontext : ∀ outer ∈ context, outer.rule < c.network.rules.size)
    (hknown : ∀ k ∈ typesBefore input caret context,
      TokenType.firstUser ≤ k ∧ k ≤ c.network.maxType) {fuel : Nat} {found : Candidates}
    (h : c.complete predicates { innermostFirst } input caret context fuel = some found)
    {token : TokenType} {following : List TokenType} (hfollowing : found.tokens[token]? = some following) :
    (∀ t, c.Takes (firstRule context) (typesBefore input caret context) token t →
        following <+: c.network.fixedRun t.target) ∧
      (c.Merges (firstRule context) (typesBefore input caret context) token →
        ∀ common, (∀ t, c.Takes (firstRule context) (typesBefore input caret context) token t →
          common <+: c.network.fixedRun t.target) → common <+: following) := by
  rcases complete_cases h with ⟨-, rfl⟩ | ⟨hfull, answer, hwalk, rfl⟩
  · simp at hfollowing
  rw [Bool.or_eq_false_iff] at hfull
  have hne : covered input caret context ≠ [] := List.isEmpty_eq_false_iff.1 hfull.2
  have htypes : (covered input caret context).map Prod.snd =
      typesBefore input caret context ++ [((covered input caret context).getLast hne).2] := by
    rw [typesBefore, ← List.map_singleton, ← List.map_append, List.dropLast_append_getLast]
  have htells := tells_walk token hg hu htypes hknown (firstRule_lt hfull.1 hcontext) hwalk
  rw [hfollowing] at htells
  obtain ⟨-, -, htoken, -⟩ := htells.some_iff.1 rfl
  constructor
  · intro t ht
    obtain ⟨fresh, hin⟩ := (takes_iff hu).1 ht
    exact (htells.begins following rfl _ fresh ⟨htoken, t, hin, rfl⟩).trans
      (Network.shownRun_prefix t fresh)
  · rintro ⟨hshown, hmerged⟩ common hcommon
    refine htells.greatest following rfl ?_ common ?_
    · refine hmerged.imp (fun hold => ?_) (fun ⟨only, honly⟩ => ⟨only, ?_⟩)
      · rintro run fresh ⟨-, t, hin, -⟩
        exact hold t fresh hin
      · rintro run fresh ⟨-, t, hin, rfl⟩
        rw [hshown t fresh hin]
        exact honly t ((takes_iff hu).2 ⟨fresh, hin⟩)
    · rintro run fresh ⟨-, t, hin, rfl⟩
      rw [hshown t fresh hin]
      exact hcommon t ((takes_iff hu).2 ⟨fresh, hin⟩)

end CompiledGrammar

/-- `s` is A B C or A B C D. -/
def fork : Grammar :=
  let (a, g) := ({} : Grammar).addToken "A"
  let (b, g) := g.addToken "B"
  let (c, g) := g.addToken "C"
  let (d, g) := g.addToken "D"
  let (s, g) := g.addRule "s"
  g.define s (.plain (.alt [.seq [.token a, .token b, .token c],
    .seq [.token a, .token b, .token c, .token d]]))

def forkDraft : Draft where
  states := #[⟨.ruleStart, 0, [⟨16, .epsilon⟩], none, false⟩, ⟨.ruleStop, 0, [], none, false⟩,
    ⟨.basic, 0, [⟨3, .atom 1⟩], none, false⟩, ⟨.basic, 0, [⟨4, .epsilon⟩], none, false⟩,
    ⟨.basic, 0, [⟨5, .atom 2⟩], none, false⟩, ⟨.basic, 0, [⟨6, .epsilon⟩], none, false⟩,
    ⟨.basic, 0, [⟨7, .atom 3⟩], none, false⟩, ⟨.basic, 0, [⟨17, .epsilon⟩], none, false⟩,
    ⟨.basic, 0, [⟨9, .atom 1⟩], none, false⟩, ⟨.basic, 0, [⟨10, .epsilon⟩], none, false⟩,
    ⟨.basic, 0, [⟨11, .atom 2⟩], none, false⟩, ⟨.basic, 0, [⟨12, .epsilon⟩], none, false⟩,
    ⟨.basic, 0, [⟨13, .atom 3⟩], none, false⟩, ⟨.basic, 0, [⟨14, .epsilon⟩], none, false⟩,
    ⟨.basic, 0, [⟨15, .atom 4⟩], none, false⟩, ⟨.basic, 0, [⟨17, .epsilon⟩], none, false⟩,
    ⟨.blockStart, 0, [⟨2, .epsilon⟩, ⟨8, .epsilon⟩], none, false⟩,
    ⟨.blockEnd, 0, [⟨1, .epsilon⟩], none, false⟩]
  rules := #[⟨⟨"s", 0, 1, false⟩, true⟩]
  maxType := 4

theorem draft_fork : fork.draft = .ok forkDraft := by cbv

theorem check_fork : forkDraft.check = .ok () := by
  have hnullable : forkDraft.nullableRules = Array.replicate 1 false := by
    refine Draft.nullableRules_of_stop (by cbv) fun r hr => ?_
    obtain rfl : r = 0 := by omega
    cbv
  have hcycle : forkDraft.leftRecursion? = none := by
    unfold Draft.leftRecursion? Draft.leftCalls
    rw [hnullable]
    cbv
  unfold Draft.check
  rw [hcycle]
  cbv

/-- The network of `fork`, with some table of next tokens. -/
def forkGrammar (nextTokens : Array TokenSet) : CompiledGrammar :=
  ⟨{ forkDraft.skeleton with nextTokens }, fork.names⟩

theorem compile_fork : ∃ nextTokens, fork.compile = .ok (forkGrammar nextTokens) :=
  ⟨_, Grammar.compile_of_check draft_fork check_fork⟩

/-- In `fork` there are no calls, and an edge that takes B takes nothing else. -/
theorem merges_fork (nextTokens : Array TokenSet) : (forkGrammar nextTokens).Merges 0 [1] 2 := by
  have hplain : ∀ here ∈ forkDraft.skeleton.states, ∀ t ∈ here.transitions, t.call? = none ∧
      (forkDraft.skeleton.Matches t.kind 2 →
        forkDraft.skeleton.shownRun t false = forkDraft.skeleton.fixedRun t.target) := by
    decide
  refine CompiledGrammar.merges_of_plain (by decide) fun s t ht => ?_
  obtain ⟨here, hs, ht⟩ := Network.mem_states_of_edge ht
  exact hplain here hs t ht

theorem complete_fork (nextTokens : Array TokenSet) :
    ((forkGrammar nextTokens).complete .always {} (.ofTokens #[] defaultChannel) 0 none 30).map
        (fun found => found.tokens[(1 : TokenType)]?) = some (some []) ∧
    ((forkGrammar nextTokens).complete .always {} (.ofTokens #[{ kind := 1 }] defaultChannel) 1 none 30).map
        (fun found => found.tokens[(2 : TokenType)]?) = some (some [3]) := by
  constructor
  · cbv
  · cbv

/-- After A the run after B is C, all that the two alternatives have in common. -/
theorem following_fork : ∃ c, fork.compile = .ok c ∧ c.network.Ungated ∧ c.Merges 0 [1] 2 ∧ ∃ found,
    c.complete .always {} (.ofTokens #[{ kind := 1 }] defaultChannel) 1 none 30 = some found ∧
    found.tokens[(2 : TokenType)]? = some [3] ∧
    (∀ t, c.Takes 0 [1] 2 t → [3] <+: c.network.fixedRun t.target) ∧
    ∀ common, (∀ t, c.Takes 0 [1] 2 t → common <+: c.network.fixedRun t.target) → common <+: [3] := by
  obtain ⟨nextTokens, hcompile⟩ := compile_fork
  obtain ⟨found, hfound, hrun⟩ := Option.map_eq_some_iff.1 (complete_fork nextTokens).2
  have hu : (forkGrammar nextTokens).network.Ungated := show forkDraft.skeleton.Ungated by decide
  have hmerges := merges_fork nextTokens
  have hfollowing := CompiledGrammar.complete_following hcompile hu .always false
    (.ofTokens #[{ kind := 1 }] defaultChannel) 1 none (by simp)
    (show ∀ k ∈ [(1 : TokenType)], TokenType.firstUser ≤ k ∧ k ≤ 4 by decide) hfound hrun
  exact ⟨_, hcompile, hu, hmerges, found, hfound, hrun, hfollowing.1, hfollowing.2 hmerges⟩

/-- At the caret before A the run after A is B C in one alternative and B C D in the other. Since both are in
the rule that is entered there, nothing is left of them. -/
theorem run_lost : ∃ c, fork.compile = .ok c ∧ (∃ t, c.Takes 0 [] 1 t) ∧
    (∀ t, c.Takes 0 [] 1 t → [2, 3] <+: c.network.fixedRun t.target) ∧ ∃ found,
      c.complete .always {} (.ofTokens #[] defaultChannel) 0 none 30 = some found ∧
      found.tokens[(1 : TokenType)]? = some [] := by
  obtain ⟨nextTokens, hcompile⟩ := compile_fork
  obtain ⟨found, hfound, hrun⟩ := Option.map_eq_some_iff.1 (complete_fork nextTokens).1
  refine ⟨_, hcompile, ⟨⟨3, .atom 1⟩, ⟨2, 0, []⟩, ?_, ?_, ?_⟩, ?_, found, hfound, hrun⟩
  · rw [show (forkGrammar nextTokens).network.rule 0 = forkDraft.skeleton.rule 0 from rfl,
      Draft.rule_skeleton]
    have h₀ : (⟨16, .epsilon⟩ : Transition) ∈ (forkDraft.skeleton.state 0).transitions := by decide
    have h₁ : (⟨2, .epsilon⟩ : Transition) ∈ (forkDraft.skeleton.state 16).transitions := by decide
    exact .head (.free h₀ rfl) (.head (.free h₁ rfl) .refl)
  · exact show _ ∈ (forkDraft.skeleton.state 2).transitions by decide
  · rfl
  · rintro t ⟨p, -, ht, hm⟩
    obtain ⟨here, hs, ht⟩ := Network.mem_states_of_edge ht
    have hruns : ∀ here ∈ forkDraft.skeleton.states, ∀ t ∈ here.transitions,
        forkDraft.skeleton.Matches t.kind 1 → [2, 3] <+: forkDraft.skeleton.fixedRun t.target := by
      decide
    exact hruns here hs t ht hm

end AdaptiveParsing
