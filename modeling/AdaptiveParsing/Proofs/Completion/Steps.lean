import AdaptiveParsing.Completion.Candidates
import AdaptiveParsing.Proofs.Network.Drafting
/-!
The steps of a walk to the caret. An edge that is no call adds the item past it (`CompletionInput.past`) and
may report its types (`CompletionInput.report`); a call adds where the rule it enters can end. Main
statement: a walk that is done is done in the same way with more fuel (`CompletionInput.walkRule_of_le`).
-/

namespace AdaptiveParsing

/-- The lists that two lists begin with are those their common start begins with. -/
theorem prefix_commonStart {l a b : List TokenType} : l <+: commonStart a b ↔ l <+: a ∧ l <+: b := by
  induction a generalizing l b with
  | nil =>
    rw [commonStart.eq_def]
    simp +contextual [List.prefix_nil]
  | cons x a ih =>
    cases b with
    | nil => simp +contextual [commonStart]
    | cons y b =>
      cases l with
      | nil => simp
      | cons z l =>
        unfold commonStart
        split
        · rename_i h
          subst h
          simp only [List.cons_prefix_cons, ih]
          tauto
        · rename_i h
          simp only [List.cons_prefix_cons, List.prefix_nil, reduceCtorEq, false_iff]
          rintro ⟨⟨rfl, -⟩, rfl, -⟩
          exact h rfl

namespace Candidates

variable {c : Candidates} {t token : TokenType} {following : List TokenType}

theorem mem_alter_some {m : Std.TreeMap TokenType (List TokenType)}
    {f : Option (List TokenType) → Option (List TokenType)} (hf : ∀ known, (f known).isSome = true) :
    token ∈ m.alter t f ↔ token ∈ m ∨ token = t := by
  rw [Std.TreeMap.mem_alter]
  split
  · rename_i h
    simp [Std.LawfulEqCmp.eq_of_compare h, hf]
  · rename_i h
    rw [or_iff_left]
    rintro rfl
    exact h Std.ReflCmp.compare_self

theorem mem_addFromRule :
    token ∈ (c.addFromRule t following).tokens ↔ token ∈ c.tokens ∨ token = t :=
  mem_alter_some fun known => by cases known <;> rfl

theorem mem_addFromEdge :
    token ∈ (c.addFromEdge t following).tokens ↔ token ∈ c.tokens ∨ token = t :=
  mem_alter_some fun known => by cases known <;> rfl

theorem mem_addOpen : token ∈ (c.addOpen t).tokens ↔ token ∈ c.tokens ∨ token = t := by
  rw [addOpen, Std.TreeMap.mem_insert, Std.LawfulEqCmp.compare_eq_iff_eq, eq_comm, or_comm]

theorem tokens_addRule (c : Candidates) (r : OpenRule) (calls : List RuleId) :
    (c.addRule r calls).tokens = c.tokens := by
  unfold addRule
  split <;> rfl

theorem cancelled_addRule (c : Candidates) (r : OpenRule) (calls : List RuleId) :
    (c.addRule r calls).cancelled = c.cancelled := by
  unfold addRule
  split <;> rfl

/-- Adding the types of a list adds them all, and stops nothing. -/
theorem foldl_add (add : Candidates → TokenType → Candidates)
    (hadd : ∀ c t token, token ∈ (add c t).tokens ↔ token ∈ c.tokens ∨ token = t)
    (hstop : ∀ c t, (add c t).cancelled = c.cancelled) (types : List TokenType) (c : Candidates) :
    (∀ token, token ∈ (types.foldl add c).tokens ↔ token ∈ c.tokens ∨ token ∈ types) ∧
      (types.foldl add c).cancelled = c.cancelled := by
  induction types generalizing c with
  | nil => simp
  | cons t types ih =>
    obtain ⟨h₁, h₂⟩ := ih (add c t)
    rw [List.foldl_cons]
    refine ⟨fun token => ?_, h₂.trans (hstop c t)⟩
    rw [h₁, hadd, List.mem_cons, or_assoc]

/-- A way to add a type: it adds nothing else. -/
structure Adds (add : Candidates → TokenType → Candidates) : Prop where
  tokens : ∀ c t token, token ∈ (add c t).tokens ↔ token ∈ c.tokens ∨ token = t
  rules : ∀ c t, (add c t).rules = c.rules
  cancelled : ∀ c t, (add c t).cancelled = c.cancelled

theorem adds_addFromRule (following : List TokenType) : Adds fun c t => c.addFromRule t following :=
  ⟨fun _ _ _ => mem_addFromRule, fun _ _ => rfl, fun _ _ => rfl⟩

theorem adds_addFromEdge (following : List TokenType) : Adds fun c t => c.addFromEdge t following :=
  ⟨fun _ _ _ => mem_addFromEdge, fun _ _ => rfl, fun _ _ => rfl⟩

theorem adds_addOpen : Adds addOpen := ⟨fun _ _ _ => mem_addOpen, fun _ _ => rfl, fun _ _ => rfl⟩

namespace Adds

variable {add : Candidates → TokenType → Candidates} {types : List TokenType}

theorem mem_foldl (h : Adds add) : token ∈ (types.foldl add c).tokens ↔ token ∈ c.tokens ∨ token ∈ types :=
  (foldl_add add h.tokens h.cancelled types c).1 token

theorem cancelled_foldl (h : Adds add) : (types.foldl add c).cancelled = c.cancelled :=
  (foldl_add add h.tokens h.cancelled types c).2

theorem rules_foldl (h : Adds add) : (types.foldl add c).rules = c.rules := by
  induction types generalizing c with
  | nil => rfl
  | cons t types ih => rw [List.foldl_cons, ih, h.rules]

end Adds

end Candidates

namespace CandidateWalk

/-- The walk is told to stop. -/
def cancel (w : CandidateWalk) : CandidateWalk := w.modify fun c => { c with cancelled := true }

/-- What was found of a rule is remembered, unless the walk was stopped in it. -/
def remember (w : CandidateWalk) (r : RuleId) (i : Nat) (found : List Nat) : CandidateWalk :=
  if w.candidates.cancelled then w else { w with ends := w.ends.insert (r, i) found }

/-- Candidates are reported, and nothing else happens. -/
structure Reports (w w' : CandidateWalk) : Prop where
  ends : w'.ends = w.ends
  cancelled : w'.candidates.cancelled = w.candidates.cancelled
  tokens : ∀ t ∈ w.candidates.tokens, t ∈ w'.candidates.tokens

variable {w w' w'' : CandidateWalk}

theorem Reports.refl (w : CandidateWalk) : w.Reports w := ⟨rfl, rfl, fun _ h => h⟩

theorem Reports.trans (h : w.Reports w') (h' : w'.Reports w'') : w.Reports w'' :=
  ⟨h'.ends.trans h.ends, h'.cancelled.trans h.cancelled, fun t ht => h'.tokens t (h.tokens t ht)⟩

theorem Reports.addRule (w : CandidateWalk) (r : OpenRule) (calls : List RuleId) :
    w.Reports (w.modify fun c => c.addRule r calls) :=
  ⟨rfl, Candidates.cancelled_addRule _ r calls, fun t ht => by
    rwa [modify, Candidates.tokens_addRule]⟩

end CandidateWalk

namespace CompletionInput

variable (input : CompletionInput)

/-- Where the walk goes on past an edge that is no call. -/
def past (floor : Option Int) (i : Nat) (t : Transition) : List WalkItem :=
  match t.kind with
  | .rule _ _ _ => []
  | .predicate rule index _ => if input.predicates {} none rule index then [⟨t.target, i⟩] else []
  | .precedence level => if floor.all fun f => f ≤ level then [⟨t.target, i⟩] else []
  | kind =>
    match input.network.label? kind with
    | none => [⟨t.target, i⟩]
    | some types =>
      if !input.atCaret i && (kind == .wildcard || types.contains (input.tokenAt i).2) then
        [⟨t.target, i + 1⟩]
      else []

/-- What is reported of an edge: at the caret its types. -/
def report (calls : List OpenRule) (i : Nat) (t : Transition) (w : CandidateWalk) : CandidateWalk :=
  match input.network.label? t.kind with
  | none => w
  | some types =>
    if input.atCaret i && (t.kind == .wildcard || !types.isEmpty) then input.addEdge calls t types w
    else w

/-- The rule cannot begin with the token. -/
def refuses (r : RuleId) (i : Nat) : Bool :=
  (input.followSets r).isExhaustive && !(input.followSets r).combined.contains (input.tokenAt i).2

/-- The call of a rule at a place. -/
def opened (r : RuleId) (i : Nat) : OpenRule := ⟨r, (input.tokenAt i).1⟩

/-- The floor inside a rule that is called with a precedence. -/
def floorIn (r : RuleId) (floor : Option Int) (precedence : Int) : Option Int :=
  if (input.network.rule r).leftRecursive then some precedence else floor

/-- Offers these types after these calls, unless a preferred rule stands for them. -/
def offer (calls : List OpenRule) (types : List TokenType) (add : Candidates → TokenType → Candidates)
    (w : CandidateWalk) : CandidateWalk :=
  match input.preferredOn calls with
  | none => w.modify fun c => (types.filter fun t => !input.isIgnored t).foldl add c
  | some (r, before) => w.modify fun c => c.addRule r before

/-- How a type of an edge is added. -/
def addOnEdge (t : Transition) (types : TokenSet) : Candidates → TokenType → Candidates :=
  match t.kind with
  | .wildcard => Candidates.addOpen
  | _ => fun c k =>
    c.addFromEdge k (if types.size = 1 then input.visibleRun (input.network.fixedRun t.target) else [])

/-- How a type that a rule can begin with is added. -/
def addOfSet (set : FollowSet) : Candidates → TokenType → Candidates :=
  fun c k => c.addFromRule k (input.visibleRun set.followedBy)

/-- The calls up to the edge of a set. -/
def callsTo (calls : List OpenRule) (startIndex : Nat) (set : FollowSet) : List OpenRule :=
  calls ++ set.path.map fun r => ⟨r, startIndex⟩

/-- Where the walk goes on past a call whose rule ends at these places. -/
def backAt (follow : StateId) (ends : List Nat) : List WalkItem :=
  (ends.map fun e => ⟨follow, e⟩).reverse

theorem exists_of_call? {t : Transition} {call : RuleId × StateId} (h : t.call? = some call) :
    ∃ r follow precedence, t.kind = .rule r follow precedence := by
  cases hk : t.kind with
  | rule r follow precedence => exact ⟨r, follow, precedence, rfl⟩
  | _ => simp [Transition.call?, hk] at h

variable {input} {fuel fuel' : Nat} {r : RuleId} {i j : Nat} {outer calls : List OpenRule}
  {floor : Option Int} {precedence : Int} {w w' : CandidateWalk} {edges : List Transition}
  {items : List WalkItem} {found : List Nat} {t : Transition} {follow : StateId} {item : WalkItem}

theorem foldl_backAt (ends : List Nat) (items : List WalkItem) :
    ends.foldl (fun items e => ⟨follow, e⟩ :: items) items = backAt follow ends ++ items := by
  induction ends generalizing items with
  | nil => rfl
  | cons e ends ih => rw [List.foldl_cons, ih, backAt, backAt, List.map_cons, List.reverse_cons,
      List.append_assoc, List.singleton_append]

theorem mem_backAt {ends : List Nat} :
    item ∈ backAt follow ends ↔ item.state = follow ∧ item.position ∈ ends := by
  obtain ⟨s, e⟩ := item
  simp [backAt, eq_comm, and_comm]

/-- Past an edge the walk stands at its target, one token on if the edge took it. -/
theorem mem_past (hcall : t.call? = none) (h : item ∈ input.past floor i t) :
    item.state = t.target ∧ (t.isConsuming = false ∧ item.position = i ∨
      t.isConsuming = true ∧ input.atCaret i = false ∧ item.position = i + 1) := by
  unfold past at h
  cases hk : t.kind <;>
    simp_all [Transition.call?, Transition.isConsuming, EdgeKind.isConsuming, Network.label?,
      EdgeKind.label?]

theorem past_of_label {types : TokenSet} (hl : input.network.label? t.kind = some types) :
    input.past floor i t = if !input.atCaret i && (t.kind == .wildcard ||
      types.contains (input.tokenAt i).2) then [⟨t.target, i + 1⟩] else [] := by
  unfold past
  cases hk : t.kind <;> simp_all [Network.label?, EdgeKind.label?]

/-- At the caret a rule ends where it began, if it can be passed without a token. -/
theorem mem_atCaretIn {calls : List OpenRule} :
    j ∈ (input.atCaretIn calls r i w).1 ↔ (input.followSets r).isExhaustive = false ∧ j = i := by
  unfold atCaretIn
  dsimp only
  cases (input.followSets r).isExhaustive <;> simp

theorem report_cases (input : CompletionInput) (calls : List OpenRule) (i : Nat) (t : Transition)
    (w : CandidateWalk) :
    input.report calls i t w = w ∨ ∃ types, input.network.label? t.kind = some types ∧
      input.atCaret i = true ∧ input.report calls i t w = input.addEdge calls t types w := by
  unfold report
  cases input.network.label? t.kind with
  | none => exact .inl rfl
  | some types =>
    dsimp only
    split
    · rename_i hcaret
      exact .inr ⟨types, rfl, (Bool.and_eq_true_iff.1 hcaret).1, rfl⟩
    · exact .inl rfl

theorem walkEdges_nil :
    input.walkEdges (fuel + 1) calls floor i [] items w = some (items, w) := by
  rw [walkEdges]

theorem walkEdges_plain (h : t.call? = none) :
    input.walkEdges (fuel + 1) calls floor i (t :: edges) items w =
      input.walkEdges fuel calls floor i edges (input.past floor i t ++ items)
        (input.report calls.reverse i t w) := by
  rw [walkEdges, past, report]
  cases hk : t.kind with
  | rule _ _ _ => simp [Transition.call?, hk] at h
  | epsilon | action _ _ => simp [Network.label?, EdgeKind.label?]
  | predicate _ _ _ | precedence _ =>
    simp only [Network.label?, EdgeKind.label?]
    split <;> rfl
  | atom _ | range _ _ | set _ | notSet _ | wildcard =>
    simp only [Network.label?, EdgeKind.label?]
    cases hcaret : input.atCaret i <;> simp only [Bool.not_false, Bool.not_true, Bool.true_and,
      Bool.false_and, if_true, if_false, Bool.false_eq_true, List.nil_append]
    split <;> rfl

theorem walkEdges_call (hk : t.kind = .rule r follow precedence) :
    input.walkEdges (fuel + 1) calls floor i (t :: edges) items w =
      (input.walkRule fuel r i calls floor precedence w).bind fun (ends, w) =>
        input.walkEdges fuel calls floor i edges (backAt follow ends ++ items) w := by
  obtain ⟨target, kind⟩ := t
  cases hk
  rw [walkEdges]
  dsimp only
  cases input.walkRule fuel r i calls floor precedence w with
  | none => rfl
  | some answer =>
    obtain ⟨ends, w⟩ := answer
    simp only [foldl_backAt, Option.bind_some]

theorem walkItems_nil :
    input.walkItems (fuel + 1) calls floor [] found w = some (found, w) := by
  rw [walkItems]

theorem walkItems_cons : input.walkItems (fuel + 1) calls floor (item :: items) found w =
    match input.checkStop w with
    | (true, w) => some (found, w)
    | (false, w) =>
      if (input.network.state item.state).isRuleStop then
        input.walkItems fuel calls floor items (insertAscending item.position found) w
      else
        (input.walkEdges fuel calls floor item.position (input.network.state item.state).transitions
          items w).bind fun (items, w) => input.walkItems fuel calls floor items found w := by
  rw [walkItems]
  generalize input.checkStop w = answer
  obtain ⟨_ | _, w⟩ := answer
  · dsimp only
    split
    · rfl
    · cases input.walkEdges fuel calls floor item.position
        (input.network.state item.state).transitions items w <;> rfl
  · rfl

theorem walkRule_of_known {known : List Nat} (h : w.ends[(r, i)]? = some known) :
    input.walkRule (fuel + 1) r i outer floor precedence w = some (known, w) := by
  rw [walkRule, h]

theorem walkRule_of_new (h : w.ends[(r, i)]? = none) :
    input.walkRule (fuel + 1) r i outer floor precedence w =
      match input.checkStop w with
      | (true, w) => some ([], w)
      | (false, w) =>
        if input.atCaret i then
          some (input.atCaretIn (input.opened r i :: outer).reverse r i w)
        else if input.refuses r i then some ([], w)
        else
          (input.walkItems fuel (input.opened r i :: outer) (input.floorIn r floor precedence)
            [⟨(input.network.rule r).start, i⟩] [] w).map fun (found, w) =>
              (found, w.remember r i found) := by
  rw [walkRule, h]
  generalize input.checkStop w = answer
  obtain ⟨_ | _, w⟩ := answer
  · dsimp only
    unfold refuses opened floorIn
    split
    · rfl
    · split
      · rfl
      · generalize input.walkItems fuel _ _ _ [] w = result
        cases result with
        | none => rfl
        | some x =>
          simp only [CandidateWalk.remember, Option.map_some]
          split <;> rfl
  · rfl

/-! Everything that is reported is offered, or a preferred rule stands for it. -/

theorem preferredOn_eq_none (hnone : input.options.preferred = []) : input.preferredOn calls = none := by
  simp [preferredOn, hnone]

theorem adds_addOnEdge (t : Transition) (types : TokenSet) :
    Candidates.Adds (input.addOnEdge t types) := by
  unfold addOnEdge
  split
  · exact Candidates.adds_addOpen
  · exact Candidates.adds_addFromEdge _

theorem adds_addOfSet (set : FollowSet) : Candidates.Adds (input.addOfSet set) :=
  Candidates.adds_addFromRule _

theorem addEdge_eq (calls : List OpenRule) (t : Transition) (types : TokenSet) (w : CandidateWalk) :
    input.addEdge calls t types w = input.offer calls types.toList (input.addOnEdge t types) w := by
  unfold addEdge reportPreferred offer addOnEdge
  cases input.preferredOn calls with
  | none => cases t.kind <;> rfl
  | some found => rfl

theorem addBeginnings_eq (calls : List OpenRule) (startIndex : Nat) (sets : Array FollowSet)
    (w : CandidateWalk) : input.addBeginnings calls startIndex sets w =
      sets.toList.foldl (fun w set => input.offer (callsTo calls startIndex set) set.types.toList
        (input.addOfSet set) w) w := by
  unfold addBeginnings
  rw [← Array.foldl_toList]
  congr 1
  funext w set
  unfold reportPreferred offer callsTo
  cases input.preferredOn (calls ++ set.path.map fun r => ⟨r, startIndex⟩) <;> rfl

theorem reports_reportPreferred (calls : List OpenRule) (w : CandidateWalk) :
    w.Reports (input.reportPreferred calls w).2 := by
  unfold reportPreferred
  split
  · exact .refl w
  · exact .addRule w _ _

theorem reports_offer (calls : List OpenRule) (types : List TokenType)
    {add : Candidates → TokenType → Candidates} (ha : Candidates.Adds add) (w : CandidateWalk) :
    w.Reports (input.offer calls types add w) := by
  unfold offer
  split
  · exact ⟨rfl, ha.cancelled_foldl, fun t ht => ha.mem_foldl.2 (.inl ht)⟩
  · exact .addRule w _ _

theorem reports_addEdge (calls : List OpenRule) (t : Transition) (types : TokenSet)
    (w : CandidateWalk) : w.Reports (input.addEdge calls t types w) := by
  rw [addEdge_eq]
  exact reports_offer _ _ (adds_addOnEdge t types) w

theorem reports_addBeginnings (input : CompletionInput) (calls : List OpenRule) (startIndex : Nat)
    (sets : Array FollowSet) (w : CandidateWalk) :
    w.Reports (input.addBeginnings calls startIndex sets w) := by
  rw [addBeginnings_eq]
  induction sets.toList generalizing w with
  | nil => exact .refl w
  | cons set rest ih => exact (reports_offer _ _ (adds_addOfSet set) w).trans (ih _)

theorem reports_atCaretIn (calls : List OpenRule) (r : RuleId) (i : Nat) (w : CandidateWalk) :
    w.Reports (input.atCaretIn calls r i w).2 := by
  unfold atCaretIn
  dsimp only
  split
  · exact reports_reportPreferred calls w
  · exact reports_addBeginnings input calls _ _ w

theorem reports_report (calls : List OpenRule) (i : Nat) (t : Transition) (w : CandidateWalk) :
    w.Reports (input.report calls i t w) := by
  rcases report_cases input calls i t w with h | ⟨types, -, -, h⟩
  · rw [h]
    exact .refl w
  · rw [h]
    exact reports_addEdge calls t types w

/-- A walk goes on as it was, or it is told to stop. -/
theorem checkStop_cases (input : CompletionInput) (w : CandidateWalk) :
    w.candidates.cancelled = false ∧ input.options.stop = false ∧ input.checkStop w = (false, w) ∨
      w.candidates.cancelled = true ∧ input.checkStop w = (true, w) ∨
      input.options.stop = true ∧ input.checkStop w = (true, w.cancel) := by
  unfold checkStop
  cases hc : w.candidates.cancelled <;> cases hs : input.options.stop <;>
    simp [CandidateWalk.cancel]

/-! More fuel changes nothing. -/

/-- What is done with so much fuel is done in the same way with more. -/
structure Settles (input : CompletionInput) (fuel : Nat) : Prop where
  rule : ∀ r i outer floor precedence w answer,
    input.walkRule fuel r i outer floor precedence w = some answer →
    input.walkRule (fuel + 1) r i outer floor precedence w = some answer
  items : ∀ calls floor items found w answer,
    input.walkItems fuel calls floor items found w = some answer →
    input.walkItems (fuel + 1) calls floor items found w = some answer
  edges : ∀ calls floor i edges items w answer,
    input.walkEdges fuel calls floor i edges items w = some answer →
    input.walkEdges (fuel + 1) calls floor i edges items w = some answer

theorem settles (input : CompletionInput) (fuel : Nat) : input.Settles fuel := by
  induction fuel with
  | zero =>
    refine ⟨?_, ?_, ?_⟩
    · intro r i outer floor precedence w answer h
      rw [walkRule] at h
      cases h
    · intro calls floor items found w answer h
      rw [walkItems] at h
      cases h
    · intro calls floor i edges items w answer h
      rw [walkEdges] at h
      cases h
  | succ fuel ih =>
    refine ⟨?_, ?_, ?_⟩
    · intro r i outer floor precedence w answer h
      cases hknown : w.ends[(r, i)]? with
      | some known => rwa [walkRule_of_known hknown] at h ⊢
      | none =>
        rw [walkRule_of_new hknown] at h ⊢
        generalize input.checkStop w = stopped at h ⊢
        obtain ⟨_ | _, w⟩ := stopped
        · dsimp only at h ⊢
          by_cases hcaret : input.atCaret i = true
          · rwa [if_pos hcaret] at h ⊢
          · by_cases hrefused : input.refuses r i = true
            · rwa [if_neg hcaret, if_pos hrefused] at h ⊢
            · rw [if_neg hcaret, if_neg hrefused] at h ⊢
              obtain ⟨x, hx, rfl⟩ := Option.map_eq_some_iff.1 h
              rw [ih.items _ _ _ _ _ _ hx, Option.map_some]
        · exact h
    · intro calls floor items found w answer h
      cases items with
      | nil => rwa [walkItems_nil] at h ⊢
      | cons item items =>
        rw [walkItems_cons] at h ⊢
        generalize input.checkStop w = stopped at h ⊢
        obtain ⟨_ | _, w⟩ := stopped
        · dsimp only at h ⊢
          by_cases hstop : (input.network.state item.state).isRuleStop = true
          · rw [if_pos hstop] at h ⊢
            exact ih.items _ _ _ _ _ _ h
          · rw [if_neg hstop] at h ⊢
            obtain ⟨x, hx, hrest⟩ := Option.bind_eq_some_iff.1 h
            rw [ih.edges _ _ _ _ _ _ _ hx, Option.bind_some]
            exact ih.items _ _ _ _ _ _ hrest
        · exact h
    · intro calls floor i edges items w answer h
      cases edges with
      | nil => rwa [walkEdges_nil] at h ⊢
      | cons t edges =>
        cases hcall : t.call? with
        | none =>
          rw [walkEdges_plain hcall] at h ⊢
          exact ih.edges _ _ _ _ _ _ _ h
        | some call =>
          obtain ⟨r, follow, precedence, hk⟩ := exists_of_call? hcall
          rw [walkEdges_call hk] at h ⊢
          obtain ⟨x, hx, hrest⟩ := Option.bind_eq_some_iff.1 h
          rw [ih.rule _ _ _ _ _ _ _ hx, Option.bind_some]
          exact ih.edges _ _ _ _ _ _ _ hrest

theorem walkRule_of_le {answer : List Nat × CandidateWalk} (hle : fuel ≤ fuel')
    (h : input.walkRule fuel r i outer floor precedence w = some answer) :
    input.walkRule fuel' r i outer floor precedence w = some answer := by
  induction hle with
  | refl => exact h
  | step _ ih => exact (input.settles _).rule _ _ _ _ _ _ _ ih

theorem walkItems_of_le {answer : List Nat × CandidateWalk} (hle : fuel ≤ fuel')
    (h : input.walkItems fuel calls floor items found w = some answer) :
    input.walkItems fuel' calls floor items found w = some answer := by
  induction hle with
  | refl => exact h
  | step _ ih => exact (input.settles _).items _ _ _ _ _ _ ih

theorem walkEdges_of_le {answer : List WalkItem × CandidateWalk} (hle : fuel ≤ fuel')
    (h : input.walkEdges fuel calls floor i edges items w = some answer) :
    input.walkEdges fuel' calls floor i edges items w = some answer := by
  induction hle with
  | refl => exact h
  | step _ ih => exact (input.settles _).edges _ _ _ _ _ _ _ ih

end CompletionInput

namespace CompiledGrammar

/-- The rule that a completion begins with. -/
def firstRule (context : Option Invocation) : RuleId := (context.map Invocation.rule).getD 0

/-- The index of the token that a completion begins with. -/
def firstIndex (context : Option Invocation) : Nat := (context.bind Invocation.start).getD 0

/-- The tokens that a completion walks over. -/
def covered (input : TokenCursor) (caret : Nat) (context : Option Invocation) : List (Nat × TokenType) :=
  tokensToCaret caret (input.tokens.toList.drop (firstIndex context))

/-- What a completion over these tokens depends on. -/
def completion (g : CompiledGrammar) (predicates : Predicates) (options : CompletionOptions)
    (tokens : List (Nat × TokenType)) : CompletionInput where
  network := g.network
  followSets := fun r =>
    (((Array.range g.network.rules.size).map fun r => Thunk.mk fun _ => g.network.followSets r)[r]?.map
      Thunk.get).getD {}
  predicates := predicates
  options := options
  tokens := tokens.toArray

variable {g : CompiledGrammar} {predicates : Predicates} {options : CompletionOptions}
  {input : TokenCursor} {caret fuel : Nat} {context : Option Invocation} {found : Candidates}
  {tokens : List (Nat × TokenType)} {r : RuleId}

theorem followSets_completion : (g.completion predicates options tokens).followSets r =
    if r < g.network.rules.size then g.network.followSets r else {} := by
  have hget : ∀ f : Unit → FollowSets, (Thunk.mk f).get = f () := fun _ => rfl
  unfold completion
  dsimp only
  split
  · rename_i hr
    simp [hr, hget]
  · rename_i hr
    simp [hr]

theorem complete_eq : g.complete predicates options input caret context fuel =
    if g.network.rules.isEmpty || (covered input caret context).isEmpty then some {}
    else ((g.completion predicates options (covered input caret context)).walkRule fuel
      (firstRule context) 0 [] none 0 {}).map fun (_, w) => w.candidates := by
  have hempty : (covered input caret context).toArray.isEmpty = (covered input caret context).isEmpty :=
    List.isEmpty_toArray _
  rw [← hempty]
  rfl

/-- A completion has nothing to walk over, or it is what its walk has found. -/
theorem complete_cases (h : g.complete predicates options input caret context fuel = some found) :
    (g.network.rules.isEmpty || (covered input caret context).isEmpty) = true ∧ found = {} ∨
      (g.network.rules.isEmpty || (covered input caret context).isEmpty) = false ∧ ∃ answer,
        (g.completion predicates options (covered input caret context)).walkRule fuel
          (firstRule context) 0 [] none 0 {} = some answer ∧ answer.2.candidates = found := by
  rw [complete_eq] at h
  split at h
  · rename_i hempty
    exact .inl ⟨hempty, (Option.some.inj h).symm⟩
  · rename_i hfull
    exact .inr ⟨by simpa using hfull, Option.map_eq_some_iff.1 h⟩

theorem firstRule_lt (hrules : g.network.rules.isEmpty = false)
    (hcontext : ∀ outer ∈ context, outer.rule < g.network.rules.size) :
    firstRule context < g.network.rules.size := by
  cases context with
  | none => exact Array.size_pos_iff.2 (Array.isEmpty_eq_false_iff.1 hrules)
  | some outer => exact hcontext outer rfl

end CompiledGrammar

end AdaptiveParsing
