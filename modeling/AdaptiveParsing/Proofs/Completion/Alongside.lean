import AdaptiveParsing.Proofs.Completion.Steps
/-!
Where a walk goes does not depend on what it reports. Two walks over the same tokens with different
options go side by side: they answer the same and remember the same, and what they have found stays
related if every report keeps the relation (`CompletionInput.Keeps`). Main statement:
`CompletionInput.Keeps.abreast`; for a whole completion `CompiledGrammar.complete_alongside`.
-/

namespace AdaptiveParsing

theorem rel_bind {α β γ δ : Type} {R : α → β → Prop} {S : γ → δ → Prop} {x : Option α} {y : Option β}
    {f : α → Option γ} {g : β → Option δ} (h : Option.Rel R x y)
    (hf : ∀ a b, R a b → Option.Rel S (f a) (g b)) : Option.Rel S (x.bind f) (y.bind g) := by
  cases h with
  | none => exact .none
  | some h => exact hf _ _ h

namespace CompletionInput

variable (input : CompletionInput)

/-- The same walk with other options. -/
def under (options : CompletionOptions) : CompletionInput := { input with options }

/-- The walks remember the same places among the tokens, and what they have found is related. -/
structure Agrees (R : Candidates → Candidates → Prop) (w w' : CandidateWalk) : Prop where
  ends : w'.ends = w.ends
  within : ∀ (r : RuleId) (i : Nat) (known : List Nat), w.ends[(r, i)]? = some known →
    ∀ j ∈ known, j < input.tokens.size
  candidates : R w.candidates w'.candidates

/-- Parts of both walks have the same answer, all of it of this kind, and agree in the end. -/
structure SameAnswer {α : Type} (R : Candidates → Candidates → Prop) (kind : α → Prop)
    (x y : List α × CandidateWalk) : Prop where
  answer : y.1 = x.1
  kind : ∀ a ∈ x.1, kind a
  agrees : input.Agrees R x.2 y.2

/-- The item is among the tokens, at a state that `At` is known of. -/
def Stands (At : List OpenRule → StateId → Prop) (calls : List OpenRule) (item : WalkItem) : Prop :=
  At calls item.state ∧ item.position < input.tokens.size

/-- What a walk and the same walk with other options keep: `At` is known of the open calls and the state
they have come to, and what they have found is related by `R`. -/
structure Keeps (options : CompletionOptions) (At : List OpenRule → StateId → Prop)
    (R : Candidates → Candidates → Prop) : Prop where
  stop : options.stop = input.options.stop
  cancelled : ∀ c c', R c c' → c'.cancelled = c.cancelled
  cancel : ∀ c c', R c c' → R { c with cancelled := true } { c' with cancelled := true }
  next : ∀ calls s, At calls s → ∀ t ∈ (input.network.state s).transitions, At calls t.next
  enter : ∀ calls s, At calls s → ∀ t ∈ (input.network.state s).transitions,
    ∀ r follow precedence, t.kind = .rule r follow precedence →
      ∀ i, i < input.tokens.size → At (input.opened r i :: calls) (input.network.rule r).start
  caret : ∀ calls r i, At (input.opened r i :: calls) (input.network.rule r).start →
    ∀ w w', R w.candidates w'.candidates →
      R (input.atCaretIn (input.opened r i :: calls).reverse r i w).2.candidates
        ((input.under options).atCaretIn (input.opened r i :: calls).reverse r i w').2.candidates
  edge : ∀ calls s, At calls s → ∀ t ∈ (input.network.state s).transitions,
    ∀ types, input.network.label? t.kind = some types → ∀ w w', R w.candidates w'.candidates →
      R (input.addEdge calls.reverse t types w).candidates
        ((input.under options).addEdge calls.reverse t types w').candidates

variable {input} {options : CompletionOptions} {At : List OpenRule → StateId → Prop}
  {R : Candidates → Candidates → Prop} {fuel : Nat} {r : RuleId} {i : Nat}
  {outer calls : List OpenRule} {floor : Option Int} {precedence : Int} {w w' : CandidateWalk}
  {edges : List Transition} {items : List WalkItem} {found : List Nat} {t : Transition} {s : StateId}

theorem Agrees.reports (hw : input.Agrees R w w') {w₁ w₁' : CandidateWalk} (h : w.Reports w₁)
    (h' : w'.Reports w₁') (hR : R w₁.candidates w₁'.candidates) : input.Agrees R w₁ w₁' :=
  ⟨by rw [h'.ends, h.ends, hw.ends], by rw [h.ends]; exact hw.within, hR⟩

namespace Keeps

/-- Both walks stop, or neither does. -/
theorem checkStop (h : input.Keeps options At R) (hw : input.Agrees R w w') :
    ∃ w₁ w₁', input.Agrees R w₁ w₁' ∧
      (input.checkStop w = (true, w₁) ∧ (input.under options).checkStop w' = (true, w₁') ∨
        w₁ = w ∧ w₁' = w' ∧ input.checkStop w = (false, w) ∧
          (input.under options).checkStop w' = (false, w')) := by
  have hcancelled := h.cancelled _ _ hw.candidates
  have hstop : (input.under options).options.stop = input.options.stop := h.stop
  unfold CompletionInput.checkStop
  rw [hcancelled, hstop]
  split
  · exact ⟨w, w', hw, .inl ⟨rfl, rfl⟩⟩
  · split
    · exact ⟨w.cancel, w'.cancel, ⟨hw.ends, hw.within, h.cancel _ _ hw.candidates⟩,
        .inl ⟨rfl, rfl⟩⟩
    · exact ⟨w, w', hw, .inr ⟨rfl, rfl, rfl, rfl⟩⟩

/-- An edge that is no call is reported alike. -/
theorem report (h : input.Keeps options At R) (hs : At calls s)
    (ht : t ∈ (input.network.state s).transitions) (hw : input.Agrees R w w') :
    input.Agrees R (input.report calls.reverse i t w)
      ((input.under options).report calls.reverse i t w') := by
  unfold CompletionInput.report
  cases hl : input.network.label? t.kind with
  | none =>
    rw [show (input.under options).network.label? t.kind = none from hl]
    exact hw
  | some types =>
    rw [show (input.under options).network.label? t.kind = some types from hl]
    dsimp only
    rw [show (input.under options).atCaret i = input.atCaret i from rfl]
    split
    · exact hw.reports (reports_addEdge _ t types w) (reports_addEdge _ t types w')
        (h.edge calls s hs t ht types hl w w' hw.candidates)
    · exact hw

theorem remember (h : input.Keeps options At R) (hw : input.Agrees R w w') (r : RuleId) (i : Nat)
    (hfound : ∀ j ∈ found, j < input.tokens.size) :
    input.Agrees R (w.remember r i found) (w'.remember r i found) := by
  unfold CandidateWalk.remember
  rw [h.cancelled _ _ hw.candidates]
  split
  · exact hw
  · refine ⟨by rw [hw.ends], fun r' i' known hk => ?_, hw.candidates⟩
    rw [Std.HashMap.getElem?_insert] at hk
    split at hk
    · cases hk
      exact hfound
    · exact hw.within r' i' known hk

/-- With so much fuel the parts of both walks agree. -/
structure Abreast (input : CompletionInput) (options : CompletionOptions)
    (At : List OpenRule → StateId → Prop) (R : Candidates → Candidates → Prop) (fuel : Nat) : Prop where
  rule : ∀ r i outer floor precedence w w', i < input.tokens.size →
    At (input.opened r i :: outer) (input.network.rule r).start → input.Agrees R w w' →
    Option.Rel (input.SameAnswer R fun j => j < input.tokens.size)
      (input.walkRule fuel r i outer floor precedence w)
      ((input.under options).walkRule fuel r i outer floor precedence w')
  items : ∀ calls floor items found w w', (∀ item ∈ items, input.Stands At calls item) →
    (∀ j ∈ found, j < input.tokens.size) → input.Agrees R w w' →
    Option.Rel (input.SameAnswer R fun j => j < input.tokens.size)
      (input.walkItems fuel calls floor items found w)
      ((input.under options).walkItems fuel calls floor items found w')
  edges : ∀ calls floor i s edges items w w', i < input.tokens.size → At calls s →
    (∀ t ∈ edges, t ∈ (input.network.state s).transitions) →
    (∀ item ∈ items, input.Stands At calls item) → input.Agrees R w w' →
    Option.Rel (input.SameAnswer R (input.Stands At calls))
      (input.walkEdges fuel calls floor i edges items w)
      ((input.under options).walkEdges fuel calls floor i edges items w')

theorem abreast_rule (h : input.Keeps options At R) (ih : Abreast input options At R fuel)
    (hi : i < input.tokens.size) (hat : At (input.opened r i :: outer) (input.network.rule r).start)
    (hw : input.Agrees R w w') :
    Option.Rel (input.SameAnswer R fun j => j < input.tokens.size)
      (input.walkRule (fuel + 1) r i outer floor precedence w)
      ((input.under options).walkRule (fuel + 1) r i outer floor precedence w') := by
  cases hknown : w.ends[(r, i)]? with
  | some known =>
    rw [walkRule_of_known hknown, walkRule_of_known (by rwa [hw.ends])]
    exact .some ⟨rfl, hw.within r i known hknown, hw⟩
  | none =>
    rw [walkRule_of_new hknown, walkRule_of_new (by rwa [hw.ends])]
    obtain ⟨w₁, w₁', hw₁, ⟨hstop, hstop'⟩ | ⟨-, -, hstop, hstop'⟩⟩ := h.checkStop hw
    · rw [hstop, hstop']
      exact .some ⟨rfl, by simp, hw₁⟩
    · rw [hstop, hstop']
      dsimp only
      rw [show (input.under options).atCaret i = input.atCaret i from rfl,
        show (input.under options).refuses r i = input.refuses r i from rfl]
      split
      · refine .some ⟨rfl, fun j hj => ?_, hw.reports (reports_atCaretIn _ r i w)
          (reports_atCaretIn _ r i w') (h.caret outer r i hat w w' hw.candidates)⟩
        rw [(mem_atCaretIn.1 hj).2]
        exact hi
      · split
        · exact .some ⟨rfl, by simp, hw⟩
        · rw [Option.map_eq_bind, Option.map_eq_bind]
          have hstart : ∀ item ∈ [(⟨(input.network.rule r).start, i⟩ : WalkItem)],
              input.Stands At (input.opened r i :: outer) item := by
            intro item hitem
            rw [List.mem_singleton.1 hitem]
            exact ⟨hat, hi⟩
          refine rel_bind (ih.items _ _ _ _ _ _ hstart (by simp) hw) ?_
          rintro ⟨ends, w₁⟩ ⟨ends', w₁'⟩ ⟨hsame, hends, hw₁⟩
          cases hsame
          exact .some ⟨rfl, hends, h.remember hw₁ r i hends⟩

theorem abreast_items (h : input.Keeps options At R) (ih : Abreast input options At R fuel)
    (hitems : ∀ item ∈ items, input.Stands At calls item) (hfound : ∀ j ∈ found, j < input.tokens.size)
    (hw : input.Agrees R w w') :
    Option.Rel (input.SameAnswer R fun j => j < input.tokens.size)
      (input.walkItems (fuel + 1) calls floor items found w)
      ((input.under options).walkItems (fuel + 1) calls floor items found w') := by
  cases items with
  | nil =>
    rw [walkItems_nil, walkItems_nil]
    exact .some ⟨rfl, hfound, hw⟩
  | cons item items =>
    obtain ⟨hitem, hrest⟩ := List.forall_mem_cons.1 hitems
    rw [walkItems_cons, walkItems_cons]
    obtain ⟨w₁, w₁', hw₁, ⟨hstop, hstop'⟩ | ⟨-, -, hstop, hstop'⟩⟩ := h.checkStop hw
    · rw [hstop, hstop']
      exact .some ⟨rfl, hfound, hw₁⟩
    · rw [hstop, hstop']
      dsimp only
      rw [show (input.under options).network = input.network from rfl]
      split
      · refine ih.items _ _ _ _ _ _ hrest (fun j hj => ?_) hw
        rcases mem_insertAscending.1 hj with rfl | hj
        · exact hitem.2
        · exact hfound j hj
      · refine rel_bind (ih.edges calls floor item.position item.state _ items w w' hitem.2 hitem.1
          (fun _ ht => ht) hrest hw) ?_
        rintro ⟨items₁, w₁⟩ ⟨items₁', w₁'⟩ ⟨hsame, hstands, hw₁⟩
        cases hsame
        exact ih.items _ _ _ _ _ _ hstands hfound hw₁

theorem abreast_edges (h : input.Keeps options At R) (ih : Abreast input options At R fuel)
    (hi : i < input.tokens.size) (hs : At calls s)
    (hedges : ∀ t ∈ edges, t ∈ (input.network.state s).transitions)
    (hitems : ∀ item ∈ items, input.Stands At calls item) (hw : input.Agrees R w w') :
    Option.Rel (input.SameAnswer R (input.Stands At calls))
      (input.walkEdges (fuel + 1) calls floor i edges items w)
      ((input.under options).walkEdges (fuel + 1) calls floor i edges items w') := by
  cases edges with
  | nil =>
    rw [walkEdges_nil, walkEdges_nil]
    exact .some ⟨rfl, hitems, hw⟩
  | cons t edges =>
    obtain ⟨ht, hrest⟩ := List.forall_mem_cons.1 hedges
    have hnext := h.next calls s hs t ht
    cases hcall : t.call? with
    | none =>
      rw [walkEdges_plain hcall, walkEdges_plain hcall]
      refine ih.edges _ _ _ s _ _ _ _ hi hs hrest (List.forall_mem_append.2 ⟨fun item hitem => ?_,
        hitems⟩) (h.report hs ht hw)
      obtain ⟨hstate, hposition⟩ := mem_past hcall hitem
      refine ⟨?_, ?_⟩
      · rw [hstate, ← Transition.next_eq_target hcall]
        exact hnext
      · rcases hposition with ⟨-, hp⟩ | ⟨-, hcaret, hp⟩
        · rwa [hp]
        · rw [hp]
          simpa [atCaret] using hcaret
    | some call =>
      obtain ⟨r, follow, precedence, hk⟩ := exists_of_call? hcall
      rw [walkEdges_call hk, walkEdges_call hk]
      refine rel_bind (ih.rule r i calls floor precedence w w' hi
        (h.enter calls s hs t ht r follow precedence hk i hi) hw) ?_
      rintro ⟨ends, w₁⟩ ⟨ends', w₁'⟩ ⟨hsame, hends, hw₁⟩
      cases hsame
      refine ih.edges _ _ _ s _ _ _ _ hi hs hrest (List.forall_mem_append.2 ⟨fun item hitem => ?_,
        hitems⟩) hw₁
      obtain ⟨hstate, hposition⟩ := mem_backAt.1 hitem
      refine ⟨?_, hends _ hposition⟩
      rw [hstate]
      simpa [Transition.next, hk] using hnext

theorem abreast (h : input.Keeps options At R) (fuel : Nat) : Abreast input options At R fuel := by
  induction fuel with
  | zero =>
    refine ⟨?_, ?_, ?_⟩
    · intro r i outer floor precedence w w' _ _ _
      rw [CompletionInput.walkRule, CompletionInput.walkRule]
      exact .none
    · intro calls floor items found w w' _ _ _
      rw [walkItems, walkItems]
      exact .none
    · intro calls floor i s edges items w w' _ _ _ _ _
      rw [walkEdges, walkEdges]
      exact .none
  | succ fuel ih =>
    exact ⟨fun r i outer floor precedence w w' hi hat hw => h.abreast_rule ih hi hat hw,
      fun calls floor items found w w' hitems hfound hw => h.abreast_items ih hitems hfound hw,
      fun calls floor i s edges items w w' hi hs hedges hitems hw =>
        h.abreast_edges ih hi hs hedges hitems hw⟩

end Keeps

end CompletionInput

/-- Two completions at one caret with different options find what is related, if every report keeps the
relation. -/
theorem CompiledGrammar.complete_alongside {g : CompiledGrammar} {predicates : Predicates}
    {options options' : CompletionOptions} {input : TokenCursor} {caret fuel fuel' : Nat}
    {context : Option Invocation} {found found' : Candidates} {At : List OpenRule → StateId → Prop}
    {R : Candidates → Candidates → Prop}
    (hrun : g.complete predicates options input caret context fuel = some found)
    (hrun' : g.complete predicates options' input caret context fuel' = some found')
    (hempty : R {} {})
    (h : g.network.rules.isEmpty = false → covered input caret context ≠ [] →
      (g.completion predicates options (covered input caret context)).Keeps options' At R ∧
        At [(g.completion predicates options (covered input caret context)).opened
          (firstRule context) 0] (g.network.rule (firstRule context)).start) : R found found' := by
  rcases complete_cases hrun with ⟨hnothing, rfl⟩ | ⟨hfull, answer, hwalk, rfl⟩
  · rcases complete_cases hrun' with ⟨-, rfl⟩ | ⟨hfull, -⟩
    · exact hempty
    · rw [hnothing] at hfull
      cases hfull
  · rcases complete_cases hrun' with ⟨hnothing, -⟩ | ⟨-, answer', hwalk', rfl⟩
    · rw [hnothing] at hfull
      cases hfull
    · obtain ⟨hrules, htokens⟩ := Bool.or_eq_false_iff.1 hfull
      obtain ⟨hkeeps, hat⟩ := h hrules (by simpa using htokens)
      have hsize : 0 < (covered input caret context).toArray.size := by
        simpa [List.length_pos_iff] using htokens
      -- both walks with the same fuel
      have hsame := (hkeeps.abreast (max fuel fuel')).rule (firstRule context) 0 [] none 0 {} {} hsize
        hat ⟨rfl, by simp, hempty⟩
      rw [CompletionInput.walkRule_of_le (Nat.le_max_left fuel fuel') hwalk] at hsame
      change Option.Rel _ _ ((g.completion predicates options' _).walkRule _ _ _ _ _ _ _) at hsame
      rw [CompletionInput.walkRule_of_le (Nat.le_max_right fuel fuel') hwalk'] at hsame
      cases hsame with
      | some hsame => exact hsame.agrees.candidates

end AdaptiveParsing
