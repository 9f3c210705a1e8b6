import AdaptiveParsing.Proofs.Completion.Alongside
import AdaptiveParsing.Proofs.Completion.Exactness
/-!
Ignored types only filter. A walk that ignores types goes the way of one that ignores none, and reports the
same preferred rules; of the types it reports those that are not ignored, and every run after a type ends
before an ignored one. Main statement: `CompiledGrammar.complete_ignoring`.
-/

namespace AdaptiveParsing

namespace Candidates

/-- No run after a type has one of these. -/
def Shuns (ignored : List TokenType) (c : Candidates) : Prop :=
  ∀ (t : TokenType) (following : List TokenType), c.tokens[t]? = some following →
    ∀ k ∈ following, k ∉ ignored

/-- The second candidates are the first without the ignored types. -/
structure Filtered (ignored : List TokenType) (c c' : Candidates) : Prop where
  rules : c'.rules = c.rules
  cancelled : c'.cancelled = c.cancelled
  tokens : ∀ t, t ∈ c'.tokens ↔ t ∈ c.tokens ∧ t ∉ ignored
  shuns : c'.Shuns ignored

variable {ignored following : List TokenType} {c c' : Candidates} {t : TokenType}
  {add add' : Candidates → TokenType → Candidates} {types types' : List TokenType}

theorem Shuns.alter (h : c.Shuns ignored)
    {f : Option (List TokenType) → Option (List TokenType)}
    (hf : ∀ following, f c.tokens[t]? = some following → ∀ k ∈ following, k ∉ ignored) :
    ({ c with tokens := c.tokens.alter t f } : Candidates).Shuns ignored := by
  intro u following hu
  rw [Std.TreeMap.getElem?_alter] at hu
  split at hu
  · exact hf following hu
  · exact h u following hu

theorem Shuns.addFromRule (h : c.Shuns ignored) (hrun : ∀ k ∈ following, k ∉ ignored) :
    (c.addFromRule t following).Shuns ignored := by
  refine h.alter fun run he => ?_
  cases hknown : c.tokens[t]? with
  | none =>
    rw [hknown] at he
    cases he
    exact hrun
  | some known =>
    rw [hknown] at he
    obtain rfl := Option.some.inj he
    split
    · exact h t known hknown
    · simp

theorem Shuns.addFromEdge (h : c.Shuns ignored) (hrun : ∀ k ∈ following, k ∉ ignored) :
    (c.addFromEdge t following).Shuns ignored := by
  refine h.alter fun run he => ?_
  cases hknown : c.tokens[t]? with
  | none =>
    rw [hknown] at he
    cases he
    exact hrun
  | some known =>
    rw [hknown] at he
    obtain rfl := Option.some.inj he
    have hstart : commonStart known following <+: known := (prefix_commonStart.1 (List.prefix_refl _)).1
    exact fun k hk => h t known hknown k (hstart.subset hk)

theorem Shuns.addOpen (h : c.Shuns ignored) : (c.addOpen t).Shuns ignored := by
  intro u following hu
  have hu : (c.tokens.insert t [])[u]? = some following := hu
  rw [Std.TreeMap.getElem?_insert] at hu
  split at hu
  · cases hu
    simp
  · exact h u following hu

theorem Shuns.foldl (h : c.Shuns ignored)
    (hadd : ∀ c t, c.Shuns ignored → (add c t).Shuns ignored) : (types.foldl add c).Shuns ignored := by
  induction types generalizing c with
  | nil => exact h
  | cons t types ih => exact ih (hadd c t h)

/-- The calls before a preferred rule are compared with those known, and the types are left alone. -/
theorem Filtered.addRule (h : c.Filtered ignored c') (r : OpenRule) (calls : List RuleId) :
    (c.addRule r calls).Filtered ignored (c'.addRule r calls) := by
  unfold Candidates.addRule
  rw [h.rules]
  split
  · exact h
  · exact ⟨rfl, h.cancelled, h.tokens, h.shuns⟩

/-- Types are added to the one and those that are not ignored to the other. -/
theorem Filtered.foldl (h : c.Filtered ignored c') (ha : Adds add) (ha' : Adds add')
    (hadd : ∀ c t, c.Shuns ignored → (add' c t).Shuns ignored)
    (htypes : ∀ t, t ∈ types' ↔ t ∈ types ∧ t ∉ ignored) :
    (types.foldl add c).Filtered ignored (types'.foldl add' c') := by
  refine ⟨?_, ?_, fun t => ?_, h.shuns.foldl hadd⟩
  · rw [ha.rules_foldl, ha'.rules_foldl, h.rules]
  · rw [ha.cancelled_foldl, ha'.cancelled_foldl, h.cancelled]
  · rw [ha.mem_foldl, ha'.mem_foldl, h.tokens, htypes]
    exact or_and_right.symm

end Candidates

namespace CompletionInput

open Candidates

variable {input : CompletionInput} {ignored : List TokenType} {w w' : CandidateWalk}
  {add add' : Candidates → TokenType → Candidates}

/-- The options with other types ignored. -/
def ignoring (input : CompletionInput) (ignored : List TokenType) : CompletionOptions :=
  { input.options with ignored }

theorem not_mem_of_mem_visibleRun {run : List TokenType} {k : TokenType} (h : k ∈ input.visibleRun run) :
    k ∉ input.options.ignored := by
  have := List.mem_takeWhile_imp h
  simpa [isIgnored] using this

theorem mem_filter_isIgnored {types : List TokenType} {t : TokenType} :
    t ∈ types.filter (fun t => !input.isIgnored t) ↔ t ∈ types ∧ t ∉ input.options.ignored := by
  simp [isIgnored]

theorem shuns_addOnEdge (input : CompletionInput) (t : Transition) (types : TokenSet) (c : Candidates)
    (k : TokenType)
    (h : c.Shuns input.options.ignored) : (input.addOnEdge t types c k).Shuns input.options.ignored := by
  have hrun : ∀ k ∈ (if types.size = 1 then input.visibleRun (input.network.fixedRun t.target) else []),
      k ∉ input.options.ignored := by
    split
    · exact fun k hk => not_mem_of_mem_visibleRun hk
    · simp
  unfold addOnEdge
  generalize (if types.size = 1 then input.visibleRun (input.network.fixedRun t.target) else []) = run
    at hrun ⊢
  cases t.kind with
  | wildcard => exact h.addOpen
  | _ => exact h.addFromEdge hrun

theorem shuns_addOfSet (input : CompletionInput) (set : FollowSet) (c : Candidates) (k : TokenType)
    (h : c.Shuns input.options.ignored) : (input.addOfSet set c k).Shuns input.options.ignored :=
  h.addFromRule fun _ hk => not_mem_of_mem_visibleRun hk

section

variable (hnone : input.options.ignored = [])

include hnone

/-- What is offered is filtered, or the same preferred rule stands for it. -/
theorem filtered_offer (hw : w.candidates.Filtered ignored w'.candidates) (calls : List OpenRule)
    (types : List TokenType) (ha : Adds add) (ha' : Adds add')
    (hadd : ∀ c t, c.Shuns ignored → (add' c t).Shuns ignored) :
    (input.offer calls types add w).candidates.Filtered ignored
      ((input.under (input.ignoring ignored)).offer calls types add' w').candidates := by
  have hsame : (input.under (input.ignoring ignored)).preferredOn calls = input.preferredOn calls := rfl
  unfold offer
  rw [hsame]
  split
  · refine hw.foldl ha ha' hadd fun t => ?_
    rw [mem_filter_isIgnored, mem_filter_isIgnored, hnone]
    simp [under, ignoring]
  · exact hw.addRule _ _

theorem filtered_addBeginnings (hw : w.candidates.Filtered ignored w'.candidates)
    (calls : List OpenRule) (startIndex : Nat) (sets : Array FollowSet) :
    (input.addBeginnings calls startIndex sets w).candidates.Filtered ignored
      ((input.under (input.ignoring ignored)).addBeginnings calls startIndex sets w').candidates := by
  rw [addBeginnings_eq, addBeginnings_eq]
  induction sets.toList generalizing w w' with
  | nil => exact hw
  | cons set rest ih =>
    exact ih (filtered_offer hnone hw _ _ (adds_addOfSet set) (adds_addOfSet set)
      (shuns_addOfSet (input.under (input.ignoring ignored)) set))

omit hnone in
theorem filtered_reportPreferred (hw : w.candidates.Filtered ignored w'.candidates)
    (calls : List OpenRule) :
    (input.reportPreferred calls w).2.candidates.Filtered ignored
      ((input.under (input.ignoring ignored)).reportPreferred calls w').2.candidates := by
  have hsame : (input.under (input.ignoring ignored)).preferredOn calls = input.preferredOn calls := rfl
  unfold reportPreferred
  rw [hsame]
  split
  · exact hw
  · exact hw.addRule _ _

/-- A walk that ignores types keeps to one that ignores none. -/
theorem keeps_ignoring : input.Keeps (input.ignoring ignored) (fun _ _ => True) (Filtered ignored) := by
  refine ⟨rfl, fun c c' h => h.cancelled, fun c c' h => ⟨h.rules, rfl, h.tokens, h.shuns⟩,
    fun _ _ _ _ _ => trivial, fun _ _ _ _ _ _ _ _ _ _ _ => trivial, ?_, ?_⟩
  · intro calls r i _ w w' hw
    have hsame : (input.under (input.ignoring ignored)).options.preferred = input.options.preferred := rfl
    unfold atCaretIn
    dsimp only
    rw [hsame]
    split
    · exact filtered_reportPreferred hw _
    · exact filtered_addBeginnings hnone hw _ _ _
  · intro calls s _ t _ types _ w w' hw
    rw [addEdge_eq, addEdge_eq]
    exact filtered_offer hnone hw _ _ (adds_addOnEdge t types) (adds_addOnEdge t types)
      (shuns_addOnEdge (input.under (input.ignoring ignored)) t types)

end

end CompletionInput

/-- Whatever the grammar, the predicates and the other options: with ignored types a completion reports the
rules it reports without, the types it reports without but the ignored ones, and no ignored type in the run
after a type. -/
theorem CompiledGrammar.complete_ignoring (g : CompiledGrammar) (predicates : Predicates)
    (options : CompletionOptions) (ignored : List TokenType) (input : TokenCursor) (caret : Nat)
    (context : Option Invocation) {fuel fuel' : Nat} {found found' : Candidates}
    (h : g.complete predicates { options with ignored := [] } input caret context fuel = some found)
    (h' : g.complete predicates { options with ignored } input caret context fuel' = some found') :
    found'.rules = found.rules ∧ (∀ t, t ∈ found'.tokens ↔ t ∈ found.tokens ∧ t ∉ ignored) ∧
      ∀ (t : TokenType) (following : List TokenType), found'.tokens[t]? = some following →
        ∀ k ∈ following, k ∉ ignored := by
  have hempty : ({} : Candidates).Filtered ignored {} :=
    ⟨rfl, rfl, fun t => by simp, fun t following ht => by simp at ht⟩
  have hfiltered := complete_alongside h h' hempty fun _ _ =>
    ⟨CompletionInput.keeps_ignoring rfl, trivial⟩
  exact ⟨hfiltered.rules, hfiltered.tokens, hfiltered.shuns⟩

/-- At the caret `twoFloors` offers MINUS and ID; with ID ignored it offers MINUS only. -/
theorem ignoring_twoFloors : ∃ c, twoFloors.compile = .ok c ∧ ∃ found found',
    c.complete .always {} (.ofTokens #[] defaultChannel) 0 none 30 = some found ∧
    c.complete .always { ignored := [3] } (.ofTokens #[] defaultChannel) 0 none 30 = some found' ∧
    (1 ∈ found.tokens ∧ 3 ∈ found.tokens) ∧ (1 ∈ found'.tokens ∧ 3 ∉ found'.tokens) ∧
    found'.rules = found.rules := by
  obtain ⟨nextTokens, hcompile⟩ := compile_twoFloors
  have hrun : ((twoFloorsGrammar nextTokens).complete .always {} (.ofTokens #[] defaultChannel) 0 none
      30).map (fun found => (found.tokens.contains 1, found.tokens.contains 3)) = some (true, true) := by cbv
  have hrun' : ((twoFloorsGrammar nextTokens).complete .always { ignored := [3] }
      (.ofTokens #[] defaultChannel) 0 none 30).isSome = true := by cbv
  obtain ⟨found, hfound, hmem⟩ := Option.map_eq_some_iff.1 hrun
  obtain ⟨found', hfound'⟩ := Option.isSome_iff_exists.1 hrun'
  simp only [Prod.mk.injEq, Std.TreeMap.contains_iff_mem] at hmem
  obtain ⟨hrules, htokens, -⟩ := CompiledGrammar.complete_ignoring (twoFloorsGrammar nextTokens) .always {}
    [3] (.ofTokens #[] defaultChannel) 0 none hfound hfound'
  exact ⟨_, hcompile, found, found', hfound, hfound', hmem,
    ⟨(htokens 1).2 ⟨hmem.1, by decide⟩, fun h => ((htokens 3).1 h).2 (.head _)⟩, hrules⟩

end AdaptiveParsing
