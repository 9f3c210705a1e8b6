import AdaptiveParsing.Proofs.Completion.Exactness
import AdaptiveParsing.Proofs.Network.Idling
/-!
A walk to the caret is done after some number of steps, unless a loop can be passed without a token. From an
item the walk comes to items past edges that take no token, at the same place, and to items at later places
(`CompletionInput.LeadsTo`); a rule that it enters before any token is not one it is in. So if no state comes
back to itself without a token, there is nothing to go on with in the end. Main statement:
`CompiledGrammar.complete_finishes`. A walk that comes to a state from which free edges go round is never done
(`CompletionInput.walkItems_eq_none`).
-/

namespace AdaptiveParsing

namespace Network

variable {n : Network} {levels : RuleId → Int → Prop} {nullable : RuleId → Prop} {a b s : StateId}
  {r : RuleId}

/-- No state comes back to itself without a token. -/
def LoopsTakeTokens (n : Network) : Prop := ∀ s, ¬ Relation.TransGen n.Glides s s

/-- It is enough that edges without a token lead down. -/
theorem loopsTakeTokens_of_rank (rank : StateId → Nat)
    (h : ∀ s < n.states.size, ∀ t ∈ (n.state s).transitions, t.isConsuming = false →
      rank t.next < rank s) : n.LoopsTakeTokens := by
  have hdown : ∀ a b, n.Glides a b → rank b < rank a := by
    rintro a b ⟨t, ht, hx⟩
    cases hx with
    | free hc hk =>
      have := h a (lt_of_edge ht) t ht hk
      rwa [Transition.next_eq_target hc] at this
    | call hk he =>
      have := h a (lt_of_edge ht) t ht (by simp [Transition.isConsuming, hk, EdgeKind.isConsuming])
      simpa [Transition.next, hk] using this
  intro s hcycle
  have hlt : ∀ b, Relation.TransGen n.Glides s b → rank b < rank s := by
    intro b hb
    induction hb with
    | single hb => exact hdown _ _ hb
    | tail _ hb ih => exact Nat.lt_trans (hdown _ _ hb) ih
  exact Nat.lt_irrefl _ (hlt s hcycle)

theorem Checked.glides_lt (hc : n.Checked) (h : n.Glides a b) : b < n.states.size := by
  obtain ⟨t, ht, hx⟩ := h
  cases hx with
  | free _ _ => exact hc.target_lt a t ht
  | call hk _ => exact hc.follow_lt a t ht _ _ _ hk

theorem exits_of_glides (h : Relation.ReflTransGen n.Glides a b)
    (hstop : (n.state b).isRuleStop = true) : n.Exits a [] := by
  have hdrifts : n.Drifts a [] b [] := by
    clear hstop
    induction h with
    | refl => exact .refl
    | tail _ hb ih =>
      obtain ⟨t, ht, hx⟩ := hb
      exact ih.trans (hx.drifts ht)
  exact ⟨b, hdrifts, hstop⟩

/-- Gliding stays in the rule. -/
theorem freeFrom_glide (hs : n.Shaped levels) (hp : n.Progressive nullable)
    (h : FreeFrom n.state nullable (n.rule r).start a) (hab : n.Glides a b) :
    FreeFrom n.state nullable (n.rule r).start b := by
  obtain ⟨t, ht, hx⟩ := hab
  cases hx with
  | free hc hk => exact h.step ht (.edge hc hk)
  | call hk he => exact h.step ht (.call hk (nullable_of_exits hs hp ht hk he))

end Network

namespace CompletionInput

variable (input : CompletionInput)

/-- The network is that of a grammar, and the sets are those of its rules. -/
structure Founded (levels : RuleId → Int → Prop) : Prop where
  shaped : input.network.Shaped levels
  checked : input.network.Checked
  sets : ∀ r, r < input.network.rules.size → input.followSets r = input.network.followSets r

/-- A rule entered at a place can end there, if it can be passed without a token, and at later places. -/
def EndsAt (r : RuleId) (i j : Nat) : Prop :=
  j = i ∧ input.network.Exits (input.network.rule r).start [] ∨ i < j ∧ j < input.tokens.size

/-- From an item the walk can come to another: without a token, or at a later place. -/
def LeadsTo (item next : WalkItem) : Prop :=
  next.position = item.position ∧ input.network.Glides item.state next.state ∨
    item.position < next.position ∧ next.position < input.tokens.size

/-- In a rule entered at a place the walk can come to an item. -/
def Inside (r : RuleId) (i : Nat) (item : WalkItem) : Prop :=
  item.position = i ∧
      Relation.ReflTransGen input.network.Glides (input.network.rule r).start item.state ∨
    i < item.position ∧ item.position < input.tokens.size

/-- The walk goes on unless it is told to stop, and remembers of rules where they can end. -/
structure Tracks (w : CandidateWalk) : Prop where
  running : input.options.stop = false → w.candidates.cancelled = false
  ends : ∀ (r : RuleId) (i : Nat) (known : List Nat), w.ends[(r, i)]? = some known →
    ∀ j ∈ known, input.EndsAt r i j

variable {input} {levels : RuleId → Int → Prop} {w w' : CandidateWalk} {r : RuleId} {i j : Nat}
  {item next : WalkItem} {found : List Nat} {fuel : Nat} {calls outer : List OpenRule}
  {floor : Option Int} {precedence : Int} {edges : List Transition} {items : List WalkItem}
  {t : Transition} {s : StateId}

theorem Inside.leadsTo (h : input.Inside r i item) (hnext : input.LeadsTo item next) :
    input.Inside r i next := by
  rcases h with ⟨hi, hglides⟩ | hlater
  · rcases hnext with ⟨hp, hglide⟩ | hnext
    · exact .inl ⟨hp.trans hi, hglides.tail hglide⟩
    · exact .inr ⟨hi ▸ hnext.1, hnext.2⟩
  · rcases hnext with ⟨hp, -⟩ | hnext
    · exact .inr (by rwa [hp])
    · exact .inr ⟨Nat.lt_trans hlater.1 hnext.1, hnext.2⟩

theorem Inside.endsAt (h : input.Inside r i item)
    (hstop : (input.network.state item.state).isRuleStop = true) :
    input.EndsAt r i item.position :=
  h.imp (fun ⟨hi, hglides⟩ => ⟨hi, Network.exits_of_glides hglides hstop⟩) id

theorem Tracks.reports (h : input.Tracks w) (hw : w.Reports w') : input.Tracks w' :=
  ⟨fun hs => hw.cancelled.trans (h.running hs), by rw [hw.ends]; exact h.ends⟩

theorem Tracks.remember (h : input.Tracks w) (hfound : ∀ j ∈ found, input.EndsAt r i j) :
    input.Tracks (w.remember r i found) := by
  unfold CandidateWalk.remember
  split
  · exact h
  · refine ⟨h.running, fun r' i' known hk => ?_⟩
    rw [Std.HashMap.getElem?_insert] at hk
    split at hk
    · rename_i heq
      obtain ⟨rfl, rfl⟩ := Prod.mk.inj (eq_of_beq heq)
      cases hk
      exact hfound
    · exact h.ends r' i' known hk

theorem Tracks.checkStop (h : input.Tracks w) : input.checkStop w = (false, w) ∨
    input.options.stop = true ∧ ∃ w', input.checkStop w = (true, w') ∧ input.Tracks w' := by
  rcases checkStop_cases input w with ⟨-, -, hgo⟩ | ⟨hc, hstop⟩ | ⟨hs, hstop⟩
  · exact .inl hgo
  · refine .inr ⟨?_, w, hstop, h⟩
    by_contra hs
    rw [h.running (by simpa using hs)] at hc
    cases hc
  · exact .inr ⟨hs, w.cancel, hstop, fun hs' => (by rw [hs] at hs'; cases hs'), h.ends⟩

/-- Where the walk goes with so much fuel: the answer and what it remembers are places at which rules can
end, and past the edges of a state it has all items that they lead to. -/
structure Follows (input : CompletionInput) (fuel : Nat) : Prop where
  rule : ∀ r i outer floor precedence w ends w', input.Tracks w →
    input.walkRule fuel r i outer floor precedence w = some (ends, w') →
    input.Tracks w' ∧ (r < input.network.rules.size → ∀ j ∈ ends, input.EndsAt r i j)
  items : ∀ r i calls floor items found w ends w', input.Tracks w →
    (∀ item ∈ items, input.Inside r i item) → (∀ j ∈ found, input.EndsAt r i j) →
    input.walkItems fuel calls floor items found w = some (ends, w') →
    input.Tracks w' ∧ ∀ j ∈ ends, input.EndsAt r i j
  edges : ∀ calls floor i s edges items w items' w', input.Tracks w →
    (∀ t ∈ edges, t ∈ (input.network.state s).transitions) →
    input.walkEdges fuel calls floor i edges items w = some (items', w') →
    input.Tracks w' ∧ ∃ more, items' = more ++ items ∧ (∀ next ∈ more, input.LeadsTo ⟨s, i⟩ next) ∧
      ∀ t ∈ edges, t.call? = none → ∀ next ∈ input.past floor i t, next ∈ more

section

variable (hinput : input.Founded levels)

include hinput

theorem follows_rule (ih : input.Follows fuel) (hw : input.Tracks w) {ends : List Nat}
    (h : input.walkRule (fuel + 1) r i outer floor precedence w = some (ends, w')) :
    input.Tracks w' ∧ (r < input.network.rules.size → ∀ j ∈ ends, input.EndsAt r i j) := by
  cases hknown : w.ends[(r, i)]? with
  | some known =>
    rw [walkRule_of_known hknown] at h
    cases h
    exact ⟨hw, fun _ => hw.ends r i ends hknown⟩
  | none =>
    rw [walkRule_of_new hknown] at h
    rcases hw.checkStop with hgo | ⟨-, w₁, hstop, hw₁⟩
    · rw [hgo] at h
      dsimp only at h
      split at h
      · have hends : _ = ends := congrArg Prod.fst (Option.some.inj h)
        have hafter : _ = w' := congrArg Prod.snd (Option.some.inj h)
        rw [← hends, ← hafter]
        refine ⟨hw.reports (reports_atCaretIn _ r i w), fun hr j hj => ?_⟩
        obtain ⟨hexits, rfl⟩ := mem_atCaretIn.1 hj
        rw [hinput.sets r hr] at hexits
        exact .inl ⟨rfl, Network.exits_of_followSets hexits⟩
      · split at h
        · cases h
          exact ⟨hw, by simp⟩
        · obtain ⟨⟨ends₁, w₁⟩, hwalk, he⟩ := Option.map_eq_some_iff.1 h
          cases he
          have hstart : ∀ item ∈ [(⟨(input.network.rule r).start, i⟩ : WalkItem)],
              input.Inside r i item := by
            intro item hitem
            rw [List.mem_singleton.1 hitem]
            exact .inl ⟨rfl, .refl⟩
          obtain ⟨hw₁, hends⟩ := ih.items r i _ _ _ _ _ _ _ hw hstart (by simp) hwalk
          exact ⟨hw₁.remember hends, fun _ => hends⟩
    · rw [hstop] at h
      cases h
      exact ⟨hw₁, by simp⟩

omit hinput in
theorem follows_items (ih : input.Follows fuel) (hw : input.Tracks w)
    (hitems : ∀ item ∈ items, input.Inside r i item) (hfound : ∀ j ∈ found, input.EndsAt r i j)
    {ends : List Nat} (h : input.walkItems (fuel + 1) calls floor items found w = some (ends, w')) :
    input.Tracks w' ∧ ∀ j ∈ ends, input.EndsAt r i j := by
  cases items with
  | nil =>
    rw [walkItems_nil] at h
    cases h
    exact ⟨hw, hfound⟩
  | cons item items =>
    obtain ⟨hitem, hrest⟩ := List.forall_mem_cons.1 hitems
    rw [walkItems_cons] at h
    rcases hw.checkStop with hgo | ⟨-, w₁, hstop, hw₁⟩
    · rw [hgo] at h
      dsimp only at h
      split at h
      · rename_i hend
        refine ih.items r i _ _ _ _ _ _ _ hw hrest (fun j hj => ?_) h
        rcases mem_insertAscending.1 hj with rfl | hj
        · exact hitem.endsAt hend
        · exact hfound j hj
      · obtain ⟨⟨items₁, w₁⟩, hedges, h⟩ := Option.bind_eq_some_iff.1 h
        obtain ⟨hw₁, more, rfl, hmore, -⟩ :=
          ih.edges _ _ _ item.state _ _ _ _ _ hw (fun _ ht => ht) hedges
        exact ih.items r i _ _ _ _ _ _ _ hw₁
          (List.forall_mem_append.2 ⟨fun next hn => hitem.leadsTo (hmore next hn), hrest⟩) hfound h
    · rw [hstop] at h
      cases h
      exact ⟨hw₁, hfound⟩

theorem follows_edges (ih : input.Follows fuel) (hw : input.Tracks w)
    (hedges : ∀ t ∈ edges, t ∈ (input.network.state s).transitions) {items' : List WalkItem}
    (h : input.walkEdges (fuel + 1) calls floor i edges items w = some (items', w')) :
    input.Tracks w' ∧ ∃ more, items' = more ++ items ∧ (∀ next ∈ more, input.LeadsTo ⟨s, i⟩ next) ∧
      ∀ t ∈ edges, t.call? = none → ∀ next ∈ input.past floor i t, next ∈ more := by
  cases edges with
  | nil =>
    rw [walkEdges_nil] at h
    cases h
    exact ⟨hw, [], rfl, by simp, by simp⟩
  | cons t edges =>
    obtain ⟨ht, hrest⟩ := List.forall_mem_cons.1 hedges
    cases hcall : t.call? with
    | none =>
      rw [walkEdges_plain hcall] at h
      obtain ⟨hw', more, rfl, hmore, hpast⟩ :=
        ih.edges _ _ _ s _ _ _ _ _ (hw.reports (reports_report _ i t w)) hrest h
      refine ⟨hw', more ++ input.past floor i t, by rw [List.append_assoc],
        List.forall_mem_append.2 ⟨hmore, fun next hn => ?_⟩, List.forall_mem_cons.2 ⟨?_, ?_⟩⟩
      · obtain ⟨hstate, ⟨hk, hp⟩ | ⟨-, hcaret, hp⟩⟩ := mem_past hcall hn
        · refine .inl ⟨hp, t, ht, ?_⟩
          rw [hstate]
          exact .free hcall hk
        · have : i + 1 < input.tokens.size := by simpa [atCaret] using hcaret
          exact .inr ⟨by rw [hp]; exact Nat.lt_succ_self i, by rwa [hp]⟩
      · exact fun _ next hn => List.mem_append.2 (.inr hn)
      · exact fun u hu hc next hn => List.mem_append.2 (.inl (hpast u hu hc next hn))
    | some call =>
      obtain ⟨r, follow, precedence, hk⟩ := exists_of_call? hcall
      rw [walkEdges_call hk] at h
      obtain ⟨⟨ends, w₁⟩, hrule, h⟩ := Option.bind_eq_some_iff.1 h
      obtain ⟨hr, htarget⟩ := hinput.shaped.call s t ht r follow precedence hk
      obtain ⟨hw₁, hends⟩ := ih.rule _ _ _ _ _ _ _ _ hw hrule
      obtain ⟨hw', more, rfl, hmore, hpast⟩ := ih.edges _ _ _ s _ _ _ _ _ hw₁ hrest h
      refine ⟨hw', more ++ backAt follow ends, by rw [List.append_assoc],
        List.forall_mem_append.2 ⟨hmore, fun next hn => ?_⟩, List.forall_mem_cons.2 ⟨?_, ?_⟩⟩
      · obtain ⟨hstate, hposition⟩ := mem_backAt.1 hn
        rcases hends hr _ hposition with ⟨hp, hexits⟩ | hlater
        · refine .inl ⟨hp, t, ht, ?_⟩
          rw [hstate]
          exact .call hk (by rwa [htarget])
        · exact .inr hlater
      · intro hc
        rw [hcall] at hc
        cases hc
      · exact fun u hu hc next hn => List.mem_append.2 (.inl (hpast u hu hc next hn))

theorem follows (fuel : Nat) : input.Follows fuel := by
  induction fuel with
  | zero =>
    refine ⟨?_, ?_, ?_⟩
    · intro r i outer floor precedence w ends w' _ h
      rw [walkRule] at h
      cases h
    · intro r i calls floor items found w ends w' _ _ _ h
      rw [walkItems] at h
      cases h
    · intro calls floor i s edges items w items' w' _ _ h
      rw [walkEdges] at h
      cases h
  | succ fuel ih =>
    exact ⟨fun r i outer floor precedence w ends w' hw h => follows_rule hinput ih hw h,
      fun r i calls floor items found w ends w' hw hitems hfound h =>
        follows_items ih hw hitems hfound h,
      fun calls floor i s edges items w items' w' hw hedges h => follows_edges hinput ih hw hedges h⟩

end

/-! What is done after some number of steps. -/

variable (input)

/-- A rule entered at a place is walked through in the end. -/
def RuleDone (r : RuleId) (i : Nat) : Prop :=
  ∀ outer floor precedence w, input.Tracks w →
    ∃ fuel answer, input.walkRule fuel r i outer floor precedence w = some answer

/-- The items are worked off in the end. -/
def ItemsDone (calls : List OpenRule) (floor : Option Int) (items : List WalkItem) : Prop :=
  ∀ found w, input.Tracks w →
    ∃ fuel answer, input.walkItems fuel calls floor items found w = some answer

/-- An item is worked off in the end, and the others after it. -/
def ItemDone (item : WalkItem) : Prop :=
  ∀ calls floor items, input.ItemsDone calls floor items → input.ItemsDone calls floor (item :: items)

/-- At a place all rules that a state calls are walked through in the end. -/
def CallsDone (s : StateId) (i : Nat) : Prop :=
  ∀ t ∈ (input.network.state s).transitions, ∀ r follow precedence,
    t.kind = .rule r follow precedence → input.RuleDone r i

variable {input}

theorem itemsDone_nil : input.ItemsDone calls floor [] := fun _ _ _ => ⟨1, _, walkItems_nil⟩

theorem itemsDone_append {more : List WalkItem} (h : ∀ item ∈ more, input.ItemDone item)
    (hitems : input.ItemsDone calls floor items) : input.ItemsDone calls floor (more ++ items) := by
  induction more with
  | nil => exact hitems
  | cons item more ih =>
    obtain ⟨hitem, hmore⟩ := List.forall_mem_cons.1 h
    exact hitem _ _ _ (ih hmore)

section

variable (hinput : input.Founded levels)

include hinput

theorem edges_done (calls : List OpenRule) (floor : Option Int) (items : List WalkItem)
    (hedges : ∀ t ∈ edges, t ∈ (input.network.state s).transitions)
    (hcalls : input.CallsDone s i) (hw : input.Tracks w) :
    ∃ fuel answer, input.walkEdges fuel calls floor i edges items w = some answer := by
  induction edges generalizing items w with
  | nil => exact ⟨1, _, walkEdges_nil⟩
  | cons t edges ih =>
    obtain ⟨ht, hrest⟩ := List.forall_mem_cons.1 hedges
    cases hcall : t.call? with
    | none =>
      obtain ⟨fuel, answer, hwalk⟩ := ih _ hrest (hw.reports (reports_report calls.reverse i t w))
      exact ⟨fuel + 1, answer, by rw [walkEdges_plain hcall]; exact hwalk⟩
    | some call =>
      obtain ⟨r, follow, precedence, hk⟩ := exists_of_call? hcall
      obtain ⟨fuel, ⟨ends, w₁⟩, hrule⟩ := hcalls t ht r follow precedence hk calls floor precedence w hw
      have hw₁ := ((follows hinput fuel).rule _ _ _ _ _ _ _ _ hw hrule).1
      obtain ⟨fuel', answer, hwalk⟩ := ih (backAt follow ends ++ items) hrest hw₁
      refine ⟨max fuel fuel' + 1, answer, ?_⟩
      rw [walkEdges_call hk, walkRule_of_le (Nat.le_max_left fuel fuel') hrule, Option.bind_some]
      exact walkEdges_of_le (Nat.le_max_right fuel fuel') hwalk

/-- An item is worked off if all it leads to is. -/
theorem itemDone_of_next (hcalls : input.CallsDone item.state item.position)
    (hnext : ∀ next, input.LeadsTo item next → input.ItemDone next) : input.ItemDone item := by
  intro calls floor items hitems found w hw
  rcases hw.checkStop with hgo | ⟨-, w₁, hstop, -⟩
  · by_cases hend : (input.network.state item.state).isRuleStop = true
    · obtain ⟨fuel, answer, hwalk⟩ := hitems (insertAscending item.position found) w hw
      refine ⟨fuel + 1, answer, ?_⟩
      rw [walkItems_cons, hgo]
      dsimp only
      rwa [if_pos hend]
    · obtain ⟨fuel, ⟨items₁, w₁⟩, hedges⟩ :=
        edges_done hinput calls floor items (fun _ ht => ht) hcalls hw
      obtain ⟨hw₁, more, rfl, hmore, -⟩ :=
        (follows hinput fuel).edges _ _ _ item.state _ _ _ _ _ hw (fun _ ht => ht) hedges
      obtain ⟨fuel', answer, hwalk⟩ :=
        itemsDone_append (fun next hn => hnext next (hmore next hn)) hitems found w₁ hw₁
      refine ⟨max fuel fuel' + 1, answer, ?_⟩
      rw [walkItems_cons, hgo]
      dsimp only
      rw [if_neg hend, walkEdges_of_le (Nat.le_max_left fuel fuel') hedges, Option.bind_some]
      exact walkItems_of_le (Nat.le_max_right fuel fuel') hwalk
  · exact ⟨1, _, by rw [walkItems_cons, hstop]⟩

/-- At a place the walk glides through some states that it does not leave without a token: their items are
worked off if what they call at this place and all items at later places are. -/
theorem itemDone_of_later (hloop : input.network.LoopsTakeTokens) {S : StateId → Prop}
    (hS : ∀ a b, S a → input.network.Glides a b → S b) (hcalls : ∀ s, S s → input.CallsDone s i)
    (hlater : ∀ next : WalkItem, i < next.position → next.position < input.tokens.size →
      input.ItemDone next) : ∀ s, S s → input.ItemDone ⟨s, i⟩ := by
  have hwf := wellFounded_of_bounded (fun a b => hinput.checked.glides_lt (a := a) (b := b)) hloop
  intro s
  induction s using hwf.induction with
  | _ s ih =>
    intro hs
    refine itemDone_of_next hinput (hcalls s hs) fun next hn => ?_
    rcases hn with ⟨hp, hglide⟩ | ⟨hlt, hsize⟩
    · obtain ⟨b, j⟩ := next
      obtain rfl : j = i := hp
      exact ih b hglide (hS s b hs hglide)
    · exact hlater next hlt hsize

omit hinput in
/-- A rule is walked through in the end if the item at its start is worked off. -/
theorem ruleDone_of_start (hstart : input.ItemDone ⟨(input.network.rule r).start, i⟩) :
    input.RuleDone r i := by
  intro outer floor precedence w hw
  cases hknown : w.ends[(r, i)]? with
  | some known => exact ⟨1, _, walkRule_of_known hknown⟩
  | none =>
    rcases hw.checkStop with hgo | ⟨-, w₁, hstop, -⟩
    · by_cases hcaret : input.atCaret i = true
      · exact ⟨1, _, by rw [walkRule_of_new hknown, hgo]; dsimp only; rw [if_pos hcaret]⟩
      · by_cases hrefused : input.refuses r i = true
        · exact ⟨1, _, by
            rw [walkRule_of_new hknown, hgo]; dsimp only; rw [if_neg hcaret, if_pos hrefused]⟩
        · obtain ⟨fuel, answer, hwalk⟩ := hstart (input.opened r i :: outer)
            (input.floorIn r floor precedence) [] itemsDone_nil [] w hw
          refine ⟨fuel + 1, (answer.1, answer.2.remember r i answer.1), ?_⟩
          rw [walkRule_of_new hknown, hgo]
          dsimp only
          rw [if_neg hcaret, if_neg hrefused, hwalk, Option.map_some]
    · exact ⟨1, _, by rw [walkRule_of_new hknown, hstop]⟩

/-- At a place every rule is walked through and every item worked off, if the items at later places are. -/
theorem done_at (hloop : input.network.LoopsTakeTokens)
    (hlater : ∀ next : WalkItem, i < next.position → next.position < input.tokens.size →
      input.ItemDone next) : (∀ r, input.RuleDone r i) ∧ ∀ s, input.ItemDone ⟨s, i⟩ := by
  obtain ⟨nullable, hp⟩ := hinput.checked.progressive
  have hbound : ∀ a b, input.network.LeftCalls nullable a b → b < input.network.rules.size := by
    rintro a b ⟨-, s, -, t, ht, follow, precedence, hk⟩
    exact (hinput.shaped.call s t ht b follow precedence hk).1
  -- rules that are called before any token come first
  have hrules : ∀ r, r < input.network.rules.size → input.RuleDone r i := by
    intro r
    induction r using (wellFounded_of_bounded hbound hp.acyclic).induction with
    | _ r ih =>
      intro hr
      refine ruleDone_of_start (itemDone_of_later hinput hloop
        (S := FreeFrom input.network.state nullable (input.network.rule r).start)
        (fun a b ha hab => Network.freeFrom_glide hinput.shaped hp ha hab) ?_ hlater _ .refl)
      intro s hs t ht c follow precedence hk
      exact ih c ⟨hr, s, hs, t, ht, follow, precedence, hk⟩
        (hinput.shaped.call s t ht c follow precedence hk).1
  have hitems : ∀ s, input.ItemDone ⟨s, i⟩ := fun s =>
    itemDone_of_later hinput hloop (S := fun _ => True) (fun _ _ _ _ => trivial)
      (fun s _ t ht c follow precedence hk =>
        hrules c (hinput.shaped.call s t ht c follow precedence hk).1) hlater s trivial
  exact ⟨fun r => ruleDone_of_start (hitems _), hitems⟩

/-- Every rule is walked through in the end. -/
theorem ruleDone (hloop : input.network.LoopsTakeTokens) (r : RuleId) (i : Nat) :
    input.RuleDone r i := by
  have hitems : ∀ left i s, input.tokens.size - i ≤ left → input.ItemDone ⟨s, i⟩ := by
    intro left
    induction left with
    | zero =>
      intro i s hleft
      exact (done_at hinput hloop fun next _ _ => by omega).2 s
    | succ left ih =>
      intro i s hleft
      exact (done_at hinput hloop fun next _ _ => ih next.position next.state (by omega)).2 s
  exact (done_at hinput hloop fun next _ _ => hitems _ _ _ (Nat.le_refl _)).1 r

/-- A walk that comes to states from which a free edge always leads to another of them is never done. -/
theorem walkItems_eq_none (hstop : input.options.stop = false) {S : StateId → Prop}
    (hS : ∀ s, S s → (input.network.state s).isRuleStop = false ∧
      ∃ t ∈ (input.network.state s).transitions, t.kind.isFree = true ∧ S t.target)
    (fuel : Nat) (calls : List OpenRule) (floor : Option Int) {items : List WalkItem}
    (hitems : ∃ item ∈ items, S item.state) (found : List Nat) {w : CandidateWalk}
    (hw : input.Tracks w) : input.walkItems fuel calls floor items found w = none := by
  induction fuel generalizing items found w with
  | zero => rw [walkItems]
  | succ fuel ih =>
    obtain ⟨first, hfirst, hs⟩ := hitems
    cases items with
    | nil => cases hfirst
    | cons item items =>
      have hgo : input.checkStop w = (false, w) := by
        refine hw.checkStop.resolve_right fun h => ?_
        rw [hstop] at h
        cases h.1
      rw [walkItems_cons, hgo]
      dsimp only
      by_cases hend : (input.network.state item.state).isRuleStop = true
      · rw [if_pos hend]
        refine ih ⟨first, (List.mem_cons.1 hfirst).resolve_left ?_, hs⟩ _ hw
        rintro rfl
        rw [(hS _ hs).1] at hend
        cases hend
      · rw [if_neg hend]
        cases hedges : input.walkEdges fuel calls floor item.position
            (input.network.state item.state).transitions items w with
        | none => rfl
        | some answer =>
          obtain ⟨items₁, w₁⟩ := answer
          obtain ⟨hw₁, more, rfl, -, hpast⟩ :=
            (follows hinput fuel).edges _ _ _ item.state _ _ _ _ _ hw (fun _ ht => ht) hedges
          refine ih ?_ found hw₁
          rcases List.mem_cons.1 hfirst with rfl | hrest
          · obtain ⟨-, t, ht, hfree, htarget⟩ := hS _ hs
            obtain ⟨hcall, hpast₁⟩ := past_of_free input floor first.position hfree
            have hnext := hpast t ht hcall ⟨t.target, first.position⟩ (by rw [hpast₁]; exact .head _)
            exact ⟨_, List.mem_append.2 (.inl hnext), htarget⟩
          · exact ⟨first, List.mem_append.2 (.inr hrest), hs⟩

end

end CompletionInput

namespace CompiledGrammar

theorem founded_completion {g : Grammar} {c : CompiledGrammar} (h : g.compile = .ok c)
    (predicates : Predicates) (options : CompletionOptions) (tokens : List (Nat × TokenType)) :
    (c.completion predicates options tokens).Founded g.HasLevel :=
  ⟨(Grammar.shaped_compile h).1, Grammar.checked_compile h,
    fun _ hr => followSets_completion.trans (if_pos hr)⟩

theorem tracks_empty (input : CompletionInput) : input.Tracks {} := ⟨fun _ => rfl, by simp⟩

/-- In a grammar whose loops take a token in every round, a completion is done after some number of steps,
whatever the predicates, the options, the tokens, the caret and the rule it begins with. -/
theorem complete_finishes {g : Grammar} {c : CompiledGrammar} (h : g.compile = .ok c)
    (hloop : c.network.LoopsTakeTokens) (predicates : Predicates) (options : CompletionOptions)
    (input : TokenCursor) (caret : Nat) (context : Option Invocation) :
    ∃ fuel found, c.complete predicates options input caret context fuel = some found := by
  obtain ⟨fuel, answer, hwalk⟩ := CompletionInput.ruleDone
    (founded_completion h predicates options (covered input caret context)) hloop (firstRule context) 0
    [] none 0 {} (tracks_empty _)
  by_cases hempty : (c.network.rules.isEmpty || (covered input caret context).isEmpty) = true
  · exact ⟨fuel, {}, by rw [complete_eq, if_pos hempty]⟩
  · exact ⟨fuel, answer.2.candidates, by rw [complete_eq, if_neg hempty, hwalk, Option.map_some]⟩

end CompiledGrammar

/-- The operands of `twoFloors` take a token before they are entered again, and its loop takes an operator
in every round. -/
theorem complete_finishes_twoFloors : ∃ c, twoFloors.compile = .ok c ∧ c.network.LoopsTakeTokens ∧
    ∃ fuel found, c.complete .always {}
      (.ofTokens #[{ kind := 1 }, { kind := 3 }, { kind := 2 }] defaultChannel) 3 none fuel = some found := by
  obtain ⟨nextTokens, hcompile⟩ := compile_twoFloors
  have hloop : (twoFloorsGrammar nextTokens).network.LoopsTakeTokens :=
    Network.loopsTakeTokens_of_rank
      ([2, 0, 0, 3, 2, 1, 0, 5, 0, 7, 6, 5, 0, 5, 1, 4, 1, 0, 6, 3, 2, 5, 4, 1].getD · 0)
      (show ∀ s < 24, ∀ t ∈ (twoFloorsDraft.skeleton.state s).transitions, t.isConsuming = false → _ by
        decide)
  exact ⟨_, hcompile, hloop, CompiledGrammar.complete_finishes hcompile hloop .always {} _ 3 none⟩

/-- `s` is any number of rounds, and in a round A or nothing. -/
def idle : Grammar :=
  let (a, g) := ({} : Grammar).addToken "A"
  let (s, g) := g.addRule "s"
  g.define s (.plain (.star (.opt (.token a))))

def idleDraft : Draft where
  states := #[⟨.ruleStart, 0, [⟨6, .epsilon⟩], none, false⟩, ⟨.ruleStop, 0, [], none, false⟩,
    ⟨.basic, 0, [⟨3, .atom 1⟩], none, false⟩, ⟨.basic, 0, [⟨5, .epsilon⟩], none, false⟩,
    ⟨.blockStart, 0, [⟨2, .epsilon⟩, ⟨5, .epsilon⟩], none, false⟩,
    ⟨.blockEnd, 0, [⟨8, .epsilon⟩], none, false⟩,
    ⟨.starLoopEntry, 0, [⟨7, .epsilon⟩, ⟨10, .epsilon⟩], none, false⟩,
    ⟨.starBlockStart, 0, [⟨4, .epsilon⟩], none, false⟩, ⟨.blockEnd, 0, [⟨9, .epsilon⟩], none, false⟩,
    ⟨.starLoopBack, 0, [⟨6, .epsilon⟩], none, false⟩, ⟨.loopEnd, 0, [⟨1, .epsilon⟩], none, false⟩]
  rules := #[⟨⟨"s", 0, 1, false⟩, true⟩]
  maxType := 1

theorem draft_idle : idle.draft = .ok idleDraft := by cbv

/-- The rule can be passed without a token. -/
theorem nullableRules_idle : idleDraft.nullableRules = #[true] := by
  have hwalk : (idleDraft.freeWalk #[false] 0).seen.contains 1 = true := by cbv
  have hround : idleDraft.nullableRound #[false] = #[true] := by
    show (if (idleDraft.freeWalk #[false] 0).seen.contains 1 then
      (#[false] : Array Bool).set! 0 true else #[false]) = #[true]
    rw [hwalk]
    rfl
  show (if idleDraft.nullableRound #[false] == #[false] then #[false]
    else idleDraft.nullableFrom 1 (idleDraft.nullableRound #[false])) = #[true]
  rw [hround]
  rfl

theorem check_idle : idleDraft.check = .ok () := by
  have hcalls : idleDraft.leftCalls = #[[]] := by
    unfold Draft.leftCalls
    rw [nullableRules_idle]
    cbv
  have hcycle : idleDraft.leftRecursion? = none := by
    unfold Draft.leftRecursion?
    rw [hcalls]
    cbv
  unfold Draft.check
  rw [hcycle]
  cbv

/-- The network of `idle`, with some table of next tokens. -/
def idleGrammar (nextTokens : Array TokenSet) : CompiledGrammar :=
  ⟨{ idleDraft.skeleton with nextTokens }, idle.names⟩

theorem compile_idle : ∃ nextTokens, idle.compile = .ok (idleGrammar nextTokens) :=
  ⟨_, Grammar.compile_of_check draft_idle check_idle⟩

/-- With a body that can be left without a token a loop goes round without end: at the caret after A nothing
is ever answered. -/
theorem never_done : ∃ c, idle.compile = .ok c ∧ ∀ fuel,
    c.complete .always {} (.ofTokens #[{ kind := 1 }] defaultChannel) 1 none fuel = none := by
  obtain ⟨nextTokens, hcompile⟩ := compile_idle
  refine ⟨_, hcompile, fun fuel => ?_⟩
  have hcovered : CompiledGrammar.covered (.ofTokens #[{ kind := 1 }] defaultChannel) 1 none =
      [(0, 1), (1, TokenType.eof)] := by cbv
  have hfounded := CompiledGrammar.founded_completion hcompile .always {} [(0, 1), (1, TokenType.eof)]
  have hround : ∀ s ∈ [0, 6, 7, 4, 5, 8, 9], (idleDraft.skeleton.state s).isRuleStop = false ∧
      ∃ t ∈ (idleDraft.skeleton.state s).transitions,
        t.kind.isFree = true ∧ t.target ∈ [0, 6, 7, 4, 5, 8, 9] := by
    decide
  have hstart : (idleDraft.skeleton.rule 0).start ∈ [0, 6, 7, 4, 5, 8, 9] := by
    rw [Draft.rule_skeleton]
    decide
  have hfull : ((idleGrammar nextTokens).network.rules.isEmpty ||
      [(0, 1), (1, TokenType.eof)].isEmpty) = false := by cbv
  rw [CompiledGrammar.complete_eq, hcovered, hfull, if_neg (by decide), Option.map_eq_none_iff]
  cases fuel with
  | zero => rw [CompletionInput.walkRule]
  | succ fuel =>
    have hrefuses : ((idleGrammar nextTokens).completion .always {} [(0, 1), (1, TokenType.eof)]).refuses
        (CompiledGrammar.firstRule none) 0 = false := by cbv
    rw [CompletionInput.walkRule_of_new (by simp)]
    change (if false = true then _ else if _ then _ else _ : Option _) = none
    rw [if_neg (by decide), hrefuses, if_neg (by decide), Option.map_eq_none_iff]
    exact CompletionInput.walkItems_eq_none hfounded rfl hround fuel _ _ ⟨_, .head _, hstart⟩ []
      (CompiledGrammar.tracks_empty _)

end AdaptiveParsing
