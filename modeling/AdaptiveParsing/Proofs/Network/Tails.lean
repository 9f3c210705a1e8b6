import AdaptiveParsing.Proofs.Network.Edges
import Mathlib
/-!
Where operands return. Only an operand of a left-recursive rule is called with a floor above zero, and it
is the last element of its alternative, so from where it returns free edges lead to the loop. From the loop
others lead to the end of the rule, and a round begins with the choice of an operator and its level
(`TailShape`). Main statement: the rules of a compiled grammar have this shape (`Grammar.tails_compile`).
-/

namespace AdaptiveParsing

section

variable (state : StateId → NetworkState) (r : RuleId)

/-- Free edges within the rule lead from one state to another. -/
def Idles : StateId → StateId → Prop :=
  Relation.ReflTransGen fun a b => (state a).rule = r ∧ .epsilon b ∈ (state a).transitions

/-- The loop of a left-recursive rule, what follows it, and what its operands return to. -/
structure TailShape (rule : Rule) (loop : StateId) : Prop where
  loop_rule : (state loop).rule = r
  loop_marked : (state loop).precedenceDecision = true
  exit : Idles state r loop rule.stop
  /-- The edges of the choice between operators lead to levels. -/
  rounds : ∃ round exit, (state loop).transitions = [.epsilon round, .epsilon exit] ∧
    (state round).rule = r ∧ (state round).transitions ≠ [] ∧
    ∀ t ∈ (state round).transitions, (state t.target).rule = r ∧
      ∃ b level, (state t.target).transitions = [⟨b, .precedence level⟩]
  tail : ∀ s, (state s).rule = r → ∀ t ∈ (state s).transitions, ∀ c follow precedence,
    t.kind = .rule c follow precedence → 0 < precedence → Idles state r follow loop

/-- The operands of the rule are calls of itself, and they come last if it is left-recursive. -/
structure Tails (rule : Rule) : Prop where
  own : ∀ s, (state s).rule = r → ∀ t ∈ (state s).transitions, ∀ c follow precedence,
    t.kind = .rule c follow precedence → 0 < precedence → c = r
  shape : rule.leftRecursive = true → ∃ loop, TailShape state r rule loop

end

section

variable {σ σ' : StateId → NetworkState} {r : RuleId} {rule rule' : Rule} {a b loop : StateId}

theorem Idles.single (hr : (σ a).rule = r) (h : .epsilon b ∈ (σ a).transitions) : Idles σ r a b :=
  Relation.ReflTransGen.single ⟨hr, h⟩

/-- What has edges in the rule is the same. -/
structure SameTails (r : RuleId) (σ σ' : StateId → NetworkState) : Prop where
  forth : ∀ a, (σ a).rule = r → (σ a).transitions ≠ [] → (σ' a).rule = r ∧
    (σ' a).transitions = (σ a).transitions ∧ (σ' a).precedenceDecision = (σ a).precedenceDecision
  back : ∀ a, (σ' a).rule = r → (σ' a).transitions ≠ [] → (σ a).rule = r ∧
    (σ' a).transitions = (σ a).transitions

theorem Idles.congr (h : Idles σ r a b) (he : SameTails r σ σ') : Idles σ' r a b := by
  refine Relation.ReflTransGen.mono ?_ _ _ h
  rintro a b ⟨hr, ht⟩
  obtain ⟨hr', ht', -⟩ := he.forth a hr (List.ne_nil_of_mem ht)
  exact ⟨hr', ht' ▸ ht⟩

theorem TailShape.congr (h : TailShape σ r rule loop) (he : SameTails r σ σ')
    (hstop : rule'.stop = rule.stop) : TailShape σ' r rule' loop := by
  obtain ⟨round, exit, hloop, hround, hne, hguards⟩ := h.rounds
  obtain ⟨hr, ht, hm⟩ := he.forth loop h.loop_rule (by rw [hloop]; exact nofun)
  obtain ⟨hr', ht', -⟩ := he.forth round hround hne
  refine ⟨hr, hm.trans h.loop_marked, ?_, ⟨round, exit, ht.trans hloop, hr', ?_, ?_⟩, ?_⟩
  · rw [hstop]
    exact h.exit.congr he
  · rw [ht']
    exact hne
  · intro t hmem
    rw [ht'] at hmem
    obtain ⟨hrule, b, level, hlevel⟩ := hguards t hmem
    obtain ⟨hrule', hlevel', -⟩ := he.forth t.target hrule (by rw [hlevel]; exact nofun)
    exact ⟨hrule', b, level, hlevel'.trans hlevel⟩
  · intro s hs t hmem c follow precedence hk hp
    obtain ⟨hs', hts⟩ := he.back s hs (List.ne_nil_of_mem hmem)
    exact (h.tail s hs' t (hts ▸ hmem) c follow precedence hk hp).congr he

theorem Tails.congr (h : Tails σ r rule) (he : SameTails r σ σ') (hstop : rule'.stop = rule.stop)
    (hleft : rule'.leftRecursive = rule.leftRecursive) : Tails σ' r rule' := by
  refine ⟨?_, ?_⟩
  · intro s hs t hmem c follow precedence hk hp
    obtain ⟨hs', hts⟩ := he.back s hs (List.ne_nil_of_mem hmem)
    exact h.own s hs' t (hts ▸ hmem) c follow precedence hk hp
  · intro hl
    obtain ⟨loop, hloop⟩ := h.shape (hleft ▸ hl)
    exact ⟨loop, hloop.congr he hstop⟩

end

open Draft DraftM

variable {d d' d₁ : Draft} {r : RuleId} {s : StateId} {t : Transition} {parts : List Fragment}
  {f : Fragment} {entry exit : StateId}

/-- Lowering another rule leaves a rule as it is. -/
theorem Draft.Untouched.sameTails {k : RuleId} (h : Untouched k d d') (hne : r ≠ k) :
    SameTails r d.state d'.state where
  forth := by
    intro a ha ht
    obtain ⟨t, ht⟩ := List.exists_mem_of_ne_nil _ ht
    rw [h.old a (lt_of_edge ht) (ha ▸ hne)]
    exact ⟨ha, rfl, rfl⟩
  back := by
    intro a ha _
    have he := h.state_eq hne ha
    exact ⟨he ▸ ha, by rw [he]⟩

namespace Draft

theorem mem_addTransition_self (ha : s < d.states.size) :
    t ∈ ((d.addTransition s t).state s).transitions := by
  rw [state_addTransition ha, if_pos rfl]
  exact List.mem_append_right _ (.head _)

/-- An edge that is there stays. -/
theorem kept_mem (Q : StateId → EdgeKind → Prop) (s : StateId) (t : Transition) :
    Kept Q fun d => t ∈ (d.state s).transitions where
  state d kind r h := by
    rw [state_addState, if_neg (Nat.ne_of_lt (lt_of_edge h))]
    exact h
  edge d a u _ h := by
    rcases state_addTransition_or d a u s with he | ⟨rfl, he⟩
    · rwa [he]
    · rw [he]
      exact List.mem_append_left _ h
  mark d loop h := by
    simp only [markPrecedenceDecision, Draft.state, Array.getD_eq_getD_getElem?,
      Array.getElem?_modify] at h ⊢
    split
    · cases hs : d.states[s]? <;> rw [hs] at h <;> exact h
    · exact h
  leftRecursive _ _ h := h

end Draft

/-- The program leaves the edges that are there. -/
theorem DraftM.Keeps.mem {α : Type} {m : DraftM α} (h : Keeps (fun _ _ => True) m)
    (ht : t ∈ (d.state s).transitions) : t ∈ ((m.run d).2.state s).transitions :=
  h _ (kept_mem _ s t) d ht

/-- The exits of alternatives lead to one state. -/
theorem mem_alternatives_exit (hf : ∀ f ∈ parts, f.exit < d.states.size) (hmem : f ∈ parts) :
    .epsilon exit ∈ (((alternatives entry exit parts).run d).2.state f.exit).transitions := by
  induction parts generalizing d with
  | nil => cases hmem
  | cons g rest ih =>
    rw [alternatives_cons]
    rcases List.mem_cons.1 hmem with rfl | hmem
    · refine (keeps_alternatives (fun _ => trivial) entry exit rest).mem ?_
      exact mem_addTransition_self (by rw [size_addEpsilon]; exact hf _ (.head _))
    · exact ih (fun g hg => by simpa using hf g (.tail _ hg)) hmem

/-- The exit of one of several alternatives is that of the block, or leads there. -/
theorem exit_choice (hf : ∀ f ∈ parts, f.exit < d.states.size) (hmem : f ∈ parts) :
    let result := (choice r parts).run d
    f.exit = result.1.exit ∨ .epsilon result.1.exit ∈ (result.2.state f.exit).transitions := by
  have hblock : .epsilon ((block r parts false).run d).1.exit ∈
      ((((block r parts false).run d).2).state f.exit).transitions := by
    rw [block_run]
    refine mem_alternatives_exit (fun g hg => ?_) hmem
    rw [size_pair]
    exact Nat.lt_add_right 2 (hf g hg)
  rcases parts with - | ⟨only, - | ⟨next, rest⟩⟩
  · cases hmem
  · rw [List.mem_singleton.1 hmem]
    exact .inl rfl
  · exact .inr hblock

/-- A call with a floor above zero is one of its own rule and returns to one of these states, unless it is
in an old state. -/
def OperandsAt (r : RuleId) (old exits : StateId → Prop) (a : StateId) (k : EdgeKind) : Prop :=
  old a ∨ ∀ c follow precedence, k = .rule c follow precedence → 0 < precedence → c = r ∧ exits follow

section

variable {old exits : StateId → Prop} {level : Int}

theorem operandsAt_of_ne {k : EdgeKind} (h : ∀ c follow precedence, k ≠ .rule c follow precedence)
    (a : StateId) : OperandsAt r old exits a k :=
  .inr fun c follow precedence hk => absurd hk (h c follow precedence)

theorem operandsAt_epsilon (a : StateId) : OperandsAt r old exits a .epsilon :=
  operandsAt_of_ne (by simp) a

/-- The calls of elements have floor zero. -/
theorem operandsAt_edge (leaf : Element) (a follow : StateId) :
    OperandsAt r old exits a (leaf.edge r follow) := by
  cases leaf with
  | rule c =>
    right
    rintro c follow precedence ⟨⟩ hp
    exact absurd hp (Int.lt_irrefl 0)
  | _ => exact operandsAt_of_ne (by simp [Element.edge]) a

theorem operandsAt_lowerSequence (h : d.Only (OperandsAt r old exits)) (items : List Element) :
    ((Element.lowerSequence r items).run d).2.Only (OperandsAt r old exits) :=
  (Element.keeps_lowerSequence r operandsAt_epsilon items fun leaf _ a follow =>
    operandsAt_edge leaf a follow).only h

/-- An operand is added after a fragment. -/
theorem operandsAt_operand (h : d.Only (OperandsAt r old exits)) {floor : Int}
    (hexit : exits ((DraftM.call r r floor).run d).1.exit) (a : StateId) :
    (((DraftM.call r r floor).run d).2.addEpsilon a
      ((DraftM.call r r floor).run d).1.entry).Only (OperandsAt r old exits) := by
  rw [call_run] at hexit ⊢
  refine Only.addTransition (Only.addTransition ?_ (.inr ?_)) (operandsAt_epsilon _)
  · exact (h.addState _ _).addState _ _
  · rintro c follow precedence ⟨⟩ -
    exact ⟨rfl, hexit⟩

theorem operandsAt_lowerHead (h : d.Only (OperandsAt r old exits)) (a : OperatorAlternative)
    (hexit : ∀ f, ((a.lowerHead? r level).run d).1 = some f → exits f.exit) :
    ((a.lowerHead? r level).run d).2.Only (OperandsAt r old exits) := by
  cases a with
  | binary _ _ | suffix _ => exact h
  | primary items => exact operandsAt_lowerSequence h items
  | prefixed items =>
    have hlast := hexit ⟨((Element.lowerSequence r items).run d).1.entry,
      ((DraftM.call r r level).run ((Element.lowerSequence r items).run d).2).1.exit⟩ rfl
    exact operandsAt_operand (operandsAt_lowerSequence h items) hlast _

theorem operandsAt_lowerHeads {alternatives : List (Int × OperatorAlternative)}
    {heads : List Fragment} (h : d.Only (OperandsAt r old exits))
    (hrun : runOn (lowerHeads r alternatives) d = (.ok heads, d'))
    (hexit : ∀ f ∈ heads, exits f.exit) : d'.Only (OperandsAt r old exits) := by
  induction alternatives generalizing d heads with
  | nil =>
    rw [lowerHeads_nil] at hrun
    obtain rfl := (Prod.mk.inj hrun).2
    exact h
  | cons a rest ih =>
    rw [lowerHeads_cons] at hrun
    dsimp only at hrun
    have hhead := @operandsAt_lowerHead d r old exits a.1 h a.2
    generalize (a.2.lowerHead? r a.1).run d = result at hrun hhead
    obtain ⟨head, d₂⟩ := result
    rcases hrest : runOn (lowerHeads r rest) d₂ with ⟨e | more, d₃⟩
    · rw [hrest] at hrun
      cases (Prod.mk.inj hrun).1
    · rw [hrest] at hrun
      obtain ⟨hheads, rfl⟩ := Prod.mk.inj hrun
      obtain rfl := Except.ok.inj hheads
      refine ih (hhead fun f hf => ?_) hrest fun f hf => hexit f (List.mem_append_right _ hf)
      dsimp only at hf
      exact hexit f (List.mem_append_left _ (by rw [hf]; exact .head _))

theorem operandsAt_lowerOperator (h : d.Only (OperandsAt r old exits)) (op : Operator)
    (hexit : exits ((op.lower r).run d).1.exit) :
    ((op.lower r).run d).2.Only (OperandsAt r old exits) := by
  rw [Operator.lower_run] at hexit ⊢
  dsimp only at hexit ⊢
  have hbody := @Only.addTransition _ _ d.states.size
    ⟨((Element.lowerSequence r op.items).run (d.addState .basic r).2).1.entry, .precedence op.level⟩
    (operandsAt_lowerSequence (h.addState .basic r) op.items) (operandsAt_of_ne (by simp) _)
  cases hop : op.operand with
  | none => exact hbody
  | some floor =>
    rw [hop] at hexit
    exact operandsAt_operand hbody hexit _

theorem operandsAt_lowerOperators {operators : List Operator} (h : d.Only (OperandsAt r old exits))
    (hexit : ∀ f ∈ ((operators.mapM (Operator.lower r)).run d).1, exits f.exit) :
    ((operators.mapM (Operator.lower r)).run d).2.Only (OperandsAt r old exits) := by
  induction operators generalizing d with
  | nil => exact h
  | cons op rest ih =>
    rw [List.mapM_cons, run_bind, run_bind] at hexit ⊢
    exact ih (operandsAt_lowerOperator h op (hexit _ (.head _))) fun f hf => hexit f (.tail _ hf)

end

namespace Looped

variable {head : Fragment} {guards : List (StateId × Int)} {d₂ : Draft} {levels : Int → Prop}

/-- The loop leaves the edges that are there. -/
theorem mem_looped (ht : t ∈ (((starLoop r parts).run d₂).2.state s).transitions) :
    t ∈ ((looped d r head parts d₂).state s).transitions := by
  have hkept := kept_mem (fun _ _ => True) s t
  exact hkept.edge _ _ _ trivial (hkept.edge _ _ _ trivial (hkept.mark _ _ ht))

theorem mem_looped_of_mem (ht : t ∈ (d₂.state s).transitions) :
    t ∈ ((looped d r head parts d₂).state s).transitions :=
  mem_looped ((keeps_starLoop (fun _ => trivial) parts).mem ht)

/-- Where an operand returns before the loop is there. -/
def Exits (d d₁ : Draft) (head : Fragment) (parts : List Fragment) (s : StateId) : Prop :=
  s = head.exit ∨ d.states.size ≤ s ∧ .epsilon head.exit ∈ (d₁.state s).transitions ∨
    ∃ f ∈ parts, s = f.exit

/-- From where an operand returns free edges lead to the loop. -/
theorem idles_loop (h : Looped d r levels head d₁ guards parts d₂)
    (hs : Exits d d₁ head parts s) :
    Idles (looped d r head parts d₂).state r s d₂.states.size := by
  obtain ⟨hle₁, hle₂⟩ := h.size_le
  have hrule : ∀ s, d.states.size ≤ s → s < d₂.states.size + 5 →
      ((looped d r head parts d₂).state s).rule = r := fun s hs hs' =>
    (h.state_added_looped hs hs').1
  have hstates := states_starLoop (r := r) fun f hf => (h.parts f hf).1.exit_lt
  obtain ⟨-, -, hdone, hback, -⟩ := hstates
  have hexit := h.heads.holds.exit_ge
  have hexit' := h.heads.holds.exit_lt
  dsimp only at hexit hexit'
  have hhead : Idles (looped d r head parts d₂).state r head.exit d₂.states.size := by
    refine .single (hrule _ hexit (by lia)) ?_
    refine (kept_mem (fun _ _ => True) _ _).edge _ _ _ trivial (mem_addTransition_self ?_)
    rw [size_markPrecedenceDecision, (rewired_starLoop r parts d₂).size, size_starStates]
    lia
  rcases hs with rfl | ⟨hge, ht⟩ | ⟨f, hf, rfl⟩
  · exact hhead
  · have hlt := lt_of_edge ht
    have hold := (kept_mem (fun _ _ => True) s _).edge d₁ (d.rule r).start (.epsilon head.entry)
      trivial ht
    have hsize : ((d₁.addEpsilon (d.rule r).start head.entry).setLeftRecursive r).states.size =
        d₁.states.size := size_addEpsilon
    rw [← state_setLeftRecursive, ← Draft.addEpsilon, ← h.operators.old s (by lia)] at hold
    exact (Idles.single (hrule s hge (by lia)) (mem_looped_of_mem hold)).trans hhead
  · have hge := (h.parts f hf).1.exit_ge
    have hlt := (h.parts f hf).1.exit_lt
    have hpart : .epsilon (d₂.states.size + 2) ∈
        (((starLoop r parts).run d₂).2.state f.exit).transitions := by
      rw [starLoop_run]
      have hkept := kept_mem (fun _ _ => True) f.exit (.epsilon (d₂.states.size + 2))
      refine hkept.edge _ _ _ trivial (hkept.edge _ _ _ trivial (mem_alternatives_exit ?_ hf))
      intro g hg
      have := (h.parts g hg).1.exit_lt
      rw [size_addEpsilon, size_addEpsilon, size_starStates]
      lia
    have h₁ := Idles.single (hrule f.exit (by lia) (by lia)) (mem_looped hpart)
    have h₂ : Idles (looped d r head parts d₂).state r (d₂.states.size + 2) (d₂.states.size + 3) :=
      .single (hrule _ (by lia) (by lia)) (mem_looped (by rw [hdone]; exact .head _))
    have h₃ : Idles (looped d r head parts d₂).state r (d₂.states.size + 3) d₂.states.size :=
      .single (hrule _ (by lia) (by lia)) (mem_looped (by rw [hback]; exact .head _))
    exact (h₁.trans h₂).trans h₃

/-- A level has one edge, also once the loop is there. -/
theorem transitions_guard (h : Looped d r levels head d₁ guards parts d₂) (hf : f ∈ parts) :
    ((looped d r head parts d₂).state f.entry).transitions = (d₂.state f.entry).transitions := by
  obtain ⟨hh, hentry, -⟩ := h.parts f hf
  have hge := hh.entry_ge
  have hlt := hh.entry_lt
  rw [h.transitions_looped hge (by lia), state_starLoop_other hlt]
  intro g hg he
  rw [he] at hentry
  exact (h.parts g hg).2.2 hentry

theorem tails (h : Looped d r levels head d₁ guards parts d₂) (hne : parts ≠ [])
    (hguard : ∀ f ∈ parts, ∃ b level, (d₂.state f.entry).transitions = [⟨b, .precedence level⟩])
    (hcalls : (looped d r head parts d₂).Only
      (OperandsAt r (fun a => a < d.states.size ∧ (d.state a).rule ≠ r) (Exits d d₁ head parts))) :
    Tails (looped d r head parts d₂).state r ((looped d r head parts d₂).rule r).toRule := by
  obtain ⟨hle₁, hle₂⟩ := h.size_le
  have hrule : ∀ s, d.states.size ≤ s → s < d₂.states.size + 5 →
      ((looped d r head parts d₂).state s).rule = r := fun s hs hs' =>
    (h.state_added_looped hs hs').1
  have hoperand : ∀ s, ((looped d r head parts d₂).state s).rule = r →
      ∀ t ∈ ((looped d r head parts d₂).state s).transitions, ∀ c follow precedence,
        t.kind = .rule c follow precedence → 0 < precedence →
          c = r ∧ Exits d d₁ head parts follow := by
    intro s hs t ht c follow precedence hk hp
    rcases hcalls s t ht with ⟨hlt, hold⟩ | hnew
    · rw [h.untouched.old s hlt hold] at hs
      exact absurd hs hold
    · exact hnew c follow precedence hk hp
  refine ⟨fun s hs t ht c follow precedence hk hp => (hoperand s hs t ht c follow precedence hk hp).1,
    fun _ => ⟨d₂.states.size, ?_⟩⟩
  have hparts := fun f hf => (h.parts f hf).1.exit_lt
  obtain ⟨-, hchoice, -, -, -⟩ := states_starLoop (r := r) hparts
  refine ⟨hrule _ (by lia) (by lia), ?_, ?_, ⟨_, _, h.transitions_loop, hrule _ (by lia) (by lia), ?_, ?_⟩,
    fun s hs t ht c follow precedence hk hp =>
      h.idles_loop (hoperand s hs t ht c follow precedence hk hp).2⟩
  · rw [mark_looped, if_pos rfl]
  · rw [(h.ends_looped r).2.1]
    have hexit : Idles (looped d r head parts d₂).state r d₂.states.size (d₂.states.size + 4) :=
      .single (hrule _ (by lia) (by lia)) (by rw [h.transitions_loop]; exact .tail _ (.head _))
    refine hexit.trans (Idles.single (hrule _ (by lia) (by lia)) (mem_addTransition_self ?_))
    rw [size_addEpsilon, size_markPrecedenceDecision, (rewired_starLoop r parts d₂).size, size_starStates]
    lia
  · rw [h.transitions_looped (by lia) (by lia), hchoice]
    simpa using hne
  · intro t ht
    rw [h.transitions_looped (by lia) (by lia), hchoice] at ht
    obtain ⟨f, hf, rfl⟩ := List.mem_map.1 ht
    have hge := (h.parts f hf).1.entry_ge
    have hlt := (h.parts f hf).1.entry_lt
    obtain ⟨b, level, hlevel⟩ := hguard f hf
    refine ⟨hrule f.entry (by lia) (by lia), b, level, ?_⟩
    rw [target_epsilon, h.transitions_guard hf, hlevel]

end Looped

/-- An operator begins with its level alone. -/
theorem Operator.transitions_guard (op : Operator) (d : Draft) :
    ∃ b, (((op.lower r).run d).2.state d.states.size).transitions = [⟨b, .precedence op.level⟩] := by
  have hbody := Element.adds_lowerSequence r op.items (d.addState .basic r).2
  have hsize : (d.addState .basic r).2.states.size = d.states.size + 1 := size_addState
  have hguard : (d.addState .basic r).2.state d.states.size = { kind := .basic, rule := r } := by
    rw [state_addState, if_pos rfl]
  rw [lower_run]
  generalize (d.addState .basic r).2 = d₁ at *
  generalize (Element.lowerSequence r op.items).run d₁ = body at *
  obtain ⟨f, d₂⟩ := body
  dsimp only
  have hsize₂ := hbody.grows.size
  have hexit := hbody.holds.exit_ge
  dsimp only at hsize₂ hexit
  have hlevel : ((d₂.addTransition d.states.size ⟨f.entry, .precedence op.level⟩).state
      d.states.size).transitions = [⟨f.entry, .precedence op.level⟩] := by
    rw [state_addTransition (by lia), if_pos rfl, hbody.grows.old _ (by lia), hguard]
    rfl
  refine ⟨f.entry, ?_⟩
  cases op.operand with
  | none => exact hlevel
  | some floor =>
    dsimp only
    rw [call_run, state_addEpsilon_other (by lia), state_addTransition (by rw [size_pair]; lia),
      if_neg (by rw [size_addTransition]; lia), state_pair,
      if_neg (by rw [size_addTransition]; lia), if_neg (by rw [size_addTransition]; lia), hlevel]

theorem Operator.transitions_guards (operators : List Operator)
    (hops : ∀ op ∈ operators, ∀ floor, op.operand = some floor → 0 ≤ floor) (d : Draft) :
    ∀ f ∈ ((operators.mapM (Operator.lower r)).run d).1, ∃ b level,
      (((operators.mapM (Operator.lower r)).run d).2.state f.entry).transitions =
        [⟨b, .precedence level⟩] := by
  induction operators generalizing d with
  | nil => exact nofun
  | cons op rest ih =>
    rw [List.mapM_cons, run_bind, run_bind]
    obtain ⟨hg, hh, he, -⟩ := op.grows_lower r (hops op (.head _)) d
    obtain ⟨b, hb⟩ := @op.transitions_guard r d
    rw [← he] at hb
    generalize (op.lower r).run d = first at *
    obtain ⟨f, d₁⟩ := first
    obtain ⟨guards, -, hgrows, -⟩ := Operator.grows_lowerAll r rest (fun o ho => hops o (.tail _ ho)) d₁
    have ih := ih (fun o ho => hops o (.tail _ ho)) d₁
    intro g hg
    rcases List.mem_cons.1 hg with rfl | hg
    · refine ⟨b, op.level, ?_⟩
      rw [← hb]
      exact congrArg NetworkState.transitions (hgrows.old g.entry hh.entry_lt)
    · exact ih g hg

/-- What has no edges in a fresh rule gets operands of the rule only. -/
theorem Draft.Fresh.only_operands (h : d.Fresh r) (exits : StateId → Prop) :
    d.Only (OperandsAt r (fun a => a < d.states.size ∧ (d.state a).rule ≠ r) exits) := by
  intro a t ht
  have hlt := lt_of_edge ht
  refine .inl ⟨hlt, fun hr => ?_⟩
  rcases h.only a hlt hr with rfl | rfl
  · rw [h.start_state] at ht
    cases ht
  · rw [h.stop_state] at ht
    cases ht

/-- A rule without a loop has no operands but of its own. -/
theorem tails_plain
    (hu : ∀ s, s < d.states.size → (d.state s).rule ≠ r → d'.state s = d.state s)
    (hcalls : d'.Only (OperandsAt r (fun a => a < d.states.size ∧ (d.state a).rule ≠ r) fun _ => True))
    (hleft : (d'.rule r).leftRecursive = false) : Tails d'.state r (d'.rule r).toRule := by
  refine ⟨?_, fun hl => absurd (hleft ▸ hl) Bool.false_ne_true⟩
  intro s hs t ht c follow precedence hk hp
  rcases hcalls s t ht with ⟨hlt, hold⟩ | hnew
  · rw [hu s hlt hold] at hs
    exact absurd hs hold
  · exact (hnew c follow precedence hk hp).1

/-- A lowered body gives its rule the shape that it should have. -/
theorem RuleBody.tails_lower {name : String} {body : RuleBody} (h : d.Fresh r) (hd : d.CallsAlone)
    (hrun : runOn (body.lower name r) d = (.ok (), d')) : Tails d'.state r (d'.rule r).toRule := by
  have hu := (RuleBody.shape_lower h hd hrun).untouched
  cases body with
  | plain body =>
    rw [lower_plain] at hrun
    obtain rfl := (Prod.mk.inj hrun).2
    have hpart := (body.keeps_lower r operandsAt_epsilon fun leaf _ a follow =>
      operandsAt_edge leaf a follow).only (h.only_operands fun _ => True)
    have hrules := congrArg Rule.leftRecursive ((Element.adds_lower r body d).grows.rules r)
    refine tails_plain hu.old ((hpart.addTransition (operandsAt_epsilon _)).addTransition
      (operandsAt_epsilon _)) ?_
    rw [rule_addEpsilon, rule_addEpsilon]
    exact hrules.trans h.plain
  | leftRecursive alternatives =>
    obtain ⟨heads, d₁, hheads, hparts⟩ := parts_heads r (levels alternatives)
      (fun a ha => Int.le_of_lt (pos_levels ha)) d
    have ha := adds_choice hparts
    have hexits := @exit_choice d₁ r heads
    rw [lower_leftRecursive name r alternatives hheads] at hrun
    by_cases he : heads.isEmpty
    · rw [if_pos he] at hrun
      cases hrun
    · rw [if_neg he] at hrun
      dsimp only at hrun hexits
      have hchoice : ∀ exits : StateId → Prop, (∀ f ∈ heads, exits f.exit) →
          ((choice r heads).run d₁).2.Only (OperandsAt r (fun a => a < d.states.size ∧
            (d.state a).rule ≠ r) exits) := fun exits hx =>
        (keeps_choice operandsAt_epsilon heads).only
          (operandsAt_lowerHeads (h.only_operands exits) hheads hx)
      generalize (choice r heads).run d₁ = result at *
      obtain ⟨head, d₂⟩ := result
      dsimp only at hrun hexits
      have hleft : (d₂.rule r).leftRecursive = false :=
        (congrArg Rule.leftRecursive (ha.grows.rules r)).trans h.plain
      cases hops : (RuleBody.leftRecursive alternatives).operators with
      | nil =>
        rw [hops] at hrun
        obtain rfl := (Prod.mk.inj hrun).2
        refine tails_plain hu.old (((hchoice _ fun _ _ => trivial).addTransition
          (operandsAt_epsilon _)).addTransition (operandsAt_epsilon _)) ?_
        rwa [rule_addEpsilon, rule_addEpsilon]
      | cons op rest =>
        rw [hops] at hrun
        obtain rfl := (Prod.mk.inj hrun).2
        have hstart : (d₂.rule r).start = (d.rule r).start :=
          congrArg Rule.start (ha.grows.rules r)
        have hstop : (d₂.rule r).stop = (d.rule r).stop := congrArg Rule.stop (ha.grows.rules r)
        have hfloors : ∀ o ∈ op :: rest, ∀ floor, o.operand = some floor → 0 ≤ floor := by
          intro o ho floor hf
          exact operand_nonneg (by rw [hops]; exact ho) hf
        obtain ⟨guards, hloop⟩ := @looped_operators _ _ _ _ (fun _ => True) _ h hd ha
          (fun _ _ => trivial) hfloors
        have hguards := @Operator.transitions_guards r (op :: rest) hfloors
          ((d₂.addEpsilon (d.rule r).start head.entry).setLeftRecursive r)
        rw [hstart, hstop, lowerOperators_run]
        have hhead : ∀ parts, ∀ f ∈ heads, Looped.Exits d d₂ head parts f.exit := by
          intro parts f hf
          rcases hexits (fun g hg => (hparts.holds g hg).exit_lt) hf with he | ht
          · exact .inl he
          · exact .inr (.inl ⟨(hparts.holds f hf).exit_ge, ht⟩)
        have hcalls := fun exits => @operandsAt_lowerOperators
          ((d₂.addEpsilon (d.rule r).start head.entry).setLeftRecursive r) r
          (fun a => a < d.states.size ∧ (d.state a).rule ≠ r) exits (op :: rest)
        have hne : (((op :: rest).mapM (Operator.lower r)).run
            ((d₂.addEpsilon (d.rule r).start head.entry).setLeftRecursive r)).1 ≠ [] := by
          rw [List.mapM_cons, run_bind, run_bind]
          exact nofun
        dsimp only at hloop ⊢
        generalize ((op :: rest).mapM (Operator.lower r)).run
          ((d₂.addEpsilon (d.rule r).start head.entry).setLeftRecursive r) = lowered at *
        have hlowered := hcalls (Looped.Exits d d₂ head lowered.1)
          ((hchoice _ (hhead lowered.1)).addTransition (operandsAt_epsilon _))
          fun f hf => .inr (.inr ⟨f, hf, rfl⟩)
        exact hloop.tails hne hguards (Only.addTransition (Only.addTransition
          (((keeps_starLoop operandsAt_epsilon _).only hlowered).markPrecedenceDecision _)
            (operandsAt_epsilon _)) (operandsAt_epsilon _))

/-- The rules of a compiled grammar have this shape. -/
theorem Grammar.tails_compile {g : Grammar} {c : CompiledGrammar} (h : g.compile = .ok c)
    (hr : r < g.rules.size) : Tails c.network.state r (c.network.rule r) := by
  obtain ⟨d, hd, hb⟩ := build_compile h
  have hall : ∀ r < g.rules.size, Tails d.state r (d.rule r).toRule := by
    refine @draft_induct g d hd (fun k d => ∀ r < k, Tails d.state r (d.rule r).toRule) ?_ ?_
    · intro d _ _ r hr
      exact absurd hr (Nat.not_lt_zero r)
    · intro k rule d d' _ hfresh halone hrun hI r hr
      by_cases hk : r = k
      · subst hk
        cases hbody : rule.body with
        | none =>
          rw [GrammarRule.lower_none hbody] at hrun
          obtain rfl := (Prod.mk.inj hrun).2
          exact tails_plain (fun _ _ _ => rfl) (hfresh.only_operands _) hfresh.plain
        | some body =>
          rw [GrammarRule.lower_some hbody] at hrun
          exact RuleBody.tails_lower hfresh halone hrun
      · have hlt : r < k := by omega
        obtain ⟨-, rfl | hu, -⟩ := GrammarRule.shape_lower hfresh halone hrun
        · exact hI r hlt
        · exact (hI r hlt).congr (hu.sameTails hk) (hu.ends r).2 (hu.kind r hk)
  obtain ⟨-, hstates, hrules⟩ := build_eq_ok hb
  have hfields : ∀ a, (c.network.state a).rule = (d.state a).rule ∧
      (c.network.state a).transitions = (d.state a).transitions ∧
      (c.network.state a).precedenceDecision = (d.state a).precedenceDecision := by
    intro a
    exact (NetworkState.fields_of_unnumbered (unnumbered_of_states hstates a)).2
  rw [rule_of_rules hrules]
  refine (hall r hr).congr ⟨?_, ?_⟩ rfl rfl
  · intro a ha _
    obtain ⟨hrule, ht, hm⟩ := hfields a
    exact ⟨hrule.trans ha, ht, hm⟩
  · intro a ha _
    obtain ⟨hrule, ht, -⟩ := hfields a
    exact ⟨hrule.symm.trans ha, ht⟩

end AdaptiveParsing
