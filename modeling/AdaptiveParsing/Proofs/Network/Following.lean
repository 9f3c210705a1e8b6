import AdaptiveParsing.Proofs.Lookahead.Bound
import AdaptiveParsing.Proofs.Lookahead.Walks
/-!
What can come next is told exactly. From a state, edges that take no token lead into rules and back out
of them (`Network.Drifts`), and the types that come next are those of the edges met on the way. The walk
over the network visits a point once, and what it has visited is closed under such edges
(`FollowingWalk.Explored`). It enters no rule twice on one way, and needs not, since no rule calls itself
before it takes a token. Main statement: `Network.mem_following_iff`; the table of a compiled grammar holds
what the walk from each state finds (`Grammar.nextTokensAt_compile`).
-/

namespace AdaptiveParsing

namespace Network

variable (n : Network)

/-- What is reached from `a` by edges that take no token, with the calls that are still open, innermost
first: a call is entered and left where it returns to, and past the end of the rule of `a` the way goes
on at the first of `outer`. -/
inductive Drifts (a : StateId) (outer : List StateId) : StateId → List StateId → Prop
  | refl : Drifts a outer a outer
  | free {s : StateId} {returns : List StateId} {t : Transition} (h : Drifts a outer s returns)
      (ht : t ∈ (n.state s).transitions) (hc : t.call? = none) (hk : t.isConsuming = false) :
      Drifts a outer t.target returns
  | call {s follow : StateId} {returns : List StateId} {t : Transition} {r : RuleId} {precedence : Int}
      (h : Drifts a outer s returns) (ht : t ∈ (n.state s).transitions)
      (hk : t.kind = .rule r follow precedence) : Drifts a outer t.target (follow :: returns)
  | back {s back : StateId} {returns : List StateId} (h : Drifts a outer s (back :: returns))
      (hs : (n.state s).isRuleStop = true) : Drifts a outer back returns

/-- A way from `a` meets an edge with this type in its label. -/
def Meets (a : StateId) (outer : List StateId) (token : TokenType) : Prop :=
  ∃ s returns, n.Drifts a outer s returns ∧ ∃ t ∈ (n.state s).transitions,
    ∃ types, n.label? t.kind = some types ∧ token ∈ types

/-- A way from `a` comes to the end of a rule with no call left open. -/
def Exits (a : StateId) (outer : List StateId) : Prop :=
  ∃ s, n.Drifts a outer s [] ∧ (n.state s).isRuleStop = true

/-- What stands for an end without a token: the empty word inside a rule, and the end of input if the
callers are known. -/
def ending : Option (List StateId) → TokenType
  | none => TokenType.epsilon
  | some _ => TokenType.eof

/-- The type can come next at `a`, inside `callers`: some way meets it, or comes to the end first. -/
def Next (a : StateId) (callers : Option (List StateId)) (token : TokenType) : Prop :=
  n.Meets a (callers.getD []) token ∨ token = ending callers ∧ n.Exits a (callers.getD [])

end Network

namespace FollowingWalk

/-- The walk has been at this state, inside these calls and below these callers. -/
def Saw (w : FollowingWalk) (s : StateId) (returns : List StateId) (callers : Option (List StateId)) :
    Prop :=
  w.seen.contains ⟨s, returns, callers.map List.length⟩ = true

/-- The point has been visited, and so has all that it leads to. -/
structure Explored (n : Network) (w : FollowingWalk) (s : StateId) (returns : List StateId)
    (callers : Option (List StateId)) : Prop where
  back : (n.state s).isRuleStop = true → ∀ back rest, returns = back :: rest → w.Saw back rest callers
  outer : (n.state s).isRuleStop = true → returns = [] → ∀ back rest, callers = some (back :: rest) →
    w.Saw back [] (some rest)
  ends : (n.state s).isRuleStop = true → returns = [] → callers.getD [] = [] →
    Network.ending callers ∈ w.found
  call : (n.state s).isRuleStop = false → ∀ t ∈ (n.state s).transitions,
    ∀ r follow precedence, t.kind = .rule r follow precedence → w.Saw t.target (follow :: returns) callers
  free : (n.state s).isRuleStop = false → ∀ t ∈ (n.state s).transitions,
    t.call? = none → t.isConsuming = false → w.Saw t.target returns callers
  take : (n.state s).isRuleStop = false → ∀ t ∈ (n.state s).transitions,
    ∀ types, n.label? t.kind = some types → ∀ x ∈ types, x ∈ w.found

/-- These are callers that are left of `all`. -/
def Left (all callers : Option (List StateId)) : Prop :=
  Option.Rel (· <:+ ·) callers all

/-- From `w` to `w'` nothing is lost, and what is new has been explored. -/
structure Advances (n : Network) (all : Option (List StateId)) (w w' : FollowingWalk) : Prop where
  seen : ∀ p, w.seen.contains p = true → w'.seen.contains p = true
  found : ∀ x ∈ w.found, x ∈ w'.found
  new : ∀ s returns callers, Left all callers → w'.Saw s returns callers →
    w.Saw s returns callers ∨ w'.Explored n s returns callers

variable {n : Network} {w w' w'' : FollowingWalk} {s : StateId} {returns : List StateId}
  {all callers callers' : Option (List StateId)}

theorem Left.refl (all : Option (List StateId)) : Left all all := by
  cases all with
  | none => exact .none
  | some l => exact .some (List.suffix_refl l)

theorem Left.ending (h : Left all callers) : Network.ending callers = Network.ending all := by
  cases h <;> rfl

/-- How many callers are left tells which. -/
theorem Left.eq_of_length (h : Left all callers) (h' : Left all callers')
    (hl : callers.map List.length = callers'.map List.length) : callers = callers' := by
  cases h with
  | none =>
    cases h'
    rfl
  | some h =>
    cases h' with
    | some h' =>
      have hl := Option.some.inj hl
      rw [(List.suffix_of_suffix_length_le h h' (Nat.le_of_eq hl)).eq_of_length hl]

theorem Explored.mono (h : w.Explored n s returns callers)
    (hs : ∀ p, w.seen.contains p = true → w'.seen.contains p = true)
    (hf : ∀ x ∈ w.found, x ∈ w'.found) : w'.Explored n s returns callers := by
  refine ⟨?_, ?_, ?_, ?_, ?_, ?_⟩
  · exact fun hstop back rest hr => hs _ (h.back hstop back rest hr)
  · exact fun hstop hr back rest hc => hs _ (h.outer hstop hr back rest hc)
  · exact fun hstop hr hc => hf _ (h.ends hstop hr hc)
  · exact fun hstop t ht r follow precedence hk => hs _ (h.call hstop t ht r follow precedence hk)
  · exact fun hstop t ht hc hk => hs _ (h.free hstop t ht hc hk)
  · exact fun hstop t ht types hl x hx => hf _ (h.take hstop t ht types hl x hx)

theorem Advances.refl (n : Network) (all : Option (List StateId)) (w : FollowingWalk) :
    w.Advances n all w :=
  ⟨fun _ h => h, fun _ h => h, fun _ _ _ _ h => .inl h⟩

theorem Advances.trans (h : w.Advances n all w') (h' : w'.Advances n all w'') :
    w.Advances n all w'' := by
  refine ⟨fun p hp => h'.seen p (h.seen p hp), fun x hx => h'.found x (h.found x hx), ?_⟩
  intro s returns callers hleft hp
  rcases h'.new s returns callers hleft hp with hp | hp
  · exact (h.new s returns callers hleft hp).imp_right fun he => he.mono h'.seen h'.found
  · exact .inr hp

/-- What was found without a further visit. -/
theorem advances_of_found {found : TokenSet} (h : ∀ x ∈ w.found, x ∈ found) :
    w.Advances n all { w with found } := ⟨fun _ h => h, h, fun _ _ _ _ h => .inl h⟩

/-- A point that was entered in the walk and explored later. -/
theorem Advances.of_visit {w₁ : FollowingWalk} (h : w₁.Advances n all w')
    (hw : w₁ = { w with seen := w.seen.insert ⟨s, returns, callers.map List.length⟩ })
    (hleft : Left all callers) (hp : w'.Explored n s returns callers) :
    w.Advances n all w' ∧ w'.Saw s returns callers := by
  subst hw
  have hin : ∀ q, (w.seen.insert ⟨s, returns, callers.map List.length⟩).contains q = true ↔
      ⟨s, returns, callers.map List.length⟩ = q ∨ w.seen.contains q = true := by
    intro q
    simp
  refine ⟨⟨fun q hq => h.seen q ((hin q).2 (.inr hq)), h.found, ?_⟩, h.seen _ ((hin _).2 (.inl rfl))⟩
  intro x others callers' hleft' hq
  rcases h.new x others callers' hleft' hq with hq | hq
  · rcases (hin _).1 hq with heq | hq
    · obtain ⟨rfl, rfl, hlength⟩ := WalkPoint.mk.inj heq
      obtain rfl := hleft.eq_of_length hleft' hlength
      exact .inr hp
    · exact .inl hq
  · exact .inr hq

end FollowingWalk

namespace Network

open FollowingWalk

variable {n : Network} {nullable : RuleId → Prop} {levels : RuleId → Int → Prop}
  {all callers : Option (List StateId)}

/-- A list of returns as frames, whatever the floors. -/
def framesOf (returns : List StateId) : List Frame := returns.map fun s => ⟨s, 0⟩

/-- How many callers can be left of `all`. -/
def levelsOf (all : Option (List StateId)) : Finset (Option Nat) :=
  match all with
  | none => {none}
  | some l => (Finset.range (l.length + 1)).image some

theorem mem_levelsOf (h : Left all callers) : callers.map List.length ∈ levelsOf all := by
  cases h with
  | none => exact Finset.mem_singleton_self none
  | some h =>
    exact Finset.mem_image_of_mem _ (Finset.mem_range.2 (Nat.lt_succ_of_le h.length_le))

theorem card_levelsOf : (levelsOf all).card ≤ all.elim 0 List.length + 1 := by
  cases all with
  | none => exact Nat.le_refl 1
  | some l =>
    refine Finset.card_image_le.trans ?_
    rw [Finset.card_range, Option.elim_some]

/-- The points of a walk from `a`. -/
def walkPoints (n : Network) (a : StateId) (all : Option (List StateId)) : Finset WalkPoint :=
  Finset.image₂ (fun (p : StateId × List StateId) level => ⟨p.1, p.2, level⟩)
    (insert a (Finset.range n.states.size) ×ˢ
      listsUpTo (Finset.range n.states.size) n.rules.size) (levelsOf all)

theorem card_walkPoints (a : StateId) : (n.walkPoints a all).card ≤
    (n.states.size + 1) ^ (n.rules.size + 1) * (all.elim 0 List.length + 1) := by
  have h₁ : (insert a (Finset.range n.states.size)).card ≤ n.states.size + 1 := by
    have := Finset.card_insert_le a (Finset.range n.states.size)
    rwa [Finset.card_range] at this
  have h₂ : (listsUpTo (Finset.range n.states.size) n.rules.size).card ≤
      (n.states.size + 1) ^ n.rules.size := by
    have := card_listsUpTo (s := Finset.range n.states.size) (k := n.rules.size)
    rwa [Finset.card_range] at this
  refine (Finset.card_image₂_le _ _ _).trans (Nat.mul_le_mul ?_ card_levelsOf)
  rw [Finset.card_product, Nat.pow_succ, Nat.mul_comm ((n.states.size + 1) ^ n.rules.size)]
  exact Nat.mul_le_mul h₁ h₂

/-- How many points of a walk from `a` have not been visited. -/
def unseenPoints (n : Network) (a : StateId) (all : Option (List StateId)) (w : FollowingWalk) : Nat :=
  ((n.walkPoints a all).filter fun p => w.seen.contains p = false).card

theorem unseenPoints_le {w w' : FollowingWalk} (h : w.Advances n all w') (a : StateId) :
    n.unseenPoints a all w' ≤ n.unseenPoints a all w := by
  refine Finset.card_le_card fun p hp => ?_
  rw [Finset.mem_filter] at hp ⊢
  refine ⟨hp.1, ?_⟩
  by_contra hne
  have := h.seen p (by simpa using hne)
  rw [hp.2] at this
  cases this

/-- A visit leaves fewer points to visit. -/
theorem unseenPoints_visit {w : FollowingWalk} {a : StateId} {p : WalkPoint}
    (hp : p ∈ n.walkPoints a all) (hw : w.seen.contains p = false) :
    n.unseenPoints a all { w with seen := w.seen.insert p } < n.unseenPoints a all w := by
  refine Finset.card_lt_card ((Finset.ssubset_iff_of_subset ?_).2 ⟨p, ?_, ?_⟩)
  · intro q
    simp only [Finset.mem_filter, Std.HashSet.contains_insert, Bool.or_eq_false_iff]
    exact fun hq => ⟨hq.1, hq.2.2⟩
  · exact Finset.mem_filter.2 ⟨hp, hw⟩
  · simp

/-- A place that a walk from `a` can come to: the calls it is inside were made before any token. -/
structure Visits (n : Network) (nullable : RuleId → Prop) (a : StateId)
    (all : Option (List StateId)) (s : StateId) (returns : List StateId) (called : List RuleId)
    (callers : Option (List StateId)) : Prop where
  state : s = a ∨ s < n.states.size
  returns_lt : ∀ b ∈ returns, b < n.states.size
  chain : LeftChain n nullable s (framesOf returns) called
  left : Left all callers

variable {a s : StateId} {returns : List StateId} {called : List RuleId} {w : FollowingWalk}

theorem Visits.mem (hn : n.Progressive nullable)
    (h : n.Visits nullable a all s returns called callers) :
    (⟨s, returns, callers.map List.length⟩ : WalkPoint) ∈ n.walkPoints a all := by
  refine Finset.mem_image₂_of_mem (a := (s, returns)) (Finset.mem_product.2 ⟨?_, ?_⟩) (mem_levelsOf h.left)
  · rw [Finset.mem_insert, Finset.mem_range]
    exact h.state
  · refine mem_listsUpTo (fun b hb => Finset.mem_range.2 (h.returns_lt b hb)) ?_
    have := h.chain.length_le hn
    rwa [framesOf, List.length_map] at this

theorem Visits.call (hs : n.Shaped levels) (hc : n.Checked)
    (h : n.Visits nullable a all s returns called callers) {t : Transition}
    (ht : t ∈ (n.state s).transitions) {r : RuleId} {follow : StateId} {precedence : Int}
    (hk : t.kind = .rule r follow precedence) :
    n.Visits nullable a all t.target (follow :: returns) (r :: called) callers := by
  obtain ⟨hr, htarget⟩ := hs.call s t ht r follow precedence hk
  refine ⟨.inr (hc.target_lt s t ht), ?_, ?_, h.left⟩
  · intro b hb
    rcases List.mem_cons.1 hb with rfl | hb
    · exact hc.follow_lt s t ht r _ precedence hk
    · exact h.returns_lt b hb
  · exact .cons (by rw [htarget]; exact .refl) hr ht hk h.chain

theorem Visits.free (hc : n.Checked) (h : n.Visits nullable a all s returns called callers)
    {t : Transition} (ht : t ∈ (n.state s).transitions) (hcall : t.call? = none)
    (hk : t.isConsuming = false) : n.Visits nullable a all t.target returns called callers :=
  ⟨.inr (hc.target_lt s t ht), h.returns_lt, h.chain.step ht hcall hk, h.left⟩

/-- At the end of a rule a walk leaves the call it entered last. -/
theorem Visits.back (hs : n.Shaped levels) (hn : n.Progressive nullable) {back : StateId}
    (h : n.Visits nullable a all s (back :: returns) called callers)
    (hstop : (n.state s).isRuleStop = true) :
    n.Visits nullable a all back returns (called.erase (n.state s).rule) callers := by
  have hchain := h.chain
  rw [framesOf, List.map_cons] at hchain
  cases hchain with
  | @cons _ x _ _ r rules t precedence hfree hr ht hk hrest =>
    have hrule := hfree.rule_eq hs hr
    rw [hrule, List.erase_cons_head]
    refine ⟨.inr (h.returns_lt back (.head _)), fun b hb => h.returns_lt b (.tail _ hb), ?_, h.left⟩
    exact (LeftChain.cons hfree hr ht hk hrest).pop hs hn hstop

/-- Past the end of its first rule a walk goes on in the callers. -/
theorem Visits.outer {back : StateId} {rest : List StateId}
    (hall : ∀ b ∈ all.getD [], b < n.states.size)
    (h : n.Visits nullable a all s [] called (some (back :: rest))) :
    n.Visits nullable a all back [] (called.erase (n.state s).rule) (some rest) := by
  have hchain := h.chain
  cases hchain
  obtain ⟨l, hl, hsuffix⟩ : ∃ l, all = some l ∧ back :: rest <:+ l := by
    cases h.left with
    | some hsuffix => exact ⟨_, rfl, hsuffix⟩
  subst hl
  refine ⟨.inr (hall back (hsuffix.subset (.head _))), nofun, .nil, .some ?_⟩
  exact (List.suffix_cons back rest).trans hsuffix

/-- A rule that the walk is inside is not called again. -/
theorem Visits.not_called (hs : n.Shaped levels) (hc : n.Checked) (hn : n.Progressive nullable)
    (h : n.Visits nullable a all s returns called callers) {t : Transition}
    (ht : t ∈ (n.state s).transitions) {r : RuleId} {follow : StateId} {precedence : Int}
    (hk : t.kind = .rule r follow precedence) : called.contains r = false := by
  have hd := (h.call hs hc ht hk).chain.nodup hn
  have := (List.nodup_cons.1 hd).1
  simpa using this

/-- How the walk takes one edge. -/
def walkEdge (n : Network) (fuel : Nat) (callers : Option (List StateId)) (called : List RuleId)
    (returns : List StateId) (w : FollowingWalk) (t : Transition) : FollowingWalk :=
  match t.kind with
  | .rule r follow _ =>
    if called.contains r then w
    else n.walkFollowing fuel t.target callers (r :: called) (follow :: returns) w
  | kind =>
    match n.label? kind with
    | some types => { w with found := w.found ∪ types }
    | none => n.walkFollowing fuel t.target callers called returns w

theorem walkEdge_call {fuel : Nat} {t : Transition} {r : RuleId} {follow : StateId} {precedence : Int}
    (hk : t.kind = .rule r follow precedence) :
    n.walkEdge fuel callers called returns w t = if called.contains r then w
      else n.walkFollowing fuel t.target callers (r :: called) (follow :: returns) w := by
  unfold walkEdge
  rw [hk]

theorem walkEdge_plain {fuel : Nat} {t : Transition} (hcall : t.call? = none) :
    n.walkEdge fuel callers called returns w t = match n.label? t.kind with
      | some types => { w with found := w.found ∪ types }
      | none => n.walkFollowing fuel t.target callers called returns w := by
  unfold walkEdge
  unfold Transition.call? at hcall
  split
  · rename_i hk
    rw [hk] at hcall
    cases hcall
  · rfl

theorem walkFollowing_succ (fuel : Nat) (s : StateId) (callers : Option (List StateId))
    (called : List RuleId) (returns : List StateId) (w : FollowingWalk) :
    n.walkFollowing (fuel + 1) s callers called returns w =
      if w.seen.contains ⟨s, returns, callers.map List.length⟩ then w
      else
        let w := { w with seen := w.seen.insert ⟨s, returns, callers.map List.length⟩ }
        if (n.state s).isRuleStop then
          match returns with
          | back :: returns =>
            n.walkFollowing fuel back callers (called.erase (n.state s).rule) returns w
          | [] =>
            match callers with
            | none => { w with found := w.found.insert TokenType.epsilon }
            | some [] => { w with found := w.found.insert TokenType.eof }
            | some (back :: outer) =>
              n.walkFollowing fuel back (some outer) (called.erase (n.state s).rule) [] w
        else (n.state s).transitions.foldl (n.walkEdge fuel callers called returns) w := rfl

/-- An edge is a call, or takes a token of its label, or is free. -/
theorem edge_cases (n : Network) (t : Transition) :
    (∃ r follow precedence, t.kind = .rule r follow precedence) ∨
      t.call? = none ∧ ((∃ types, n.label? t.kind = some types ∧ t.isConsuming = true) ∨
        n.label? t.kind = none ∧ t.isConsuming = false) := by
  unfold Transition.call? Transition.isConsuming Network.label?
  cases t.kind <;> simp [EdgeKind.label?, EdgeKind.isConsuming]

/-- What an edge from a point adds to a walk: the point it leads to, or the types of its label. -/
structure Gains (n : Network) (returns : List StateId) (callers : Option (List StateId))
    (t : Transition) (w : FollowingWalk) : Prop where
  call : ∀ r follow precedence, t.kind = .rule r follow precedence →
    w.Saw t.target (follow :: returns) callers
  free : t.call? = none → t.isConsuming = false → w.Saw t.target returns callers
  take : ∀ types, n.label? t.kind = some types → ∀ x ∈ types, x ∈ w.found

theorem Gains.mono {t : Transition} {w' : FollowingWalk} (h : n.Gains returns callers t w)
    (hw : w.Advances n all w') : n.Gains returns callers t w' :=
  ⟨fun r follow precedence hk => hw.seen _ (h.call r follow precedence hk),
    fun hc hk => hw.seen _ (h.free hc hk),
    fun types hl x hx => hw.found x (h.take types hl x hx)⟩

section

variable {fuel : Nat} (hs : n.Shaped levels) (hc : n.Checked) (hn : n.Progressive nullable)
  (ih : ∀ s returns called callers w, n.Visits nullable a all s returns called callers →
    n.unseenPoints a all w < fuel →
    let w' := n.walkFollowing fuel s callers called returns w
    w.Advances n all w' ∧ w'.Saw s returns callers)
include hs hc hn ih

/-- What one edge from a point adds, given what a visit does. -/
theorem advances_walkEdge (hv : n.Visits nullable a all s returns called callers) {t : Transition}
    (ht : t ∈ (n.state s).transitions) (hfuel : n.unseenPoints a all w < fuel) :
    let w' := n.walkEdge fuel callers called returns w t
    w.Advances n all w' ∧ n.Gains returns callers t w' := by
  rcases n.edge_cases t with ⟨r, follow, precedence, hk⟩ | ⟨hcall, ⟨types, hl, hk⟩ | ⟨hl, hk⟩⟩
  · have hedge : n.walkEdge fuel callers called returns w t =
        n.walkFollowing fuel t.target callers (r :: called) (follow :: returns) w := by
      rw [walkEdge_call hk, hv.not_called hs hc hn ht hk]
      rfl
    rw [hedge]
    obtain ⟨h₁, h₂⟩ := ih _ _ _ _ w (hv.call hs hc ht hk) hfuel
    refine ⟨h₁, ?_, ?_, ?_⟩
    · intro r' follow' precedence' hk'
      rw [hk] at hk'
      cases hk'
      exact h₂
    · intro hcall
      simp [Transition.call?, hk] at hcall
    · intro types hl
      rw [hk] at hl
      cases hl
  · have hno : ∀ r follow precedence, t.kind ≠ .rule r follow precedence := by
      intro r follow precedence hk'
      simp [Transition.call?, hk'] at hcall
    rw [walkEdge_plain hcall, hl]
    refine ⟨advances_of_found fun x hx => TokenSet.mem_union.2 (.inl hx), ?_, ?_, ?_⟩
    · exact fun r follow precedence hk' => absurd hk' (hno r follow precedence)
    · intro _ hf
      rw [hk] at hf
      cases hf
    · intro types' he x hx
      cases hl.symm.trans he
      exact TokenSet.mem_union.2 (.inr hx)
  · have hno : ∀ r follow precedence, t.kind ≠ .rule r follow precedence := by
      intro r follow precedence hk'
      simp [Transition.call?, hk'] at hcall
    rw [walkEdge_plain hcall, hl]
    obtain ⟨h₁, h₂⟩ := ih _ _ _ _ w (hv.free hc ht hcall hk) hfuel
    refine ⟨h₁, ?_, fun _ _ => h₂, ?_⟩
    · exact fun r follow precedence hk' => absurd hk' (hno r follow precedence)
    · intro types he
      cases hl.symm.trans he

theorem advances_foldl (hv : n.Visits nullable a all s returns called callers) (l : List Transition)
    (hl : ∀ t ∈ l, t ∈ (n.state s).transitions) (hfuel : n.unseenPoints a all w < fuel) :
    let w' := l.foldl (n.walkEdge fuel callers called returns) w
    w.Advances n all w' ∧ ∀ t ∈ l, n.Gains returns callers t w' := by
  induction l generalizing w with
  | nil => exact ⟨.refl n all w, by simp⟩
  | cons t l ihl =>
    obtain ⟨h₁, htakes⟩ := advances_walkEdge hs hc hn ih hv (hl t (.head _)) hfuel
    rw [List.foldl_cons]
    generalize n.walkEdge fuel callers called returns w t = w₁ at h₁ htakes
    obtain ⟨h₂, hrest⟩ := ihl (fun u hu => hl u (.tail _ hu))
      (Nat.lt_of_le_of_lt (unseenPoints_le h₁ a) hfuel)
    refine ⟨h₁.trans h₂, ?_⟩
    intro u hu
    rcases List.mem_cons.1 hu with rfl | hu
    · exact htakes.mono h₂
    · exact hrest u hu

end

/-- A walk with fuel for every point it has not seen explores all that it comes to. -/
theorem advances_walkFollowing (hs : n.Shaped levels) (hc : n.Checked) (hn : n.Progressive nullable)
    (hall : ∀ b ∈ all.getD [], b < n.states.size) (fuel : Nat) (s : StateId)
    (returns : List StateId) (called : List RuleId) (callers : Option (List StateId))
    (w : FollowingWalk) (hv : n.Visits nullable a all s returns called callers)
    (hfuel : n.unseenPoints a all w < fuel) :
    let w' := n.walkFollowing fuel s callers called returns w
    w.Advances n all w' ∧ w'.Saw s returns callers := by
  induction fuel generalizing s returns called callers w with
  | zero => cases hfuel
  | succ fuel ih =>
    rw [walkFollowing_succ]
    by_cases hseen : w.seen.contains ⟨s, returns, callers.map List.length⟩ = true
    · rw [if_pos hseen]
      exact ⟨.refl n all w, hseen⟩
    · rw [if_neg hseen]
      -- the point is new, so that there are fewer left
      have hless := Nat.lt_of_lt_of_le (unseenPoints_visit (hv.mem hn) (by simpa using hseen))
        (Nat.le_of_lt_succ hfuel)
      generalize hw : ({ w with seen := w.seen.insert ⟨s, returns, callers.map List.length⟩ } :
        FollowingWalk) = w₁ at hless ⊢
      dsimp only
      by_cases hstop : (n.state s).isRuleStop = true
      · rw [if_pos hstop]
        have hno : ∀ {P : Prop}, (n.state s).isRuleStop = false → P := fun hf => by
          rw [hstop] at hf
          cases hf
        cases returns with
        | cons back returns =>
          obtain ⟨h₁, h₂⟩ := ih back returns _ callers w₁ (hv.back hs hn hstop) hless
          refine h₁.of_visit hw.symm hv.left ⟨?_, nofun, nofun, hno, hno, hno⟩
          intro _ back' rest he
          cases he
          exact h₂
        | nil =>
          rcases callers with _ | _ | ⟨back, outer⟩
          · have h₁ : w₁.Advances n all { w₁ with found := w₁.found.insert TokenType.epsilon } :=
              advances_of_found fun x hx => TokenSet.mem_insert.2 (.inr hx)
            refine h₁.of_visit hw.symm hv.left ⟨nofun, nofun, fun _ _ _ => ?_, hno, hno, hno⟩
            exact TokenSet.mem_insert.2 (.inl ⟨Int.le_refl _, rfl⟩)
          · have h₁ : w₁.Advances n all { w₁ with found := w₁.found.insert TokenType.eof } :=
              advances_of_found fun x hx => TokenSet.mem_insert.2 (.inr hx)
            refine h₁.of_visit hw.symm hv.left ⟨nofun, nofun, fun _ _ _ => ?_, hno, hno, hno⟩
            exact TokenSet.mem_insert.2 (.inl ⟨by decide, rfl⟩)
          · obtain ⟨h₁, h₂⟩ := ih back [] _ (some outer) w₁ (hv.outer hall) hless
            refine h₁.of_visit hw.symm hv.left ⟨nofun, ?_, nofun, hno, hno, hno⟩
            intro _ _ back' rest he
            cases he
            exact h₂
      · rw [if_neg hstop]
        obtain ⟨h₁, h₂⟩ := advances_foldl hs hc hn ih hv (n.state s).transitions (fun _ h => h) hless
        refine h₁.of_visit hw.symm hv.left ⟨?_, ?_, ?_, ?_, ?_, ?_⟩
        · exact fun hf => absurd hf hstop
        · exact fun hf => absurd hf hstop
        · exact fun hf => absurd hf hstop
        · exact fun _ t ht => (h₂ t ht).call
        · exact fun _ t ht => (h₂ t ht).free
        · exact fun _ t ht => (h₂ t ht).take

/-- All that the walk from a state has come to is explored. -/
theorem explored_following (hs : n.Shaped levels) (hc : n.Checked) (a : StateId)
    (hall : ∀ b ∈ all.getD [], b < n.states.size) :
    ∃ w : FollowingWalk, n.following a all = w.found ∧ w.Saw a [] all ∧
      ∀ s returns callers, Left all callers → w.Saw s returns callers →
        w.Explored n s returns callers := by
  obtain ⟨nullable, hn⟩ := hc.progressive
  have hfuel : n.unseenPoints a all {} < n.walkBound (all.elim 0 List.length) := by
    refine Nat.lt_of_le_of_lt ((Finset.card_filter_le _ _).trans (card_walkPoints a)) ?_
    exact Nat.lt_succ_of_le (Nat.mul_le_mul_left _ (Nat.le_succ _))
  obtain ⟨h₁, h₂⟩ := advances_walkFollowing hs hc hn hall (n.walkBound (all.elim 0 List.length)) a [] []
    all {} ⟨.inl rfl, nofun, .nil, .refl all⟩ hfuel
  refine ⟨_, rfl, h₂, ?_⟩
  intro s returns callers hleft hp
  rcases h₁.new s returns callers hleft hp with hp | hp
  · simp [Saw] at hp
  · exact hp

/-- The walk has been wherever a way without a token leads. -/
theorem Drifts.saw (hc : n.Checked) (ha : w.Saw a [] all)
    (hw : ∀ s returns callers, Left all callers → w.Saw s returns callers →
      w.Explored n s returns callers) (h : n.Drifts a (all.getD []) s returns) :
    ∃ opened callers, returns = opened ++ callers.getD [] ∧ Left all callers ∧
      w.Saw s opened callers := by
  induction h with
  | refl => exact ⟨[], all, rfl, .refl all, ha⟩
  | free _ ht hcall hk ih =>
    obtain ⟨opened, callers, rfl, hl, hsaw⟩ := ih
    exact ⟨opened, callers, rfl, hl, (hw _ _ _ hl hsaw).free (hc.not_stop ht) _ ht hcall hk⟩
  | call _ ht hk ih =>
    obtain ⟨opened, callers, rfl, hl, hsaw⟩ := ih
    exact ⟨_ :: opened, callers, rfl, hl, (hw _ _ _ hl hsaw).call (hc.not_stop ht) _ ht _ _ _ hk⟩
  | back _ hstop ih =>
    obtain ⟨opened, callers, he, hl, hsaw⟩ := ih
    cases opened with
    | cons b opened =>
      obtain ⟨rfl, rfl⟩ := List.cons.inj he
      exact ⟨opened, callers, rfl, hl, (hw _ _ _ hl hsaw).back hstop _ _ rfl⟩
    | nil =>
      obtain ⟨outer, rfl⟩ : ∃ outer, callers = some outer := by
        cases callers with
        | none => cases he
        | some outer => exact ⟨outer, rfl⟩
      obtain rfl : _ :: _ = outer := he
      refine ⟨[], some _, rfl, ?_, (hw _ _ _ hl hsaw).outer hstop rfl _ _ rfl⟩
      cases hl with
      | some hl => exact .some ((List.suffix_cons _ _).trans hl)

/-- What a walk finds that started where a way leads can come next. -/
theorem next_of_walkFollowing (fuel : Nat) (s : StateId) (returns : List StateId)
    (called : List RuleId) (callers : Option (List StateId)) (w : FollowingWalk)
    (hcallers : ending callers = ending all)
    (hs : n.Drifts a (all.getD []) s (returns ++ callers.getD [])) {x : TokenType}
    (hx : x ∈ (n.walkFollowing fuel s callers called returns w).found) :
    x ∈ w.found ∨ n.Next a all x := by
  induction fuel generalizing s returns called callers w with
  | zero => exact .inl hx
  | succ fuel ih =>
    rw [walkFollowing_succ] at hx
    split at hx
    · exact .inl hx
    · generalize hw : ({ w with seen := w.seen.insert ⟨s, returns, callers.map List.length⟩ } :
        FollowingWalk) = w₁ at hx
      have hfound : w₁.found = w.found := hw ▸ rfl
      rw [← hfound]
      dsimp only at hx
      split at hx
      · rename_i hstop
        cases returns with
        | cons back returns => exact ih _ _ _ _ _ hcallers (.back hs hstop) hx
        | nil =>
          rcases callers with _ | _ | ⟨back, outer⟩
          · rcases TokenSet.mem_insert.1 hx with ⟨-, rfl⟩ | hx
            · exact .inr (.inr ⟨hcallers, s, hs, hstop⟩)
            · exact .inl hx
          · rcases TokenSet.mem_insert.1 hx with ⟨-, rfl⟩ | hx
            · exact .inr (.inr ⟨hcallers, s, hs, hstop⟩)
            · exact .inl hx
          · exact ih _ [] _ (some outer) _ hcallers (.back hs hstop) hx
      · -- what each of the edges adds can come next, and so what all of them add
        have hedges : ∀ (l : List Transition) w, (∀ t ∈ l, t ∈ (n.state s).transitions) →
            x ∈ (l.foldl (n.walkEdge fuel callers called returns) w).found →
            x ∈ w.found ∨ n.Next a all x := by
          intro l
          induction l with
          | nil => exact fun w _ hx => .inl hx
          | cons t l ihl =>
            intro w hl hx
            rcases ihl _ (fun u hu => hl u (.tail _ hu)) hx with hx | hx
            · have ht := hl t (.head _)
              rcases n.edge_cases t with ⟨r, follow, precedence, hk⟩ | ⟨hcall, ⟨types, hlabel, -⟩ | ⟨hlabel, hk⟩⟩
              · rw [walkEdge_call hk] at hx
                split at hx
                · exact .inl hx
                · exact ih _ (follow :: returns) _ _ _ hcallers (.call hs ht hk) hx
              · rw [walkEdge_plain hcall, hlabel] at hx
                rcases TokenSet.mem_union.1 hx with hx | hx
                · exact .inl hx
                · exact .inr (.inl ⟨s, _, hs, t, ht, types, hlabel, hx⟩)
              · rw [walkEdge_plain hcall, hlabel] at hx
                exact ih _ _ _ _ _ hcallers (.free hs ht hcall hk) hx
            · exact .inr hx
        exact hedges _ _ (fun _ h => h) hx

/-- What the walk finds is what can come next. -/
theorem mem_following_iff (hs : n.Shaped levels) (hc : n.Checked)
    (hall : ∀ b ∈ all.getD [], b < n.states.size) {token : TokenType} :
    token ∈ n.following a all ↔ n.Next a all token := by
  constructor
  · intro h
    rcases next_of_walkFollowing _ a [] [] all {} rfl .refl h with h | h
    · exact absurd h TokenSet.not_mem_empty
    · exact h
  · obtain ⟨w, hfollowing, ha, hw⟩ := explored_following hs hc a hall
    rw [hfollowing]
    rintro (⟨s, returns, h, t, ht, types, hl, hx⟩ | ⟨rfl, s, h, hstop⟩)
    · obtain ⟨opened, callers, -, hleft, hsaw⟩ := h.saw hc ha hw
      exact (hw _ _ _ hleft hsaw).take (hc.not_stop ht) t ht types hl token hx
    · obtain ⟨opened, callers, he, hleft, hsaw⟩ := h.saw hc ha hw
      obtain ⟨rfl, hcallers⟩ := List.append_eq_nil_iff.1 he.symm
      rw [← hleft.ending]
      exact (hw _ _ _ hleft hsaw).ends hstop rfl hcallers

/-- An edge that takes a token that some lexer gives out has it in its label. -/
theorem label?_of_matches {k : EdgeKind} {token : TokenType} (hm : n.Matches k token)
    (ht : TokenType.epsilon ≤ token) : ∃ types, n.label? k = some types ∧ token ∈ types := by
  unfold Matches at hm
  cases k with
  | atom a => exact ⟨_, rfl, TokenSet.mem_singleton.2 ⟨ht, hm.symm⟩⟩
  | range lo hi => exact ⟨_, rfl, TokenSet.mem_ofRange.2 ⟨ht, hm.1, hm.2⟩⟩
  | set types => exact ⟨_, rfl, hm⟩
  | notSet types => exact ⟨_, rfl, TokenSet.mem_complement.2 ⟨hm.1, hm⟩⟩
  | wildcard => exact ⟨_, rfl, TokenSet.mem_ofRange.2 ⟨ht, hm.1, hm.2⟩⟩
  | _ => cases hm

/-- The types an edge is listed with are those it takes. -/
theorem matches_of_label {k : EdgeKind} {types : TokenSet} (h : n.label? k = some types)
    (ht : token ∈ types) : n.Matches k token := by
  unfold Network.label? EdgeKind.label? at h
  unfold Matches EdgeKind.Matches
  cases k with
  | atom a =>
    cases h
    exact (TokenSet.mem_singleton.1 ht).2.symm
  | range lo hi =>
    cases h
    exact (TokenSet.mem_ofRange.1 ht).2
  | set types' =>
    cases h
    exact ht
  | notSet types' =>
    cases h
    exact (TokenSet.mem_complement.1 ht).2
  | wildcard =>
    cases h
    exact (TokenSet.mem_ofRange.1 ht).2
  | _ => cases h

theorem mem_label_iff {k : EdgeKind} {types : TokenSet} (h : n.label? k = some types) :
    token ∈ types ↔ TokenType.epsilon ≤ token ∧ n.Matches k token := by
  constructor
  · exact fun ht => ⟨TokenSet.epsilon_le_of_mem ht, matches_of_label h ht⟩
  · rintro ⟨htoken, hm⟩
    obtain ⟨types', h', ht⟩ := label?_of_matches hm htoken
    rw [h] at h'
    cases h'
    exact ht

theorem isConsuming_of_label {t : Transition} {types : TokenSet} (hl : n.label? t.kind = some types) :
    t.isConsuming = true := by
  have hsome := @EdgeKind.label?_isSome t.kind TokenType.firstUser n.maxType
  rw [show t.kind.label? TokenType.firstUser n.maxType = some types from hl] at hsome
  exact hsome.symm

/-- What can come next depends on the states and the token types alone. -/
theorem walkFollowing_congr {n' : Network} (hstates : n'.states = n.states)
    (hmax : n'.maxType = n.maxType) (fuel : Nat) (s : StateId) (callers : Option (List StateId))
    (called : List RuleId) (returns : List StateId) (w : FollowingWalk) :
    n'.walkFollowing fuel s callers called returns w =
      n.walkFollowing fuel s callers called returns w := by
  have hstate : n'.state = n.state := by
    funext s
    rw [Network.state, Network.state, hstates]
  have hlabel : n'.label? = n.label? := by
    funext k
    rw [label?, label?, hmax]
  induction fuel generalizing s callers called returns w with
  | zero => rfl
  | succ fuel ih =>
    unfold walkFollowing
    simp only [hstate, hlabel, ih]

theorem following_congr {n' : Network} (hstates : n'.states = n.states)
    (hmax : n'.maxType = n.maxType) (hrules : n'.rules = n.rules) (s : StateId)
    (callers : Option (List StateId)) : n'.following s callers = n.following s callers := by
  rw [following, following, walkBound, walkBound, hstates, hrules,
    walkFollowing_congr hstates hmax]

/-- The table holds what can come next. -/
theorem nextTokensAt_build {d : Draft} (h : d.build = .ok n) (hs : a < n.states.size) :
    n.nextTokensAt a = n.following a none := by
  unfold Draft.build at h
  cases hcheck : d.check with
  | error e =>
    rw [hcheck] at h
    cases h
  | ok u =>
    rw [hcheck] at h
    cases h
    have hs' : a < d.skeleton.states.size := hs
    have htable : Network.nextTokensAt { d.skeleton with
        nextTokens := (Array.range d.skeleton.states.size).map fun s => d.skeleton.following s none }
        a = d.skeleton.following a none := by
      simp [nextTokensAt, Array.getD_eq_getD_getElem?, hs']
    refine htable.trans (Eq.symm ?_)
    refine following_congr ?_ ?_ ?_ a none <;> rfl

end Network

/-- The table of a compiled grammar holds what can come next. -/
theorem Grammar.nextTokensAt_compile {g : Grammar} {c : CompiledGrammar} (h : g.compile = .ok c)
    {s : StateId} (hs : s < c.network.states.size) :
    c.network.nextTokensAt s = c.network.following s none := by
  obtain ⟨d, -, hb⟩ := build_compile h
  exact Network.nextTokensAt_build hb hs

end AdaptiveParsing
