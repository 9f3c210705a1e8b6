import AdaptiveParsing.Completion.FollowSet
import AdaptiveParsing.Proofs.Completion.Travels
import AdaptiveParsing.Proofs.Network.Expected
/-!
What a rule can begin with is collected exactly. The walk never enters a state that is on its way, and
need not: a way that comes back to a state can leave out what lies between (`GlidesPast.first`), and no
rule calls itself before it takes a token (`Entered.fresh`). Main statements: the sets collected for a
rule are those of the edges that ways without a token come to from its start (`Network.listed_followSets`,
`Network.mem_followSets`), so their types are those met from there (`Network.meets_followSets`), and the
walk is exhaustive unless some way comes to the end of the rule (`Network.exits_followSets`). So what is
collected is what the table of the start holds (`Grammar.combined_followSets`), and where the edges are
under no condition it is what the words of the rule begin with (`Network.lists_followSets`,
`Network.exhaustive_followSets`).
-/

namespace AdaptiveParsing

namespace FollowSets

/-- The type is in one of the sets. -/
def Lists (sets : Array FollowSet) (token : TokenType) : Prop := ∃ set ∈ sets, token ∈ set.types

/-- What has been found stays. -/
structure Gathers (f f' : FollowSets) : Prop where
  sets : ∀ set ∈ f.sets, set ∈ f'.sets
  ends : f.isExhaustive = false → f'.isExhaustive = false

variable {f f' f'' : FollowSets} {step : FollowSets → Transition → FollowSets} {t : Transition}

theorem Gathers.refl (f : FollowSets) : f.Gathers f := ⟨fun _ h => h, id⟩

theorem Gathers.trans (h : f.Gathers f') (h' : f'.Gathers f'') : f.Gathers f'' :=
  ⟨fun set hs => h'.sets set (h.sets set hs), h'.ends ∘ h.ends⟩

theorem gathers_foldl (hg : ∀ f t, Gathers f (step f t)) (l : List Transition) (f : FollowSets) :
    f.Gathers (l.foldl step f) := by
  induction l generalizing f with
  | nil => exact .refl f
  | cons t l ih => exact (hg f t).trans (ih _)

/-- What one edge adds is there at the end. -/
theorem foldl_of_mem {P : FollowSets → Prop} (hmono : ∀ f f', Gathers f f' → P f → P f')
    (hg : ∀ f t, Gathers f (step f t)) {l : List Transition} (ht : t ∈ l) (hP : ∀ f, P (step f t))
    (f : FollowSets) : P (l.foldl step f) := by
  obtain ⟨before, after, rfl⟩ := List.append_of_mem ht
  rw [List.foldl_append, List.foldl_cons]
  exact hmono _ _ (gathers_foldl hg after _) (hP _)

theorem contains_combined {token : TokenType} :
    f.combined.contains token = true ↔ Lists f.sets token := by
  show token ∈ f.combined ↔ _
  unfold combined Lists
  rw [← Array.foldl_toList, TokenSet.mem_foldl_union]
  simp

end FollowSets

namespace Network

open FollowSets

variable (n : Network)

/-- An edge is passed without a token: it takes none, or it calls a rule that a way comes to the end of. -/
inductive Passes (t : Transition) : StateId → Prop
  | free (hc : t.call? = none) (hk : t.isConsuming = false) : Passes t t.target
  | call {r : RuleId} {follow : StateId} {precedence : Int} (hk : t.kind = .rule r follow precedence)
      (he : n.Exits t.target []) : Passes t follow

/-- Some edge is passed without a token. -/
def Glides (a b : StateId) : Prop := ∃ t ∈ (n.state a).transitions, n.Passes t b

/-- Edges are passed without a token, and never to one of these states. -/
def GlidesPast (past : List StateId) : StateId → StateId → Prop :=
  Relation.ReflTransGen fun a b => n.Glides a b ∧ b ∉ past

/-- Some way without a token comes to where the edge is. -/
def Sights (a : StateId) (t : Transition) : Prop :=
  ∃ s returns, n.Drifts a [] s returns ∧ t ∈ (n.state s).transitions

/-- The edge is this one, or enters a rule where some way comes to this one. -/
def Shows (t u : Transition) : Prop :=
  t = u ∨ ∃ r follow precedence, t.kind = .rule r follow precedence ∧ n.Sights t.target u

/-- One of the sets is that of the edge. -/
def Listed (sets : Array FollowSet) (t : Transition) : Prop :=
  ∃ path, ∃ set ∈ sets, n.followSet? t path = some set

/-- The walk is in rule `r`, and only rules that lead to `r` before any token are open around it. -/
structure Entered (nullable : RuleId → Prop) (r : RuleId) (s : StateId) (visiting : List StateId)
    (path : List RuleId) : Prop where
  lt : r < n.rules.size
  free : FreeFrom n.state nullable (n.rule r).start s
  visiting_rule : ∀ x ∈ visiting,
    Relation.ReflTransGen (n.LeftCalls nullable) (n.state x).rule r
  path_rule : ∀ c ∈ path, Relation.ReflTransGen (n.LeftCalls nullable) c r

/-- What stands at state `b` has been found. -/
structure Collected (b : StateId) (f : FollowSets) : Prop where
  lists : ∀ u, (n.followSet? u []).isSome → ∀ t ∈ (n.state b).transitions, n.Shows t u →
    n.Listed f.sets u
  ends : (n.state b).isRuleStop = true → f.isExhaustive = false

/-- What is kept on a way that takes no token: of the rules it has entered and the state it is at. -/
structure Lasts (P : List RuleId → StateId → Prop) : Prop where
  pass : ∀ path s t b, P path s → t ∈ (n.state s).transitions → n.Passes t b → P path b
  call : ∀ path s t r follow precedence, P path s → t ∈ (n.state s).transitions →
    t.kind = .rule r follow precedence → P (path ++ [r]) t.target

/-- What is found from state `s` on is really there: a set is that of an edge that the walk has come to. -/
structure Truthful (P : List RuleId → StateId → Prop) (path : List RuleId) (s : StateId)
    (f f' : FollowSets) : Prop where
  sets : P path s → ∀ set ∈ f'.sets, set ∈ f.sets ∨ ∃ way x, P way x ∧
    ∃ t ∈ (n.state x).transitions, n.followSet? t way = some set
  ends : f'.isExhaustive = false → f.isExhaustive = false ∨ n.Exits s []

/-- How the walk takes one edge. -/
def followEdge (fuel : Nat) (visiting : List StateId) (path : List RuleId) (acc : FollowSets)
    (t : Transition) : FollowSets :=
  match t.kind with
  | .rule r back _ =>
    if path.contains r then acc
    else
      let callee := n.collectFollow fuel visiting (path ++ [r]) t.target acc.sets
      if callee.isExhaustive then { acc with sets := callee.sets }
      else
        let rest := n.collectFollow fuel visiting path back callee.sets
        { rest with isExhaustive := acc.isExhaustive && rest.isExhaustive }
  | kind =>
    if kind.isConsuming then
      match n.followSet? t path with
      | none => acc
      | some set => { acc with sets := acc.sets.push set }
    else
      let rest := n.collectFollow fuel visiting path t.target acc.sets
      { rest with isExhaustive := acc.isExhaustive && rest.isExhaustive }

variable {n : Network} {nullable : RuleId → Prop} {levels : RuleId → Int → Prop}
  {a b c s : StateId} {r : RuleId} {t : Transition} {token : TokenType} {past visiting : List StateId}
  {path : List RuleId} {f f' f'' acc : FollowSets} {fuel : Nat} {returns : List StateId}
  {u : Transition} {P : List RuleId → StateId → Prop}

theorem collectFollow_succ (sets : Array FollowSet) :
    n.collectFollow (fuel + 1) visiting path s sets =
      if visiting.contains s then { sets }
      else if (n.state s).isRuleStop then { sets, isExhaustive := false }
      else (n.state s).transitions.foldl (n.followEdge fuel (s :: visiting) path) { sets } := rfl

section

variable {follow : StateId} {precedence : Int}

theorem followEdge_call (hk : t.kind = .rule r follow precedence) :
    n.followEdge fuel visiting path acc t =
      if path.contains r then acc
      else
        let callee := n.collectFollow fuel visiting (path ++ [r]) t.target acc.sets
        if callee.isExhaustive then { acc with sets := callee.sets }
        else
          let rest := n.collectFollow fuel visiting path follow callee.sets
          { rest with isExhaustive := acc.isExhaustive && rest.isExhaustive } := by
  simp only [followEdge, hk]

end

theorem followEdge_take (hk : t.isConsuming = true) :
    n.followEdge fuel visiting path acc t =
      match n.followSet? t path with
      | none => acc
      | some set => { acc with sets := acc.sets.push set } := by
  unfold followEdge
  cases hk' : t.kind <;> simp_all [Transition.isConsuming, EdgeKind.isConsuming]

theorem followEdge_free (hc : t.call? = none) (hk : t.isConsuming = false) :
    n.followEdge fuel visiting path acc t =
      let rest := n.collectFollow fuel visiting path t.target acc.sets
      { rest with isExhaustive := acc.isExhaustive && rest.isExhaustive } := by
  unfold followEdge
  cases hk' : t.kind <;>
    simp_all [Transition.call?, Transition.isConsuming, EdgeKind.isConsuming]

theorem types_followSet? {set : FollowSet} (h : n.followSet? t path = some set) :
    n.label? t.kind = some set.types := by
  unfold followSet? at h
  split at h
  · cases h
  · rename_i types hl
    rw [hl]
    split at h
    · cases h
      rfl
    · split at h
      · cases h
      · cases h
        rfl

/-- The path is only noted. -/
theorem followSet?_path (t : Transition) (path : List RuleId) :
    n.followSet? t path = (n.followSet? t []).map fun set => { set with path } := by
  unfold followSet?
  split
  · rfl
  · split
    · rfl
    · split <;> rfl

theorem exists_followSet? (path : List RuleId) (h : (n.followSet? t []).isSome) :
    ∃ set, n.followSet? t path = some set := by
  obtain ⟨set, hset⟩ := Option.isSome_iff_exists.1 h
  exact ⟨_, by rw [followSet?_path, hset, Option.map_some]⟩

/-- An edge with a type in its label has a set. -/
theorem isSome_followSet? {types : TokenSet} (hl : n.label? t.kind = some types) (hmem : token ∈ types) :
    (n.followSet? t []).isSome := by
  have hne : types.isEmpty = false := by
    rw [Bool.eq_false_iff]
    intro he
    rw [TokenSet.isEmpty_iff.1 he] at hmem
    exact TokenSet.not_mem_empty hmem
  unfold followSet?
  rw [hl]
  cases hk : t.kind <;> simp [hne]

theorem isConsuming_of_followSet? (h : (n.followSet? t []).isSome) : t.isConsuming = true := by
  obtain ⟨set, hset⟩ := Option.isSome_iff_exists.1 h
  exact isConsuming_of_label (types_followSet? hset)

theorem Listed.mono {sets sets' : Array FollowSet} (hl : n.Listed sets u)
    (h : ∀ set ∈ sets, set ∈ sets') : n.Listed sets' u := by
  obtain ⟨path, set, hset, hu⟩ := hl
  exact ⟨path, set, h set hset, hu⟩

/-- What has been found stays while an edge is taken, if it does on the walk from there. -/
theorem gathers_followEdge
    (ih : ∀ visiting path s sets, Gathers { sets } (n.collectFollow fuel visiting path s sets))
    (visiting : List StateId) (path : List RuleId) (acc : FollowSets) (t : Transition) :
    acc.Gathers (n.followEdge fuel visiting path acc t) := by
  have hrest : ∀ s sets, (∀ set ∈ acc.sets, set ∈ sets) →
      let rest := n.collectFollow fuel visiting path s sets
      acc.Gathers { rest with isExhaustive := acc.isExhaustive && rest.isExhaustive } := by
    intro s sets hsets
    exact ⟨fun set h => (ih visiting path s sets).sets set (hsets set h), fun h => by simp [h]⟩
  unfold followEdge
  split
  · rename_i r back precedence _
    have hcallee := (ih visiting (path ++ [r]) t.target acc.sets).sets
    split
    · exact .refl acc
    · dsimp only
      split
      · exact ⟨hcallee, id⟩
      · exact hrest _ _ hcallee
  · split
    · split
      · exact .refl acc
      · exact ⟨fun set h => Array.mem_push.2 (.inl h), id⟩
    · exact hrest _ _ fun _ h => h

theorem gathers_collectFollow (fuel : Nat) (visiting : List StateId) (path : List RuleId)
    (s : StateId) (sets : Array FollowSet) :
    Gathers { sets } (n.collectFollow fuel visiting path s sets) := by
  induction fuel generalizing visiting path s sets with
  | zero => exact .refl _
  | succ fuel ih =>
    rw [collectFollow_succ]
    split
    · exact .refl _
    · split
      · exact ⟨fun _ h => h, fun _ => rfl⟩
      · exact gathers_foldl (gathers_followEdge ih _ path) _ _

theorem Truthful.refl (path : List RuleId) (s : StateId) (f : FollowSets) : n.Truthful P path s f f :=
  ⟨fun _ _ h => .inl h, .inl⟩

theorem Truthful.trans (h : n.Truthful P path s f f') (h' : n.Truthful P path s f' f'') :
    n.Truthful P path s f f'' := by
  refine ⟨fun hP set hset => ?_, fun he => ?_⟩
  · exact (h'.sets hP set hset).elim (h.sets hP set) .inr
  · exact (h'.ends he).elim h.ends .inr

/-- Past an edge the way goes on in the same rule. -/
theorem Passes.drifts (ht : t ∈ (n.state s).transitions) (h : n.Passes t b) : n.Drifts s [] b [] := by
  cases h with
  | free hc hk => exact .free .refl ht hc hk
  | call hk he => exact (Drifts.refl.call ht hk).trans he.drifts

/-- What is found past an edge is really there before it. -/
theorem Truthful.pass {rest : FollowSets} (hP : n.Lasts P) (ht : t ∈ (n.state s).transitions)
    (hx : n.Passes t b)
    (hsets : P path s → ∀ set ∈ acc.sets, set ∈ f.sets ∨ ∃ way x, P way x ∧
      ∃ t ∈ (n.state x).transitions, n.followSet? t way = some set)
    (h : n.Truthful P path b { sets := acc.sets } rest) :
    n.Truthful P path s f { rest with isExhaustive := f.isExhaustive && rest.isExhaustive } := by
  refine ⟨fun hs set hset => ?_, fun he => ?_⟩
  · rcases h.sets (hP.pass path s t b hs ht hx) set hset with hset | hset
    · exact hsets hs set hset
    · exact .inr hset
  · rcases Bool.and_eq_false_iff.1 he with he | he
    · exact .inl he
    · rcases h.ends he with he | ⟨e, hends, hstop⟩
      · cases he
      · exact .inr ⟨e, (hx.drifts ht).trans hends, hstop⟩

theorem truthful_followEdge (hP : n.Lasts P)
    (ih : ∀ visiting path s sets,
      n.Truthful P path s { sets } (n.collectFollow fuel visiting path s sets))
    (ht : t ∈ (n.state s).transitions) (acc : FollowSets) :
    n.Truthful P path s acc (n.followEdge fuel visiting path acc t) := by
  rcases n.edge_cases t with ⟨r, follow, precedence, hk⟩ | ⟨hcall, ⟨-, -, hk⟩ | ⟨-, hk⟩⟩
  · rw [followEdge_call hk]
    split
    · exact .refl path s acc
    · have hcallee := ih visiting (path ++ [r]) t.target acc.sets
      have hsets := fun hs => hcallee.sets (hP.call path s t r follow precedence hs ht hk)
      dsimp only
      split
      · exact ⟨hsets, .inl⟩
      · rename_i hne
        have hends : n.Exits t.target [] :=
          (hcallee.ends (by simpa using hne)).resolve_left (by simp)
        exact (ih visiting path follow _).pass hP ht (.call hk hends) hsets
  · rw [followEdge_take hk]
    cases hset : n.followSet? t path with
    | none => exact .refl path s acc
    | some set =>
      refine ⟨fun hs x hx => ?_, .inl⟩
      rcases Array.mem_push.1 hx with hx | rfl
      · exact .inl hx
      · exact .inr ⟨path, s, hs, t, ht, hset⟩
  · rw [followEdge_free hcall hk]
    exact (ih visiting path t.target acc.sets).pass hP ht (.free hcall hk) fun _ _ => .inl

/-- Everything that is collected is really there. -/
theorem truthful_collectFollow (hP : n.Lasts P) (fuel : Nat) (visiting : List StateId)
    (path : List RuleId) (s : StateId) (sets : Array FollowSet) :
    n.Truthful P path s { sets } (n.collectFollow fuel visiting path s sets) := by
  induction fuel generalizing visiting path s sets with
  | zero => exact .refl path s _
  | succ fuel ih =>
    rw [collectFollow_succ]
    split
    · exact .refl path s _
    · split
      · rename_i hstop
        exact ⟨fun _ _ => .inl, fun _ => .inr ⟨s, .refl, hstop⟩⟩
      · have hfold : ∀ (l : List Transition) (acc : FollowSets), (∀ t ∈ l, t ∈ (n.state s).transitions) →
            n.Truthful P path s acc (l.foldl (n.followEdge fuel (s :: visiting) path) acc) := by
          intro l
          induction l with
          | nil => exact fun acc _ => .refl path s acc
          | cons t l ihl =>
            intro acc hl
            exact (truthful_followEdge hP ih (hl t (.head _)) acc).trans
              (ihl _ fun u hu => hl u (.tail _ hu))
        exact hfold _ _ fun _ h => h

/-- What is kept on the way from the start of a rule holds where the edge of a set is. -/
theorem mem_followSets (hP : n.Lasts P) (hstart : P [] (n.rule r).start) {set : FollowSet}
    (hset : set ∈ (n.followSets r).sets) :
    ∃ s, P set.path s ∧ ∃ t ∈ (n.state s).transitions, n.followSet? t set.path = some set := by
  have htruthful := truthful_collectFollow hP (n.states.size + 2) [] [] (n.rule r).start #[]
  obtain hnone | ⟨way, s, hs, t, ht, htake⟩ := htruthful.sets hstart set hset
  · simp at hnone
  · obtain rfl : set.path = way := by
      rw [followSet?_path] at htake
      obtain ⟨set', -, rfl⟩ := Option.map_eq_some_iff.1 htake
      rfl
    exact ⟨s, hs, t, ht, htake⟩

/-- A way can leave out what lies between two visits of its first state. -/
theorem GlidesPast.first (h : n.GlidesPast past a b) :
    a = b ∨ ∃ c, n.Glides a c ∧ c ∉ a :: past ∧ n.GlidesPast (a :: past) c b := by
  induction h with
  | refl => exact .inl rfl
  | @tail y z _ hz ih =>
    by_cases hza : z = a
    · exact .inl hza.symm
    · have hnew : z ∉ a :: past := by
        rw [List.mem_cons]
        exact fun h => h.elim hza hz.2
      rcases ih with rfl | ⟨c, hc, hnot, hy⟩
      · exact .inr ⟨z, hz.1, hnew, .refl⟩
      · exact .inr ⟨c, hc, hnot, hy.tail ⟨hz.1, hnew⟩⟩

/-- A way is inside no call, or inside one that it came to without a token and never left. -/
theorem Drifts.entered (h : n.Drifts a [] s returns) :
    returns = [] ∧ n.GlidesPast [] a s ∨
      ∃ x, n.GlidesPast [] a x ∧ ∃ t ∈ (n.state x).transitions, ∃ r follow precedence rest,
        t.kind = .rule r follow precedence ∧ returns = rest ++ [follow] ∧
          n.Drifts t.target [] s rest := by
  have hpast : ∀ {b c}, n.GlidesPast [] a b → n.Glides b c → n.GlidesPast [] a c :=
    fun h hg => Relation.ReflTransGen.tail h ⟨hg, List.not_mem_nil⟩
  induction h with
  | refl => exact .inl ⟨rfl, .refl⟩
  | free _ ht hc hk ih =>
    rcases ih with ⟨rfl, hs⟩ | ⟨x, hx, u, hu, r, follow, precedence, rest, hcall, rfl, h⟩
    · exact .inl ⟨rfl, hpast hs ⟨_, ht, .free hc hk⟩⟩
    · exact .inr ⟨x, hx, u, hu, r, follow, precedence, rest, hcall, rfl, h.free ht hc hk⟩
  | @call s back returns t r' precedence' _ ht hk ih =>
    rcases ih with ⟨rfl, hs⟩ | ⟨x, hx, u, hu, r, follow, precedence, rest, hcall, rfl, h⟩
    · exact .inr ⟨s, hs, t, ht, r', back, precedence', [], hk, rfl, .refl⟩
    · exact .inr ⟨x, hx, u, hu, r, follow, precedence, back :: rest, hcall, rfl, h.call ht hk⟩
  | @back s back returns _ hstop ih =>
    rcases ih with ⟨he, -⟩ | ⟨x, hx, u, hu, r, follow, precedence, rest, hcall, he, h⟩
    · cases he
    · cases rest with
      | nil =>
        obtain ⟨rfl, rfl⟩ := List.cons.inj he
        exact .inl ⟨rfl, hpast hx ⟨u, hu, .call hcall ⟨s, h, hstop⟩⟩⟩
      | cons y rest =>
        obtain ⟨rfl, rfl⟩ := List.cons.inj he
        exact .inr ⟨x, hx, u, hu, r, follow, precedence, rest, hcall, rfl, h.back hstop⟩

/-- An edge that a way comes to shows at a state that the way glides to. -/
theorem Sights.glides (h : n.Sights a u) :
    ∃ s, n.GlidesPast [] a s ∧ ∃ t ∈ (n.state s).transitions, n.Shows t u := by
  obtain ⟨s, returns, h, hu⟩ := h
  rcases h.entered with ⟨-, hs⟩ | ⟨x, hx, t, ht, r, follow, precedence, rest, hk, -, h⟩
  · exact ⟨s, hs, u, hu, .inl rfl⟩
  · exact ⟨x, hx, t, ht, .inr ⟨r, follow, precedence, hk, s, rest, h, hu⟩⟩

theorem Exits.glides (h : n.Exits a []) :
    ∃ e, n.GlidesPast [] a e ∧ (n.state e).isRuleStop = true := by
  obtain ⟨e, h, hstop⟩ := h
  rcases h.entered with ⟨-, hs⟩ | ⟨x, -, u, -, r, follow, precedence, rest, -, he, -⟩
  · exact ⟨e, hs, hstop⟩
  · simp at he

/-- A way without a token keeps the chain of the calls it is inside. -/
theorem Drifts.leftChain (hs : n.Shaped levels) (hp : n.Progressive nullable) {f : Frame}
    (h : n.Drifts a [] s returns) (hchain : LeftChain n nullable a [f] [r]) :
    ∃ rules, LeftChain n nullable s (framesOf returns ++ [f]) (rules ++ [r]) := by
  induction h with
  | refl => exact ⟨[], hchain⟩
  | free _ ht hc hk ih =>
    obtain ⟨rules, hrules⟩ := ih
    exact ⟨rules, hrules.step ht hc hk⟩
  | @call s follow returns t c precedence _ ht hk ih =>
    obtain ⟨rules, hrules⟩ := ih
    obtain ⟨hc, htarget⟩ := hs.call s t ht c follow precedence hk
    have hstart : FreeFrom n.state nullable (n.rule c).start t.target := by
      rw [htarget]
      exact .refl
    exact ⟨c :: rules, .cons hstart hc ht hk hrules⟩
  | @back s back returns _ hstop ih =>
    obtain ⟨rules, hrules⟩ := ih
    cases rules with
    | nil =>
      have := hrules.length_eq
      simp [framesOf] at this
    | cons c rules => exact ⟨rules, hrules.pop hs hp hstop⟩

/-- A rule that a way comes to the end of is nullable. -/
theorem nullable_of_exits (hs : n.Shaped levels) (hp : n.Progressive nullable)
    (ht : t ∈ (n.state s).transitions) {follow : StateId} {precedence : Int}
    (hk : t.kind = .rule r follow precedence) (h : n.Exits t.target []) : nullable r := by
  obtain ⟨hr, htarget⟩ := hs.call s t ht r follow precedence hk
  obtain ⟨e, hdrifts, hstop⟩ := h
  obtain ⟨rules, hrules⟩ := hdrifts.leftChain hs hp (f := ⟨follow, 0⟩)
    (.cons (r := r) (by rw [htarget]; exact .refl) hr ht hk .nil)
  obtain rfl : rules = [] := by
    have := hrules.length_eq
    simpa [framesOf] using this
  cases hrules with
  | cons hfree _ _ _ _ =>
    refine hp.closed r hr ?_
    have hkind : (n.state e).kind = .ruleStop := by
      simpa [NetworkState.isRuleStop] using hstop
    rwa [(hs.rule r hr).stop_only _ (hfree.rule_eq hs hr) hkind] at hfree

/-- Passing an edge without a token stays in the rule. -/
theorem Entered.glide (hs : n.Shaped levels) (hp : n.Progressive nullable)
    (h : n.Entered nullable r s visiting path) (ht : t ∈ (n.state s).transitions)
    (hx : n.Passes t b) : n.Entered nullable r b (s :: visiting) path := by
  refine ⟨h.lt, ?_, ?_, h.path_rule⟩
  · cases hx with
    | free hc hk => exact h.free.step ht (.edge hc hk)
    | call hk he => exact h.free.step ht (.call hk (nullable_of_exits hs hp ht hk he))
  · intro x hx
    rcases List.mem_cons.1 hx with rfl | hx
    · rw [h.free.rule_eq hs h.lt]
    · exact h.visiting_rule x hx

section

variable {follow : StateId} {precedence : Int}

theorem Entered.leads (h : n.Entered nullable r s visiting path) (ht : t ∈ (n.state s).transitions)
    (hk : t.kind = .rule c follow precedence) : n.LeftCalls nullable r c :=
  ⟨h.lt, s, h.free, t, ht, follow, precedence, hk⟩

theorem Entered.call (hs : n.Shaped levels) (h : n.Entered nullable r s visiting path)
    (ht : t ∈ (n.state s).transitions) (hk : t.kind = .rule c follow precedence) :
    n.Entered nullable c t.target (s :: visiting) (path ++ [c]) := by
  obtain ⟨hc, htarget⟩ := hs.call s t ht c follow precedence hk
  have hleads := h.leads ht hk
  refine ⟨hc, by rw [htarget]; exact .refl, ?_, ?_⟩
  · intro x hx
    rcases List.mem_cons.1 hx with rfl | hx
    · rw [h.free.rule_eq hs h.lt]
      exact .single hleads
    · exact (h.visiting_rule x hx).tail hleads
  · intro x hx
    rcases List.mem_append.1 hx with hx | hx
    · exact (h.path_rule x hx).tail hleads
    · rw [List.mem_singleton.1 hx]

/-- The rule that is called is not open. -/
theorem Entered.fresh (hp : n.Progressive nullable) (h : n.Entered nullable r s visiting path)
    (ht : t ∈ (n.state s).transitions) (hk : t.kind = .rule c follow precedence) :
    path.contains c = false := by
  rw [Bool.eq_false_iff]
  intro hc
  exact hp.acyclic c (.tail' (h.path_rule c (List.contains_iff_mem.1 hc)) (h.leads ht hk))

/-- No state of the rule that is called is on the way. -/
theorem Entered.apart (hs : n.Shaped levels) (hp : n.Progressive nullable)
    (h : n.Entered nullable r s visiting path) (ht : t ∈ (n.state s).transitions)
    (hk : t.kind = .rule c follow precedence) {x : StateId} (hx : (n.state x).rule = c) :
    x ∉ s :: visiting := by
  intro hmem
  have hopen : Relation.ReflTransGen (n.LeftCalls nullable) c r := by
    rcases List.mem_cons.1 hmem with rfl | hmem
    · rw [← hx, h.free.rule_eq hs h.lt]
    · have := h.visiting_rule x hmem
      rwa [hx] at this
  exact hp.acyclic c (.tail' hopen (h.leads ht hk))

end

/-- In a rule that is not open a way glides past all that is on the way. -/
theorem GlidesPast.inside (hs : n.Shaped levels) (hp : n.Progressive nullable)
    (hr : r < n.rules.size) (hfree : FreeFrom n.state nullable (n.rule r).start a)
    (h : n.GlidesPast [] a b) (hapart : ∀ x, (n.state x).rule = r → x ∉ past) :
    n.GlidesPast past a b ∧ FreeFrom n.state nullable (n.rule r).start b := by
  induction h with
  | refl => exact ⟨.refl, hfree⟩
  | tail _ hz ih =>
    obtain ⟨⟨t, ht, hx⟩, -⟩ := hz
    obtain ⟨hpast, hy⟩ := ih
    have hin : n.Entered nullable r _ [] [] := ⟨hr, hy, by simp, by simp⟩
    have hnext := (hin.glide hs hp ht hx).free
    exact ⟨hpast.tail ⟨⟨t, ht, hx⟩, hapart _ (hnext.rule_eq hs hr)⟩, hnext⟩

theorem Collected.mono (h : n.Collected b f) (hg : f.Gathers f') : n.Collected b f' :=
  ⟨fun u hu t ht hs => (h.lists u hu t ht hs).mono hg.sets, fun hs => hg.ends (h.ends hs)⟩

theorem Collected.merge {rest : FollowSets} (h : n.Collected b rest) (acc : FollowSets) :
    n.Collected b { rest with isExhaustive := acc.isExhaustive && rest.isExhaustive } :=
  ⟨h.lists, fun hs => by simp [h.ends hs]⟩

/-- The walk comes to a new state of a rule it is in, with fuel for all states it has not been at. -/
structure Ready (n : Network) (nullable : RuleId → Prop) (fuel : Nat) (r : RuleId) (s : StateId)
    (visiting : List StateId) (path : List RuleId) : Prop where
  entered : n.Entered nullable r s visiting path
  fresh : s ∉ visiting
  nodup : visiting.Nodup
  visiting_lt : ∀ x ∈ visiting, x < n.states.size
  lt : s < n.states.size
  enough : n.states.size + 2 ≤ fuel + visiting.length

theorem Ready.fuel_pos (h : n.Ready nullable fuel r s visiting path) : 0 < fuel := by
  have hle : visiting.length ≤ n.states.size := by
    rw [← List.toFinset_card_of_nodup h.nodup, ← Finset.card_range n.states.size]
    exact Finset.card_le_card fun x hx =>
      Finset.mem_range.2 (h.visiting_lt x (List.mem_toFinset.1 hx))
  have := h.enough
  omega

theorem Ready.next {r' : RuleId} {path' : List RuleId}
    (h : n.Ready nullable (fuel + 1) r s visiting path)
    (he : n.Entered nullable r' b (s :: visiting) path') (hb : b ∉ s :: visiting)
    (hlt : b < n.states.size) : n.Ready nullable fuel r' b (s :: visiting) path' := by
  refine ⟨he, hb, List.nodup_cons.2 ⟨h.fresh, h.nodup⟩, ?_, hlt, ?_⟩
  · intro x hx
    rcases List.mem_cons.1 hx with rfl | hx
    · exact h.lt
    · exact h.visiting_lt x hx
  · have := h.enough
    rw [List.length_cons]
    omega

/-- What the walk finds from a state: all that stands at the states it glides to. -/
def Finds (n : Network) (nullable : RuleId → Prop) (fuel : Nat) : Prop :=
  ∀ r s visiting path sets, n.Ready nullable fuel r s visiting path →
    ∀ b, n.GlidesPast visiting s b → n.Collected b (n.collectFollow fuel visiting path s sets)

section

variable (hs : n.Shaped levels) (hc : n.Checked) (hp : n.Progressive nullable)

include hs hc hp

/-- A call is walked through from the start of its rule. -/
theorem collected_call (ih : n.Finds nullable fuel)
    (h : n.Ready nullable (fuel + 1) r s visiting path) (ht : t ∈ (n.state s).transitions)
    {follow : StateId} {precedence : Int} (hk : t.kind = .rule c follow precedence)
    (sets : Array FollowSet) (hb : n.GlidesPast [] t.target b) :
    n.Collected b (n.collectFollow fuel (s :: visiting) (path ++ [c]) t.target sets) := by
  have hentered := h.entered.call hs ht hk
  have hapart := fun x => h.entered.apart hs hp ht hk (x := x)
  have hnew := hapart _ (hentered.free.rule_eq hs hentered.lt)
  exact ih c t.target _ _ sets (h.next hentered hnew (hc.target_lt s t ht)) b
    (hb.inside hs hp hentered.lt hentered.free hapart).1

/-- What shows at a state is found there. -/
theorem lists_followEdge (ih : n.Finds nullable fuel)
    (h : n.Ready nullable (fuel + 1) r s visiting path) (ht : t ∈ (n.state s).transitions)
    (hu : (n.followSet? u []).isSome) (hshow : n.Shows t u) (acc : FollowSets) :
    n.Listed (n.followEdge fuel (s :: visiting) path acc t).sets u := by
  rcases hshow with rfl | ⟨c, follow, precedence, hk, hm⟩
  · obtain ⟨set, hset⟩ := exists_followSet? path hu
    rw [followEdge_take (isConsuming_of_followSet? hu), hset]
    exact ⟨path, set, Array.mem_push.2 (.inr rfl), hset⟩
  · obtain ⟨x, hx, v, hv, hshow⟩ := hm.glides
    have hcallee := (collected_call hs hc hp ih h ht hk acc.sets hx).lists u hu v hv hshow
    rw [followEdge_call hk, if_neg (by simpa using h.entered.fresh hp ht hk)]
    dsimp only
    split
    · exact hcallee
    · exact hcallee.mono (gathers_collectFollow fuel _ path follow _).sets

/-- What stands at a state that is glided to over an edge is found past the edge. -/
theorem collected_followEdge (ih : n.Finds nullable fuel)
    (h : n.Ready nullable (fuel + 1) r s visiting path) (ht : t ∈ (n.state s).transitions)
    (hx : n.Passes t c) (hnew : c ∉ s :: visiting) (hb : n.GlidesPast (s :: visiting) c b)
    (acc : FollowSets) : n.Collected b (n.followEdge fuel (s :: visiting) path acc t) := by
  have hentered := h.entered.glide hs hp ht hx
  cases hx with
  | free hcall hk =>
    rw [followEdge_free hcall hk]
    have hready := h.next hentered hnew (hc.target_lt s t ht)
    exact (ih r _ _ _ acc.sets hready b hb).merge acc
  | @call r' follow precedence hk hexits =>
    obtain ⟨e, he, hstop⟩ := hexits.glides
    have hends := (collected_call hs hc hp ih h ht hk acc.sets he).ends hstop
    rw [followEdge_call hk, if_neg (by simpa using h.entered.fresh hp ht hk)]
    dsimp only
    rw [if_neg (by simp [hends])]
    have hready := h.next hentered hnew (hc.follow_lt s t ht _ _ _ hk)
    exact (ih r _ _ _ _ hready b hb).merge acc

/-- All that stands at the states that are glided to is found. -/
theorem finds_collectFollow (fuel : Nat) : n.Finds nullable fuel := by
  induction fuel with
  | zero => exact fun r s visiting path sets h => absurd h.fuel_pos (Nat.lt_irrefl 0)
  | succ fuel ih =>
    intro r s visiting path sets h b hb
    have hg := gathers_followEdge (gathers_collectFollow (n := n) fuel) (s :: visiting) path
    rw [collectFollow_succ, if_neg (by simpa using h.fresh)]
    by_cases hstop : (n.state s).isRuleStop = true
    · -- there is no way on from the end of a rule
      rw [if_pos hstop]
      have hno := hc.last s hstop
      rcases hb.first with rfl | ⟨c, ⟨t, ht, -⟩, -⟩
      · refine ⟨fun u _ t ht _ => ?_, fun _ => rfl⟩
        rw [hno] at ht
        cases ht
      · rw [hno] at ht
        cases ht
    · rw [if_neg hstop]
      rcases hb.first with rfl | ⟨c, ⟨t, ht, hx⟩, hnew, hrest⟩
      · refine ⟨fun u hu t ht hshow => ?_, fun hf => absurd hf hstop⟩
        exact foldl_of_mem (P := fun f => n.Listed f.sets u) (fun f f' h hl => hl.mono h.sets) hg
          ht (lists_followEdge hs hc hp ih h ht hu hshow) _
      · exact foldl_of_mem (P := n.Collected b) (fun f f' h hr => hr.mono h) hg ht
          (collected_followEdge hs hc hp ih h ht hx hnew hrest) _

end

/-- The walk that collects what a rule begins with has all it needs. -/
theorem collected_followSets (hs : n.Shaped levels) (hc : n.Checked) (hr : r < n.rules.size)
    (h : n.GlidesPast [] (n.rule r).start b) : n.Collected b (n.followSets r) := by
  obtain ⟨nullable, hp⟩ := hc.progressive
  have hready : n.Ready nullable (n.states.size + 2) r (n.rule r).start [] [] :=
    ⟨⟨hr, .refl, by simp, by simp⟩, by simp, .nil, by simp, (hs.rule r hr).start_lt, by simp⟩
  exact finds_collectFollow hs hc hp _ r _ [] [] #[] hready b h

/-- A way without a token is kept by going on without one. -/
theorem lasts_drifts (a : StateId) : n.Lasts fun _ s => ∃ returns, n.Drifts a [] s returns := by
  refine ⟨?_, ?_⟩
  · rintro path s t b ⟨returns, h⟩ ht hx
    exact ⟨_, h.trans ((hx.drifts ht).under returns)⟩
  · rintro path s t r follow precedence ⟨returns, h⟩ ht hk
    exact ⟨_, h.call ht hk⟩

/-- An edge that takes a token has a set for a rule just if some way from its start comes to the edge. -/
theorem listed_followSets (hs : n.Shaped levels) (hc : n.Checked) (hr : r < n.rules.size)
    (hu : (n.followSet? u []).isSome) (h : n.Sights (n.rule r).start u) :
    n.Listed (n.followSets r).sets u := by
  obtain ⟨s, hglides, t, ht, hshow⟩ := h.glides
  exact (collected_followSets hs hc hr hglides).lists u hu t ht hshow

/-- The types collected for a rule are those that a way from its start meets. -/
theorem meets_followSets (hs : n.Shaped levels) (hc : n.Checked) (hr : r < n.rules.size) :
    Lists (n.followSets r).sets token ↔ n.Meets (n.rule r).start [] token := by
  constructor
  · rintro ⟨set, hset, hmem⟩
    obtain ⟨s, ⟨returns, h⟩, t, ht, htake⟩ := mem_followSets (lasts_drifts _) ⟨[], .refl⟩ hset
    exact ⟨s, returns, h, t, ht, set.types, types_followSet? htake, hmem⟩
  · rintro ⟨s, returns, h, t, ht, types, hl, hmem⟩
    obtain ⟨path, set, hset, htake⟩ :=
      listed_followSets hs hc hr (isSome_followSet? hl hmem) ⟨s, returns, h, ht⟩
    have hl' := types_followSet? htake
    rw [hl] at hl'
    cases hl'
    exact ⟨set, hset, hmem⟩

/-- An end of the rule that is found is really there. -/
theorem exits_of_followSets (h : (n.followSets r).isExhaustive = false) :
    n.Exits (n.rule r).start [] := by
  have hends := truthful_collectFollow (lasts_drifts (n := n) (n.rule r).start) (n.states.size + 2) [] []
    (n.rule r).start #[]
  exact (hends.ends h).resolve_left (by simp)

/-- What is collected for a rule is exhaustive unless some way comes to the end of the rule. -/
theorem exits_followSets (hs : n.Shaped levels) (hc : n.Checked) (hr : r < n.rules.size) :
    (n.followSets r).isExhaustive = false ↔ n.Exits (n.rule r).start [] := by
  refine ⟨exits_of_followSets, fun h => ?_⟩
  obtain ⟨e, hglides, hstop⟩ := h.glides
  exact (collected_followSets hs hc hr hglides).ends hstop

/-- The types collected for a rule are those that can come first in it. -/
theorem lists_followSets (hs : n.Shaped levels) (hc : n.Checked) (hu : n.Ungated)
    (hr : r < n.rules.size) (htoken : TokenType.epsilon ≤ token) :
    Lists (n.followSets r).sets token ↔ n.Offers (n.rule r).start [] token :=
  (meets_followSets hs hc hr).trans (meets_iff_offers hu htoken)

/-- What is collected for a rule is exhaustive unless the rule can take the empty word. -/
theorem exhaustive_followSets (hs : n.Shaped levels) (hc : n.Checked) (hu : n.Ungated)
    (hr : r < n.rules.size) :
    (n.followSets r).isExhaustive = false ↔ n.Spans (n.rule r).start 0 [] :=
  (exits_followSets hs hc hr).trans (exits_iff_spans hu)

end Network

/-- What is collected for a rule and what the table of its start holds are the same, although the one walk
keeps to new states and rules and the other to new points: the types are those of the table but for the
empty word, and collecting is exhaustive unless the table holds the empty word. -/
theorem Grammar.combined_followSets {g : Grammar} {c : CompiledGrammar} (h : g.compile = .ok c)
    (he : c.network.EpsilonFree) {r : RuleId} (hr : r < c.network.rules.size) :
    (c.network.followSets r).combined =
        (c.network.nextTokensAt (c.network.rule r).start).erase TokenType.epsilon ∧
      ((c.network.followSets r).isExhaustive = false ↔
        TokenType.epsilon ∈ c.network.nextTokensAt (c.network.rule r).start) := by
  obtain ⟨hshaped, -⟩ := shaped_compile h
  have hchecked := checked_compile h
  have hstart := (hshaped.rule r hr).start_lt
  have htable := tabled_compile h
  constructor
  · refine TokenSet.eq_of_mem_iff fun token => ?_
    rw [TokenSet.mem_erase, htable _ _ hstart, Network.next_none_iff he]
    have hlists : token ∈ (c.network.followSets r).combined ↔ c.network.Meets _ [] token :=
      FollowSets.contains_combined.trans (Network.meets_followSets hshaped hchecked hr)
    refine hlists.trans ⟨fun hm => ?_, ?_⟩
    · have hne := hm.ne_epsilon he
      exact ⟨.inl ⟨hne, hm⟩, hne⟩
    · rintro ⟨⟨-, hm⟩ | ⟨heps, -⟩, hne⟩
      · exact hm
      · exact absurd heps hne
  · rw [Network.exits_followSets hshaped hchecked hr, htable.epsilon_mem_iff he hstart]

theorem combined_followSets_row : (rowNetwork.followSets 0).combined =
      (rowNetwork.nextTokensAt 0).erase TokenType.epsilon ∧
    ((rowNetwork.followSets 0).isExhaustive = false ↔
      TokenType.epsilon ∈ rowNetwork.nextTokensAt 0) :=
  Grammar.combined_followSets compile_row epsilonFree_rowNetwork (by decide)

end AdaptiveParsing
