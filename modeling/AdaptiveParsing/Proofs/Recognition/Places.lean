import AdaptiveParsing.Proofs.Lookahead.Agreement
import AdaptiveParsing.Proofs.Recognition.Soundness
/-!
Where a parse stands in the network. Its live invocations make a place (`Guide.place`), which lookahead
with the callers begins at (`Linked.outer`), and what the parse does is a step of the place
(`Located.via_admitted`, `Located.via_enter`, `Located.step_leave`). Only for the floor of an ordinary rule that is
called with a level the two can differ, and nothing there asks for it (`Network.Alike`).
-/

namespace AdaptiveParsing

namespace Network

variable (n : Network)

/-- An edge leads from one place to another, and takes a word. -/
inductive Via (t : Transition) (p : Place) : List TokenType → Place → Prop
  | free {q : Place} (h : p.follow? t = some q) : Via t p [] q
  | take {token : TokenType} (hm : n.Matches t.kind token) :
      Via t p [token] { p with state := t.target }

/-- In the rule of a left-recursive state the floors are equal. -/
def SameFloor (a : StateId) (x y : Int) : Prop :=
  (n.rule (n.state a).rule).leftRecursive = true → x = y

/-- Places that differ at most in the floors of ordinary rules. -/
structure Alike (p q : Place) : Prop where
  state : q.state = p.state
  floor : n.SameFloor p.state p.floor q.floor
  returns : List.Forall₂ (fun f g => g.returnState = f.returnState ∧
    n.SameFloor f.returnState f.precedence g.precedence) p.returns q.returns

variable {n : Network} {p p' q : Place} {w : List TokenType} {s : RuleId} {k : EdgeKind}
  {token : Token} {levels : RuleId → Int → Prop}

theorem Via.step {t : Transition} (h : n.Via t p w q) (ht : t ∈ (n.state p.state).transitions) :
    n.Step p w q := by
  cases h with
  | free h => exact .free ht h
  | take hm => exact .take ht hm

/-- A token that is taken is one that lookahead takes along the edge, unless its type is above those of
the grammar. -/
theorem matches_of_takes (hle : TokenType.firstUser ≤ token.kind → token.kind ≤ n.maxType)
    (h : n.Takes k token) : n.Matches k token.kind := by
  unfold Takes at h
  cases k with
  | atom a => exact h.symm
  | wildcard => exact ⟨h, hle h⟩
  | range lo hi =>
    obtain ⟨types, hl, ht⟩ := h
    obtain rfl := Option.some.inj hl
    exact (TokenSet.mem_ofRange.1 ht).2
  | set types =>
    obtain ⟨types', hl, ht⟩ := h
    obtain rfl := Option.some.inj hl
    exact ht
  | notSet types =>
    obtain ⟨types', hl, ht⟩ := h
    obtain rfl := Option.some.inj hl
    exact (TokenSet.mem_complement.1 ht).2
  | _ => cases h

theorem Alike.refl (p : Place) : n.Alike p p := by
  refine ⟨rfl, fun _ => rfl, ?_⟩
  induction p.returns with
  | nil => exact .nil
  | cons f rest ih => exact .cons ⟨rfl, fun _ => rfl⟩ ih

theorem Alike.trans {r : Place} (h : n.Alike p q) (h' : n.Alike q r) : n.Alike p r := by
  refine ⟨h'.state.trans h.state, fun hl => ?_, ?_⟩
  · have hq := h'.floor
    rw [h.state] at hq
    exact (h.floor hl).trans (hq hl)
  · have hpq := h.returns
    have hqr := h'.returns
    generalize p.returns = fs at hpq
    generalize r.returns = ks at hqr
    generalize q.returns = gs at hpq hqr
    induction hpq generalizing ks with
    | nil =>
      cases hqr
      exact .nil
    | cons hf _ ih =>
      cases hqr with
      | cons hk hrest =>
        obtain ⟨hstate, hfloor⟩ := hf
        obtain ⟨hstate', hfloor'⟩ := hk
        refine .cons ⟨hstate'.trans hstate, fun hl => (hfloor hl).trans (hfloor' ?_)⟩ (ih _ hrest)
        rwa [hstate]

theorem SameFloor.congr {a b : StateId} {x y : Int} (h : n.SameFloor a x y)
    (hr : (n.state b).rule = (n.state a).rule) : n.SameFloor b x y := by
  unfold SameFloor
  rw [hr]
  exact h

/-- Places that are alike go on alike. -/
theorem Alike.step (h : n.Alike p q) (hshape : n.Shaped levels) (hin : n.Inside s p)
    (hs : n.Step p w p') : ∃ q', n.Step q w q' ∧ n.Alike p' q' := by
  have hrule := hshape.rule _ hin.nested.lt
  cases hs with
  | @free _ t ht hfollow =>
    have hnext := (hrule.next p.state rfl t ht).2
    unfold Transition.next at hnext
    have hqt : t ∈ (n.state q.state).transitions := by
      rw [h.state]
      exact ht
    unfold Place.follow? at hfollow
    cases hk : t.kind with
    | epsilon | action _ _ =>
      rw [hk] at hfollow hnext
      obtain rfl := Option.some.inj hfollow
      exact ⟨{ q with state := t.target }, .free hqt (by simp [Place.follow?, hk]), rfl,
        h.floor.congr hnext, h.returns⟩
    | rule r back precedence =>
      rw [hk] at hfollow hnext
      obtain rfl := Option.some.inj hfollow
      exact ⟨⟨t.target, precedence, ⟨back, q.floor⟩ :: q.returns⟩,
        .free hqt (by simp [Place.follow?, hk]), rfl, fun _ => rfl,
        .cons ⟨rfl, h.floor.congr hnext⟩ h.returns⟩
    | precedence level =>
      rw [hk] at hnext
      simp only [hk] at hfollow
      split at hfollow
      · rename_i hl
        obtain rfl := Option.some.inj hfollow
        -- a level is asked for in left-recursive rules only
        have hrec : (n.rule (n.state p.state).rule).leftRecursive = true := by
          by_contra hne
          have := (hrule.plain (by simpa using hne)).no_levels p.state rfl t ht
          rw [hk] at this
          cases this
        have hfloor : q.floor ≤ level := by
          rw [← h.floor hrec]
          exact hl
        exact ⟨{ q with state := t.target }, .free hqt (by simp [Place.follow?, hk, hfloor]), rfl,
          h.floor.congr hnext, h.returns⟩
      · cases hfollow
    | atom _ | range _ _ | set _ | notSet _ | wildcard | predicate _ _ _ => simp [hk] at hfollow
  | @back f outer hstop hr =>
    have hreturns := h.returns
    rw [hr] at hreturns
    cases hq : q.returns with
    | nil =>
      rw [hq] at hreturns
      cases hreturns
    | cons g rest =>
      rw [hq] at hreturns
      obtain ⟨⟨hstate, hfloor⟩, hrest⟩ := List.forall₂_cons.1 hreturns
      refine ⟨.back g rest, .back ?_ hq, hstate, hfloor, hrest⟩
      rw [h.state]
      exact hstop
  | @take t token ht hm =>
    have hnext := (hrule.next p.state rfl t ht).2
    rw [Transition.next_eq_target (call?_of_matches hm)] at hnext
    refine ⟨{ q with state := t.target }, .take ?_ hm, rfl, h.floor.congr hnext, h.returns⟩
    rw [h.state]
    exact ht

theorem Alike.reads (h : n.Alike p q) (hshape : n.Shaped levels) (hn : n.Checked)
    (hin : n.Inside s p) (hr : n.Reads p w p') : ∃ q', n.Reads q w q' ∧ n.Alike p' q' := by
  induction hr with
  | refl => exact ⟨q, .refl, h⟩
  | @step p₁ p₂ v u hr hs ih =>
    obtain ⟨q₁, hq₁, h₁⟩ := ih
    obtain ⟨q₂, hq₂, h₂⟩ := h₁.step hshape (hin.reads hshape hn hr) hs
    exact ⟨q₂, .step hq₁ hq₂, h₂⟩

theorem Alike.ends (h : n.Alike p q) (he : n.Ends p) : n.Ends q := by
  obtain ⟨hr, hs⟩ := he
  have hreturns := h.returns
  rw [hr, List.forall₂_nil_left_iff] at hreturns
  refine ⟨hreturns, ?_⟩
  rw [h.state]
  exact hs

theorem Alike.symm (h : n.Alike p q) : n.Alike q p := by
  refine ⟨h.state.symm, fun hl => ?_, ?_⟩
  · rw [h.state] at hl
    exact (h.floor hl).symm
  · refine h.returns.flip.imp ?_
    rintro f g ⟨hstate, hfloor⟩
    refine ⟨hstate.symm, fun hl => ?_⟩
    rw [hstate] at hl
    exact (hfloor hl).symm

end Network

section

variable (G : Guide) (f : Forest)

/-- Where a live invocation that waits for a call goes on. -/
def Guide.frame (b : Station) : Frame :=
  ⟨(G.network.followOf? b.state).getD 0, (f.get b.id).precedence⟩

/-- The place of live invocations, the innermost and those around it. -/
def Guide.place (a : Station) (rest : List Station) : Place :=
  ⟨a.state, (f.get a.id).precedence, rest.map (G.frame f)⟩

/-- Each invocation stands at a state of its rule and was called from where the next one stands. -/
def Linked : List Station → Prop
  | [] => True
  | a :: rest => (f.get a.id).rule < G.network.rules.size ∧
    (G.network.state a.state).rule = (f.get a.id).rule ∧ Called G f a.id rest.head? ∧ Linked rest

end

/-- The recognizer stands where its live invocations stand, and has their floors. -/
structure Located (G : Guide) (rule : RuleId) (root : InvocationId) (i : Interpreter) (a : Station)
    (rest : List Station) : Prop where
  linked : Linked G i.recognizer.forest (a :: rest)
  lt : ∀ b ∈ a :: rest, b.id < i.recognizer.forest.size
  invocation : i.recognizer.invocation = some a.id
  state : i.recognizer.state = some a.state
  floors : i.recognizer.floors = G.floors i.recognizer.forest (a :: rest)
  outermost : ∀ b, (a :: rest).getLast? = some b → Outermost G i.recognizer.forest rule root b

/-- The edge is open where the recognizer stands. -/
def Recognizer.Admits (env : Setting) (r : Recognizer) : EdgeKind → Prop
  | .epsilon | .action _ _ => True
  | .predicate rule index _ => r.holds env rule index = true
  | .precedence level => r.precedence ≤ level
  | k => env.network.Takes k r.input.current

variable {G : Guide} {env : Setting} {f f' : Forest} {rule : RuleId} {root : InvocationId}
  {i i' : Interpreter} {a a' b : Station} {rest : List Station} {done : List InvocationId}
  {t : Transition}

theorem Guide.map_frame_extends (he : f.Extends f') (hlt : ∀ b ∈ rest, b.id < f.size) :
    rest.map (G.frame f') = rest.map (G.frame f) := by
  refine List.map_congr_left fun b hb => ?_
  unfold Guide.frame
  rw [he.precedence b.id (hlt b hb)]

/-- The call that a live invocation answers. -/
theorem Guide.Fits.call_of_called (hG : G.Fits) (h : Called G f a.id (some b)) :
    ∃ t ∈ (G.network.state b.state).transitions, ∃ precedence,
      t.kind = .rule (f.get a.id).rule (G.frame f b).returnState precedence ∧
        G.network.followOf? b.state = some (G.frame f b).returnState ∧ 0 ≤ precedence ∧
          (f.get a.id).precedence =
            if (G.network.rule (f.get a.id).rule).leftRecursive then precedence else 0 := by
  obtain ⟨-, -, t, ht, follow, precedence, hk, ha⟩ := h
  obtain ⟨-, -, hargument⟩ := hG.alone b.state t ht (by simp [Transition.call?, hk])
  have hfollow := hG.followOf?_eq ht hk
  have hframe : (G.frame f b).returnState = follow := by
    unfold Guide.frame
    rw [hfollow]
    rfl
  unfold Transition.argument at hargument
  rw [hk] at hargument
  rw [hframe]
  exact ⟨t, ht, precedence, hk, hfollow, hargument, ha.precedence⟩

theorem Live.linked {pending : List Child} {stations : List Station}
    (h : Live G f done pending stations) : Linked G f stations := by
  induction stations generalizing pending with
  | nil => trivial
  | cons a rest ih =>
    obtain ⟨hs, hc, hrest⟩ := h
    exact ⟨hs.rule_lt, hs.state_rule, hc, ih hrest⟩

/-- The live invocations around one are the live callers of lookahead. -/
theorem Linked.outer {sim : Simulation} (hG : G.Fits) (hnet : sim.network = G.network)
    (hforest : sim.forest = f) (h : Linked G f (a :: rest)) :
    sim.Outer (some a.id) (rest.map (G.frame f)) := by
  induction rest generalizing a with
  | nil =>
    obtain ⟨-, -, ⟨hparent, -⟩, -⟩ := h
    refine .root ?_
    simp [Simulation.liveReturn?, hforest, hparent]
  | cons b rest ih =>
    obtain ⟨-, -, hc, hrest⟩ := h
    obtain ⟨t, ht, precedence, hk, hfollow, -, -⟩ := hG.call_of_called hc
    obtain ⟨hparent, hcaller, -⟩ := hc
    have hreturn : (some a.id).bind sim.liveReturn? = some
        { state := (G.frame f b).returnState, precedence := (f.get b.id).precedence,
          placement := .invocation b.id } := by
      simp [Simulation.liveReturn?, hforest, hparent, hcaller, hnet, hfollow]
    exact .caller hreturn (ih hrest)

theorem Linked.nested {s : RuleId} (hG : G.Fits) (hn : G.network.Checked)
    (h : Linked G f (a :: rest))
    (hlast : ∀ b, (a :: rest).getLast? = some b → (f.get b.id).rule = s)
    (hpos : ∀ b ∈ rest, 0 ≤ (f.get b.id).precedence) :
    G.network.Nested s a.state (rest.map (G.frame f)) := by
  induction rest generalizing a with
  | nil =>
    obtain ⟨hlt, hrule, -, -⟩ := h
    refine ⟨?_, ?_⟩
    · rw [hrule]
      exact hlt
    · rw [hrule]
      exact hlast a rfl
  | cons b rest ih =>
    obtain ⟨hlt, hrule, hc, hrest⟩ := h
    obtain ⟨t, ht, precedence, hk, -, -, -⟩ := hG.call_of_called hc
    have hb := ih hrest (fun c hl => hlast c (by rw [List.getLast?_cons_cons]; exact hl))
      fun c hcr => hpos c (.tail _ hcr)
    obtain ⟨hlt_b, hrule_b, -⟩ := hrest
    refine ⟨?_, ?_, hpos b (.head _), ?_⟩
    · rw [hrule]
      exact hlt
    · rw [hrule]
      exact hn.returns _ t ht _ _ _ hk
    · have hnext := (hG.rule _ hlt_b).next b.state hrule_b t ht
      unfold Transition.next at hnext
      rw [hk] at hnext
      exact hb.congr (hnext.2.trans hrule_b.symm)

/-- No floor of a live invocation is below zero. -/
theorem Linked.floors (hG : G.Fits) (h : Linked G f (a :: rest))
    (hlast : ∀ b, (a :: rest).getLast? = some b → (f.get b.id).precedence = 0) :
    ∀ b ∈ a :: rest, 0 ≤ (f.get b.id).precedence := by
  induction rest generalizing a with
  | nil =>
    intro b hb
    rw [hlast b (by rw [List.mem_singleton.1 hb]; rfl)]
  | cons c rest ih =>
    obtain ⟨-, -, hc, hrest⟩ := h
    intro b hb
    rcases List.mem_cons.1 hb with rfl | hb
    · obtain ⟨t, ht, precedence, hk, -, hpos, hp⟩ := hG.call_of_called hc
      rw [hp]
      split
      · exact hpos
      · exact Int.le_refl 0
    · exact ih hrest (fun d hd => hlast d (by rw [List.getLast?_cons_cons]; exact hd)) b hb

/-- Where the outermost invocation is the first one of the parse, the place is inside of its rule. -/
theorem Linked.inside (hG : G.Fits) (hn : G.network.Checked) (h : Linked G f (a :: rest))
    (hout : ∀ b, (a :: rest).getLast? = some b → Outermost G f rule root b) :
    G.network.Inside rule (G.place f a rest) := by
  have hfloors := h.floors hG fun b hb => (hout b hb).2.1
  exact ⟨hfloors a (.head _), h.nested hG hn (fun b hb => (hout b hb).1)
    fun b hb => hfloors b (.tail _ hb)⟩

theorem Sound.located (h : Sound G rule root i (a :: rest) done) : Located G rule root i a rest :=
  ⟨h.grown.live.linked, h.grown.lt, h.invocation, h.state, h.floors, h.outermost⟩

theorem Sound.inside (hG : G.Fits) (hn : G.network.Checked)
    (h : Sound G rule root i (a :: rest) done) :
    G.network.Inside rule (G.place i.recognizer.forest a rest) :=
  h.grown.live.linked.inside hG hn h.outermost

/-- The floor of an invocation of an ordinary rule is zero. -/
theorem Located.floor_plain (hG : G.Fits) (h : Located G rule root i a rest)
    (hf : G.recursive i.recognizer.forest a.id = false) :
    (i.recognizer.forest.get a.id).precedence = 0 := by
  obtain ⟨-, -, hc, -⟩ := h.linked
  cases rest with
  | nil => exact (h.outermost a rfl).2.1
  | cons b rest =>
    obtain ⟨t, ht, precedence, hk, -, -, hp⟩ := hG.call_of_called hc
    unfold Guide.recursive at hf
    rw [hp, if_neg (by simp [hf])]

/-- The recognizer has the floor of the innermost invocation, if that is of a left-recursive rule. -/
theorem Located.precedence_eq (h : Located G rule root i a rest)
    (hr : G.recursive i.recognizer.forest a.id = true) :
    i.recognizer.precedence = (i.recognizer.forest.get a.id).precedence := by
  unfold Recognizer.precedence
  rw [h.floors]
  unfold Guide.floors
  rw [if_pos hr]
  rfl

/-- Lookahead at the state of the innermost invocation has its floor. -/
theorem Located.simulation_floor (hG : G.Fits) (hnet : env.network = G.network)
    (h : Located G rule root i a rest) {d : DecisionId}
    (hd : G.network.decisionState d = a.state) :
    (i.recognizer.simulation env d).floor = (i.recognizer.forest.get a.id).precedence := by
  obtain ⟨-, hstate, -⟩ := h.linked
  have hrule : (env.network.state (env.network.decisionState d)).rule =
      (i.recognizer.forest.get a.id).rule := by
    rw [hnet, hd]
    exact hstate
  show (if (env.network.rule (env.network.state (env.network.decisionState d)).rule).leftRecursive
    then i.recognizer.precedence else 0) = _
  rw [hrule, hnet]
  split
  · rename_i hl
    exact h.precedence_eq hl
  · rename_i hl
    exact (h.floor_plain hG (by simpa [Guide.recursive] using hl)).symm

/-- The place once the innermost invocation has gone on. -/
theorem Continues.place {s : StateId} (h : Continues f f' a a' s)
    (hlt : ∀ b ∈ rest, b.id < f.size) :
    G.place f' a' rest = { G.place f a rest with state := s } := by
  unfold Guide.place
  rw [h.state, h.floor, G.map_frame_extends h.extends_forest hlt]

/-- The word that is taken with an edge. -/
def Transition.word (t : Transition) (token : TokenType) : List TokenType :=
  if t.isConsuming then [token] else []

/-- An edge that is passed is open. -/
theorem Passes.admits {r r' : Recognizer} {here : NetworkState} (h : Passes env here t r r') :
    r.Admits env t.kind := by
  cases h with
  | free hk _ _ => rcases hk with hk | ⟨c, index, hk⟩ <;> simp [hk, Recognizer.Admits]
  | round hk _ _ _ => simp [hk, Recognizer.Admits]
  | condition hk hh _ => simp [hk, Recognizer.Admits, hh]
  | level hk hl _ => simp [hk, Recognizer.Admits, hl]
  | token hk _ =>
    cases hkind : t.kind <;> rw [hkind] at hk <;> first | exact hk | cases hk

/-- An edge that is open and is no condition leads on from the place. -/
theorem Located.via_admitted (hG : G.Fits) (hnet : env.network = G.network)
    (h : Located G rule root i a rest)
    (hle : TokenType.firstUser ≤ i.recognizer.input.kind →
      i.recognizer.input.kind ≤ G.network.maxType)
    (ht : t ∈ (G.network.state a.state).transitions) (ho : i.recognizer.Admits env t.kind)
    (hfree : t.kind.isPredicate = false) :
    G.network.Via t (G.place i.recognizer.forest a rest) (t.word i.recognizer.input.kind)
      { G.place i.recognizer.forest a rest with state := t.target } := by
  obtain ⟨hlt, hstate, -⟩ := h.linked
  have hvia : t.isConsuming = false → (G.place i.recognizer.forest a rest).follow? t =
      some { G.place i.recognizer.forest a rest with state := t.target } →
      G.network.Via t (G.place i.recognizer.forest a rest) (t.word i.recognizer.input.kind)
        { G.place i.recognizer.forest a rest with state := t.target } := by
    intro hc hfollow
    unfold Transition.word
    rw [if_neg (by simp [hc])]
    exact .free hfollow
  have htakes : env.network.Takes t.kind i.recognizer.input.current →
      G.network.Via t (G.place i.recognizer.forest a rest) (t.word i.recognizer.input.kind)
        { G.place i.recognizer.forest a rest with state := t.target } := by
    intro hk
    rw [hnet] at hk
    have hm := Network.matches_of_takes hle hk
    have hcons : t.isConsuming = true := Network.isConsuming_of_matches hm
    unfold Transition.word
    rw [if_pos hcons]
    exact .take hm
  cases hk : t.kind with
  | epsilon | action _ _ =>
    exact hvia (by simp [Transition.isConsuming, EdgeKind.isConsuming, hk])
      (by simp [Place.follow?, hk])
  | predicate _ _ _ =>
    rw [hk] at hfree
    cases hfree
  | precedence level =>
    rw [hk] at ho
    have hl : (G.place i.recognizer.forest a rest).floor ≤ level := by
      have hprec := h.precedence_eq (hG.recursive_of_level hlt hstate ht hk)
      unfold Recognizer.Admits at ho
      rwa [hprec] at ho
    exact hvia (by simp [Transition.isConsuming, EdgeKind.isConsuming, hk])
      (by simp [Place.follow?, hk, hl])
  | atom _ | range _ _ | set _ | notSet _ | wildcard | rule _ _ _ =>
    refine htakes ?_
    rw [hk] at ho ⊢
    exact ho

/-- A call leads on from the place, but for the floor of an ordinary rule. -/
theorem Located.via_enter {c : RuleId} {follow : StateId} {precedence : Int} {id : InvocationId}
    (hG : G.Fits) (hnet : env.network = G.network) (h : Located G rule root i a rest)
    (ht : t ∈ (G.network.state a.state).transitions) (hk : t.kind = .rule c follow precedence)
    (he : Enters env c precedence i id i') :
    ∃ p, G.network.Via t (G.place i.recognizer.forest a rest) [] p ∧ G.network.Alike
      (G.place i'.recognizer.forest ⟨id, (G.network.rule c).start⟩ (a :: rest)) p := by
  have hinv : i.recognizer.invocation = (a :: rest).head?.map Station.id := h.invocation
  obtain ⟨hext, -, -, hfloor, -⟩ := he.facts hnet hinv h.state h.lt
  obtain ⟨hc, htarget⟩ := hG.call a.state t ht c follow precedence hk
  have hfollow := hG.followOf?_eq ht hk
  refine ⟨⟨t.target, precedence, ⟨follow, (i.recognizer.forest.get a.id).precedence⟩ ::
    rest.map (G.frame i.recognizer.forest)⟩, .free (by simp only [Place.follow?, hk]; rfl), ?_⟩
  have hplace : G.place i'.recognizer.forest ⟨id, (G.network.rule c).start⟩ (a :: rest) =
      ⟨t.target, if (G.network.rule c).leftRecursive then precedence else 0,
        ⟨follow, (i.recognizer.forest.get a.id).precedence⟩ ::
          rest.map (G.frame i.recognizer.forest)⟩ := by
    unfold Guide.place
    rw [G.map_frame_extends hext h.lt, he.id_eq, hfloor, ← htarget]
    simp [Guide.frame, hfollow]
  rw [hplace]
  refine ⟨rfl, ?_, (Network.Alike.refl ⟨t.target, precedence, _⟩).returns⟩
  intro hl
  rw [htarget, (hG.rule c hc).start_rule] at hl
  show (if (G.network.rule c).leftRecursive = true then precedence else 0) = precedence
  rw [if_pos hl]

/-- To return from a call is a step of the place. -/
theorem Located.step_leave (h : Located G rule root i a (b :: rest))
    (hstop : (G.network.state a.state).isRuleStop = true) {follow : StateId}
    (hfollow : G.network.followOf? b.state = some follow)
    (he : i.recognizer.forest.Extends i'.recognizer.forest) :
    G.network.Step (G.place i.recognizer.forest a (b :: rest)) []
      (G.place i'.recognizer.forest { b with state := follow } rest) := by
  have hlt := h.lt
  have hplace : G.place i'.recognizer.forest { b with state := follow } rest =
      .back (G.frame i.recognizer.forest b) (rest.map (G.frame i.recognizer.forest)) := by
    unfold Guide.place Place.back Guide.frame
    rw [hfollow, he.precedence b.id (hlt b (.tail _ (.head _)))]
    have := G.map_frame_extends he fun c hc => hlt c (.tail _ (.tail _ hc))
    unfold Guide.frame at this
    rw [this]
    rfl
  rw [hplace]
  exact .back hstop rfl

end AdaptiveParsing
