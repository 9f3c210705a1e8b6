import AdaptiveParsing.Proofs.Recognition.Effects
import Mathlib
/-!
A parse that reports nothing builds a derivation. What its steps do to the tree keeps the live
invocations on their ways and the finished ones complete (`Sound`). Main statement:
`Interpreter.parse_derivation`.
-/

namespace AdaptiveParsing

open AdaptiveParsing.Parser

variable {env : Setting} {t : Transition}

section

variable (G : Guide) (f : Forest)

/-- The floors of the live left-recursive invocations, above a zero. -/
def Guide.floors : List Station → List Int
  | [] => [0]
  | a :: rest =>
    if G.recursive f a.id then (f.get a.id).precedence :: Guide.floors rest else Guide.floors rest

/-- Where the live left-recursive invocations were called from. -/
def Guide.callers : List Station → List (Option InvocationId × Option StateId)
  | [] => []
  | a :: rest =>
    if G.recursive f a.id then
      (rest.head?.map Station.id, rest.head?.map Station.state) :: Guide.callers rest
    else Guide.callers rest

/-- The outermost invocation is the one that the parse of `rule` began with, or a later round of it. -/
def Outermost (rule : RuleId) (root : InvocationId) (a : Station) : Prop :=
  (f.get a.id).rule = rule ∧ (f.get a.id).precedence = 0 ∧
    ((G.network.rule rule).leftRecursive = false → a.id = root)

end

/-- The recognizer stands where its live invocations stand. -/
structure Sound (G : Guide) (rule : RuleId) (root : InvocationId) (i : Interpreter)
    (stations : List Station) (done : List InvocationId) : Prop where
  grown : Grown G i.recognizer.forest stations done
  invocation : i.recognizer.invocation = stations.head?.map Station.id
  state : i.recognizer.state = stations.head?.map Station.state
  floors : i.recognizer.floors = G.floors i.recognizer.forest stations
  callers : i.callers = G.callers i.recognizer.forest stations
  outermost : ∀ a, stations.getLast? = some a → Outermost G i.recognizer.forest rule root a

variable {G : Guide} {f f' : Forest} {stations rest : List Station} {a b : Station}
  {done : List InvocationId} {i i' : Interpreter} {rule : RuleId} {root : InvocationId}

theorem Guide.recursive_extends (he : f.Extends f') {id : InvocationId} (hlt : id < f.size) :
    G.recursive f' id = G.recursive f id := by
  unfold recursive
  rw [he.rule id hlt]

theorem Guide.floors_extends (he : f.Extends f') (hlt : ∀ a ∈ stations, a.id < f.size) :
    G.floors f' stations = G.floors f stations := by
  induction stations with
  | nil => rfl
  | cons a rest ih =>
    have ha := hlt a (.head _)
    unfold floors
    rw [G.recursive_extends he ha, he.precedence a.id ha, ih fun b hb => hlt b (.tail _ hb)]

theorem Guide.callers_extends (he : f.Extends f') (hlt : ∀ a ∈ stations, a.id < f.size) :
    G.callers f' stations = G.callers f stations := by
  induction stations with
  | nil => rfl
  | cons a rest ih =>
    unfold callers
    rw [G.recursive_extends he (hlt a (.head _)), ih fun b hb => hlt b (.tail _ hb)]

theorem Outermost.extends (h : Outermost G f rule root a) (he : f.Extends f') (hlt : a.id < f.size) :
    Outermost G f' rule root a := by
  obtain ⟨h₁, h₂, h₃⟩ := h
  unfold Outermost
  rw [he.rule a.id hlt, he.precedence a.id hlt]
  exact ⟨h₁, h₂, h₃⟩

/-- A recognizer with the same tree is as sound. -/
theorem Sound.sameTree (h : Sound G rule root i stations done)
    (hs : i.recognizer.SameTree i'.recognizer) (hc : i'.callers = i.callers) :
    Sound G rule root i' stations done := by
  refine ⟨?_, ?_, ?_, ?_, ?_, ?_⟩
  · rw [hs.forest]
    exact h.grown
  · rw [hs.invocation]
    exact h.invocation
  · rw [hs.state]
    exact h.state
  · rw [hs.floors, hs.forest]
    exact h.floors
  · rw [hc, hs.forest]
    exact h.callers
  · rw [hs.forest]
    exact h.outermost

/-- The innermost invocation goes on in its rule. -/
theorem Sound.advance {s : StateId} (h : Sound G rule root i (a :: rest) done)
    (hg : Grown G i'.recognizer.forest ({ a with state := s } :: rest) done)
    (he : i.recognizer.forest.Extends i'.recognizer.forest)
    (hinv : i'.recognizer.invocation = i.recognizer.invocation)
    (hstate : i'.recognizer.state = some s)
    (hfloors : i'.recognizer.floors = i.recognizer.floors) (hcallers : i'.callers = i.callers) :
    Sound G rule root i' ({ a with state := s } :: rest) done := by
  have hlt := h.grown.lt
  have hf := G.floors_extends he hlt
  have hc := G.callers_extends he hlt
  refine ⟨hg, ?_, hstate, ?_, ?_, ?_⟩
  · rw [hinv]
    exact h.invocation
  · rw [hfloors, h.floors, ← hf]
    rfl
  · rw [hcallers, h.callers, ← hc]
    rfl
  · intro b hb
    cases rest with
    | nil =>
      cases hb
      exact (h.outermost a rfl).extends he (hlt a (.head _))
    | cons c rest =>
      rw [List.getLast?_cons_cons] at hb
      refine (h.outermost b (by rw [List.getLast?_cons_cons]; exact hb)).extends he (hlt b ?_)
      exact .tail _ (List.mem_of_getLast? hb)

/-- The state the recognizer is at is that of the innermost invocation. -/
theorem Sound.innermost {s : StateId} (h : Sound G rule root i stations done)
    (hs : i.recognizer.state = some s) :
    ∃ a rest, stations = a :: rest ∧ a.state = s ∧ i.recognizer.invocation = some a.id := by
  have hstate := h.state
  have hinv := h.invocation
  cases stations with
  | nil =>
    rw [hs] at hstate
    cases hstate
  | cons a rest =>
    rw [hs] at hstate
    exact ⟨a, rest, rfl, (Option.some.inj hstate).symm, hinv⟩

/-- What is needed of the conditions of a guide: those that hold where a parse stands are held. -/
def Guide.Hears (G : Guide) (env : Setting) (i : Interpreter) : Prop :=
  ∀ id s r index, i.recognizer.state = some s → i.recognizer.invocation = some id →
    i.recognizer.holds env r index = true →
    G.held id (i.recognizer.forest.get id).children.toList s r index

/-- The floor of the innermost left-recursive invocation. -/
theorem Sound.precedence_eq (h : Sound G rule root i (a :: rest) done)
    (hr : G.recursive i.recognizer.forest a.id = true) :
    i.recognizer.precedence = (i.recognizer.forest.get a.id).precedence := by
  unfold Recognizer.precedence
  rw [h.floors]
  unfold Guide.floors
  rw [if_pos hr]
  rfl

/-- Only the loop of a left-recursive rule is marked. -/
theorem Guide.Fits.recursive_of_mark (hG : G.Fits) (hlt : (f.get a.id).rule < G.network.rules.size)
    (hrule : (G.network.state a.state).rule = (f.get a.id).rule)
    (hm : (G.network.state a.state).precedenceDecision = true) : G.recursive f a.id = true := by
  unfold Guide.recursive
  by_contra hf
  have hp := (hG.rule _ hlt).plain (by simpa using hf)
  have := hp.unmarked a.state hrule
  rw [hm] at this
  cases this

/-- A level is asked for in left-recursive rules only. -/
theorem Guide.Fits.recursive_of_level (hG : G.Fits) (hlt : (f.get a.id).rule < G.network.rules.size)
    (hrule : (G.network.state a.state).rule = (f.get a.id).rule) {level : Int}
    (ht : t ∈ (G.network.state a.state).transitions) (hk : t.kind = .precedence level) :
    G.recursive f a.id = true := by
  unfold Guide.recursive
  by_contra hf
  have hp := (hG.rule _ hlt).plain (by simpa using hf)
  have := hp.no_levels a.state hrule t ht
  rw [hk] at this
  cases this

/-- The innermost invocation has gone on, perhaps as a later round of it, to a state. -/
structure Continues (f f' : Forest) (a a' : Station) (s : StateId) : Prop where
  state : a'.state = s
  floor : (f'.get a'.id).precedence = (f.get a.id).precedence
  extends_forest : f.Extends f'

/-- An edge that adds these children to the innermost invocation keeps the parse sound. -/
theorem Sound.cross {added : List Child} {more : List Int} (hG : G.Fits)
    (h : Sound G rule root i (a :: rest) done)
    (ht : t ∈ (G.network.state a.state).transitions) (hcall : t.call? = none)
    (htouch : Touches i.recognizer.forest i'.recognizer.forest a.id)
    (hchildren : (i'.recognizer.forest.get a.id).children.toList =
      (i.recognizer.forest.get a.id).children.toList ++ added)
    (hadded : ∀ child, .rule child ∉ added)
    (hcross : Crosses G.network i.recognizer.forest (G.held a.id) a.state t
      (i.recognizer.forest.get a.id).children.toList added more)
    (hround : (G.network.state a.state).precedenceDecision = true → t.kind = .epsilon →
      (G.network.state t.target).kind = .loopEnd)
    (hfloor : ∀ level ∈ more, (i.recognizer.forest.get a.id).precedence ≤ level)
    (hinv : i'.recognizer.invocation = i.recognizer.invocation)
    (hstate : i'.recognizer.state = some t.target)
    (hfloors : i'.recognizer.floors = i.recognizer.floors) (hcallers : i'.callers = i.callers) :
    Sound G rule root i' ({ a with state := t.target } :: rest) done := by
  have hg := h.grown.advance hG htouch hchildren ht hadded hcross hround hfloor
  rw [Transition.next_eq_target hcall] at hg
  exact h.advance hg htouch.toExtends hinv hstate hfloors hcallers

/-- Another round keeps the parse sound. -/
theorem Sound.round {s : StateId} {r' : Recognizer} (hG : G.Fits)
    (h : Sound G rule root i (a :: rest) done)
    (ht : t ∈ (G.network.state a.state).transitions) (hk : t.kind = .epsilon)
    (hmark : (G.network.state a.state).precedenceDecision = true)
    (hloop : (G.network.state t.target).kind ≠ .loopEnd)
    (hsame : (i.recognizer.pushRecursion s (G.network.state a.state).rule).2.SameTree r')
    (hi : i'.recognizer = { r' with state := some t.target }) (hcallers : i'.callers = i.callers) :
    ∃ a', Continues i.recognizer.forest i'.recognizer.forest a a' t.target ∧
      Sound G rule root i' (a' :: rest) (a.id :: done) := by
  have hlt := h.grown.lt
  obtain ⟨hs, -, -⟩ := h.grown.live
  rw [Recognizer.pushRecursion_eq s _ h.invocation] at hsame
  obtain ⟨he, hsize, hnew, hold, hother⟩ := Forest.alloc_modify hs.lt
    (i.recognizer.forest.nextRound (G.network.state a.state).rule a.id)
    (g := Invocation.handOver i.recognizer.input.previousIndex i.recognizer.forest.size s)
    (fun _ => rfl) fun _ => rfl
  have hforest : i'.recognizer.forest = i.recognizer.forest.pushRound
      (G.network.state a.state).rule a.id s i.recognizer.input.previousIndex := by
    rw [hi]
    exact hsame.forest
  unfold Forest.pushRound at hforest
  rw [← hforest] at he hsize hnew hold hother
  have hrule : (i'.recognizer.forest.get i.recognizer.forest.size).rule =
      (i.recognizer.forest.get a.id).rule := by
    rw [hnew]
    exact hs.state_rule
  have hfloor : (i'.recognizer.forest.get i.recognizer.forest.size).precedence =
      (i.recognizer.forest.get a.id).precedence := by
    rw [hnew]
    rfl
  have hg := h.grown.round hG he hsize hother (by rw [hold]; rfl) hrule hfloor (by rw [hnew]; rfl)
    (by rw [hnew]; rfl) (by rw [hnew]; rfl) hmark ht hk hloop
  have hrec := hG.recursive_of_mark hs.rule_lt hs.state_rule hmark
  have hrec' : G.recursive i'.recognizer.forest i.recognizer.forest.size = true := by
    unfold Guide.recursive at hrec ⊢
    rw [hrule, hrec]
  have hrest : ∀ b ∈ rest, b.id < i.recognizer.forest.size := fun b hb => hlt b (.tail _ hb)
  refine ⟨_, ⟨rfl, hfloor, he⟩, hg, ?_, ?_, ?_, ?_, ?_⟩
  · rw [hi]
    exact hsame.invocation
  · rw [hi]
    rfl
  · have hf := h.floors
    unfold Guide.floors at hf ⊢
    rw [if_pos hrec] at hf
    rw [if_pos hrec', hfloor, G.floors_extends he hrest, ← hf, hi]
    exact hsame.floors
  · have hc := h.callers
    unfold Guide.callers at hc ⊢
    rw [if_pos hrec] at hc
    rw [if_pos hrec', G.callers_extends he hrest, ← hc]
    exact hcallers
  · intro b hb
    cases rest with
    | nil =>
      cases hb
      obtain ⟨h₁, h₂, h₃⟩ := h.outermost a rfl
      refine ⟨hrule.trans h₁, hfloor.trans h₂, ?_⟩
      intro hf
      unfold Guide.recursive at hrec
      rw [h₁, hf] at hrec
      cases hrec
    | cons c rest =>
      rw [List.getLast?_cons_cons] at hb
      refine (h.outermost b (by rw [List.getLast?_cons_cons]; exact hb)).extends he (hlt b ?_)
      exact .tail _ (List.mem_of_getLast? hb)

/-- Passing an edge that is not a call keeps the parse sound. -/
theorem Sound.pass (hG : G.Fits) (hnet : env.network = G.network) (hears : G.Hears env i)
    (h : Sound G rule root i (a :: rest) done)
    (ht : t ∈ (G.network.state a.state).transitions) (hcall : t.call? = none) {r' : Recognizer}
    (hp : Passes env (G.network.state a.state) t i.recognizer r')
    (hi : i'.recognizer = { r' with state := some t.target }) (hcallers : i'.callers = i.callers) :
    ∃ a' done', Continues i.recognizer.forest i'.recognizer.forest a a' t.target ∧
      Sound G rule root i' (a' :: rest) done' := by
  have hst : i.recognizer.state = some a.state := h.state
  have hinv : i.recognizer.invocation = some a.id := h.invocation
  obtain ⟨hs, -, -⟩ := h.grown.live
  have hcontinues : i.recognizer.forest.Extends i'.recognizer.forest →
      Sound G rule root i' ({ a with state := t.target } :: rest) done →
      ∃ a' done', Continues i.recognizer.forest i'.recognizer.forest a a' t.target ∧
        Sound G rule root i' (a' :: rest) done' :=
    fun he h' => ⟨{ a with state := t.target }, done, ⟨rfl, he.precedence a.id hs.lt, he⟩, h'⟩
  have hkeep : i.recognizer.SameTree r' → i'.recognizer.forest = i.recognizer.forest ∧
      i'.recognizer.invocation = i.recognizer.invocation ∧
      i'.recognizer.floors = i.recognizer.floors := by
    intro hsame
    rw [hi]
    exact ⟨hsame.forest, hsame.invocation, hsame.floors⟩
  have hstate : i'.recognizer.state = some t.target := by rw [hi]
  cases hp with
  | free hk hround hsame =>
    obtain ⟨hf, hv, hfl⟩ := hkeep hsame
    rw [hnet] at hround
    refine hcontinues (by rw [hf]; exact .refl _) (h.cross hG ht hcall (by rw [hf]; exact .refl _ _)
      ?_ ?_ (.free hk) hround ?_ hv hstate hfl hcallers)
    · rw [hf, List.append_nil]
    · simp
    · simp
  | condition hk hh hsame =>
    obtain ⟨hf, hv, hfl⟩ := hkeep hsame
    refine hcontinues (by rw [hf]; exact .refl _) (h.cross hG ht hcall (by rw [hf]; exact .refl _ _)
      ?_ ?_ (.condition hk (hears a.id a.state _ _ hst hinv hh)) ?_ ?_ hv hstate hfl hcallers)
    · rw [hf, List.append_nil]
    · simp
    · intro _ he
      rw [hk] at he
      cases he
    · simp
  | level hk hl hsame =>
    obtain ⟨hf, hv, hfl⟩ := hkeep hsame
    rw [h.precedence_eq (hG.recursive_of_level hs.rule_lt hs.state_rule ht hk)] at hl
    refine hcontinues (by rw [hf]; exact .refl _) (h.cross hG ht hcall (by rw [hf]; exact .refl _ _)
      ?_ ?_ (.level hk) ?_ ?_ hv hstate hfl hcallers)
    · rw [hf, List.append_nil]
    · simp
    · intro _ he
      rw [hk] at he
      cases he
    · intro level' hm
      rwa [List.mem_singleton.1 hm]
  | token hk hsame =>
    obtain ⟨hv, -, hfl⟩ := i.recognizer.fields_addChild (.token i.recognizer.input.current)
    obtain ⟨htouch, hchildren⟩ := Forest.touches_addChild
      (.token i.recognizer.input.current) hs.lt
    have hf : i'.recognizer.forest = i.recognizer.forest.addChild a.id
        (.token i.recognizer.input.current) := by
      rw [hi, ← Recognizer.forest_addChild _ hinv]
      exact hsame.forest
    rw [hnet] at hk
    refine hcontinues (by rw [hf]; exact htouch.toExtends) (h.cross hG ht hcall
      (by rw [hf]; exact htouch) (by rw [hf]; exact hchildren) ?_ (.token hk) ?_ ?_ ?_ hstate ?_
      hcallers)
    · simp
    · intro _ he
      rw [he] at hk
      cases hk
    · simp
    · rw [hi]
      exact hsame.invocation.trans hv
    · rw [hi]
      exact hsame.floors.trans hfl
  | round hk hmark hloop hsame =>
    rw [hnet] at hloop
    obtain ⟨a', hc, h'⟩ := h.round hG ht hk hmark hloop hsame hi hcallers
    exact ⟨a', _, hc, h'⟩

/-- The forest after an invocation was opened: what is new, and what was there. -/
theorem Enters.facts {c : RuleId} {precedence : Int} {id : InvocationId}
    (he : Enters env c precedence i id i') (hnet : env.network = G.network)
    (hinv : i.recognizer.invocation = stations.head?.map Station.id)
    (hstate : i.recognizer.state = stations.head?.map Station.state)
    (hlt : ∀ a ∈ stations, a.id < i.recognizer.forest.size) :
    let f := i.recognizer.forest
    let f' := i'.recognizer.forest
    f.Extends f' ∧ f'.size = f.size + 1 ∧ (f'.get f.size).rule = c ∧
      (f'.get f.size).precedence = (if (G.network.rule c).leftRecursive then precedence else 0) ∧
      (f'.get f.size).children = #[] ∧
      (f'.get f.size).parent = stations.head?.map Station.id ∧
      (f'.get f.size).caller = stations.head?.map Station.state ∧
      (∀ other, other < f.size → (∀ a, stations.head? = some a → other ≠ a.id) →
        f'.get other = f.get other) ∧
      ∀ a, stations.head? = some a →
        (f'.get a.id).parent = (f.get a.id).parent ∧ (f'.get a.id).caller = (f.get a.id).caller ∧
        (f'.get a.id).children.toList = (f.get a.id).children.toList ++
          if (G.network.rule c).leftRecursive then [] else [.rule f.size] := by
  intro f f'
  obtain ⟨node, hrule, hprec, hch, hpar, hcal, -, hforest⟩ := he.forest
  rw [hnet] at hprec hforest
  rw [hinv] at hpar hcal hforest
  rw [hstate] at hcal
  have hnew : ∀ g : Forest, g = (f.alloc node).2 → g.get f.size = node := by
    rintro _ rfl
    rw [Forest.get_alloc, if_pos rfl]
  have hold : ∀ other, other < f.size → (f.alloc node).2.get other = f.get other := by
    intro other ho
    rw [Forest.get_alloc, if_neg (Nat.ne_of_lt ho)]
  have hsize := f.size_alloc node
  cases stations with
  | nil =>
    have hf : f' = (f.alloc node).2 := hforest
    have hn := hnew f' hf
    refine ⟨?_, ?_, ?_, ?_, ?_, ?_, ?_, ?_, ?_⟩
    · rw [hf]
      exact f.extends_alloc node
    · rw [hf, hsize]
    · rw [hn, hrule]
    · rw [hn, hprec]
    · rw [hn, hch]
    · rw [hn, hpar]
    · rw [hn, hcal]
      rfl
    · intro other ho _
      rw [hf, hold other ho]
    · intro a ha
      cases ha
  | cons a rest =>
    have ha : a.id < f.size := hlt a (.head _)
    have hne : f.size ≠ a.id := Nat.ne_of_gt ha
    have hcaller : node.caller = some a.state := hcal
    cases hl : (G.network.rule c).leftRecursive with
    | true =>
      have hf : f' = (f.alloc node).2 := by
        rw [hl] at hforest
        exact hforest
      have hn := hnew f' hf
      rw [hl] at hprec
      refine ⟨?_, ?_, ?_, ?_, ?_, ?_, ?_, ?_, ?_⟩
      · rw [hf]
        exact f.extends_alloc node
      · rw [hf, hsize]
      · rw [hn, hrule]
      · rw [hn, hprec]
      · rw [hn, hch]
      · rw [hn, hpar]
      · rw [hn, hcaller]
        rfl
      · intro other ho _
        rw [hf, hold other ho]
      · intro b hb
        cases hb
        rw [hf, hold a.id ha]
        exact ⟨rfl, rfl, by simp⟩
    | false =>
      have hf : f' = (f.alloc node).2.addChild a.id (.rule f.size) := by
        rw [hl] at hforest
        exact hforest
      have ha' : a.id < (f.alloc node).2.size := by
        rw [hsize]
        exact Nat.lt_succ_of_lt ha
      obtain ⟨htouch, hchildren⟩ := Forest.touches_addChild (.rule f.size) ha'
      rw [← hf] at htouch hchildren
      have hn : f'.get f.size = node := by
        rw [htouch.other f.size hne, hnew _ rfl]
      rw [hl] at hprec
      refine ⟨?_, ?_, ?_, ?_, ?_, ?_, ?_, ?_, ?_⟩
      · exact (f.extends_alloc node).trans htouch.toExtends
      · rw [htouch.size_eq, hsize]
      · rw [hn, hrule]
      · rw [hn, hprec]
      · rw [hn, hch]
      · rw [hn, hpar]
      · rw [hn, hcaller]
        rfl
      · intro other ho hno
        rw [htouch.other other (hno a rfl), hold other ho]
      · intro b hb
        cases hb
        rw [htouch.parent, htouch.caller, hchildren, hold a.id ha]
        exact ⟨rfl, rfl, rfl⟩

/-- Opening an invocation keeps the parse sound. The first one is of the rule that is parsed, at floor
zero. -/
theorem Sound.enter {c : RuleId} {precedence : Int} {id : InvocationId} (hG : G.Fits)
    (hnet : env.network = G.network) (h : Sound G rule root i stations done)
    (hc : c < G.network.rules.size) (he : Enters env c precedence i id i')
    (hcall : ∀ a, stations.head? = some a → ∃ t ∈ (G.network.state a.state).transitions,
      ∃ follow, t.kind = .rule c follow precedence)
    (hfirst : stations = [] → c = rule ∧ precedence = 0 ∧ root = id) :
    Sound G rule root i' (⟨id, (G.network.rule c).start⟩ :: stations) done := by
  obtain ⟨hext, hsize, hrule, hfloor, hchildren, hparent, hcaller, hother, htop⟩ :=
    he.facts hnet h.invocation h.state h.grown.lt
  have hid := he.id_eq
  have hg := h.grown.enter hG hext hc hsize hrule hfloor hchildren hparent hcaller hcall hother htop
  rw [← hid] at hg hrule hfloor
  have hlt := h.grown.lt
  have hrec : G.recursive i'.recognizer.forest id = (G.network.rule c).leftRecursive := by
    unfold Guide.recursive
    rw [hrule]
  have hfloors := he.floors
  have hcallers := he.callers
  rw [hnet] at hfloors hcallers
  refine ⟨hg, he.invocation, ?_, ?_, ?_, ?_⟩
  · rw [he.state, hnet]
    rfl
  · unfold Guide.floors
    rw [hfloors, h.floors, hrec, G.floors_extends hext hlt, hfloor]
    cases (G.network.rule c).leftRecursive <;> rfl
  · unfold Guide.callers
    rw [hcallers, h.callers, hrec, G.callers_extends hext hlt, h.invocation, h.state]
  · intro b hb
    cases stations with
    | nil =>
      cases hb
      obtain ⟨h₁, h₂, h₃⟩ := hfirst rfl
      refine ⟨hrule.trans h₁, ?_, fun _ => h₃.symm⟩
      show (i'.recognizer.forest.get id).precedence = 0
      rw [hfloor, h₂]
      cases (G.network.rule c).leftRecursive <;> rfl
    | cons a rest =>
      rw [List.getLast?_cons_cons] at hb
      exact (h.outermost b hb).extends hext (hlt b (List.mem_of_getLast? hb))

theorem Guide.floors_cons (G : Guide) (f : Forest) (a : Station) (rest : List Station) :
    G.floors f (a :: rest) = if G.recursive f a.id then
      (f.get a.id).precedence :: G.floors f rest else G.floors f rest := rfl

theorem Guide.callers_cons (G : Guide) (f : Forest) (a : Station) (rest : List Station) :
    G.callers f (a :: rest) = if G.recursive f a.id then
      (rest.head?.map Station.id, rest.head?.map Station.state) :: G.callers f rest
      else G.callers f rest := rfl

theorem Guide.floors_eq_cons (G : Guide) (f : Forest) (stations : List Station) :
    ∃ floor more, G.floors f stations = floor :: more := by
  induction stations with
  | nil => exact ⟨0, [], rfl⟩
  | cons a rest ih =>
    unfold floors
    split
    · exact ⟨_, _, rfl⟩
    · exact ih

/-- What leaving the innermost of several invocations leads to. -/
structure Leaves (G : Guide) (i : Interpreter) (a b : Station) (i' : Interpreter) : Prop where
  extends_forest : i.recognizer.forest.Extends i'.recognizer.forest
  size : i'.recognizer.forest.size = i.recognizer.forest.size
  other : ∀ other, other ≠ a.id → other ≠ b.id →
    i'.recognizer.forest.get other = i.recognizer.forest.get other
  inner : (i'.recognizer.forest.get a.id).children = (i.recognizer.forest.get a.id).children
  parent : (i'.recognizer.forest.get b.id).parent = (i.recognizer.forest.get b.id).parent
  caller : (i'.recognizer.forest.get b.id).caller = (i.recognizer.forest.get b.id).caller
  children : (i'.recognizer.forest.get b.id).children.toList =
    (i.recognizer.forest.get b.id).children.toList ++
      if G.recursive i.recognizer.forest a.id then [.rule a.id] else []
  invocation : i'.recognizer.invocation = some b.id
  state : i'.recognizer.state = G.network.followOf? b.state

/-- Leaving the innermost invocation, which the next one called, leads there. -/
theorem Interpreter.leaves_leaveRule (hnet : env.network = G.network)
    (hlt : a.id < i.recognizer.forest.size) (hlt_b : b.id < i.recognizer.forest.size)
    (hab : b.id ≠ a.id)
    (hrule : (G.network.state a.state).rule = (i.recognizer.forest.get a.id).rule)
    (hparent : (i.recognizer.forest.get a.id).parent = some b.id)
    (hcaller : (i.recognizer.forest.get a.id).caller = some b.state)
    (hinv : i.recognizer.invocation = some a.id)
    (hcallers : i.callers = G.callers i.recognizer.forest (a :: b :: rest)) :
    let i' := i.leaveRule env (G.network.state a.state).rule
    Leaves G i a b i' ∧ i'.callers = G.callers i.recognizer.forest (b :: rest) ∧
      (i.recognizer.floors = G.floors i.recognizer.forest (a :: b :: rest) →
        i'.recognizer.floors = G.floors i.recognizer.forest (b :: rest)) := by
  rw [hrule]
  rw [Guide.callers_cons] at hcallers
  cases hl : G.recursive i.recognizer.forest a.id with
  | true =>
    rw [hl, if_pos rfl] at hcallers
    have hrec : (env.network.rule (i.recognizer.forest.get a.id).rule).leftRecursive = true := by
      rw [hnet]
      exact hl
    rw [Interpreter.leaveRule_recursive hrec]
    obtain ⟨-, hf, hv, hfl⟩ := Recognizer.unrollRecursion_eq (some b.id) hinv
    dsimp only at hf
    have hunroll : i.unroll = ((i.recognizer.unrollRecursion (some b.id)).1, some b.state,
        { parser := { i.parser with recognizer := (i.recognizer.unrollRecursion (some b.id)).2 },
          callers := i.callers.tail }) := by
      have hhead : i.callers.head?.getD (none, none) = (some b.id, some b.state) := by
        rw [hcallers]
        rfl
      unfold Interpreter.unroll
      rw [hhead]
      rfl
    rw [hunroll]
    obtain ⟨he, hsize, hkeep, hother⟩ := @Forest.modify_facts i.recognizer.forest a.id
      (fun i' => { i' with stop := i.recognizer.input.previousIndex, parent := some b.id }) hlt
      (fun _ => rfl) (fun _ => rfl) (fun _ => rfl)
    obtain ⟨htouch, hadd⟩ := @Forest.touches_addChild _ b.id (.rule a.id)
      (Nat.lt_of_lt_of_eq hlt_b hsize.symm)
    rw [← hf] at htouch hadd
    refine ⟨⟨he.trans htouch.toExtends, htouch.size_eq.trans hsize, ?_, ?_, ?_, ?_, ?_, hv, ?_⟩,
      ?_, ?_⟩
    · intro other hoa hob
      exact (htouch.other other hob).trans (hother other hoa)
    · show ((i.recognizer.unrollRecursion (some b.id)).2.forest.get a.id).children = _
      rw [htouch.other a.id hab.symm, hkeep]
    · exact htouch.parent.trans (congrArg Invocation.parent (hother b.id hab))
    · exact htouch.caller.trans (congrArg Invocation.caller (hother b.id hab))
    · rw [hl, if_pos rfl, ← hother b.id hab]
      exact hadd
    · rw [← hnet]
      rfl
    · show i.callers.tail = _
      rw [hcallers]
      rfl
    · intro hfloors
      rw [Guide.floors_cons, hl, if_pos rfl] at hfloors
      refine hfl.trans ?_
      rw [hfloors]
      obtain ⟨floor, more, hfm⟩ := G.floors_eq_cons i.recognizer.forest (b :: rest)
      rw [hfm]
  | false =>
    rw [hl, if_neg (by simp)] at hcallers
    have hrec : (env.network.rule (i.recognizer.forest.get a.id).rule).leftRecursive = false := by
      rw [hnet]
      exact hl
    rw [Interpreter.leaveRule_plain hrec]
    obtain ⟨stop, hf, hv, hst, hfl⟩ := Recognizer.exitRule_eq hinv
    obtain ⟨he, hsize, hkeep, hother⟩ := @Forest.modify_facts i.recognizer.forest a.id
      (fun i' => { i' with stop }) hlt (fun _ => rfl) (fun _ => rfl) (fun _ => rfl)
    rw [← hf] at he hsize hkeep hother
    refine ⟨⟨he, hsize, fun other hoa _ => hother other hoa, hkeep, ?_, ?_, ?_, ?_, ?_⟩, ?_, ?_⟩
    · exact congrArg Invocation.parent (hother b.id hab)
    · exact congrArg Invocation.caller (hother b.id hab)
    · rw [hl, if_neg (by simp), List.append_nil]
      exact congrArg (fun i => i.children.toList) (hother b.id hab)
    · exact hv.trans hparent
    · show i.recognizer.exitRule.state.bind env.network.followOf? = _
      rw [hst, hcaller, hnet]
      rfl
    · exact hcallers
    · intro hfloors
      rw [Guide.floors_cons, hl, if_neg (by simp)] at hfloors
      exact hfl.trans hfloors

/-- What leaving the innermost invocation writes to the tree: its end is noted, and one of a
left-recursive rule becomes a child of the invocation that called it. -/
theorem Interpreter.forest_leaveRule (hnet : env.network = G.network)
    (hrule : (G.network.state a.state).rule = (i.recognizer.forest.get a.id).rule)
    (hinv : i.recognizer.invocation = some a.id)
    (hcallers : i.callers = G.callers i.recognizer.forest (a :: b :: rest)) :
    (i.leaveRule env (G.network.state a.state).rule).recognizer.forest =
      if G.recursive i.recognizer.forest a.id then
        (i.recognizer.forest.modify a.id fun node =>
          { node with stop := i.recognizer.input.previousIndex, parent := some b.id }).addChild b.id
            (.rule a.id)
      else i.recognizer.forest.modify a.id fun node =>
        { node with stop := if i.recognizer.matchedEof then i.recognizer.input.current.index
                            else i.recognizer.input.previousIndex } := by
  rw [hrule]
  rw [Guide.callers_cons] at hcallers
  cases hl : G.recursive i.recognizer.forest a.id with
  | true =>
    rw [hl, if_pos rfl] at hcallers
    have hrec : (env.network.rule (i.recognizer.forest.get a.id).rule).leftRecursive = true := by
      rw [hnet]
      exact hl
    have hhead : i.callers.head?.getD (none, none) = (some b.id, some b.state) := by
      rw [hcallers]
      rfl
    obtain ⟨-, hf, -, -⟩ := Recognizer.unrollRecursion_eq (some b.id) hinv
    rw [Interpreter.leaveRule_recursive hrec, if_pos rfl]
    unfold Interpreter.unroll
    rw [hhead]
    exact hf
  | false =>
    have hrec : (env.network.rule (i.recognizer.forest.get a.id).rule).leftRecursive = false := by
      rw [hnet]
      exact hl
    rw [Interpreter.leaveRule_plain hrec, if_neg Bool.false_ne_true]
    show i.recognizer.exitRule.forest = _
    unfold Recognizer.exitRule
    rw [hinv]

theorem Sound.leaves (hnet : env.network = G.network)
    (h : Sound G rule root i (a :: b :: rest) done) :
    let i' := i.leaveRule env (G.network.state a.state).rule
    Leaves G i a b i' ∧ i'.recognizer.floors = G.floors i.recognizer.forest (b :: rest) ∧
      i'.callers = G.callers i.recognizer.forest (b :: rest) := by
  obtain ⟨hs, ⟨hparent, hcaller, -⟩, -⟩ := h.grown.live
  obtain ⟨hl, hcallers, hfloors⟩ := Interpreter.leaves_leaveRule hnet hs.lt
    (h.grown.lt b (.tail _ (.head _))) (h.grown.ne_innermost.1 b (.head _)) hs.state_rule hparent
    hcaller h.invocation h.callers
  exact ⟨hl, hfloors h.floors, hcallers⟩

/-- A live invocation that was called returns somewhere. -/
theorem Guide.Fits.followOf?_of_called (hG : G.Fits) {id : InvocationId}
    (h : Called G f id (some b)) : ∃ follow, G.network.followOf? b.state = some follow := by
  obtain ⟨-, -, t, ht, follow, precedence, hk, -⟩ := h
  exact ⟨follow, hG.followOf?_eq ht hk⟩

/-- Leaving an invocation that was called keeps the parse sound. -/
theorem Sound.leave (hG : G.Fits) (hnet : env.network = G.network)
    (h : Sound G rule root i (a :: b :: rest) done)
    (hstop : (G.network.state a.state).isRuleStop = true) {follow : StateId}
    (hfollow : G.network.followOf? b.state = some follow) :
    i.recognizer.forest.Extends
        (i.leaveRule env (G.network.state a.state).rule).recognizer.forest ∧
      Sound G rule root (i.leaveRule env (G.network.state a.state).rule)
        ({ b with state := follow } :: rest) (a.id :: done) := by
  obtain ⟨hl, hfloors, hcallers⟩ := h.leaves hnet
  have hg := h.grown.leave hG hstop hl.extends_forest hl.size hl.other hl.inner hl.parent hl.caller
    hl.children hfollow
  have hlt : ∀ c ∈ b :: rest, c.id < i.recognizer.forest.size := fun c hc =>
    h.grown.lt c (.tail _ hc)
  have hf := G.floors_extends hl.extends_forest hlt
  have hcal := G.callers_extends hl.extends_forest hlt
  refine ⟨hl.extends_forest, hg, hl.invocation, ?_, ?_, ?_, ?_⟩
  · rw [hl.state, hfollow]
    rfl
  · rw [hfloors, ← hf]
    rfl
  · rw [hcallers, ← hcal]
    rfl
  · intro c hcl
    cases rest with
    | nil =>
      cases hcl
      exact (h.outermost b rfl).extends hl.extends_forest (hlt b (.head _))
    | cons d rest =>
      rw [List.getLast?_cons_cons] at hcl
      have hlast : (a :: b :: d :: rest).getLast? = some c := by
        rw [List.getLast?_cons_cons, List.getLast?_cons_cons]
        exact hcl
      refine (h.outermost c hlast).extends hl.extends_forest (hlt c ?_)
      exact .tail _ (List.mem_of_getLast? hcl)

/-- Closing the outermost invocation changes what is noted at its end, and where the recognizer is. -/
theorem Interpreter.forest_finish {id : InvocationId} (hnet : env.network = G.network)
    (hinv : i.recognizer.invocation = some a.id)
    (hout : Outermost G i.recognizer.forest rule root a)
    (hcallers : i.callers = G.callers i.recognizer.forest [a])
    (hi : i.finish env rule root = (id, i')) :
    id = a.id ∧ ∃ g : Invocation → Invocation,
      i'.recognizer.forest = i.recognizer.forest.modify a.id g ∧
        ∀ i, (g i).rule = i.rule ∧ (g i).precedence = i.precedence ∧ (g i).children = i.children ∧
          (g i).error = i.error := by
  obtain ⟨hrule, -, hroot⟩ := hout
  rw [Guide.callers_cons] at hcallers
  unfold Interpreter.finish at hi
  rw [hnet] at hi
  cases hl : (G.network.rule rule).leftRecursive with
  | true =>
    have hrec : G.recursive i.recognizer.forest a.id = true := by
      unfold Guide.recursive
      rw [hrule, hl]
    rw [hrec, if_pos rfl] at hcallers
    have hhead : i.callers.head?.getD (none, none) = (none, none) := by
      rw [hcallers]
      rfl
    rw [if_pos hl] at hi
    unfold Interpreter.unroll at hi
    rw [hhead] at hi
    obtain ⟨hd, hf, -, -⟩ := Recognizer.unrollRecursion_eq none hinv
    have hid := (Prod.mk.inj hi).1
    have hi' := (Prod.mk.inj hi).2
    refine ⟨?_, fun i' => { i' with stop := i.recognizer.input.previousIndex, parent := none },
      ?_, fun _ => ⟨rfl, rfl, rfl, rfl⟩⟩
    · rw [← hid]
      show (i.recognizer.unrollRecursion none).1.getD root = a.id
      rw [hd]
      rfl
    · rw [← hi']
      exact hf
  | false =>
    rw [if_neg (by simp [hl])] at hi
    obtain ⟨stop, hf, -, -, -⟩ := Recognizer.exitRule_eq hinv
    have hid := (Prod.mk.inj hi).1
    have hi' := (Prod.mk.inj hi).2
    refine ⟨?_, fun i' => { i' with stop }, ?_, fun _ => ⟨rfl, rfl, rfl, rfl⟩⟩
    · rw [← hid]
      exact (hroot hl).symm
    · rw [← hi']
      exact hf

/-- What closing the outermost invocation writes to the tree: its end is noted. -/
theorem Interpreter.forest_finish_eq (hnet : env.network = G.network)
    (hinv : i.recognizer.invocation = some a.id)
    (hout : Outermost G i.recognizer.forest rule root a)
    (hcallers : i.callers = G.callers i.recognizer.forest [a]) :
    (i.finish env rule root).2.recognizer.forest = i.recognizer.forest.modify a.id
      (if G.recursive i.recognizer.forest a.id then fun node =>
          { node with stop := i.recognizer.input.previousIndex, parent := none }
        else fun node =>
          { node with stop := if i.recognizer.matchedEof then i.recognizer.input.current.index
                              else i.recognizer.input.previousIndex }) := by
  have hrec : G.recursive i.recognizer.forest a.id = (env.network.rule rule).leftRecursive := by
    unfold Guide.recursive
    rw [hout.1, hnet]
  rw [Guide.callers_cons, hrec] at hcallers
  rw [hrec]
  unfold Interpreter.finish
  cases hl : (env.network.rule rule).leftRecursive with
  | true =>
    rw [hl, if_pos rfl] at hcallers
    have hhead : i.callers.head?.getD (none, none) = (none, none) := by
      rw [hcallers]
      rfl
    obtain ⟨-, hf, -, -⟩ := Recognizer.unrollRecursion_eq none hinv
    rw [if_pos rfl, if_pos rfl]
    unfold Interpreter.unroll
    rw [hhead]
    exact hf
  | false =>
    rw [if_neg Bool.false_ne_true, if_neg Bool.false_ne_true]
    show i.recognizer.exitRule.forest = _
    unfold Recognizer.exitRule
    rw [hinv]

/-- Closing the outermost invocation leaves a derivation. -/
theorem Sound.finish {id : InvocationId} (hG : G.Fits) (hnet : env.network = G.network)
    (h : Sound G rule root i [a] done) (hstop : (G.network.state a.state).isRuleStop = true)
    (hi : i.finish env rule root = (id, i')) :
    Derivation G.network G.levels i'.recognizer.forest G.held id ∧
      (i'.recognizer.forest.get id).rule = rule ∧
      (i'.recognizer.forest.get id).precedence = 0 := by
  obtain ⟨hs, -, -⟩ := h.grown.live
  obtain ⟨-, hne⟩ := h.grown.ne_innermost
  obtain ⟨hrule, hprec, -⟩ := h.outermost a rfl
  obtain ⟨rfl, g, hf, hg⟩ :=
    Interpreter.forest_finish hnet h.invocation (h.outermost a rfl) h.callers hi
  have hgr := fun i => (hg i).1
  have hgp := fun i => (hg i).2.1
  have hgc := fun i => (hg i).2.2.1
  obtain ⟨he, hsize, hkeep, hother⟩ := Forest.modify_facts hs.lt hgr hgp hgc
  rw [← hf] at he hsize hkeep hother
  obtain ⟨children, hway, hd, hat⟩ := hs.way
  rw [List.append_nil] at hway
  have hkind : (G.network.state a.state).kind = .ruleStop := by
    simpa [NetworkState.isRuleStop] using hstop
  have hstate := (hG.rule _ hs.rule_lt).stop_only a.state hs.state_rule hkind
  rw [hstate] at hat
  have hcomplete := Underway.stop (hG.loops _ hs.rule_lt) hat
  have hrule' := he.rule a.id hs.lt
  have hprec' := he.precedence a.id hs.lt
  have hfinished : Finished G.network G.levels i'.recognizer.forest G.held (a.id :: done) := by
    refine .cons ?_ ?_ (h.grown.finished.extends he h.grown.done_lt fun id hid => ?_)
    · rw [hrule', hprec', hkeep, hway]
      exact hcomplete.extends he
    · rw [hkeep, hway]
      exact hd
    · rw [hother id (hne id hid)]
  refine ⟨hfinished.derivation a.id (.head _), ?_, ?_⟩
  · rw [hrule', hrule]
  · rw [hprec', hprec]

theorem Guide.Hears.sameTree (h : G.Hears env i) (hs : i.recognizer.SameTree i'.recognizer) :
    G.Hears env i' := by
  intro id s r index hst hinv hh
  rw [hs.forest]
  rw [hs.state] at hst
  rw [hs.invocation] at hinv
  rw [Recognizer.holds_sameTree hs] at hh
  exact h id s r index hst hinv hh

/-- Without a report, a state is left by choosing an edge, which leaves the tree as it is, and following
it. -/
theorem Interpreter.visit_eq_ok {s : NetworkState} (ht : i.parser.Tidy)
    (hv : i.visit env s = (.ok (), i')) (hs : i'.parser.Silent) : ∃ alt p t,
      Interpreter.chooseEdge env s i.parser = (.ok alt, p) ∧ s.transitions[alt - 1]? = some t ∧
        ({ i with parser := p } : Interpreter).followEdge env s t = (.ok (), i') ∧ p.Silent ∧ p.Tidy ∧
          i.recognizer.SameTree p.recognizer := by
  unfold Interpreter.visit at hv
  dsimp only [Interpreter.run] at hv
  have hleads := @Interpreter.honest_chooseEdge env s i.parser
  generalize hch : Interpreter.chooseEdge env s i.parser = result at hv hleads
  obtain ⟨halt | alt, p⟩ := result
  · cases hv
  · dsimp only at hv hleads
    cases hedge : s.transitions[alt - 1]? with
    | none =>
      rw [hedge] at hv
      cases hv
    | some t =>
      rw [hedge] at hv
      dsimp only at hv
      have hfollow := @Interpreter.leads_followEdge env { i with parser := p } s t
      rw [hv] at hfollow
      have hp := hfollow.silent hs
      exact ⟨alt, p, t, rfl, hedge, hv, hp, hleads.tidy ht,
        Interpreter.sameTree_chooseEdge ht hch hp⟩

/-- Without a report, following an edge keeps the parse sound: a call opens an invocation, and any other
edge is passed within the innermost one. -/
theorem Sound.followEdge (hG : G.Fits) (hnet : env.network = G.network)
    (htree : env.config.buildTrees = true) (hears : G.Hears env i)
    (h : Sound G rule root i (a :: rest) done) (ht : t ∈ (G.network.state a.state).transitions)
    (htidy : i.parser.Tidy) (hf : i.followEdge env (G.network.state a.state) t = (.ok (), i'))
    (hs : i'.parser.Silent) :
    (∃ c follow precedence id j, t.kind = .rule c follow precedence ∧
      Enters env c precedence i id j ∧ j.recognizer.forest = i'.recognizer.forest ∧
      Sound G rule root i' (⟨id, (G.network.rule c).start⟩ :: a :: rest) done) ∨
    t.call? = none ∧ ∃ a' done' r', Passes env (G.network.state a.state) t i.recognizer r' ∧
      Continues i.recognizer.forest i'.recognizer.forest a a' t.target ∧
      Sound G rule root i' (a' :: rest) done' := by
  rcases Interpreter.followEdge_eq_ok hf with ⟨c, follow, precedence, id, j, hk, he, rfl⟩ |
    ⟨hcall, p, hp, rfl⟩
  · obtain ⟨hc, htarget⟩ := hG.call a.state t ht c follow precedence hk
    have hen := Interpreter.enters_of_enter he
    have hstate : j.recognizer.state = some t.target := by rw [hen.state, hnet, htarget]
    refine .inl ⟨c, follow, precedence, id, j, hk, hen, rfl, ?_⟩
    have h' := h.enter hG hnet hc hen
      (by
        intro b hb
        cases hb
        exact ⟨t, ht, follow, hk⟩)
      (by
        intro hnil
        cases hnil)
    exact h'.sameTree ⟨rfl, rfl, hstate.symm, rfl, rfl⟩ rfl
  · have hpass := Interpreter.passes_passEdge htree htidy hp hs hcall
    have hi : (({ i with parser := p } : Interpreter).goTo (some t.target)).recognizer =
        { p.recognizer with state := some t.target } := rfl
    obtain ⟨a', done', hcontinues, h'⟩ := h.pass hG hnet hears ht hcall hpass hi rfl
    exact .inr ⟨hcall, a', done', p.recognizer, hpass, hcontinues, h'⟩

/-- Without a report, leaving a state keeps the parse sound. -/
theorem Sound.visit {st : StateId} (hG : G.Fits) (hnet : env.network = G.network)
    (htree : env.config.buildTrees = true) (hears : G.Hears env i)
    (h : Sound G rule root i stations done) (hst : i.recognizer.state = some st)
    (ht : i.parser.Tidy) (hv : i.visit env (G.network.state st) = (.ok (), i'))
    (hs : i'.parser.Silent) : ∃ a' rest' done', Sound G rule root i' (a' :: rest') done' := by
  obtain ⟨a, rest, rfl, rfl, -⟩ := h.innermost hst
  obtain ⟨alt, p, t, -, hedge, hf, -, htidy, hsame⟩ := Interpreter.visit_eq_ok ht hv hs
  have h' : Sound G rule root { i with parser := p } (a :: rest) done := h.sameTree hsame rfl
  have hears' : G.Hears env { i with parser := p } := hears.sameTree hsame
  rcases h'.followEdge hG hnet htree hears' (List.mem_of_getElem? hedge) htidy hf hs with
    ⟨_, _, _, _, _, -, -, -, h''⟩ | ⟨-, _, _, _, -, -, h''⟩
  · exact ⟨_, _, _, h''⟩
  · exact ⟨_, _, _, h''⟩

namespace Interpreter

/-- One step of a parse leads to the next. -/
def Follows (env : Setting) (rule : RuleId) (root : InvocationId) (i i' : Interpreter) : Prop :=
  step env rule root i = .running i'

/-- At some point of a parse of `rule` from `i`, the invocation had these children and was at this
state, and the condition held. -/
def Held (env : Setting) (rule : RuleId) (i : Interpreter) (id : InvocationId) : Conditions :=
  fun children s r index => ∃ root i₀ j, i.enter env rule 0 = (.ok root, i₀) ∧
    Relation.ReflTransGen (Follows env rule root) i₀ j ∧ j.recognizer.state = some s ∧
    j.recognizer.invocation = some id ∧ (j.recognizer.forest.get id).children.toList = children ∧
    j.recognizer.holds env r index = true

/-- A parser that has not begun, with nothing reported. -/
structure Fresh (i : Interpreter) : Prop where
  forest : i.recognizer.forest = {}
  invocation : i.recognizer.invocation = none
  state : i.recognizer.state = none
  floors : i.recognizer.floors = [0]
  errors : i.recognizer.errors = #[]
  callers : i.callers = []
  recovering : i.parser.strategy.recovering = false

/-- The innermost invocation is the outermost one if there are no others. -/
theorem isOutermost_of_sound (h : Sound G rule root i (a :: rest) done) :
    i.isOutermost = rest.isEmpty := by
  have hinv : i.recognizer.invocation = some a.id := h.invocation
  obtain ⟨-, hc, -⟩ := h.grown.live
  unfold isOutermost
  rw [hinv]
  dsimp only
  cases rest with
  | nil =>
    rw [hc.2]
    rfl
  | cons b rest =>
    rw [hc.2.1]
    rfl

/-- A run of a sound parse without reports ends with a derivation. -/
theorem derivation_of_runFor {fuel : Nat} {id : InvocationId} (hG : G.Fits)
    (hnet : env.network = G.network) (htree : env.config.buildTrees = true) {i₀ : Interpreter}
    (hreach : Relation.ReflTransGen (Follows env rule root) i₀ i)
    (hears : ∀ j, Relation.ReflTransGen (Follows env rule root) i₀ j → G.Hears env j)
    (h : Sound G rule root i (a :: rest) done) (ht : i.parser.Tidy)
    (hrun : runFor env rule root fuel i = some (.ok id, i')) (hs : i'.parser.Silent) :
    Derivation G.network G.levels i'.recognizer.forest G.held id ∧
      (i'.recognizer.forest.get id).rule = rule ∧
      (i'.recognizer.forest.get id).precedence = 0 := by
  induction fuel generalizing i a rest done with
  | zero => cases hrun
  | succ fuel ih =>
    unfold runFor at hrun
    have hleads := @leads_step env i rule root
    generalize hstep : step env rule root i = progress at hrun hleads
    cases progress with
    | finished outcome i₁ =>
      cases hrun
      rcases step_finished hstep with hnone | ⟨s, hst, hstop, hout, hfin⟩
      · rw [h.state] at hnone
        cases hnone
      · obtain ⟨a', rest', heq, rfl, -⟩ := h.innermost hst
        cases heq
        rw [hnet] at hstop
        rw [isOutermost_of_sound h, List.isEmpty_iff] at hout
        subst hout
        exact h.finish hG hnet hstop hfin
    | running i₁ =>
      dsimp only at hrun
      have hs₁ : i₁.parser.Silent := (leads_runFor hrun).silent hs
      have hreach₁ := hreach.tail hstep
      suffices hnext : ∃ a' rest' done', Sound G rule root i₁ (a' :: rest') done' by
        obtain ⟨a', rest', done', h₁⟩ := hnext
        exact ih hreach₁ h₁ (Leads.tidy hleads ht) hrun
      obtain ⟨s, hst, ⟨hstop, hout, hi₁⟩ | ⟨hstop, hv⟩⟩ := step_running ht hstep hs₁
      · obtain ⟨a', rest', heq, rfl, -⟩ := h.innermost hst
        cases heq
        rw [hnet] at hstop hi₁
        rw [isOutermost_of_sound h] at hout
        cases rest with
        | nil => cases hout
        | cons b rest =>
          rw [hi₁]
          obtain ⟨-, hc, -⟩ := h.grown.live
          obtain ⟨follow, hfollow⟩ := hG.followOf?_of_called hc
          exact ⟨_, _, _, (h.leave hG hnet hstop hfollow).2⟩
      · rw [hnet] at hv
        exact h.visit hG hnet htree (hears i hreach) hst ht hv hs₁

/-- A parse from a fresh parser that ends well and reports nothing has built a derivation of its
rule. -/
theorem parse_derivation {g : Grammar} {env : Setting} {rule : RuleId} {fuel : Nat}
    {i i' : Interpreter} {root : InvocationId} (hg : g.compile = .ok env.grammar)
    (htree : env.config.buildTrees = true) (hrule : rule < g.rules.size) (hi : i.Fresh)
    (hrun : i.parse env fuel rule = some (.ok root, i')) (hs : i'.recognizer.errors = #[]) :
    (i'.recognizer.forest.get root).rule = rule ∧
      (i'.recognizer.forest.get root).precedence = 0 ∧
      Derivation env.network g.HasLevel i'.recognizer.forest (Held env rule i) root := by
  obtain ⟨hshaped, hcount⟩ := Grammar.shaped_compile hg
  have hex : ∀ r, ∃ loop zone, r < env.network.rules.size →
      (env.network.rule r).leftRecursive = true →
      LoopShape env.network.state r (env.network.rule r) (g.HasLevel r) loop zone := by
    intro r
    by_cases hr : r < env.network.rules.size ∧ (env.network.rule r).leftRecursive = true
    · obtain ⟨loop, zone, hz⟩ := (hshaped.rule r hr.1).recursive hr.2
      exact ⟨loop, zone, fun _ _ => hz⟩
    · exact ⟨0, fun _ => .head, fun h₁ h₂ => absurd ⟨h₁, h₂⟩ hr⟩
  choose loop zone hloops using hex
  let G : Guide := ⟨env.network, g.HasLevel, Held env rule i, loop, zone⟩
  have hG : G.Fits := ⟨hshaped, hloops⟩
  unfold parse at hrun
  generalize hen : i.enter env rule 0 = result at hrun
  obtain ⟨halt | first, i₀⟩ := result
  · cases hrun
  · have hfirst := enters_of_enter hen
    have hempty : Sound G rule first i [] [] := by
      refine ⟨⟨trivial, .nil, List.nodup_nil, ?_⟩, hi.invocation, hi.state, hi.floors, hi.callers, ?_⟩
      · intro id hid
        cases hid
      · intro a ha
        cases ha
    have h₀ : Sound G rule first i₀ [⟨first, (G.network.rule rule).start⟩] [] := by
      refine hempty.enter hG rfl ?_ hfirst ?_ ?_
      · exact hcount ▸ hrule
      · intro a ha
        cases ha
      · exact fun _ => ⟨rfl, rfl, rfl⟩
    have ht : i.parser.Tidy := fun _ => hi.recovering
    have ht₀ : i₀.parser.Tidy := by
      have hl := @leads_enter env i rule 0
      rw [hen] at hl
      exact hl.tidy ht
    have hears : ∀ j, Relation.ReflTransGen (Follows env rule first) i₀ j → G.Hears env j := by
      intro j hj id s r index hst hinv hh
      exact ⟨first, i₀, j, hen, hj, hst, hinv, rfl, hh⟩
    obtain ⟨hd, hr, hp⟩ := derivation_of_runFor hG rfl htree .refl hears h₀ ht₀ hrun hs
    exact ⟨hr, hp, hd⟩

end Interpreter

/-- `s` is the token A and then `t`, which is the token B. -/
def nested : Grammar :=
  let (a, g) := ({} : Grammar).addToken "A"
  let (b, g) := g.addToken "B"
  let (s, g) := g.addRule "s"
  let (t, g) := g.addRule "t"
  (g.define s (.plain (.seq [.token a, .rule t]))).define t (.plain (.token b))

def nestedNetwork : Network where
  states := #[⟨.ruleStart, 0, [⟨4, .epsilon⟩], none, false⟩, ⟨.ruleStop, 0, [], none, false⟩,
    ⟨.ruleStart, 1, [⟨8, .epsilon⟩], none, false⟩, ⟨.ruleStop, 1, [], none, false⟩,
    ⟨.basic, 0, [⟨5, .atom 1⟩], none, false⟩, ⟨.basic, 0, [⟨6, .epsilon⟩], none, false⟩,
    ⟨.basic, 0, [⟨2, .rule 1 7 0⟩], none, false⟩, ⟨.basic, 0, [⟨1, .epsilon⟩], none, false⟩,
    ⟨.basic, 1, [⟨9, .atom 2⟩], none, false⟩, ⟨.basic, 1, [⟨3, .epsilon⟩], none, false⟩]
  rules := #[⟨"s", 0, 1, false⟩, ⟨"t", 2, 3, false⟩]
  maxType := 2
  nextTokens := #[.ofList [1], .ofList [-2], .ofList [2], .ofList [-2], .ofList [1], .ofList [2],
    .ofList [2], .ofList [-2], .ofList [2], .ofList [-2]]
  ruleFollow := #[[], [7]]
  returnPrecedence := #[none, none, none, none, none, none, none, some 0, none, none]
  edgeCount := 8

def nestedSetting : Setting := { grammar := ⟨nestedNetwork, nested.names⟩ }

/-- A parser that has not begun, at the input A B. -/
def beforeNested : Interpreter :=
  let input := TokenCursor.ofTokens #[{ kind := 1 }, { kind := 2 }] defaultChannel
  { parser := { recognizer := .start nestedSetting input {} } }

set_option maxRecDepth 20000 in
theorem compile_nested : nested.compile = .ok nestedSetting.grammar := by cbv

/-- The parse of A B by `nested` is a derivation. -/
theorem derivation_nested : ∃ i', beforeNested.parse nestedSetting 20 0 = some (.ok 0, i') ∧
    i'.recognizer.errors = #[] ∧ Derivation nestedNetwork nested.HasLevel i'.recognizer.forest
      (Interpreter.Held nestedSetting 0 beforeNested) 0 := by
  have hrun : (beforeNested.parse nestedSetting 20 0).map
      (fun p => (p.1, p.2.recognizer.errors)) = some (.ok 0, #[]) := by cbv
  cases hparse : beforeNested.parse nestedSetting 20 0 with
  | none =>
    rw [hparse] at hrun
    cases hrun
  | some p =>
    rw [hparse] at hrun
    obtain ⟨outcome, i'⟩ := p
    obtain ⟨rfl, he⟩ := Prod.mk.inj (Option.some.inj hrun)
    have hsize : nested.rules.size = 2 := by cbv
    refine ⟨i', rfl, he, ?_⟩
    exact (Interpreter.parse_derivation compile_nested rfl (by rw [hsize]; decide)
      ⟨rfl, rfl, rfl, rfl, rfl, rfl, rfl⟩ hparse he).2.2

end AdaptiveParsing
