import AdaptiveParsing.Proofs.Recognition.Derivation
/-!
The live and the finished invocations of a parse. Each live one stands on its way and was called from
where the next one outwards stands (`Live`); the finished ones are complete (`Finished`). Main
statements: this holds on when the innermost invocation takes an edge (`Grown.advance`), begins another
round (`Grown.round`), calls (`Grown.enter`) or returns (`Grown.leave`).
-/

namespace AdaptiveParsing

namespace Forest

variable (f : Forest) (i : Invocation) (id other : InvocationId) (g : Invocation → Invocation)

theorem size_alloc : (f.alloc i).2.size = f.size + 1 := by simp [alloc, size]

theorem get_alloc : (f.alloc i).2.get other = if other = f.size then i else f.get other := by
  simp only [alloc, get, size, Array.getD_eq_getD_getElem?, Array.getElem?_push]
  split <;> simp_all

theorem size_modify : (f.modify id g).size = f.size := Array.size_modify

theorem get_modify_other (h : other ≠ id) : (f.modify id g).get other = f.get other := by
  simp only [modify, get, Array.getD_eq_getD_getElem?, Array.getElem?_modify]
  rw [if_neg (fun he => h he.symm)]

theorem get_modify (h : id < f.size) : (f.modify id g).get id = g (f.get id) := by
  simp only [modify, get, Array.getD_eq_getD_getElem?, Array.getElem?_modify]
  rw [if_pos trivial, Array.getElem?_eq_getElem h]
  rfl

theorem extends_alloc : f.Extends (f.alloc i).2 := by
  refine ⟨?_, ?_, ?_⟩
  · rw [size_alloc]
    exact Nat.le_succ _
  · intro id hid
    rw [get_alloc, if_neg (Nat.ne_of_lt hid)]
  · intro id hid
    rw [get_alloc, if_neg (Nat.ne_of_lt hid)]

theorem extends_modify (hr : ∀ i, (g i).rule = i.rule) (hp : ∀ i, (g i).precedence = i.precedence) :
    f.Extends (f.modify id g) := by
  refine ⟨Nat.le_of_eq (f.size_modify id g).symm, ?_, ?_⟩
  · intro other hlt
    by_cases h : other = id
    · subst h
      rw [get_modify f other g hlt, hr]
    · rw [get_modify_other f id other g h]
  · intro other hlt
    by_cases h : other = id
    · subst h
      rw [get_modify f other g hlt, hp]
    · rw [get_modify_other f id other g h]

end Forest

/-- What a parse is measured against: the network with its levels, the conditions that held, and the
loop and the zones of each left-recursive rule. -/
structure Guide where
  network : Network
  levels : RuleId → Int → Prop
  held : InvocationId → Conditions
  loop : RuleId → StateId
  zone : RuleId → StateId → Zone

/-- The network has the shapes that the guide gives. -/
structure Guide.Fits (G : Guide) : Prop extends G.network.Shaped G.levels where
  loops : ∀ r, r < G.network.rules.size → (G.network.rule r).leftRecursive = true →
    LoopShape G.network.state r (G.network.rule r) (G.levels r) (G.loop r) (G.zone r)

/-- A live invocation, and the state it stands at: where the parse is, or where it made a call. -/
structure Station where
  id : InvocationId
  state : StateId

section

variable (G : Guide) (f : Forest)

/-- An invocation has come to a state with these children. -/
abbrev Guide.At (id : InvocationId) (s : StateId) (children : List Child) : Prop :=
  Underway G.network f (G.held id) (G.levels (f.get id).rule) (f.get id).rule (f.get id).precedence
    (G.loop (f.get id).rule) (G.zone (f.get id).rule) s children

/-- The invocation is of a left-recursive rule. -/
def Guide.recursive (id : InvocationId) : Bool := (G.network.rule (f.get id).rule).leftRecursive

/-- A live invocation stands at its state with its children, but for the one that the call it waits for
has added already. -/
structure Standing (done : List InvocationId) (pending : List Child) (a : Station) : Prop where
  lt : a.id < f.size
  rule_lt : (f.get a.id).rule < G.network.rules.size
  state_rule : (G.network.state a.state).rule = (f.get a.id).rule
  way : ∃ children, (f.get a.id).children.toList = children ++ pending ∧
    (∀ child, .rule child ∈ children → child ∈ done) ∧ G.At f a.id a.state children

/-- The invocation was called from where the next one stands, or from nowhere. -/
def Called (id : InvocationId) : Option Station → Prop
  | none => (f.get id).parent = none ∧ (f.get id).caller = none
  | some b => (f.get id).parent = some b.id ∧ (f.get id).caller = some b.state ∧
    ∃ t ∈ (G.network.state b.state).transitions, ∃ follow precedence,
      t.kind = .rule (f.get id).rule follow precedence ∧
        AnswersCall G.network f (f.get id).rule precedence id

/-- Live invocations, the innermost first. One of an ordinary rule is a child of the next one
already. -/
def Live (done : List InvocationId) : List Child → List Station → Prop
  | _, [] => True
  | pending, a :: rest => Standing G f done pending a ∧ Called G f a.id rest.head? ∧
    Live done (if G.recursive f a.id then [] else [.rule a.id]) rest

/-- Live and finished invocations. -/
structure Grown (stations : List Station) (done : List InvocationId) : Prop where
  live : Live G f done [] stations
  finished : Finished G.network G.levels f G.held done
  distinct : (stations.map Station.id ++ done).Nodup
  done_lt : ∀ id ∈ done, id < f.size

end

variable {G : Guide} {f f' : Forest} {done : List InvocationId} {pending : List Child}
  {stations rest : List Station} {a b : Station} {id : InvocationId} {s : StateId} {t : Transition}
  {children added : List Child} {more : List Int}

theorem AnswersCall.rule_eq {n : Network} {r : RuleId} {precedence : Int}
    (h : AnswersCall n f r precedence id) : (f.get id).rule = r := h.rule

theorem Guide.At.extends (h : G.At f id s children) (he : f.Extends f') (hlt : id < f.size) :
    G.At f' id s children := by
  unfold Guide.At
  rw [he.rule id hlt, he.precedence id hlt]
  exact Underway.extends h he

theorem Standing.extends (h : Standing G f done pending a) (he : f.Extends f')
    (hsame : (f'.get a.id).children = (f.get a.id).children) {done' : List InvocationId}
    (hdone : ∀ id ∈ done, id ∈ done') : Standing G f' done' pending a := by
  obtain ⟨children, hc, hd, hway⟩ := h.way
  have hr := he.rule a.id h.lt
  refine ⟨Nat.lt_of_lt_of_le h.lt he.size, ?_, ?_, children, ?_, ?_, hway.extends he h.lt⟩
  · rw [hr]
    exact h.rule_lt
  · rw [hr]
    exact h.state_rule
  · rw [hsame]
    exact hc
  · exact fun child hchild => hdone child (hd child hchild)

theorem Called.extends {next : Option Station} (h : Called G f id next) (he : f.Extends f')
    (hlt : id < f.size) (hparent : (f'.get id).parent = (f.get id).parent)
    (hcaller : (f'.get id).caller = (f.get id).caller) : Called G f' id next := by
  cases next with
  | none =>
    unfold Called
    rw [hparent, hcaller]
    exact h
  | some b =>
    obtain ⟨h₁, h₂, t, ht, follow, precedence, hk, ha⟩ := h
    unfold Called
    rw [hparent, hcaller, he.rule id hlt]
    exact ⟨h₁, h₂, t, ht, follow, precedence, hk, ha.extends he⟩

theorem Live.lt (h : Live G f done pending stations) : ∀ a ∈ stations, a.id < f.size := by
  induction stations generalizing pending with
  | nil =>
    intro a ha
    cases ha
  | cons b rest ih =>
    obtain ⟨hs, -, hrest⟩ := h
    intro a ha
    rcases List.mem_cons.1 ha with rfl | ha
    · exact hs.lt
    · exact ih hrest a ha

/-- Live invocations stay as they are if nothing is done to them. -/
theorem Live.extends (h : Live G f done pending stations) (he : f.Extends f')
    (hsame : ∀ a ∈ stations, f'.get a.id = f.get a.id) {done' : List InvocationId}
    (hdone : ∀ id ∈ done, id ∈ done') : Live G f' done' pending stations := by
  induction stations generalizing pending with
  | nil => trivial
  | cons a rest ih =>
    obtain ⟨hs, hc, hrest⟩ := h
    have ha := hsame a (.head _)
    refine ⟨hs.extends he (by rw [ha]) hdone, hc.extends he hs.lt (by rw [ha]) (by rw [ha]), ?_⟩
    unfold Guide.recursive
    rw [ha]
    exact ih hrest fun b hb => hsame b (.tail _ hb)

theorem Grown.lt (h : Grown G f stations done) : ∀ a ∈ stations, a.id < f.size := h.live.lt

/-- An invocation that is not the innermost one differs from it, and so does a finished one. -/
theorem Grown.ne_innermost (h : Grown G f (a :: rest) done) :
    (∀ b ∈ rest, b.id ≠ a.id) ∧ ∀ id ∈ done, id ≠ a.id := by
  have hd := h.distinct
  rw [List.map_cons, List.cons_append, List.nodup_cons] at hd
  obtain ⟨hnot, -⟩ := hd
  refine ⟨?_, ?_⟩
  · intro b hb he
    exact hnot (List.mem_append_left _ (he ▸ List.mem_map_of_mem hb))
  · intro id hid he
    exact hnot (List.mem_append_right _ (he ▸ hid))

/-- Only the innermost invocation is touched, and its rule, its floor and its call stay. -/
structure Touches (f f' : Forest) (id : InvocationId) : Prop extends f.Extends f' where
  size_eq : f'.size = f.size
  other : ∀ other, other ≠ id → f'.get other = f.get other
  parent : (f'.get id).parent = (f.get id).parent
  caller : (f'.get id).caller = (f.get id).caller

/-- The innermost invocation takes an edge. -/
theorem Grown.advance (hG : G.Fits) (h : Grown G f (a :: rest) done) (ht : Touches f f' a.id)
    (hchildren : (f'.get a.id).children.toList = (f.get a.id).children.toList ++ added)
    (hedge : t ∈ (G.network.state a.state).transitions)
    (hadded : ∀ child, .rule child ∉ added)
    (hcross : Crosses G.network f (G.held a.id) a.state t (f.get a.id).children.toList added more)
    (hround : (G.network.state a.state).precedenceDecision = true → t.kind = .epsilon →
      (G.network.state t.target).kind = .loopEnd)
    (hfloor : ∀ level ∈ more, (f.get a.id).precedence ≤ level) :
    Grown G f' ({ a with state := t.next } :: rest) done := by
  obtain ⟨hne, hne'⟩ := h.ne_innermost
  obtain ⟨hs, hc, hrest⟩ := h.live
  have he := ht.toExtends
  have hrule := he.rule a.id hs.lt
  obtain ⟨children, hway, hd, hat⟩ := hs.way
  rw [List.append_nil] at hway
  rw [hway] at hcross hchildren
  have hshape := hG.rule _ hs.rule_lt
  have hstep := Underway.step hshape (hG.loops _ hs.rule_lt) hs.state_rule hat hedge hcross hround
    hfloor
  refine ⟨⟨⟨?_, ?_, ?_, children ++ added, ?_, ?_, ?_⟩, ?_, ?_⟩, ?_, h.distinct, ?_⟩
  · rw [ht.size_eq]
    exact hs.lt
  · rw [hrule]
    exact hs.rule_lt
  · rw [hrule]
    exact (hshape.next a.state hs.state_rule t hedge).2
  · rw [hchildren, List.append_nil]
  · intro child hchild
    rcases List.mem_append.1 hchild with hchild | hchild
    · exact hd child hchild
    · exact absurd hchild (hadded child)
  · exact Guide.At.extends hstep he hs.lt
  · exact hc.extends he hs.lt ht.parent ht.caller
  · unfold Guide.recursive
    rw [hrule]
    exact hrest.extends he (fun b hb => ht.other b.id (hne b hb)) fun _ h => h
  · refine h.finished.extends he h.done_lt fun id hid => ?_
    rw [ht.other id (hne' id hid)]
  · intro id hid
    rw [ht.size_eq]
    exact h.done_lt id hid

/-- The innermost invocation is complete and begins another round: a new one takes its place, with it as
the first child. -/
theorem Grown.round (hG : G.Fits) (h : Grown G f (a :: rest) done) (he : f.Extends f')
    (hsize : f'.size = f.size + 1)
    (hother : ∀ other, other < f.size → other ≠ a.id → f'.get other = f.get other)
    (hold : (f'.get a.id).children = (f.get a.id).children)
    (hrule : (f'.get f.size).rule = (f.get a.id).rule)
    (hfloor : (f'.get f.size).precedence = (f.get a.id).precedence)
    (hchildren : (f'.get f.size).children = #[.rule a.id])
    (hparent : (f'.get f.size).parent = (f.get a.id).parent)
    (hcaller : (f'.get f.size).caller = (f.get a.id).caller)
    (hmark : (G.network.state a.state).precedenceDecision = true)
    (hedge : t ∈ (G.network.state a.state).transitions) (hk : t.kind = .epsilon)
    (hloop : (G.network.state t.target).kind ≠ .loopEnd) :
    Grown G f' (⟨f.size, t.target⟩ :: rest) (a.id :: done) := by
  obtain ⟨hne, hne'⟩ := h.ne_innermost
  obtain ⟨hs, hc, hrest⟩ := h.live
  obtain ⟨children, hway, hd, hat⟩ := hs.way
  rw [List.append_nil] at hway
  have hshape := hG.rule _ hs.rule_lt
  have hloops := hG.loops _ hs.rule_lt
  -- only the loop of a left-recursive rule is marked
  have hrec : (G.network.rule (f.get a.id).rule).leftRecursive = true := by
    by_contra hf
    have := (hshape.plain (by simpa using hf)).unmarked a.state hs.state_rule
    rw [hmark] at this
    cases this
  have hz := hloops hrec
  have hstate : a.state = G.loop (f.get a.id).rule := hz.loop_only a.state hs.state_rule hmark
  rw [hstate] at hat hedge
  have hcomplete := Underway.complete hloops hrec hat
  have hnext : t.next = t.target := by simp [Transition.next, hk]
  obtain ⟨-, hzone⟩ := hz.rounds t hedge
  rw [if_neg hloop] at hzone
  have hlt : a.id < f'.size := by
    rw [hsize]
    exact Nat.lt_succ_of_lt hs.lt
  have hrule_a := he.rule a.id hs.lt
  have hprec_a := he.precedence a.id hs.lt
  have hnew : f.size < f'.size := by
    rw [hsize]
    exact Nat.lt_succ_self _
  refine ⟨⟨⟨hnew, ?_, ?_, [.rule a.id], ?_, ?_, ?_⟩, ?_, ?_⟩, ?_, ?_, ?_⟩
  · rw [hrule]
    exact hs.rule_lt
  · rw [hrule, ← hnext]
    exact (hshape.next _ hz.loop_rule t hedge).2
  · rw [hchildren]
    rfl
  · intro child hchild
    cases List.mem_singleton.1 hchild
    exact .head _
  · unfold Guide.At
    rw [hrule, hfloor]
    have hfree : Spells G.network f' (fun children => G.held f.size (.rule a.id :: children))
        (G.loop (f.get a.id).rule) t.next [] [] := .step .refl hedge (.free (.inl hk))
    rw [hnext] at hfree
    exact .guard hrec hzone rfl hlt hrule_a hprec_a hfree
  · cases hnext : rest.head? with
    | none =>
      rw [hnext] at hc
      unfold Called
      rw [hparent, hcaller]
      exact hc
    | some b =>
      rw [hnext] at hc
      obtain ⟨h₁, h₂, t', ht', follow, precedence, hk', ha⟩ := hc
      unfold Called
      rw [hparent, hcaller, hrule]
      refine ⟨h₁, h₂, t', ht', follow, precedence, hk', hnew, hrule, ?_⟩
      rw [hfloor, ha.precedence]
  · have hpending : (if G.recursive f' f.size then [] else [Child.rule f.size]) =
        if G.recursive f a.id then [] else [.rule a.id] := by
      unfold Guide.recursive
      rw [hrule, hrec]
      rfl
    rw [hpending]
    exact hrest.extends he (fun b hb => hother b.id (h.lt b (.tail _ hb)) (hne b hb))
      fun id hid => .tail _ hid
  · refine .cons ?_ ?_ (h.finished.extends he h.done_lt fun id hid => ?_)
    · rw [hrule_a, hprec_a, hold, hway]
      exact hcomplete.extends he
    · rw [hold, hway]
      exact hd
    · rw [hother id (h.done_lt id hid) (hne' id hid)]
  · have hd := h.distinct
    rw [List.map_cons, List.cons_append, List.nodup_cons] at hd ⊢
    obtain ⟨hnot, hnodup⟩ := hd
    refine ⟨?_, ?_⟩
    · intro hmem
      rcases List.mem_append.1 hmem with hmem | hmem
      · obtain ⟨b, hb, he⟩ := List.mem_map.1 hmem
        have := h.lt b (.tail _ hb)
        lia
      · rcases List.mem_cons.1 hmem with he | hmem
        · have := hs.lt
          simp only at he
          lia
        · have := h.done_lt _ hmem
          simp only at this
          lia
    · exact (List.perm_middle.nodup_iff).2 (List.nodup_cons.2 ⟨hnot, hnodup⟩)
  · intro id hid
    rcases List.mem_cons.1 hid with rfl | hid
    · exact hlt
    · have := h.done_lt id hid
      lia

/-- A call opens a new invocation. One of an ordinary rule becomes a child of its caller at once. -/
theorem Grown.enter {r : RuleId} {precedence : Int} (hG : G.Fits) (h : Grown G f stations done)
    (he : f.Extends f') (hr : r < G.network.rules.size) (hsize : f'.size = f.size + 1)
    (hrule : (f'.get f.size).rule = r)
    (hfloor : (f'.get f.size).precedence =
      if (G.network.rule r).leftRecursive then precedence else 0)
    (hchildren : (f'.get f.size).children = #[])
    (hparent : (f'.get f.size).parent = stations.head?.map Station.id)
    (hcaller : (f'.get f.size).caller = stations.head?.map Station.state)
    (hcall : ∀ a, stations.head? = some a → ∃ t ∈ (G.network.state a.state).transitions,
      ∃ follow, t.kind = .rule r follow precedence)
    (hother : ∀ other, other < f.size →
      (∀ a, stations.head? = some a → other ≠ a.id) → f'.get other = f.get other)
    (htop : ∀ a, stations.head? = some a →
      (f'.get a.id).parent = (f.get a.id).parent ∧ (f'.get a.id).caller = (f.get a.id).caller ∧
      (f'.get a.id).children.toList = (f.get a.id).children.toList ++
        if (G.network.rule r).leftRecursive then [] else [.rule f.size]) :
    Grown G f' (⟨f.size, (G.network.rule r).start⟩ :: stations) done := by
  have hshape := hG.rule r hr
  have hnew : f.size < f'.size := by
    rw [hsize]
    exact Nat.lt_succ_self _
  have hanswers : AnswersCall G.network f' r precedence f.size := ⟨hnew, hrule, hfloor⟩
  refine ⟨⟨⟨hnew, ?_, ?_, [], ?_, ?_, ?_⟩, ?_, ?_⟩, ?_, ?_, ?_⟩
  · rw [hrule]
    exact hr
  · rw [hrule]
    exact hshape.start_rule
  · rw [hchildren]
    rfl
  · intro child hchild
    cases hchild
  · unfold Guide.At
    rw [hrule]
    exact Underway.start (hG.loops r hr)
  · cases hhead : stations.head? with
    | none =>
      unfold Called
      rw [hparent, hcaller, hhead]
      exact ⟨rfl, rfl⟩
    | some a =>
      obtain ⟨t, ht, follow, hk⟩ := hcall a hhead
      unfold Called
      rw [hparent, hcaller, hhead, hrule]
      exact ⟨rfl, rfl, t, ht, follow, precedence, hk, hanswers⟩
  · unfold Guide.recursive
    rw [hrule]
    cases stations with
    | nil => trivial
    | cons a rest =>
      obtain ⟨hne, -⟩ := h.ne_innermost
      obtain ⟨hs, hc, hrest⟩ := h.live
      obtain ⟨hp, hcl, hch⟩ := htop a rfl
      obtain ⟨children, hway, hd, hat⟩ := hs.way
      have hrule_a := he.rule a.id hs.lt
      refine ⟨⟨?_, ?_, ?_, children, ?_, hd, hat.extends he hs.lt⟩, hc.extends he hs.lt hp hcl, ?_⟩
      · have := hs.lt
        lia
      · rw [hrule_a]
        exact hs.rule_lt
      · rw [hrule_a]
        exact hs.state_rule
      · rw [hch, hway, List.append_nil]
      · unfold Guide.recursive
        rw [hrule_a]
        refine hrest.extends he (fun b hb => hother b.id (h.lt b (.tail _ hb)) ?_) fun _ h => h
        intro a' ha'
        cases ha'
        exact hne b hb
  · refine h.finished.extends he h.done_lt fun id hid => ?_
    rw [hother id (h.done_lt id hid)]
    intro a ha
    cases stations with
    | nil => cases ha
    | cons b rest =>
      cases ha
      exact h.ne_innermost.2 id hid
  · rw [List.map_cons, List.cons_append, List.nodup_cons]
    refine ⟨?_, h.distinct⟩
    intro hmem
    rcases List.mem_append.1 hmem with hmem | hmem
    · obtain ⟨b, hb, he⟩ := List.mem_map.1 hmem
      have := h.lt b hb
      lia
    · have := h.done_lt _ hmem
      simp only at this
      lia
  · intro id hid
    have := h.done_lt id hid
    lia

/-- The innermost invocation is complete and returns to the one that called it. -/
theorem Grown.leave {follow : StateId} (hG : G.Fits) (h : Grown G f (a :: b :: rest) done)
    (hstop : (G.network.state a.state).isRuleStop = true) (he : f.Extends f')
    (hsize : f'.size = f.size)
    (hother : ∀ other, other ≠ a.id → other ≠ b.id → f'.get other = f.get other)
    (hinner : (f'.get a.id).children = (f.get a.id).children)
    (hparent : (f'.get b.id).parent = (f.get b.id).parent)
    (hcaller : (f'.get b.id).caller = (f.get b.id).caller)
    (hchildren : (f'.get b.id).children.toList = (f.get b.id).children.toList ++
      if G.recursive f a.id then [.rule a.id] else [])
    (hfollow : G.network.followOf? b.state = some follow) :
    Grown G f' ({ b with state := follow } :: rest) (a.id :: done) := by
  obtain ⟨hne, hne'⟩ := h.ne_innermost
  obtain ⟨hs, hc, hsb, hcb, hrest⟩ := h.live
  obtain ⟨children, hway, hd, hat⟩ := hs.way
  rw [List.append_nil] at hway
  have hshape := hG.rule _ hs.rule_lt
  have hkind : (G.network.state a.state).kind = .ruleStop := by
    simpa [NetworkState.isRuleStop] using hstop
  have hstate := hshape.stop_only a.state hs.state_rule hkind
  rw [hstate] at hat
  have hcomplete := Underway.stop (hG.loops _ hs.rule_lt) hat
  have hrule_a := he.rule a.id hs.lt
  have hrule_b := he.rule b.id hsb.lt
  -- the call is the only edge of its state, so it returns to where the parse goes on
  obtain ⟨-, -, t, ht, follow', precedence, hk, ha⟩ := hc
  have hfollow' : follow' = follow :=
    Option.some.inj ((hG.followOf?_eq ht hk).symm.trans hfollow)
  have hnext : t.next = follow := by simp [Transition.next, hk, hfollow']
  obtain ⟨outer, hwayb, hdb, hatb⟩ := hsb.way
  have hshape_b := hG.rule _ hsb.rule_lt
  have hcross : Crosses G.network f (G.held b.id) b.state t outer [.rule a.id] [] := .call hk ha
  have hstep := Underway.step hshape_b (hG.loops _ hsb.rule_lt) hsb.state_rule hatb ht hcross
    (by
      intro _ hk'
      rw [hk] at hk'
      cases hk')
    (by
      intro level hl
      cases hl)
  rw [hnext] at hstep
  have hdistinct := h.distinct
  simp only [List.map_cons, List.cons_append] at hdistinct
  have hab : a.id ≠ b.id := fun he => hne b (.head _) he.symm
  have hotherb : ∀ c ∈ rest, c.id ≠ b.id := by
    intro c hcr he
    have hb := (List.nodup_cons.1 (List.nodup_cons.1 hdistinct).2).1
    exact hb (List.mem_append_left _ (he ▸ List.mem_map_of_mem hcr))
  have hdoneb : ∀ id ∈ done, id ≠ b.id := by
    intro id hid he
    have hb := (List.nodup_cons.1 (List.nodup_cons.1 hdistinct).2).1
    exact hb (List.mem_append_right _ (he ▸ hid))
  refine ⟨⟨⟨?_, ?_, ?_, outer ++ [.rule a.id], ?_, ?_, ?_⟩, ?_, ?_⟩,
    ?_, ?_, ?_⟩
  · rw [hsize]
    exact hsb.lt
  · rw [hrule_b]
    exact hsb.rule_lt
  · rw [hrule_b, ← hnext]
    exact (hshape_b.next b.state hsb.state_rule t ht).2
  · rw [hchildren, hwayb, List.append_nil, List.append_assoc]
    cases G.recursive f a.id <;> rfl
  · intro child hchild
    rcases List.mem_append.1 hchild with hchild | hchild
    · exact .tail _ (hdb child hchild)
    · cases List.mem_singleton.1 hchild
      exact .head _
  · exact Guide.At.extends hstep he hsb.lt
  · exact hcb.extends he hsb.lt hparent hcaller
  · unfold Guide.recursive
    rw [hrule_b]
    refine hrest.extends he (fun c hcr => ?_) fun id hid => .tail _ hid
    exact hother c.id (hne c (.tail _ hcr)) (hotherb c hcr)
  · refine .cons ?_ ?_ (h.finished.extends he h.done_lt fun id hid => ?_)
    · rw [hrule_a, he.precedence a.id hs.lt, hinner, hway]
      exact hcomplete.extends he
    · rw [hinner, hway]
      exact hd
    · rw [hother id (hne' id hid) (hdoneb id hid)]
  · exact List.perm_middle.nodup_iff.2 hdistinct
  · intro id hid
    rw [hsize]
    rcases List.mem_cons.1 hid with rfl | hid
    · exact hs.lt
    · exact h.done_lt id hid

end AdaptiveParsing
