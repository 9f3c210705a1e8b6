import AdaptiveParsing.Proofs.Recognition.Bookkeeping
import AdaptiveParsing.Proofs.Recognition.Boundaries
import AdaptiveParsing.Proofs.Recognition.Course
/-!
Where a parse stands, with errors or without, and whether or not tokens become children. The recognizer is
located at its live invocations (`Tracked.located`), a step without a report is a move of their place
(`Tracked.moves_of_goes`), and where an invocation returns to stays the same for good
(`Tracked.homeward`), also once it is finished.
-/

namespace AdaptiveParsing

open AdaptiveParsing.Parser Relation

variable {env : Setting} {G : Guide} {f f' : Forest} {rule : RuleId} {root : InvocationId}
  {first : TokenCursor} {i i' : Interpreter} {a b : Station} {stations rest : List Station}
  {done : List InvocationId} {w : List Token} {pending : List Child} {p p' : Parser} {t : Transition}

theorem Threads.linked (h : Threads G f done pending stations w) : Linked G f stations := by
  induction stations generalizing pending w with
  | nil => trivial
  | cons a rest ih =>
    obtain ⟨_, _, -, hs, hc, hrest⟩ := h
    exact ⟨hs.rule_lt, hs.state_rule, hc, ih hrest⟩

theorem Tracked.located (h : Tracked env G rule root first i (a :: rest) done w)
    (hc : Counted env G ⟨i, a :: rest, done, w⟩) : Located G rule root i a rest :=
  ⟨h.woven.threads.linked, h.woven.lt, h.invocation, h.state, hc.floors, h.outermost⟩

theorem Tracked.inside (hG : G.Fits) (hn : G.network.Checked)
    (h : Tracked env G rule root first i (a :: rest) done w) :
    G.network.Inside rule (G.place i.recognizer.forest a rest) :=
  h.woven.threads.linked.inside hG hn h.outermost

theorem Guide.place_extends (he : f.Extends f') (ha : a.id < f.size)
    (hlt : ∀ b ∈ rest, b.id < f.size) : G.place f' a rest = G.place f a rest := by
  unfold Guide.place
  rw [he.precedence a.id ha, G.map_frame_extends he hlt]

theorem Network.Alike.of_eq {n : Network} {x y : Place} (h : y = x) : n.Alike x y := by
  rw [h]
  exact .refl x

/-- Deeds leave the live invocations where they are. -/
theorem Tracked.deeds (hnet : env.network = G.network)
    (hindex : ∀ t ∈ first.tokens, t.isConjured = false)
    (h : Tracked env G rule root first i (a :: rest) done w)
    (hc : Counted env G ⟨i, a :: rest, done, w⟩) (hd : Deeds env i.parser p) :
    ∃ w', Tracked env G rule root first { i with parser := p } (a :: rest) done w' ∧
      Counted env G ⟨{ i with parser := p }, a :: rest, done, w'⟩ ∧
      i.recognizer.forest.Extends p.recognizer.forest := by
  induction hd with
  | refl => exact ⟨w, h, hc, .refl _⟩
  | tail _ hd ih =>
    obtain ⟨w', h', hc', he⟩ := ih
    obtain ⟨added, hg, hadded, hp, h''⟩ := h'.deed hindex hd
    exact ⟨_, h'', hc'.shift hnet h' h'' (.deed hd hg hadded hp), he.trans hg.toExtends⟩

/-- A later round has the floor of the invocation that it takes the place of. -/
theorem Forest.extends_pushRound {id : InvocationId} (hlt : id < f.size) (rule : RuleId) (s : StateId)
    (stop : Option Nat) : f.Extends (f.pushRound rule id s stop) ∧
      ((f.pushRound rule id s stop).get f.size).precedence = (f.get id).precedence := by
  obtain ⟨he, -, hnew, -, -⟩ := Forest.alloc_modify hlt (f.nextRound rule id)
    (g := Invocation.handOver stop f.size s) (fun _ => rfl) fun _ => rfl
  refine ⟨he, ?_⟩
  unfold Forest.pushRound
  rw [hnew]
  rfl

/-- Without a report, following an edge is a move along the edge. -/
theorem Tracked.moves_followEdge (hG : G.Fits) (hnet : env.network = G.network)
    (hindex : ∀ t ∈ first.tokens, t.isConjured = false) (hfree : G.network.PredicateFree)
    (h : Tracked env G rule root first i (a :: rest) done w)
    (hc : Counted env G ⟨i, a :: rest, done, w⟩)
    (hle : TokenType.firstUser ≤ i.recognizer.input.kind →
      i.recognizer.input.kind ≤ G.network.maxType)
    (ht : t ∈ (G.network.state a.state).transitions) (htidy : i.parser.Tidy)
    (hf : i.followEdge env (G.network.state a.state) t = (.ok (), i')) (hs : i'.parser.Silent) :
    ∃ a' rest' done' w', Tracked env G rule root first i' (a' :: rest') done' w' ∧
      Counted env G ⟨i', a' :: rest', done', w'⟩ ∧
      G.network.Moves (G.network.Via t (G.place i.recognizer.forest a rest))
        (G.place i'.recognizer.forest a' rest') i.recognizer.input i'.recognizer.input := by
  have hlocated := h.located hc
  obtain ⟨hrule_lt, hstate, -⟩ := hlocated.linked
  have hrest_lt : ∀ b ∈ rest, b.id < i.recognizer.forest.size := fun b hb =>
    hlocated.lt b (.tail _ hb)
  rcases Interpreter.followEdge_eq_ok hf with ⟨c, follow, precedence, id, j, hk, he, rfl⟩ |
    ⟨hcall, p, hp, rfl⟩
  · obtain ⟨hrule, htarget⟩ := hG.call a.state t ht c follow precedence hk
    have h' := h.enter hG hnet hrule he
      (by
        rintro _ ⟨⟩
        exact ⟨t, ht, follow, hk⟩)
      (by rintro ⟨⟩)
    have hc' := hc.shift hnet h h' (.enter hrule ht hk he)
    obtain ⟨q, hvia, hlike⟩ := hlocated.via_enter hG hnet ht hk (Interpreter.enters_of_enter he)
    have hside := (@Interpreter.onlyTree_enter env i c precedence).1
    rw [he] at hside
    rw [htarget, Interpreter.goTo_of_state h'.state]
    exact ⟨_, _, done, w, h', hc', [], q, hvia, hlike, .inl ⟨rfl, hside.input⟩⟩
  · obtain ⟨hadmits, hinput, -⟩ := Interpreter.passEdge_eq_ok htidy hp hs
    have hinput : p.recognizer.input =
        if t.isConsuming then i.recognizer.input.consume else i.recognizer.input := hinput
    have hvia := hlocated.via_admitted hG hnet hle ht (hadmits hcall) (hfree.isPredicate ht)
    have hnext := ((hG.rule _ hrule_lt).next a.state hstate t ht).2
    rw [Transition.next_eq_target hcall, ← hstate] at hnext
    have hword : t.word i.recognizer.input.kind = [] ∧
        p.recognizer.input = i.recognizer.input ∨
          t.word i.recognizer.input.kind = [i.recognizer.input.kind] ∧
            p.recognizer.input = i.recognizer.input.consume := by
      unfold Transition.word
      rw [hinput]
      split
      · exact .inr ⟨rfl, rfl⟩
      · exact .inl ⟨rfl, rfl⟩
    rcases @Interpreter.deeds_passEdge env (G.network.state a.state) t i.parser with hd | ⟨hmark, heq⟩
    · rw [hp] at hd
      obtain ⟨w', h', hc', hext⟩ := h.deeds hnet hindex hc hd
      have h'' := h'.goTo hnext
      refine ⟨_, _, _, _, h'', hc'.shift hnet h' h'' (.goTo hnext), _, _, hvia, ?_, hword⟩
      have hplace := G.place_extends (a := ⟨a.id, t.target⟩) hext (hlocated.lt a (.head _)) hrest_lt
      exact .of_eq hplace.symm
    · -- a later round of the innermost invocation has its floor
      rw [hp] at heq
      obtain rfl := (Prod.mk.inj heq).2
      have h' := h.round (s := (env.network.rule (G.network.state a.state).rule).start) hG hmark
      have hc' := hc.shift hnet h h' (.round hmark)
      have h'' := h'.goTo hnext
      refine ⟨_, _, _, _, h'', hc'.shift hnet h' h'' (.goTo hnext), _, _, hvia, ?_, hword⟩
      obtain ⟨hext, hfloor⟩ := Forest.extends_pushRound (hlocated.lt a (.head _))
        (G.network.state a.state).rule (env.network.rule (G.network.state a.state).rule).start
        i.recognizer.input.previousIndex
      have hplace : G.place (i.recognizer.forest.pushRound (G.network.state a.state).rule a.id
          (env.network.rule (G.network.state a.state).rule).start i.recognizer.input.previousIndex)
          ⟨i.recognizer.forest.size, t.target⟩ rest =
            { G.place i.recognizer.forest a rest with state := t.target } := by
        unfold Guide.place
        rw [hfloor, G.map_frame_extends hext hrest_lt]
      have hforest : (i.recognizer.pushRecursion
          (env.network.rule (G.network.state a.state).rule).start (G.network.state a.state).rule).2.forest =
            i.recognizer.forest.pushRound (G.network.state a.state).rule a.id
              (env.network.rule (G.network.state a.state).rule).start
              i.recognizer.input.previousIndex := by
        rw [Recognizer.pushRecursion_eq _ _ h.invocation]
      rw [← hforest] at hplace
      exact .of_eq hplace.symm

/-- Without a report, a step is a move of the place. -/
theorem Tracked.moves_of_goes (hG : G.Fits) (hnet : env.network = G.network)
    (hindex : ∀ t ∈ first.tokens, t.isConjured = false) (hfree : G.network.PredicateFree)
    (h : Tracked env G rule root first i (a :: rest) done w)
    (hc : Counted env G ⟨i, a :: rest, done, w⟩)
    (hle : TokenType.firstUser ≤ i.recognizer.input.kind →
      i.recognizer.input.kind ≤ G.network.maxType)
    (htidy : i.parser.Tidy) (hgo : i.Goes env i') (hs : i'.parser.Silent) :
    ∃ a' rest' done' w', Tracked env G rule root first i' (a' :: rest') done' w' ∧
      Counted env G ⟨i', a' :: rest', done', w'⟩ ∧
      G.network.Moves (G.network.Step (G.place i.recognizer.forest a rest))
        (G.place i'.recognizer.forest a' rest') i.recognizer.input i'.recognizer.input := by
  obtain ⟨s, hstate, ⟨hstop, hout, rfl⟩ | ⟨hstop, hv⟩⟩ := hgo
  · obtain ⟨rfl, b, outer, follow, rfl, hfollow, h'⟩ := h.returns hG hnet hstate hout
    rw [hnet] at hstop ⊢
    obtain ⟨_, _, -, hst, ⟨hparent, hcaller, -⟩, -⟩ := h.woven.threads
    obtain ⟨hl, -, -⟩ := Interpreter.leaves_leaveRule hnet hst.lt (h.woven.lt b (.tail _ (.head _)))
      (h.woven.ne_innermost.1 b (.head _)) hst.state_rule hparent hcaller h.invocation h.callers
    have hinput := (@Interpreter.onlyTree_leaveRule env i (G.network.state a.state).rule).1.input
    exact ⟨_, _, _, _, h', hc.leave hnet h, [], _,
      (h.located hc).step_leave hstop hfollow hl.extends_forest, .refl _, .inl ⟨rfl, hinput⟩⟩
  · obtain rfl : s = a.state := Option.some.inj (hstate.symm.trans h.state)
    obtain ⟨alt, p, t, hch, hedge, hf, hp, htidy', hsame⟩ := Interpreter.visit_eq_ok htidy hv hs
    have hd := @Interpreter.deeds_chooseEdge env (env.network.state a.state) i.parser
    rw [hch] at hd
    have hinput := Interpreter.input_chooseEdge htidy h.stopped hch hp
    obtain ⟨w', h', hc', -⟩ := h.deeds hnet hindex hc hd
    rw [hnet] at hedge hf
    have hle' : TokenType.firstUser ≤ p.recognizer.input.kind →
        p.recognizer.input.kind ≤ G.network.maxType := by
      rw [hinput]
      exact hle
    obtain ⟨a', rest', done', w'', h'', hc'', hm⟩ := h'.moves_followEdge hG hnet hindex hfree hc' hle'
      (List.mem_of_getElem? hedge) htidy' hf hs
    refine ⟨a', rest', done', w'', h'', hc'', ?_⟩
    have hforest : ({ i with parser := p } : Interpreter).recognizer.forest = i.recognizer.forest :=
      hsame.forest
    have hcursor : ({ i with parser := p } : Interpreter).recognizer.input = i.recognizer.input :=
      hinput
    rw [hforest, hcursor] at hm
    exact hm.imp fun _ _ hvia => hvia.step (List.mem_of_getElem? hedge)

/-- The invocation is called from within these callers: once it and they are left, the parse goes on at these
states, one after the other. -/
inductive Forest.Homeward (n : Network) (f : Forest) : Option InvocationId → List StateId → Prop
  | outside : Homeward n f none []
  | inside {id : InvocationId} {parent : Option InvocationId} {caller : Option StateId}
      {backs : List StateId} (hlt : id < f.size) (ho : (f.get id).origin = (parent, caller))
      (hend : caller = none → parent = none) (h : Homeward n f parent backs) :
      Homeward n f (some id) ((caller.bind n.followOf?).toList ++ backs)

namespace Forest

variable {n : Network} {id : Option InvocationId} {backs : List StateId}

/-- What the callers are found to be. -/
theorem Homeward.returnsFrom {r : Recognizer} (h : r.forest.Homeward env.network id backs) :
    r.returnsFrom env id = backs := by
  have hchain : ∃ ids, r.forest.Chain id ids ∧
      ((((ids.map fun id => (r.forest.get id).caller).takeWhile Option.isSome).filterMap
        fun c => c).filterMap env.network.followOf?) = backs := by
    induction h with
    | outside => exact ⟨[], .nil, rfl⟩
    | @inside id parent caller backs _ ho hend h ih =>
      obtain ⟨ids, hids, hbacks⟩ := ih
      obtain ⟨hparent, hcaller⟩ := Prod.mk.inj ho
      refine ⟨id :: ids, .cons ?_, ?_⟩
      · rw [hparent]
        exact hids
      · cases caller with
        | none =>
          obtain rfl := hend rfl
          cases h
          rw [List.map_cons, hcaller]
          rfl
        | some c =>
          rw [List.map_cons, hcaller, ← hbacks]
          cases hc : env.network.followOf? c <;> simp [hc]
  obtain ⟨ids, hids, hbacks⟩ := hchain
  unfold Recognizer.returnsFrom
  cases hids with
  | nil => exact hbacks
  | cons hids =>
    dsimp only
    rw [(Chain.cons hids).ancestors]
    exact hbacks

/-- The callers stay the same while invocations are called from where they were. -/
theorem Homeward.keep (h : f.Homeward n id backs) (hsize : f.size ≤ f'.size)
    (hkeep : ∀ id < f.size, (f'.get id).origin = (f.get id).origin) : f'.Homeward n id backs := by
  induction h with
  | outside => exact .outside
  | inside hlt ho hend _ ih =>
    exact .inside (Nat.lt_of_lt_of_le hlt hsize) ((hkeep _ hlt).trans ho) hend ih

/-- And when another round takes the place of one of them: that is called from the same place, and from a
state that is nobody's return. -/
theorem Homeward.pushRound {last : InvocationId} {s : StateId} (h : f.Homeward n id backs)
    (hlt : last < f.size) (rule : RuleId) (stop : Option Nat) (hs : n.followOf? s = none) :
    (f.pushRound rule last s stop).Homeward n id backs := by
  obtain ⟨-, hsize, hnew, hold, hother⟩ := Forest.alloc_modify hlt (f.nextRound rule last)
    (g := Invocation.handOver stop f.size s) (fun _ => rfl) fun _ => rfl
  have hgrown : f.size < (f.pushRound rule last s stop).size := hsize ▸ Nat.lt_succ_self _
  induction h with
  | outside => exact .outside
  | @inside id parent caller backs hid ho hend _ ih =>
    by_cases heq : id = last
    · subst heq
      have hround : (f.pushRound rule id s stop).Homeward n (some f.size)
          ((caller.bind n.followOf?).toList ++ backs) := by
        refine .inside ?_ ?_ hend ih
        · exact hgrown
        · unfold Forest.pushRound
          rw [hnew]
          exact ho
      have hback : (((some s).bind n.followOf?).toList ++
          ((caller.bind n.followOf?).toList ++ backs)) =
            (caller.bind n.followOf?).toList ++ backs := by
        rw [Option.bind_some, hs]
        rfl
      rw [← hback]
      refine .inside (Nat.lt_trans hid hgrown) ?_ nofun hround
      unfold Forest.pushRound
      rw [hold]
      rfl
    · refine .inside (Nat.lt_trans hid hgrown) ?_ hend ih
      unfold Forest.pushRound
      rw [hother id hid heq]
      exact ho

end Forest

/-- A live invocation is called from within those around it. -/
theorem Linked.homeward (hG : G.Fits) (h : Linked G f (a :: rest))
    (hlt : ∀ b ∈ a :: rest, b.id < f.size) :
    f.Homeward G.network (some a.id) ((rest.map (G.frame f)).map Frame.returnState) := by
  induction rest generalizing a with
  | nil =>
    obtain ⟨-, -, ⟨hparent, hcaller⟩, -⟩ := h
    have horigin : (f.get a.id).origin = (none, none) := Prod.ext hparent hcaller
    exact .inside (hlt a (.head _)) horigin (fun _ => rfl) .outside
  | cons b rest ih =>
    obtain ⟨-, -, hc, hrest⟩ := h
    obtain ⟨-, -, -, -, hfollow, -⟩ := hG.call_of_called hc
    obtain ⟨hparent, hcaller, -⟩ := hc
    have hback := ih hrest fun c hc => hlt c (.tail _ hc)
    have hhome := Forest.Homeward.inside (n := G.network) (hlt a (.head _)) (Prod.ext hparent hcaller)
      nofun hback
    rwa [Option.bind_some, hfollow] at hhome

/-- Opening an invocation leaves the others where they were called from. -/
theorem Enters.origin {c : RuleId} {precedence : Int} {id : InvocationId}
    (h : Enters env c precedence i id i') :
    i.recognizer.forest.size ≤ i'.recognizer.forest.size ∧ ∀ other < i.recognizer.forest.size,
      (i'.recognizer.forest.get other).origin = (i.recognizer.forest.get other).origin := by
  obtain ⟨node, -, -, -, -, -, -, hforest⟩ := h.forest
  have hsize := Forest.size_alloc i.recognizer.forest node
  have hsame : ∀ other < i.recognizer.forest.size,
      ((i.recognizer.forest.alloc node).2.get other).origin =
        (i.recognizer.forest.get other).origin := by
    intro other ho
    rw [Forest.get_alloc, if_neg (Nat.ne_of_lt ho)]
  rw [hforest]
  split
  · exact ⟨by omega, hsame⟩
  · split
    · exact ⟨by omega, hsame⟩
    · unfold Forest.addChild
      rw [Forest.size_modify]
      exact ⟨by omega, fun other ho => (Recognizer.origin_modify _ _ _ rfl).trans (hsame other ho)⟩

/-- So does leaving one, which stays called from where it was. -/
theorem Tracked.origin_leaveRule (hnet : env.network = G.network)
    (h : Tracked env G rule root first i (a :: b :: rest) done w) :
    let i' := i.leaveRule env (G.network.state a.state).rule
    i'.recognizer.forest.size = i.recognizer.forest.size ∧ ∀ other,
      (i'.recognizer.forest.get other).origin = (i.recognizer.forest.get other).origin := by
  obtain ⟨_, _, -, hst, ⟨hparent, -⟩, -⟩ := h.woven.threads
  have hclosed : ∀ stop other, ((i.recognizer.forest.modify a.id fun node =>
      { node with stop, parent := some b.id }).get other).origin =
        (i.recognizer.forest.get other).origin := by
    intro stop other
    exact Recognizer.origin_modify _ _ _ (Prod.ext hparent.symm rfl)
  dsimp only
  rw [Interpreter.forest_leaveRule hnet hst.state_rule h.invocation h.callers]
  split
  · unfold Forest.addChild
    rw [Forest.size_modify, Forest.size_modify]
    exact ⟨rfl, fun other => (Recognizer.origin_modify _ _ _ rfl).trans (hclosed _ other)⟩
  · rw [Forest.size_modify]
    exact ⟨rfl, fun other => Recognizer.origin_modify _ _ _ rfl⟩

/-- Where a parse goes on once an invocation is left stays the same, also when it is finished. -/
theorem Tracked.homeward (hG : G.Fits) (hnet : env.network = G.network)
    (hindex : ∀ t ∈ first.tokens, t.isConjured = false)
    (hstart : ∀ r < G.network.rules.size, G.network.followOf? (G.network.rule r).start = none)
    (h : Tracked env G rule root first i (a :: rest) done w) (ht : Interpreter.Turns env i i')
    {id : Option InvocationId} {backs : List StateId}
    (hhome : i.recognizer.forest.Homeward G.network id backs) :
    i'.recognizer.forest.Homeward G.network id backs := by
  induction ht with
  | refl => exact hhome
  | @tail j j' hj ht ih =>
    obtain ⟨b, outer, done', w', h'⟩ := h.turns hG hnet hindex hj
    obtain ⟨_, _, -, hst, hcalled, -⟩ := h'.woven.threads
    cases ht with
    | move ht =>
      cases ht with
      | deed hd =>
        have hsame := hd.samePlace
        exact ih.keep (Nat.le_of_eq hsame.size.symm) fun id _ => hsame.origin id
      | pass | skip => exact ih
      | @round s hs hmark =>
        obtain rfl : s = b.state := Option.some.inj (hs.symm.trans h'.state)
        have hback := hstart _ hst.rule_lt
        rw [← hst.state_rule] at hback
        rw [hnet]
        have hforest := congrArg Recognizer.forest (Recognizer.pushRecursion_eq
          (G.network.rule (G.network.state b.state).rule).start (G.network.state b.state).rule
          h'.invocation)
        exact hforest ▸ ih.pushRound hst.lt (G.network.state b.state).rule
          j.recognizer.input.previousIndex hback
      | enter hs ht hk he =>
        obtain ⟨hsize, hkeep⟩ := (Interpreter.enters_of_enter he).origin
        exact ih.keep hsize hkeep
    | @leave s hs hstop hout =>
      obtain ⟨rfl, c, outer, follow, rfl, hfollow, -⟩ := h'.returns hG hnet hs hout
      rw [hnet]
      obtain ⟨hsize, hkeep⟩ := h'.origin_leaveRule hnet
      exact ih.keep (Nat.le_of_eq hsize.symm) fun id _ => hkeep id

end AdaptiveParsing
