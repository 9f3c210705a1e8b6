import AdaptiveParsing.Proofs.Recognition.Damage
/-!
When it is noted that the end of input was matched. Only an edge that names the end of input notes it, so in
a network in which no other edge takes it, a parse that reports nothing has noted it as soon as it is a leaf
(`Recognizer.Noted`). Main statements: this holds on along a step (`Interpreter.noted_step`) and throughout
a parse (`Interpreter.noted_follows`).
-/

namespace AdaptiveParsing

open Relation AdaptiveParsing.Parser

variable {env : Setting}

/-- No edge takes the end of input but those that name it. -/
def Network.NamesEof (n : Network) : Prop :=
  ∀ s, ∀ t ∈ (n.state s).transitions, ∀ u : Token, u.isEof = true → n.Takes t.kind u →
    ∃ k, t.kind = .atom k

/-- The token is a child of an invocation. -/
def Forest.HasLeaf (f : Forest) (t : Token) : Prop :=
  ∃ id, .token t ∈ (f.get id).children.toList ∨ .error t ∈ (f.get id).children.toList

/-- If the end of input is a leaf, this is noted. -/
def Recognizer.Noted (r : Recognizer) : Prop :=
  ∀ t, r.forest.HasLeaf t → t.isEof = true → r.matchedEof = true

section

variable {f f' : Forest} {cs : List Child} {w : List Token} {t : Token} {id : InvocationId}
  {r r' : Recognizer}

/-- Every leaf below children is one of them or a child of an invocation. -/
theorem Forest.Leaves.hasLeaf (h : f.Leaves cs w) (ht : t ∈ w) :
    (.token t ∈ cs ∨ .error t ∈ cs) ∨ f.HasLeaf t := by
  induction h with
  | nil => cases ht
  | token _ ih =>
    rcases List.mem_cons.1 ht with rfl | ht
    · exact .inl (.inl (.head _))
    · exact (ih ht).imp_left (Or.imp (.tail _) (.tail _))
  | error _ ih =>
    rcases List.mem_cons.1 ht with rfl | ht
    · exact .inl (.inr (.head _))
    · exact (ih ht).imp_left (Or.imp (.tail _) (.tail _))
  | rule _ _ ihv ih =>
    rcases List.mem_append.1 ht with ht | ht
    · exact .inr ((ihv ht).elim (fun h => ⟨_, h⟩) id)
    · exact (ih ht).imp_left (Or.imp (.tail _) (.tail _))

theorem Forest.HasLeaf.of_modify {g : Invocation → Invocation}
    (h : (f.modify id g).HasLeaf t) (hg : ∀ i, (g i).children = i.children) : f.HasLeaf t := by
  obtain ⟨other, h⟩ := h
  refine ⟨other, ?_⟩
  rcases f.get_modify_cases id other g with hget | hget
  · rwa [hget] at h
  · rwa [hget, hg] at h

theorem Forest.HasLeaf.of_addChild {c : Child} (h : (f.addChild id c).HasLeaf t) :
    f.HasLeaf t ∨ c = .token t ∨ c = .error t := by
  obtain ⟨other, h⟩ := h
  unfold addChild at h
  rcases f.get_modify_cases id other
    (fun node => { node with children := node.children.push c }) with hget | hget
  · rw [hget] at h
    exact .inl ⟨other, h⟩
  · rw [hget, Array.toList_push, List.mem_append, List.mem_append, List.mem_singleton,
      List.mem_singleton] at h
    rcases h with (h | h) | (h | h)
    · exact .inl ⟨other, .inl h⟩
    · exact .inr (.inl h.symm)
    · exact .inl ⟨other, .inr h⟩
    · exact .inr (.inr h.symm)

theorem Forest.HasLeaf.of_alloc {node : Invocation} (h : (f.alloc node).2.HasLeaf t) :
    f.HasLeaf t ∨ .token t ∈ node.children.toList ∨ .error t ∈ node.children.toList := by
  obtain ⟨other, h⟩ := h
  rw [Forest.get_alloc] at h
  split at h
  · exact .inr h
  · exact .inl ⟨other, h⟩

theorem Recognizer.Noted.keep (h : r.Noted) (hm : r.matchedEof = true → r'.matchedEof = true)
    (hleaf : ∀ t, r'.forest.HasLeaf t → r.forest.HasLeaf t) : r'.Noted :=
  fun t ht heof => hm (h t (hleaf t ht) heof)

theorem Recognizer.Noted.sameTree (h : r.Noted)
    (hm : r.matchedEof = true → r'.matchedEof = true) (hs : r.SameTree r') : r'.Noted := by
  apply h.keep hm
  intro t ht
  rwa [hs.forest] at ht

theorem Recognizer.hasLeaf_exitRule (h : r.exitRule.forest.HasLeaf t) : r.forest.HasLeaf t := by
  unfold exitRule at h
  split at h
  · exact h
  · apply h.of_modify
    exact fun _ => rfl

theorem Recognizer.hasLeaf_unrollRecursion {parent : Option InvocationId}
    (h : (r.unrollRecursion parent).2.forest.HasLeaf t) : r.forest.HasLeaf t := by
  cases hinv : r.invocation with
  | none =>
    unfold unrollRecursion at h
    rw [hinv] at h
    exact h
  | some id =>
    rw [(r.unrollRecursion_eq parent hinv).2.1] at h
    cases parent with
    | none =>
      apply h.of_modify
      exact fun _ => rfl
    | some p =>
      rcases h.of_addChild with h | hc | hc
      · apply h.of_modify
        exact fun _ => rfl
      · cases hc
      · cases hc

theorem Recognizer.hasLeaf_pushRecursion {s : StateId} {rule : RuleId}
    (h : (r.pushRecursion s rule).2.forest.HasLeaf t) : r.forest.HasLeaf t := by
  cases hinv : r.invocation with
  | none =>
    unfold pushRecursion at h
    rw [hinv] at h
    exact h
  | some id =>
    rw [Recognizer.pushRecursion_eq s rule hinv] at h
    have hmod := h.of_modify fun _ => rfl
    rcases hmod.of_alloc with h | h
    · exact h
    · simp [Forest.nextRound] at h

theorem Enters.hasLeaf {i i' : Interpreter} {c : RuleId} {precedence : Int}
    (he : Enters env c precedence i id i') (h : i'.recognizer.forest.HasLeaf t) :
    i.recognizer.forest.HasLeaf t := by
  obtain ⟨node, -, -, hchildren, -, -, -, hforest⟩ := he.forest
  have hnew : (i.recognizer.forest.alloc node).2.HasLeaf t → i.recognizer.forest.HasLeaf t := by
    intro h
    rcases h.of_alloc with h | h
    · exact h
    · simp [hchildren] at h
  rw [hforest] at h
  split at h
  · exact hnew h
  · split at h
    · exact hnew h
    · rcases h.of_addChild with h | hc | hc
      · exact hnew h
      · cases hc
      · cases hc

end

namespace Parser

variable {p p' : Parser}

/-- A deed leaves the note of the end of input, or it is justified. -/
theorem Deed.matchedEof (h : Deed env p p') :
    p'.recognizer.matchedEof = p.recognizer.matchedEof ∨
      p'.recognizer.matchedEof = true ∧ p'.recognizer.TookEof env := by
  cases h with
  | note _ h heof =>
    refine heof.imp_right fun ⟨hm, hte⟩ => ⟨hm, ?_⟩
    rw [h]
    exact hte
  | predict d =>
    left
    show (p.recognizer.predict env d).2.matchedEof = _
    unfold Recognizer.predict
    split
    · rfl
    · dsimp only
      split <;> rfl
  | consume =>
    left
    show (p.recognizer.consume env p.strategy.recovering).matchedEof = _
    unfold Recognizer.consume
    split
    · exact (Recognizer.onlyTree_addChild _ _).matchedEof
    · split
      · exact (Recognizer.onlyTree_addChild _ _).matchedEof
      · rfl
  | conjure _ => exact .inl (Recognizer.onlyTree_addChild _ _).matchedEof
  | blame e everywhere => exact .inl (p.recognizer.onlyTree_recordError e everywhere).matchedEof
  | report e =>
    left
    unfold reportOnce Recognizer.notify
    split
    · rfl
    · dsimp only
      split <;> rfl

theorem Deeds.matchedEof (h : Deeds env p p') (hm : p.recognizer.matchedEof = true) :
    p'.recognizer.matchedEof = true := by
  induction h with
  | refl => exact hm
  | tail _ hd ih =>
    rcases hd.matchedEof with hsame | ⟨hnoted, -⟩
    · exact hsame.trans ih
    · exact hnoted

end Parser

namespace Interpreter

variable {i i' : Interpreter} {rule : RuleId} {root : InvocationId} {s : NetworkState} {t : Transition}
  {p p' : Parser}

theorem matchedEof_passEdge (h : passEdge env s t p = (.ok (), p'))
    (hm : p.recognizer.matchedEof = true) : p'.recognizer.matchedEof = true := by
  have hpass := @deeds_passEdge env s t p
  rw [h] at hpass
  rcases hpass with hd | ⟨-, heq⟩
  · exact hd.matchedEof hm
  · obtain rfl : p' = _ := (Prod.mk.inj heq).2
    exact (Recognizer.onlyTree_pushRecursion _ _ _).matchedEof.trans hm

/-- Without a report, passing an edge that names the end of input notes it. -/
theorem noted_passEdge {k : TokenType} (ht : p.Tidy) (h : passEdge env s t p = (.ok (), p'))
    (hs : p'.Silent) (hk : t.kind = .atom k) (heof : p.recognizer.input.current.isEof = true) :
    p'.recognizer.matchedEof = true := by
  unfold passEdge at h
  rw [hk] at h
  obtain ⟨hkind, rfl⟩ := match_eq_ok ht (matchToken_run k) h hs
  have hkeof : k.isEof = true := by
    rw [← hkind]
    exact heof
  rw [if_pos hkeof, takeMatch_noted]
  rfl

/-- Without a report, passing an edge keeps the note. -/
theorem keepsNote_passEdge (htree : env.config.buildTrees = true) (ht : p.Tidy)
    (hnames : ∀ u : Token, u.isEof = true → env.network.Takes t.kind u → ∃ k, t.kind = .atom k)
    (h : passEdge env s t p = (.ok (), p')) (hs : p'.Silent) (hcall : t.call? = none)
    (hn : p.recognizer.Noted) : p'.recognizer.Noted := by
  have hmore := matchedEof_passEdge h
  cases passes_passEdge htree ht h hs hcall with
  | free _ _ hsame | condition _ _ hsame | level _ _ hsame => exact hn.sameTree hmore hsame
  | round _ _ _ hsame =>
    have hside := p.recognizer.onlyTree_pushRecursion (env.network.rule s.rule).start s.rule
    have hround : (p.recognizer.pushRecursion (env.network.rule s.rule).start s.rule).2.Noted :=
      hn.keep (fun hm => hside.matchedEof.trans hm) fun u => Recognizer.hasLeaf_pushRecursion
    exact hround.sameTree (fun hm => hmore (hside.matchedEof.symm.trans hm)) hsame
  | token htakes hsame =>
    intro u hu heof
    have hcases : p.recognizer.forest.HasLeaf u ∨ u = p.recognizer.input.current := by
      rw [hsame.forest] at hu
      unfold Recognizer.addChild at hu
      split at hu
      · exact .inl hu
      · rcases hu.of_addChild with h | hc | hc
        · exact .inl h
        · cases hc
          exact .inr rfl
        · cases hc
    rcases hcases with hold | rfl
    · exact hmore (hn u hold heof)
    · obtain ⟨k, hk⟩ := hnames _ heof htakes
      exact noted_passEdge ht h hs hk heof

/-- So does following it. -/
theorem keepsNote_followEdge (htree : env.config.buildTrees = true) (ht : i.parser.Tidy)
    (hnames : ∀ u : Token, u.isEof = true → env.network.Takes t.kind u → ∃ k, t.kind = .atom k)
    (hf : i.followEdge env s t = (.ok (), i')) (hs : i'.parser.Silent)
    (hn : i.recognizer.Noted) : i'.recognizer.Noted := by
  rcases followEdge_eq_ok hf with ⟨c, follow, precedence, id, j, -, he, rfl⟩ | ⟨hcall, p, hp, rfl⟩
  · have hside := (@onlyTree_enter env i c precedence).1
    rw [he] at hside
    exact hn.keep (fun hm => hside.matchedEof.trans hm) fun u => (enters_of_enter he).hasLeaf
  · have hp : p.recognizer.Noted := keepsNote_passEdge htree ht hnames hp hs hcall hn
    exact hp.keep id fun _ => id

/-- A step that goes on and reports nothing keeps the note. -/
theorem noted_step (htree : env.config.buildTrees = true) (hnames : env.network.NamesEof)
    (ht : i.parser.Tidy) (h : Follows env rule root i i') (hs : i'.parser.Silent)
    (hn : i.recognizer.Noted) : i'.recognizer.Noted := by
  obtain ⟨st, hst, ⟨-, -, rfl⟩ | ⟨-, hv⟩⟩ := step_running ht h hs
  · refine hn.keep (fun hm => (onlyTree_leaveRule _).1.matchedEof.trans hm) fun u hu => ?_
    cases hrec : (env.network.rule (env.network.state st).rule).leftRecursive with
    | true =>
      rw [leaveRule_recursive hrec] at hu
      exact Recognizer.hasLeaf_unrollRecursion hu
    | false =>
      rw [leaveRule_plain hrec] at hu
      exact Recognizer.hasLeaf_exitRule hu
  · obtain ⟨alt, p, t, hch, hedge, hf, -, htidy, hsame⟩ := visit_eq_ok ht hv hs
    have hd := @deeds_chooseEdge env (env.network.state st) i.parser
    rw [hch] at hd
    have hp : p.recognizer.Noted := hn.sameTree hd.matchedEof hsame
    exact keepsNote_followEdge htree htidy (hnames st t (List.mem_of_getElem? hedge)) hf hs hp

/-- While a parse from a fresh parser has reported nothing, the end of input is noted as soon as it is a
leaf. -/
theorem noted_follows {i₀ j : Interpreter} {first : InvocationId}
    (htree : env.config.buildTrees = true) (hnames : env.network.NamesEof) (hi : i.Fresh)
    (hen : i.enter env rule 0 = (.ok first, i₀)) (hj : ReflTransGen (Follows env rule first) i₀ j)
    (hs : j.parser.Silent) : j.recognizer.Noted := by
  have htidy₀ : i₀.parser.Tidy := by
    intro _
    have hside := @onlyTree_enter env i rule 0
    rw [hen] at hside
    rw [hside.2]
    exact hi.recovering
  induction hj with
  | refl =>
    intro t ht
    obtain ⟨id, h⟩ := (enters_of_enter hen).hasLeaf ht
    rw [hi.forest] at h
    rcases h with h | h <;> cases h
  | @tail k j hk hstep ih =>
    have hleads := @leads_step env k rule first
    rw [show step env rule first k = .running j from hstep] at hleads
    exact noted_step htree hnames (tidy_follows hk htidy₀) hstep hs (ih (hleads.silent hs))

end Interpreter

end AdaptiveParsing
