import AdaptiveParsing.Proofs.Recognition.Cache
import AdaptiveParsing.Proofs.Recognition.Yield
/-!
Errors are reported exactly if the tree is damaged. A parser without reports whose tree has no error in it
is spotless, one with both is marred (`Parser.Spotless`, `Parser.Marred`), and no step of a recovering
parse leaves a parser in between, although a report and the damage it tells of are made apart: a loop may
report a token and skip none, but then no alternative takes that token, and the decision that follows
fails. Main statement: `Interpreter.errors_iff_damage`.
-/

namespace AdaptiveParsing

open AdaptiveParsing.Parser

variable {env : Setting}

/-- Nothing went wrong in the invocation itself. -/
def Invocation.Clean (i : Invocation) : Prop :=
  i.error = none ∧ ∀ t, .error t ∉ i.children.toList

namespace Forest

/-- Nothing went wrong in any invocation. -/
def Clean (f : Forest) : Prop := ∀ id, (f.get id).Clean

variable {f : Forest} {id : InvocationId}

theorem clean_default : (default : Invocation).Clean := ⟨rfl, by rintro t ⟨⟩⟩

theorem clean_alloc {node : Invocation} (h : node.Clean) : (f.alloc node).2.Clean ↔ f.Clean := by
  refine ⟨fun hc other => ?_, fun hc other => ?_⟩
  · have ho := hc other
    rw [get_alloc] at ho
    split at ho
    · rename_i heq
      rw [heq, get_of_le (Nat.le_refl _)]
      exact clean_default
    · exact ho
  · rw [get_alloc]
    split
    · exact h
    · exact hc other

theorem clean_modify {g : Invocation → Invocation} (hg : ∀ i, (g i).Clean = i.Clean) :
    (f.modify id g).Clean ↔ f.Clean :=
  forall_congr' fun other => iff_of_eq (f.get_modify_note Invocation.Clean hg id other)

/-- What is modified was clean, if that is needed to be clean afterwards. -/
theorem clean_of_modify {g : Invocation → Invocation} (hg : ∀ i, (g i).Clean → i.Clean)
    (h : (f.modify id g).Clean) : f.Clean := by
  intro other
  have ho := h other
  rcases f.get_modify_cases id other g with he | he
  · rwa [he] at ho
  · rw [he] at ho
    exact hg _ ho

theorem clean_addChild {c : Child} (h : ∀ t, c ≠ .error t) : (f.addChild id c).Clean ↔ f.Clean := by
  refine clean_modify fun i => ?_
  have hc : ∀ t, .error t ≠ c := fun t he => h t he.symm
  simp [Invocation.Clean, hc]

theorem not_clean_addChild (hlt : id < f.size) (t : Token) : ¬ (f.addChild id (.error t)).Clean := by
  intro h
  have hid := (h id).2 t
  rw [show f.addChild id (.error t) = f.modify id _ from rfl, f.get_modify id _ hlt] at hid
  simp at hid

end Forest

namespace Recognizer

variable {r r' : Recognizer}

theorem clean_sameTree (h : r.SameTree r') : r'.forest.Clean ↔ r.forest.Clean := by rw [h.forest]

theorem clean_addChild {c : Child} (h : ∀ t, c ≠ .error t) :
    (r.addChild c).forest.Clean ↔ r.forest.Clean := by
  unfold addChild
  split
  · exact .rfl
  · exact Forest.clean_addChild h

theorem clean_exitRule : r.exitRule.forest.Clean ↔ r.forest.Clean := by
  unfold exitRule
  split
  · exact .rfl
  · exact Forest.clean_modify fun _ => rfl

theorem clean_pushRecursion (s : StateId) (rule : RuleId) :
    (r.pushRecursion s rule).2.forest.Clean ↔ r.forest.Clean := by
  unfold pushRecursion
  split
  · exact .rfl
  · refine Iff.trans (Forest.clean_modify ?_) (Forest.clean_alloc ?_)
    · exact fun _ => rfl
    · exact ⟨rfl, by simp⟩

theorem clean_unrollRecursion (parent : Option InvocationId) :
    (r.unrollRecursion parent).2.forest.Clean ↔ r.forest.Clean := by
  unfold unrollRecursion
  dsimp only
  cases r.invocation with
  | none => exact .rfl
  | some id =>
    cases parent with
    | none => exact Forest.clean_modify fun _ => rfl
    | some p =>
      exact (Forest.clean_addChild (by simp)).trans (Forest.clean_modify fun _ => rfl)

theorem clean_enterRule (rule : RuleId) :
    (r.enterRule env rule).2.forest.Clean ↔ r.forest.Clean := by
  unfold enterRule enter
  split
  · exact .rfl
  · refine (clean_addChild (by simp)).trans (Forest.clean_alloc ⟨rfl, by simp [newInvocation]⟩)

theorem clean_enterRecursion (rule : RuleId) (precedence : Int) :
    (r.enterRecursion env rule precedence).2.forest.Clean ↔ r.forest.Clean := by
  unfold enterRecursion enter
  split
  · exact .rfl
  · exact Forest.clean_alloc ⟨rfl, by simp [newInvocation]⟩

/-- A mismatch that is recorded on the innermost invocation is damage, and damage stays. -/
theorem not_clean_recordError {id : InvocationId} (hinv : r.invocation = some id)
    (hlt : id < r.forest.size) (e : RecognitionError) :
    ¬ (r.recordError e false).forest.Clean := by
  intro h
  unfold recordError at h
  rw [hinv] at h
  have hid := (h id).1
  simp only [Bool.false_eq_true, if_false, List.foldl_cons, List.foldl_nil] at hid
  rw [r.forest.get_modify id _ hlt] at hid
  cases hprev : (r.forest.get id).error <;> simp [hprev] at hid

theorem clean_of_recordError {e : RecognitionError} {everywhere : Bool}
    (h : (r.recordError e everywhere).forest.Clean) : r.forest.Clean := by
  unfold recordError at h
  split at h
  · exact h
  · dsimp only at h
    generalize (if everywhere = true then _ else _ : List InvocationId) = ids at h
    generalize r.forest = f at h ⊢
    induction ids generalizing f with
    | nil => exact h
    | cons id ids ih =>
      refine Forest.clean_of_modify ?_ (ih (f.modify id _) h)
      intro i hi
      refine ⟨?_, hi.2⟩
      have herror := hi.1
      cases hprev : i.error with
      | none => rfl
      | some _ => simp [hprev] at herror

theorem clean_of_addChild {c : Child} (h : (r.addChild c).forest.Clean) : r.forest.Clean := by
  unfold addChild at h
  split at h
  · exact h
  · refine Forest.clean_of_modify (g := fun i => { i with children := i.children.push c }) ?_ h
    exact fun i hi => ⟨hi.1, fun t ht => hi.2 t (by simp [ht])⟩

end Recognizer

namespace Parser

variable {p p' q : Parser} {α : Type}

/-- Nothing has been reported, and the tree has no error in it. -/
structure Spotless (p : Parser) : Prop where
  silent : p.Silent
  clean : p.recognizer.forest.Clean

/-- Something has been reported, and the tree has an error in it. -/
structure Marred (p : Parser) : Prop where
  reported : ¬ p.Silent
  damaged : ¬ p.recognizer.forest.Clean

/-- There is an innermost invocation, and the cursor is at a visible token. -/
structure Anchored (p : Parser) : Prop where
  innermost : ∃ id, p.recognizer.invocation = some id ∧ id < p.recognizer.forest.size
  stopped : p.recognizer.input.Stopped

theorem Deed.silent (h : Deed env p p') (hs : p'.Silent) : p.Silent := by
  cases h with
  | note _ h _ =>
    unfold Silent at hs ⊢
    rwa [h] at hs
  | predict d =>
    unfold Silent at hs ⊢
    rwa [show (Parser.predict env d p).2.recognizer.errors = p.recognizer.errors from
      (p.recognizer.sameTree_predict env d).errors] at hs
  | consume => exact leads_consume.silent hs
  | conjure _ => exact (Leads.modifyRecognizer (Recognizer.errors_addChild _ _)).silent hs
  | blame e everywhere =>
    exact (Leads.modifyRecognizer (Recognizer.errors_recordError _ e everywhere)).silent hs
  | report e => exact (leads_reportOnce e).silent hs

theorem input_reportOnce (e : SyntaxError) :
    (p.reportOnce env e).recognizer.input = p.recognizer.input := by
  unfold reportOnce Recognizer.notify
  split
  · rfl
  · dsimp only
    split <;> rfl

theorem forest_reportOnce (e : SyntaxError) :
    (p.reportOnce env e).recognizer.forest = p.recognizer.forest := by
  unfold reportOnce Recognizer.notify
  split
  · rfl
  · dsimp only
    split <;> rfl

theorem Deed.clean (h : Deed env p p') (hc : p'.recognizer.forest.Clean) :
    p.recognizer.forest.Clean := by
  cases h with
  | note _ h _ =>
    rw [h] at hc
    exact hc
  | predict d => exact (Recognizer.clean_sameTree (p.recognizer.sameTree_predict env d)).1 hc
  | consume =>
    change (Recognizer.consume env p.recognizer p.strategy.recovering).forest.Clean at hc
    unfold Recognizer.consume at hc
    dsimp only at hc
    split at hc
    · have hc' := Recognizer.clean_of_addChild hc
      exact hc'
    · split at hc
      · have hc' := Recognizer.clean_of_addChild hc
        exact hc'
      · exact hc
  | conjure _ => exact Recognizer.clean_of_addChild hc
  | blame e everywhere => exact Recognizer.clean_of_recordError hc
  | report e => rwa [forest_reportOnce] at hc

/-- Marks stay. -/
theorem Marred.deeds (hm : p.Marred) (env : Setting) (h : Deeds env p p') : p'.Marred := by
  induction h with
  | refl => exact hm
  | tail _ hd ih => exact ⟨fun hs => ih.reported (hd.silent hs), fun hc => ih.damaged (hd.clean hc)⟩

theorem Deeds.anchored (h : Deeds env p p') (ha : p.Anchored) : p'.Anchored := by
  induction h with
  | refl => exact ha
  | @tail q p' _ hd ih =>
    obtain ⟨⟨id, hinv, hlt⟩, hstop⟩ := ih
    obtain ⟨hinv', _, _, hg, -, hp, -⟩ := hd.grows hinv hlt hstop
    exact ⟨⟨id, hinv'.trans hinv, hg.size_eq.symm ▸ hlt⟩, hp.stopped hstop⟩

theorem recovering_reportOnce (e : SyntaxError) :
    (p.reportOnce env e).strategy.recovering = true := by
  unfold reportOnce
  split
  · assumption
  · rfl

/-- Dropping a token damages the tree. -/
theorem marred_consume (ha : p.Anchored) (hs : ¬ p.Silent) (hr : p.strategy.recovering = true) :
    (p.consume env).Marred := by
  refine ⟨fun h => hs (leads_consume.silent h), fun h => ?_⟩
  obtain ⟨⟨id, hinv, hlt⟩, -⟩ := ha
  change (Recognizer.consume env p.recognizer p.strategy.recovering).forest.Clean at h
  rw [hr] at h
  unfold Recognizer.consume Recognizer.addChild at h
  simp only [if_true, hinv] at h
  exact Forest.not_clean_addChild hlt _ h

theorem marred_report_consume (ht : p.Tidy)
    (ha : p.Anchored) (e : SyntaxError) : ((p.reportOnce env e).consume env).Marred :=
  marred_consume (Deeds.anchored (.single (.report e)) ha) (not_silent_reportOnce e ht)
    (recovering_reportOnce e)

/-- A token is dropped with a report, or nothing is done. -/
theorem deleteToken?_cases (ht : p.Tidy) (ha : p.Anchored) :
    p.deleteToken? env = (none, p) ∨ (p.deleteToken? env).2.Marred := by
  unfold deleteToken?
  split
  · right
    have hm : ((p.reportUnwanted env).consume env).Marred := marred_report_consume ht ha _
    exact ⟨hm.reported, hm.damaged⟩
  · exact .inl rfl

/-- Recovery in place leaves marks. -/
theorem marred_recoverToken (ht : p.Tidy) (ha : p.Anchored)
    {t : Token} (h : recoverToken env p = (.ok t, p')) : p'.Marred := by
  rw [recoverToken_run] at h
  unfold recoverInline at h
  cases hp : p.strategy.policy with
  | bail =>
    rw [hp] at h
    cases h
  | recover =>
    rw [hp] at h
    dsimp only at h
    rcases deleteToken?_cases ht ha with hd | hd
    · rw [hd] at h
      dsimp only at h
      by_cases hi : p.canInsert env = true
      · -- the conjured token becomes a child
        rw [if_pos hi] at h
        cases h
        rw [if_pos (by rfl)]
        have ha' : (p.reportMissing env).Anchored :=
          Deeds.anchored (.single (.report _)) ha
        obtain ⟨⟨id, hinv, hlt⟩, -⟩ := ha'
        have hs : ¬ (p.reportMissing env).Silent := not_silent_reportOnce _ ht
        refine ⟨fun h => hs ?_, fun h => ?_⟩
        · exact (Leads.modifyRecognizer (Recognizer.errors_addChild _ _)).silent h
        · change (Recognizer.addChild _ _).forest.Clean at h
          unfold Recognizer.addChild at h
          simp only [hinv] at h
          exact Forest.not_clean_addChild hlt _ h
      · rw [if_neg hi] at h
        cases h
    · generalize p.deleteToken? env = result at h hd
      obtain ⟨_ | t', p₁⟩ := result
      · dsimp only at h hd
        by_cases hi : p₁.canInsert env = true
        · rw [if_pos hi] at h
          cases h
          have hm : (p₁.reportMissing env).Marred := hd.deeds env (.single (.report _))
          split
          · exact hm.deeds env (.single (.conjure ‹_›))
          · exact hm
        · rw [if_neg hi] at h
          cases h
      · cases h
        refine hd.deeds env ?_
        split
        · exact .tail (.single .consume) (.conjure ‹_›)
        · exact .single .consume

theorem spotless_takeMatch (h : q.Spotless) : (takeMatch env q).2.Spotless := by
  refine ⟨?_, ?_⟩
  · show (takeMatch env q).2.recognizer.errors = #[]
    exact (Recognizer.errors_consume env _ _).trans h.silent
  · show (Recognizer.consume env q.recognizer false).forest.Clean
    unfold Recognizer.consume
    dsimp only
    rw [if_neg (by simp)]
    split
    · exact (Recognizer.clean_addChild (by simp)).2 h.clean
    · exact h.clean

theorem spotless_or_marred_match {m : ParserM Token} {c : Prop} [Decidable c]
    (ht : p.Tidy) (ha : p.Anchored)
    (hm : m p = if c then takeMatch env q else recoverToken env p) (hq : q.Spotless)
    (h : (discard m : ParserM Unit) p = (.ok (), p')) : p'.Spotless ∨ p'.Marred := by
  have hd : (discard m : ParserM Unit) p = (m >>= fun _ => pure ()) p := rfl
  rw [hd, bind_run, hm] at h
  by_cases hc : c
  · rw [if_pos hc] at h
    have he : (takeMatch env q).2 = p' := (Prod.mk.inj h).2
    exact .inl (he ▸ spotless_takeMatch hq)
  · rw [if_neg hc] at h
    generalize hr : recoverToken env p = result at h
    obtain ⟨halt | t, p₁⟩ := result
    · cases h
    · cases h
      exact .inr (marred_recoverToken ht ha hr)

/-- Skipping drops a token, unless the current one is to be kept. -/
theorem skipUntil_cases (p : Parser) (types : TokenSet) :
    (p.skipUntil env types = p ∧
      (p.recognizer.input.kind = TokenType.eof ∨ p.recognizer.input.kind ∈ types)) ∨
    Deeds env (p.consume env) (p.skipUntil env types) := by
  unfold skipUntil
  have hpos : p.recognizer.input.remaining ≠ 0 := by
    have := p.recognizer.input.position_lt
    unfold TokenCursor.remaining
    lia
  obtain ⟨fuel, hfuel⟩ := Nat.exists_eq_succ_of_ne_zero hpos
  rw [hfuel]
  unfold skipUpTo
  dsimp only
  split
  · rename_i hkeep
    rw [Bool.or_eq_true] at hkeep
    exact .inl ⟨rfl, hkeep.imp TokenType.isEof_iff.1 of_decide_eq_true⟩
  · exact .inr (deeds_skipUpTo types fuel _)

/-- The check before a decision changes nothing that shows, or it stops the rule, or it leaves marks, or it
reports the token of a loop and keeps it. -/
theorem sync_cases {st : StateId} (ht : p.Tidy)
    (ha : p.Anchored) (hst : p.recognizer.state = some st) (h : sync env p = (.ok (), p')) :
    p'.recognizer = p.recognizer ∨ p'.Marred ∨
      p'.recognizer.input = p.recognizer.input ∧ p'.recognizer.cache = p.recognizer.cache ∧
        TokenType.epsilon ≤ p.recognizer.input.kind ∧
        p.recognizer.input.kind ∉ env.network.nextTokensAt st ∧
        TokenType.epsilon ∉ env.network.nextTokensAt st := by
  unfold sync at h
  split at h
  · cases h
    exact .inl rfl
  · rw [hst] at h
    dsimp only at h
    by_cases hm : p.recognizer.input.kind ∈ env.network.nextTokensAt st
    · rw [if_pos hm] at h
      cases h
      exact .inl rfl
    rw [if_neg hm] at h
    by_cases he : TokenType.epsilon ∈ env.network.nextTokensAt st
    · rw [if_pos he] at h
      cases h
      exact .inl rfl
    rw [if_neg he] at h
    unfold syncAt at h
    dsimp only at h
    split at h
    case h_5 | h_6 =>
      right
      cases h
      generalize htypes : Recognizer.expected env _ ∪ Recognizer.recoverySet env _ = types
      rcases @skipUntil_cases env (p.reportUnwanted env) types with ⟨heq, hkeep⟩ | hd
      · right
        rw [heq]
        have htree' : p.recognizer.OnlyTree { (p.reportUnwanted env).recognizer with
            errors := p.recognizer.errors } := by
          unfold reportUnwanted reportOnce Recognizer.notify
          split
          · exact .refl _
          · dsimp only
            split <;> exact ⟨rfl, rfl, rfl, rfl, rfl⟩
        have hinput : (p.reportUnwanted env).recognizer.input = p.recognizer.input := htree'.input
        rw [hinput] at hkeep
        refine ⟨hinput, htree'.cache, ?_, hm, he⟩
        rcases hkeep with hkeep | hkeep
        · rw [hkeep]
          decide
        · exact TokenSet.epsilon_le_of_mem hkeep
      · exact .inl ((marred_report_consume ht ha _).deeds env hd)
    case h_7 =>
      cases h
      exact .inl rfl
    all_goals
      have hdelete := @deleteToken?_cases env p ht ha
      generalize p.deleteToken? env = result at h hdelete
      obtain ⟨_ | t, p₁⟩ := result
      · cases h
      · cases h
        rcases hdelete with hd | hd
        · cases hd
        · exact .inr (.inl hd)

end Parser

namespace Interpreter

variable {g : Grammar} {p p' : Parser} {i i' : Interpreter} {s : NetworkState} {t : Transition}
  {st : StateId}

/-- Choosing an edge leaves no parser in between: where a token was reported and kept, no edge is
chosen. -/
theorem spotless_or_marred_chooseEdge (hg : g.compile = .ok env.grammar)
    (hc : p.recognizer.cache.Earned env.network)
    (hs : p.Spotless) (ht : p.Tidy) (ha : p.Anchored) (hst : p.recognizer.state = some st) {alt : Nat}
    (h : chooseEdge env (env.network.state st) p = (.ok alt, p')) : p'.Spotless ∨ p'.Marred := by
  unfold chooseEdge at h
  cases hd : (env.network.state st).decision with
  | none =>
    rw [hd] at h
    cases h
    exact .inl hs
  | some d =>
    rw [hd] at h
    dsimp only at h
    by_cases hlen : 1 < (env.network.state st).transitions.length
    · rw [if_pos hlen, bind_run] at h
      generalize hsync : sync env p = result at h
      obtain ⟨halt | u, p₁⟩ := result
      · cases h
      dsimp only at h
      obtain ⟨hok, hp'⟩ := predict_eq_ok h
      rcases sync_cases ht ha hst hsync with hsame | hm | ⟨hinput, hcache, hkind, hnot, hempty⟩
      · left
        have hpredict := p₁.recognizer.sameTree_predict env d
        rw [hp']
        refine ⟨?_, ?_⟩
        · refine hpredict.errors.trans ?_
          rw [hsame]
          exact hs.silent
        · refine (Recognizer.clean_sameTree hpredict).2 ?_
          rw [hsame]
          exact hs.clean
      · right
        rw [hp']
        exact hm.deeds env (.single (.predict d))
      · -- lookahead would not have found an alternative
        exfalso
        have hnext := Recognizer.next_of_decided hg (by rwa [hcache]) (by rwa [hinput]) hlen hd hok
        rw [hinput] at hnext
        exact hnext.elim hnot hempty
    · rw [if_neg hlen] at h
      cases h
      exact .inl hs

theorem spotless_or_marred_passEdge (hs : p.Spotless)
    (ht : p.Tidy) (ha : p.Anchored) (h : passEdge env s t p = (.ok (), p')) :
    p'.Spotless ∨ p'.Marred := by
  unfold passEdge at h
  cases hk : t.kind with
  | epsilon =>
    rw [hk] at h
    dsimp only at h
    split at h
    · cases h
      exact .inl ⟨(p.recognizer.errors_pushRecursion _ _).trans hs.silent,
        (Recognizer.clean_pushRecursion _ _).2 hs.clean⟩
    · cases h
      exact .inl hs
  | atom k =>
    rw [hk] at h
    refine spotless_or_marred_match ht ha (matchToken_run k) ?_ h
    split <;> exact ⟨hs.silent, hs.clean⟩
  | range _ _ | set _ | notSet _ =>
    rw [hk] at h
    dsimp only at h
    generalize env.network.label? _ = label at h
    cases label with
    | none =>
      cases h
      exact .inl hs
    | some types => exact spotless_or_marred_match ht ha (matchSet_run types) hs h
  | wildcard =>
    rw [hk] at h
    exact spotless_or_marred_match ht ha matchAny_run hs h
  | rule _ _ _ =>
    rw [hk] at h
    cases h
    exact .inl hs
  | predicate r index _ =>
    rw [hk] at h
    dsimp only at h
    rw [get_run] at h
    cases hh : p.recognizer.holds env r index
    · simp only [hh] at h
      cases h
    · simp only [hh] at h
      cases h
      exact .inl hs
  | action _ _ =>
    rw [hk] at h
    cases h
    exact .inl ⟨hs.silent, hs.clean⟩
  | precedence level =>
    rw [hk] at h
    dsimp only at h
    unfold Parser.checkPrecedence at h
    rw [get_run] at h
    generalize p.recognizer.checkPrecedence env level = result at h
    cases result with
    | error e => cases h
    | ok u =>
      cases h
      exact .inl hs

theorem clean_enter (c : RuleId) (precedence : Int) :
    (i.enter env c precedence).2.recognizer.forest.Clean ↔ i.recognizer.forest.Clean := by
  unfold enter
  split
  · have h := @Recognizer.clean_enterRecursion env i.recognizer c precedence
    dsimp only [run, Parser.enterRecursion, Parser.onRecognizer]
    generalize hr : Recognizer.enterRecursion env i.recognizer c precedence = result at h
    rw [show Recognizer.enterRecursion env i.parser.recognizer c precedence = result from hr]
    obtain ⟨_ | id, r⟩ := result <;> exact h
  · exact Recognizer.clean_enterRule c

theorem clean_leaveRule (rule : RuleId) :
    (i.leaveRule env rule).recognizer.forest.Clean ↔ i.recognizer.forest.Clean := by
  cases h : (env.network.rule rule).leftRecursive with
  | true =>
    rw [leaveRule_recursive h]
    exact Recognizer.clean_unrollRecursion _
  | false =>
    rw [leaveRule_plain h]
    exact Recognizer.clean_exitRule

theorem clean_finish (rule : RuleId) (root : InvocationId) :
    (i.finish env rule root).2.recognizer.forest.Clean ↔ i.recognizer.forest.Clean := by
  unfold finish
  split
  · exact Recognizer.clean_unrollRecursion _
  · exact Recognizer.clean_exitRule

/-- Marks stay through every turn. -/
theorem marred_turns (hm : i.parser.Marred) (h : Turns env i i') : i'.parser.Marred := by
  induction h with
  | refl => exact hm
  | @tail j i' _ ht ih =>
    obtain ⟨hr, hd⟩ := ih
    cases ht with
    | move hmove =>
      cases hmove with
      | deed hdeed => exact Marred.deeds ⟨hr, hd⟩ env (.single hdeed)
      | pass | skip => exact ⟨hr, hd⟩
      | round =>
        exact ⟨fun h => hr ((j.recognizer.errors_pushRecursion _ _).symm.trans h),
          fun h => hd ((Recognizer.clean_pushRecursion _ _).1 h)⟩
      | @enter _ _ c _ precedence _ _ _ _ _ he =>
        have hl := @leads_enter env j c precedence
        have hc := @clean_enter env j c precedence
        rw [he] at hl hc
        exact ⟨fun h => hr (hl.silent h), fun h => hd (hc.1 h)⟩
    | leave =>
      exact ⟨fun h => hr ((leads_leaveRule _).silent h), fun h => hd ((clean_leaveRule _).1 h)⟩

/-- A mismatch that is recovered from at the end of its rule leaves marks. -/
theorem marred_recoverFrom (ht : i.parser.Tidy)
    (ha : i.parser.Anchored) (e : RecognitionError) :
    (i.recoverFrom env s e).2.parser.Marred := by
  refine ⟨not_silent_recoverFrom s e ht, ?_⟩
  obtain ⟨⟨id, hinv, hlt⟩, -⟩ := ha
  show ¬ (handle env (.error (.failure (.recognition e)))
    (i.goTo (some (env.network.rule s.rule).stop)).parser).2.recognizer.forest.Clean
  unfold handle
  dsimp only
  rw [bind_run]
  intro h
  -- the mismatch is recorded before anything else is done
  have hclean : ∀ {q q' : Parser}, Deeds env q q' → q'.recognizer.forest.Clean →
      q.recognizer.forest.Clean := by
    intro q q' hd hc
    induction hd with
    | refl => exact hc
    | tail _ hd ih => exact ih (hd.clean hc)
  have hrecorded := Recognizer.not_clean_recordError
    (r := (i.goTo (some (env.network.rule s.rule).stop)).recognizer) hinv hlt e
  refine hrecorded (hclean (q := (i.goTo (some (env.network.rule s.rule).stop)).parser.modifyRecognizer
    fun r => r.recordError e false) ?_ h)
  exact .head (.report _) (deeds_recover e _)

/-- No step leaves a parser in between. -/
theorem spotless_or_marred_step {rule : RuleId} {root : InvocationId}
    (hg : g.compile = .ok env.grammar)
    (hc : i.recognizer.cache.Earned env.network) (hs : i.parser.Spotless) (ht : i.parser.Tidy)
    (ha : i.parser.Anchored) (h : step env rule root i = .running i') :
    i'.parser.Spotless ∨ i'.parser.Marred := by
  unfold step at h
  cases hst : i.recognizer.state with
  | none =>
    rw [hst] at h
    cases h
  | some st =>
    rw [hst] at h
    dsimp only at h
    by_cases hstop : (env.network.state st).isRuleStop = true
    · rw [if_pos hstop] at h
      by_cases hout : i.isOutermost = true
      · rw [if_pos hout] at h
        cases h
      · rw [if_neg hout] at h
        cases h
        exact .inl ⟨(onlyTree_leaveRule _).1.errors.trans hs.silent, (clean_leaveRule _).2 hs.clean⟩
    · rw [if_neg hstop] at h
      generalize hv : i.visit env (env.network.state st) = result at h
      obtain ⟨halt | u, i₁⟩ := result
      · rcases moves_visit hst hv with ⟨hok, -⟩ | ⟨-, hd⟩
        · cases hok
        rcases halt with (e | ⟨_, _⟩ | e) | d
        · dsimp only at h
          have hl := @leads_visit env i (env.network.state st)
          rw [hv] at hl
          have hm : (i₁.recoverFrom env (env.network.state st) e).2.parser.Marred :=
            marred_recoverFrom (hl.tidy ht) (hd.anchored ha) e
          generalize i₁.recoverFrom env (env.network.state st) e = recovered at h hm
          obtain ⟨halt | u, i₂⟩ := recovered
          · cases h
          · cases h
            exact .inr hm
        all_goals cases h
      · cases h
        unfold visit at hv
        dsimp only [run] at hv
        have hleads := @honest_chooseEdge env (env.network.state st) i.parser
        have hdeeds := @deeds_chooseEdge env (env.network.state st) i.parser
        generalize hch : chooseEdge env (env.network.state st) i.parser = chosen at hv hleads hdeeds
        obtain ⟨halt | alt, p₁⟩ := chosen
        · cases hv
        dsimp only at hv
        split at hv
        · rename_i t hedge
          have hmem := List.mem_of_getElem? hedge
          have hst₁ : p₁.recognizer.state = some st := (state_deeds hdeeds).trans hst
          rcases spotless_or_marred_chooseEdge hg hc hs ht ha hst hch with hs₁ | hm₁
          · rcases followEdge_eq_ok hv with ⟨c, follow, precedence, id, i₂, hk, he, rfl⟩ |
              ⟨hcall, p₂, hp, rfl⟩
            · left
              have hside := @onlyTree_enter env { i with parser := p₁ } c precedence
              have hclean := @clean_enter env { i with parser := p₁ } c precedence
              rw [he] at hside hclean
              exact ⟨hside.1.errors.trans hs₁.silent, hclean.2 hs₁.clean⟩
            · rcases spotless_or_marred_passEdge hs₁ (hleads.tidy ht)
                (hdeeds.anchored ha) hp with hs₂ | hm₂
              · exact .inl ⟨hs₂.silent, hs₂.clean⟩
              · exact .inr ⟨hm₂.reported, hm₂.damaged⟩
          · right
            rcases moves_followEdge (i := { i with parser := p₁ }) hst₁ hmem hv with ⟨-, hf⟩ | ⟨-, hf⟩
            · exact marred_turns (i := { i with parser := p₁ }) hm₁ (Moves.turns hf)
            · exact hm₁.deeds env hf
        · cases hv

/-- A recognizer that stands where its live invocations stand is anchored. -/
theorem anchored_of_tracked {G : Guide} {rule : RuleId} {root : InvocationId} {first : TokenCursor}
    {a : Station} {rest : List Station} {done : List InvocationId} {w : List Token}
    (h : Tracked env G rule root first i (a :: rest) done w) : i.parser.Anchored :=
  ⟨⟨a.id, h.invocation, h.woven.lt a (.head _)⟩, h.stopped⟩

end Interpreter

/-- No two reports repeat each other. -/
def Recognizer.Distinct (r : Recognizer) : Prop := (r.errors.toList.map SyntaxError.key).Nodup

theorem Recognizer.distinct_notify {r : Recognizer} (e : SyntaxError) (h : r.Distinct) :
    (r.notify env e).Distinct := by
  unfold notify
  split
  · exact h
  · rename_i hnew
    unfold Distinct at h ⊢
    have hkey : ∀ other ∈ r.errors.toList, other.key ≠ e.key := by
      intro other ho he
      refine hnew ?_
      rw [← Array.any_toList, List.any_eq_true]
      exact ⟨other, ho, by simp [he]⟩
    rw [Array.toList_push, List.map_append, List.nodup_append]
    refine ⟨h, by simp, fun k hk k' hk' => ?_⟩
    obtain ⟨other, ho, rfl⟩ := List.mem_map.1 hk
    cases List.mem_singleton.1 hk'
    exact hkey other ho

theorem Parser.Deed.distinct {p p' : Parser} (h : Deed env p p') (hd : p.recognizer.Distinct) :
    p'.recognizer.Distinct := by
  have hsame : p'.recognizer.errors = p.recognizer.errors → p'.recognizer.Distinct := by
    intro he
    unfold Recognizer.Distinct
    rwa [he]
  cases h with
  | note _ h _ => exact hsame (by rw [h])
  | predict d => exact hsame (p.recognizer.sameTree_predict env d).errors
  | consume => exact hsame (Recognizer.errors_consume env _ _)
  | conjure _ => exact hsame (Recognizer.errors_addChild _ _)
  | blame e everywhere => exact hsame (Recognizer.errors_recordError _ e everywhere)
  | report e =>
    unfold reportOnce
    split
    · exact hd
    · exact Recognizer.distinct_notify e hd

namespace Interpreter

variable {g : Grammar} {i i' : Interpreter} {rule : RuleId} {root : InvocationId} {fuel : Nat}

theorem distinct_turns (h : Turns env i i') (hd : i.recognizer.Distinct) :
    i'.recognizer.Distinct := by
  induction h with
  | refl => exact hd
  | tail _ ht ih =>
    rcases ht.deed_or_onlyTree with ⟨p, hdeed, rfl⟩ | ⟨htree, -⟩
    · exact hdeed.distinct ih
    · unfold Recognizer.Distinct
      rwa [htree.errors]

theorem tidy_follows (h : Relation.ReflTransGen (Follows env rule root) i i')
    (ht : i.parser.Tidy) : i'.parser.Tidy := by
  induction h with
  | refl => exact ht
  | @tail j i' _ hstep ih =>
    have hl := @leads_step env j rule root
    rw [show step env rule root j = .running i' from hstep] at hl
    exact hl.tidy ih

/-- If a parse from a fresh parser ends well, it has reported errors exactly if some invocation of its tree
has a dropped or a conjured token as a child, or ended early; and no two reports are of one kind at one
token. -/
theorem errors_iff_damage {tokens : Array Token} {channel start : Nat}
    (hg : g.compile = .ok env.grammar) (hrule : rule < g.rules.size) (hi : i.Fresh)
    (hinput : i.recognizer.input = (TokenCursor.ofTokens tokens channel).seek start)
    (hcache : i.recognizer.cache.Earned env.network)
    (hrun : i.parse env fuel rule = some (.ok root, i')) :
    (i'.recognizer.errors = #[] ↔ ∀ id, i'.recognizer.forest.Under root id →
      (i'.recognizer.forest.get id).Clean) ∧
    (i'.recognizer.errors.toList.map SyntaxError.key).Nodup := by
  obtain ⟨G, hnet, -, -, hG⟩ := Grammar.exists_guide hg fun _ _ _ _ _ => True
  have hsize : rule < G.network.rules.size := by
    rw [hnet, (Grammar.shaped_compile hg).2]
    exact hrule
  have hstop : i.recognizer.input.Stopped := by
    rw [hinput]
    exact TokenCursor.stopped_moveTo _ _
  have hindex : ∀ t ∈ i.recognizer.input.tokens, t.isConjured = false := by
    intro t ht
    rw [hinput] at ht
    exact @isConjured_of_mem_ofTokens tokens channel t ht
  obtain ⟨first, i₀, j, a, done, w, hen, hsteps, h, hfin⟩ :=
    tracked_of_parse hG hnet.symm hsize hi hstop hindex hrun
  have h₀ := tracked_enter hG hnet.symm hsize hi hstop hen
  have hside := @onlyTree_enter env i rule 0
  have hclean := @clean_enter env i rule 0
  rw [hen] at hside hclean
  have hspot₀ : i₀.parser.Spotless := by
    refine ⟨hside.1.errors.trans hi.errors, hclean.2 ?_⟩
    rw [hi.forest]
    exact fun id => Forest.clean_default
  have htidy₀ : i₀.parser.Tidy := by
    intro _
    rw [hside.2]
    exact hi.recovering
  have hcache₀ : i₀.recognizer.cache.Earned env.network := by
    rw [hside.1.cache]
    exact hcache
  have hj : j.parser.Spotless ∨ j.parser.Marred := by
    clear hfin h
    induction hsteps with
    | refl => exact .inl hspot₀
    | @tail k j hk hstep ih =>
      have hturns := turns_of_follows hk
      obtain ⟨a', rest', done', w', hk'⟩ := h₀.turns hG hnet.symm hindex hturns
      rcases ih with hs | hm
      · exact spotless_or_marred_step hg (earned_turns hturns hcache₀) hs
          (tidy_follows hk htidy₀) (anchored_of_tracked hk') hstep
      · exact .inr (marred_turns hm (turns_step.1 _ hstep))
  have hlast := @onlyTree_finish env j rule first
  have hclean' := @clean_finish env j rule first
  rw [hfin] at hlast hclean'
  refine ⟨?_, ?_⟩
  · have hall : (∀ id, i'.recognizer.forest.Under root id → (i'.recognizer.forest.get id).Clean) ↔
        i'.recognizer.forest.Clean := by
      refine ⟨fun hunder id => ?_, fun hc id _ => hc id⟩
      obtain ⟨rfl, note, hforest, hnote⟩ :=
        forest_finish hnet.symm h.invocation (h.outermost a rfl) h.callers hfin
      by_cases hlt : id < i'.recognizer.forest.size
      · refine hunder id ?_
        have hmono : ∀ parent child, .rule child ∈ (j.recognizer.forest.get parent).children.toList →
            .rule child ∈ (i'.recognizer.forest.get parent).children.toList := by
          intro parent child hchild
          rw [hforest, Forest.get_modify_note Invocation.children fun i => (hnote i).2.2.1]
          exact hchild
        rw [hforest, Forest.size_modify] at hlt
        rcases h.woven.all id hlt with hmem | hmem
        · cases List.mem_singleton.1 hmem
          exact .refl
        · obtain ⟨b, hb, hu⟩ := h.woven.under id hmem
          cases List.mem_singleton.1 hb
          exact hu.mono hmono
      · rw [Forest.get_of_le (Nat.le_of_not_lt hlt)]
        exact Forest.clean_default
    rw [hall, hclean']
    have hsilent : i'.recognizer.errors = #[] ↔ j.parser.Silent := by
      unfold Parser.Silent
      rw [hlast.errors]
      rfl
    rw [hsilent]
    rcases hj with hs | hm
    · exact ⟨fun _ => hs.clean, fun _ => hs.silent⟩
    · exact ⟨fun h => absurd h hm.reported, fun h => absurd h hm.damaged⟩
  · rw [hlast.errors]
    refine distinct_turns (turns_of_follows hsteps) ?_
    unfold Recognizer.Distinct
    rw [hside.1.errors, hi.errors]
    exact List.nodup_nil

end Interpreter

/-- A parser that has not begun and knows nothing from lookahead, at the input A A B. -/
def beforeStrayUnknown : Interpreter :=
  let input := TokenCursor.ofTokens #[{ kind := 1 }, { kind := 1 }, { kind := 2 }] defaultChannel
  { parser := { recognizer := .start nestedSetting (input.seek 0) (.ofNetwork nestedNetwork) } }

/-- The parse of A A B by `nested` reports the dropped token once. -/
theorem damage_stray : ∃ i', beforeStrayUnknown.parse nestedSetting 20 0 = some (.ok 0, i') ∧
    i'.recognizer.errors.size = 1 ∧
    (i'.recognizer.errors = #[] ↔ ∀ id, i'.recognizer.forest.Under 0 id →
      (i'.recognizer.forest.get id).Clean) ∧
    (i'.recognizer.errors.toList.map SyntaxError.key).Nodup := by
  have hrun : (beforeStrayUnknown.parse nestedSetting 20 0).map
      (fun p => (p.1, p.2.recognizer.errors.size)) = some (.ok 0, 1) := by cbv
  cases hparse : beforeStrayUnknown.parse nestedSetting 20 0 with
  | none =>
    rw [hparse] at hrun
    cases hrun
  | some p =>
    rw [hparse] at hrun
    obtain ⟨outcome, i'⟩ := p
    obtain ⟨rfl, he⟩ := Prod.mk.inj (Option.some.inj hrun)
    have hsize : nested.rules.size = 2 := by cbv
    exact ⟨i', rfl, he, Interpreter.errors_iff_damage compile_nested (by rw [hsize]; decide)
      ⟨rfl, rfl, rfl, rfl, rfl, rfl, rfl⟩ rfl (PredictionCache.earned_ofNetwork _) hparse⟩

end AdaptiveParsing
