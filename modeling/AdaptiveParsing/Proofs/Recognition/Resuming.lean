import AdaptiveParsing.Proofs.Recognition.Standing
/-!
Recovery gets on. Skipping ends at a token that can come after one of the live invocations, or at the end of
input. Where recovery is entered again at the same token and in the same state, with no match in between, the
token is dropped: whatever was called meanwhile, the strategy still remembers token and state, or the input
has moved on (`Parser.Remembers`). Main statement: `Parser.recover_gets_on`.
-/

namespace AdaptiveParsing

open AdaptiveParsing.Parser

/-- A call on the strategy. -/
inductive Request where
  | reset
  | reportMatch
  | reportError (e : RecognitionError)
  | recover (e : RecognitionError)
  | recoverInline
  | sync

namespace Request

variable (env : Setting)

/-- What a call leaves. -/
def perform : Request → Parser → Parser
  | reset, p => { p with strategy := p.strategy.reset }
  | reportMatch, p => p.reportMatch
  | reportError e, p => p.reportError env e
  | recover e, p => (Parser.recover env e p).2
  | recoverInline, p => (Parser.recoverInline env p).2
  | sync, p => (Parser.sync env p).2

/-- The call forgets what went wrong: it reports a match, alone or as the end of a deletion in place, or it
resets. -/
def Forgets (p : Parser) : Request → Prop
  | reset | reportMatch => True
  | recoverInline => (p.deleteToken? env).1.isSome = true
  | sync => ∃ t, p.deleteToken? env = (some t, (Parser.sync env p).2)
  | reportError _ | recover _ => False

end Request

namespace Parser

variable {env : Setting} {p q q' : Parser} {i : Nat} {s : StateId}

/-- From `p` to `q` calls are made on the strategy that forget nothing, and in between anything is done that
leaves the strategy alone and never moves back in the input. -/
inductive Unmatched (env : Setting) (p : Parser) : Parser → Prop
  | refl : Unmatched env p p
  | elapse {q q' : Parser} (h : Unmatched env p q) (hs : q'.strategy = q.strategy)
      (hi : q.recognizer.input.position ≤ q'.recognizer.input.position) : Unmatched env p q'
  | request {q : Parser} (h : Unmatched env p q) (c : Request) (hc : ¬ c.Forgets env q) :
      Unmatched env p (c.perform env q)

/-- What recovery remembers stays, and the input is not moved back. -/
structure Onward (p q : Parser) : Prop where
  policy : q.strategy.policy = p.strategy.policy
  index : q.strategy.lastErrorIndex = p.strategy.lastErrorIndex
  states : q.strategy.lastErrorStates = p.strategy.lastErrorStates
  position : p.recognizer.input.position ≤ q.recognizer.input.position

/-- The input is past token `i`, or recovery remembers that it was there in state `s`. -/
def Remembers (p : Parser) (i : Nat) (s : StateId) : Prop :=
  i < p.recognizer.input.position ∨ p.recognizer.input.position = i ∧
    p.strategy.lastErrorIndex = some i ∧ s ∈ p.strategy.lastErrorStates

theorem Onward.refl (p : Parser) : p.Onward p := ⟨rfl, rfl, rfl, Nat.le_refl _⟩

theorem Onward.trans (h : p.Onward q) (h' : q.Onward q') : p.Onward q' :=
  ⟨h'.policy.trans h.policy, h'.index.trans h.index, h'.states.trans h.states,
    Nat.le_trans h.position h'.position⟩

theorem Onward.remembers (h : p.Onward q) (hr : p.Remembers i s) : q.Remembers i s := by
  have hle := h.position
  rcases hr with hlt | ⟨rfl, hindex, hstates⟩
  · exact .inl (Nat.lt_of_lt_of_le hlt hle)
  · rcases Nat.lt_or_eq_of_le hle with hlt | heq
    · exact .inl hlt
    · exact .inr ⟨heq.symm, h.index.trans hindex, h.states ▸ hstates⟩

theorem position_le_consume (p : Parser) :
    p.recognizer.input.position ≤ (p.consume env).recognizer.input.position := by
  rw [input_consume]
  cases heof : p.recognizer.input.current.isEof with
  | true =>
    unfold TokenCursor.consume
    rw [if_pos heof]
  | false => exact Nat.le_of_lt (TokenCursor.position_lt_consume heof)

theorem onward_consume (p : Parser) : p.Onward (p.consume env) :=
  ⟨rfl, rfl, rfl, p.position_le_consume⟩

theorem onward_reportOnce (p : Parser) (e : SyntaxError) : p.Onward (p.reportOnce env e) := by
  unfold reportOnce
  split
  · exact .refl p
  · refine ⟨rfl, rfl, rfl, Nat.le_of_eq ?_⟩
    unfold Recognizer.notify
    dsimp only
    split <;> rfl

theorem onward_skipUpTo (types : TokenSet) (fuel : Nat) (p : Parser) :
    p.Onward (p.skipUpTo env types fuel) := by
  induction fuel generalizing p with
  | zero => exact .refl p
  | succ fuel ih =>
    unfold skipUpTo
    dsimp only
    split
    · exact .refl p
    · exact p.onward_consume.trans (ih _)

/-- With fuel for all tokens that are left, skipping ends where it should. -/
theorem skipUpTo_stops {types : TokenSet} {fuel : Nat} (h : p.recognizer.input.remaining ≤ fuel) :
    (p.skipUpTo env types fuel).recognizer.input.kind = TokenType.eof ∨
      (p.skipUpTo env types fuel).recognizer.input.kind ∈ types := by
  induction fuel generalizing p with
  | zero =>
    have hlt := p.recognizer.input.position_lt
    unfold TokenCursor.remaining at h
    omega
  | succ fuel ih =>
    unfold skipUpTo
    dsimp only
    split
    · rename_i hstop
      rw [Bool.or_eq_true] at hstop
      exact hstop.imp TokenType.isEof_iff.1 of_decide_eq_true
    · rename_i hgo
      have heof : p.recognizer.input.current.isEof = false := by
        rw [Bool.or_eq_true, not_or, Bool.not_eq_true] at hgo
        exact hgo.1
      apply ih
      have hless := TokenCursor.remaining_consume_lt heof
      rw [input_consume]
      omega

/-- A type where recovery picks up again can come after a live invocation. -/
theorem returns_of_mem_recoverySet {r : Recognizer} {token : TokenType} (h : token ∈ r.recoverySet env) :
    ∃ back ∈ r.returnsFrom env r.invocation, token ∈ env.network.nextTokensAt back := by
  unfold Recognizer.recoverySet at h
  rw [TokenSet.mem_erase, TokenSet.mem_foldl_union] at h
  exact h.1.resolve_left TokenSet.not_mem_empty

/-- Recovery drops a token if it is stuck, notes where it is then, and skips. -/
theorem resynchronize_cases (p : Parser) : ∃ noted, p.recognizer.input.position ≤ noted ∧
    (p.isStuck = true → noted = (p.consume env).recognizer.input.position) ∧
    (p.resynchronize env).strategy.policy = p.strategy.policy ∧
    (p.resynchronize env).strategy.lastErrorIndex = some noted ∧
    (p.resynchronize env).strategy.lastErrorStates =
      p.recognizer.state.toList ++ p.strategy.lastErrorStates ∧
    noted ≤ (p.resynchronize env).recognizer.input.position := by
  have hdrop : ∃ q, q = (if p.isStuck then p.consume env else p) ∧ q.strategy = p.strategy ∧
      q.recognizer.state = p.recognizer.state ∧
      p.recognizer.input.position ≤ q.recognizer.input.position := by
    refine ⟨_, rfl, ?_⟩
    split
    · exact ⟨rfl, (p.recognizer.samePlace_consume _).state, p.position_le_consume⟩
    · exact ⟨rfl, rfl, Nat.le_refl _⟩
  obtain ⟨q, hq, hstrategy, hstate, hle⟩ := hdrop
  refine ⟨q.recognizer.input.position, hle, fun hstuck => by rw [hq, if_pos hstuck], ?_⟩
  unfold resynchronize
  rw [← hq]
  dsimp only
  generalize hnoted : ({ q with strategy := { q.strategy with
    lastErrorIndex := some q.recognizer.input.position
    lastErrorStates := q.recognizer.state.toList ++ q.strategy.lastErrorStates } } : Parser) = noted
  have honward : noted.Onward (noted.skipUntil env (q.recognizer.recoverySet env)) :=
    onward_skipUpTo _ _ noted
  subst hnoted
  refine ⟨honward.policy.trans ?_, honward.index, honward.states.trans ?_, honward.position⟩
  · rw [hstrategy]
  · rw [hstrategy, hstate]

/-- After recovery the current token can come after a live invocation, or is the end of input. -/
theorem resynchronize_stops (p : Parser) :
    (p.resynchronize env).recognizer.input.kind = TokenType.eof ∨
      ∃ back ∈ (p.resynchronize env).recognizer.returnsFrom env
          (p.resynchronize env).recognizer.invocation,
        (p.resynchronize env).recognizer.input.kind ∈ env.network.nextTokensAt back := by
  have hplace : ∀ (q : Parser) (types : TokenSet),
      q.recognizer.SamePlace (q.skipUntil env types).recognizer :=
    fun q types => (deeds_skipUpTo types _ q).samePlace
  unfold resynchronize
  generalize (if p.isStuck then p.consume env else p) = q
  dsimp only
  generalize hnoted : ({ q with strategy := { q.strategy with
    lastErrorIndex := some q.recognizer.input.position
    lastErrorStates := q.recognizer.state.toList ++ q.strategy.lastErrorStates } } : Parser) = noted
  have hr : q.recognizer = noted.recognizer := hnoted ▸ rfl
  rw [hr]
  have hskipped := hplace noted (noted.recognizer.recoverySet env)
  refine (skipUpTo_stops (Nat.le_refl _)).imp_right fun hmem => ?_
  apply returns_of_mem_recoverySet
  rw [hskipped.recoverySet]
  exact hmem

/-- Recovery remembers where it was entered and in which states, unless it has moved on. -/
theorem remembers_resynchronize
    (hs : s ∈ p.recognizer.state.toList ++ p.strategy.lastErrorStates) :
    (p.resynchronize env).Remembers p.recognizer.input.position s := by
  obtain ⟨noted, hmoved, -, -, hindex, hstates, hle⟩ := @resynchronize_cases env p
  rcases Nat.lt_or_eq_of_le (Nat.le_trans hmoved hle) with hlt | heq
  · exact .inl hlt
  · obtain rfl : noted = p.recognizer.input.position := by omega
    exact .inr ⟨heq.symm, hindex, hstates ▸ hs⟩

/-- Recovery in whatever state does not forget. -/
theorem Remembers.resynchronize (h : p.Remembers i s) : (p.resynchronize env).Remembers i s := by
  rcases h with hlt | ⟨rfl, -, hmem⟩
  · obtain ⟨noted, hmoved, -, -, -, -, hle⟩ := @resynchronize_cases env p
    exact .inl (by omega)
  · exact remembers_resynchronize (List.mem_append_right _ hmem)

/-- Where recovery remembers that it was in this state, it drops the current token. -/
theorem Remembers.position_lt (h : p.Remembers p.recognizer.input.position s)
    (hs : p.recognizer.state = some s) (heof : p.recognizer.input.current.isEof = false) :
    p.recognizer.input.position < (p.resynchronize env).recognizer.input.position := by
  obtain ⟨noted, -, hdrop, -, -, -, hle⟩ := @resynchronize_cases env p
  rcases h with hlt | ⟨-, hindex, hmem⟩
  · exact absurd hlt (Nat.lt_irrefl _)
  · have hstuck : p.isStuck = true := by
      unfold isStuck
      rw [hindex, hs]
      simpa using hmem
    have hnext := TokenCursor.position_lt_consume heof
    rw [hdrop hstuck, input_consume] at hle
    exact Nat.lt_of_lt_of_le hnext hle

theorem deleteToken?_none (h : (p.deleteToken? env).1 = none) : (p.deleteToken? env).2 = p := by
  unfold deleteToken? at h ⊢
  split at h
  · cases h
  · rename_i hno
    rw [if_neg hno]

theorem onward_syncAt (hc : ∀ t, p.deleteToken? env ≠ (some t, (syncAt env s p).2)) :
    p.Onward (syncAt env s p).2 := by
  have hkeep := @deleteToken?_none env p
  unfold syncAt at hc ⊢
  dsimp only at hc ⊢
  split
  case h_5 | h_6 => exact (p.onward_reportOnce _).trans (onward_skipUpTo _ _ _)
  case h_7 => exact .refl p
  all_goals
    generalize p.deleteToken? env = result at hc hkeep
    obtain ⟨_ | t, q⟩ := result
    · obtain rfl : q = p := hkeep rfl
      exact .refl q
    · simp_all

/-- A call that forgets nothing recovers, or leaves what recovery remembers. -/
theorem onward_perform {c : Request} (hp : p.strategy.policy = .recover) (hc : ¬ c.Forgets env p) :
    p.Onward (c.perform env p) ∨ c.perform env p = p.resynchronize env := by
  cases c with
  | reset | reportMatch => exact absurd trivial hc
  | reportError e => exact .inl (p.onward_reportOnce _)
  | recover e =>
    right
    show (Parser.recover env e p).2 = _
    unfold Parser.recover
    rw [hp]
  | recoverInline =>
    left
    have hnone : (p.deleteToken? env).1 = none := by simpa [Request.Forgets] using hc
    have hkeep := deleteToken?_none hnone
    show p.Onward (Parser.recoverInline env p).2
    unfold Parser.recoverInline
    rw [hp]
    dsimp only
    generalize p.deleteToken? env = result at hnone hkeep
    obtain ⟨t, q⟩ := result
    obtain rfl : t = none := hnone
    obtain rfl : q = p := hkeep
    dsimp only
    split
    · exact q.onward_reportOnce _
    · exact .refl q
  | sync =>
    left
    have hno : ∀ t, p.deleteToken? env ≠ (some t, (Parser.sync env p).2) := fun t ht => hc ⟨t, ht⟩
    show p.Onward (Parser.sync env p).2
    unfold Parser.sync at hno ⊢
    split
    · exact .refl p
    · rename_i hgo
      rw [if_neg hgo] at hno
      cases hs : p.recognizer.state with
      | none => exact .refl p
      | some s =>
        rw [hs] at hno
        dsimp only at hno ⊢
        split
        · exact ⟨rfl, rfl, rfl, Nat.le_refl _⟩
        · rename_i hmem
          rw [if_neg hmem] at hno
          split
          · exact ⟨rfl, rfl, rfl, Nat.le_refl _⟩
          · rename_i heps
            rw [if_neg heps] at hno
            exact onward_syncAt hno

/-- What is remembered is remembered as long as nothing matches. -/
theorem Unmatched.remembers (h : Unmatched env p q) (hp : p.strategy.policy = .recover)
    (hr : p.Remembers i s) : q.strategy.policy = .recover ∧ q.Remembers i s := by
  induction h with
  | refl => exact ⟨hp, hr⟩
  | elapse _ hs hi ih =>
    obtain ⟨hpolicy, hrem⟩ := ih
    refine ⟨by rw [hs, hpolicy], Onward.remembers ⟨?_, ?_, ?_, hi⟩ hrem⟩ <;> rw [hs]
  | @request q _ c hc ih =>
    obtain ⟨hpolicy, hrem⟩ := ih
    rcases onward_perform hpolicy hc with honward | heq
    · exact ⟨honward.policy.trans hpolicy, honward.remembers hrem⟩
    · obtain ⟨-, -, -, hpol, -⟩ := @resynchronize_cases env q
      rw [heq]
      exact ⟨hpol.trans hpolicy, hrem.resynchronize⟩

/-- Recovery is never refused. After it the current token is the end of input or can come next where one of the
live invocations returns to. If later, after calls and other doings without a match, it is entered again at the
same token and in the same state, it moves past that token unless the input ends there. -/
theorem recover_gets_on (hp : p.strategy.policy = .recover) (e : RecognitionError) :
    ∃ after, recover env e p = (.ok (), after) ∧
      (after.recognizer.input.kind = TokenType.eof ∨
        ∃ back ∈ after.recognizer.returnsFrom env after.recognizer.invocation,
          after.recognizer.input.kind ∈ env.network.nextTokensAt back) ∧
      ∀ again, Unmatched env after again → ∀ s, p.recognizer.state = some s →
        again.recognizer.state = some s →
        again.recognizer.input.position = p.recognizer.input.position →
        again.recognizer.input.kind ≠ TokenType.eof → ∀ e',
          again.recognizer.input.position < (recover env e' again).2.recognizer.input.position := by
  have hrun : ∀ {q : Parser} (e : RecognitionError), q.strategy.policy = .recover →
      recover env e q = (.ok (), q.resynchronize env) := by
    intro q e hq
    unfold recover
    rw [hq]
  refine ⟨_, hrun e hp, p.resynchronize_stops, ?_⟩
  intro again hagain s hs hs' hi heof e'
  obtain ⟨-, -, -, hpolicy, -⟩ := @resynchronize_cases env p
  have hhere : s ∈ p.recognizer.state.toList ++ p.strategy.lastErrorStates := by simp [hs]
  obtain ⟨hpolicy', hrem⟩ := hagain.remembers (hpolicy.trans hp) (remembers_resynchronize hhere)
  rw [← hi] at hrem
  have hnot : again.recognizer.input.current.isEof = false := by
    rw [Bool.eq_false_iff]
    exact fun he => heof (TokenType.isEof_iff.1 he)
  rw [hrun e' hpolicy']
  exact hrem.position_lt hs' hnot

end Parser

/-- `s` is `r` and then C, and `r` is A. -/
def led : Grammar :=
  let (a, g) := ({} : Grammar).addToken "A"
  let (c, g) := g.addToken "C"
  let (s, g) := g.addRule "s"
  let (r, g) := g.addRule "r"
  (g.define s (.plain (.seq [.rule r, .token c]))).define r (.plain (.token a))

def ledNetwork : Network where
  states := #[⟨.ruleStart, 0, [⟨4, .epsilon⟩], none, false⟩, ⟨.ruleStop, 0, [], none, false⟩,
    ⟨.ruleStart, 1, [⟨8, .epsilon⟩], none, false⟩, ⟨.ruleStop, 1, [], none, false⟩,
    ⟨.basic, 0, [⟨2, .rule 1 5 0⟩], none, false⟩, ⟨.basic, 0, [⟨6, .epsilon⟩], none, false⟩,
    ⟨.basic, 0, [⟨7, .atom 2⟩], none, false⟩, ⟨.basic, 0, [⟨1, .epsilon⟩], none, false⟩,
    ⟨.basic, 1, [⟨9, .atom 1⟩], none, false⟩, ⟨.basic, 1, [⟨3, .epsilon⟩], none, false⟩]
  rules := #[⟨"s", 0, 1, false⟩, ⟨"r", 2, 3, false⟩]
  maxType := 2
  nextTokens := #[.ofList [1], .ofList [-2], .ofList [1], .ofList [-2], .ofList [1], .ofList [2],
    .ofList [2], .ofList [-2], .ofList [1], .ofList [-2]]
  ruleFollow := #[[], [5]]
  returnPrecedence := #[none, none, none, none, none, some 0, none, none, none, none]
  edgeCount := 8

def ledSetting : Setting := { grammar := ⟨ledNetwork, led.names⟩ }

set_option maxRecDepth 20000 in
theorem compile_led : led.compile = .ok ledSetting.grammar := by cbv

/-- Inside `r`, before A, at the input C. -/
def ledAtC : Parser :=
  let r := Recognizer.start ledSetting (.ofTokens #[{ kind := 2 }] defaultChannel) {}
  let r := { (r.enterRule ledSetting 0).2 with state := some 4 }
  { recognizer := { (r.enterRule ledSetting 1).2 with state := some 8 } }

/-- Recovery keeps C at first, since it can come after `r`. After another report it drops it. -/
theorem gets_on_led : ∃ after again, recover ledSetting default ledAtC = (.ok (), after) ∧
    Unmatched ledSetting after again ∧
    again.recognizer.input.position = ledAtC.recognizer.input.position ∧
    again.recognizer.input.position <
      (recover ledSetting default again).2.recognizer.input.position := by
  obtain ⟨after, hrun, -, hagain⟩ := @recover_gets_on ledSetting ledAtC rfl default
  obtain rfl : after = ledAtC.resynchronize ledSetting := (Prod.mk.inj hrun).2.symm
  have hreported : Unmatched ledSetting (ledAtC.resynchronize ledSetting)
      ((Request.reportError default).perform ledSetting (ledAtC.resynchronize ledSetting)) :=
    .request .refl _ id
  have hhere : ((Request.reportError default).perform ledSetting
      (ledAtC.resynchronize ledSetting)).recognizer.input.position =
        ledAtC.recognizer.input.position := by cbv
  have hstate : ((Request.reportError default).perform ledSetting
      (ledAtC.resynchronize ledSetting)).recognizer.state = some 8 := by cbv
  have hkind : ((Request.reportError default).perform ledSetting
      (ledAtC.resynchronize ledSetting)).recognizer.input.kind ≠ TokenType.eof := by cbv
  exact ⟨_, _, hrun, hreported, hhere, hagain _ hreported 8 rfl hstate hhere hkind default⟩

end AdaptiveParsing
