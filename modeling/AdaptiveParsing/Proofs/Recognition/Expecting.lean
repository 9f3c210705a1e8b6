import AdaptiveParsing.Proofs.Lookahead.Acceptance
import AdaptiveParsing.Proofs.Lookahead.Searching
import AdaptiveParsing.Proofs.Network.Language
import AdaptiveParsing.Proofs.Recognition.Bail
import AdaptiveParsing.Proofs.Recognition.Whereabouts
/-!
What a mismatch says is expected. A mismatch is described from where the parse stands, or from where it
stood when a token was first found missing (`Interpreter.visit_mismatch`). To either point a way leads from
the start of the rule with the tokens that were taken before it (`Interpreter.Took.reads`), and where it
would return to is still known (`Tracked.homeward`). So the types are right for that point, and right for
the offending token if no token was taken since. Main statement: `Interpreter.accepts_of_mismatch`.
-/

namespace AdaptiveParsing

open AdaptiveParsing.Parser Relation

variable {env : Setting} {t : Transition}

/-- A step takes a token just where the edge of the state does. -/
theorem Network.Checked.isConsuming_iff_of_step {n : Network} {p q : Place} {w : List TokenType}
    (hn : n.Checked) (h : n.Step p w q) : (n.state p.state).isConsuming = true ↔ w ≠ [] := by
  rw [hn.isConsuming_iff]
  cases h with
  | free ht hfollow =>
    refine iff_of_false ?_ (fun hw => hw rfl)
    rintro ⟨t', hsingle, hc⟩
    rw [hsingle, List.mem_singleton] at ht
    rw [ht, follow?_of_isConsuming hc] at hfollow
    cases hfollow
  | back hstop _ =>
    rw [hn.last _ hstop]
    simp
  | take ht hm =>
    have hc := isConsuming_of_matches hm
    exact iff_of_true ⟨_, hn.single _ _ ht hc, hc⟩ (List.cons_ne_nil _ _)

/-- Lookahead stops for want of an alternative only. -/
theorem Recognizer.predict_mismatch (r : Recognizer) {d : DecisionId} {e : RecognitionError}
    (h : (r.predict env d).1 = .error (.failure (.recognition e))) : e.kind ≠ .inputMismatch := by
  unfold predict at h
  split at h
  · cases h
    exact nofun
  · dsimp only at h
    split at h <;> cases h
    exact nofun

namespace Parser

variable {p p' : Parser} {e : RecognitionError}

/-- The mismatch is described from where the parse stands, or from the point that is remembered. -/
structure Describes (env : Setting) (p : Parser) (e : RecognitionError) : Prop where
  expected : e.expected = p.recognizer.expectedAt env e.state e.invocation
  point : e.invocation = p.recognizer.invocation ∧ e.state = p.recognizer.state ∨
    ∃ s, e.state = some s ∧ p.strategy.syncPoint = some (e.invocation, s)

/-- The point that is remembered was so before, or is where the parse stands. -/
def Points (p p' : Parser) : Prop := ∀ id s, p'.strategy.syncPoint = some (id, s) →
  p.strategy.syncPoint = some (id, s) ∨ p.recognizer.invocation = id ∧ p.recognizer.state = some s

theorem Points.of_eq (h : p'.strategy.syncPoint = p.strategy.syncPoint) : p.Points p' :=
  fun _ _ hpoint => .inl (h ▸ hpoint)

theorem describes_inputMismatch (p : Parser) : p.Describes env (p.recognizer.inputMismatch env) :=
  ⟨rfl, .inl ⟨rfl, rfl⟩⟩

theorem describes_mismatchAtSyncPoint (p : Parser) : p.Describes env (p.mismatchAtSyncPoint env) := by
  unfold mismatchAtSyncPoint
  split
  · exact p.describes_inputMismatch
  · rename_i id s hpoint
    exact ⟨rfl, .inr ⟨s, rfl, hpoint⟩⟩

/-- Without a report, a token that does not match stops the rule with a mismatch at it. -/
theorem recoverInline_mismatch (ht : p.Tidy)
    (h : recoverInline env p = (.error (.failure (.recognition e)), p')) (hs : p'.Silent) :
    p' = p ∧ e = p.mismatchAtSyncPoint env := by
  unfold recoverInline at h
  split at h
  · cases h
  · have hd := @leads_deleteToken? env p
    have hnone := @deleteToken?_of_silent env p ht
    generalize p.deleteToken? env = result at h hd hnone
    obtain ⟨_ | t, q⟩ := result
    · dsimp only at h hd hnone
      split at h
      · cases h
      · cases h
        cases hnone hs
        exact ⟨rfl, rfl⟩
    · cases h

theorem match_mismatch {m : ParserM Token} {c : Prop} [Decidable c] {q : Parser} (ht : p.Tidy)
    (hm : m p = if c then takeMatch env q else recoverToken env p)
    (h : (discard m : ParserM Unit) p = (.error (.failure (.recognition e)), p')) (hs : p'.Silent) :
    p' = p ∧ e = p.mismatchAtSyncPoint env := by
  rw [discard_run, hm] at h
  split at h
  · rename_i hc
    split at hc <;> cases h
  · rename_i hc
    cases h
    split at hc
    · cases hc
    · rw [recoverToken_run] at hc
      generalize hr : recoverInline env p = result at hc
      obtain ⟨halt | t, q⟩ := result
      · cases hc
        exact recoverInline_mismatch ht hr hs
      · cases hc

/-- Without a report, the check before a decision remembers where the parse stands, if anything. -/
theorem points_sync (ht : p.Tidy) (hs : (sync env p).2.Silent) : p.Points (sync env p).2 := by
  obtain ⟨point, heq, rfl | rfl | ⟨s, hstate, rfl⟩⟩ := sync_eq_of_silent ht hs
  · exact .of_eq (congrArg (fun p => p.strategy.syncPoint) heq)
  · intro id s hpoint
    rw [heq] at hpoint
    cases hpoint
  · intro id s' hpoint
    rw [heq] at hpoint
    obtain ⟨rfl, rfl⟩ := Prod.mk.inj (Option.some.inj hpoint)
    exact .inr ⟨rfl, hstate⟩

/-- At a decision the check stops for want of an alternative only. -/
theorem sync_mismatch {s : StateId} {d : DecisionId} (hstate : p.recognizer.state = some s)
    (hd : (env.network.state s).decision = some d)
    (h : sync env p = (.error (.failure (.recognition e)), p')) : e.kind ≠ .inputMismatch := by
  unfold sync at h
  split at h
  · cases h
  · rw [hstate] at h
    dsimp only at h
    split at h
    · cases h
    · split at h
      · cases h
      · unfold syncAt at h
        dsimp only at h
        rw [hd] at h
        split at h
        case h_5 | h_6 | h_7 => cases h
        all_goals
          generalize p.deleteToken? env = result at h
          obtain ⟨t, q⟩ := result
          cases t <;> cases h
          exact nofun

end Parser

namespace Interpreter

variable {p p' : Parser} {i j k : Interpreter} {s : StateId} {e : RecognitionError} {rule : RuleId}
  {root : InvocationId} {v w : List TokenType}

/-- Without a report, choosing an edge remembers where the parse stands, if anything. -/
theorem points_chooseEdge {here : NetworkState} (ht : p.Tidy)
    (hs : (chooseEdge env here p).2.Silent) : p.Points (chooseEdge env here p).2 := by
  unfold chooseEdge at hs ⊢
  cases hd : here.decision with
  | none => exact .of_eq rfl
  | some d =>
    rw [hd] at hs
    dsimp only at hs ⊢
    split
    · rename_i hlen
      rw [if_pos hlen, bind_run] at hs
      rw [bind_run]
      have hsync := @points_sync env p ht
      generalize sync env p = result at hs hsync
      obtain ⟨halt | u, q⟩ := result
      · exact hsync hs
      · exact hsync ((honest_predict d q).silent hs)
    · exact .of_eq rfl

/-- A decision stops for want of an alternative only. -/
theorem chooseEdge_mismatch (hstate : p.recognizer.state = some s)
    (h : chooseEdge env (env.network.state s) p = (.error (.failure (.recognition e)), p')) :
    e.kind ≠ .inputMismatch := by
  unfold chooseEdge at h
  cases hd : (env.network.state s).decision with
  | none =>
    rw [hd] at h
    cases h
  | some d =>
    rw [hd] at h
    dsimp only at h
    split at h
    · rw [bind_run] at h
      generalize hsync : sync env p = result at h
      obtain ⟨halt | u, q⟩ := result
      · cases h
        exact sync_mismatch hstate hd hsync
      · have hout : (q.recognizer.predict env d).1.mapError id =
          .error (.failure (.recognition e)) := (Prod.mk.inj h).1
        cases hpredict : (q.recognizer.predict env d).1 with
        | ok alt =>
          rw [hpredict] at hout
          cases hout
        | error halt =>
          rw [hpredict] at hout
          cases hout
          exact q.recognizer.predict_mismatch hpredict
    · cases h

/-- Without a report, an edge that is not passed is described from the point that is remembered. -/
theorem passEdge_mismatch {here : NetworkState} (ht : p.Tidy)
    (h : passEdge env here t p = (.error (.failure (.recognition e)), p')) (hs : p'.Silent)
    (hkind : e.kind = .inputMismatch) : p' = p ∧ p.Describes env e := by
  have hmatch : p' = p ∧ e = p.mismatchAtSyncPoint env → p' = p ∧ p.Describes env e := by
    rintro ⟨rfl, rfl⟩
    exact ⟨rfl, p'.describes_mismatchAtSyncPoint⟩
  unfold passEdge at h
  cases hk : t.kind with
  | epsilon =>
    rw [hk] at h
    dsimp only at h
    split at h <;> cases h
  | atom k =>
    rw [hk] at h
    exact hmatch (match_mismatch ht (matchToken_run k) h hs)
  | range _ _ | set _ | notSet _ =>
    rw [hk] at h
    exact hmatch (match_mismatch ht (matchSet_run _) h hs)
  | wildcard =>
    rw [hk] at h
    exact hmatch (match_mismatch ht matchAny_run h hs)
  | rule _ _ _ | action _ _ =>
    rw [hk] at h
    cases h
  | predicate c index _ =>
    rw [hk] at h
    dsimp only at h
    rw [get_run] at h
    cases hh : p.recognizer.holds env c index with
    | true =>
      rw [hh] at h
      cases h
    | false =>
      rw [hh] at h
      cases h
      cases hkind
  | precedence level =>
    rw [hk] at h
    dsimp only at h
    unfold Parser.checkPrecedence at h
    rw [get_run] at h
    cases hl : p.recognizer.permits level with
    | true =>
      simp only [Recognizer.checkPrecedence, hl] at h
      cases h
    | false =>
      simp only [Recognizer.checkPrecedence, hl] at h
      cases h
      cases hkind

/-- Without a report, a state that is not left is described from where the parse stands, or from the point
that is remembered. -/
theorem visit_mismatch (ht : i.parser.Tidy) (hstate : i.recognizer.state = some s)
    (hv : i.visit env (env.network.state s) = (.error (.failure (.recognition e)), j))
    (hs : j.parser.Silent) (hkind : e.kind = .inputMismatch) :
    Deeds env i.parser j.parser ∧ j.parser.Describes env e ∧ i.parser.Points j.parser := by
  have hd := @deeds_chooseEdge env (env.network.state s) i.parser
  have hpoints := @points_chooseEdge env i.parser (env.network.state s) ht
  have hleads := @honest_chooseEdge env (env.network.state s) i.parser
  unfold visit at hv
  dsimp only [run] at hv
  generalize hch : chooseEdge env (env.network.state s) i.parser = result at hv hd hpoints hleads
  obtain ⟨halt | alt, p⟩ := result
  · cases hv
    exact absurd hkind (chooseEdge_mismatch hstate hch)
  · dsimp only at hv hd hpoints hleads
    split at hv
    · rename_i t _
      unfold followEdge at hv
      have hpass : ∀ q, passEdge env (env.network.state s) t p =
          (.error (.failure (.recognition e)), q) → q.Silent →
          Deeds env i.parser q ∧ q.Describes env e ∧ i.parser.Points q := by
        intro q hq hsilent
        obtain ⟨rfl, hdescribes⟩ := passEdge_mismatch (hleads.tidy ht) hq hsilent hkind
        exact ⟨hd, hdescribes, hpoints hsilent⟩
      cases hk : t.kind with
      | rule c follow precedence =>
        rw [hk] at hv
        dsimp only at hv
        generalize he : enter env { i with parser := p } c precedence = entered at hv
        obtain ⟨halt | id, i₁⟩ := entered
        · cases hv
          obtain ⟨-, name, limit, hdeep⟩ := enter_eq_error he
          cases hdeep
        · cases hv
      | _ =>
        rw [hk] at hv
        dsimp only [run] at hv
        generalize hq : passEdge env (env.network.state s) t p = passed at hv
        obtain ⟨halt | u, q⟩ := passed
        · cases hv
          exact hpass q hq hs
        · cases hv
    · cases hv
      exact ⟨hd, p.describes_inputMismatch, hpoints hs⟩

/-- Without a report, a step remembers where the parse stood before it, if anything. -/
theorem Goes.points (hgo : i.Goes env j) (ht : i.parser.Tidy) (hs : j.parser.Silent) :
    i.parser.Points j.parser := by
  obtain ⟨s, -, ⟨-, -, rfl⟩ | ⟨-, hv⟩⟩ := hgo
  · exact .of_eq (congrArg Strategy.syncPoint (onlyTree_leaveRule _).2)
  · obtain ⟨alt, p, t, hch, -, hf, hp, htidy, -⟩ := visit_eq_ok ht hv hs
    have hpoints := @points_chooseEdge env i.parser (env.network.state s) ht
    rw [hch] at hpoints
    have hkeep : j.parser.strategy.syncPoint = p.strategy.syncPoint := by
      rcases followEdge_eq_ok hf with ⟨c, follow, precedence, id, i₁, -, he, rfl⟩ | ⟨-, q, hq, rfl⟩
      · have hside := (@onlyTree_enter env { i with parser := p } c precedence).2
        rw [he] at hside
        exact congrArg Strategy.syncPoint hside
      · obtain ⟨-, -, hsame⟩ := passEdge_eq_ok htidy hq hs
        exact hsame
    intro id s' hpoint
    exact hpoints hp id s' (hkeep ▸ hpoint)

/-- The type of the token that is taken next, if the parse stands where one is to be taken. -/
def takes (env : Setting) (i : Interpreter) : List TokenType :=
  if i.recognizer.state.any fun s => (env.network.state s).isConsuming then [i.recognizer.input.kind]
  else []

/-- The steps of a parse from one interpreter to another, and the types of the tokens that they take. -/
inductive Took (env : Setting) (rule : RuleId) (root : InvocationId) (i : Interpreter) :
    List TokenType → Interpreter → Prop
  | refl : Took env rule root i [] i
  | step {w : List TokenType} {j k : Interpreter} (h : Took env rule root i w j)
      (hs : Follows env rule root j k) : Took env rule root i (w ++ j.takes env) k

/-- Makes so many steps. None if the parse ends before. -/
def runSteps (env : Setting) (rule : RuleId) (root : InvocationId) :
    Nat → Interpreter → Option (List TokenType × Interpreter)
  | 0, i => some ([], i)
  | steps + 1, i =>
    match step env rule root i with
    | .running j => (runSteps env rule root steps j).map fun (w, k) => (i.takes env ++ w, k)
    | .finished _ _ => none

theorem Took.follows (h : Took env rule root i w j) : ReflTransGen (Follows env rule root) i j := by
  induction h with
  | refl => exact .refl
  | step _ hs ih => exact ih.tail hs

theorem Took.trans (h : Took env rule root i v j) (h' : Took env rule root j w k) :
    Took env rule root i (v ++ w) k := by
  induction h' with
  | refl =>
    rw [List.append_nil]
    exact h
  | step _ hs ih =>
    rw [← List.append_assoc]
    exact ih.step hs

theorem took_runSteps {steps : Nat} (h : runSteps env rule root steps i = some (w, j)) :
    Took env rule root i w j := by
  induction steps generalizing i w with
  | zero =>
    cases h
    exact .refl
  | succ steps ih =>
    unfold runSteps at h
    split at h
    · rename_i k hstep
      obtain ⟨⟨v, l⟩, hrun, heq⟩ := Option.map_eq_some_iff.1 h
      obtain ⟨rfl, rfl⟩ := Prod.mk.inj heq
      have hfirst : Took env rule root i ([] ++ i.takes env) k := .step .refl hstep
      exact hfirst.trans (ih hrun)
    · cases h

theorem Took.leads (h : Took env rule root i w j) : i.parser.Leads j.parser := by
  induction h with
  | refl => exact .refl _
  | @step w j k _ hs ih =>
    have hleads := @leads_step env j rule root
    rw [hs] at hleads
    exact ih.trans hleads

/-- While nothing is reported, the point that is remembered is one where the parse stood on its way, unless
it was remembered before. -/
theorem Took.points (h : Took env rule root i w j) (ht : i.parser.Tidy) (hs : j.parser.Silent)
    {id : Option InvocationId} (hpoint : j.parser.strategy.syncPoint = some (id, s)) :
    i.parser.strategy.syncPoint = some (id, s) ∨ ∃ u v k, w = u ++ v ∧ Took env rule root i u k ∧
      Took env rule root k v j ∧ k.recognizer.invocation = id ∧ k.recognizer.state = some s := by
  induction h with
  | refl => exact .inl hpoint
  | @step w j k h hstep ih =>
    have hleads := @leads_step env j rule root
    rw [hstep] at hleads
    have hgo := step_running (h.leads.tidy ht) hstep hs
    rcases hgo.points (h.leads.tidy ht) hs id s hpoint with hpoint | ⟨hid, hstate⟩
    · rcases ih (hleads.silent hs) hpoint with hpoint | ⟨u, v, l, rfl, hu, hv, hl⟩
      · exact .inl hpoint
      · exact .inr ⟨u, v ++ j.takes env, l, List.append_assoc _ _ _, hu, hv.step hstep, hl⟩
    · have hlast : Took env rule root j ([] ++ j.takes env) k := Took.refl.step hstep
      exact .inr ⟨w, _, j, rfl, h, hlast, hid, hstate⟩

end Interpreter

variable {G : Guide} {g : Grammar} {i j k : Interpreter} {a : Station} {rest : List Station}
  {rule : RuleId} {root : InvocationId} {first : TokenCursor} {v w : List TokenType}

/-- The parse stands where a way from the start of its rule leads with the tokens that were read. -/
structure Arrives (env : Setting) (G : Guide) (rule : RuleId) (root : InvocationId)
    (first : TokenCursor) (w : List TokenType) (j : Interpreter) (a : Station) (rest : List Station) :
    Prop where
  tracked : ∃ done leaves, Tracked env G rule root first j (a :: rest) done leaves ∧
    Counted env G ⟨j, a :: rest, done, leaves⟩
  way : ∃ q, G.network.Reads (G.network.origin rule) w q ∧
    G.network.Alike (G.place j.recognizer.forest a rest) q
  read : ∃ tokens, tokens.map Token.kind = w ∧ Consumed first j.recognizer.input tokens

/-- While nothing is reported, a parse stands where a way from the start of its rule leads with the tokens
that its steps took. -/
theorem Interpreter.Took.arrives {i₀ : Interpreter} (hG : G.Fits) (hn : G.network.Checked)
    (hnet : env.network = G.network) (hfree : G.network.PredicateFree)
    (hrule : rule < G.network.rules.size) (hi : i.Fresh)
    (hnesting : i.recognizer.nesting = { limit := env.config.maxDepth })
    (hstop : i.recognizer.input.Stopped)
    (hindex : ∀ t ∈ i.recognizer.input.tokens, t.isConjured = false)
    (hle : ∀ t ∈ i.recognizer.input.tokens,
      TokenType.firstUser ≤ t.kind → t.kind ≤ G.network.maxType)
    (hen : i.enter env rule 0 = (.ok root, i₀)) (htook : Took env rule root i₀ w j)
    (hs : j.parser.Silent) : ∃ a rest, Arrives env G rule root i.recognizer.input w j a rest := by
  have htidy : i.parser.Tidy := fun _ => hi.recovering
  have hopened := @leads_enter env i rule 0
  rw [hen] at hopened
  induction htook with
  | refl =>
    have h := tracked_enter hG hnet hrule hi hstop hen
    have hinput := (@onlyTree_enter env i rule 0).1.input
    rw [hen] at hinput
    refine ⟨_, _, ⟨_, _, h, counted_enter hnet hi hnesting hen⟩, ⟨_, .refl, ?_⟩, [], rfl, ?_⟩
    · have hfloor : (i₀.recognizer.forest.get root).precedence = 0 := (h.outermost _ rfl).2.1
      refine .of_eq ?_
      unfold Guide.place
      simp only [hfloor]
      rfl
    · rw [hinput]
      exact .refl hstop
  | @step w j k htook hstep ih =>
    have hleads := @leads_step env j rule root
    rw [hstep] at hleads
    have htidy' := htook.leads.tidy (hopened.tidy htidy)
    have hgo := step_running htidy' hstep hs
    obtain ⟨a, rest, ⟨done, leaves, h, hc⟩, ⟨q, hq, hlike⟩, read, hread, hconsumed⟩ :=
      ih (hleads.silent hs)
    have hcurrent : j.recognizer.input.current ∈ i.recognizer.input.tokens := by
      rw [← hconsumed.along.tokens]
      exact Array.getElem_mem _
    obtain ⟨a', rest', done', leaves', h', hc', u, x, hu, hlike', hword⟩ :=
      h.moves_of_goes hG hnet hindex hfree hc (hle _ hcurrent) htidy' hgo hs
    have hin := h.inside hG hn
    obtain ⟨y, hy, hxy⟩ := hlike.step hG.toShaped hin hu
    have htakes : u = j.takes env := by
      have hstate : j.recognizer.state = some a.state := h.state
      have hiff : (G.network.state a.state).isConsuming = true ↔ u ≠ [] :=
        hn.isConsuming_iff_of_step hu
      unfold takes
      rw [hstate, Option.any_some, hnet]
      rcases hword with ⟨rfl, -⟩ | ⟨rfl, -⟩
      · rw [if_neg fun hany => hiff.1 hany rfl]
      · rw [if_pos (hiff.2 (List.cons_ne_nil _ _))]
    refine ⟨a', rest', ⟨done', leaves', h', hc'⟩, ⟨y, ?_, hlike'.trans hxy⟩, ?_⟩
    · rw [← htakes]
      exact hq.step hy
    · rw [← htakes]
      rcases hword with ⟨rfl, hinput⟩ | ⟨rfl, hinput⟩
      · refine ⟨read, by rw [hread, List.append_nil], ?_⟩
        rwa [hinput]
      · refine ⟨read ++ [j.recognizer.input.current], ?_, ?_⟩
        · rw [List.map_append, hread]
          rfl
        · rw [hinput]
          exact hconsumed.passed hindex .one

/-- What is expected at a point where the parse stood stays the same, and is what comes next past a way to it
from the start of the rule. -/
theorem Arrives.expectedAt (hG : G.Fits) (hnet : env.network = G.network)
    (hindex : ∀ t ∈ first.tokens, t.isConjured = false)
    (hstart : ∀ r < G.network.rules.size, G.network.followOf? (G.network.rule r).start = none)
    (h : Arrives env G rule root first w k a rest) : ∃ q,
      G.network.Reads (G.network.origin rule) w q ∧ ∀ j r, Interpreter.Turns env k j →
        j.recognizer.SamePlace r → r.expectedAt env k.recognizer.state k.recognizer.invocation =
          G.network.expectedTokens q.state (q.returns.map Frame.returnState) := by
  obtain ⟨⟨done, leaves, h, hc⟩, ⟨q, hq, hlike⟩, -⟩ := h
  refine ⟨q, hq, fun j r hturns hsame => ?_⟩
  have hlocated := h.located hc
  have hj := h.homeward hG hnet hindex hstart hturns (hlocated.linked.homeward hG hlocated.lt)
  have hr := hj.keep (Nat.le_of_eq hsame.size.symm) fun id _ => hsame.origin id
  rw [← hnet] at hr
  rw [show k.recognizer.state = some a.state from h.state,
    show k.recognizer.invocation = some a.id from h.invocation]
  unfold Recognizer.expectedAt
  rw [hr.returnsFrom, hnet, hlike.returnStates, hlike.state]
  rfl

/-- A mismatch at which nothing was reported yet is described from a point where the parse stood on its way,
and each type that it says is expected was acceptable there: some way from the start of the rule takes what
had been taken up to that point, and then a token of this type. -/
theorem Interpreter.accepts_of_mismatch {tokens : Array Token} {channel start : Nat} {i₀ j' : Interpreter}
    {s : StateId} {e : RecognitionError} (hg : g.compile = .ok env.grammar) (hfree : g.PredicateFree)
    (heps : env.network.EpsilonFree) (hrule : rule < g.rules.size) (hi : i.Fresh)
    (hpoint : i.parser.strategy.syncPoint = none)
    (hnesting : i.recognizer.nesting = { limit := env.config.maxDepth })
    (hinput : i.recognizer.input = (TokenCursor.ofTokens tokens channel).seek start)
    (hle : ∀ t ∈ i.recognizer.input.tokens,
      TokenType.firstUser ≤ t.kind → t.kind ≤ env.network.maxType)
    (hen : i.enter env rule 0 = (.ok root, i₀)) (htook : Took env rule root i₀ w j)
    (hstate : j.recognizer.state = some s)
    (hv : j.visit env (env.network.state s) = (.error (.failure (.recognition e)), j'))
    (hkind : e.kind = .inputMismatch) (hs : j'.parser.Silent) :
    (∃ u v k, w = u ++ v ∧ Took env rule root i₀ u k ∧ Took env rule root k v j ∧
      k.recognizer.invocation = e.invocation ∧ k.recognizer.state = e.state) ∧
    ∀ u v k, Took env rule root i₀ u k → Took env rule root k v j →
      k.recognizer.invocation = e.invocation → k.recognizer.state = e.state →
        ∀ token ∈ e.expected, env.network.Accepts rule u token := by
  obtain ⟨G, hnet, -, -, hG⟩ := Grammar.exists_guide hg fun _ _ _ _ _ => True
  have hnet' : env.network = G.network := hnet.symm
  have hsize : rule < G.network.rules.size := by
    rw [hnet, (Grammar.shaped_compile hg).2]
    exact hrule
  have hn : G.network.Checked := hnet ▸ Grammar.checked_compile hg
  have hfree' : G.network.PredicateFree := hnet ▸ Grammar.predicateFree_compile hg hfree
  obtain ⟨hstop, hindex⟩ := stopped_of_input hinput
  rw [hnet'] at hle
  have hopened := @leads_enter env i rule 0
  rw [hen] at hopened
  have htidy₀ : i₀.parser.Tidy := hopened.tidy fun _ => hi.recovering
  have htidy := htook.leads.tidy htidy₀
  have hsilent : j.parser.Silent := by
    have hleads := @leads_visit env j (env.network.state s)
    rw [hv] at hleads
    exact hleads.silent hs
  obtain ⟨hdeeds, hdescribes, hpoints⟩ := visit_mismatch htidy hstate hv hs hkind
  have hplace := hdeeds.samePlace
  have hfresh : i₀.parser.strategy.syncPoint = none := by
    have hside := (@onlyTree_enter env i rule 0).2
    rw [hen] at hside
    rw [hside]
    exact hpoint
  refine ⟨?_, ?_⟩
  · have hhere : e.invocation = j.recognizer.invocation ∧ e.state = j.recognizer.state →
        ∃ u v k, w = u ++ v ∧ Took env rule root i₀ u k ∧ Took env rule root k v j ∧
          k.recognizer.invocation = e.invocation ∧ k.recognizer.state = e.state := by
      rintro ⟨hid, hst⟩
      exact ⟨w, [], j, (List.append_nil w).symm, htook, .refl, hid.symm, hst.symm⟩
    rcases hdescribes.point with ⟨hid, hst⟩ | ⟨s', hst, hremembered⟩
    · exact hhere ⟨hid.trans hplace.invocation, hst.trans hplace.state⟩
    · rcases hpoints _ _ hremembered with hremembered | ⟨hid, hstate'⟩
      · rcases htook.points htidy₀ hsilent hremembered with hbefore | ⟨u, v, k, hw, hu, hv, hid, hst'⟩
        · rw [hfresh] at hbefore
          cases hbefore
        · exact ⟨u, v, k, hw, hu, hv, hid, hst'.trans hst.symm⟩
      · exact hhere ⟨hid.symm, hst.trans hstate'.symm⟩
  · intro u v k hu hv hid hst token htoken
    obtain ⟨a, rest, hk⟩ := hu.arrives hG hn hnet' hfree' hsize hi hnesting hstop hindex hle hen
      (hv.leads.silent hsilent)
    obtain ⟨q, hq, hexpected⟩ := hk.expectedAt hG hnet' hindex (hnet ▸ fun _ => Grammar.followOf?_start hg)
    rw [hdescribes.expected, ← hid, ← hst,
      hexpected j j'.parser.recognizer (turns_of_follows hv.follows) hplace] at htoken
    rw [hnet] at hq htoken
    exact Grammar.accepts_of_expected hg hfree heps hrule hq htoken

/-- `s` is `r` and then B and C, and `r` is A or nothing. There is a token X besides. -/
def lagging : Grammar :=
  let (a, g) := ({} : Grammar).addToken "A"
  let (b, g) := g.addToken "B"
  let (c, g) := g.addToken "C"
  let (s, g) := (g.addToken "X").2.addRule "s"
  let (r, g) := g.addRule "r"
  (g.define s (.plain (.seq [.rule r, .token b, .token c]))).define r (.plain (.opt (.token a)))

def laggingNetwork : Network where
  states := #[⟨.ruleStart, 0, [⟨4, .epsilon⟩], none, false⟩, ⟨.ruleStop, 0, [], none, false⟩,
    ⟨.ruleStart, 1, [⟨12, .epsilon⟩], none, false⟩, ⟨.ruleStop, 1, [], none, false⟩,
    ⟨.basic, 0, [⟨2, .rule 1 5 0⟩], none, false⟩, ⟨.basic, 0, [⟨6, .epsilon⟩], none, false⟩,
    ⟨.basic, 0, [⟨7, .atom 2⟩], none, false⟩, ⟨.basic, 0, [⟨8, .epsilon⟩], none, false⟩,
    ⟨.basic, 0, [⟨9, .atom 3⟩], none, false⟩, ⟨.basic, 0, [⟨1, .epsilon⟩], none, false⟩,
    ⟨.basic, 1, [⟨11, .atom 1⟩], none, false⟩, ⟨.basic, 1, [⟨13, .epsilon⟩], none, false⟩,
    ⟨.blockStart, 1, [⟨10, .epsilon⟩, ⟨13, .epsilon⟩], some 0, false⟩,
    ⟨.blockEnd, 1, [⟨3, .epsilon⟩], none, false⟩]
  rules := #[⟨"s", 0, 1, false⟩, ⟨"r", 2, 3, false⟩]
  decisions := #[12]
  maxType := 4
  nextTokens := #[.ofList [1, 2], .ofList [-2], .ofList [-2, 1], .ofList [-2], .ofList [1, 2],
    .ofList [2], .ofList [2], .ofList [3], .ofList [3], .ofList [-2], .ofList [1], .ofList [-2],
    .ofList [-2, 1], .ofList [-2]]
  ruleFollow := #[[], [5]]
  returnPrecedence := #[none, none, none, none, none, some 0, none, none, none, none, none, none, none,
    none]
  edgeCount := 13

def laggingSetting : Setting := { grammar := ⟨laggingNetwork, lagging.names⟩ }

def laggingDraft : Draft := lagging.draft.toOption.getD {}

set_option maxRecDepth 20000 in
theorem nullableRound_laggingDraft :
    laggingDraft.nullableRound (Array.replicate 2 false) = #[false, true] := by cbv

set_option maxRecDepth 20000 in
theorem nullableRules_laggingDraft : laggingDraft.nullableRules = #[false, true] := by
  have hsize : laggingDraft.rules.size = 2 := by cbv
  have hlast : laggingDraft.nullableRound #[false, true] = #[false, true] := by cbv
  unfold Draft.nullableRules
  rw [hsize, Draft.nullableFrom, nullableRound_laggingDraft, if_neg (by decide), Draft.nullableFrom,
    hlast, if_pos (by decide)]

set_option maxRecDepth 20000 in
theorem compile_lagging : lagging.compile = .ok laggingSetting.grammar := by
  have hdraft : lagging.draft = .ok laggingDraft := by cbv
  have hcycle : laggingDraft.leftRecursion? = none := by
    unfold Draft.leftRecursion? Draft.leftCalls
    rw [nullableRules_laggingDraft]
    cbv
  have hcheck : laggingDraft.check = .ok () := by
    unfold Draft.check
    rw [hcycle]
    cbv
  rw [Grammar.compile_of_check hdraft hcheck]
  cbv

section

variable {r : Recognizer}

theorem startSet_lagging {sim : Simulation} (hnet : sim.network = laggingNetwork)
    (hfloor : sim.floor = 0) : sim.startSet false 0 = .ofList
      [⟨{ state := 10, precedence := 0 }, 1⟩,
        ⟨{ state := 6, precedence := 0, placement := .follow }, 2⟩] false := by
  obtain ⟨n, _, _, _, _⟩ := sim
  cases hnet
  cases hfloor
  rw [Simulation.startSet_eq_startClosure, if_neg (by cbv; decide), Simulation.startClosure,
    Simulation.closure_eq_closureRun (k := 20) (by decide) (by cbv)]
  cbv

theorem reach_lagging {sim : Simulation} (hnet : sim.network = laggingNetwork)
    (hfloor : sim.floor = 0) : sim.reach false (sim.startSet false 0) 2 = .ofList
      [⟨{ state := 8, precedence := 0, placement := .follow }, 2⟩] false := by
  rw [startSet_lagging hnet hfloor]
  obtain ⟨n, _, _, _, _⟩ := sim
  cases hnet
  cases hfloor
  rw [Simulation.reach, Simulation.closure_eq_closureRun (k := 20) (by decide) (by cbv)]
  cbv

/-- At B there is no A. -/
theorem predict_lagging (hc : r.cache.get? 0 = some {}) (hk : r.input.kind = 2) :
    (r.predict laggingSetting 0).1 = .ok 2 := by
  have hfloor : (r.simulation laggingSetting 0).floor = 0 := by
    unfold Recognizer.simulation
    dsimp only
    rw [if_neg (by decide)]
  refine Recognizer.predict_of_unique hc ?_ ?_ ?_
  · rw [startSet_lagging rfl hfloor]
    cbv
  · rw [hk, reach_lagging rfl hfloor]
    cbv
  · rw [hk, reach_lagging rfl hfloor, startSet_lagging rfl hfloor]
    cbv
    decide

end

/-- At the start of `s`, at the input B X. -/
def laggingAtStart : Interpreter :=
  ((beforeTokens laggingSetting #[{ kind := 2 }, { kind := 4 }]).enter laggingSetting 0 0).2

/-- Where it is decided whether there is an A. -/
def laggingAtChoice : Interpreter :=
  ((laggingAtStart.runSteps laggingSetting 0 0 3).getD default).2

/-- Where it was decided that there is none, which is remembered. -/
def laggingPast (cache : PredictionCache) : Interpreter :=
  ({ laggingAtChoice with parser := {
    recognizer := { laggingAtChoice.recognizer with cache }
    strategy := { laggingAtChoice.parser.strategy with syncPoint := some (some 1, 12) } } }).goTo (some 13)

/-- Before C, where B was taken. -/
def laggingAtC (cache : PredictionCache) : Interpreter :=
  (((laggingPast cache).runSteps laggingSetting 0 0 5).getD default).2

theorem goes_lagging : ∃ cache, laggingAtChoice.Goes laggingSetting (laggingPast cache) := by
  have hp : (laggingAtChoice.recognizer.predict laggingSetting 0).1 = .ok 2 :=
    predict_lagging (by cbv) (by cbv)
  have hr := @Recognizer.predict_snd laggingSetting laggingAtChoice.recognizer
    (TokenCursor.stopped_moveTo _ _) 0
  generalize (laggingAtChoice.recognizer.predict laggingSetting 0).2.cache = cache at hr
  have hsync : sync laggingSetting laggingAtChoice.parser = (.ok (), { laggingAtChoice.parser with
      strategy := { laggingAtChoice.parser.strategy with syncPoint := some (some 1, 12) } }) := by cbv
  have hchoose := @Interpreter.chooseEdge_of_predict laggingSetting 0 (laggingNetwork.state 12) _ _ _ _
    rfl (by decide) hsync (Prod.ext hp hr)
  refine ⟨cache, 12, by cbv, .inr ⟨by cbv, ?_⟩⟩
  unfold Interpreter.visit Interpreter.run
  rw [show laggingSetting.network.state 12 = laggingNetwork.state 12 from rfl, hchoose]
  rfl

theorem took_lagging : ∃ cache,
    Interpreter.Took laggingSetting 0 0 laggingAtStart [2] (laggingAtC cache) := by
  obtain ⟨cache, hgoes⟩ := goes_lagging
  have hrun : ∀ steps {i w}, (Interpreter.runSteps laggingSetting 0 0 steps i).map Prod.fst = some w →
      Interpreter.Took laggingSetting 0 0 i w
        ((Interpreter.runSteps laggingSetting 0 0 steps i).getD default).2 := by
    intro steps i w h
    obtain ⟨⟨v, j⟩, hsteps, rfl⟩ := Option.map_eq_some_iff.1 h
    rw [hsteps]
    exact Interpreter.took_runSteps hsteps
  have hbefore : Interpreter.Took laggingSetting 0 0 laggingAtStart [] laggingAtChoice :=
    hrun 3 (by cbv)
  have hafter : Interpreter.Took laggingSetting 0 0 (laggingPast cache) [2] (laggingAtC cache) :=
    hrun 5 (by cbv)
  have hchoice : laggingAtChoice.takes laggingSetting = [] := by cbv
  have hpast := hbefore.step hgoes.step
  rw [hchoice] at hpast
  exact ⟨cache, hpast.trans hafter⟩

set_option maxRecDepth 20000 in
/-- What is said to be expected at X was so at A, before B was taken. -/
theorem mismatch_lagging (cache : PredictionCache) : ∃ e j,
    (laggingAtC cache).visit laggingSetting (laggingNetwork.state 8) =
      (.error (.failure (.recognition e)), j) ∧ e.kind = .inputMismatch ∧ j.parser.Silent ∧
      e.expected = .ofList [1, 2] := by
  have hv : ((laggingAtC cache).visit laggingSetting (laggingNetwork.state 8)).1 =
      .error (.failure (.recognition {
        kind := .inputMismatch, offending := { kind := 4, index := some 1 }, state := some 12
        invocation := some 1, expected := .ofList [1, 2] })) := by cbv
  have hsilent : ((laggingAtC cache).visit laggingSetting
      (laggingNetwork.state 8)).2.recognizer.errors = #[] := by cbv
  exact ⟨_, _, Prod.ext hv rfl, rfl, hsilent, rfl⟩

/-- No way takes B from the start of `s`, and then A. -/
theorem not_accepts_lagging : ¬ laggingNetwork.Accepts 0 [2] 1 := by
  rintro (⟨q, hq⟩ | ⟨heof, -⟩)
  · have hclosed : ∀ e ∈ laggingNetwork.explore 10 [([2, 1], laggingNetwork.origin 0)],
        ∀ e' ∈ laggingNetwork.advance e,
          e' ∈ laggingNetwork.explore 10 [([2, 1], laggingNetwork.origin 0)] := by decide +kernel
    have hleft : ∀ e ∈ laggingNetwork.explore 10 [([2, 1], laggingNetwork.origin 0)], e.1 ≠ [] := by
      decide +kernel
    exact hleft _ (hq.mem_of_closed (w := []) hclosed (by decide +kernel)) rfl
  · cases heof

theorem predicateFree_lagging : lagging.PredicateFree := by
  have hrules : lagging.rules = #[⟨"s", some (.plain (.seq [.rule 1, .token 2, .token 3]))⟩,
    ⟨"r", some (.plain (.opt (.token 1)))⟩] := by cbv
  rintro r leaf ⟨rule, body, hrule, hbody, hleaf⟩
  rw [hrules] at hrule
  have hr : r < 2 := (Array.getElem?_eq_some_iff.1 hrule).1
  interval_cases r
  · cases hrule
    cases hbody
    exact (by decide : ∀ leaf ∈ [Element.rule 1, .token 2, .token 3], leaf.isPredicate = false) leaf hleaf
  · cases hrule
    cases hbody
    exact (by decide : ∀ leaf ∈ [Element.token 1], leaf.isPredicate = false) leaf hleaf

/-- The types that are said to be expected at X in B X were acceptable before B. -/
theorem accepts_lagging : ∃ cache e j, laggingSetting.network.EpsilonFree ∧
    Interpreter.Took laggingSetting 0 0 laggingAtStart [2] (laggingAtC cache) ∧
    (laggingAtC cache).visit laggingSetting (laggingNetwork.state 8) =
      (.error (.failure (.recognition e)), j) ∧
    ∃ u v k, [2] = u ++ v ∧ Interpreter.Took laggingSetting 0 0 laggingAtStart u k ∧
      Interpreter.Took laggingSetting 0 0 k v (laggingAtC cache) ∧
      ∀ token ∈ e.expected, laggingNetwork.Accepts 0 u token := by
  obtain ⟨cache, htook⟩ := took_lagging
  obtain ⟨e, j, hv, hkind, hs, -⟩ := mismatch_lagging cache
  have heps : laggingSetting.network.EpsilonFree := by
    unfold Network.EpsilonFree
    decide
  have hsize : lagging.rules.size = 2 := by cbv
  obtain ⟨⟨u, v, k, hw, hu, hk, hid, hst⟩, haccepts⟩ := Interpreter.accepts_of_mismatch compile_lagging
    predicateFree_lagging heps (by rw [hsize]; decide) (fresh_beforeTokens _ _) rfl rfl rfl (by decide)
    rfl htook (by cbv) hv hkind hs
  exact ⟨cache, e, j, heps, htook, hv, u, v, k, hw, hu, hk, haccepts u v k hu hk hid hst⟩

/-- But A was not acceptable at X. -/
theorem refused_lagging : lagging.compile = .ok laggingSetting.grammar ∧ lagging.PredicateFree ∧
    ∃ cache e j, Interpreter.Took laggingSetting 0 0 laggingAtStart [2] (laggingAtC cache) ∧
      (laggingAtC cache).visit laggingSetting (laggingNetwork.state 8) =
        (.error (.failure (.recognition e)), j) ∧ e.kind = .inputMismatch ∧ j.parser.Silent ∧
      ¬ ∀ token ∈ e.expected, laggingNetwork.Accepts 0 [2] token := by
  obtain ⟨cache, htook⟩ := took_lagging
  obtain ⟨e, j, hv, hkind, hs, hexpected⟩ := mismatch_lagging cache
  refine ⟨compile_lagging, predicateFree_lagging, cache, e, j, htook, hv, hkind, hs, fun h => ?_⟩
  have hmem : (1 : TokenType) ∈ e.expected := by
    rw [hexpected]
    decide
  exact not_accepts_lagging (h 1 hmem)

end AdaptiveParsing
