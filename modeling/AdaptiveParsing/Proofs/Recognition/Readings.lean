import AdaptiveParsing.Proofs.Recognition.Bail
import AdaptiveParsing.Proofs.Recognition.InPlace
/-!
Three readings of an edge that takes a token. Lookahead asks whether the edge matches a type
(`Network.Matches`), sets of types are made of its label (`Network.label?`), and the interpreter takes the
current token or recovers. Label and match agree on all types that a token of the input can have. The
interpreter agrees with them but for a wildcard, which it lets take types above those of the grammar
(`Interpreter.readings_agree`, `readings_differ_above`).
-/

namespace AdaptiveParsing

open AdaptiveParsing.Parser

variable {env : Setting}

namespace Network

variable {n : Network} {k : EdgeKind} {types : TokenSet} {token : Token}

theorem epsilon_le_of_isReal {t : TokenType} (h : TokenType.isReal t = true) : TokenType.epsilon ≤ t := by
  simp only [TokenType.isReal, Bool.or_eq_true, beq_iff_eq, decide_eq_true_eq] at h
  lia

/-- The parse takes the tokens that the edge matches, as long as a wildcard sees no type above those of the
grammar. -/
theorem takes_iff_matches (hl : n.label? k = some types) (ht : TokenType.isReal token.kind = true)
    (hmax : k = .wildcard → token.kind ≤ n.maxType) : n.Takes k token ↔ n.Matches k token.kind := by
  constructor
  · intro h
    cases k with
    | atom a => exact h.symm
    | wildcard => exact ⟨h, hmax rfl⟩
    | range _ _ | set _ | notSet _ =>
      obtain ⟨types', hl', hmem⟩ := h
      exact matches_of_label hl' hmem
    | _ => cases hl
  · intro h
    exact takes_of_mem hl ((mem_label_iff hl).2 ⟨epsilon_le_of_isReal ht, h⟩)

end Network

namespace Parser

variable {p q : Parser} {id : InvocationId} {t : Token}

theorem children_addChild (hid : p.recognizer.invocation = some id)
    (hlt : id < p.recognizer.forest.size) (c : Child) :
    ((p.modifyRecognizer fun r => r.addChild c).recognizer.forest.get id).children.toList =
      (p.recognizer.forest.get id).children.toList ++ [c] := by
  show ((p.recognizer.addChild c).forest.get id).children.toList = _
  rw [Recognizer.forest_addChild c hid]
  exact (Forest.touches_addChild c hlt).2

/-- The children of the innermost invocation once the current token is taken or dropped. -/
theorem children_consume (hid : p.recognizer.invocation = some id)
    (hlt : id < p.recognizer.forest.size) :
    ((p.consume env).recognizer.forest.get id).children.toList =
      (p.recognizer.forest.get id).children.toList ++
        if p.strategy.recovering then [.error p.recognizer.input.current]
        else if env.config.buildTrees then [.token p.recognizer.input.current] else [] := by
  let past := p.modifyRecognizer fun r => { r with input := r.input.consume }
  show ((Recognizer.consume env p.recognizer p.strategy.recovering).forest.get id).children.toList = _
  unfold Recognizer.consume
  dsimp only
  split
  · exact @children_addChild past id hid hlt _
  · split
    · exact @children_addChild past id hid hlt _
    · exact (List.append_nil _).symm

/-- Recovery in place leaves the parser recovering, or the current token among the errors. -/
theorem recoverToken_marks (hid : p.recognizer.invocation = some id)
    (hlt : id < p.recognizer.forest.size) (h : recoverToken env p = (.ok t, q)) :
    q.strategy.recovering = true ∨ ∃ more, (q.recognizer.forest.get id).children.toList =
      (p.recognizer.forest.get id).children.toList ++ .error p.recognizer.input.current :: more := by
  cases hp : p.strategy.policy with
  | bail =>
    rw [recoverToken_bail hp] at h
    cases h
  | recover =>
    rw [recoverToken_run] at h
    by_cases hdelete : p.recognizer.input.peek 2 ∈ p.recognizer.expected env
    · rw [recoverInline_of_delete hp hdelete] at h
      have hdrop := @drop_eq env p id hid
      generalize ((p.reportUnwanted env).consume env).reportMatch = dropped at h hdrop
      obtain ⟨-, hforest, hinv, -⟩ := hdrop
      right
      obtain ⟨hdropped, hchildren⟩ := Forest.touches_addChild (.error p.recognizer.input.current) hlt
      rw [← hforest] at hdropped hchildren
      have hlt' : id < dropped.recognizer.forest.size := hdropped.size_eq ▸ hlt
      have htaken := @children_consume env dropped id hinv hlt'
      have hplace := @Recognizer.samePlace_consume env dropped.recognizer dropped.strategy.recovering
      generalize (if dropped.strategy.recovering then _ else _ : List Child) = taken at htaken
      rw [hchildren, List.append_assoc, List.singleton_append] at htaken
      cases h
      split
      · have hadded := @children_addChild (dropped.consume env) id (hplace.invocation.trans hinv)
          (hplace.size ▸ hlt') (.error dropped.recognizer.input.current)
        rw [htaken, List.append_assoc, List.cons_append] at hadded
        exact ⟨_, hadded⟩
      · exact ⟨_, htaken⟩
    · rw [recoverInline_of_not_delete hp hdelete] at h
      left
      by_cases hinsert : p.canInsert env = true
      · rw [if_pos hinsert] at h
        cases h
        split
        · exact recovering_reportOnce _
        · exact recovering_reportOnce _
      · rw [if_neg hinsert] at h
        cases h

end Parser

namespace Interpreter

variable {i : Interpreter} {here : NetworkState} {t : Transition} {id : InvocationId}

/-- The current token is taken and nothing else happens: the parse goes on, it is not recovering, and the
innermost invocation gets the token if tokens become children. -/
structure Matched (env : Setting) (i : Interpreter) (id : InvocationId)
    (r : Except Halt Unit × Interpreter) : Prop where
  ok : r.1 = .ok ()
  calm : r.2.parser.strategy.recovering = false
  input : r.2.recognizer.input = i.recognizer.input.consume
  children : (r.2.recognizer.forest.get id).children.toList =
    (i.recognizer.forest.get id).children.toList ++
      if env.config.buildTrees then [.token i.recognizer.input.current] else []

/-- A parser that takes its token when it is asked for one. -/
theorem matched_of_takeMatch {m : ParserM Token} {q : Parser} (hm : m i.parser = takeMatch env q)
    (hinput : q.recognizer.input = i.recognizer.input)
    (hforest : q.recognizer.forest = i.recognizer.forest)
    (hid : q.recognizer.invocation = some id) (hlt : id < i.recognizer.forest.size) (s : StateId) :
    Matched env i id (arrive s (i.run (discard m))) := by
  have hrun : i.run (discard m) = (.ok (), { i with parser := q.reportMatch.consume env }) := by
    unfold Interpreter.run
    rw [discard_run, hm]
    rfl
  rw [hrun]
  refine ⟨rfl, rfl, ?_, ?_⟩
  · exact (input_consume q.reportMatch).trans (congrArg _ hinput)
  · rw [← hforest] at hlt ⊢
    rw [← hinput]
    exact @children_consume env q.reportMatch id hid hlt

/-- Where the one edge takes the current token, it is taken. -/
theorem matched_of_takes (halone : here.transitions = [t])
    (htakes : env.network.Takes t.kind i.recognizer.input.current)
    (hid : i.recognizer.invocation = some id) (hlt : id < i.recognizer.forest.size) :
    Matched env i id (i.visit env here) := by
  rw [visit_alone halone]
  unfold cross passEdge
  cases hk : t.kind with
  | atom k =>
    rw [hk] at htakes
    have hm := (@matchToken_run env i.parser k).trans (if_pos htakes)
    refine matched_of_takeMatch hm ?_ ?_ ?_ hlt t.target
    all_goals split
    all_goals first | rfl | exact hid
  | wildcard =>
    rw [hk] at htakes
    have hm := (@matchAny_run env i.parser).trans (if_pos htakes)
    exact matched_of_takeMatch hm rfl rfl hid hlt t.target
  | range _ _ | set _ | notSet _ =>
    rw [hk] at htakes
    obtain ⟨types, hl, hmem⟩ := htakes
    dsimp only
    rw [hl]
    have hm := (@matchSet_run env i.parser types).trans (if_pos hmem)
    exact matched_of_takeMatch hm rfl rfl hid hlt t.target
  | _ =>
    rw [hk] at htakes
    exact htakes.elim

/-- A step that recovered shows it. -/
theorem not_matched_of_recoverToken (hid : i.recognizer.invocation = some id)
    (hlt : id < i.recognizer.forest.size) (s : StateId) :
    ¬ Matched env i id (arrive s (i.run (discard (recoverToken env)))) := by
  intro h
  cases hrun : recoverToken env i.parser with
  | mk outcome q =>
    have hdiscard : i.run (discard (recoverToken env)) = (outcome.map fun _ => (), { i with parser := q }) := by
      unfold Interpreter.run
      rw [discard_run, hrun]
      cases outcome <;> rfl
    rw [hdiscard] at h
    cases outcome with
    | error halt => exact nomatch h.ok
    | ok token =>
      obtain hrecovering | ⟨more, hchildren⟩ := recoverToken_marks hid hlt hrun
      · exact absurd (hrecovering.symm.trans h.calm) Bool.noConfusion
      · have hsame := List.append_cancel_left (hchildren.symm.trans h.children)
        split at hsame <;> cases hsame

/-- Where one edge takes a token, its label holds the type of the current one exactly if the edge matches it,
and exactly then the parse takes it and does not recover, as long as a wildcard sees no type above those of the
grammar. Otherwise the parse recovers in place. -/
theorem readings_agree (halone : here.transitions = [t]) (hconsuming : t.isConsuming = true)
    (hid : i.recognizer.invocation = some id) (hlt : id < i.recognizer.forest.size)
    (hreal : TokenType.isReal i.recognizer.input.kind = true)
    (hmax : t.kind = .wildcard → i.recognizer.input.kind ≤ env.network.maxType) :
    ∃ types, env.network.label? t.kind = some types ∧
      (i.recognizer.input.kind ∈ types ↔ env.network.Matches t.kind i.recognizer.input.kind) ∧
      (Matched env i id (i.visit env here) ↔ env.network.Matches t.kind i.recognizer.input.kind) ∧
      (¬ env.network.Matches t.kind i.recognizer.input.kind →
        i.visit env here = arrive t.target (i.run (discard (recoverToken env)))) := by
  have hlabel : (env.network.label? t.kind).isSome = true := EdgeKind.label?_isSome.trans hconsuming
  obtain ⟨types, hl⟩ := Option.isSome_iff_exists.1 hlabel
  have hmem := @Network.mem_label_iff env.network i.recognizer.input.kind t.kind types hl
  have htakes := @Network.takes_iff_matches env.network t.kind types i.recognizer.input.current hl hreal hmax
  have hrecovers : ¬ env.network.Matches t.kind i.recognizer.input.kind →
      i.visit env here = arrive t.target (i.run (discard (recoverToken env))) := by
    intro hno
    exact visit_alone_of_mismatch halone hl (mt htakes.1 hno)
  refine ⟨types, hl, ?_, ⟨?_, ?_⟩, hrecovers⟩
  · exact hmem.trans (and_iff_right (Network.epsilon_le_of_isReal hreal))
  · intro hmatched
    by_contra hno
    rw [hrecovers hno] at hmatched
    exact not_matched_of_recoverToken hid hlt t.target hmatched
  · intro hm
    exact matched_of_takes halone (htakes.2 hm) hid hlt

end Interpreter

open Interpreter

/-- `s` is any token; the grammar has one type. -/
def lone : Grammar :=
  let (s, g) := (({} : Grammar).addToken "A").2.addRule "s"
  g.define s (.plain .wildcard)

def loneNetwork : Network where
  states := #[⟨.ruleStart, 0, [⟨2, .epsilon⟩], none, false⟩, ⟨.ruleStop, 0, [], none, false⟩,
    ⟨.basic, 0, [⟨3, .wildcard⟩], none, false⟩,
    ⟨.basic, 0, [⟨1, .epsilon⟩], none, false⟩]
  rules := #[⟨"s", 0, 1, false⟩]
  maxType := 1
  nextTokens := #[.ofList [1], .ofList [-2], .ofList [1], .ofList [-2]]
  ruleFollow := #[[]]
  returnPrecedence := #[none, none, none, none]
  edgeCount := 3

def loneSetting : Setting := { grammar := ⟨loneNetwork, lone.names⟩ }

set_option maxRecDepth 20000 in
theorem compile_lone : lone.compile = .ok loneSetting.grammar := by cbv

/-- Before the one token of `s`, at a token of this type. -/
def loneAt (k : TokenType) : Interpreter :=
  (((before loneSetting #[{ kind := k }]).enter loneSetting 0 0).2.step loneSetting 0 0).interpreter

theorem readings_agree_lone :
    Matched loneSetting (loneAt 1) 0 ((loneAt 1).visit loneSetting (loneNetwork.state 2)) := by
  have hkind : (loneAt 1).recognizer.input.kind = 1 := by cbv
  have hreal : TokenType.isReal (loneAt 1).recognizer.input.kind = true := by
    rw [hkind]
    decide
  have hle : (loneAt 1).recognizer.input.kind ≤ loneSetting.network.maxType := by
    rw [hkind]
    decide
  obtain ⟨types, -, -, hmatched, -⟩ := @readings_agree loneSetting (loneAt 1) (loneNetwork.state 2)
    ⟨3, .wildcard⟩ 0 rfl rfl (by cbv) (by cbv) hreal fun _ => hle
  apply hmatched.2
  rw [hkind]
  decide

/-- A wildcard lets the parse take a type above those of the grammar without an error, though the edge does
not match that type and its label does not hold it. -/
theorem readings_differ_above : lone.compile = .ok loneSetting.grammar ∧
    Session loneSetting (loneAt 2) ∧ (loneAt 2).recognizer.state = some 2 ∧
    (loneAt 2).recognizer.invocation = some 0 ∧ (loneNetwork.state 2).transitions = [⟨3, .wildcard⟩] ∧
    (loneAt 2).recognizer.input.kind = 2 ∧ TokenType.isReal 2 = true ∧
    loneNetwork.label? .wildcard = some (.ofList [1]) ∧ 2 ∉ TokenSet.ofList [1] ∧
    ¬ loneNetwork.Matches .wildcard 2 ∧
    Matched loneSetting (loneAt 2) 0 ((loneAt 2).visit loneSetting (loneNetwork.state 2)) := by
  have hkind : (loneAt 2).recognizer.input.kind = 2 := by cbv
  have htakes : loneSetting.network.Takes .wildcard (loneAt 2).recognizer.input.current := by
    show TokenType.firstUser ≤ (loneAt 2).recognizer.input.kind
    rw [hkind]
    decide
  have hsession : Session loneSetting (loneAt 2) := ((session_before _ _).enter 0 (by decide)).step 0 0
  refine ⟨compile_lone, hsession, by cbv, by cbv, rfl, hkind, by decide, by decide, by decide, by decide, ?_⟩
  exact matched_of_takes rfl htakes (by cbv) (by cbv)

end AdaptiveParsing
