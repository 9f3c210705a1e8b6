import AdaptiveParsing.Proofs.Lookahead.Store
/-!
What can be relied on of an automaton after any operations, clearings among them and with states of
earlier generations handed back to it. All is told from the log of the operations: the states given
out since the last clearing (`Automaton.current`), the verdict that a set was first added with
(`Automaton.firstVerdict`) and the first state recorded as the start of a floor
(`Automaton.firstStart`). Sets are the same if their entries are, which stand in one order for all sets
with the same members (`ConfigSet.Ordered.entries_eq_iff`). Main statement: `Automaton.obeys_replay`.
-/

namespace AdaptiveParsing

namespace Automaton

/-- What may be done to an automaton. -/
inductive Operation where
  | addState (configs : ConfigSet) (prediction : Option Nat) (needsContext : Bool)
  | setStart (floor : Int) (s : AutomatonState)
  | addEdge (s : AutomatonState) (t : TokenType) (e : AutomatonEdge)
  | clear

def perform (a : Automaton) : Operation → Automaton
  | .addState configs prediction needsContext => (a.addState configs prediction needsContext).2
  | .setStart floor s => a.setStart floor s
  | .addEdge s t e => a.addEdge s t e
  | .clear => a.clear

/-- A new automaton after the operations of a log, the latest of which comes first. -/
def replay : List Operation → Automaton
  | [] => {}
  | op :: log => (replay log).perform op

/-- How often it was cleared. -/
def clears : List Operation → Nat
  | [] => 0
  | .clear :: log => clears log + 1
  | _ :: log => clears log

/-- The states given out, before a clearing or after. -/
def given : List Operation → List AutomatonState
  | [] => []
  | .addState configs prediction needsContext :: log =>
    ((replay log).addState configs prediction needsContext).1 :: given log
  | _ :: log => given log

/-- The states given out since the last clearing. -/
def current : List Operation → List AutomatonState
  | [] => []
  | .addState configs prediction needsContext :: log =>
    ((replay log).addState configs prediction needsContext).1 :: current log
  | .clear :: _ => []
  | _ :: log => current log

/-- The verdict that a set was first added with since the last clearing. -/
def firstVerdict (configs : ConfigSet) : List Operation → Option (Option Nat × Bool)
  | [] => none
  | .addState added prediction needsContext :: log =>
    (firstVerdict configs log).or
      (if added.entries = configs.entries then some (prediction, needsContext) else none)
  | .clear :: _ => none
  | _ :: log => firstVerdict configs log

/-- The first state of the generation recorded as the start of a floor since the last clearing. -/
def firstStart (floor : Int) : List Operation → Option AutomatonState
  | [] => none
  | .setStart floor' s :: log =>
    (firstStart floor log).or
      (if floor' = floor ∧ s.id.any (·.generation = clears log) then some s else none)
  | .clear :: _ => none
  | _ :: log => firstStart floor log

/-- What is recorded as a start was given out, before a clearing or after, or no automaton holds it. -/
def Proper : List Operation → Prop
  | [] => True
  | .setStart _ s :: log => (s.id = none ∨ s ∈ given log) ∧ Proper log
  | _ :: log => Proper log

/-- The automaton without its edges. -/
def edgeless (a : Automaton) : Automaton := { a with edges := ∅ }

/-- How an automaton and the log of its operations agree. -/
structure Mirrors (log : List Operation) (a : Automaton) : Prop where
  generation : a.generation = clears log
  /-- Edges do not matter, and may be between any generations. -/
  indexed : a.edgeless.Indexed
  entries : ∀ (es : List (ConfigKey × AltSet)) (id : AutomatonStateId), a.byEntries[es]? = some id →
    ∃ s, a.state? id = some s ∧ s.configs.entries = es
  current : ∀ s, s ∈ current log ↔ ∃ id, a.state? id = some s
  given : ∀ s ∈ given log, ∃ id, s.id = some id ∧
    (id.generation < a.generation ∨ a.state? id = some s)
  starts : ∀ (floor : Int) (id : AutomatonStateId), a.starts[floor]? = some id →
    id.generation < a.generation ∨ ∃ s, a.state? id = some s
  start : ∀ floor, a.start? floor = firstStart floor log
  verdict : ∀ configs : ConfigSet, firstVerdict configs log =
    (a.byEntries[configs.entries]?.bind a.state?).map fun s => (s.prediction, s.needsContext)

variable {log : List Operation} {a : Automaton} {s : AutomatonState} {id : AutomatonStateId}

theorem mirrors_empty : Mirrors [] {} where
  generation := rfl
  indexed := indexed_empty
  entries := by simp
  current := by simp [Automaton.current, state?]
  given := by simp [Automaton.given]
  starts := by simp
  start := by simp [start?, firstStart]
  verdict := by simp [firstVerdict]

namespace Mirrors

/-- States of other generations are not found. -/
theorem generation_of_state? (h : Mirrors log a) (hs : a.state? id = some s) :
    id.generation = clears log := (state?_eq_some_iff.1 hs).1.trans h.generation

theorem id_of_state? (h : Mirrors log a) (hs : a.state? id = some s) : s.id = some id :=
  h.indexed.id_of_state? hs

theorem addEdge (h : Mirrors log a) (s : AutomatonState) (t : TokenType) (e : AutomatonEdge) :
    Mirrors (.addEdge s t e :: log) (a.addEdge s t e) := by
  unfold Automaton.addEdge
  split <;> exact ⟨h.generation, h.indexed, h.entries, h.current, h.given, h.starts, h.start,
    h.verdict⟩

theorem clear (h : Mirrors log a) : Mirrors (.clear :: log) a.clear where
  generation := congrArg (· + 1) h.generation
  indexed := h.indexed.clear
  entries := by simp [Automaton.clear]
  current := by simp [Automaton.current, Automaton.clear, state?]
  given s hs := by
    obtain ⟨id, hid, hold | hst⟩ := h.given s hs
    · exact ⟨id, hid, .inl (Nat.lt_succ_of_lt hold)⟩
    · exact ⟨id, hid, .inl (Nat.lt_succ_of_le (state?_eq_some_iff.1 hst).1.le)⟩
  starts := by simp [Automaton.clear]
  start := by simp [start?, Automaton.clear, firstStart]
  verdict := by simp [Automaton.clear, firstVerdict]

/-- A state with a number is recorded in the table of starts, and nothing else changes. -/
theorem setStart_eq (hid : s.id = some id) (floor : Int) : a.setStart floor s =
    { a with starts := a.starts.alter floor fun
        | none => some id
        | some old => if old.generation = a.generation then some old else some id } := by
  cases s
  cases hid
  rfl

/-- What stands as the start of a floor once a state was recorded. -/
theorem start?_setStart (h : Mirrors log a) {floor floor' : Int} (hid : s.id = some id)
    (hs : id.generation < a.generation ∨ a.state? id = some s) :
    (a.setStart floor s).start? floor' =
      (a.start? floor').or (if floor = floor' ∧ id.generation = clears log then some s else none) := by
  have hnew : a.state? id = if id.generation = clears log then some s else none := by
    obtain hold | hst := hs
    · rw [if_neg (by rw [← h.generation]; exact hold.ne), state?, if_neg hold.ne]
    · rw [hst, if_pos (h.generation_of_state? hst)]
  rw [setStart_eq hid]
  show Option.bind _ a.state? = (Option.bind _ a.state?).or _
  simp only [Std.HashMap.getElem?_alter, beq_iff_eq]
  by_cases hf : floor = floor'
  · subst hf
    rw [if_pos rfl]
    cases hold : a.starts[floor]? with
    | none => simpa using hnew
    | some old =>
      by_cases hg : old.generation = a.generation
      · obtain hstale | ⟨s', hs'⟩ := h.starts floor old hold
        · exact absurd hg hstale.ne
        · simp [hg, hs']
      · have hnone : a.state? old = none := by rw [state?, if_neg hg]
        simpa [hg, hnone] using hnew
  · simp [hf]

theorem starts_setStart (h : Mirrors log a) {floor floor' : Int} {id' : AutomatonStateId}
    (hid : s.id = some id) (hs : id.generation < a.generation ∨ a.state? id = some s)
    (hstart : (a.setStart floor s).starts[floor']? = some id') :
    id'.generation < a.generation ∨ ∃ s, a.state? id' = some s := by
  have hnew : id.generation < a.generation ∨ ∃ s, a.state? id = some s := hs.imp_right fun hs => ⟨s, hs⟩
  simp only [setStart_eq hid, Std.HashMap.getElem?_alter] at hstart
  split at hstart
  · split at hstart
    · exact Option.some.inj hstart ▸ hnew
    · rename_i old hold
      split at hstart
      · exact Option.some.inj hstart ▸ h.starts _ _ hold
      · exact Option.some.inj hstart ▸ hnew
  · exact h.starts _ _ hstart

theorem setStart (h : Mirrors log a) (floor : Int) (hs : s.id = none ∨ s ∈ Automaton.given log) :
    Mirrors (.setStart floor s :: log) (a.setStart floor s) := by
  obtain hid | hs := hs
  · have hstart : ∀ floor', firstStart floor' (.setStart floor s :: log) = firstStart floor' log := by
      simp [firstStart, hid]
    simp only [Automaton.setStart, hid]
    exact ⟨h.generation, h.indexed, h.entries, h.current, h.given, h.starts,
      fun floor' => (h.start floor').trans (hstart floor').symm, h.verdict⟩
  · obtain ⟨id, hid, hst⟩ := h.given s hs
    have hstarts := fun floor' id' => @h.starts_setStart _ _ s id floor floor' id' hid hst
    have hstart : ∀ floor',
        (a.setStart floor s).start? floor' = firstStart floor' (.setStart floor s :: log) := by
      intro floor'
      rw [h.start?_setStart hid hst, h.start floor', firstStart, hid]
      simp
    rw [setStart_eq hid] at hstarts hstart ⊢
    exact ⟨h.generation, ⟨h.indexed.id_eq, h.indexed.found, h.indexed.edges⟩, h.entries, h.current,
      h.given, hstarts, hstart, h.verdict⟩

variable {configs : ConfigSet} {prediction : Option Nat} {needsContext : Bool}

/-- A set that is known is answered with its state. -/
theorem addState_of_known (h : Mirrors log (replay log))
    (hk : (replay log).byEntries[configs.entries]?.bind (replay log).state? = some s) :
    Mirrors (.addState configs prediction needsContext :: log)
      ((replay log).addState configs prediction needsContext).2 := by
  have hadd : (replay log).addState configs prediction needsContext = (s, replay log) :=
    Automaton.addState_of_known hk
  obtain ⟨id, -, hst⟩ := Option.bind_eq_some_iff.1 hk
  rw [hadd]
  refine ⟨h.generation, h.indexed, h.entries, ?_, ?_, h.starts, h.start, ?_⟩
  · intro s'
    rw [Automaton.current, hadd, List.mem_cons, h.current]
    constructor
    · rintro (rfl | hs')
      · exact ⟨id, hst⟩
      · exact hs'
    · exact .inr
  · intro s' hs'
    rw [Automaton.given, hadd, List.mem_cons] at hs'
    obtain rfl | hs' := hs'
    · exact ⟨id, h.id_of_state? hst, .inr hst⟩
    · exact h.given s' hs'
  · intro configs'
    rw [firstVerdict, h.verdict]
    split
    · rename_i heq
      rw [← heq, hk]
      rfl
    · rw [Option.or_none]

/-- A new state changes nothing for the numbers given out before. -/
theorem state?_withFresh_of_issued {verdict : Option Nat × Bool}
    (hid : id.generation < a.generation ∨ ∃ s, a.state? id = some s) :
    (a.withFresh configs verdict).state? id = a.state? id := by
  obtain hold | ⟨s, hs⟩ := hid
  · have hne : id.generation ≠ (a.withFresh configs verdict).generation := hold.ne
    rw [state?, state?, if_neg hold.ne, if_neg hne]
  · rw [hs, extends_withFresh.state? hs]

/-- Its set is answered with the new state from then on, and the others as before. -/
theorem known_withFresh {verdict : Option Nat × Bool}
    (hissued : ∀ (es : List (ConfigKey × AltSet)) (id : AutomatonStateId),
      a.byEntries[es]? = some id → ∃ s, a.state? id = some s)
    (es : List (ConfigKey × AltSet)) :
    (a.withFresh configs verdict).byEntries[es]?.bind (a.withFresh configs verdict).state? =
      if configs.entries = es then some (a.fresh configs verdict) else a.byEntries[es]?.bind a.state? := by
  have hentry : (a.withFresh configs verdict).byEntries[es]? =
      if configs.entries = es then some ⟨a.generation, a.states.size⟩ else a.byEntries[es]? := by
    rw [withFresh, Std.HashMap.getElem?_insert]
    simp only [beq_iff_eq]
  rw [hentry]
  by_cases heq : configs.entries = es
  · rw [if_pos heq, if_pos heq]
    exact state?_fresh
  · rw [if_neg heq, if_neg heq]
    cases hknown : a.byEntries[es]? with
    | none => rfl
    | some id => exact state?_withFresh_of_issued (.inr (hissued es id hknown))

/-- A set that is not known gets a state of its own. -/
theorem addState_of_unknown (h : Mirrors log (replay log))
    (hk : (replay log).byEntries[configs.entries]?.bind (replay log).state? = none) :
    Mirrors (.addState configs prediction needsContext :: log)
      ((replay log).addState configs prediction needsContext).2 := by
  have hadd := @Automaton.addState_of_unknown _ _ prediction needsContext hk
  rw [hadd]
  generalize hverdict : (prediction, needsContext) = verdict at hadd ⊢
  have hext : ((replay log).withFresh configs verdict).Extends (replay log) := extends_withFresh
  refine ⟨h.generation, Indexed.withFresh h.indexed hk, ?_, ?_, ?_, ?_, ?_, ?_⟩
  · intro es id hentry
    rw [withFresh, Std.HashMap.getElem?_insert] at hentry
    split at hentry
    · rename_i heq
      obtain rfl := Option.some.inj hentry
      exact ⟨_, state?_fresh, eq_of_beq heq⟩
    · obtain ⟨s, hs, heq⟩ := h.entries es id hentry
      exact ⟨s, hext.state? hs, heq⟩
  · intro s
    rw [Automaton.current, hadd, List.mem_cons, h.current]
    constructor
    · rintro (rfl | ⟨id, hs⟩)
      · exact ⟨_, state?_fresh⟩
      · exact ⟨id, hext.state? hs⟩
    · rintro ⟨id, hs⟩
      obtain hs | ⟨-, rfl⟩ := Automaton.state?_withFresh hs
      · exact .inr ⟨id, hs⟩
      · exact .inl rfl
  · intro s hs
    rw [Automaton.given, hadd, List.mem_cons] at hs
    obtain rfl | hs := hs
    · exact ⟨_, rfl, .inr state?_fresh⟩
    · obtain ⟨id, hid, hst⟩ := h.given s hs
      exact ⟨id, hid, hst.imp_right hext.state?⟩
  · intro floor id hstart
    obtain hold | ⟨s, hs⟩ := h.starts floor id hstart
    · exact .inl hold
    · exact .inr ⟨s, hext.state? hs⟩
  · intro floor
    refine Eq.trans ?_ (h.start floor)
    show Option.bind (replay log).starts[floor]? _ = Option.bind (replay log).starts[floor]? _
    cases hstart : (replay log).starts[floor]? with
    | none => rfl
    | some id => exact state?_withFresh_of_issued (h.starts floor id hstart)
  · intro configs'
    have hissued : ∀ (es : List (ConfigKey × AltSet)) (id : AutomatonStateId),
        (replay log).byEntries[es]? = some id → ∃ s, (replay log).state? id = some s := by
      intro es id hentry
      obtain ⟨s, hs, -⟩ := h.entries es id hentry
      exact ⟨s, hs⟩
    rw [firstVerdict, h.verdict, known_withFresh hissued]
    by_cases heq : configs.entries = configs'.entries
    · rw [← heq, hk, if_pos rfl, if_pos rfl, ← hverdict]
      rfl
    · rw [if_neg heq, Option.or_none, if_neg heq]

/-- A state given out since the last clearing is found by its set. -/
theorem known_of_current (h : Mirrors log a) (hs : s ∈ Automaton.current log) :
    a.byEntries[s.configs.entries]?.bind a.state? = some s := by
  obtain ⟨id, hst⟩ := (h.current s).1 hs
  obtain ⟨hg, hi⟩ := state?_eq_some_iff.1 hst
  have hentry : a.byEntries[s.configs.entries]? = some ⟨a.generation, id.index⟩ :=
    h.indexed.found id.index s hi
  rw [hentry, ← hg]
  exact hst

/-- A set that no state given out since the last clearing has is not found. -/
theorem unknown_of_current (h : Mirrors log a)
    (hnew : ∀ s ∈ Automaton.current log, s.configs.entries ≠ configs.entries) :
    a.byEntries[configs.entries]?.bind a.state? = none := by
  cases hentry : a.byEntries[configs.entries]? with
  | none => rfl
  | some id =>
    obtain ⟨s, hs, heq⟩ := h.entries _ _ hentry
    exact absurd heq (hnew s ((h.current s).2 ⟨id, hs⟩))

end Mirrors

/-- An automaton agrees with the log of what was done to it. -/
theorem mirrors_replay (h : Proper log) : Mirrors log (replay log) := by
  induction log with
  | nil => exact mirrors_empty
  | cons op log ih =>
    cases op with
    | addState configs prediction needsContext =>
      cases hk : (replay log).byEntries[configs.entries]?.bind (replay log).state? with
      | some s => exact (ih h).addState_of_known hk
      | none => exact (ih h).addState_of_unknown hk
    | setStart floor s => exact (ih h.2).setStart floor h.1
    | addEdge s t e => exact (ih h).addEdge s t e
    | clear => exact (ih h).clear

theorem Proper.earlier {earlier later : List Operation} (h : Proper (later ++ earlier)) :
    Proper earlier := by
  induction later with
  | nil => exact h
  | cons op later ih =>
    cases op with
    | setStart => exact ih h.2
    | _ => exact ih h

theorem clears_le (later earlier : List Operation) : clears earlier ≤ clears (later ++ earlier) := by
  induction later with
  | nil => exact Nat.le_refl _
  | cons op later ih =>
    cases op with
    | clear => exact Nat.le_succ_of_le ih
    | _ => exact ih

/-- What can be relied on of an automaton after the operations of a log. -/
structure Obeys (log : List Operation) : Prop where
  /-- A number finds a state if that was given out since the last clearing, and no other. -/
  state : ∀ (id : AutomatonStateId) (s : AutomatonState),
    (replay log).state? id = some s ↔ s ∈ current log ∧ s.id = some id
  /-- A set that was added since is answered with its state, which has the verdict it came with. -/
  known : ∀ s ∈ current log, ∀ (configs : ConfigSet) (prediction : Option Nat) (needsContext : Bool),
    s.configs.entries = configs.entries →
      (replay log).addState configs prediction needsContext = (s, replay log) ∧
        firstVerdict configs log = some (s.prediction, s.needsContext)
  /-- Another set gets a new state, numbered by how many there are. -/
  new : ∀ (configs : ConfigSet) (prediction : Option Nat) (needsContext : Bool),
    (∀ s ∈ current log, s.configs.entries ≠ configs.entries) →
      let r := (replay log).addState configs prediction needsContext
      r.1 = { id := some ⟨clears log, (replay log).size⟩, configs, prediction, needsContext } ∧
        r.2.size = (replay log).size + 1
  lookup : ∀ configs : ConfigSet,
    (replay log).lookup configs = (firstVerdict configs log).bind Prod.fst
  start : ∀ floor : Int, (replay log).start? floor = firstStart floor log
  /-- A state from before a clearing is not seen any more, whatever was done with it. -/
  stale : ∀ earlier later, log = later ++ .clear :: earlier → ∀ s ∈ given earlier,
    ∃ id, s.id = some id ∧ (replay log).state? id = none ∧
      (∀ floor s', (replay log).start? floor = some s' → s'.id ≠ some id) ∧
      ∀ (configs : ConfigSet) (prediction : Option Nat) (needsContext : Bool),
        ((replay log).addState configs prediction needsContext).1.id ≠ some id

/-- What an automaton finds is of its generation. -/
theorem generation_of_current (h : Proper log) (hs : s ∈ current log) (hid : s.id = some id) :
    id.generation = clears log := by
  have hm := mirrors_replay h
  obtain ⟨id', hst⟩ := (hm.current s).1 hs
  obtain rfl : id = id' := Option.some.inj (hid.symm.trans (hm.id_of_state? hst))
  exact hm.generation_of_state? hst

/-- The laws hold whatever was done, as long as what was recorded as a start had been given out. -/
theorem obeys_replay (h : Proper log) : Obeys log := by
  have hm := mirrors_replay h
  refine ⟨fun id s => ⟨fun hs => ⟨(hm.current s).2 ⟨id, hs⟩, hm.id_of_state? hs⟩, ?_⟩, ?_, ?_, ?_,
    hm.start, ?_⟩
  · rintro ⟨hs, hid⟩
    obtain ⟨id', hst⟩ := (hm.current s).1 hs
    obtain rfl : id = id' := Option.some.inj (hid.symm.trans (hm.id_of_state? hst))
    exact hst
  · intro s hs configs prediction needsContext heq
    have hk := heq ▸ hm.known_of_current hs
    exact ⟨addState_of_known hk, by rw [hm.verdict, hk]; rfl⟩
  · intro configs prediction needsContext hnew
    rw [addState_of_unknown (hm.unknown_of_current hnew), ← hm.generation]
    exact ⟨rfl, Array.size_push _⟩
  · intro configs
    rw [hm.verdict, lookup]
    generalize Option.bind _ (replay log).state? = known
    cases known <;> rfl
  · rintro earlier later rfl s hs
    have hearlier : Proper earlier := (Proper.earlier h : Proper (.clear :: earlier))
    obtain ⟨id, hid, hgen⟩ := (mirrors_replay hearlier).given s hs
    have hold : id.generation < clears (later ++ .clear :: earlier) := by
      have hle := clears_le later (.clear :: earlier)
      have hbefore : id.generation ≤ clears earlier := by
        rw [← (mirrors_replay hearlier).generation]
        exact hgen.elim Nat.le_of_lt fun hst => (state?_eq_some_iff.1 hst).1.le
      exact Nat.lt_of_lt_of_le (Nat.lt_succ_of_le hbefore) hle
    have hunseen : ∀ {log s}, Proper log → clears log = clears (later ++ .clear :: earlier) →
        s ∈ current log → s.id ≠ some id := by
      intro log s hlog hclears hs hid
      exact absurd ((generation_of_current hlog hs hid).trans hclears) hold.ne
    refine ⟨id, hid, ?_, ?_, ?_⟩
    · rw [state?, hm.generation, if_neg hold.ne]
    · intro floor s' hs'
      obtain ⟨id', -, hst⟩ := Option.bind_eq_some_iff.1 hs'
      exact hunseen h rfl ((hm.current s').2 ⟨id', hst⟩)
    · intro configs prediction needsContext
      exact @hunseen (.addState configs prediction needsContext :: _) _ h rfl (.head _)

/-- One set, added before a clearing and after, with the old state recorded as the start in between. -/
def refilled : List Operation :=
  let set : ConfigSet := .ofList [⟨{ state := 1, precedence := 0 }, 1⟩] false
  let stale : AutomatonState := { id := some ⟨0, 0⟩, configs := set, prediction := some 1 }
  let again : AutomatonState := { id := some ⟨1, 0⟩, configs := set }
  [.setStart 0 again, .addState set none false, .setStart 0 stale, .clear, .addState set (some 1) false]

/-- The start is the state of the generation, though the old one was recorded before it. -/
theorem obeys_refilled : Proper refilled ∧ Obeys refilled ∧
    ((replay refilled).start? 0).bind AutomatonState.id = some ⟨1, 0⟩ := by
  have hproper : Proper refilled := by
    refine ⟨.inr ?_, .inr ?_, trivial⟩
    · simp [given, replay, perform, addState, setStart, clear]
    · simp [given, replay, addState]
  refine ⟨hproper, obeys_replay hproper, ?_⟩
  rw [(obeys_replay hproper).start]
  rfl

end Automaton

end AdaptiveParsing
