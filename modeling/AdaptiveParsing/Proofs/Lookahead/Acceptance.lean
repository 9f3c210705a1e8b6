import AdaptiveParsing.Proofs.Lookahead.Agreement
import AdaptiveParsing.Proofs.Network.Expected
import AdaptiveParsing.Proofs.Network.Tails
/-!
What can come next can be taken. The walk that tells which types come next does not look at floors, so it
passes levels that are closed where the way stands. But only an operand has a floor above zero, and where
it returns free edges lead back to the loop of its rule, in the invocation around it. So instead of passing
a level a way can leave the operand and pass it further out (`Comes.pass_level`). Main statement: past what
a way has taken from the start of a rule, each type that is told to come next is accepted
(`Grammar.accepts_of_expected`).
-/

namespace AdaptiveParsing

section

variable {σ : StateId → NetworkState} {r : RuleId} {rule : Rule} {levels : Int → Prop}
  {loop loop' s : StateId} {zone : StateId → Zone} {t : Transition}

/-- The loop is come to as such, and a level is still to be passed only past free edges from it. -/
theorem LoopShape.next (h : LoopShape σ r rule levels loop zone) (hs : (σ s).rule = r)
    (hz : zone s = .loop → s = loop) (ht : t ∈ (σ s).transitions) :
    (zone t.next = .loop → t.next = loop) ∧
      (zone t.next = .guard → t.kind = .epsilon ∧ (s = loop ∨ zone s = .guard)) := by
  have hfree : t.kind = .epsilon → t.next = t.target := by
    intro hk
    simp [Transition.next, hk]
  cases hzone : zone s with
  | head =>
    obtain ⟨-, hn | hn⟩ := h.head s hs hzone t ht
    · simp [hn]
    · simp [hn, h.zone_loop]
  | loop =>
    obtain rfl := hz hzone
    obtain ⟨hk, hn⟩ := h.rounds t ht
    rw [hfree hk]
    split at hn <;> simp [hn, hk]
  | guard =>
    rcases h.guard s hs hzone t ht with ⟨level, hk, -, hn⟩ | ⟨hk, hn⟩
    · have hnext : t.next = t.target := by simp [Transition.next, hk]
      simp [hnext, hn]
    · simp [hfree hk, hn, hk]
  | operator =>
    obtain ⟨-, hn | hn⟩ := h.operator s hs hzone t ht
    · simp [hn]
    · simp [hn, h.zone_loop]
  | ended =>
    obtain ⟨hk, hn⟩ := h.ended s hs hzone t ht
    simp [hfree hk, hn]

/-- A level is asked for where it is still to be passed only. -/
theorem LoopShape.zone_of_level (h : LoopShape σ r rule levels loop zone) (hs : (σ s).rule = r)
    (hz : zone s = .loop → s = loop) (ht : t ∈ (σ s).transitions) {level : Int}
    (hk : t.kind = .precedence level) : zone s = .guard ∧ levels level := by
  cases hzone : zone s with
  | head =>
    have hno := (h.head s hs hzone t ht).1
    rw [hk] at hno
    cases hno
  | loop =>
    obtain rfl := hz hzone
    have hfree := (h.rounds t ht).1
    rw [hk] at hfree
    cases hfree
  | guard =>
    rcases h.guard s hs hzone t ht with ⟨level', hk', hl, -⟩ | ⟨hk', -⟩
    · rw [hk] at hk'
      cases hk'
      exact ⟨rfl, hl⟩
    · rw [hk] at hk'
      cases hk'
  | operator =>
    have hno := (h.operator s hs hzone t ht).1
    rw [hk] at hno
    cases hno
  | ended =>
    have hfree := (h.ended s hs hzone t ht).1
    rw [hk] at hfree
    cases hfree

end

/-- Free edges within a rule are a way that takes nothing. -/
theorem Idles.reads {n : Network} {r : RuleId} {a b : StateId} (h : Idles n.state r a b) (floor : Int)
    (outer : List Frame) : n.Reads ⟨a, floor, outer⟩ [] ⟨b, floor, outer⟩ := by
  induction h with
  | refl => exact .refl
  | tail _ hb ih =>
    have hstep : n.Step ⟨_, floor, outer⟩ [] ⟨_, floor, outer⟩ :=
      .free (t := .epsilon _) hb.2 rfl
    exact ih.trans (.single hstep)

/-- The levels of a grammar are positive. -/
theorem Grammar.HasLevel.pos {g : Grammar} {r : RuleId} {level : Int} (h : g.HasLevel r level) :
    0 < level := by
  obtain ⟨rule, -, body, -, op, hop, rfl⟩ := h
  cases body with
  | plain _ => cases hop
  | leftRecursive alternatives =>
    obtain ⟨⟨l, a⟩, ha, ho⟩ := List.mem_filterMap.1 hop
    have hpos := RuleBody.pos_levels ha
    cases a with
    | binary associativity _ => cases associativity <;> cases ho <;> exact hpos
    | suffix _ =>
      cases ho
      exact hpos
    | prefixed _ | primary _ => cases ho

namespace Network

section

variable (n : Network) (levels : RuleId → Int → Prop)

/-- Where a rule begins that nothing has called. -/
def origin (r : RuleId) : Place := ⟨(n.rule r).start, 0, []⟩

/-- Some way from the start of the rule takes the word and then a token of this type, or comes to the end
of the rule with the word if the type is the end of input. -/
def Accepts (r : RuleId) (w : List TokenType) (token : TokenType) : Prop :=
  (∃ q, n.Reads (n.origin r) (w ++ [token]) q) ∨
    token = TokenType.eof ∧ n.Spans (n.rule r).start 0 w

/-- The floors are those that the calls gave, and zero outermost. -/
def Answers : StateId → Int → List Frame → Prop
  | _, floor, [] => floor = 0
  | a, floor, f :: rest =>
    (∃ s, (n.state s).rule < n.rules.size ∧ ∃ t ∈ (n.state s).transitions,
      t.kind = .rule (n.state a).rule f.returnState floor) ∧
      Answers f.returnState f.precedence rest

/-- The loop of the rule that a state is in, and the zones around it. -/
abbrev Surrounds (s loop : StateId) (zone : StateId → Zone) : Prop :=
  LoopShape n.state (n.state s).rule (n.rule (n.state s).rule) (levels (n.state s).rule) loop zone

/-- The state is the loop of its rule if it is at the place of the loop. -/
def Looped (s : StateId) : Prop :=
  ∀ loop zone, n.Surrounds levels s loop zone → zone s = .loop → s = loop

/-- A way has come to a place with a word. Where a level is still to be passed, the loop is behind. -/
structure Comes (start : Place) (w : List TokenType) (q : Place) : Prop where
  reads : n.Reads start w q
  lt : q.state < n.states.size
  answers : n.Answers q.state q.floor q.returns
  looped : n.Looped levels q.state
  frames : ∀ f ∈ q.returns, n.Looped levels f.returnState ∧
    ∀ loop zone, n.Surrounds levels f.returnState loop zone → zone f.returnState ≠ .guard
  guard : ∀ loop zone, n.Surrounds levels q.state loop zone → zone q.state = .guard →
    n.Reads start w { q with state := loop } ∧ Idles n.state (n.state q.state).rule loop q.state

/-- Some of the innermost invocations are left, and each return is one that a way with this word comes
to. -/
inductive Sheds (start : Place) (w : List TokenType) : List Frame → List Frame → Prop
  | refl {fs : List Frame} : Sheds start w fs fs
  | drop {f : Frame} {rest fs : List Frame} (hb : n.Reads start w (.back f rest))
      (h : Sheds start w rest fs) : Sheds start w (f :: rest) fs

/-- Each return is one of the frames, or some way with this word has come to it already. -/
def Matched (start : Place) (w : List TokenType) : List StateId → List Frame → Prop
  | [], frames => frames = []
  | b :: rest, frames =>
    (∃ f outer, frames = f :: outer ∧ f.returnState = b ∧ Matched start w rest outer) ∨
      ∃ q, n.Reads start w q ∧ q.state = b ∧ Matched start w rest q.returns

end

variable {n : Network} {levels : RuleId → Int → Prop} {r s : RuleId} {start p q : Place}
  {w v : List TokenType} {token : TokenType} {a b x : StateId} {floor : Int} {t : Transition}
  {fs fs' outer : List Frame} {returns : List StateId}

theorem Answers.congr (h : n.Answers a floor fs) (hr : (n.state b).rule = (n.state a).rule) :
    n.Answers b floor fs := by
  cases fs with
  | nil => exact h
  | cons f rest =>
    obtain ⟨hcall, hrest⟩ := h
    rw [← hr] at hcall
    exact ⟨hcall, hrest⟩

theorem Answers.calls (h : n.Answers a floor fs) : ∀ b ∈ fs.map Frame.returnState,
    ∃ s, ∃ t ∈ (n.state s).transitions, ∃ r precedence, t.kind = .rule r b precedence := by
  induction fs generalizing a floor with
  | nil =>
    intro b hb
    cases hb
  | cons f rest ih =>
    obtain ⟨⟨s, -, t, ht, hk⟩, hrest⟩ := h
    intro b hb
    rcases List.mem_cons.1 hb with rfl | hb
    · exact ⟨s, t, ht, _, _, hk⟩
    · exact ih hrest b hb

theorem Sheds.matched (h : n.Sheds start w fs fs') (hm : n.Matched start w returns fs) :
    n.Matched start w returns fs' := by
  induction h with
  | refl => exact hm
  | @drop f rest fs hb _ ih =>
    apply ih
    cases returns with
    | nil => cases hm
    | cons b others =>
      rcases hm with ⟨g, outer, heq, hstate, hrest⟩ | hq
      · obtain ⟨rfl, rfl⟩ := List.cons.inj heq
        exact .inr ⟨_, hb, hstate, hrest⟩
      · exact .inr hq

theorem matched_map (start : Place) (w : List TokenType) (fs : List Frame) :
    n.Matched start w (fs.map Frame.returnState) fs := by
  induction fs with
  | nil => rfl
  | cons f rest ih => exact .inl ⟨f, rest, rfl, rfl, ih⟩

section

variable (hshape : n.Shaped levels)

include hshape

/-- A rule starts before its loop. -/
theorem zone_start (hr : r < n.rules.size) {loop : StateId} {zone : StateId → Zone}
    (h : n.Surrounds levels (n.rule r).start loop zone) : zone (n.rule r).start = .head := by
  unfold Surrounds at h
  rw [(hshape.rule r hr).start_rule] at h
  exact h.zone_start

/-- How a way comes to a place is kept by every step. -/
theorem Comes.step (hin : n.Inside s p) (h : n.Comes levels start w p) (hs : n.Step p v q) :
    n.Comes levels start (w ++ v) q := by
  have hrule := hshape.rule _ hin.nested.lt
  have hreads := h.reads.step hs
  -- what an edge of the rule leads to, whatever it takes
  have hedge : ∀ t ∈ (n.state p.state).transitions, t.next < n.states.size ∧
      n.Looped levels t.next ∧ ∀ loop zone, n.Surrounds levels t.next loop zone →
        zone t.next = .guard → t.kind = .epsilon ∧ n.Reads start w { p with state := loop } ∧
          Idles n.state (n.state t.next).rule loop p.state := by
    intro t ht
    obtain ⟨hlt, hr⟩ := hrule.next p.state rfl t ht
    refine ⟨hlt, ?_, ?_⟩
    · intro loop zone hz
      unfold Surrounds at hz
      rw [hr] at hz
      exact (hz.next rfl (h.looped loop zone hz) ht).1
    · intro loop zone hz hguard
      unfold Surrounds at hz
      rw [hr] at hz ⊢
      obtain ⟨hk, hback⟩ := (hz.next rfl (h.looped loop zone hz) ht).2 hguard
      refine ⟨hk, ?_⟩
      rcases hback with hloop | hbefore
      · rw [← hloop]
        exact ⟨h.reads, .refl⟩
      · exact h.guard loop zone hz hbefore
  cases hs with
  | @free _ t ht hfollow =>
    rw [List.append_nil] at hreads ⊢
    obtain ⟨-, hr⟩ := hrule.next p.state rfl t ht
    obtain ⟨hlt, hlooped, hguard⟩ := hedge t ht
    rcases Place.follow?_eq_some hfollow with ⟨c, back, precedence, hk, rfl⟩ | ⟨hcall, rfl⟩
    · obtain ⟨hc, htarget⟩ := hshape.call _ t ht c back precedence hk
      have hstart := (hshape.rule c hc).start_rule
      have hnext : t.next = back := by simp [Transition.next, hk]
      rw [hnext] at hlooped hguard hr
      have hhead : ∀ {loop zone}, n.Surrounds levels t.target loop zone → zone t.target = .head := by
        rw [htarget]
        exact zone_start hshape hc
      have hstart_lt := (hshape.rule c hc).start_lt
      rw [← htarget] at hstart_lt
      refine ⟨hreads, hstart_lt, ⟨⟨p.state, hin.nested.lt, t, ht, ?_⟩, h.answers.congr hr⟩, ?_, ?_, ?_⟩
      · show t.kind = .rule (n.state t.target).rule back precedence
        rw [htarget, hstart]
        exact hk
      · intro loop zone hz hloop
        rw [hhead hz] at hloop
        cases hloop
      · intro f hf
        rcases List.mem_cons.1 hf with rfl | hf
        · refine ⟨hlooped, ?_⟩
          intro loop zone hz hzone
          have hfree := (hguard loop zone hz hzone).1
          rw [hk] at hfree
          cases hfree
        · exact h.frames f hf
      · intro loop zone hz hzone
        rw [hhead hz] at hzone
        cases hzone
    · rw [Transition.next_eq_target hcall] at hlt hlooped hguard hr
      refine ⟨hreads, hlt, h.answers.congr hr, hlooped, h.frames, ?_⟩
      intro loop zone hz hzone
      obtain ⟨hk, hback, hidles⟩ := hguard loop zone hz hzone
      refine ⟨hback, hidles.tail ⟨hr.symm, ?_⟩⟩
      have heq : t = .epsilon t.target := by rw [Transition.epsilon, ← hk]
      rwa [← heq]
  | @back f outer hstop hr =>
    rw [List.append_nil] at hreads ⊢
    have hanswers := h.answers
    rw [hr] at hanswers
    obtain ⟨hlooped, hnot⟩ := h.frames f (hr ▸ .head _)
    refine ⟨hreads, ?_, hanswers.2, hlooped, fun g hg => h.frames g (hr ▸ .tail _ hg), ?_⟩
    · obtain ⟨⟨b, hb, u, hu, hku⟩, -⟩ := hanswers
      have hlt := ((hshape.rule _ hb).next b rfl u hu).1
      rwa [Transition.next, hku] at hlt
    · intro loop zone hz hzone
      exact absurd hzone (hnot loop zone hz)
  | @take t token ht hm =>
    obtain ⟨-, hr⟩ := hrule.next p.state rfl t ht
    obtain ⟨hlt, hlooped, hguard⟩ := hedge t ht
    have hnext := Transition.next_eq_target (call?_of_matches hm)
    rw [hnext] at hlt hlooped hguard hr
    refine ⟨hreads, hlt, h.answers.congr hr, hlooped, h.frames, ?_⟩
    intro loop zone hz hzone
    rw [(hguard loop zone hz hzone).1] at hm
    cases hm

theorem inside_origin (hr : r < n.rules.size) : n.Inside r (n.origin r) := by
  have hrule := (hshape.rule r hr).start_rule
  refine ⟨Int.le_refl 0, ?_, hrule⟩
  show (n.state (n.rule r).start).rule < n.rules.size
  rw [hrule]
  exact hr

/-- Every way from the start of a rule comes so. -/
theorem comes_of_reads (hn : n.Checked) (hr : r < n.rules.size) (h : n.Reads (n.origin r) w p) :
    n.Comes levels (n.origin r) w p := by
  induction h with
  | refl =>
    refine ⟨.refl, (hshape.rule r hr).start_lt, rfl, ?_, ?_, ?_⟩
    · intro loop zone hz hloop
      rw [show zone (n.origin r).state = .head from zone_start hshape hr hz] at hloop
      cases hloop
    · intro f hf
      cases hf
    · intro loop zone hz hguard
      rw [show zone (n.origin r).state = .head from zone_start hshape hr hz] at hguard
      cases hguard
  | step hp hs ih =>
    exact ih.step hshape ((inside_origin hshape hr).reads hshape hn hp) hs

variable (htails : ∀ r < n.rules.size, Tails n.state r (n.rule r))
  (hpos : ∀ r level, levels r level → 0 < level)

include htails hpos

/-- Where the floor closes a level, the level can be passed in an invocation further out, and what is left
for that are operands. -/
theorem Comes.pass_level (hin : n.Inside s p) (h : n.Comes levels start w p)
    (ht : t ∈ (n.state p.state).transitions) {level : Int} (hk : t.kind = .precedence level) :
    ∃ q, n.Reads start w q ∧ q.state = t.target ∧ n.Sheds start w p.returns q.returns := by
  have hlt := hin.nested.lt
  have hrule := hshape.rule _ hlt
  have hrec : (n.rule (n.state p.state).rule).leftRecursive = true := by
    by_contra hne
    have hno := (hrule.plain (by simpa using hne)).no_levels p.state rfl t ht
    rw [hk] at hno
    cases hno
  obtain ⟨loop, zone, hz⟩ := hrule.recursive hrec
  obtain ⟨loop', htail⟩ := (htails _ hlt).shape hrec
  obtain rfl := hz.loop_only loop' htail.loop_rule htail.loop_marked
  obtain ⟨hzone, hlevel⟩ := hz.zone_of_level rfl (h.looped loop' zone hz) ht hk
  have hlevel_pos := hpos _ level hlevel
  obtain ⟨hloop, hidles⟩ := h.guard loop' zone hz hzone
  have hidle : ∀ {a b floor outer}, n.Reads start w ⟨a, floor, outer⟩ →
      Idles n.state (n.state p.state).rule a b → n.Reads start w ⟨b, floor, outer⟩ := by
    intro a b floor outer ha hab
    have hb := ha.trans (hab.reads floor outer)
    rwa [List.append_nil] at hb
  have hanswers := h.answers
  have hreads := h.reads
  clear h hin
  obtain ⟨a, floor, fs⟩ := p
  dsimp only at *
  -- by the number of invocations around it
  induction fs generalizing floor with
  | nil =>
    obtain rfl : floor = 0 := hanswers
    have hopen : (0 : Int) ≤ level := by omega
    have hstep : n.Step ⟨a, 0, []⟩ [] ⟨t.target, 0, []⟩ :=
      .free ht (by simp [Place.follow?, hk, hopen])
    refine ⟨⟨t.target, 0, []⟩, ?_, rfl, .refl⟩
    rw [← List.append_nil w]
    exact hreads.step hstep
  | cons f rest ih =>
    by_cases hopen : floor ≤ level
    · have hstep : n.Step ⟨a, floor, f :: rest⟩ [] ⟨t.target, floor, f :: rest⟩ :=
        .free ht (by simp [Place.follow?, hk, hopen])
      refine ⟨⟨t.target, floor, f :: rest⟩, ?_, rfl, .refl⟩
      rw [← List.append_nil w]
      exact hreads.step hstep
    · obtain ⟨⟨b, hb, u, hu, hku⟩, hrest⟩ := hanswers
      have hfloor : 0 < floor := by omega
      have hown := (htails _ hb).own b rfl u hu _ _ _ hku hfloor
      have hback := htail.tail b hown.symm u hu _ _ _ hku hfloor
      -- the operand is left, and where it returns its caller is before the loop again
      have hend := hidle hloop htail.exit
      have hreturn : n.Reads start w (.back f rest) := by
        rw [← List.append_nil w]
        refine hend.step (.back ?_ rfl)
        simp [NetworkState.isRuleStop, hrule.stop_kind]
      have hcaller := hidle hreturn hback
      have hrest' : n.Answers a f.precedence rest := hrest.congr ?_
      · obtain ⟨q, hq, hstate, hsheds⟩ := ih f.precedence hcaller hrest' (hidle hcaller hidles)
        exact ⟨q, hq, hstate, .drop hreturn hsheds⟩
      · have hnext := ((hshape.rule _ hb).next b rfl u hu).2
        rw [Transition.next, hku] at hnext
        exact hown.trans hnext.symm

end

variable {g : Grammar} {c : CompiledGrammar}

/-- What a walk over free edges, calls and levels comes to, a way from the start of a rule comes to. -/
theorem exists_reads_of_drifts (hshape : n.Shaped levels) (hn : n.Checked)
    (htails : ∀ r < n.rules.size, Tails n.state r (n.rule r))
    (hpos : ∀ r level, levels r level → 0 < level) (hfree : n.PredicateFree)
    (hr : r < n.rules.size) (hp : n.Reads (n.origin r) w p)
    (h : n.Drifts p.state (p.returns.map Frame.returnState) x returns) :
    ∃ q, n.Reads (n.origin r) w q ∧ q.state = x ∧ n.Matched (n.origin r) w returns q.returns := by
  have hfollow : ∀ {q q' : Place} {t : Transition}, n.Reads (n.origin r) w q →
      t ∈ (n.state q.state).transitions → q.follow? t = some q' → n.Reads (n.origin r) w q' := by
    intro q q' t hq ht hf
    have := hq.step (.free ht hf)
    rwa [List.append_nil] at this
  induction h with
  | refl => exact ⟨p, hp, rfl, matched_map _ w p.returns⟩
  | @free s returns t _ ht hcall hcons ih =>
    obtain ⟨q, hq, rfl, hm⟩ := ih
    have hno := hfree.isPredicate ht
    cases hk : t.kind with
    | epsilon | action _ _ =>
      exact ⟨{ q with state := t.target }, hfollow hq ht (by simp [Place.follow?, hk]), rfl, hm⟩
    | precedence level =>
      have hin := (inside_origin hshape hr).reads hshape hn hq
      obtain ⟨q', hq', hstate, hsheds⟩ :=
        (comes_of_reads hshape hn hr hq).pass_level hshape htails hpos hin ht hk
      exact ⟨q', hq', hstate, hsheds.matched hm⟩
    | predicate _ _ _ =>
      rw [hk] at hno
      cases hno
    | rule _ _ _ => simp [Transition.call?, hk] at hcall
    | atom _ | range _ _ | set _ | notSet _ | wildcard =>
      simp [Transition.isConsuming, EdgeKind.isConsuming, hk] at hcons
  | @call s follow returns t c precedence _ ht hk ih =>
    obtain ⟨q, hq, rfl, hm⟩ := ih
    refine ⟨⟨t.target, precedence, ⟨follow, q.floor⟩ :: q.returns⟩,
      hfollow hq ht (by simp [Place.follow?, hk]), rfl, ?_⟩
    exact .inl ⟨_, _, rfl, rfl, hm⟩
  | @back s b returns _ hstop ih =>
    obtain ⟨q, hq, rfl, hm⟩ := ih
    rcases hm with ⟨f, outer, hreturns, rfl, hm⟩ | ⟨q', hq', hstate, hm⟩
    · have := hq.step (.back hstop hreturns)
      rw [List.append_nil] at this
      exact ⟨.back f outer, this, rfl, hm⟩
    · exact ⟨q', hq', hstate, hm⟩

end Network

variable {g : Grammar} {c : CompiledGrammar} {r : RuleId} {w : List TokenType} {p : Place}
  {token : TokenType}

/-- Past what a way has taken from the start of a rule, a type that is told to come next is accepted. -/
theorem Grammar.accepts_of_expected (hg : g.compile = .ok c) (hfree : g.PredicateFree)
    (he : c.network.EpsilonFree) (hr : r < g.rules.size)
    (hp : c.network.Reads (c.network.origin r) w p)
    (ht : token ∈ c.network.expectedTokens p.state (p.returns.map Frame.returnState)) :
    c.network.Accepts r w token := by
  obtain ⟨hshape, hcount⟩ := shaped_compile hg
  have hn := checked_compile hg
  have hrule : r < c.network.rules.size := hcount ▸ hr
  have htails : ∀ r < c.network.rules.size, Tails c.network.state r (c.network.rule r) :=
    fun r hr => tails_compile hg (hcount ▸ hr)
  have hcomes := Network.comes_of_reads hshape hn hrule hp
  have hcalls := hcomes.answers.calls
  rw [expectedTokens_eq hg he hcomes.lt _ ?_] at ht
  · have hlt : ∀ b ∈ (some (p.returns.map Frame.returnState)).getD [],
        b < c.network.states.size := by
      intro b hb
      obtain ⟨a, u, hu, r, precedence, hk⟩ := hcalls b hb
      exact hn.follow_lt a u hu r b precedence hk
    have hexists : ∀ {x returns}, c.network.Drifts p.state (p.returns.map Frame.returnState) x
        returns → ∃ q, c.network.Reads (c.network.origin r) w q ∧ q.state = x ∧
          c.network.Matched (c.network.origin r) w returns q.returns :=
      Network.exists_reads_of_drifts hshape hn htails (fun _ _ h => h.pos)
        (predicateFree_compile hg hfree) hrule hp
    rcases (Network.mem_following_iff hshape hn hlt).1 ht with ⟨x, returns, hd, u, hu, types, hl, hm⟩ |
      ⟨rfl, x, hd, hstop⟩
    · obtain ⟨q, hq, rfl, -⟩ := hexists hd
      exact .inl ⟨_, hq.step (.take hu (Network.matches_of_label hl hm))⟩
    · obtain ⟨q, hq, rfl, hm⟩ := hexists hd
      exact .inr ⟨rfl, q, hq, hm, hstop⟩
  · exact hcalls

end AdaptiveParsing
