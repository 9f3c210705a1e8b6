import AdaptiveParsing.Proofs.Network.Compiled
import Mathlib
/-!
The words of a fragment. A labelling gives every state a language; a draft obeys it if what an edge
contributes, before a word of the state where it goes on, is a word of the state it leaves. The
language of a fragment is then told by labellings: it stands before the exit in every one that is
obeyed (`Draft.Denotes.complete`), and nothing else does in some (`Draft.Denotes.sound`). Main
statement: the fragment of an element has the words of the element (`Element.denotes_lower`).
-/

namespace AdaptiveParsing

open Draft DraftM

open scoped Computability

/-- What an edge can contribute to the word along a path. -/
inductive Letter where
  | call (rule : RuleId) (precedence : Int)
  | edge (kind : EdgeKind)
deriving DecidableEq, Inhabited, Repr

/-- What an edge contributes: a call its rule and argument, an edge taken for free nothing. -/
def Transition.letters (t : Transition) : List Letter :=
  match t.kind with
  | .epsilon => []
  | .rule r _ precedence => [.call r precedence]
  | kind => [.edge kind]

mutual

/-- The words of an element of rule `r`. -/
def Element.language (r : RuleId) : Element → Language Letter
  | .token t => {[.edge (.atom t)]}
  | .set types => {[.edge (.set (.ofList types))]}
  | .notSet types => {[.edge (.notSet (.ofList types))]}
  | .wildcard => {[.edge .wildcard]}
  | .rule c => {[.call c 0]}
  | .seq items => (Element.languages r items).prod
  | .alt alternatives => (Element.languages r alternatives).sum
  | .opt e => e.language r + 1
  | .star e => (e.language r)∗
  | .plus e => e.language r * (e.language r)∗
  | .predicate index => {[.edge (.predicate r index false)]}
  | .contextPredicate index => {[.edge (.predicate r index true)]}
  | .action index => {[.edge (.action r index)]}
  | .epsilon => 1

/-- The languages of several elements, in their order. -/
def Element.languages (r : RuleId) : List Element → List (Language Letter)
  | [] => []
  | e :: rest => e.language r :: Element.languages r rest

end

namespace Draft

variable {d d₀ d₁ : Draft} {r : RuleId} {lo s a b : StateId} {t : Transition} {kind : StateKind}
  {guards : List (StateId × Int)} {R R' : StateId → Language Letter}

/-- What leaves states from `lo` on contributes what the labelling says. -/
def Obeys (d : Draft) (lo : StateId) (R : StateId → Language Letter) : Prop :=
  ∀ s, lo ≤ s → ∀ t ∈ (d.state s).transitions, {t.letters} * R t.next ≤ R s

/-- What leaves states from `lo` on stays among them. -/
def Closed (d : Draft) (lo : StateId) : Prop :=
  ∀ s, lo ≤ s → ∀ t ∈ (d.state s).transitions, lo ≤ t.next ∧ t.next < d.states.size

theorem Grows.closed (h : Grows r guards d₀ d) : d.Closed d₀.states.size :=
  fun s hs t ht => (h.new s hs (lt_of_edge ht)).bounds t ht

/-- Only the labels of states from `lo` on count. -/
theorem Obeys.congr (h : d.Obeys lo R) (hc : d.Closed lo)
    (he : ∀ s, lo ≤ s → s < d.states.size → R' s = R s) : d.Obeys lo R' := by
  intro s hs t ht
  obtain ⟨hn, hn'⟩ := hc s hs t ht
  rw [he s hs (lt_of_edge ht), he _ hn hn']
  exact h s hs t ht

theorem Obeys.mono {hi : StateId} (h : d.Obeys lo R) (hl : lo ≤ hi) : d.Obeys hi R :=
  fun s hs => h s (Nat.le_trans hl hs)

theorem obeys_addState : (d.addState kind r).2.Obeys lo R ↔ d.Obeys lo R := by
  refine forall₂_congr fun s _ => ?_
  rw [state_addState]
  split
  · rename_i hs
    rw [state_of_size_le (Nat.le_of_eq hs.symm)]
    exact Iff.rfl
  · exact Iff.rfl

theorem obeys_addTransition (ha : lo ≤ a) (ha' : a < d.states.size) :
    (d.addTransition a t).Obeys lo R ↔ d.Obeys lo R ∧ {t.letters} * R t.next ≤ R a := by
  constructor
  · intro h
    refine ⟨fun s hs u hu => h s hs u ?_, h a ha t ?_⟩
    · rcases state_addTransition_or d a t s with he | ⟨-, he⟩ <;> rw [he]
      · exact hu
      · exact List.mem_append_left _ hu
    · rw [state_addTransition ha', if_pos rfl]
      exact List.mem_append_right _ (.head _)
  · rintro ⟨h, ht⟩ s hs u hu
    rcases state_addTransition_or d a t s with he | ⟨rfl, he⟩ <;> rw [he] at hu
    · exact h s hs u hu
    · rcases List.mem_append.1 hu with hu | hu
      · exact h s hs u hu
      · rwa [List.mem_singleton.1 hu]

theorem letters_epsilon (b : StateId) : ({(Transition.epsilon b).letters} : Language Letter) = 1 := rfl

theorem obeys_addEpsilon (ha : lo ≤ a) (ha' : a < d.states.size) :
    (d.addEpsilon a b).Obeys lo R ↔ d.Obeys lo R ∧ R b ≤ R a := by
  rw [addEpsilon, obeys_addTransition ha ha', letters_epsilon, one_mul]
  rfl

/-- An edge from a state before `lo` does not count. -/
theorem obeys_addEpsilon_of_lt (ha : a < lo) : (d.addEpsilon a b).Obeys lo R ↔ d.Obeys lo R := by
  refine forall₂_congr fun s hs => ?_
  rw [state_addEpsilon_other (by lia)]

/-- The states of a larger draft are old and new ones. -/
theorem Grows.obeys_iff (h : Grows r guards d₀ d) (hlo : lo ≤ d₀.states.size) :
    d.Obeys lo R ↔ d₀.Obeys lo R ∧ d.Obeys d₀.states.size R := by
  constructor
  · intro ho
    refine ⟨fun s hs t ht => ho s hs t ?_, ho.mono hlo⟩
    rwa [h.old s (lt_of_edge ht)]
  · rintro ⟨h₁, h₂⟩ s hs t ht
    by_cases hs' : s < d₀.states.size
    · rw [h.old s hs'] at ht
      exact h₁ s hs t ht
    · exact h₂ s (by lia) t ht

/-- One labelling of the states before `m`, another from there on. -/
def labelUpTo (m : StateId) (R R' : StateId → Language Letter) (s : StateId) : Language Letter :=
  if s < m then R s else R' s

theorem labelUpTo_lt {m : StateId} (h : s < m) : labelUpTo m R R' s = R s := if_pos h

theorem labelUpTo_ge {m : StateId} (h : m ≤ s) : labelUpTo m R R' s = R' s := if_neg (by lia)

theorem Obeys.labelUpTo (h : d.Obeys lo R) (hc : d.Closed lo) :
    d.Obeys lo (labelUpTo d.states.size R R') :=
  h.congr hc fun _ _ hs => labelUpTo_lt hs

/-- The fragments, among the states added to `d₀`, have these languages. -/
structure Denotes (d₀ d : Draft) (parts : List Fragment) (languages : List (Language Letter)) :
    Prop where
  /-- What a labelling says of the exits, it says of the entries with the languages before it. -/
  complete : ∀ R, d.Obeys d₀.states.size R →
    List.Forall₂ (fun f l => l * R f.exit ≤ R f.entry) parts languages
  /-- Some labelling says no more of the entries, whatever is wanted of the exits. -/
  sound : ∀ goals : List (Language Letter × Language Letter), goals.map Prod.fst = languages →
    ∃ R, d.Obeys d₀.states.size R ∧
      List.Forall₂ (fun f g => g.2 ≤ R f.exit ∧ R f.entry ≤ g.1 * g.2) parts goals

/-- The fragment, among the states added to `d₀`, has this language. -/
abbrev DenotesOne (d₀ : Draft) (result : Fragment × Draft) (l : Language Letter) : Prop :=
  Denotes d₀ result.2 [result.1] [l]

theorem denotes_nil (d : Draft) : Denotes d d [] [] := by
  refine ⟨fun _ _ => .nil, fun goals hg => ⟨fun _ => ⊤, fun _ _ _ _ => le_top, ?_⟩⟩
  rw [List.map_eq_nil_iff.1 hg]
  exact .nil

theorem denotes_one {f : Fragment} {l : Language Letter}
    (hc : ∀ R, d.Obeys d₀.states.size R → l * R f.exit ≤ R f.entry)
    (hs : ∀ k, ∃ R, d.Obeys d₀.states.size R ∧ k ≤ R f.exit ∧ R f.entry ≤ l * k) :
    Denotes d₀ d [f] [l] := by
  refine ⟨fun R hR => .cons (hc R hR) .nil, fun goals hg => ?_⟩
  obtain ⟨⟨l', k⟩, rest, rfl, rfl, hrest⟩ := List.map_eq_cons_iff.1 hg
  obtain rfl := List.map_eq_nil_iff.1 hrest
  obtain ⟨R, hR, hk⟩ := hs k
  exact ⟨R, hR, .cons hk .nil⟩

namespace Denotes

variable {f : Fragment} {parts : List Fragment} {l k k' : Language Letter}
  {languages : List (Language Letter)}

theorem complete_one (h : Denotes d₀ d [f] [l]) (hR : d.Obeys d₀.states.size R) :
    l * R f.exit ≤ R f.entry :=
  (List.forall₂_cons.1 (h.complete R hR)).1

theorem sound_one (h : Denotes d₀ d [f] [l]) (k : Language Letter) :
    ∃ R, d.Obeys d₀.states.size R ∧ k ≤ R f.exit ∧ R f.entry ≤ l * k := by
  obtain ⟨R, hR, hk⟩ := h.sound [(l, k)] rfl
  exact ⟨R, hR, (List.forall₂_cons.1 hk).1⟩

/-- Fragments that lie in different parts of a draft have their languages together. -/
theorem cons (h : Denotes d₀ d₁ [f] [l]) (hf : d₀.Holds d₁ f) (hg₁ : d₁.Closed d₀.states.size)
    (hg : Grows r guards d₁ d) (hp : Denotes d₁ d parts languages)
    (hparts : ∀ f ∈ parts, d₁.Holds d f) (hsize : d₀.states.size ≤ d₁.states.size) :
    Denotes d₀ d (f :: parts) (l :: languages) := by
  constructor
  · intro R hR
    obtain ⟨h₁, h₂⟩ := (hg.obeys_iff hsize).1 hR
    exact .cons (h.complete_one h₁) (hp.complete R h₂)
  · intro goals hgoals
    obtain ⟨⟨l', k⟩, rest, rfl, rfl, hrest⟩ := List.map_eq_cons_iff.1 hgoals
    obtain ⟨R₁, h₁, hk₁, hk₁'⟩ := h.sound_one k
    obtain ⟨R₂, h₂, hk₂⟩ := hp.sound rest hrest
    refine ⟨labelUpTo d₁.states.size R₁ R₂, (hg.obeys_iff hsize).2
      ⟨h₁.congr hg₁ fun _ _ hs => labelUpTo_lt hs, h₂.congr hg.closed fun _ hs _ => labelUpTo_ge hs⟩,
      .cons ?_ ?_⟩
    · rw [labelUpTo_lt hf.exit_lt, labelUpTo_lt hf.entry_lt]
      exact ⟨hk₁, hk₁'⟩
    · refine List.forall₂_iff_get.2 ⟨hk₂.length_eq, fun i hi hi' => ?_⟩
      have hh := hparts _ (List.get_mem parts ⟨i, hi⟩)
      rw [labelUpTo_ge hh.exit_ge, labelUpTo_ge hh.entry_ge]
      exact hk₂.get hi hi'

/-- What every entry is within has the union of the languages before what is within every exit. -/
theorem complete_sum (h : Denotes d₀ d parts languages) (hR : d.Obeys d₀.states.size R)
    (hp : ∀ f ∈ parts, R f.entry ≤ k ∧ k' ≤ R f.exit) : languages.sum * k' ≤ k := by
  have hall := h.complete R hR
  clear h
  induction hall with
  | nil => simp
  | @cons f l parts languages hl _ ih =>
    obtain ⟨hentry, hexit⟩ := hp f (.head _)
    rw [List.sum_cons, add_mul]
    refine add_le ?_ (ih fun g hg => hp g (.tail _ hg))
    calc l * k' ≤ l * R f.exit := mul_le_mul_right hexit l
      _ ≤ R f.entry := hl
      _ ≤ k := hentry

theorem le_sum {languages : List (Language Letter)} (h : l ∈ languages) : l ≤ languages.sum := by
  induction languages with
  | nil => cases h
  | cons l' rest ih =>
    rw [List.sum_cons]
    rcases List.mem_cons.1 h with rfl | h
    · exact le_self_add
    · exact (ih h).trans le_add_self

/-- One labelling serves all alternatives. -/
theorem sound_sum (h : Denotes d₀ d parts languages) (k : Language Letter) :
    ∃ R, d.Obeys d₀.states.size R ∧ ∀ f ∈ parts, k ≤ R f.exit ∧ R f.entry ≤ languages.sum * k := by
  obtain ⟨R, hR, hall⟩ := h.sound (languages.map (·, k)) (by simp [Function.comp_def])
  rw [List.forall₂_map_right_iff] at hall
  refine ⟨R, hR, fun f hf => ?_⟩
  obtain ⟨i, hi, rfl⟩ := List.getElem_of_mem hf
  obtain ⟨hk, hl⟩ := hall.get hi (hall.length_eq ▸ hi)
  exact ⟨hk, hl.trans (mul_le_mul_left (le_sum (List.get_mem _ _)) k)⟩

end Denotes

theorem obeys_size (d : Draft) (R : StateId → Language Letter) : d.Obeys d.states.size R := by
  intro s hs t ht
  have := lt_of_edge ht
  lia

end Draft

namespace DraftM

variable {d d₀ : Draft} {r : RuleId} {lo e entry exit : StateId} {f : Fragment}
  {parts : List Fragment} {guards : List (StateId × Int)} {l : Language Letter}
  {languages : List (Language Letter)} {R R' : StateId → Language Letter}

theorem obeys_pair (k k' : StateKind) : (pair r k k' d).Obeys lo R ↔ d.Obeys lo R := by
  rw [pair, obeys_addState, obeys_addState]

/-- Two states joined by an edge have its word. -/
theorem denotes_joined {t : Transition} (hn : t.next = d.states.size + 1) :
    DenotesOne d (⟨d.states.size, d.states.size + 1⟩,
      (pair r .basic .basic d).addTransition d.states.size t) {t.letters} := by
  have hsize := size_pair r .basic .basic d
  have hiff : ∀ R, ((pair r .basic .basic d).addTransition d.states.size t).Obeys d.states.size R ↔
      {t.letters} * R (d.states.size + 1) ≤ R d.states.size := by
    intro R
    rw [obeys_addTransition (Nat.le_refl _) (by lia), obeys_pair, hn]
    exact and_iff_right (d.obeys_size R)
  refine denotes_one (fun R hR => (hiff R).1 hR) fun k =>
    ⟨labelUpTo (d.states.size + 1) (fun _ => {t.letters} * k) (fun _ => k), (hiff _).2 ?_, ?_, ?_⟩
  · rw [labelUpTo_ge (Nat.le_refl _), labelUpTo_lt (Nat.lt_succ_self _)]
  · rw [labelUpTo_ge (Nat.le_refl _)]
  · rw [labelUpTo_lt (Nat.lt_succ_self _)]

theorem denotes_single {k : EdgeKind} (hk : ∀ c follow p, k ≠ .rule c follow p) :
    DenotesOne d ((single r k).run d) {(⟨d.states.size + 1, k⟩ : Transition).letters} := by
  rw [single_run]
  refine denotes_joined ?_
  cases k <;> first | rfl | exact absurd rfl (hk _ _ _)

theorem denotes_call (callee : RuleId) (precedence : Int) :
    DenotesOne d ((call r callee precedence).run d) {[.call callee precedence]} := by
  rw [call_run]
  exact denotes_joined rfl

/-- Joining two fragments puts one language before the other. -/
theorem denotes_join {g : Fragment} {l' : Language Letter} (hf : d₀.Holds d f)
    (h : Denotes d₀ d (f :: g :: parts) (l :: l' :: languages)) :
    Denotes d₀ (d.addEpsilon f.exit g.entry) (⟨f.entry, g.exit⟩ :: parts)
      (l * l' :: languages) := by
  have hiff : ∀ R, (d.addEpsilon f.exit g.entry).Obeys d₀.states.size R ↔
      d.Obeys d₀.states.size R ∧ R g.entry ≤ R f.exit :=
    fun R => obeys_addEpsilon hf.exit_ge hf.exit_lt
  constructor
  · intro R hR
    obtain ⟨ho, hj⟩ := (hiff R).1 hR
    obtain ⟨hl, hrest⟩ := List.forall₂_cons.1 (h.complete R ho)
    obtain ⟨hl', hrest⟩ := List.forall₂_cons.1 hrest
    refine .cons ?_ hrest
    calc l * l' * R g.exit = l * (l' * R g.exit) := mul_assoc _ _ _
      _ ≤ l * R f.exit := mul_le_mul_right (hl'.trans hj) l
      _ ≤ R f.entry := hl
  · intro goals hgoals
    obtain ⟨⟨m, k⟩, rest, rfl, hm, hrest⟩ := List.map_eq_cons_iff.1 hgoals
    simp only at hm
    obtain ⟨R, hR, hall⟩ := h.sound ((l, l' * k) :: (l', k) :: rest) (by simp [hrest])
    obtain ⟨⟨hk, hl⟩, hall⟩ := List.forall₂_cons.1 hall
    obtain ⟨⟨hk', hl'⟩, hall⟩ := List.forall₂_cons.1 hall
    refine ⟨R, (hiff R).2 ⟨hR, hl'.trans hk⟩, .cons ⟨hk', ?_⟩ hall⟩
    rw [hm, mul_assoc]
    exact hl

theorem denotes_chain (hp : Parts r d₀ d (f :: parts))
    (h : Denotes d₀ d (f :: parts) (l :: languages)) :
    DenotesOne d₀ ((chain f parts).run d) (l :: languages).prod := by
  induction parts generalizing f d l languages with
  | nil =>
    obtain ⟨-, hrest⟩ := List.forall₂_cons.1 (h.complete (fun _ => ⊤) fun _ _ _ _ => le_top)
    obtain rfl := List.forall₂_nil_left_iff.1 hrest
    rw [List.prod_singleton]
    exact h
  | cons next rest ih =>
    obtain ⟨-, hrest⟩ := List.forall₂_cons.1 (h.complete (fun _ => ⊤) fun _ _ _ _ => le_top)
    obtain ⟨l', languages, -, -, rfl⟩ := List.forall₂_cons_left_iff.1 hrest
    have := ih hp.join (denotes_join (hp.holds f (.head _)) h)
    rwa [List.prod_cons, mul_assoc, ← List.prod_cons, ← List.prod_cons] at this

/-- What is found where more states were before is found where fewer were. -/
theorem denotes_of_grows {result : Fragment × Draft} (hg : Grows r guards d₀ d)
    (h : DenotesOne d result l) (ha : Adds r d result) : DenotesOne d₀ result l := by
  have hiff : ∀ R, result.2.Obeys d₀.states.size R ↔
      d.Obeys d₀.states.size R ∧ result.2.Obeys d.states.size R :=
    fun R => ha.grows.obeys_iff hg.size
  refine denotes_one (fun R hR => h.complete_one ((hiff R).1 hR).2) fun k => ?_
  obtain ⟨R, hR, hk, hl⟩ := h.sound_one k
  refine ⟨labelUpTo d.states.size (fun _ => ⊤) R, (hiff _).2 ⟨?_, ?_⟩, ?_⟩
  · exact Obeys.labelUpTo (fun _ _ _ _ => le_top) hg.closed
  · exact hR.congr ha.grows.closed fun _ hs _ => labelUpTo_ge hs
  · rw [labelUpTo_ge ha.holds.exit_ge, labelUpTo_ge ha.holds.entry_ge]
    exact ⟨hk, hl⟩

/-- Fragments one after the other have the product of their languages. -/
theorem denotes_sequence (hp : Parts r d₀ d parts) (h : Denotes d₀ d parts languages) :
    DenotesOne d₀ ((sequence r parts).run d) languages.prod := by
  have hall := h.complete (fun _ => ⊤) fun _ _ _ _ => le_top
  cases parts with
  | nil =>
    obtain rfl := List.forall₂_nil_left_iff.1 hall
    exact denotes_of_grows hp.grows (denotes_single (k := .epsilon) (by simp))
      (adds_single rfl (by simp))
  | cons first rest =>
    obtain ⟨l, languages, -, -, rfl⟩ := List.forall₂_cons_left_iff.1 hall
    exact denotes_chain hp h

theorem obeys_alternatives (he : lo ≤ entry) (he' : entry < d.states.size)
    (hp : ∀ f ∈ parts, lo ≤ f.exit ∧ f.exit < d.states.size) :
    ((alternatives entry exit parts).run d).2.Obeys lo R ↔
      d.Obeys lo R ∧ ∀ f ∈ parts, R f.entry ≤ R entry ∧ R exit ≤ R f.exit := by
  induction parts generalizing d with
  | nil => exact (and_iff_left (by simp)).symm
  | cons f rest ih =>
    obtain ⟨hx, hx'⟩ := hp f (.head _)
    rw [alternatives_cons, ih (by simpa using he') fun g hg => by simpa using hp g (.tail _ hg),
      obeys_addEpsilon hx (by simpa using hx'), obeys_addEpsilon he he', List.forall_mem_cons,
      and_assoc, and_assoc, and_assoc]

theorem obeys_block (hp : ∀ f ∈ parts, d₀.Holds d f) (hsize : d₀.states.size ≤ d.states.size)
    (bypass : Bool) :
    ((block r parts bypass).run d).2.Obeys d₀.states.size R ↔
      d.Obeys d₀.states.size R ∧
        (∀ f ∈ parts, R f.entry ≤ R d.states.size ∧ R (d.states.size + 1) ≤ R f.exit) ∧
        (bypass = true → R (d.states.size + 1) ≤ R d.states.size) := by
  have hs := size_pair r .blockStart .blockEnd d
  have hparts : ∀ f ∈ parts, d₀.states.size ≤ f.exit ∧
      f.exit < (pair r .blockStart .blockEnd d).states.size :=
    fun f hf => ⟨(hp f hf).exit_ge, by have := (hp f hf).exit_lt; lia⟩
  have ha : ((alternatives d.states.size (d.states.size + 1) parts).run
      (pair r .blockStart .blockEnd d)).2.Obeys d₀.states.size R ↔ _ :=
    obeys_alternatives hsize (by lia) hparts
  rw [obeys_pair] at ha
  rw [block_run]
  cases bypass with
  | false =>
    rw [if_neg (by simp)]
    simpa using ha
  | true =>
    have hsize' := (rewired_alternatives (Rewired.refl (pair r .blockStart .blockEnd d))
      d.states.size (d.states.size + 1) parts).size
    rw [if_pos rfl, obeys_addEpsilon hsize (by lia), ha, and_assoc]
    simp

/-- A block has the words of its alternatives, and the empty one if it can be bypassed. -/
theorem denotes_block (bypass : Bool) (hp : Parts r d₀ d parts) (h : Denotes d₀ d parts languages) :
    DenotesOne d₀ ((block r parts bypass).run d) (languages.sum + if bypass then 1 else 0) := by
  have hsize := hp.grows.size
  have hf : ((block r parts bypass).run d).1 = ⟨d.states.size, d.states.size + 1⟩ := by
    rw [block_run]
  rw [DenotesOne, hf]
  refine denotes_one ?_ fun k => ?_
  · intro R hR
    obtain ⟨ho, hparts, hb⟩ := (obeys_block hp.holds hsize bypass).1 hR
    rw [add_mul]
    refine add_le (h.complete_sum ho hparts) ?_
    cases bypass with
    | false => simp
    | true => simpa using hb rfl
  · obtain ⟨R, hR, hk⟩ := h.sound_sum k
    refine ⟨labelUpTo d.states.size R (labelUpTo (d.states.size + 1)
      (fun _ => (languages.sum + if bypass then 1 else 0) * k) fun _ => k),
      (obeys_block hp.holds hsize bypass).2 ⟨hR.labelUpTo hp.grows.closed, ?_, ?_⟩, ?_, ?_⟩
    · intro f hf
      have hh := hp.holds f hf
      rw [labelUpTo_lt hh.entry_lt, labelUpTo_lt hh.exit_lt, labelUpTo_ge (Nat.le_refl _),
        labelUpTo_lt (Nat.lt_succ_self _), labelUpTo_ge (Nat.le_succ _), labelUpTo_ge (Nat.le_refl _)]
      refine ⟨(hk f hf).2.trans ?_, (hk f hf).1⟩
      rw [add_mul]
      exact le_self_add
    · rintro rfl
      rw [labelUpTo_ge (Nat.le_succ _), labelUpTo_ge (Nat.le_refl _), labelUpTo_ge (Nat.le_refl _),
        labelUpTo_lt (Nat.lt_succ_self _), if_pos rfl, add_mul, one_mul]
      exact le_add_self
    · rw [labelUpTo_ge (Nat.le_succ _), labelUpTo_ge (Nat.le_refl _)]
    · rw [labelUpTo_ge (Nat.le_refl _), labelUpTo_lt (Nat.lt_succ_self _)]

theorem denotes_choice (hp : Parts r d₀ d parts) (h : Denotes d₀ d parts languages) :
    DenotesOne d₀ ((choice r parts).run d) languages.sum := by
  have hb := denotes_block false hp h
  rw [if_neg (by simp), add_zero] at hb
  rcases parts with - | ⟨only, - | ⟨next, rest⟩⟩
  · exact hb
  · obtain ⟨l, rest, -, hrest, rfl⟩ :=
      List.forall₂_cons_left_iff.1 (h.complete (fun _ => ⊤) fun _ _ _ _ => le_top)
    obtain rfl := List.forall₂_nil_left_iff.1 hrest
    rw [List.sum_singleton]
    exact h
  · exact hb

theorem obeys_starStates : (starStates r d).Obeys lo R ↔ d.Obeys lo R := by
  rw [starStates, obeys_addState, obeys_pair, obeys_pair]

theorem obeys_starLoop (hp : ∀ f ∈ parts, d₀.Holds d f) (hsize : d₀.states.size ≤ d.states.size) :
    ((starLoop r parts).run d).2.Obeys d₀.states.size R ↔
      d.Obeys d₀.states.size R ∧ R (d.states.size + 1) ≤ R d.states.size ∧
        R (d.states.size + 4) ≤ R d.states.size ∧
        (∀ f ∈ parts, R f.entry ≤ R (d.states.size + 1) ∧ R (d.states.size + 2) ≤ R f.exit) ∧
        R (d.states.size + 3) ≤ R (d.states.size + 2) ∧ R d.states.size ≤ R (d.states.size + 3) := by
  let e := d.states.size
  have hs := size_starStates r d
  have hparts : ∀ f ∈ parts, d₀.states.size ≤ f.exit ∧
      f.exit < (((starStates r d).addEpsilon e (e + 1)).addEpsilon e (e + 4)).states.size := by
    intro f hf
    have := hp f hf
    rw [size_addEpsilon, size_addEpsilon]
    exact ⟨this.exit_ge, by have := this.exit_lt; lia⟩
  have hsize' := (rewired_alternatives (Rewired.refl
    (((starStates r d).addEpsilon e (e + 1)).addEpsilon e (e + 4))) (e + 1) (e + 2) parts).size
  simp only [size_addEpsilon] at hsize'
  rw [starLoop_run, obeys_addEpsilon (by lia) (by simp only [size_addEpsilon]; lia),
    obeys_addEpsilon (by lia) (by lia),
    obeys_alternatives (by lia) (by simp only [size_addEpsilon]; lia) hparts,
    obeys_addEpsilon (by lia) (by simp only [size_addEpsilon]; lia),
    obeys_addEpsilon (by lia) (by lia), obeys_starStates, and_assoc, and_assoc, and_assoc, and_assoc]

/-- A zero-or-more loop has the words of its rounds one after the other. -/
theorem denotes_starLoop (hc : d.Closed d₀.states.size) (hp : ∀ f ∈ parts, d₀.Holds d f)
    (hsize : d₀.states.size ≤ d.states.size) (h : Denotes d₀ d parts languages) :
    DenotesOne d₀ ((starLoop r parts).run d) languages.sum∗ := by
  have hf : ((starLoop r parts).run d).1 = ⟨d.states.size, d.states.size + 4⟩ := starLoop_ends r parts d
  rw [DenotesOne, hf]
  refine denotes_one ?_ fun k => ?_
  · intro R hR
    obtain ⟨ho, hround, hend, hparts, hdone, hback⟩ := (obeys_starLoop hp hsize).1 hR
    refine kstar_mul_le hend ?_
    -- a word of a round before one of the entry is one of the entry
    calc languages.sum * R d.states.size
        ≤ languages.sum * R (d.states.size + 2) := mul_le_mul_right (hback.trans hdone) _
      _ ≤ R (d.states.size + 1) := h.complete_sum ho hparts
      _ ≤ R d.states.size := hround
  · obtain ⟨R, hR, hk⟩ := h.sound_sum (languages.sum∗ * k)
    -- another round may follow wherever the loop is not left
    let R' := labelUpTo d.states.size R
      (labelUpTo (d.states.size + 4) (fun _ => languages.sum∗ * k) fun _ => k)
    have hold : ∀ s, s < d.states.size → R' s = R s := fun s hs => labelUpTo_lt hs
    have hloop : ∀ i, i < 4 → R' (d.states.size + i) = languages.sum∗ * k := fun i hi =>
      (labelUpTo_ge (by lia)).trans (labelUpTo_lt (by lia))
    have hexit : R' (d.states.size + 4) = k :=
      (labelUpTo_ge (by lia)).trans (labelUpTo_ge (by lia))
    refine ⟨R', (obeys_starLoop hp hsize).2 ⟨hR.labelUpTo hc, ?_⟩, hexit.ge, (hloop 0 (by lia)).le⟩
    have hentry : R' d.states.size = languages.sum∗ * k := hloop 0 (by lia)
    rw [hentry, hexit, hloop 1 (by lia), hloop 2 (by lia), hloop 3 (by lia)]
    refine ⟨le_rfl, ?_, fun f hf => ?_, le_rfl, le_rfl⟩
    · calc k = 1 * k := (one_mul k).symm
        _ ≤ languages.sum∗ * k := mul_le_mul_left one_le_kstar k
    · rw [hold _ (hp f hf).entry_lt, hold _ (hp f hf).exit_lt]
      refine ⟨?_, (hk f hf).1⟩
      calc R f.entry ≤ languages.sum * (languages.sum∗ * k) := (hk f hf).2
        _ = languages.sum * languages.sum∗ * k := (mul_assoc _ _ _).symm
        _ ≤ languages.sum∗ * k := mul_le_mul_left mul_kstar_le_kstar k

theorem obeys_plusLoop (hp : ∀ f ∈ parts, d₀.Holds d f) (hsize : d₀.states.size ≤ d.states.size) :
    ((plusLoop r parts).run d).2.Obeys d₀.states.size R ↔
      d.Obeys d₀.states.size R ∧
        (∀ f ∈ parts, R f.entry ≤ R d.states.size ∧ R (d.states.size + 1) ≤ R f.exit) ∧
        R (d.states.size + 2) ≤ R (d.states.size + 1) ∧ R d.states.size ≤ R (d.states.size + 2) ∧
        R (d.states.size + 3) ≤ R (d.states.size + 2) := by
  let e := d.states.size
  have hs : (plusStates r d).states.size = e + 4 := by rw [plusStates, size_pair, size_pair]
  have hparts : ∀ f ∈ parts, d₀.states.size ≤ f.exit ∧ f.exit < (plusStates r d).states.size := by
    intro f hf
    have := hp f hf
    exact ⟨this.exit_ge, by have := this.exit_lt; lia⟩
  have hsize' := (rewired_alternatives (Rewired.refl (plusStates r d)) e (e + 1) parts).size
  rw [plusLoop_run, obeys_addEpsilon (by lia) (by simp only [size_addEpsilon]; lia),
    obeys_addEpsilon (by lia) (by simp only [size_addEpsilon]; lia),
    obeys_addEpsilon (by lia) (by lia), obeys_alternatives (by lia) (by lia) hparts, plusStates,
    obeys_pair, obeys_pair, and_assoc, and_assoc, and_assoc]

/-- A one-or-more loop has the words of at least one round. -/
theorem denotes_plusLoop (hp : Parts r d₀ d parts) (h : Denotes d₀ d parts languages) :
    DenotesOne d₀ ((plusLoop r parts).run d) (languages.sum * languages.sum∗) := by
  have hsize := hp.grows.size
  have hf : ((plusLoop r parts).run d).1 = ⟨d.states.size, d.states.size + 3⟩ := by rw [plusLoop_run]
  rw [DenotesOne, hf]
  refine denotes_one ?_ fun k => ?_
  · intro R hR
    obtain ⟨ho, hparts, hdone, hback, hend⟩ := (obeys_plusLoop hp.holds hsize).1 hR
    have hround := h.complete_sum ho hparts
    have hrounds : languages.sum∗ * R (d.states.size + 3) ≤ R (d.states.size + 2) := by
      refine kstar_mul_le hend ?_
      calc languages.sum * R (d.states.size + 2)
          ≤ languages.sum * R (d.states.size + 1) := mul_le_mul_right hdone _
        _ ≤ R d.states.size := hround
        _ ≤ R (d.states.size + 2) := hback
    calc languages.sum * languages.sum∗ * R (d.states.size + 3)
        = languages.sum * (languages.sum∗ * R (d.states.size + 3)) := mul_assoc _ _ _
      _ ≤ languages.sum * R (d.states.size + 1) := mul_le_mul_right (hrounds.trans hdone) _
      _ ≤ R d.states.size := hround
  · obtain ⟨R, hR, hk⟩ := h.sound_sum (languages.sum∗ * k)
    let R' := labelUpTo d.states.size R (labelUpTo (d.states.size + 1)
      (fun _ => languages.sum * (languages.sum∗ * k))
      (labelUpTo (d.states.size + 3) (fun _ => languages.sum∗ * k) fun _ => k))
    have hold : ∀ s, s < d.states.size → R' s = R s := fun s hs => labelUpTo_lt hs
    have hentry : R' d.states.size = languages.sum * (languages.sum∗ * k) :=
      (labelUpTo_ge (by lia)).trans (labelUpTo_lt (by lia))
    have hloop : ∀ i, 0 < i → i < 3 → R' (d.states.size + i) = languages.sum∗ * k := fun i hi hi' =>
      (labelUpTo_ge (by lia)).trans ((labelUpTo_ge (by lia)).trans (labelUpTo_lt (by lia)))
    have hexit : R' (d.states.size + 3) = k :=
      (labelUpTo_ge (by lia)).trans ((labelUpTo_ge (by lia)).trans (labelUpTo_ge (by lia)))
    refine ⟨R', (obeys_plusLoop hp.holds hsize).2 ⟨hR.labelUpTo hp.grows.closed, ?_⟩, hexit.ge, ?_⟩
    · rw [hentry, hexit, hloop 1 (by lia) (by lia), hloop 2 (by lia) (by lia)]
      refine ⟨fun f hf => ?_, le_rfl, ?_, ?_⟩
      · rw [hold _ (hp.holds f hf).entry_lt, hold _ (hp.holds f hf).exit_lt]
        exact ⟨(hk f hf).2, (hk f hf).1⟩
      · rw [← mul_assoc]
        exact mul_le_mul_left mul_kstar_le_kstar k
      · calc k = 1 * k := (one_mul k).symm
          _ ≤ languages.sum∗ * k := mul_le_mul_left one_le_kstar k
    · rw [hentry, mul_assoc]

end DraftM

theorem Denotes.parts_cons {d d₁ d₂ : Draft} {r : RuleId} {f : Fragment} {parts : List Fragment}
    {l : Language Letter} {languages : List (Language Letter)} (ha : Adds r d (f, d₁))
    (h : DenotesOne d (f, d₁) l) (hp : Parts r d₁ d₂ parts) (hps : Denotes d₁ d₂ parts languages) :
    Denotes d d₂ (f :: parts) (l :: languages) :=
  h.cons ha.holds ha.grows.closed hp.grows hps hp.holds ha.grows.size

mutual

/-- The fragment of an element has the words of the element. -/
theorem Element.denotes_lower (r : RuleId) (e : Element) (d : Draft) :
    DenotesOne d ((e.lower r).run d) (e.language r) := by
  match e with
  | .seq items =>
    rw [Element.lower_seq, run_bind, Element.language]
    exact denotes_sequence (Element.parts_lowerAll r items d) (Element.denotes_lowerAll r items d)
  | .alt alternatives =>
    rw [Element.lower_alt, run_bind, Element.language]
    exact denotes_choice (Element.parts_lowerAll r alternatives d)
      (Element.denotes_lowerAll r alternatives d)
  | .opt e =>
    obtain ⟨languages, h, hsum⟩ := Element.denotes_lowerParts r e d
    rw [Element.lower_opt, run_bind, Element.language, ← hsum]
    exact denotes_block true (Element.parts_lowerParts r e d) h
  | .star e =>
    obtain ⟨languages, h, hsum⟩ := Element.denotes_lowerParts r e d
    have hp := Element.parts_lowerParts r e d
    rw [Element.lower_star, run_bind, Element.language, ← hsum]
    exact denotes_starLoop hp.grows.closed hp.holds hp.grows.size h
  | .plus e =>
    obtain ⟨languages, h, hsum⟩ := Element.denotes_lowerParts r e d
    rw [Element.lower_plus, run_bind, Element.language, ← hsum]
    exact denotes_plusLoop (Element.parts_lowerParts r e d) h
  | .rule c =>
    rw [Element.lower, Element.language]
    exact denotes_call c 0
  | .token _ | .set _ | .notSet _ | .wildcard | .predicate _ | .contextPredicate _ | .action _
  | .epsilon =>
    rw [Element.lower, Element.language]
    exact denotes_single (by simp)
termination_by (sizeOf e, 0)

theorem Element.denotes_lowerParts (r : RuleId) (e : Element) (d : Draft) :
    ∃ languages, Denotes d ((Element.lowerParts r e).run d).2 ((Element.lowerParts r e).run d).1
      languages ∧ languages.sum = e.language r := by
  cases e with
  | alt alternatives =>
    rw [Element.lowerParts, Element.language]
    exact ⟨_, Element.denotes_lowerAll r alternatives d, rfl⟩
  | _ =>
    rw [Element.lowerParts, run_bind]
    · exact ⟨_, Element.denotes_lower r _ d, List.sum_singleton⟩
    · simp
termination_by (sizeOf e, 1)

theorem Element.denotes_lowerAll (r : RuleId) (items : List Element) (d : Draft) :
    Denotes d ((Element.lowerAll r items).run d).2 ((Element.lowerAll r items).run d).1
      (Element.languages r items) := by
  match items with
  | [] =>
    rw [Element.lowerAll_nil, Element.languages]
    exact denotes_nil d
  | e :: rest =>
    rw [Element.lowerAll_cons, run_bind, run_bind, Element.languages]
    exact Denotes.parts_cons (Element.adds_lower r e d) (Element.denotes_lower r e d)
      (Element.parts_lowerAll r rest _) (Element.denotes_lowerAll r rest _)
termination_by (sizeOf items, 0)

end

end AdaptiveParsing
