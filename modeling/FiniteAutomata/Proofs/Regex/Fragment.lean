import FiniteAutomata.Regex.Thompson
import FiniteAutomata.Proofs.Automaton.Path
import FiniteAutomata.Proofs.Regex.Tree

/-!
# Languages of fragments

The language of a fragment is what its paths from the entry to the exit spell. Each way to build a
fragment has its equation: the language of a union is the sum of the two languages, that of a
concatenation their product, and plus and star repeat a language (`language_union`,
`language_concat`, `language_plus`, `language_star`). The parts must have no state in common, and
the new states must be new.

An equation is proved in the algebra of languages, one inequality at a time. From below, paths of
the parts are paths of the whole, and the new transitions join them. From above, a language is
guessed for each state of the whole: what is left to read of its own part, times what may follow
that part (`respects_of_eq_after_mul`). The new transitions are then the only ones to check.
-/

open scoped Computability

namespace FiniteAutomata.Regex.Fragment

variable {f g left right inner : Fragment} {s a q : String} {c : Char}

/-! ## What is left to read -/

/-- A state is an end of one of the transitions. -/
def Touches (f : Fragment) (q : String) : Prop :=
  ∃ t ∈ f.transitions, q = t.source ∨ q = t.target

/-- The entry and the exit of a fragment are states of it. -/
structure HasEnds (f : Fragment) : Prop where
  /-- The entry is touched. -/
  start : f.Touches f.start
  /-- The exit is touched. -/
  accept : f.Touches f.accept

/-- Two fragments have no state in common. -/
def Apart (f g : Fragment) : Prop := ∀ q, f.Touches q → ¬ g.Touches q

/-- The words that lead from a state to the exit. -/
def after (f : Fragment) (q : String) : Language Char :=
  pathWords {t | t ∈ f.transitions} q f.accept

/-- The words that lead from the entry to the exit. -/
def language (f : Fragment) : Language Char := f.after f.start

/-- The two ends of a transition are touched. -/
theorem touches_ends {t : Transition String} (ht : t ∈ f.transitions) :
    f.Touches t.source ∧ f.Touches t.target :=
  ⟨⟨t, ht, .inl rfl⟩, ⟨t, ht, .inr rfl⟩⟩

/-- Nothing is left to read at the exit. -/
theorem one_le_after_accept : 1 ≤ f.after f.accept := one_le_pathWords

/-- The transitions of a fragment respect what is left to read. -/
theorem respects_after {t : Transition String} (ht : t ∈ f.transitions) : t.Respects f.after :=
  respects_pathWords ht

/-- An epsilon transition passes on what is left to read. -/
theorem after_le_after {r : String} (h : ⟨q, .epsilon, r⟩ ∈ f.transitions) :
    f.after r ≤ f.after q := by
  have hrespects := respects_after h
  rw [Transition.Respects, Label.language, one_mul] at hrespects
  exact hrespects

/-- What is left to read of a part leads up to its exit within the whole. -/
theorem after_mul_after_le (h : f.transitions ⊆ g.transitions) :
    f.after q * g.after f.accept ≤ g.after q :=
  calc f.after q * g.after f.accept
      ≤ pathWords {t | t ∈ g.transitions} q f.accept * g.after f.accept :=
        mul_le_mul_left (pathWords_mono h) _
    _ ≤ g.after q := pathWords_mul_le

/-- The words of a part lead up to its exit within the whole. -/
theorem language_mul_after_le (h : f.transitions ⊆ g.transitions) :
    f.language * g.after f.accept ≤ g.after f.start := after_mul_after_le h

/-- The whole reads what a part reads, if epsilon transitions lead into the part and out of it. -/
theorem language_le_language (h : f.transitions ⊆ g.transitions)
    (hin : ⟨g.start, .epsilon, f.start⟩ ∈ g.transitions)
    (hout : ⟨f.accept, .epsilon, g.accept⟩ ∈ g.transitions) : f.language ≤ g.language :=
  calc f.language = f.language * 1 := (mul_one _).symm
    _ ≤ f.language * g.after f.accept :=
        mul_le_mul_right (one_le_after_accept.trans (after_le_after hout)) _
    _ ≤ g.after f.start := language_mul_after_le h
    _ ≤ g.language := after_le_after hin

/-- From a state that a fragment does not have, its exit is out of reach. -/
theorem HasEnds.after_eq_zero (h : f.HasEnds) (hq : ¬ f.Touches q) : f.after q = 0 := by
  ext w
  refine iff_of_false (fun hw => ?_) (Language.notMem_zero w)
  have hleave : ∀ t ∈ {t | t ∈ f.transitions}, t.source = q → t.target = q := by
    rintro t ht rfl
    exact absurd (touches_ends ht).1 hq
  have haccept := h.accept
  rw [← Path.eq_of_forall_target_eq hw hleave] at haccept
  exact hq haccept

/-- Languages that the transitions of the whole respect, with the empty word at the exit, bound what
is left to read. -/
theorem after_le {L : String → Language Char} (h : ∀ t ∈ f.transitions, t.Respects L)
    (haccept : 1 ≤ L f.accept) : f.after q ≤ L q :=
  pathWords_le_of_respects h haccept

/-- The transitions of a part respect what is left to read of it, times what may follow. -/
theorem respects_of_eq_after_mul {L : String → Language Char} {K : Language Char}
    (h : ∀ q, f.Touches q → L q = f.after q * K) : ∀ t ∈ f.transitions, t.Respects L := by
  intro t ht
  have hrespects : t.label.language * f.after t.target ≤ f.after t.source := respects_after ht
  show t.label.language * L t.target ≤ L t.source
  rw [h _ (touches_ends ht).1, h _ (touches_ends ht).2, ← mul_assoc]
  exact mul_le_mul_left hrespects K

/-- An epsilon transition respects languages that grow against its direction. -/
theorem respects_epsilon {L : String → Language Char} {r : String} (h : L r ≤ L q) :
    (⟨q, .epsilon, r⟩ : Transition String).Respects L := by
  rw [Transition.Respects, Label.language, one_mul]
  exact h

/-- Languages at the states of a fragment that gets a new entry and a new exit: nothing is left to
read at the exit. -/
def frame (s a : String) (entry : Language Char) (inside : String → Language Char) :
    String → Language Char :=
  Function.update (Function.update inside s entry) a 1

/-- Nothing is left to read at the new exit. -/
theorem frame_exit (entry : Language Char) (inside : String → Language Char) :
    frame s a entry inside a = 1 := Function.update_self ..

/-- The new entry has its own language. -/
theorem frame_entry (hsa : s ≠ a) (entry : Language Char) (inside : String → Language Char) :
    frame s a entry inside s = entry := by
  rw [frame, Function.update_of_ne hsa, Function.update_self]

/-- A state of the fragment is neither new state. -/
theorem frame_of_touches (hs : ¬ f.Touches s) (ha : ¬ f.Touches a) (hq : f.Touches q)
    (entry : Language Char) (inside : String → Language Char) :
    frame s a entry inside q = inside q := by
  have hqs : q ≠ s := by rintro rfl; exact hs hq
  have hqa : q ≠ a := by rintro rfl; exact ha hq
  rw [frame, Function.update_of_ne hqa, Function.update_of_ne hqs]

/-! ## The ways to build a fragment -/

/-- A union has the transitions of its left part. -/
theorem left_subset_union (s a : String) (left right : Fragment) :
    left.transitions ⊆ (union s a left right).transitions := fun t ht => by simp [union, ht]

/-- A union has the transitions of its right part. -/
theorem right_subset_union (s a : String) (left right : Fragment) :
    right.transitions ⊆ (union s a left right).transitions := fun t ht => by simp [union, ht]

/-- A concatenation has the transitions of its first part. -/
theorem left_subset_concat (left right : Fragment) :
    left.transitions ⊆ (left.concat right).transitions := fun t ht => by simp [concat, ht]

/-- A concatenation has the transitions of its second part. -/
theorem right_subset_concat (left right : Fragment) :
    right.transitions ⊆ (left.concat right).transitions := fun t ht => by simp [concat, ht]

/-- A plus has the transitions of the inner fragment. -/
theorem inner_subset_plus (s a : String) (inner : Fragment) :
    inner.transitions ⊆ (plus s a inner).transitions := List.subset_append_left ..

/-- A star has the transitions of the plus. -/
theorem plus_subset_star (s a : String) (inner : Fragment) :
    (plus s a inner).transitions ⊆ (star s a inner).transitions := List.subset_append_left ..

/-- A fragment for one symbol reads that symbol. -/
theorem language_symbol (hsa : s ≠ a) (c : Char) : (symbol s a c).language = {[c]} := by
  apply le_antisymm
  · -- The symbol is left to read at the entry, and nothing at the exit.
    have hle : (symbol s a c).after s ≤ frame s a {[c]} 0 s := by
      refine after_le (fun t ht => ?_) (frame_exit ..).ge
      obtain rfl := List.mem_singleton.1 ht
      show {[c]} * frame s a {[c]} 0 a ≤ frame s a {[c]} 0 s
      rw [frame_exit, frame_entry hsa, mul_one]
    rwa [frame_entry hsa] at hle
  · calc {[c]} = {[c]} * 1 := (mul_one _).symm
      _ ≤ {[c]} * (symbol s a c).after a := mul_le_mul_right one_le_after_accept _
      _ ≤ (symbol s a c).language := respects_after (f := symbol s a c) (.head _)

/-- A union reads what either part reads. -/
theorem language_union (hl : left.HasEnds) (hr : right.HasEnds) (hapart : left.Apart right)
    (hsa : s ≠ a) (hs : ¬ left.Touches s ∧ ¬ right.Touches s)
    (ha : ¬ left.Touches a ∧ ¬ right.Touches a) :
    (union s a left right).language = left.language + right.language := by
  set U := union s a left right with hU
  have hleft : left.transitions ⊆ U.transitions := left_subset_union s a left right
  have hright : right.transitions ⊆ U.transitions := right_subset_union s a left right
  have hsl : ⟨s, .epsilon, left.start⟩ ∈ U.transitions := by simp [hU, union]
  have hsr : ⟨s, .epsilon, right.start⟩ ∈ U.transitions := by simp [hU, union]
  have hla : ⟨left.accept, .epsilon, a⟩ ∈ U.transitions := by simp [hU, union]
  have hra : ⟨right.accept, .epsilon, a⟩ ∈ U.transitions := by simp [hU, union]
  apply le_antisymm
  · -- A state of one part is not in the other, so the sum of what is left to read is one of them.
    set L := frame s a (left.language + right.language) (left.after + right.after) with hL
    have hLs : L s = left.language + right.language := frame_entry hsa ..
    have hLa : L a = 1 := frame_exit ..
    have hLleft : ∀ q, left.Touches q → L q = left.after q := fun q hq => by
      rw [hL, frame_of_touches hs.1 ha.1 hq, Pi.add_apply, hr.after_eq_zero (hapart q hq), add_zero]
    have hLright : ∀ q, right.Touches q → L q = right.after q := fun q hq => by
      rw [hL, frame_of_touches hs.2 ha.2 hq, Pi.add_apply,
        hl.after_eq_zero fun hq' => hapart q hq' hq, zero_add]
    rw [← hLs]
    refine after_le (fun t ht => ?_) hLa.ge
    simp only [hU, union, List.mem_append, List.mem_cons, List.not_mem_nil, or_false] at ht
    rcases ht with (ht | ht) | rfl | rfl | rfl | rfl
    · exact respects_of_eq_after_mul (fun q hq => (hLleft q hq).trans (mul_one _).symm) t ht
    · exact respects_of_eq_after_mul (fun q hq => (hLright q hq).trans (mul_one _).symm) t ht
    · exact respects_epsilon (by rw [hLs, hLleft _ hl.start]; exact le_self_add)
    · exact respects_epsilon (by rw [hLs, hLright _ hr.start]; exact le_add_self)
    · exact respects_epsilon (by rw [hLa, hLleft _ hl.accept]; exact one_le_after_accept)
    · exact respects_epsilon (by rw [hLa, hLright _ hr.accept]; exact one_le_after_accept)
  · exact add_le (language_le_language hleft hsl hla) (language_le_language hright hsr hra)

/-- A concatenation reads what the first part reads and then what the second part reads. -/
theorem language_concat (hl : left.HasEnds) (hr : right.HasEnds) (hapart : left.Apart right) :
    (left.concat right).language = left.language * right.language := by
  set C := left.concat right with hC
  have hleft : left.transitions ⊆ C.transitions := left_subset_concat left right
  have hright : right.transitions ⊆ C.transitions := right_subset_concat left right
  have hlr : ⟨left.accept, .epsilon, right.start⟩ ∈ C.transitions := by simp [hC, concat]
  apply le_antisymm
  · -- The second part follows whatever is left to read of the first one.
    set L := fun q => left.after q * right.language + right.after q
    have hLleft : ∀ q, left.Touches q → L q = left.after q * right.language := fun q hq => by
      show left.after q * right.language + right.after q = _
      rw [hr.after_eq_zero (hapart q hq), add_zero]
    have hLright : ∀ q, right.Touches q → L q = right.after q := fun q hq => by
      show left.after q * right.language + right.after q = _
      rw [hl.after_eq_zero fun hq' => hapart q hq' hq, zero_mul, zero_add]
    have hexit : 1 ≤ L right.accept := by
      rw [hLright _ hr.accept]
      exact one_le_after_accept
    have hstart : L left.start = left.language * right.language := hLleft _ hl.start
    rw [← hstart]
    refine after_le (fun t ht => ?_) hexit
    simp only [hC, concat, List.mem_append, List.mem_singleton] at ht
    rcases ht with (ht | ht) | rfl
    · exact respects_of_eq_after_mul hLleft t ht
    · exact respects_of_eq_after_mul (fun q hq => (hLright q hq).trans (mul_one _).symm) t ht
    · refine respects_epsilon ?_
      rw [hLright _ hr.start, hLleft _ hl.accept]
      exact le_mul_of_one_le_left' one_le_after_accept
  · -- The words of the second part lead from its entry to the exit of the whole.
    calc left.language * right.language
        ≤ left.language * C.after right.start := by
          refine mul_le_mul_right ?_ _
          have h := language_mul_after_le hright
          exact (le_mul_of_one_le_right' one_le_after_accept).trans h
      _ ≤ left.language * C.after left.accept := mul_le_mul_right (after_le_after hlr) _
      _ ≤ C.language := language_mul_after_le hleft

/-- Whatever has the transitions of a plus, with its exit, repeats what the inner fragment reads. -/
theorem mul_kstar_le_after (h : (plus s a inner).transitions ⊆ g.transitions)
    (ha : g.accept = a) : inner.language * inner.language∗ ≤ g.after s := by
  have hinner : inner.transitions ⊆ g.transitions :=
    List.Subset.trans (inner_subset_plus s a inner) h
  have hin : g.after inner.start ≤ g.after s := after_le_after (h (by simp [plus]))
  have hout : g.after a ≤ g.after inner.accept := after_le_after (h (by simp [plus]))
  have hback : g.after inner.start ≤ g.after inner.accept := after_le_after (h (by simp [plus]))
  -- At the inner exit nothing may be left, or all that is left at the inner entry.
  have hexit : 1 ≤ g.after inner.accept := by
    rw [← ha] at hout
    exact one_le_after_accept.trans hout
  have hstep : inner.language * g.after inner.accept ≤ g.after inner.start :=
    language_mul_after_le hinner
  calc inner.language * inner.language∗
      = inner.language∗ * inner.language := (Language.mul_self_kstar_comm _).symm
    _ ≤ g.after inner.start :=
        kstar_mul_le ((le_mul_of_one_le_right' hexit).trans hstep)
          ((mul_le_mul_right hback _).trans hstep)
    _ ≤ g.after s := hin

/-- The transitions of a plus respect the repetitions that are left: none at the exit, what is left
of the inner fragment and any number of repetitions inside it. -/
theorem respects_plus (hi : inner.HasEnds) (hsa : s ≠ a) (hs : ¬ inner.Touches s)
    (ha : ¬ inner.Touches a) {entry : Language Char}
    (hentry : inner.language * inner.language∗ ≤ entry) :
    ∀ t ∈ (plus s a inner).transitions,
      t.Respects (frame s a entry fun q => inner.after q * inner.language∗) := by
  set L := frame s a entry fun q => inner.after q * inner.language∗ with hL
  have hLs : L s = entry := frame_entry hsa ..
  have hLa : L a = 1 := frame_exit ..
  have hLinner : ∀ q, inner.Touches q → L q = inner.after q * inner.language∗ :=
    fun q hq => frame_of_touches hs ha hq ..
  have hLstart : L inner.start = inner.language * inner.language∗ := hLinner _ hi.start
  -- At the inner exit another repetition may begin, or nothing.
  have hLaccept : inner.language∗ ≤ L inner.accept := by
    rw [hLinner _ hi.accept]
    exact le_mul_of_one_le_left' one_le_after_accept
  intro t ht
  simp only [plus, List.mem_append, List.mem_cons, List.not_mem_nil, or_false] at ht
  rcases ht with ht | rfl | rfl | rfl
  · exact respects_of_eq_after_mul hLinner t ht
  · exact respects_epsilon (by rw [hLs, hLstart]; exact hentry)
  · exact respects_epsilon (by rw [hLa]; exact one_le_kstar.trans hLaccept)
  · exact respects_epsilon (by rw [hLstart]; exact mul_kstar_le_kstar.trans hLaccept)

/-- A plus reads one or more repetitions. -/
theorem language_plus (hi : inner.HasEnds) (hsa : s ≠ a) (hs : ¬ inner.Touches s)
    (ha : ¬ inner.Touches a) :
    (plus s a inner).language = inner.language * inner.language∗ := by
  apply le_antisymm
  · have hle := after_le (q := s) (respects_plus hi hsa hs ha le_rfl) (frame_exit ..).ge
    rwa [frame_entry hsa] at hle
  · exact mul_kstar_le_after (fun _ ht => ht) rfl

/-- A star reads any number of repetitions. -/
theorem language_star (hi : inner.HasEnds) (hsa : s ≠ a) (hs : ¬ inner.Touches s)
    (ha : ¬ inner.Touches a) : (star s a inner).language = inner.language∗ := by
  apply le_antisymm
  · have hle : (star s a inner).after s ≤
        frame s a inner.language∗ (fun q => inner.after q * inner.language∗) s := by
      refine after_le (fun t ht => ?_) (frame_exit ..).ge
      rcases List.mem_append.1 ht with ht | ht
      · exact respects_plus hi hsa hs ha mul_kstar_le_kstar t ht
      · obtain rfl := List.mem_singleton.1 ht
        refine respects_epsilon ?_
        rw [frame_exit, frame_entry hsa]
        exact one_le_kstar
    rwa [frame_entry hsa] at hle
  · -- The inner fragment is skipped, or repeated as in a plus.
    have hskip : (⟨s, .epsilon, a⟩ : Transition String) ∈ (star s a inner).transitions :=
      List.mem_append.2 (.inr (.head _))
    have hone : 1 ≤ (star s a inner).after s := one_le_after_accept.trans (after_le_after hskip)
    have hmore : inner.language * inner.language∗ ≤ (star s a inner).after s :=
      mul_kstar_le_after (fun _ ht => List.mem_append.2 (.inl ht)) rfl
    calc inner.language∗ = 1 + inner.language * inner.language∗ :=
          (Language.one_add_self_mul_kstar_eq_kstar _).symm
      _ ≤ (star s a inner).language := add_le hone hmore

/-! ## Fragments of syntax trees -/

/-- A fragment reads what a syntax tree stands for. -/
structure Denotes (f : Fragment) (e : Tree) : Prop extends HasEnds f where
  /-- The languages agree. -/
  language_eq : f.language = e.language

/-- The fragment for a symbol has the new states only. -/
theorem eq_or_eq_of_touches_symbol (h : (symbol s a c).Touches q) : q = s ∨ q = a := by
  obtain ⟨t, ht, hq⟩ := h
  obtain rfl := List.mem_singleton.1 ht
  exact hq

/-- A union has the states of its parts and the new ones. -/
theorem touches_of_touches_union (hl : left.HasEnds) (hr : right.HasEnds)
    (h : (union s a left right).Touches q) :
    q = s ∨ q = a ∨ left.Touches q ∨ right.Touches q := by
  obtain ⟨t, ht, hq⟩ := h
  simp only [union, List.mem_append, List.mem_cons, List.not_mem_nil, or_false] at ht
  rcases ht with (ht | ht) | rfl | rfl | rfl | rfl
  · exact .inr (.inr (.inl ⟨t, ht, hq⟩))
  · exact .inr (.inr (.inr ⟨t, ht, hq⟩))
  all_goals
    have := hl.start
    have := hl.accept
    have := hr.start
    have := hr.accept
    grind

/-- A concatenation has the states of its parts. -/
theorem touches_of_touches_concat (hl : left.HasEnds) (hr : right.HasEnds)
    (h : (left.concat right).Touches q) : left.Touches q ∨ right.Touches q := by
  obtain ⟨t, ht, hq⟩ := h
  simp only [concat, List.mem_append, List.mem_singleton] at ht
  rcases ht with (ht | ht) | rfl
  · exact .inl ⟨t, ht, hq⟩
  · exact .inr ⟨t, ht, hq⟩
  · rcases hq with rfl | rfl
    · exact .inl hl.accept
    · exact .inr hr.start

/-- A plus has the states of the inner fragment and the new ones. -/
theorem touches_of_touches_plus (hi : inner.HasEnds) (h : (plus s a inner).Touches q) :
    q = s ∨ q = a ∨ inner.Touches q := by
  obtain ⟨t, ht, hq⟩ := h
  simp only [plus, List.mem_append, List.mem_cons, List.not_mem_nil, or_false] at ht
  rcases ht with ht | rfl | rfl | rfl
  · exact .inr (.inr ⟨t, ht, hq⟩)
  all_goals
    have := hi.start
    have := hi.accept
    grind

/-- A star has the states of the inner fragment and the new ones. -/
theorem touches_of_touches_star (hi : inner.HasEnds) (h : (star s a inner).Touches q) :
    q = s ∨ q = a ∨ inner.Touches q := by
  obtain ⟨t, ht, hq⟩ := h
  rcases List.mem_append.1 ht with ht | ht
  · exact touches_of_touches_plus hi ⟨t, ht, hq⟩
  · obtain rfl := List.mem_singleton.1 ht
    exact hq.imp_right .inl

variable {d e : Tree}

/-- A fragment for one symbol is one for that symbol as a tree. -/
theorem denotes_symbol (hsa : s ≠ a) (c : Char) : (symbol s a c).Denotes (.symbol c) where
  start := ⟨_, .head _, .inl rfl⟩
  accept := ⟨_, .head _, .inr rfl⟩
  language_eq := language_symbol hsa c

/-- Fragments of two trees make one of their union. -/
theorem Denotes.union (hl : left.Denotes d) (hr : right.Denotes e) (hapart : left.Apart right)
    (hsa : s ≠ a) (hs : ¬ left.Touches s ∧ ¬ right.Touches s)
    (ha : ¬ left.Touches a ∧ ¬ right.Touches a) :
    (union s a left right).Denotes (.union d e) where
  start := ⟨⟨s, .epsilon, left.start⟩, by simp [Fragment.union], .inl rfl⟩
  accept := ⟨⟨left.accept, .epsilon, a⟩, by simp [Fragment.union], .inr rfl⟩
  language_eq := by
    rw [language_union hl.toHasEnds hr.toHasEnds hapart hsa hs ha, hl.language_eq, hr.language_eq,
      Tree.language]

/-- Fragments of two trees make one of their concatenation. -/
theorem Denotes.concat (hl : left.Denotes d) (hr : right.Denotes e) (hapart : left.Apart right) :
    (left.concat right).Denotes (.concat d e) where
  start := by
    obtain ⟨t, ht, hq⟩ := hl.start
    exact ⟨t, by simp [Fragment.concat, ht], hq⟩
  accept := by
    obtain ⟨t, ht, hq⟩ := hr.accept
    exact ⟨t, by simp [Fragment.concat, ht], hq⟩
  language_eq := by
    rw [language_concat hl.toHasEnds hr.toHasEnds hapart, hl.language_eq, hr.language_eq,
      Tree.language]

/-- A fragment of a tree makes one of its plus. -/
theorem Denotes.plus (hi : inner.Denotes e) (hsa : s ≠ a) (hs : ¬ inner.Touches s)
    (ha : ¬ inner.Touches a) : (plus s a inner).Denotes (.plus e) where
  start := ⟨⟨s, .epsilon, inner.start⟩, by simp [Fragment.plus], .inl rfl⟩
  accept := ⟨⟨inner.accept, .epsilon, a⟩, by simp [Fragment.plus], .inr rfl⟩
  language_eq := by
    rw [language_plus hi.toHasEnds hsa hs ha, hi.language_eq, Tree.language]

/-- A fragment of a tree makes one of its star. -/
theorem Denotes.star (hi : inner.Denotes e) (hsa : s ≠ a) (hs : ¬ inner.Touches s)
    (ha : ¬ inner.Touches a) : (star s a inner).Denotes (.star e) where
  start := ⟨⟨s, .epsilon, a⟩, by simp [Fragment.star], .inl rfl⟩
  accept := ⟨⟨s, .epsilon, a⟩, by simp [Fragment.star], .inr rfl⟩
  language_eq := by
    rw [language_star hi.toHasEnds hsa hs ha, hi.language_eq, Tree.language]

end FiniteAutomata.Regex.Fragment
