import FiniteAutomata.Proofs.Regex.DeadState

/-!
# The shape of constructed automata

The size of an automaton that is constructed is known from its tokens: each symbol and each operator
but a concatenation adds two states, and each token adds as many transitions as its fragment is made
with (`Tree.hasShape_fragment`). No transition enters the start state or leaves the final state.
Every other state is left in one of two ways: on one symbol, or without reading for one state or for
two.

That no two of the transitions are the same, and what leaves a state, are seen from the list of the
transitions that leave it (`Fragment.leaving`). In a whole this is the list of the part that the
state belongs to, because the other part has nothing there. Only the exit of a part gets more, and
nothing leaves it in the part (`Fragment.Tidy`).
-/

namespace FiniteAutomata.Regex

open Std

namespace Fragment

variable {f g left right inner : Fragment} {s a q r : String} {t : Transition String}

/-! ## Reached states -/

/-- Some word leads from the entry to the state. -/
def Reached (f : Fragment) (q : String) : Prop := ∃ w, Path {t | t ∈ f.transitions} f.start w q

/-- The entry is reached. -/
theorem reached_start (f : Fragment) : f.Reached f.start := ⟨[], .nil _⟩

/-- An epsilon transition leads from a reached state to a reached state. -/
theorem Reached.epsilon (hq : f.Reached q) (h : ⟨q, .epsilon, r⟩ ∈ f.transitions) :
    f.Reached r := by
  obtain ⟨w, hw⟩ := hq
  exact ⟨w ++ [], hw.trans (.epsilon h (.nil r))⟩

/-- What is reached in a part is reached in the whole, if the entry of the part is. -/
theorem Reached.of_part (hq : f.Reached q) (h : f.transitions ⊆ g.transitions)
    (hentry : g.Reached f.start) : g.Reached q := by
  obtain ⟨u, hu⟩ := hentry
  obtain ⟨v, hv⟩ := hq
  exact ⟨u ++ v, hu.trans (hv.mono h)⟩

/-! ## Leaving transitions -/

/-- The transitions that leave a state. -/
def leaving (f : Fragment) (q : String) : List (Transition String) :=
  f.transitions.filter fun t => t.source = q

/-- Transitions leave a state in one of two ways. -/
inductive Forks (q : String) : List (Transition String) → Prop where
  /-- One transition reads a symbol. -/
  | symbol (c : Char) (r : String) : Forks q [⟨q, .symbol c, r⟩]
  /-- One transition reads nothing. -/
  | single (r : String) : Forks q [⟨q, .epsilon, r⟩]
  /-- Two transitions read nothing. -/
  | double {r r' : String} (h : r ≠ r') : Forks q [⟨q, .epsilon, r⟩, ⟨q, .epsilon, r'⟩]

/-- No two of the transitions are the same. -/
theorem Forks.nodup {ts : List (Transition String)} (h : Forks q ts) : ts.Nodup := by
  cases h with
  | symbol | single => exact List.nodup_singleton _
  | double h => simp [h]

/-- No transition leaves a state that a fragment does not have. -/
theorem leaving_eq_nil (hq : ¬ f.Touches q) : f.leaving q = [] := by
  refine List.filter_eq_nil_iff.2 fun t ht hsource => hq ?_
  rw [← of_decide_eq_true hsource]
  exact (touches_ends ht).1

/-- If no transition leaves a state twice then none occurs twice. -/
theorem nodup_of_forall_leaving (h : ∀ q, (f.leaving q).Nodup) : f.transitions.Nodup := by
  refine List.nodup_iff_count_le_one.2 fun t => ?_
  have hcount : (f.leaving t.source).count t = f.transitions.count t :=
    List.count_filter (decide_eq_true rfl)
  rw [← hcount]
  exact List.nodup_iff_count_le_one.1 (h t.source) t

/-! ## Tidy fragments -/

/-- A fragment is entered at its entry and left at its exit only, and each state forks. -/
structure Tidy (f : Fragment) : Prop where
  /-- The entry is not the exit. -/
  start_ne_accept : f.start ≠ f.accept
  /-- No transition leads back to the entry. -/
  target_ne_start : ∀ t ∈ f.transitions, t.target ≠ f.start
  /-- No transition leads on from the exit. -/
  leaving_accept : f.leaving f.accept = []
  /-- Transitions leave the other states in one of two ways. -/
  forks : ∀ q, f.Touches q → q ≠ f.accept → Forks q (f.leaving q)
  /-- Each state is reached. -/
  reached : ∀ q, f.Touches q → f.Reached q

/-- No transition of a tidy fragment leaves its exit. -/
theorem Tidy.source_ne_accept (h : f.Tidy) (ht : t ∈ f.transitions) : t.source ≠ f.accept :=
  fun hsource => List.filter_eq_nil_iff.1 h.leaving_accept t ht (decide_eq_true hsource)

/-- No transition of a tidy fragment occurs twice. -/
theorem Tidy.nodup (h : f.Tidy) : f.transitions.Nodup := by
  refine nodup_of_forall_leaving fun q => ?_
  by_cases hq : f.Touches q
  · by_cases haccept : q = f.accept
    · rw [haccept, h.leaving_accept]
      exact .nil
    · exact (h.forks q hq haccept).nodup
  · rw [leaving_eq_nil hq]
    exact .nil

/-- The transitions that leave a state of a tidy part fork in a whole that adds some at the exit of
the part only. -/
theorem Tidy.forks_append (h : f.Tidy) (hq : f.Touches q) {added : List (Transition String)}
    (hexit : q = f.accept → Forks q added) (hinside : q ≠ f.accept → added = []) :
    Forks q (f.leaving q ++ added) := by
  by_cases haccept : q = f.accept
  · rw [haccept, h.leaving_accept, ← haccept]
    exact hexit haccept
  · rw [hinside haccept, List.append_nil]
    exact h.forks q hq haccept

/-- A state of a fragment is not a state that the fragment does not have. -/
theorem Touches.ne (hq : f.Touches q) (hs : ¬ f.Touches s) : q ≠ s := fun h => hs (h ▸ hq)

/-- The fragment for a symbol is tidy. -/
theorem tidy_symbol (hsa : s ≠ a) (c : Char) : (symbol s a c).Tidy where
  start_ne_accept := hsa
  target_ne_start t ht := by
    obtain rfl := List.mem_singleton.1 ht
    exact hsa.symm
  leaving_accept := by simp [leaving, symbol, hsa]
  forks q hq hne := by
    obtain rfl := (eq_or_eq_of_touches_symbol hq).resolve_right hne
    simpa [leaving, symbol] using Forks.symbol c a
  reached q hq := by
    rcases eq_or_eq_of_touches_symbol hq with rfl | rfl
    · exact reached_start _
    · exact ⟨[c], .symbol (.head _) (.nil _)⟩

/-- The transitions that leave a state of a union. -/
theorem leaving_union (s a : String) (left right : Fragment) (q : String) :
    (union s a left right).leaving q = left.leaving q ++ (right.leaving q ++
      [⟨s, .epsilon, left.start⟩, ⟨s, .epsilon, right.start⟩, ⟨left.accept, .epsilon, a⟩,
        ⟨right.accept, .epsilon, a⟩].filter fun t => t.source = q) := by
  simp [leaving, union]

/-- A union of tidy fragments is tidy. -/
theorem Tidy.union (hleft : left.Tidy) (hright : right.Tidy) (hl : left.HasEnds)
    (hr : right.HasEnds) (hapart : left.Apart right) (hsa : s ≠ a)
    (hs : ¬ left.Touches s ∧ ¬ right.Touches s) (ha : ¬ left.Touches a ∧ ¬ right.Touches a) :
    (union s a left right).Tidy := by
  set g := Fragment.union s a left right with hg
  have hsubl : left.transitions ⊆ g.transitions := left_subset_union s a left right
  have hsubr : right.transitions ⊆ g.transitions := right_subset_union s a left right
  have hentryl : g.Reached left.start := g.reached_start.epsilon (by simp [hg, Fragment.union])
  have hentryr : g.Reached right.start := g.reached_start.epsilon (by simp [hg, Fragment.union])
  refine ⟨hsa, fun t ht => ?_, ?_, fun q hq hne => ?_, fun q hq => ?_⟩
  · simp only [hg, Fragment.union, List.mem_append, List.mem_cons, List.not_mem_nil, or_false] at ht
    rcases ht with (ht | ht) | rfl | rfl | rfl | rfl
    · exact (touches_ends ht).2.ne hs.1
    · exact (touches_ends ht).2.ne hs.2
    · exact hl.start.ne hs.1
    · exact hr.start.ne hs.2
    · exact hsa.symm
    · exact hsa.symm
  · have hla : left.accept ≠ a := hl.accept.ne ha.1
    have hra : right.accept ≠ a := hr.accept.ne ha.2
    show g.leaving a = []
    rw [hg, leaving_union, leaving_eq_nil ha.1, leaving_eq_nil ha.2]
    simp [hsa, hla, hra]
  · rw [hg, leaving_union]
    rcases touches_of_touches_union hl hr hq with rfl | rfl | hq | hq
    · have hla : left.accept ≠ q := hl.accept.ne hs.1
      have hra : right.accept ≠ q := hr.accept.ne hs.2
      have hentries : left.start ≠ right.start := fun h => hapart _ hl.start (h ▸ hr.start)
      rw [leaving_eq_nil hs.1, leaving_eq_nil hs.2]
      simpa [hla, hra] using Forks.double hentries
    · exact absurd rfl hne
    · have hsq : s ≠ q := (hq.ne hs.1).symm
      have hra : right.accept ≠ q := fun h => hapart q hq (h ▸ hr.accept)
      rw [leaving_eq_nil (hapart q hq)]
      refine hleft.forks_append hq (fun hexit => ?_) fun hexit => ?_
      · simpa [hsq, hra, ← hexit] using Forks.single a
      · simp [hsq, hra, Ne.symm hexit]
    · have hsq : s ≠ q := (hq.ne hs.2).symm
      have hla : left.accept ≠ q := fun h => hapart q (h ▸ hl.accept) hq
      rw [leaving_eq_nil fun h => hapart q h hq, List.nil_append]
      refine hright.forks_append hq (fun hexit => ?_) fun hexit => ?_
      · simpa [hsq, hla, ← hexit] using Forks.single a
      · simp [hsq, hla, Ne.symm hexit]
  · rcases touches_of_touches_union hl hr hq with rfl | rfl | hq | hq
    · exact g.reached_start
    · have hexit : g.Reached left.accept := (hleft.reached _ hl.accept).of_part hsubl hentryl
      exact hexit.epsilon (by simp [hg, Fragment.union])
    · exact (hleft.reached q hq).of_part hsubl hentryl
    · exact (hright.reached q hq).of_part hsubr hentryr

/-- The transitions that leave a state of a concatenation. -/
theorem leaving_concat (left right : Fragment) (q : String) :
    (left.concat right).leaving q = left.leaving q ++ (right.leaving q ++
      [⟨left.accept, .epsilon, right.start⟩].filter fun t => t.source = q) := by
  simp [leaving, concat]

/-- A concatenation of tidy fragments is tidy. -/
theorem Tidy.concat (hleft : left.Tidy) (hright : right.Tidy) (hl : left.HasEnds)
    (hr : right.HasEnds) (hapart : left.Apart right) : (left.concat right).Tidy := by
  set g := left.concat right with hg
  have hapart' : ∀ q, right.Touches q → ¬ left.Touches q := fun q hq hq' => hapart q hq' hq
  have hsubl : left.transitions ⊆ g.transitions := left_subset_concat left right
  have hsubr : right.transitions ⊆ g.transitions := right_subset_concat left right
  have hexit : g.Reached left.accept := (hleft.reached _ hl.accept).of_part hsubl g.reached_start
  have hentry : g.Reached right.start := hexit.epsilon (by simp [hg, Fragment.concat])
  refine ⟨hl.start.ne (hapart' _ hr.accept), fun t ht => ?_, ?_, fun q hq hne => ?_, fun q hq => ?_⟩
  · simp only [hg, Fragment.concat, List.mem_append, List.mem_singleton] at ht
    rcases ht with (ht | ht) | rfl
    · exact hleft.target_ne_start t ht
    · exact (touches_ends ht).2.ne (hapart _ hl.start)
    · exact hr.start.ne (hapart _ hl.start)
  · have hne : left.accept ≠ right.accept := hl.accept.ne (hapart' _ hr.accept)
    show g.leaving right.accept = []
    rw [hg, leaving_concat, leaving_eq_nil (hapart' _ hr.accept), hright.leaving_accept]
    simp [hne]
  · rw [hg, leaving_concat]
    rcases touches_of_touches_concat hl hr hq with hq | hq
    · rw [leaving_eq_nil (hapart q hq)]
      refine hleft.forks_append hq (fun hexit => ?_) fun hexit => ?_
      · simpa [← hexit] using Forks.single right.start
      · simp [Ne.symm hexit]
    · have hla : left.accept ≠ q := hl.accept.ne (hapart' q hq)
      rw [leaving_eq_nil (hapart' q hq)]
      simpa [hla] using hright.forks q hq hne
  · rcases touches_of_touches_concat hl hr hq with hq | hq
    · exact (hleft.reached q hq).of_part hsubl g.reached_start
    · exact (hright.reached q hq).of_part hsubr hentry

/-- The transitions that leave a state of a plus. -/
theorem leaving_plus (s a : String) (inner : Fragment) (q : String) :
    (plus s a inner).leaving q = inner.leaving q ++ [⟨s, .epsilon, inner.start⟩,
      ⟨inner.accept, .epsilon, a⟩, ⟨inner.accept, .epsilon, inner.start⟩].filter
        fun t => t.source = q := by
  simp [leaving, plus]

/-- One transition leaves the entry of a plus. -/
theorem leaving_plus_entry (hi : inner.HasEnds) (hs : ¬ inner.Touches s) :
    (plus s a inner).leaving s = [⟨s, .epsilon, inner.start⟩] := by
  have hne : inner.accept ≠ s := hi.accept.ne hs
  rw [leaving_plus, leaving_eq_nil hs]
  simp [hne]

/-- A plus of a tidy fragment is tidy. -/
theorem Tidy.plus (hinner : inner.Tidy) (hi : inner.HasEnds) (hsa : s ≠ a)
    (hs : ¬ inner.Touches s) (ha : ¬ inner.Touches a) : (plus s a inner).Tidy := by
  set g := Fragment.plus s a inner with hg
  have hsub : inner.transitions ⊆ g.transitions := inner_subset_plus s a inner
  have hentry : g.Reached inner.start := g.reached_start.epsilon (by simp [hg, Fragment.plus])
  refine ⟨hsa, fun t ht => ?_, ?_, fun q hq hne => ?_, fun q hq => ?_⟩
  · simp only [hg, Fragment.plus, List.mem_append, List.mem_cons, List.not_mem_nil, or_false] at ht
    rcases ht with ht | rfl | rfl | rfl
    · exact (touches_ends ht).2.ne hs
    · exact hi.start.ne hs
    · exact hsa.symm
    · exact hi.start.ne hs
  · have hne : inner.accept ≠ a := hi.accept.ne ha
    show g.leaving a = []
    rw [hg, leaving_plus, leaving_eq_nil ha]
    simp [hsa, hne]
  · rcases touches_of_touches_plus hi hq with rfl | rfl | hq
    · rw [hg, leaving_plus_entry hi hs]
      exact .single inner.start
    · exact absurd rfl hne
    · have hsq : s ≠ q := (hq.ne hs).symm
      rw [hg, leaving_plus]
      refine hinner.forks_append hq (fun hexit => ?_) fun hexit => ?_
      · simpa [hsq, ← hexit] using Forks.double (hi.start.ne ha).symm
      · simp [hsq, Ne.symm hexit]
  · rcases touches_of_touches_plus hi hq with rfl | rfl | hq
    · exact g.reached_start
    · have hexit : g.Reached inner.accept := (hinner.reached _ hi.accept).of_part hsub hentry
      exact hexit.epsilon (by simp [hg, Fragment.plus])
    · exact (hinner.reached q hq).of_part hsub hentry

/-- A star of a tidy fragment is tidy. -/
theorem Tidy.star (hinner : inner.Tidy) (hi : inner.HasEnds) (hsa : s ≠ a)
    (hs : ¬ inner.Touches s) (ha : ¬ inner.Touches a) : (star s a inner).Tidy := by
  have hplus : (Fragment.plus s a inner).Tidy := hinner.plus hi hsa hs ha
  set g := Fragment.star s a inner with hg
  have hleaving (q : String) : g.leaving q = (Fragment.plus s a inner).leaving q ++
      [⟨s, .epsilon, a⟩].filter fun t => t.source = q := List.filter_append ..
  have htouches (q : String) (hq : g.Touches q) : q = s ∨ (Fragment.plus s a inner).Touches q := by
    rcases touches_of_touches_star hi hq with rfl | rfl | ⟨t, ht, hq⟩
    · exact .inl rfl
    · exact .inr ⟨⟨inner.accept, .epsilon, q⟩, by simp [Fragment.plus], .inr rfl⟩
    · exact .inr ⟨t, by simp [Fragment.plus, ht], hq⟩
  refine ⟨hsa, fun t ht => ?_, ?_, fun q hq hne => ?_, fun q hq => ?_⟩
  · rcases List.mem_append.1 ht with ht | ht
    · exact hplus.target_ne_start t ht
    · obtain rfl := List.mem_singleton.1 ht
      exact hsa.symm
  · show g.leaving a = []
    rw [hleaving, show (Fragment.plus s a inner).leaving a = [] from hplus.leaving_accept]
    simp [hsa]
  · -- Only the entry has a way more than in the plus.
    rw [hleaving]
    by_cases hsq : s = q
    · subst hsq
      rw [leaving_plus_entry hi hs]
      simpa using Forks.double (hi.start.ne ha)
    · have hq : (Fragment.plus s a inner).Touches q :=
        (htouches q hq).resolve_left (Ne.symm hsq)
      simpa [hsq] using hplus.forks q hq hne
  · rcases htouches q hq with rfl | hq
    · exact g.reached_start
    · exact (hplus.reached q hq).of_part (plus_subset_star s a inner) g.reached_start

/-! ## Names -/

/-- The states of a fragment have all names that one namer hands out before it becomes another. -/
def Uses (f : Fragment) (n m : Namer) : Prop :=
  ∀ i, n.next ≤ i → i < m.next → f.Touches (Namer.nameOf n.stem i)

/-- A whole uses the names that a part uses. -/
theorem Uses.mono {n m : Namer} (h : f.Uses n m) (hsub : f.transitions ⊆ g.transitions) :
    g.Uses n m := by
  intro i hi hlt
  obtain ⟨t, ht, hq⟩ := h i hi hlt
  exact ⟨t, hsub ht, hq⟩

/-- Names are used one after the other. -/
theorem Uses.trans {n m k : Namer} (h : f.Uses n m) (hnm : n.Precedes m) (h' : f.Uses m k) :
    f.Uses n k := by
  intro i hi hlt
  obtain hlt' | hle := Nat.lt_or_ge i m.next
  · exact h i hi hlt'
  · rw [← hnm.stem_eq]
    exact h' i hle hlt

/-- A fragment whose ends have the next two names uses these. -/
theorem HasEnds.uses {n : Namer} {ts : List (Transition String)}
    (h : HasEnds ⟨n.name, (n.advance 1).name, ts⟩) :
    Uses ⟨n.name, (n.advance 1).name, ts⟩ n (n.advance 2) := by
  intro i hi hlt
  have hlt : i < n.next + 2 := hlt
  obtain rfl | rfl : i = n.next ∨ i = n.next + 1 := by omega
  · exact h.start
  · exact h.accept

/-! ## Automata of fragments -/

/-- The states of the automaton of a fragment are the states of the fragment. -/
theorem mem_stateSet_toAutomaton (h : f.HasEnds) :
    q ∈ f.toAutomaton.stateSet ↔ f.Touches q := by
  constructor
  · exact touches_of_mem_allStates h
  · rintro ⟨t, ht, hq⟩
    have hends := Automaton.mem_stateSet_of_mem_transitions (mem_transitions_toAutomaton.2 ht)
    rcases hq with rfl | rfl
    · exact hends.1
    · exact hends.2

/-- The automaton of a fragment without repetitions has as many transitions as the fragment. -/
theorem size_transitions_toAutomaton (h : f.transitions.Nodup) :
    f.toAutomaton.transitions.size = f.transitions.length := by
  rw [← ExtTreeSet.length_toList]
  refine List.Perm.length_eq ?_
  rw [List.perm_ext_iff_of_nodup (FiniteSet.nodup_toList _) h]
  exact fun t => ExtTreeSet.mem_toList.trans mem_transitions_toAutomaton

end Fragment

/-! ## Sizes -/

/-- The number of states that a construction adds for some tokens: two for each but a
concatenation. -/
def stateCount (ts : List Token) : ℕ :=
  2 * (ts.countP Token.isSymbol + ts.count (.operator .union) + ts.count (.operator .star) +
    ts.count (.operator .plus))

/-- Two parts of tokens add states one by one. -/
theorem stateCount_append (ts us : List Token) :
    stateCount (ts ++ us) = stateCount ts + stateCount us := by
  simp only [stateCount, List.countP_append, List.count_append]
  omega

/-- The number of transitions that a construction adds for some tokens. -/
def transitionCount (ts : List Token) : ℕ :=
  ts.countP Token.isSymbol + 4 * ts.count (.operator .union) + ts.count (.operator .concat) +
    4 * ts.count (.operator .star) + 3 * ts.count (.operator .plus)

namespace Tree

open Fragment

/-- A tree takes as many names as the construction adds states for its tokens. -/
theorem next_namerAfter (e : Tree) (n : Namer) :
    (e.namerAfter n).next = n.next + stateCount e.postorder := by
  induction e generalizing n with
  | symbol c => rfl
  | union left right hl hr | concat left right hl hr =>
    simp [namerAfter, Namer.advance, hl, hr, stateCount, postorder, Token.isSymbol]
    omega
  | star inner ih | plus inner ih =>
    simp [namerAfter, Namer.advance, ih, stateCount, postorder, Token.isSymbol]
    omega

/-- The fragment of a tree has as many transitions as the construction adds for its tokens. -/
theorem length_transitions_fragment (e : Tree) (n : Namer) :
    (e.fragment n).transitions.length = transitionCount e.postorder := by
  induction e generalizing n with
  | symbol c => rfl
  | union left right hl hr | concat left right hl hr =>
    simp [fragment, Fragment.union, Fragment.concat, hl, hr, transitionCount, postorder,
      Token.isSymbol]
    omega
  | star inner ih | plus inner ih =>
    simp [fragment, Fragment.star, Fragment.plus, ih, transitionCount, postorder, Token.isSymbol]
    omega

/-- The fragment of a tree is tidy. -/
theorem tidy_fragment (e : Tree) (n : Namer) : (e.fragment n).Tidy := by
  induction e generalizing n with
  | symbol c => exact tidy_symbol n.name_ne_name_advance c
  | union left right hl hr =>
    obtain ⟨hleft, hright, hapart⟩ := left.areParts_fragment right n
    exact (hl n).union (hr _) hleft.toHasEnds hright.toHasEnds hapart
      (Namer.name_ne_name_advance _) ⟨hleft.named.not_touches 0, hright.named.not_touches 0⟩
      ⟨hleft.named.not_touches 1, hright.named.not_touches 1⟩
  | concat left right hl hr =>
    obtain ⟨hleft, hright, hapart⟩ := left.areParts_fragment right n
    exact (hl n).concat (hr _) hleft.toHasEnds hright.toHasEnds hapart
  | star inner ih =>
    have hinner := inner.isPart_fragment n
    exact (ih n).star hinner.toHasEnds (Namer.name_ne_name_advance _) (hinner.named.not_touches 0)
      (hinner.named.not_touches 1)
  | plus inner ih =>
    have hinner := inner.isPart_fragment n
    exact (ih n).plus hinner.toHasEnds (Namer.name_ne_name_advance _) (hinner.named.not_touches 0)
      (hinner.named.not_touches 1)

/-- The fragment of a tree uses all the names that the tree takes. -/
theorem uses_fragment (e : Tree) (n : Namer) : (e.fragment n).Uses n (e.namerAfter n) := by
  induction e generalizing n with
  | symbol c => exact ((symbol c).isPart_fragment n).toHasEnds.uses
  | union left right hl hr =>
    have hends := ((union left right).isPart_fragment n).toHasEnds
    have hleft : ((union left right).fragment n).Uses n (left.namerAfter n) :=
      (hl n).mono (left_subset_union ..)
    have hparts := hleft.trans (left.precedes_namerAfter n) ((hr _).mono (right_subset_union ..))
    exact hparts.trans ((left.precedes_namerAfter n).trans (right.precedes_namerAfter _)) hends.uses
  | concat left right hl hr =>
    have hleft : ((concat left right).fragment n).Uses n (left.namerAfter n) :=
      (hl n).mono (left_subset_concat ..)
    exact hleft.trans (left.precedes_namerAfter n) ((hr _).mono (right_subset_concat ..))
  | star inner ih =>
    have hends := ((star inner).isPart_fragment n).toHasEnds
    have hinner : ((star inner).fragment n).Uses n (inner.namerAfter n) :=
      (ih n).mono (List.Subset.trans (inner_subset_plus ..) (plus_subset_star ..))
    exact hinner.trans (inner.precedes_namerAfter n) hends.uses
  | plus inner ih =>
    have hends := ((plus inner).isPart_fragment n).toHasEnds
    have hinner : ((plus inner).fragment n).Uses n (inner.namerAfter n) :=
      (ih n).mono (inner_subset_plus ..)
    exact hinner.trans (inner.precedes_namerAfter n) hends.uses

/-- The states of the fragment of a tree have the names that the tree takes. -/
theorem touches_fragment_iff {e : Tree} {n : Namer} {q : String} : (e.fragment n).Touches q ↔
    ∃ i, n.next ≤ i ∧ i < n.next + stateCount e.postorder ∧ q = Namer.nameOf n.stem i := by
  rw [← next_namerAfter]
  constructor
  · intro hq
    obtain ⟨i, hi, hname⟩ := (e.isPart_fragment n).named q hq
    rw [(e.precedes_namerAfter n).stem_eq] at hname
    refine ⟨i, ?_, hi, hname⟩
    by_contra! hlt
    exact not_handedOut_of_touches hq ⟨i, hlt, hname⟩
  · rintro ⟨i, hle, hlt, rfl⟩
    exact e.uses_fragment n i hle hlt

end Tree

/-! ## Main result -/

/-- What an automaton looks like that is constructed from some tokens with the names of a namer. -/
structure HasShape (ts : List Token) (n : Namer) (A : Automaton String) (start final : String) :
    Prop where
  /-- The states have the next names of the namer, as many as the tokens ask for. -/
  mem_stateSet_iff : ∀ q, q ∈ A.stateSet ↔
    ∃ i, n.next ≤ i ∧ i < n.next + stateCount ts ∧ q = Namer.nameOf n.stem i
  /-- There are as many transitions as the tokens ask for. -/
  size_transitions : A.transitions.size = transitionCount ts
  /-- There is one start state. -/
  mem_starts_iff : ∀ q, q ∈ A.starts ↔ q = start
  /-- There is one final state. -/
  mem_finals_iff : ∀ q, q ∈ A.finals ↔ q = final
  /-- The start state is not the final state. -/
  start_ne_final : start ≠ final
  /-- No transition enters the start state. -/
  target_ne_start : ∀ t ∈ A.transitions, t.target ≠ start
  /-- No transition leaves the final state. -/
  source_ne_final : ∀ t ∈ A.transitions, t.source ≠ final
  /-- One transition that reads a symbol, or one or two that read nothing, leave any other state. -/
  forks : ∀ q ∈ A.stateSet, q ≠ final →
    ∃ leaving, Fragment.Forks q leaving ∧ ∀ t, t ∈ leaving ↔ t ∈ A.transitions ∧ t.source = q
  /-- Each state is reached from the start state. -/
  leads_start : ∀ q ∈ A.stateSet, ∃ w, A.Leads start w q
  /-- The final state is reached from each state. -/
  leads_final : ∀ q ∈ A.stateSet, ∃ w, A.Leads q w final

/-- The automaton of the fragment of a tree has the shape that its tokens ask for. -/
theorem Tree.hasShape_fragment (e : Tree) (n : Namer) :
    HasShape e.postorder n (e.fragment n).toAutomaton (e.fragment n).start
      (e.fragment n).accept := by
  have hends := (e.isPart_fragment n).toHasEnds
  have htidy := e.tidy_fragment n
  have hleads {q r : String} {w : List Char}
      (h : Path {t | t ∈ (e.fragment n).transitions} q w r) :
      (e.fragment n).toAutomaton.Leads q w r :=
    Path.mono (fun t ht => Fragment.mem_transitions_toAutomaton.2 ht) h
  constructor
  · exact fun q => (Fragment.mem_stateSet_toAutomaton hends).trans touches_fragment_iff
  · rw [Fragment.size_transitions_toAutomaton htidy.nodup, length_transitions_fragment]
  · exact fun q => Fragment.mem_starts_toAutomaton
  · exact fun q => Fragment.mem_finals_toAutomaton
  · exact htidy.start_ne_accept
  · exact fun t ht => htidy.target_ne_start t (Fragment.mem_transitions_toAutomaton.1 ht)
  · exact fun t ht => htidy.source_ne_accept (Fragment.mem_transitions_toAutomaton.1 ht)
  · intro q hq hne
    refine ⟨_, htidy.forks q ((Fragment.mem_stateSet_toAutomaton hends).1 hq) hne, fun t => ?_⟩
    rw [Fragment.leaving, List.mem_filter, decide_eq_true_eq, Fragment.mem_transitions_toAutomaton]
  · intro q hq
    obtain ⟨w, hw⟩ := htidy.reached q ((Fragment.mem_stateSet_toAutomaton hends).1 hq)
    exact ⟨w, hleads hw⟩
  · intro q hq
    obtain ⟨w, hw⟩ := e.allLive_fragment n q ((Fragment.mem_stateSet_toAutomaton hends).1 hq)
    exact ⟨w, hleads hw⟩

/-- A construction that succeeds gives an automaton of the shape that its tokens ask for. The
alphabet of the automaton of an expression is the set of the symbols that its transitions read. -/
theorem exists_hasShape_and_mem_alphabet_iff :
    (∀ ts n A, (thompson ts n).outcome = .ok A → ∃ start final, HasShape ts n A start final) ∧
      ∀ source r n A, parse source = .ok r → (r.construct n).outcome = .ok A →
        ∀ c, c ∈ A.alphabet ↔ ∃ q q', (⟨q, .symbol c, q'⟩ : Transition String) ∈ A.transitions := by
  constructor
  · intro ts n A hA
    obtain ⟨e, he⟩ := (Builder.Represents.empty n).construct_ok hA
    obtain rfl := Tree.foldlM_push_eq_singleton_iff.1 he
    obtain rfl := Except.ok.inj ((construct_postorder e n).2.symm.trans hA)
    exact ⟨_, _, e.hasShape_fragment n⟩
  · intro source r n A hr hA c
    obtain ⟨e, he, rfl⟩ := exists_fragment_of_construct hr hA
    rw [← (exists_tokens_of_parse hr).1] at he
    calc c ∈ r.alphabet
      _ ↔ .symbol c ∈ e.postorder := he.mem_alphabet_iff
      _ ↔ ∃ q q', ⟨q, .symbol c, q'⟩ ∈ (e.fragment n).transitions := Tree.symbol_mem_postorder_iff
      _ ↔ ∃ q q', (⟨q, .symbol c, q'⟩ : Transition String) ∈
          (e.fragment n).toAutomaton.transitions := by
        simp only [Fragment.mem_transitions_toAutomaton]

/-- A union of two symbols has six states and six transitions, its names from the third one on. -/
theorem exists_hasShape_and_mem_alphabet_iff_union :
    (∃ A, (thompson [.symbol 'a', .symbol 'b', .operator .union] ⟨'N', 3⟩).outcome = .ok A ∧
      (∃ start final,
        HasShape [.symbol 'a', .symbol 'b', .operator .union] ⟨'N', 3⟩ A start final) ∧
      (∀ q, q ∈ A.stateSet ↔ ∃ i, 3 ≤ i ∧ i < 9 ∧ q = Namer.nameOf 'N' i) ∧
      A.transitions.size = 6) ∧
    ∃ r A, parse "a(b|a)*" = .ok r ∧ (r.construct stateNamer).outcome = .ok A ∧
      ∀ c, c ∈ A.alphabet ↔ ∃ q q', (⟨q, .symbol c, q'⟩ : Transition String) ∈ A.transitions := by
  obtain ⟨hshape, halphabet⟩ := exists_hasShape_and_mem_alphabet_iff
  constructor
  · obtain ⟨start, final, h⟩ :=
      hshape [.symbol 'a', .symbol 'b', .operator .union] ⟨'N', 3⟩ _ rfl
    exact ⟨_, rfl, ⟨start, final, h⟩, h.mem_stateSet_iff, h.size_transitions⟩
  · exact ⟨_, _, rfl, rfl, halphabet "a(b|a)*" _ stateNamer _ rfl rfl⟩

end FiniteAutomata.Regex
