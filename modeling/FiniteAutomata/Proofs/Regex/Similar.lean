import FiniteAutomata.Proofs.Automaton.Map
import FiniteAutomata.Proofs.Regex.Compile
import Mathlib.Logic.Relator

/-!
# Similar fragments

Two fragments are similar if a relation pairs their states off so that entry, exit and transitions
correspond (`Fragment.Similar`). Then the automaton of one is that of the other with its states
renamed by an injective function (`Similar.exists_mapStates_eq`).

Similar parts make similar fragments (`Similar.union`, `Similar.concat`, `Similar.star`,
`Similar.plus`): the relations of the parts are joined, and the new states are paired with each
other. Nothing else is needed than that the parts have no state in common and that new states are
new, which is so for the fragments of syntax trees. So trees can be interchanged within any tree
(`Tree.Interchangeable`): a tree with itself under other names, unions with their operands swapped,
and concatenations that are grouped in another way.
-/

namespace FiniteAutomata.Regex

open Std

/-! ## Relations that pair states off -/

/-- A relation pairs states of one kind off with states of another kind. -/
structure PairsOff (R : String → String → Prop) (P Q : String → Prop) : Prop where
  /-- No state is paired with two others. -/
  biUnique : Relator.BiUnique R
  /-- The states are of these kinds. -/
  of_rel : ∀ q r, R q r → P q ∧ Q r

section PairsOff

variable {R S : String → String → Prop} {P Q P' Q' : String → Prop}

/-- No states are paired off. -/
theorem pairsOff_none : PairsOff (fun _ _ => False) P Q :=
  ⟨⟨fun _ _ _ => False.elim, fun _ _ _ => False.elim⟩, fun _ _ => False.elim⟩

/-- The kinds may be wider. -/
theorem PairsOff.mono (h : PairsOff R P Q) (hP : ∀ q, P q → P' q) (hQ : ∀ r, Q r → Q' r) :
    PairsOff R P' Q' :=
  ⟨h.biUnique, fun q r hqr => (h.of_rel q r hqr).imp (hP q) (hQ r)⟩

/-- Two relations that pair states off do so together, if their states are different. -/
theorem PairsOff.or (hR : PairsOff R P Q) (hS : PairsOff S P' Q') (hP : ∀ q, P q → ¬ P' q)
    (hQ : ∀ r, Q r → ¬ Q' r) :
    PairsOff (fun q r => R q r ∨ S q r) (fun q => P q ∨ P' q) fun r => Q r ∨ Q' r where
  biUnique := by
    constructor
    · rintro q q' r (h | h) (h' | h')
      · exact hR.biUnique.1 h h'
      · exact absurd (hS.of_rel q' r h').2 (hQ r (hR.of_rel q r h).2)
      · exact absurd (hS.of_rel q r h).2 (hQ r (hR.of_rel q' r h').2)
      · exact hS.biUnique.1 h h'
    · rintro q r r' (h | h) (h' | h')
      · exact hR.biUnique.2 h h'
      · exact absurd (hS.of_rel q r' h').1 (hP q (hR.of_rel q r h).1)
      · exact absurd (hS.of_rel q r h).1 (hP q (hR.of_rel q r' h').1)
      · exact hS.biUnique.2 h h'
  of_rel := by
    rintro q r (h | h)
    · exact (hR.of_rel q r h).imp .inl .inl
    · exact (hS.of_rel q r h).imp .inr .inr

/-- Two different states are paired off with two others. -/
theorem pairsOff_new {s a s' a' : String} (hsa : s ≠ a) (hsa' : s' ≠ a') :
    PairsOff (fun q r => q = s ∧ r = s' ∨ q = a ∧ r = a') (fun q => q = s ∨ q = a)
      fun r => r = s' ∨ r = a' where
  biUnique := by
    constructor
    · rintro q q' r (⟨rfl, rfl⟩ | ⟨rfl, rfl⟩) (⟨rfl, h⟩ | ⟨rfl, h⟩)
      · rfl
      · exact absurd h hsa'
      · exact absurd h.symm hsa'
      · rfl
    · rintro q r r' (⟨rfl, rfl⟩ | ⟨rfl, rfl⟩) (⟨h, rfl⟩ | ⟨h, rfl⟩)
      · rfl
      · exact absurd h hsa
      · exact absurd h.symm hsa
      · rfl
  of_rel := by
    rintro q r (⟨hq, hr⟩ | ⟨hq, hr⟩)
    · exact ⟨.inl hq, .inl hr⟩
    · exact ⟨.inr hq, .inr hr⟩

/-- If names that two namers have handed out are paired off, so can be the next two names of
both. -/
theorem PairsOff.exists_new {n m : Namer} (h : PairsOff R n.HandedOut m.HandedOut) :
    ∃ S, Relator.BiUnique S ∧ (∀ q r, R q r → S q r) ∧ S n.name m.name ∧
      S (n.advance 1).name (m.advance 1).name := by
  have hnew (n : Namer) (q : String) (hq : q = n.name ∨ q = (n.advance 1).name) :
      ¬ n.HandedOut q := by
    rcases hq with rfl | rfl
    · exact n.not_handedOut_advance 0
    · exact n.not_handedOut_advance 1
  have hor := (pairsOff_new n.name_ne_name_advance m.name_ne_name_advance).or h (hnew n) (hnew m)
  exact ⟨_, hor.biUnique, fun _ _ => .inr, .inl (.inl ⟨rfl, rfl⟩), .inl (.inr ⟨rfl, rfl⟩)⟩

end PairsOff

/-! ## Counterparts of transitions -/

/-- A transition is the counterpart of another one if it has the same label, and the ends are
related. -/
structure Counterpart (R : String → String → Prop) (t u : Transition String) : Prop where
  /-- The sources are related. -/
  source : R t.source u.source
  /-- The labels are the same. -/
  label : t.label = u.label
  /-- The targets are related. -/
  target : R t.target u.target

/-- Each transition of one list has a counterpart in another list. -/
def Covers (R : String → String → Prop) (ts us : List (Transition String)) : Prop :=
  ∀ t ∈ ts, ∃ u ∈ us, Counterpart R t u

section Covers

variable {R S : String → String → Prop} {ts us ts' us' vs : List (Transition String)}

/-- Counterparts stay when more states are related. -/
theorem Covers.mono (h : Covers R ts us) (hRS : ∀ q r, R q r → S q r) : Covers S ts us := by
  intro t ht
  obtain ⟨u, hu, htu⟩ := h t ht
  exact ⟨u, hu, hRS _ _ htu.source, htu.label, hRS _ _ htu.target⟩

/-- Counterparts of counterparts are counterparts. -/
theorem Covers.trans (h : Covers R ts us) (h' : Covers S us vs) :
    Covers (Relation.Comp R S) ts vs := by
  intro t ht
  obtain ⟨u, hu, htu⟩ := h t ht
  obtain ⟨v, hv, huv⟩ := h' u hu
  exact ⟨v, hv, ⟨_, htu.source, huv.source⟩, htu.label.trans huv.label,
    ⟨_, htu.target, huv.target⟩⟩

/-- The empty list needs no counterparts. -/
theorem Covers.nil : Covers R [] us := fun _ ht => absurd ht List.not_mem_nil

/-- One more transition needs one more counterpart. -/
theorem Covers.cons {q r q' r' : String} {l : Label} (hq : R q q') (hr : R r r')
    (h : Covers R ts us) : Covers R (⟨q, l, r⟩ :: ts) (⟨q', l, r'⟩ :: us) := by
  intro t ht
  rcases List.mem_cons.1 ht with rfl | ht
  · exact ⟨_, .head _, hq, rfl, hr⟩
  · obtain ⟨u, hu, htu⟩ := h t ht
    exact ⟨u, .tail _ hu, htu⟩

/-- Lists have their counterparts one after the other. -/
theorem Covers.append (h : Covers R ts us) (h' : Covers R ts' us') :
    Covers R (ts ++ ts') (us ++ us') := by
  intro t ht
  rcases List.mem_append.1 ht with ht | ht
  · obtain ⟨u, hu, htu⟩ := h t ht
    exact ⟨u, List.mem_append.2 (.inl hu), htu⟩
  · obtain ⟨u, hu, htu⟩ := h' t ht
    exact ⟨u, List.mem_append.2 (.inr hu), htu⟩

end Covers

namespace Fragment

variable {R S : String → String → Prop} {f g f' g' k : Fragment} {s a s' a' : String}

/-! ## Counterparts in another fragment -/

/-- A fragment has counterparts for the entry, the exit and the transitions of another one. -/
structure Follows (R : String → String → Prop) (f g : Fragment) : Prop where
  /-- The entry is related to the entry. -/
  start : R f.start g.start
  /-- The exit is related to the exit. -/
  accept : R f.accept g.accept
  /-- The transitions have counterparts. -/
  covers : Covers R f.transitions g.transitions

namespace Follows

/-- What follows still does when more states are related. -/
theorem mono (h : Follows R f g) (hRS : ∀ q r, R q r → S q r) : Follows S f g where
  start := hRS _ _ h.start
  accept := hRS _ _ h.accept
  covers := h.covers.mono hRS

/-- A fragment follows what is followed by one that it follows. -/
theorem trans (h : Follows R f g) (h' : Follows S g k) : Follows (Relation.Comp R S) f k where
  start := ⟨_, h.start, h'.start⟩
  accept := ⟨_, h.accept, h'.accept⟩
  covers := h.covers.trans h'.covers

/-- Only the states of the fragments need be related. -/
theorem restrict (h : Follows R f g) (hf : f.HasEnds) (hg : g.HasEnds) :
    Follows (fun q r => R q r ∧ f.Touches q ∧ g.Touches r) f g where
  start := ⟨h.start, hf.start, hg.start⟩
  accept := ⟨h.accept, hf.accept, hg.accept⟩
  covers t ht := by
    obtain ⟨u, hu, htu⟩ := h.covers t ht
    exact ⟨u, hu, ⟨htu.source, (touches_ends ht).1, (touches_ends hu).1⟩, htu.label,
      ⟨htu.target, (touches_ends ht).2, (touches_ends hu).2⟩⟩

/-- A fragment for a symbol follows one for that symbol. -/
theorem symbol (hs : R s s') (ha : R a a') (c : Char) :
    Follows R (.symbol s a c) (.symbol s' a' c) :=
  ⟨hs, ha, .cons hs ha .nil⟩

/-- Unions follow if their parts do. -/
theorem union (h : Follows R f g) (h' : Follows R f' g') (hs : R s s') (ha : R a a') :
    Follows R (.union s a f f') (.union s' a' g g') :=
  ⟨hs, ha, (h.covers.append h'.covers).append
    (.cons hs h.start (.cons hs h'.start (.cons h.accept ha (.cons h'.accept ha .nil))))⟩

/-- Concatenations follow if their parts do. -/
theorem concat (h : Follows R f g) (h' : Follows R f' g') :
    Follows R (f.concat f') (g.concat g') :=
  ⟨h.start, h'.accept, (h.covers.append h'.covers).append (.cons h.accept h'.start .nil)⟩

/-- A plus follows if its part does. -/
theorem plus (h : Follows R f g) (hs : R s s') (ha : R a a') :
    Follows R (.plus s a f) (.plus s' a' g) :=
  ⟨hs, ha, h.covers.append (.cons hs h.start (.cons h.accept ha (.cons h.accept h.start .nil)))⟩

/-- A star follows if its part does. -/
theorem star (h : Follows R f g) (hs : R s s') (ha : R a a') :
    Follows R (.star s a f) (.star s' a' g) :=
  ⟨hs, ha, (h.plus hs ha).covers.append (.cons hs ha .nil)⟩

end Follows

/-! ## Similarity -/

/-- A relation pairs the states of two fragments off, and each fragment follows the other by it. -/
def Similar (f g : Fragment) : Prop :=
  ∃ R, Relator.BiUnique R ∧ Follows R f g ∧ Follows (flip R) g f

/-- Similarity goes both ways. -/
theorem Similar.symm (h : f.Similar g) : g.Similar f := by
  obtain ⟨R, hR, hforth, hback⟩ := h
  exact ⟨flip R, ⟨fun _ _ _ h h' => hR.2 h h', fun _ _ _ h h' => hR.1 h h'⟩, hback, hforth⟩

/-- Similarity is passed on. -/
theorem Similar.trans (h : f.Similar g) (h' : g.Similar k) : f.Similar k := by
  obtain ⟨R, hR, hforth, hback⟩ := h
  obtain ⟨S, hS, hforth', hback'⟩ := h'
  refine ⟨Relation.Comp R S, ⟨?_, ?_⟩, hforth.trans hforth', ?_⟩
  · rintro q q' k ⟨r, hqr, hrk⟩ ⟨r', hqr', hrk'⟩
    obtain rfl := hS.1 hrk hrk'
    exact hR.1 hqr hqr'
  · rintro q k k' ⟨r, hqr, hrk⟩ ⟨r', hqr', hrk'⟩
    obtain rfl := hR.2 hqr hqr'
    exact hS.2 hrk hrk'
  · exact (hback'.trans hback).mono fun k q ⟨r, hkr, hrq⟩ => ⟨r, hrq, hkr⟩

/-- The order of transitions does not matter. -/
theorem Similar.congr_right (h : f.Similar g) (hstart : g.start = k.start)
    (haccept : g.accept = k.accept)
    (htransitions : ∀ t, t ∈ g.transitions ↔ t ∈ k.transitions) : f.Similar k := by
  obtain ⟨R, hR, hforth, hback⟩ := h
  refine ⟨R, hR, ⟨hstart ▸ hforth.start, haccept ▸ hforth.accept, fun t ht => ?_⟩,
    ⟨hstart ▸ hback.start, haccept ▸ hback.accept, fun u hu => ?_⟩⟩
  · obtain ⟨u, hu, htu⟩ := hforth.covers t ht
    exact ⟨u, (htransitions u).1 hu, htu⟩
  · exact hback.covers u ((htransitions u).2 hu)

/-- Similar fragments are similar by a relation that pairs their own states off. -/
theorem Similar.exists_pairsOff (h : f.Similar g) (hf : f.HasEnds) (hg : g.HasEnds) :
    ∃ R, PairsOff R f.Touches g.Touches ∧ Follows R f g ∧ Follows (flip R) g f := by
  obtain ⟨R, hR, hforth, hback⟩ := h
  refine ⟨fun q r => R q r ∧ f.Touches q ∧ g.Touches r, ⟨⟨?_, ?_⟩, fun _ _ h => h.2⟩,
    hforth.restrict hf hg, ?_⟩
  · exact fun q q' r h h' => hR.1 h.1 h'.1
  · exact fun q r r' h h' => hR.2 h.1 h'.1
  · exact (hback.restrict hg hf).mono fun r q ⟨h, hr, hq⟩ => ⟨h, hq, hr⟩

/-- Fragments for one symbol are similar. -/
theorem similar_symbol (n m : Namer) (c : Char) :
    (Fragment.symbol n.name (n.advance 1).name c).Similar
      (.symbol m.name (m.advance 1).name c) := by
  obtain ⟨R, hR, -, hs, ha⟩ :=
    (pairsOff_none : PairsOff _ n.HandedOut m.HandedOut).exists_new
  exact ⟨R, hR, .symbol hs ha c, Follows.symbol (R := flip R) hs ha c⟩

/-- Two pairs of similar fragments are similar by one relation, if each fragment can be put beside
that of the other pair. -/
theorem Similar.exists_join {n m : Namer} (h : f.Similar g) (h' : f'.Similar g')
    (hf : AreParts n f f') (hg : AreParts m g g') :
    ∃ R, PairsOff R n.HandedOut m.HandedOut ∧ (Follows R f g ∧ Follows R f' g') ∧
      Follows (flip R) g f ∧ Follows (flip R) g' f' := by
  obtain ⟨R, hR, hforth, hback⟩ := h.exists_pairsOff hf.left.toHasEnds hg.left.toHasEnds
  obtain ⟨S, hS, hforth', hback'⟩ := h'.exists_pairsOff hf.right.toHasEnds hg.right.toHasEnds
  refine ⟨_, (hR.or hS hf.apart hg.apart).mono ?_ ?_,
    ⟨hforth.mono fun _ _ => .inl, hforth'.mono fun _ _ => .inr⟩,
    hback.mono fun _ _ => .inl, hback'.mono fun _ _ => .inr⟩
  · exact fun q hq => hq.elim (hf.left.named q) (hf.right.named q)
  · exact fun r hr => hr.elim (hg.left.named r) (hg.right.named r)

/-- Concatenations are similar if their parts are. -/
theorem Similar.concat {n m : Namer} (h : f.Similar g) (h' : f'.Similar g') (hf : AreParts n f f')
    (hg : AreParts m g g') : (f.concat f').Similar (g.concat g') := by
  obtain ⟨R, hR, ⟨hforth, hforth'⟩, hback, hback'⟩ := h.exists_join h' hf hg
  exact ⟨R, hR.biUnique, hforth.concat hforth', hback.concat hback'⟩

/-- Unions are similar if their parts are. -/
theorem Similar.union {n m : Namer} (h : f.Similar g) (h' : f'.Similar g') (hf : AreParts n f f')
    (hg : AreParts m g g') :
    (Fragment.union n.name (n.advance 1).name f f').Similar
      (.union m.name (m.advance 1).name g g') := by
  obtain ⟨R, hR, ⟨hforth, hforth'⟩, hback, hback'⟩ := h.exists_join h' hf hg
  obtain ⟨S, hS, hRS, hs, ha⟩ := hR.exists_new
  exact ⟨S, hS, (hforth.mono hRS).union (hforth'.mono hRS) hs ha,
    (hback.mono fun _ _ => hRS _ _).union (hback'.mono fun _ _ => hRS _ _) hs ha⟩

/-- Similar fragments, with two new states each, are similar by one relation. -/
theorem Similar.exists_frame {n m : Namer} (h : f.Similar g) (hf : IsPart n f) (hg : IsPart m g) :
    ∃ R, Relator.BiUnique R ∧ Follows R f g ∧ Follows (flip R) g f ∧ R n.name m.name ∧
      R (n.advance 1).name (m.advance 1).name := by
  obtain ⟨R, hR, hforth, hback⟩ := h.exists_pairsOff hf.toHasEnds hg.toHasEnds
  obtain ⟨S, hS, hRS, hs, ha⟩ := (hR.mono hf.named hg.named).exists_new
  exact ⟨S, hS, hforth.mono hRS, hback.mono fun _ _ => hRS _ _, hs, ha⟩

/-- A plus is similar to that of a similar fragment. -/
theorem Similar.plus {n m : Namer} (h : f.Similar g) (hf : IsPart n f) (hg : IsPart m g) :
    (Fragment.plus n.name (n.advance 1).name f).Similar (.plus m.name (m.advance 1).name g) := by
  obtain ⟨R, hR, hforth, hback, hs, ha⟩ := h.exists_frame hf hg
  exact ⟨R, hR, hforth.plus hs ha, hback.plus hs ha⟩

/-- A star is similar to that of a similar fragment. -/
theorem Similar.star {n m : Namer} (h : f.Similar g) (hf : IsPart n f) (hg : IsPart m g) :
    (Fragment.star n.name (n.advance 1).name f).Similar (.star m.name (m.advance 1).name g) := by
  obtain ⟨R, hR, hforth, hback, hs, ha⟩ := h.exists_frame hf hg
  exact ⟨R, hR, hforth.star hs ha, hback.star hs ha⟩

/-! ## Automata of similar fragments -/

/-- If no state has two partners, a function takes the states of a fragment to their partners. -/
theorem Follows.exists_rename (h : Follows R f g) (hR : Relator.RightUnique R) :
    ∃ rename : String → String, ∀ q, f.Touches q → ∀ r, R q r ↔ rename q = r := by
  have htotal (q : String) : ∃ r, f.Touches q → R q r := by
    by_cases hq : f.Touches q
    · obtain ⟨t, ht, hq⟩ := hq
      obtain ⟨u, -, htu⟩ := h.covers t ht
      rcases hq with rfl | rfl
      · exact ⟨_, fun _ => htu.source⟩
      · exact ⟨_, fun _ => htu.target⟩
    · exact ⟨q, fun hq' => absurd hq' hq⟩
  choose rename hrename using htotal
  exact ⟨rename, fun q hq r => ⟨fun hqr => hR (hrename q hq) hqr, fun hr => hr ▸ hrename q hq⟩⟩

/-- The automaton of a similar fragment is the automaton with its states renamed. -/
theorem Similar.exists_mapStates_eq (h : f.Similar g) (hf : f.HasEnds) (symbols : FiniteSet Char) :
    ∃ rename, Set.InjOn rename (f.toAutomaton.setAlphabet symbols).stateSet ∧
      (f.toAutomaton.setAlphabet symbols).mapStates rename = g.toAutomaton.setAlphabet symbols := by
  obtain ⟨R, hR, hforth, hback⟩ := h
  obtain ⟨rename, hrename⟩ := hforth.exists_rename hR.2
  have hmap {t u : Transition String} (ht : t ∈ f.transitions) (htu : Counterpart R t u) :
      t.map rename = u := by
    rw [Transition.map, (hrename _ (touches_ends ht).1 _).1 htu.source, htu.label,
      (hrename _ (touches_ends ht).2 _).1 htu.target]
  refine ⟨rename, fun q hq q' hq' hqq' => ?_, Automaton.eq_iff.2 ⟨?_, ?_, ?_, ?_⟩⟩
  · exact hR.1 ((hrename q (touches_of_mem_allStates hf hq) _).2 hqq')
      ((hrename q' (touches_of_mem_allStates hf hq') _).2 rfl)
  · refine ExtTreeSet.ext_mem fun u => Automaton.mem_transitions_mapStates.trans ?_
    constructor
    · rintro ⟨t, ht, rfl⟩
      have ht := mem_transitions_toAutomaton.1 ht
      obtain ⟨u, hu, htu⟩ := hforth.covers t ht
      rw [hmap ht htu]
      exact mem_transitions_toAutomaton.2 hu
    · intro hu
      obtain ⟨t, ht, hut⟩ := hback.covers u (mem_transitions_toAutomaton.1 hu)
      exact ⟨t, mem_transitions_toAutomaton.2 ht,
        hmap ht ⟨hut.source, hut.label.symm, hut.target⟩⟩
  · refine ExtTreeSet.ext_mem fun r => FiniteSet.mem_image.trans ?_
    show (∃ q ∈ f.toAutomaton.starts, rename q = r) ↔ r ∈ g.toAutomaton.starts
    simp only [mem_starts_toAutomaton, exists_eq_left, (hrename _ hf.start _).1 hforth.start]
    exact eq_comm
  · refine ExtTreeSet.ext_mem fun r => FiniteSet.mem_image.trans ?_
    show (∃ q ∈ f.toAutomaton.finals, rename q = r) ↔ r ∈ g.toAutomaton.finals
    simp only [mem_finals_toAutomaton, exists_eq_left, (hrename _ hf.accept _).1 hforth.accept]
    exact eq_comm
  · exact Automaton.alphabet_mapStates _ _

end Fragment

/-! ## Interchangeable trees -/

namespace Tree

variable {d e d' e' : Tree}

/-- Fragments of two trees are similar, whatever the names of their states are. -/
def Interchangeable (d e : Tree) : Prop := ∀ n m, (d.fragment n).Similar (e.fragment m)

namespace Interchangeable

/-- If one tree can be put for another, so can the other one. -/
theorem symm (h : Interchangeable d e) : Interchangeable e d := fun n m => (h m n).symm

/-- Trees can be put for one another in turn. -/
theorem trans (h : Interchangeable d e) (h' : Interchangeable e e') : Interchangeable d e' :=
  fun n m => (h n n).trans (h' n m)

/-- Unions can be interchanged if their operands can. -/
theorem union (h : Interchangeable d d') (h' : Interchangeable e e') :
    Interchangeable (.union d e) (.union d' e') := fun n m =>
  (h n m).union (h' _ _) (areParts_fragment d e n) (areParts_fragment d' e' m)

/-- Concatenations can be interchanged if their operands can. -/
theorem concat (h : Interchangeable d d') (h' : Interchangeable e e') :
    Interchangeable (.concat d e) (.concat d' e') := fun n m =>
  (h n m).concat (h' _ _) (areParts_fragment d e n) (areParts_fragment d' e' m)

/-- Stars can be interchanged if their operands can. -/
theorem star (h : Interchangeable e e') : Interchangeable (.star e) (.star e') :=
  fun n m => (h n m).star (isPart_fragment e n) (isPart_fragment e' m)

/-- Pluses can be interchanged if their operands can. -/
theorem plus (h : Interchangeable e e') : Interchangeable (.plus e) (.plus e') :=
  fun n m => (h n m).plus (isPart_fragment e n) (isPart_fragment e' m)

/-- A tree can be interchanged with itself: its fragments are similar under any names. -/
theorem refl (e : Tree) : Interchangeable e e := by
  induction e with
  | symbol c => exact fun n m => Fragment.similar_symbol n m c
  | union _ _ hl hr => exact hl.union hr
  | concat _ _ hl hr => exact hl.concat hr
  | star _ ih => exact ih.star
  | plus _ ih => exact ih.plus

/-- The operands of a union can be swapped: the same transitions join its parts. -/
theorem union_comm (d e : Tree) : Interchangeable (.union d e) (.union e d) := by
  intro n m
  -- The names of the parts come in another order, so the parts are similar one by one.
  have h := (refl d n (e.namerAfter m)).union (refl e (d.namerAfter n) m) (areParts_fragment d e n)
    (areParts_fragment e d m).symm
  refine h.congr_right rfl rfl fun t => ?_
  simp only [Tree.fragment, Fragment.union, List.mem_append, List.mem_cons]
  tauto

/-- Concatenations can be grouped in either way: names and transitions are the same. -/
theorem concat_assoc (d e f : Tree) :
    Interchangeable (.concat (.concat d e) f) (.concat d (.concat e f)) := by
  intro n m
  refine (refl (.concat (.concat d e) f) n m).congr_right rfl rfl fun t => ?_
  simp only [fragment, namerAfter, Fragment.concat, List.mem_append, List.mem_singleton]
  tauto

end Interchangeable

end Tree

end FiniteAutomata.Regex
