import FiniteAutomata.FiniteSet
import FiniteAutomata.Transition
import Std.Data.ExtTreeMap

/-!
# The index of successors

The index sends a state to its row, and a row sends a label to the set of the states that
transitions with this label lead to. Only what some transition needs is in the index: no row and
no set in it is empty. `eq_of_mem_targets` says that such an index is known by the targets that it
gives, and `mem_targets_link` what adding a transition does to them.
-/

namespace FiniteAutomata

open Std

/-- The targets of the transitions from a state, by label. -/
abbrev Row (σ : Type) [Ord σ] := ExtTreeMap Label (FiniteSet σ)

/-- The rows of the states that some transition leaves. -/
abbrev Successors (σ : Type) [Ord σ] := ExtTreeMap σ (Row σ)

namespace Successors

variable {σ : Type} [Ord σ] [TransOrd σ]

/-- The row of a state, empty if no transition leaves it. -/
def row (index : Successors σ) (q : σ) : Row σ := index.getD q ∅

/-- The targets of a state under a label. -/
def targets (index : Successors σ) (q : σ) (l : Label) : FiniteSet σ := (index.row q).getD l ∅

/-- The index with one more transition. -/
def link (index : Successors σ) (t : Transition σ) : Successors σ :=
  ExtTreeMap.insert index t.source
    ((index.row t.source).insert t.label ((index.targets t.source t.label).insert t.target))

/-- No row and no set of targets in the index is empty. -/
structure Compact (index : Successors σ) : Prop where
  /-- A row that is there has a label. -/
  row_ne : ∀ (q : σ) (r : Row σ), index[q]? = some r → r ≠ ∅
  /-- A set of targets that is there has a member. -/
  targets_ne : ∀ (q : σ) (r : Row σ) (l : Label) (ts : FiniteSet σ),
    index[q]? = some r → r[l]? = some ts → ts ≠ ∅

/-- The empty index gives no targets. -/
theorem targets_empty (q : σ) (l : Label) : targets (∅ : Successors σ) q l = ∅ := by
  simp [targets, row, ExtTreeMap.getD_eq_getD_getElem?]

/-- The empty index is compact. -/
theorem compact_empty : Compact (∅ : Successors σ) := ⟨by simp, by simp⟩

/-- Adding a transition puts its target into the row of its source. -/
theorem row_link_source (index : Successors σ) (t : Transition σ) :
    (index.link t).row t.source =
      (index.row t.source).insert t.label ((index.targets t.source t.label).insert t.target) := by
  simp [link, row]

/-- A compact index has a row for a state exactly when the state has some target. -/
theorem Compact.getElem?_eq_none_iff {index : Successors σ} (h : index.Compact) {q : σ} :
    index[q]? = none ↔ ∀ l, index.targets q l = ∅ := by
  constructor
  · intro hq l
    simp [targets, row, ExtTreeMap.getD_eq_getD_getElem?, hq]
  · intro hall
    cases hq : index[q]? with
    | none => rfl
    | some r =>
      refine absurd (ExtTreeMap.ext_getElem? fun l => ?_) (h.row_ne q r hq)
      cases hl : r[l]? with
      | none => simp
      | some ts =>
        refine absurd ?_ (h.targets_ne q r l ts hq hl)
        have := hall l
        simpa [targets, row, ExtTreeMap.getD_eq_getD_getElem?, hq, hl] using this

section Lawful

variable [LawfulEqOrd σ]

/-- Adding a transition leaves the rows of the other states alone. -/
theorem row_link_of_ne {index : Successors σ} {t : Transition σ} {q : σ} (h : t.source ≠ q) :
    (index.link t).row q = index.row q := by
  simp [link, row, ExtTreeMap.getD_insert, h]

/-- Adding a transition adds its target to the targets of its source under its label. -/
theorem mem_targets_link {index : Successors σ} {t : Transition σ} {q r : σ} {l : Label} :
    r ∈ (index.link t).targets q l ↔ t = ⟨q, l, r⟩ ∨ r ∈ index.targets q l := by
  obtain ⟨s, m, u⟩ := t
  by_cases hq : s = q
  · subst hq
    rw [targets, row_link_source, ExtTreeMap.getD_insert]
    by_cases hl : m = l
    · subst hl
      rw [if_pos ReflCmp.compare_self, FiniteSet.mem_insert_iff]
      simp [eq_comm]
    · simp [hl, targets]
  · rw [targets, row_link_of_ne (t := ⟨s, m, u⟩) hq]
    simp [hq, targets]

/-- Adding a transition keeps an index compact. -/
theorem Compact.link {index : Successors σ} (h : index.Compact) (t : Transition σ) :
    (index.link t).Compact := by
  have insert_ne {a : σ} {ts : FiniteSet σ} : ts.insert a ≠ ∅ := fun h => by
    have : a ∈ ts.insert a := FiniteSet.mem_insert_iff.2 (.inl rfl)
    simp [h] at this
  constructor
  · intro q r hr
    simp only [Successors.link, ExtTreeMap.getElem?_insert, Std.compare_eq_iff_eq] at hr
    split at hr
    · obtain rfl := Option.some.inj hr
      intro hne
      have : t.label ∈ (∅ : Row σ) := by
        rw [← hne]
        exact ExtTreeMap.mem_insert_self
      simp at this
    · exact h.row_ne q r hr
  · intro q r l ts hr hts
    simp only [Successors.link, ExtTreeMap.getElem?_insert, Std.compare_eq_iff_eq] at hr
    split at hr
    · obtain rfl := Option.some.inj hr
      simp only [ExtTreeMap.getElem?_insert, Std.compare_eq_iff_eq] at hts
      split at hts
      · obtain rfl := Option.some.inj hts
        exact insert_ne
      · rename_i hl
        cases hrow : index[t.source]? with
        | none => simp [row, ExtTreeMap.getD_eq_getD_getElem?, hrow] at hts
        | some r =>
          simp only [row, ExtTreeMap.getD_eq_getD_getElem?, hrow, Option.getD_some] at hts
          exact h.targets_ne _ r l ts hrow hts
    · exact h.targets_ne q r l ts hr hts

/-- A row of a compact index has a label exactly when there are targets under it. -/
theorem Compact.getElem?_row {index : Successors σ} (h : index.Compact) (q : σ) (l : Label) :
    (index.row q)[l]? = if index.targets q l = ∅ then none else some (index.targets q l) := by
  cases hq : index[q]? with
  | none => simp [targets, row, ExtTreeMap.getD_eq_getD_getElem?, hq]
  | some r =>
    cases hl : r[l]? with
    | none => simp [targets, row, ExtTreeMap.getD_eq_getD_getElem?, hq, hl]
    | some ts =>
      have := h.targets_ne q r l ts hq hl
      simp [targets, row, ExtTreeMap.getD_eq_getD_getElem?, hq, hl, this]

/-- Compact indices that give the same targets are equal. -/
theorem Compact.eq_of_mem_targets {i j : Successors σ} (hi : i.Compact) (hj : j.Compact)
    (h : ∀ q l r, r ∈ i.targets q l ↔ r ∈ j.targets q l) : i = j := by
  have htargets (q : σ) (l : Label) : i.targets q l = j.targets q l :=
    ExtTreeSet.ext_mem fun r => h q l r
  have hrow (q : σ) : i.row q = j.row q :=
    ExtTreeMap.ext_getElem? fun l => by rw [hi.getElem?_row, hj.getElem?_row, htargets]
  refine ExtTreeMap.ext_getElem? fun q => ?_
  cases hq : i[q]? with
  | none =>
    rw [hi.getElem?_eq_none_iff] at hq
    exact (hj.getElem?_eq_none_iff.2 fun l => by rw [← htargets, hq]).symm
  | some r =>
    cases hq' : j[q]? with
    | none =>
      rw [hj.getElem?_eq_none_iff] at hq'
      have : i[q]? = none := hi.getElem?_eq_none_iff.2 fun l => by rw [htargets, hq']
      simp [hq] at this
    | some r' =>
      have := hrow q
      simp only [row, ExtTreeMap.getD_eq_getD_getElem?, hq, hq', Option.getD_some] at this
      rw [this]

end Lawful

end Successors

end FiniteAutomata
