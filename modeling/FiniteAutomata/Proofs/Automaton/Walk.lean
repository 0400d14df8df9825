import FiniteAutomata.Proofs.Automaton.Path

/-!
# Walks

A walk lists the transitions that it takes; each of them leaves the state that the one before it
enters. It spells the symbols that its transitions read, and those that read nothing leave no trace.
A word leads from a state to a state exactly when a walk between them spells it
(`leads_iff_exists_walk`). What a walk takes can be counted and cut, so cycles and the place of a
symbol on the way are said with walks.
-/

namespace FiniteAutomata

variable {σ : Type}

/-- The symbols that some transitions read, in order. -/
def spelled (ts : List (Transition σ)) : List Char := ts.filterMap fun t => t.label.symbol?

/-- Transitions spell nothing when all of them are epsilon transitions. -/
theorem spelled_eq_nil_iff {ts : List (Transition σ)} :
    spelled ts = [] ↔ ∀ t ∈ ts, t.isEpsilon = true := by
  have hlabel (l : Label) : l.symbol? = none ↔ l.isEpsilon = true := by
    cases l <;> simp [Label.symbol?, Label.isEpsilon]
  rw [spelled, List.filterMap_eq_nil_iff]
  exact forall₂_congr fun t _ => hlabel t.label

/-- Some transitions, taken one after the other, lead from a state to a state. -/
def IsWalk (T : Set (Transition σ)) : σ → List (Transition σ) → σ → Prop
  | q, [], r => q = r
  | q, t :: ts, r => t.source = q ∧ t ∈ T ∧ IsWalk T t.target ts r

variable {T : Set (Transition σ)} {q r : σ} {ts us : List (Transition σ)} {w : List Char}

/-- A walk can be cut in two at any place. -/
theorem isWalk_append :
    IsWalk T q (ts ++ us) r ↔ ∃ p, IsWalk T q ts p ∧ IsWalk T p us r := by
  induction ts generalizing q with
  | nil => simp [IsWalk]
  | cons t ts ih =>
    simp only [List.cons_append, IsWalk, ih]
    tauto

/-- What a walk spells is spelled by a path. -/
theorem IsWalk.path (h : IsWalk T q ts r) : Path T q (spelled ts) r := by
  induction ts generalizing q with
  | nil =>
    obtain rfl : q = r := h
    exact .nil q
  | cons t ts ih =>
    obtain ⟨source, label, target⟩ := t
    obtain ⟨rfl, ht, hrest⟩ := h
    cases label with
    | epsilon => exact .epsilon ht (ih hrest)
    | symbol c => exact .symbol ht (ih hrest)

/-- A path takes a walk that spells the same word. -/
theorem Path.exists_walk (h : Path T q w r) : ∃ ts, IsWalk T q ts r ∧ spelled ts = w := by
  induction h with
  | nil => exact ⟨[], rfl, rfl⟩
  | epsilon t _ ih =>
    obtain ⟨ts, hwalk, hspelled⟩ := ih
    exact ⟨_ :: ts, ⟨rfl, t, hwalk⟩, hspelled⟩
  | @symbol _ _ _ c _ t _ ih =>
    obtain ⟨ts, hwalk, hspelled⟩ := ih
    exact ⟨_ :: ts, ⟨rfl, t, hwalk⟩, congrArg (c :: ·) hspelled⟩

namespace Automaton

variable [Ord σ] [Std.TransOrd σ] {A : Automaton σ}

/-- Some transitions of an automaton, taken one after the other, lead from a state to a state. -/
abbrev Walks (A : Automaton σ) : σ → List (Transition σ) → σ → Prop :=
  IsWalk {t | t ∈ A.transitions}

/-- A word leads from a state to a state when a walk spells it. -/
theorem leads_iff_exists_walk : A.Leads q w r ↔ ∃ ts, A.Walks q ts r ∧ spelled ts = w := by
  constructor
  · exact Path.exists_walk
  · rintro ⟨ts, h, rfl⟩
    exact h.path

/-- The empty word leads wherever epsilon transitions do. -/
theorem leads_nil_iff_exists_walk :
    A.Leads q [] r ↔ ∃ ts, A.Walks q ts r ∧ ∀ t ∈ ts, t.isEpsilon = true := by
  simp only [leads_iff_exists_walk, spelled_eq_nil_iff]

end Automaton

end FiniteAutomata
