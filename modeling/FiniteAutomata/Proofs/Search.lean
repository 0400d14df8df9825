import FiniteAutomata.Search
import Mathlib.Data.Finset.Card
import Mathlib.Logic.Relation

/-!
# What a graph search finds

`search` lists every element that is reachable from the seeds, and lists it once (`mem_search`,
`nodup_search`). Both hold for depth-first and breadth-first search alike, as long as the bound on
the rounds is the size of some finite region that holds the seeds and that no neighbour leaves.

The proof carries an invariant through the rounds. It names the elements taken so far, which the
algorithm does not keep: a discovered element is pending or has been taken, never both, and no
element is pending twice. Each round takes one element more, so when the rounds are used up all
elements of the enclosing region have been taken and nothing is pending.

The bound is there for the sake of termination only: a search that goes on until nothing is pending
takes the same elements in the same order (`Encloses.exhausts`).
-/

namespace FiniteAutomata.Search

open Std

variable {α : Type}

/-- An element is reached from another by going from neighbour to neighbour. -/
def Reaches (neighbours : α → List α) : α → α → Prop :=
  Relation.ReflTransGen fun a b => b ∈ neighbours a

/-- A finite region that holds the seeds and the neighbours of its members, and that is not larger
than the bound. -/
structure Encloses (neighbours : α → List α) (region : Finset α) (bound : ℕ)
    (seeds : List α) : Prop where
  /-- The search starts inside. -/
  seeds_mem : ∀ a ∈ seeds, a ∈ region
  /-- The search stays inside. -/
  neighbours_mem : ∀ a ∈ region, ∀ b ∈ neighbours a, b ∈ region
  /-- The rounds suffice to take every member. -/
  card_le : region.card ≤ bound

/-- Joining new discoveries to the pending elements repeats none of them. -/
theorem Discipline.nodup_join {d : Discipline} {xs ys : List α} (hx : xs.Nodup) (hy : ys.Nodup)
    (h : ∀ a ∈ xs, a ∉ ys) : (d.join xs ys).Nodup := by
  cases d with
  | depthFirst =>
    refine List.nodup_append.2 ⟨List.nodup_reverse.2 hx, hy, fun a ha b hb hab => ?_⟩
    exact h a (List.mem_reverse.1 ha) (hab ▸ hb)
  | breadthFirst =>
    exact List.nodup_append.2 ⟨hy, hx, fun a ha b hb hab => h b hb (hab ▸ ha)⟩

variable [Ord α] [TransOrd α]

/-- Whatever a search takes is reached from something pending. -/
theorem reaches_of_mem_visit [LawfulEqOrd α] {d : Discipline} {neighbours : α → List α} {a : α}
    {rounds : ℕ} {pending : List α} {seen : FiniteSet α}
    (h : a ∈ visit d neighbours rounds pending seen) :
    ∃ b ∈ pending, Reaches neighbours b a := by
  induction rounds generalizing pending seen with
  | zero => simp [visit] at h
  | succ rounds ih =>
    cases pending with
    | nil => simp [visit] at h
    | cons x pending =>
      rw [visit, List.mem_cons] at h
      obtain rfl | h := h
      · exact ⟨a, .head _, .refl⟩
      · -- What is pending after the round was pending before it, or is a neighbour just discovered.
        obtain ⟨b, hb, hba⟩ := ih h
        rw [Discipline.mem_join, mem_discover_fst] at hb
        obtain ⟨hxb, -⟩ | hb := hb
        · exact ⟨x, .head _, hba.head hxb⟩
        · exact ⟨b, .tail _ hb, hba⟩

/-- What a search knows before a round, `taken` being the elements that it has taken. -/
structure Invariant (neighbours : α → List α) (region taken : Finset α) (rounds : ℕ)
    (pending : List α) (seen : FiniteSet α) : Prop where
  /-- A discovered element has been taken or is pending. -/
  mem_seen : ∀ a, a ∈ seen ↔ a ∈ taken ∨ a ∈ pending
  /-- No element is pending twice. -/
  nodup : pending.Nodup
  /-- What is pending has not been taken. -/
  not_taken : ∀ a ∈ pending, a ∉ taken
  /-- All that has been discovered is in the enclosing region. -/
  seen_mem : ∀ a ∈ seen, a ∈ region
  /-- The enclosing region holds the neighbours of its members. -/
  neighbours_mem : ∀ a ∈ region, ∀ b ∈ neighbours a, b ∈ region
  /-- There are rounds left for all that has not been taken. -/
  card_le : region.card ≤ taken.card + rounds

/-- A round keeps the invariant, with the first pending element among the taken ones. -/
theorem Invariant.round [LawfulEqOrd α] {neighbours : α → List α} {region taken : Finset α}
    {rounds : ℕ} {a : α} {pending : List α} {seen : FiniteSet α}
    (h : Invariant neighbours region taken (rounds + 1) (a :: pending) seen) (d : Discipline) :
    Invariant neighbours region (taken.cons a (h.not_taken a (.head _))) rounds
      (d.join (discover seen (neighbours a)).1 pending) (discover seen (neighbours a)).2 := by
  obtain ⟨ha, hpending⟩ := List.nodup_cons.1 h.nodup
  have hseen : ∀ b ∈ pending, b ∈ seen := fun b hb => (h.mem_seen b).2 (.inr (.tail _ hb))
  have haregion : a ∈ region := h.seen_mem a ((h.mem_seen a).2 (.inr (.head _)))
  refine ⟨fun b => ?_, ?_, fun b hb => ?_, fun b hb => ?_, h.neighbours_mem, ?_⟩
  · -- What is seen: the element moves from the pending ones to the taken ones.
    rw [mem_discover_snd, h.mem_seen, Discipline.mem_join, mem_discover_fst, h.mem_seen,
      Finset.mem_cons, List.mem_cons]
    tauto
  · -- What is pending has been seen, so it is not discovered again.
    refine Discipline.nodup_join nodup_discover_fst hpending fun b hb hb' => ?_
    exact (mem_discover_fst.1 hb).2 (hseen b hb')
  · -- A discovery has not been taken, and is not the element that is taken now.
    rw [Finset.mem_cons]
    rw [Discipline.mem_join, mem_discover_fst, h.mem_seen] at hb
    rintro (rfl | htaken)
    · obtain ⟨-, hfresh⟩ | hb := hb
      · exact hfresh (.inr (.head _))
      · exact ha hb
    · obtain ⟨-, hfresh⟩ | hb := hb
      · exact hfresh (.inl htaken)
      · exact h.not_taken b (.tail _ hb) htaken
  · obtain hb | hb := mem_discover_snd.1 hb
    · exact h.seen_mem b hb
    · exact h.neighbours_mem a haregion b hb
  · -- One element more is taken, and one round less is left.
    have := h.card_le
    rw [Finset.card_cons]
    omega

/-- When the rounds are used up nothing is pending. -/
theorem Invariant.pending_eq_nil {neighbours : α → List α} {region taken : Finset α}
    {pending : List α} {seen : FiniteSet α}
    (h : Invariant neighbours region taken 0 pending seen) : pending = [] := by
  -- All of the region has been taken, and what is pending would be in it without having been taken.
  have htaken : taken ⊆ region := fun a ha => h.seen_mem a ((h.mem_seen a).2 (.inl ha))
  have heq : taken = region := Finset.eq_of_subset_of_card_le htaken h.card_le
  refine List.eq_nil_iff_forall_not_mem.2 fun a ha => h.not_taken a ha ?_
  rw [heq]
  exact h.seen_mem a ((h.mem_seen a).2 (.inr ha))

/-- The rounds of a search take all that is pending, and with an element its neighbours; they take
no element twice and none that was taken before. -/
theorem Invariant.visit_spec [LawfulEqOrd α] {neighbours : α → List α}
    {region taken : Finset α} {rounds : ℕ} {pending : List α} {seen : FiniteSet α}
    (h : Invariant neighbours region taken rounds pending seen) (d : Discipline) :
    (∀ a ∈ pending, a ∈ visit d neighbours rounds pending seen) ∧
      (∀ a ∈ visit d neighbours rounds pending seen, ∀ b ∈ neighbours a,
        b ∈ taken ∨ b ∈ visit d neighbours rounds pending seen) ∧
      (∀ a ∈ visit d neighbours rounds pending seen, a ∉ taken) ∧
      (visit d neighbours rounds pending seen).Nodup := by
  induction rounds generalizing taken pending seen with
  | zero => simp [h.pending_eq_nil, visit]
  | succ rounds ih =>
    cases pending with
    | nil => simp [visit]
    | cons x pending =>
      obtain ⟨hall, hclosed, hfresh, hnodup⟩ := ih (h.round d)
      rw [visit]
      refine ⟨fun a ha => ?_, fun a ha b hb => ?_, fun a ha => ?_, ?_⟩
      · obtain rfl | ha := List.mem_cons.1 ha
        · exact .head _
        · exact .tail _ (hall a (Discipline.mem_join.2 (.inr ha)))
      · obtain rfl | ha := List.mem_cons.1 ha
        · -- A neighbour of the element just taken is pending now, unless it was seen before.
          by_cases hseen : b ∈ seen
          · obtain hb' | hb' := (h.mem_seen b).1 hseen
            · exact .inl hb'
            · obtain rfl | hb' := List.mem_cons.1 hb'
              · exact .inr (.head _)
              · exact .inr (.tail _ (hall b (Discipline.mem_join.2 (.inr hb'))))
          · have : b ∈ (discover seen (neighbours a)).1 := mem_discover_fst.2 ⟨hb, hseen⟩
            exact .inr (.tail _ (hall b (Discipline.mem_join.2 (.inl this))))
        · -- A neighbour of an element taken later may be the one just taken.
          obtain hb' | hb' := hclosed a ha b hb
          · obtain rfl | hb' := Finset.mem_cons.1 hb'
            · exact .inr (.head _)
            · exact .inl hb'
          · exact .inr (.tail _ hb')
      · obtain rfl | ha := List.mem_cons.1 ha
        · exact h.not_taken a (.head _)
        · exact fun htaken => hfresh a ha (Finset.mem_cons.2 (.inr htaken))
      · refine List.nodup_cons.2 ⟨fun hx => ?_, hnodup⟩
        exact hfresh x hx (Finset.mem_cons_self ..)

/-- The invariant holds before the first round. -/
theorem Encloses.invariant [LawfulEqOrd α] {neighbours : α → List α} {region : Finset α}
    {bound : ℕ} {seeds : List α} (h : Encloses neighbours region bound seeds)
    (d : Discipline) :
    Invariant neighbours region ∅ bound (d.join (discover ∅ seeds).1 [])
      (discover ∅ seeds).2 where
  mem_seen a := by
    rw [mem_discover_snd, Discipline.mem_join, mem_discover_fst]
    simp
  nodup := Discipline.nodup_join nodup_discover_fst .nil (by simp)
  not_taken := by simp
  seen_mem a ha := by
    obtain ha | ha := mem_discover_snd.1 ha
    · simp at ha
    · exact h.seeds_mem a ha
  neighbours_mem := h.neighbours_mem
  card_le := by simpa using h.card_le

/-- A search lists what is reached from the seeds. -/
theorem mem_search [LawfulEqOrd α] {neighbours : α → List α} {region : Finset α} {bound : ℕ}
    {seeds : List α} (h : Encloses neighbours region bound seeds) {d : Discipline} {a : α} :
    a ∈ search d neighbours bound seeds ↔ ∃ s ∈ seeds, Reaches neighbours s a := by
  obtain ⟨hall, hclosed, -, -⟩ := (h.invariant d).visit_spec d
  have hjoin {b : α} : b ∈ d.join (discover ∅ seeds).1 [] ↔ b ∈ seeds := by
    rw [Discipline.mem_join, mem_discover_fst]
    simp
  constructor
  · intro ha
    obtain ⟨s, hs, hsa⟩ := reaches_of_mem_visit ha
    exact ⟨s, hjoin.1 hs, hsa⟩
  · rintro ⟨s, hs, hsa⟩
    induction hsa with
    | refl => exact hall s (hjoin.2 hs)
    | tail _ hbc ih => exact (hclosed _ ih _ hbc).resolve_left (by simp)

/-- A search lists nothing twice. -/
theorem nodup_search [LawfulEqOrd α] {neighbours : α → List α} {region : Finset α} {bound : ℕ}
    {seeds : List α} (h : Encloses neighbours region bound seeds) {d : Discipline} :
    (search d neighbours bound seeds).Nodup :=
  ((h.invariant d).visit_spec d).2.2.2

/-! ## Searching without a bound -/

/-- The elements that a search takes, in order, if it goes on until nothing is pending. -/
inductive Exhausts (d : Discipline) (neighbours : α → List α) :
    List α → FiniteSet α → List α → Prop where
  /-- Nothing is pending. -/
  | done (seen : FiniteSet α) : Exhausts d neighbours [] seen []
  /-- The first pending element is taken and its neighbours are discovered. -/
  | take {a : α} {pending out : List α} {seen : FiniteSet α}
      (rest : Exhausts d neighbours (d.join (discover seen (neighbours a)).1 pending)
        (discover seen (neighbours a)).2 out) :
      Exhausts d neighbours (a :: pending) seen (a :: out)

/-- If there are rounds for all that can be discovered, the search goes on until nothing is
pending. -/
theorem Invariant.exhausts [LawfulEqOrd α] {neighbours : α → List α} {region taken : Finset α}
    {rounds : ℕ} {pending : List α} {seen : FiniteSet α}
    (h : Invariant neighbours region taken rounds pending seen) (d : Discipline) :
    Exhausts d neighbours pending seen (visit d neighbours rounds pending seen) := by
  induction rounds generalizing taken pending seen with
  | zero =>
    rw [h.pending_eq_nil]
    exact .done seen
  | succ rounds ih =>
    cases pending with
    | nil => exact .done seen
    | cons a pending => exact .take (ih (h.round d))

/-- A search whose bound suffices goes on until nothing is pending. -/
theorem Encloses.exhausts [LawfulEqOrd α] {neighbours : α → List α} {region : Finset α}
    {bound : ℕ} {seeds : List α} (h : Encloses neighbours region bound seeds) (d : Discipline) :
    Exhausts d neighbours (d.join (discover ∅ seeds).1 []) (discover ∅ seeds).2
      (search d neighbours bound seeds) :=
  (h.invariant d).exhausts d

end FiniteAutomata.Search
