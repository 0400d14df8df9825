import FiniteAutomata.FiniteSet
import Mathlib.Data.Finset.Powerset

/-!
# Sizes and images of finite sets

A finite set has as many members as it has elements in order, so it is a `Finset` of its size
(`card_toFinset`). The sets whose members lie in a set of `n` elements are `2 ^ n` in number
(`card_subsets`), which bounds every family of such sets.

A function that is injective on the members keeps their number (`perm_toList_image`), and sets are
told apart by their images where it is injective (`image_inj`).
-/

namespace FiniteAutomata.FiniteSet

open Std

/-- Of two elements, only one comes before the other. -/
theorem asymm_lt {α : Type} (cmp : α → α → Ordering) [OrientedCmp cmp] :
    Std.Asymm fun a b => cmp a b = .lt :=
  ⟨fun a b hab hba => by rw [OrientedCmp.gt_of_lt hab] at hba; contradiction⟩

variable {α : Type} [Ord α] [TransOrd α]

/-- A set with a member is not empty. -/
theorem ne_empty_of_mem {X : FiniteSet α} {a : α} (h : a ∈ X) : X ≠ ∅ := by
  rintro rfl
  exact ExtTreeSet.not_mem_empty h

/-- A set that is not empty has a member. -/
theorem exists_mem_of_ne_empty {X : FiniteSet α} (h : X ≠ ∅) : ∃ a, a ∈ X := by
  by_contra! hnone
  exact h (ExtTreeSet.eq_empty_iff_forall_not_mem.2 hnone)

/-- The elements of a set in order are distinct. -/
theorem nodup_toList (X : FiniteSet α) : X.toList.Nodup := by
  refine X.distinct_toList.imp fun {a b} h hab => h ?_
  rw [hab]
  exact ReflCmp.compare_self

/-- The set without its order. -/
def toFinset (X : FiniteSet α) : Finset α := ⟨X.toList, nodup_toList X⟩

/-- The number of members is the size. -/
theorem card_toFinset (X : FiniteSet α) : X.toFinset.card = X.size := X.length_toList

variable [LawfulEqOrd α]

/-- Forgetting the order keeps the members. -/
theorem mem_toFinset {X : FiniteSet α} {a : α} : a ∈ X.toFinset ↔ a ∈ X := by
  rw [← Finset.mem_coe]
  exact X.mem_toList

/-- A set with one member has this as its only element in order. -/
theorem toList_eq_singleton {X : FiniteSet α} {a : α} (h : ∀ b, b ∈ X ↔ b = a) :
    X.toList = [a] := by
  have hperm : X.toList.Perm [a] := by
    rw [List.perm_ext_iff_of_nodup (nodup_toList X) (List.nodup_singleton a)]
    intro b
    rw [ExtTreeSet.mem_toList, h, List.mem_singleton]
  exact List.perm_singleton.1 hperm

/-- The set with the members of a `Finset`. -/
noncomputable def ofFinset (s : Finset α) : FiniteSet α := ExtTreeSet.ofList s.toList

/-- Putting members in order keeps them. -/
theorem mem_ofFinset {s : Finset α} {a : α} : a ∈ ofFinset s ↔ a ∈ s := by
  rw [ofFinset, mem_ofList_iff, Finset.mem_toList]

/-- Sets in order are told apart by their members. -/
theorem ofFinset_injective : Function.Injective (ofFinset : Finset α → FiniteSet α) := by
  intro s t h
  ext a
  rw [← mem_ofFinset, h, mem_ofFinset]

/-- The sets whose members all lie in a given set. -/
noncomputable def subsets (X : FiniteSet α) : Finset (FiniteSet α) :=
  X.toFinset.powerset.map ⟨ofFinset, ofFinset_injective⟩

/-- A set is among the subsets when its members are members. -/
theorem mem_subsets {X Y : FiniteSet α} : Y ∈ X.subsets ↔ ∀ a ∈ Y, a ∈ X := by
  rw [subsets, Finset.mem_map]
  constructor
  · rintro ⟨s, hs, rfl⟩ a ha
    exact mem_toFinset.1 (Finset.mem_powerset.1 hs (mem_ofFinset.1 ha))
  · intro h
    refine ⟨Y.toFinset, Finset.mem_powerset.2 fun a ha => ?_, ?_⟩
    · exact mem_toFinset.2 (h a (mem_toFinset.1 ha))
    · exact ExtTreeSet.ext_mem fun a => by
        rw [Function.Embedding.coeFn_mk, mem_ofFinset, mem_toFinset]

/-- A set of `n` elements has `2 ^ n` subsets. -/
theorem card_subsets (X : FiniteSet α) : X.subsets.card = 2 ^ X.size := by
  rw [subsets, Finset.card_map, Finset.card_powerset, card_toFinset]

/-- A set of `n` elements has `2 ^ n - 1` subsets with a member. -/
theorem card_erase_subsets [DecidableEq (FiniteSet α)] (X : FiniteSet α) :
    (X.subsets.erase ∅).card = 2 ^ X.size - 1 := by
  have hempty : ∅ ∈ X.subsets := mem_subsets.2 fun a ha => absurd ha ExtTreeSet.not_mem_empty
  rw [Finset.card_erase_of_mem hempty, card_subsets]

/-! ## Images -/

variable {β : Type} [Ord β] [TransOrd β] [LawfulEqOrd β] {f : α → β} {X Y : FiniteSet α}

/-- The elements of an image under a function that is injective on the set are the images of the
elements, up to their order. -/
theorem perm_toList_image (hf : Set.InjOn f {a | a ∈ X}) :
    (image f X).toList.Perm (X.toList.map f) := by
  have hnodup : (X.toList.map f).Nodup := (nodup_toList X).map_on fun a ha b hb =>
    hf (ExtTreeSet.mem_toList.1 ha) (ExtTreeSet.mem_toList.1 hb)
  rw [List.perm_ext_iff_of_nodup (nodup_toList _) hnodup]
  intro b
  rw [ExtTreeSet.mem_toList, mem_image, List.mem_map]
  simp only [ExtTreeSet.mem_toList]

/-- Only the empty set has an empty image. -/
theorem image_eq_empty_iff : image f X = ∅ ↔ X = ∅ := by
  simp [ExtTreeSet.eq_empty_iff_forall_not_mem, mem_image]

/-- Where the function is injective, members of a set are members of every set with the same
image. -/
theorem mem_of_image_eq (hf : Set.InjOn f {a | a ∈ X ∨ a ∈ Y}) (h : image f X = image f Y) {a : α}
    (ha : a ∈ X) : a ∈ Y := by
  have himage : f a ∈ image f Y := h ▸ mem_image.2 ⟨a, ha, rfl⟩
  obtain ⟨b, hb, hab⟩ := mem_image.1 himage
  exact hf (.inr hb) (.inl ha) hab ▸ hb

/-- Sets are told apart by their images where the function is injective. -/
theorem image_inj (hf : Set.InjOn f {a | a ∈ X ∨ a ∈ Y}) (h : image f X = image f Y) : X = Y :=
  ExtTreeSet.ext_mem fun _ =>
    ⟨mem_of_image_eq hf h, mem_of_image_eq (hf.mono fun _ => Or.symm) h.symm⟩

end FiniteAutomata.FiniteSet
