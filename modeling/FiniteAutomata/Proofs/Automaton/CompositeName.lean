import FiniteAutomata.Automaton.Determinize
import FiniteAutomata.Proofs.Delimiter
import FiniteAutomata.Proofs.Namer
import FiniteAutomata.Proofs.StateText
import Mathlib.Data.Set.Function

/-!
# Names of sets of states

A set of states is named by the texts of its members between braces, parted by commas. No name is
that of the trap, which starts with a letter. If each text shows where it ends, the texts are read
back from the name, so non-empty sets are told apart by their names (`namesIdentify_of_endAt`). The
empty set may share its name with the set of the empty text.

Texts without a comma end at the next comma. A single character ends after one place, even if it is
the comma. A name of a namer ends at the first comma behind its stem, even if the stem is the comma,
because there are only digits between. In this way names identify the sets of numbers, of
characters, of texts without a comma and of names of one stem (`names_identify_sets`).
-/

namespace FiniteAutomata

open Std

variable {σ : Type} [StateText σ]

/-- The name of a list of states in characters. -/
theorem toList_compositeName (states : List σ) :
    (compositeName states).toList =
      '\x7b' :: [','].intercalate (states.map fun q => (StateText.text q).toList) ++ ['\x7d'] := by
  unfold compositeName
  rw [String.toList_append, String.toList_append, String.toList_intercalate, List.map_map]
  rfl

/-- No list of states has the name of the trap. -/
theorem compositeName_ne_trapName (states : List σ) : compositeName states ≠ trapName := by
  intro h
  have hlist := congrArg String.toList h
  rw [toList_compositeName] at hlist
  have : '\x7b' = 'T' := (List.cons.inj hlist).1
  revert this
  decide

/-- Lists of states whose texts end at commas are told apart by their names, if the texts tell the
states apart. -/
theorem compositeName_injOn {states : Set σ}
    (hinj : Function.Injective (StateText.text : σ → String))
    (hend : EndAt ',' ((fun q => (StateText.text q).toList) '' states)) :
    Set.InjOn compositeName {xs : List σ | xs ≠ [] ∧ ∀ q ∈ xs, q ∈ states} := by
  rintro xs ⟨hx, hxs⟩ ys ⟨hy, hys⟩ h
  have hlist := congrArg String.toList h
  rw [toList_compositeName, toList_compositeName] at hlist
  have hinner := List.append_cancel_right (List.cons.inj hlist).2
  -- The texts are read back from what stands between the braces.
  have htexts := hend.eq_of_intercalate_eq (by simpa using hx) (by simpa using hy)
    (List.forall_mem_map.2 fun q hq => Set.mem_image_of_mem _ (hxs q hq))
    (List.forall_mem_map.2 fun q hq => Set.mem_image_of_mem _ (hys q hq)) hinner
  exact List.map_injective_iff.2 (fun _ _ heq => hinj (String.toList_inj.1 heq)) htexts

/-! ## Sets that are identified by their names -/

variable [Ord σ] [TransOrd σ]

/-- Names identify the sets of some states: non-empty ones have different names, none of which is
that of the trap. -/
structure NamesIdentify (states : Set σ) : Prop where
  /-- Different non-empty sets have different names. -/
  injOn_name : Set.InjOn FiniteSet.name {X : FiniteSet σ | X ≠ ∅ ∧ ∀ q ∈ X, q ∈ states}
  /-- No non-empty set has the name of the trap. -/
  name_ne_trapName : ∀ X : FiniteSet σ, X ≠ ∅ → (∀ q ∈ X, q ∈ states) → X.name ≠ trapName

variable [LawfulEqOrd σ]

/-- Names identify the sets of states whose texts end at commas, if the texts tell the states
apart. -/
theorem namesIdentify_of_endAt {states : Set σ}
    (hinj : Function.Injective (StateText.text : σ → String))
    (hend : EndAt ',' ((fun q => (StateText.text q).toList) '' states)) :
    NamesIdentify states where
  injOn_name := by
    have hmembers {X : FiniteSet σ} (hX : X ≠ ∅ ∧ ∀ q ∈ X, q ∈ states) :
        X.toList ≠ [] ∧ ∀ q ∈ X.toList, q ∈ states :=
      ⟨mt ExtTreeSet.toList_eq_nil_iff.1 hX.1, fun q hq => hX.2 q (ExtTreeSet.mem_toList.1 hq)⟩
    intro X hX Y hY h
    exact ExtTreeSet.toList_inj.1 (compositeName_injOn hinj hend (hmembers hX) (hmembers hY) h)
  name_ne_trapName X _ _ := compositeName_ne_trapName X.toList

/-- Names identify the sets of states whose texts have no comma, if the texts tell the states
apart. -/
theorem namesIdentify_of_comma_free {states : Set σ}
    (hinj : Function.Injective (StateText.text : σ → String))
    (h : ∀ q ∈ states, ',' ∉ (StateText.text q).toList) : NamesIdentify states :=
  namesIdentify_of_endAt hinj (endAt_of_not_mem (Set.forall_mem_image.2 h))

/-- Names identify the sets of names of one stem. -/
theorem namesIdentify_of_nameOf {states : Set String} (stem : Char)
    (h : ∀ q ∈ states, ∃ n, Namer.nameOf stem n = q) : NamesIdentify states := by
  have hdigits : EndAt ',' (Set.range (Nat.toDigits 10)) := by
    refine endAt_of_not_mem (Set.forall_mem_range.2 fun n hcomma => ?_)
    have : (',').isDigit = true := Nat.isDigit_of_mem_toDigits (by decide) (by decide) hcomma
    contradiction
  refine namesIdentify_of_endAt Function.injective_id ?_
  -- Behind the stem, which may be a comma, the digits end at the next one.
  refine (hdigits.image_cons stem).mono ?_
  rintro _ ⟨q, hq, rfl⟩
  obtain ⟨n, rfl⟩ := h q hq
  exact ⟨_, ⟨n, rfl⟩, (Namer.toList_nameOf stem n).symm⟩

/-- Names identify the sets of numbers, whose numerals have no comma. -/
theorem namesIdentify_int : NamesIdentify (Set.univ : Set Int) := by
  refine namesIdentify_of_comma_free text_int_injective fun i _ hcomma => ?_
  obtain hsign | hdigit := eq_or_isDigit_of_mem_text_int hcomma
  · contradiction
  · contradiction

/-- Names identify the sets of characters, which take one place each. -/
theorem namesIdentify_char : NamesIdentify (Set.univ : Set Char) := by
  refine namesIdentify_of_endAt text_char_injective (endAt_of_length_eq (n := 1) ?_)
  exact Set.forall_mem_image.2 fun c _ => congrArg List.length (String.toList_singleton c)

/-- Names identify the non-empty sets of numbers, of characters, of texts without a comma, and of
names that namers of one stem hand out. -/
theorem names_identify_sets :
    NamesIdentify (Set.univ : Set Int) ∧ NamesIdentify (Set.univ : Set Char) ∧
      NamesIdentify {q : String | ',' ∉ q.toList} ∧
      ∀ stem, NamesIdentify
        {q | ∃ (namer : Namer) (count : ℕ), namer.stem = stem ∧ q ∈ namer.handOut count} := by
  refine ⟨namesIdentify_int, namesIdentify_char, ?_, fun stem => ?_⟩
  · exact namesIdentify_of_comma_free Function.injective_id fun q hq => hq
  · refine namesIdentify_of_nameOf stem ?_
    rintro q ⟨namer, count, rfl, hq⟩
    exact Namer.exists_nameOf_eq_of_mem_handOut hq

-- The empty set cannot be told from the set of the empty text, nor two texts from one with a comma.
example : compositeName ([] : List String) = compositeName [""] := by decide

example : compositeName ["a", "b"] = compositeName ["a,b"] := by decide

end FiniteAutomata
