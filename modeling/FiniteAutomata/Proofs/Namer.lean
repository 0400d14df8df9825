import FiniteAutomata.Namer
import FiniteAutomata.State
import Mathlib.Data.String.Basic
import Std.Data.String.ToNat

/-!
# Names of a namer

A name shows its number in decimal digits behind its stem, so the names of one stem are told apart
by their numbers (`nameOf_inj`), and no character but the stem can be anything else than a digit.
A namer that is asked for some names hands them out by their numbers (`handOut_eq_map`). It precedes
whatever it becomes by handing out names, and a name that comes after has not been handed out before
(`Precedes.not_handedOut_advance`).

Numerals without leading zeros are in the order of their numbers when shorter texts come first and
texts of one length go by their characters, and so are names of one stem (`textOrder_nameOf`). By
their characters alone, `q10` comes before `q9`; but the first name comes before all others in that
order too (`compare_nameOf_zero`).
-/

namespace FiniteAutomata.Namer

open Std

/-- A name in characters is its stem and the digits of its number. -/
theorem toList_nameOf (stem : Char) (n : Nat) :
    (nameOf stem n).toList = stem :: Nat.toDigits 10 n := by
  show (String.singleton stem ++ Nat.repr n).toList = _
  rw [String.toList_append, String.toList_singleton, Nat.toList_repr]
  rfl

/-- Numbers are told apart by their digits. -/
theorem toDigits_injective : Function.Injective (Nat.toDigits 10) := by
  intro m n h
  apply Nat.repr_injective
  rw [← String.toList_inj, Nat.toList_repr, Nat.toList_repr, h]

/-- Names with one stem are equal only if their numbers are. -/
theorem nameOf_inj {stem : Char} {m n : Nat} : nameOf stem m = nameOf stem n ↔ m = n := by
  refine ⟨fun h => ?_, fun h => h ▸ rfl⟩
  have hdigits := congrArg String.toList h
  rw [toList_nameOf, toList_nameOf, List.cons_inj_right] at hdigits
  exact toDigits_injective hdigits

/-- A namer has handed a name out. -/
def HandedOut (namer : Namer) (q : String) : Prop :=
  ∃ n < namer.next, q = nameOf namer.stem n

/-- Names to come have not been handed out. -/
theorem not_handedOut_advance (namer : Namer) (count : Nat) :
    ¬ namer.HandedOut (namer.advance count).name := by
  rintro ⟨n, hn, hname⟩
  have : namer.next + count = n := nameOf_inj.1 hname
  omega

/-- Some names and then some more are handed out as all of them at once. -/
theorem advance_advance (namer : Namer) (count count' : Nat) :
    (namer.advance count).advance count' = namer.advance (count + count') := by
  rw [advance, advance, advance, Nat.add_assoc]

/-- The names that a namer hands out when it is asked for some, one after the other. -/
def handOut (namer : Namer) : Nat → List String
  | 0 => []
  | count + 1 => namer.name :: (namer.advance 1).handOut count

/-- Each name is the one of the namer after it has handed out the names before. -/
theorem handOut_eq_map (namer : Namer) (count : Nat) :
    namer.handOut count = (List.range count).map fun i => (namer.advance i).name := by
  induction count generalizing namer with
  | zero => rfl
  | succ count ih =>
    rw [handOut, ih, List.range_succ_eq_map, List.map_cons, List.map_map]
    refine congrArg (namer.name :: ·) (List.map_congr_left fun i _ => ?_)
    rw [advance_advance, Nat.add_comm]
    rfl

/-- A name that is handed out shows the stem and a number. -/
theorem exists_nameOf_eq_of_mem_handOut {namer : Namer} {count : Nat} {q : String}
    (h : q ∈ namer.handOut count) : ∃ n, nameOf namer.stem n = q := by
  rw [handOut_eq_map, List.mem_map] at h
  obtain ⟨i, -, hname⟩ := h
  exact ⟨namer.next + i, hname⟩

/-- What has been handed out is what had been handed out before some names were, and these. -/
theorem handedOut_advance_iff {namer : Namer} {count : Nat} {q : String} :
    (namer.advance count).HandedOut q ↔ namer.HandedOut q ∨ q ∈ namer.handOut count := by
  rw [handOut_eq_map, List.mem_map]
  constructor
  · rintro ⟨n, hn, rfl⟩
    replace hn : n < namer.next + count := hn
    obtain hlt | hle := Nat.lt_or_ge n namer.next
    · exact .inl ⟨n, hlt, rfl⟩
    · refine .inr ⟨n - namer.next, List.mem_range.2 (by omega), ?_⟩
      exact congrArg (nameOf namer.stem) (Nat.add_sub_of_le hle)
  · rintro (⟨n, hn, rfl⟩ | ⟨i, hi, rfl⟩)
    · exact ⟨n, Nat.lt_add_right count hn, rfl⟩
    · exact ⟨namer.next + i, Nat.add_lt_add_left (List.mem_range.1 hi) _, rfl⟩

/-- A namer becomes another one when it hands out some names. -/
def Precedes (n m : Namer) : Prop := ∃ count, n.advance count = m

/-- A namer becomes itself when it hands out nothing. -/
theorem Precedes.refl (n : Namer) : n.Precedes n := ⟨0, rfl⟩

/-- Names are handed out after one another. -/
theorem Precedes.trans {n m k : Namer} (h : n.Precedes m) (h' : m.Precedes k) : n.Precedes k := by
  obtain ⟨count, rfl⟩ := h
  obtain ⟨count', rfl⟩ := h'
  exact ⟨count + count', (n.advance_advance count count').symm⟩

/-- The stem stays. -/
theorem Precedes.stem_eq {n m : Namer} (h : n.Precedes m) : m.stem = n.stem := by
  obtain ⟨count, rfl⟩ := h
  rfl

/-- A name that has been handed out stays so. -/
theorem Precedes.handedOut {n m : Namer} (h : n.Precedes m) {q : String} (hq : n.HandedOut q) :
    m.HandedOut q := by
  obtain ⟨count, rfl⟩ := h
  exact handedOut_advance_iff.2 (.inl hq)

/-- Names to come after some have been handed out had not been handed out before. -/
theorem Precedes.not_handedOut_advance {n m : Namer} (h : n.Precedes m) (count : Nat) :
    ¬ n.HandedOut (m.advance count).name :=
  fun hq => m.not_handedOut_advance count (h.handedOut hq)

/-- The next two names are different. -/
theorem name_ne_name_advance (namer : Namer) : namer.name ≠ (namer.advance 1).name := by
  intro h
  have : namer.next = namer.next + 1 := nameOf_inj.1 h
  omega

/-- A character that is neither the stem nor a digit is not in a name. -/
theorem not_mem_toList_nameOf {stem c : Char} (hstem : c ≠ stem) (hc : c.isDigit = false)
    (n : Nat) : c ∉ (nameOf stem n).toList := by
  rw [toList_nameOf, List.mem_cons]
  rintro (h | h)
  · exact hstem h
  · have : c.isDigit = true := Nat.isDigit_of_mem_toDigits (by decide) (by decide) h
    rw [hc] at this
    contradiction

/-! ## The order of names -/

/-- Digits are in the order of their values. -/
theorem digitChar_lt_digitChar {m n : Nat} (h : m < n) (hn : n < 10) :
    m.digitChar < n.digitChar := by
  rw [Char.lt_def, UInt32.lt_iff_toNat_lt]
  show m.digitChar.toNat < n.digitChar.toNat
  rw [Nat.toNat_digitChar_of_lt_ten (h.trans hn), Nat.toNat_digitChar_of_lt_ten hn]
  omega

/-- Equally long beginnings that differ decide the order of two lists of characters. -/
theorem append_lt_append {k l : List Char} (h : k < l) (hlength : k.length = l.length)
    (u v : List Char) : k ++ u < l ++ v := by
  induction k generalizing l with
  | nil =>
    rw [List.length_nil, eq_comm, List.length_eq_zero_iff] at hlength
    simp [hlength] at h
  | cons c k ih =>
    cases l with
    | nil => simp at h
    | cons d l =>
      rw [List.cons_append, List.cons_append, List.cons_lt_cons_iff]
      obtain hcd | ⟨rfl, hkl⟩ := List.cons_lt_cons_iff.1 h
      · exact .inl hcd
      · exact .inr ⟨rfl, ih hkl (Nat.succ.inj hlength)⟩

/-- Equally long numerals are in the order of their numbers. -/
theorem toDigits_lt_toDigits {m n : Nat} (h : m < n)
    (hlength : (Nat.toDigits 10 m).length = (Nat.toDigits 10 n).length) :
    Nat.toDigits 10 m < Nat.toDigits 10 n := by
  induction n using Nat.strongRecOn generalizing m with
  | ind n ih =>
    by_cases hn : n < 10
    · rw [Nat.toDigits_of_lt_base hn, Nat.toDigits_of_lt_base (h.trans hn),
        List.cons_lt_cons_iff]
      exact .inl (digitChar_lt_digitChar h hn)
    · -- Both numerals end in a digit, and what stands before it is as long in both.
      have hndigits := Nat.toDigits_of_base_le (b := 10) (n := n) (by decide) (by omega)
      have hm : ¬m < 10 := by
        intro hm
        have := @Nat.length_toDigits_pos 10 (n / 10)
        rw [Nat.toDigits_of_lt_base hm, hndigits, List.length_append] at hlength
        simp only [List.length_singleton] at hlength
        omega
      have hmdigits := Nat.toDigits_of_base_le (b := 10) (n := m) (by decide) (by omega)
      rw [hmdigits, hndigits] at hlength ⊢
      rw [List.length_append, List.length_append] at hlength
      have hlead := Nat.add_right_cancel hlength
      obtain hlt | heq := Nat.lt_or_eq_of_le (Nat.div_le_div_right (c := 10) h.le)
      · exact append_lt_append (ih (n / 10) (by omega) hlt hlead) hlead _ _
      · rw [heq]
        apply List.append_left_lt
        rw [List.cons_lt_cons_iff]
        exact .inl (digitChar_lt_digitChar (by omega) (by omega))

/-- Larger numbers have numerals that are as long or longer. -/
theorem length_toDigits_le_length_toDigits {m n : Nat} (h : m ≤ n) :
    (Nat.toDigits 10 m).length ≤ (Nat.toDigits 10 n).length := by
  have hn := (Nat.length_toDigits_le_iff (b := 10) (n := n) (by decide)
    Nat.length_toDigits_pos).1 le_rfl
  exact (Nat.length_toDigits_le_iff (by decide) Nat.length_toDigits_pos).2 (h.trans_lt hn)

/-- Digits take one byte each. -/
theorem utf8Len_of_forall_isDigit {cs : List Char} (h : ∀ c ∈ cs, c.isDigit = true) :
    String.utf8Len cs = cs.length := by
  induction cs with
  | nil => rfl
  | cons c cs ih =>
    have hc : c.utf8Size = 1 := by
      have := h c (.head _)
      rw [Char.utf8Size_eq_one_iff]
      simp [Char.isDigit, UInt32.le_iff_toNat_le] at this ⊢
      omega
    rw [String.utf8Len_cons, ih fun d hd => h d (.tail _ hd), hc, List.length_cons]

/-- A name takes the bytes of its stem and one for each digit. -/
theorem utf8ByteSize_nameOf (stem : Char) (n : Nat) :
    (nameOf stem n).utf8ByteSize = stem.utf8Size + (Nat.toDigits 10 n).length := by
  rw [← String.ofList_toList (s := nameOf stem n), toList_nameOf, String.utf8ByteSize_ofList,
    String.utf8Len_cons, Nat.add_comm, utf8Len_of_forall_isDigit]
  exact fun c hc => Nat.isDigit_of_mem_toDigits (by decide) (by decide) hc

/-- The numeral of zero precedes that of a larger number. -/
theorem toDigits_zero_lt {n : Nat} (h : 0 < n) : Nat.toDigits 10 0 < Nat.toDigits 10 n := by
  induction n using Nat.strongRecOn with
  | ind n ih =>
    by_cases hn : n < 10
    · exact toDigits_lt_toDigits h (by rw [Nat.toDigits_of_lt_base hn]; rfl)
    · rw [Nat.toDigits_of_base_le (n := n) (by decide) (by omega)]
      exact (ih (n / 10) (by omega) (by omega)).append_right _ _

/-- Names of one stem are in the order of their numerals. -/
theorem nameOf_lt_nameOf (stem : Char) {m n : Nat} (h : Nat.toDigits 10 m < Nat.toDigits 10 n) :
    nameOf stem m < nameOf stem n := by
  rw [String.lt_iff_toList_lt, toList_nameOf, toList_nameOf, List.cons_lt_cons_iff]
  exact .inr ⟨rfl, h⟩

/-- The first name precedes all other names of its stem. -/
theorem compare_nameOf_zero (stem : Char) {n : Nat} (h : 0 < n) :
    compare (nameOf stem 0) (nameOf stem n) = .lt :=
  compareOfLessAndEq_eq_lt.2 (nameOf_lt_nameOf stem (toDigits_zero_lt h))

/-- Names of one stem are in the order of their numbers when shorter texts come first. -/
theorem textOrder_nameOf (stem : Char) {m n : Nat} (h : m < n) :
    textOrder (nameOf stem m) (nameOf stem n) = .lt := by
  rw [textOrder, compareLex, compareOn, utf8ByteSize_nameOf, utf8ByteSize_nameOf,
    Ordering.then_eq_lt]
  obtain hlt | heq := Nat.lt_or_eq_of_le (length_toDigits_le_length_toDigits h.le)
  · exact .inl (Nat.compare_eq_lt.2 (Nat.add_lt_add_left hlt _))
  · refine .inr ⟨by rw [heq]; exact ReflCmp.compare_self, ?_⟩
    exact compareOfLessAndEq_eq_lt.2 (nameOf_lt_nameOf stem (toDigits_lt_toDigits h heq))

/-- Of two names of one stem the one with the smaller number comes first. -/
theorem textOrder_nameOf_eq_lt_iff {stem : Char} {m n : Nat} :
    textOrder (nameOf stem m) (nameOf stem n) = .lt ↔ m < n := by
  refine ⟨fun h => ?_, textOrder_nameOf stem⟩
  by_contra! hle
  obtain hlt | rfl := Nat.lt_or_eq_of_le hle
  · rw [OrientedCmp.gt_of_lt (textOrder_nameOf stem hlt)] at h
    contradiction
  · have hself : textOrder (nameOf stem n) (nameOf stem n) = .eq := ReflCmp.compare_self
    rw [hself] at h
    contradiction

end FiniteAutomata.Namer
