import FiniteAutomata.Text.Quoted

/-!
# States and their texts

A state is a value of any lawfully ordered type whose values can be written. Texts, whole numbers
and characters serve as states; their texts tell them apart. `nameOrder` compares states by their
texts alone, shorter ones first.
-/

namespace FiniteAutomata

open Std

/-- The written forms of a state. -/
class StateText (σ : Type) where
  /-- The state as it is shown. -/
  text : σ → String
  /-- The state as messages show it, between quotes where its text may hold anything. -/
  quoted : σ → String

instance : StateText String := ⟨id, Text.quoted⟩

instance : StateText Char := ⟨String.singleton, Text.quotedChar⟩

instance : StateText Int := ⟨toString, toString⟩

/-- The order of two texts by their length in bytes, and then by their characters. -/
def textOrder : String → String → Ordering :=
  compareLex (compareOn String.utf8ByteSize) compare

instance : TransCmp textOrder := inferInstanceAs (TransCmp (compareLex _ _))

/-- The order of two states by their texts, in which `q9` comes before `q10`. -/
def nameOrder {σ : Type} [StateText σ] : σ → σ → Ordering :=
  fun q r => textOrder (StateText.text q) (StateText.text r)

instance {σ : Type} [StateText σ] : TransCmp (nameOrder : σ → σ → Ordering) where
  eq_swap {q r} := @OrientedCmp.eq_swap _ textOrder _ (StateText.text q) (StateText.text r)
  isLE_trans {q r s} := @TransCmp.isLE_trans _ textOrder _ (StateText.text q) (StateText.text r)
    (StateText.text s)

end FiniteAutomata
