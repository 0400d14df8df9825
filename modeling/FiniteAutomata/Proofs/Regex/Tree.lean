import FiniteAutomata.Regex.Token
import Mathlib.Computability.Language

/-!
# Syntax trees

A syntax tree says what an expression means: its language. The tokens of a tree in postfix order
are read back by a stack of trees (`foldlM_push_postorder`), so a tree is known by them
(`postorder_injective`).
-/

open scoped Computability

namespace FiniteAutomata.Regex

/-- The syntax tree of an expression. -/
inductive Tree where
  /-- A letter. -/
  | symbol (c : Char)
  /-- Either operand. -/
  | union (left right : Tree)
  /-- One operand after the other. -/
  | concat (left right : Tree)
  /-- Any number of repetitions. -/
  | star (inner : Tree)
  /-- One repetition or more. -/
  | plus (inner : Tree)
  deriving DecidableEq

namespace Tree

/-- The words that an expression stands for. -/
def language : Tree → Language Char
  | symbol c => {[c]}
  | union left right => left.language + right.language
  | concat left right => left.language * right.language
  | star inner => inner.language∗
  | plus inner => inner.language * inner.language∗

/-- The tokens of a tree in postfix order: an operator follows its operands. -/
def postorder : Tree → List Token
  | symbol c => [.symbol c]
  | union left right => left.postorder ++ right.postorder ++ [.operator .union]
  | concat left right => left.postorder ++ right.postorder ++ [.operator .concat]
  | star inner => inner.postorder ++ [.operator .star]
  | plus inner => inner.postorder ++ [.operator .plus]

/-- Takes a token in postfix order with a stack of trees, the latest first. A symbol is put on the
stack, and an operator replaces its operands there; a token that finds too few fails, and so does a
parenthesis. -/
def push : List Tree → Token → Option (List Tree)
  | trees, .symbol c => some (symbol c :: trees)
  | right :: left :: trees, .operator .union => some (union left right :: trees)
  | right :: left :: trees, .operator .concat => some (concat left right :: trees)
  | inner :: trees, .operator .star => some (star inner :: trees)
  | inner :: trees, .operator .plus => some (plus inner :: trees)
  | _, _ => none

/-- Taking the tokens of a tree in postfix order puts the tree on the stack. -/
theorem foldlM_push_postorder (e : Tree) (trees : List Tree) :
    e.postorder.foldlM push trees = some (e :: trees) := by
  induction e generalizing trees with
  | symbol c => rfl
  | union left right hl hr =>
    rw [postorder, List.foldlM_append, List.foldlM_append, hl]
    show ((right.postorder.foldlM push (left :: trees)).bind _) = _
    rw [hr]
    rfl
  | concat left right hl hr =>
    rw [postorder, List.foldlM_append, List.foldlM_append, hl]
    show ((right.postorder.foldlM push (left :: trees)).bind _) = _
    rw [hr]
    rfl
  | star inner ih =>
    rw [postorder, List.foldlM_append, ih]
    rfl
  | plus inner ih =>
    rw [postorder, List.foldlM_append, ih]
    rfl

/-- What has been taken is kept: the trees on the stack are the tokens in postfix order. -/
theorem flatMap_postorder_of_push {trees trees' : List Tree} {t : Token}
    (h : push trees t = some trees') :
    trees.reverse.flatMap postorder ++ [t] = trees'.reverse.flatMap postorder := by
  cases t with
  | symbol c =>
    obtain rfl := Option.some.inj h
    simp [postorder]
  | opening | closing => cases trees <;> contradiction
  | operator o =>
    cases o with
    | union | concat =>
      match trees with
      | [] => contradiction
      | [_] => contradiction
      | right :: left :: rest =>
        obtain rfl := Option.some.inj h
        simp [postorder]
    | star | plus =>
      cases trees with
      | nil => contradiction
      | cons inner rest =>
        obtain rfl := Option.some.inj h
        simp [postorder]

/-- Taking tokens appends them to those that the trees on the stack keep. -/
theorem flatMap_postorder_of_foldlM_push {ts : List Token} {trees trees' : List Tree}
    (h : ts.foldlM push trees = some trees') :
    trees.reverse.flatMap postorder ++ ts = trees'.reverse.flatMap postorder := by
  induction ts generalizing trees with
  | nil =>
    obtain rfl := Option.some.inj h
    exact List.append_nil _
  | cons t ts ih =>
    rw [List.foldlM_cons] at h
    obtain ⟨next, hpush, hrest⟩ := Option.bind_eq_some_iff.1 h
    rw [← ih hrest, ← flatMap_postorder_of_push hpush, List.append_assoc, List.singleton_append]

/-- Tokens leave one tree on the stack exactly if they are that tree in postfix order. -/
theorem foldlM_push_eq_singleton_iff {ts : List Token} {e : Tree} :
    ts.foldlM push [] = some [e] ↔ ts = e.postorder := by
  constructor
  · intro h
    simpa using flatMap_postorder_of_foldlM_push h
  · rintro rfl
    exact foldlM_push_postorder e []

/-- A tree is known by its tokens in postfix order. -/
theorem postorder_injective : Function.Injective postorder := by
  intro d e h
  have hd := foldlM_push_postorder d []
  rw [h, foldlM_push_postorder e []] at hd
  exact (List.cons.inj (Option.some.inj hd)).1.symm

/-- A tree has a symbol. -/
theorem exists_symbol_mem_postorder (e : Tree) : ∃ c, .symbol c ∈ e.postorder := by
  induction e with
  | symbol c => exact ⟨c, .head _⟩
  | union left right hl _ | concat left right hl _ =>
    obtain ⟨c, hc⟩ := hl
    exact ⟨c, List.mem_append_left _ (List.mem_append_left _ hc)⟩
  | star inner ih | plus inner ih =>
    obtain ⟨c, hc⟩ := ih
    exact ⟨c, List.mem_append_left _ hc⟩

/-- A tree stands for some word. -/
theorem exists_mem_language (e : Tree) : ∃ w, w ∈ e.language := by
  induction e with
  | symbol c => exact ⟨[c], rfl⟩
  | union left right hl _ =>
    obtain ⟨w, hw⟩ := hl
    exact ⟨w, .inl hw⟩
  | concat left right hl hr =>
    obtain ⟨u, hu⟩ := hl
    obtain ⟨v, hv⟩ := hr
    exact ⟨u ++ v, Language.append_mem_mul hu hv⟩
  | star inner _ => exact ⟨[], Language.nil_mem_kstar _⟩
  | plus inner ih =>
    obtain ⟨w, hw⟩ := ih
    exact ⟨w ++ [], Language.append_mem_mul hw (Language.nil_mem_kstar _)⟩

/-- A symbol of a repetition is a symbol of a word that is repeated. -/
theorem exists_mem_of_mem_kstar {L : Language Char} {w : List Char} (hw : w ∈ L∗) {c : Char}
    (hc : c ∈ w) : ∃ u ∈ L, c ∈ u := by
  obtain ⟨words, rfl, hwords⟩ := Language.mem_kstar.1 hw
  obtain ⟨u, hu, hcu⟩ := List.mem_flatten.1 hc
  exact ⟨u, hwords u hu, hcu⟩

/-- The symbols of the words in the language are symbols of the tree. -/
theorem symbol_mem_postorder {e : Tree} {w : List Char} (hw : w ∈ e.language) {c : Char}
    (hc : c ∈ w) : .symbol c ∈ e.postorder := by
  induction e generalizing w with
  | symbol d =>
    obtain rfl : w = [d] := hw
    obtain rfl := List.mem_singleton.1 hc
    exact .head _
  | union left right hl hr =>
    rw [postorder, List.mem_append, List.mem_append]
    rcases (Language.mem_add _ _ _).1 hw with hw | hw
    · exact .inl (.inl (hl hw hc))
    · exact .inl (.inr (hr hw hc))
  | concat left right hl hr =>
    rw [postorder, List.mem_append, List.mem_append]
    obtain ⟨u, hu, v, hv, rfl⟩ := Language.mem_mul.1 hw
    rcases List.mem_append.1 hc with hc | hc
    · exact .inl (.inl (hl hu hc))
    · exact .inl (.inr (hr hv hc))
  | star inner ih =>
    rw [postorder, List.mem_append]
    obtain ⟨u, hu, hcu⟩ := exists_mem_of_mem_kstar hw hc
    exact .inl (ih hu hcu)
  | plus inner ih =>
    rw [postorder, List.mem_append]
    obtain ⟨u, hu, v, hv, rfl⟩ := Language.mem_mul.1 hw
    rcases List.mem_append.1 hc with hc | hc
    · exact .inl (ih hu hc)
    · obtain ⟨u', hu', hcu'⟩ := exists_mem_of_mem_kstar hv hc
      exact .inl (ih hu' hcu')

end Tree

end FiniteAutomata.Regex
