import FiniteAutomata.Automaton.Text
import FiniteAutomata.Proofs.Automaton.Map
import FiniteAutomata.Proofs.Delimiter

/-!
# Reading a drawing back

A drawing shows the transitions, the start states and the final states of an automaton, and they
can be read back from it (`dot_eq_iff`). Names stand between quotes as they are. They may be empty
or hold arrows, brackets, blanks, semicolons and line breaks: without quotes in it, a name ends at
the next quote. A label has one character, which may even be a quote, but the letter epsilon as a
symbol looks like the empty label.

Three lists are written one after the other without their lengths: the final states on one line, an
arrow out of nothing for each start state, and an arrow for each transition. The entries of each
list begin with a character of their own, a blank, a letter or a quote, and what follows the list
begins with another one. So it shows where a list ends (`Legible.of_flatMap_append`).
-/

namespace FiniteAutomata

open Std

/-! ## Texts that show where they end -/

/-- Items are written so that each begins with the same character and can be told from what is
written behind it. -/
structure Legible {α : Type} (write : α → List Char) (items : Set α) (lead : Char) : Prop where
  /-- An item begins with the character. -/
  head?_eq : ∀ a ∈ items, (write a).head? = some lead
  /-- What begins with an item tells which one it is and what comes behind it. -/
  eq_of_append : ∀ a ∈ items, ∀ b ∈ items, ∀ u v,
    write a ++ u = write b ++ v → a = b ∧ u = v

section Legible

variable {α : Type} {write : α → List Char} {items : Set α} {lead : Char} {xs ys : List α}
  {u v : List Char}

/-- Items that are written one after the other begin with the character, unless there are none. -/
theorem Legible.head?_flatMap_append (h : Legible write items lead) (hxs : ∀ a ∈ xs, a ∈ items) :
    (xs.flatMap write ++ u).head? = if xs = [] then u.head? else some lead := by
  cases xs with
  | nil => rfl
  | cons x xs => simp [List.head?_append, h.head?_eq x (hxs x (.head _))]

/-- Items that are written one after the other are told by the text, and so is what comes behind
them, if it begins with another character. -/
theorem Legible.of_flatMap_append (h : Legible write items lead) (hxs : ∀ a ∈ xs, a ∈ items)
    (hys : ∀ a ∈ ys, a ∈ items) (hu : u.head? ≠ some lead) (hv : v.head? ≠ some lead)
    (heq : xs.flatMap write ++ u = ys.flatMap write ++ v) : xs = ys ∧ u = v := by
  -- If one list ends before the other, what follows it begins like an item of the longer one.
  induction xs generalizing ys with
  | nil =>
    have hhead := congrArg List.head? heq
    rw [h.head?_flatMap_append hys] at hhead
    by_cases hnil : ys = []
    · subst hnil
      exact ⟨rfl, heq⟩
    · rw [if_neg hnil] at hhead
      exact absurd hhead hu
  | cons x xs ih =>
    cases ys with
    | nil =>
      have hhead := congrArg List.head? heq
      rw [h.head?_flatMap_append hxs, if_neg (List.cons_ne_nil x xs)] at hhead
      exact absurd hhead.symm hv
    | cons y ys =>
      obtain ⟨hx, htail⟩ := List.forall_mem_cons.1 hxs
      obtain ⟨hy, htail'⟩ := List.forall_mem_cons.1 hys
      rw [List.flatMap_cons, List.flatMap_cons, List.append_assoc, List.append_assoc] at heq
      obtain ⟨rfl, hrest⟩ := h.eq_of_append x hx y hy _ _ heq
      obtain ⟨rfl, rfl⟩ := ih htail htail' hrest
      exact ⟨rfl, rfl⟩

end Legible

/-- The text of a label is one character. -/
theorem Label.toList_text (l : Label) : l.text.toList = [l.symbol?.getD 'ε'] := by
  cases l with
  | epsilon => rfl
  | symbol c => exact String.toList_singleton c

/-- Labels are told apart by their texts, unless they read the letter epsilon. -/
theorem Label.eq_of_text_append {l m : Label} {u v : List Char} (hl : l ≠ .symbol 'ε')
    (hm : m ≠ .symbol 'ε') (h : l.text.toList ++ u = m.text.toList ++ v) : l = m ∧ u = v := by
  rw [toList_text, toList_text] at h
  obtain ⟨hchar, huv⟩ := List.cons.inj h
  refine ⟨?_, huv⟩
  cases l with
  | epsilon =>
    cases m with
    | epsilon => rfl
    | symbol d => exact absurd (congrArg symbol hchar.symm) hm
  | symbol c =>
    cases m with
    | epsilon => exact absurd (congrArg symbol hchar) hl
    | symbol d => exact congrArg symbol hchar

namespace Automaton

/-! ## The parts of a drawing -/

variable {s t : String} {u v : List Char}

/-- A quoted text in characters. -/
theorem toList_dotName (s : String) : (dotName s).toList = '"' :: (s.toList ++ ['"']) := by
  simp [dotName]

/-- A quoted text without quotes in it ends at the next quote. -/
theorem eq_of_dotName_append (hs : '"' ∉ s.toList) (ht : '"' ∉ t.toList)
    (h : (dotName s).toList ++ u = (dotName t).toList ++ v) : s = t ∧ u = v := by
  rw [toList_dotName, toList_dotName, List.cons_append, List.cons_append, List.append_assoc,
    List.append_assoc] at h
  obtain ⟨hst, huv⟩ := append_cons_inj_of_not_mem hs ht (List.cons.inj h).2
  exact ⟨String.toList_inj.1 hst, huv⟩

/-- An arrow in characters, its ends one after the other and then its label. -/
theorem toList_dotArrow (source target label : String) : (dotArrow source target label).toList =
    source.toList ++ (" -> ".toList ++ (target.toList ++ (" [label = ".toList ++
      ('"' :: (label.toList ++ ('"' :: "];\n".toList)))))) := by
  simp [dotArrow, toList_dotName]

/-- The entry for a final state. -/
def finalEntry (q : String) : List Char := (" " ++ dotName q).toList

/-- The entry for a start state. -/
def startEntry (q : String) : List Char := (dotArrow "empty" (dotName q) "start").toList

/-- The entry for a transition. -/
def transitionEntry (t : Transition String) : List Char :=
  (dotArrow (dotName t.source) (dotName t.target) t.label.text).toList

/-- Names without quotes. -/
def unquotedNames : Set String := {q | '"' ∉ q.toList}

/-- Transitions between names without quotes that do not read the letter epsilon. -/
def unquotedTransitions : Set (Transition String) :=
  {t | t.source ∈ unquotedNames ∧ t.target ∈ unquotedNames ∧ t.label ≠ .symbol 'ε'}

/-- Entries for final states begin with a blank and can be read back. -/
theorem legible_finalEntry : Legible finalEntry unquotedNames ' ' where
  head?_eq q _ := by simp [finalEntry]
  eq_of_append q hq r hr u v h := by
    simp only [finalEntry, String.toList_append, List.append_assoc] at h
    exact eq_of_dotName_append hq hr (List.append_cancel_left h)

/-- Entries for start states begin with a letter and can be read back. -/
theorem legible_startEntry : Legible startEntry unquotedNames 'e' where
  head?_eq q _ := by simp [startEntry, toList_dotArrow]
  eq_of_append q hq r hr u v h := by
    simp only [startEntry, toList_dotArrow, List.append_assoc] at h
    obtain ⟨hname, hrest⟩ := eq_of_dotName_append hq hr
      (List.append_cancel_left (List.append_cancel_left h))
    exact ⟨hname, List.append_cancel_left (List.append_cancel_left hrest)⟩

/-- Entries for transitions begin with a quote and can be read back. -/
theorem legible_transitionEntry : Legible transitionEntry unquotedTransitions '"' where
  head?_eq t _ := by simp [transitionEntry, toList_dotArrow, toList_dotName]
  eq_of_append t ht t' ht' u v h := by
    simp only [transitionEntry, toList_dotArrow, List.append_assoc, List.cons_append] at h
    -- The text is read from the left: source, target, label and what comes behind the entry.
    obtain ⟨hsource, hrest⟩ := eq_of_dotName_append ht.1 ht'.1 h
    obtain ⟨htarget, hrest⟩ := eq_of_dotName_append ht.2.1 ht'.2.1 (List.append_cancel_left hrest)
    obtain ⟨hlabel, hrest⟩ := Label.eq_of_text_append ht.2.2 ht'.2.2
      (List.cons.inj (List.append_cancel_left hrest)).2
    exact ⟨Transition.ext hsource hlabel htarget, List.append_cancel_left (List.cons.inj hrest).2⟩

/-- A drawing in characters: the entries of the three lists, and what stands around them. -/
theorem toList_dot (A : Automaton String) : A.dot.toList =
    "digraph G \x7b\nrankdir=LR;\nempty [label = \"\" shape = plaintext];\n".toList ++
      ("node [shape = doublecircle]".toList ++
        (A.finals.toList.flatMap finalEntry ++
          (";\nnode [shape = circle];\n".toList ++
            (A.starts.toList.flatMap startEntry ++
              (A.transitions.toList.flatMap transitionEntry ++ "\x7d".toList))))) := by
  simp only [dot, String.toList_join, List.flatMap_cons, List.flatMap_nil, List.flatMap_map,
    List.append_nil]
  rfl

/-! ## Main result -/

/-- No name has a quote and no transition reads the letter epsilon. -/
structure Drawable (A : Automaton String) : Prop where
  /-- The names of all states, marked ones included, are without quotes. -/
  quote_not_mem : ∀ q ∈ A.stateSet, '"' ∉ q.toList
  /-- The text of a symbol is not that of the empty label. -/
  label_ne : ∀ t ∈ A.transitions, t.label ≠ .symbol 'ε'

variable {A B : Automaton String}

/-- The transitions of a drawable automaton can be read back. -/
theorem Drawable.mem_unquotedTransitions (h : A.Drawable) :
    ∀ t ∈ A.transitions.toList, t ∈ unquotedTransitions := by
  intro t ht
  have ht := ExtTreeSet.mem_toList.1 ht
  obtain ⟨hsource, htarget⟩ := mem_stateSet_of_mem_transitions ht
  exact ⟨h.quote_not_mem _ hsource, h.quote_not_mem _ htarget, h.label_ne t ht⟩

/-- The start states of a drawable automaton can be read back. -/
theorem Drawable.starts_unquoted (h : A.Drawable) : ∀ q ∈ A.starts.toList, q ∈ unquotedNames :=
  fun q hq => h.quote_not_mem q (mem_stateSet_of_mem_starts (ExtTreeSet.mem_toList.1 hq))

/-- The final states of a drawable automaton can be read back. -/
theorem Drawable.finals_unquoted (h : A.Drawable) : ∀ q ∈ A.finals.toList, q ∈ unquotedNames :=
  fun q hq => h.quote_not_mem q (mem_stateSet_of_mem_finals (ExtTreeSet.mem_toList.1 hq))

/-- What follows the start states does not begin with the letter of their entries. -/
theorem Drawable.head?_transitions_ne (h : A.Drawable) :
    (A.transitions.toList.flatMap transitionEntry ++ "\x7d".toList).head? ≠ some 'e' := by
  rw [legible_transitionEntry.head?_flatMap_append h.mem_unquotedTransitions]
  split <;> decide

/-- Drawable automata have one drawing exactly when they have the same transitions, start states and
final states. -/
theorem dot_eq_iff (hA : A.Drawable) (hB : B.Drawable) : A.dot = B.dot ↔
    A.transitions = B.transitions ∧ A.starts = B.starts ∧ A.finals = B.finals := by
  constructor
  · intro h
    have htext := congrArg String.toList h
    rw [toList_dot, toList_dot] at htext
    -- The three lists are taken off the text one by one.
    obtain ⟨hfinals, hrest⟩ := legible_finalEntry.of_flatMap_append hA.finals_unquoted
      hB.finals_unquoted (by simp) (by simp)
      (List.append_cancel_left (List.append_cancel_left htext))
    obtain ⟨hstarts, hrest⟩ := legible_startEntry.of_flatMap_append hA.starts_unquoted
      hB.starts_unquoted hA.head?_transitions_ne hB.head?_transitions_ne
      (List.append_cancel_left hrest)
    obtain ⟨htransitions, -⟩ := legible_transitionEntry.of_flatMap_append
      hA.mem_unquotedTransitions hB.mem_unquotedTransitions (by decide) (by decide) hrest
    exact ⟨ExtTreeSet.toList_inj.1 htransitions, ExtTreeSet.toList_inj.1 hstarts,
      ExtTreeSet.toList_inj.1 hfinals⟩
  · rintro ⟨htransitions, hstarts, hfinals⟩
    rw [dot, dot, htransitions, hstarts, hfinals]

-- Names with quotes run together, and so do the empty label and its letter.
example : (empty.markFinal "p\" \"q").dot = ((empty.markFinal "p").markFinal "q").dot := by
  decide +kernel

example : ((empty : Automaton String).addTransition ⟨"p", .epsilon, "q"⟩).dot =
    (empty.addTransition ⟨"p", .symbol 'ε', "q"⟩).dot := by decide +kernel

/-- An automaton with the empty name and with names that look like parts of a drawing. A quote is
one of its symbols. -/
def oddlyDrawnAutomaton : Automaton String :=
  ((empty.addTransitions [⟨"", .symbol '"', " -> "⟩, ⟨" -> ", .epsilon, "];\nempty"⟩]).markStart
    "").markFinal ";\nnode [shape = circle];"

/-- The drawing changes when the start state is made final, and not with the alphabet. -/
theorem dot_eq_iff_oddlyDrawnAutomaton :
    (oddlyDrawnAutomaton.Drawable ∧ (oddlyDrawnAutomaton.markFinal "").Drawable) ∧
      oddlyDrawnAutomaton.dot ≠ (oddlyDrawnAutomaton.markFinal "").dot ∧
      oddlyDrawnAutomaton.dot =
        (oddlyDrawnAutomaton.setAlphabet (ExtTreeSet.ofList ['a'])).dot := by
  have hparts : (∀ q ∈ (oddlyDrawnAutomaton.markFinal "").allStates.toList, '"' ∉ q.toList) ∧
      (∀ q ∈ oddlyDrawnAutomaton.allStates.toList, '"' ∉ q.toList) ∧
      ∀ t ∈ oddlyDrawnAutomaton.transitions.toList, t.label ≠ .symbol 'ε' := by decide +kernel
  obtain ⟨hmarked, hnames, hlabels⟩ := hparts
  have h : oddlyDrawnAutomaton.Drawable :=
    ⟨fun q hq => hnames q (ExtTreeSet.mem_toList.2 hq),
      fun t ht => hlabels t (ExtTreeSet.mem_toList.2 ht)⟩
  have hfinal : (oddlyDrawnAutomaton.markFinal "").Drawable :=
    ⟨fun q hq => hmarked q (ExtTreeSet.mem_toList.2 hq), h.label_ne⟩
  have hne : oddlyDrawnAutomaton.finals ≠ (oddlyDrawnAutomaton.markFinal "").finals := by
    decide +kernel
  refine ⟨⟨h, hfinal⟩, fun hdot => hne ((dot_eq_iff h hfinal).1 hdot).2.2, ?_⟩
  exact (dot_eq_iff h ⟨h.quote_not_mem, h.label_ne⟩).2 ⟨rfl, rfl, rfl⟩

end Automaton

end FiniteAutomata
