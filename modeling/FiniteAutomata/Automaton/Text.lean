import FiniteAutomata.Automaton.Basic

/-!
# The texts of an automaton

An automaton is shown as a tuple of its states, alphabet, start states and final states, or drawn
as a graph in the dot language of Graphviz. In the graph final states have a double circle, and
an arrow out of nothing marks each start state.
-/

namespace FiniteAutomata.Automaton

variable {σ : Type} [Ord σ] [Std.TransOrd σ] [StateText σ]

/-- Texts between braces, parted by a comma and a space. -/
def braced (items : List String) : String :=
  "\x7b" ++ String.intercalate ", " items ++ "\x7d"

/-- The automaton as a tuple; the transitions are not written out. -/
def text (A : Automaton σ) : String :=
  "(" ++ String.intercalate ", "
    [braced (A.states.toList.map StateText.text),
      braced (A.alphabet.toList.map String.singleton), "delta",
      braced (A.starts.toList.map StateText.text),
      braced (A.finals.toList.map StateText.text)] ++ ")"

/-- A text between double quotes, without any escapes. -/
def dotName (s : String) : String := "\"" ++ s ++ "\""

/-- A labelled arrow of the graph. -/
def dotArrow (source target label : String) : String :=
  source ++ " -> " ++ target ++ " [label = " ++ dotName label ++ "];\n"

/-- The automaton as a graph. -/
def dot (A : Automaton σ) : String :=
  let nameOf (q : σ) : String := dotName (StateText.text q)
  String.join
    ["digraph G \x7b\nrankdir=LR;\nempty [label = \"\" shape = plaintext];\n",
      "node [shape = doublecircle]", String.join (A.finals.toList.map fun q => " " ++ nameOf q),
      ";\nnode [shape = circle];\n",
      String.join (A.starts.toList.map fun q => dotArrow "empty" (nameOf q) "start"),
      String.join (A.transitions.toList.map fun t =>
        dotArrow (nameOf t.source) (nameOf t.target) t.label.text),
      "\x7d"]

end FiniteAutomata.Automaton
