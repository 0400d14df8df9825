import FiniteAutomata.Automaton.Basic
import FiniteAutomata.Namer
import FiniteAutomata.Regex.Error
import FiniteAutomata.Regex.Token

/-!
# Automata from postfix expressions

A postfix expression is read with a stack of fragments of an automaton. A symbol puts a fragment
on the stack, and an operator replaces its operands by one fragment. Each fragment has one entry
and one exit, and its new states get the next names of a namer. At the end one fragment is left,
which becomes the automaton.
-/

namespace FiniteAutomata.Regex

open Std

/-- A part of an automaton that is entered and left by one state each. -/
structure Fragment where
  /-- The state that it is entered by. -/
  start : String
  /-- The state that it is left by. -/
  accept : String
  /-- Its transitions. -/
  transitions : List (Transition String)

namespace Fragment

/-- Reads one symbol. -/
def symbol (start accept : String) (c : Char) : Fragment :=
  ⟨start, accept, [⟨start, .symbol c, accept⟩]⟩

/-- Goes through either fragment. -/
def union (start accept : String) (left right : Fragment) : Fragment :=
  ⟨start, accept, left.transitions ++ right.transitions ++
    [⟨start, .epsilon, left.start⟩, ⟨start, .epsilon, right.start⟩,
      ⟨left.accept, .epsilon, accept⟩, ⟨right.accept, .epsilon, accept⟩]⟩

/-- Goes through the fragment once or more often. -/
def plus (start accept : String) (inner : Fragment) : Fragment :=
  ⟨start, accept, inner.transitions ++
    [⟨start, .epsilon, inner.start⟩, ⟨inner.accept, .epsilon, accept⟩,
      ⟨inner.accept, .epsilon, inner.start⟩]⟩

/-- Goes through the fragment any number of times, or past it. -/
def star (start accept : String) (inner : Fragment) : Fragment :=
  let loop := plus start accept inner
  { loop with transitions := loop.transitions ++ [⟨start, .epsilon, accept⟩] }

/-- Goes through one fragment and then the other. -/
def concat (left right : Fragment) : Fragment :=
  ⟨left.start, right.accept, left.transitions ++ right.transitions ++
    [⟨left.accept, .epsilon, right.start⟩]⟩

/-- The automaton that starts at the entry and accepts at the exit; its alphabet is empty. -/
def toAutomaton (f : Fragment) : Automaton String :=
  ((Automaton.empty.addTransitions f.transitions).markStart f.start).markFinal f.accept

end Fragment

/-- A construction on its way through the tokens. -/
structure Builder where
  /-- The source of names for new states. -/
  namer : Namer
  /-- The fragments built so far, the latest first. -/
  fragments : List Fragment

namespace Builder

/-- Puts a fragment with a new entry and a new exit on a stack. -/
def pushNamed (b : Builder) (make : String → String → Fragment) (rest : List Fragment) : Builder :=
  ⟨b.namer.advance 2, make b.namer.name (b.namer.advance 1).name :: rest⟩

/-- Takes one token. An operator finds its operands on top of the stack, the right one first, and
names are used only if it does. -/
def consume (b : Builder) : Token → Except Misfit Builder
  | .symbol c => .ok (b.pushNamed (fun s a => .symbol s a c) b.fragments)
  | .opening => .error .strayParenthesis
  | .closing => .error .strayParenthesis
  | .operator o =>
    match o, b.fragments with
    | .union, right :: left :: rest => .ok (b.pushNamed (fun s a => .union s a left right) rest)
    | .concat, right :: left :: rest => .ok ⟨b.namer, left.concat right :: rest⟩
    | .star, inner :: rest => .ok (b.pushNamed (fun s a => .star s a inner) rest)
    | .plus, inner :: rest => .ok (b.pushNamed (fun s a => .plus s a inner) rest)
    | _, _ => .error .missingOperand

/-- The automaton of the one fragment that is left after all tokens, of which there are as many as
the position says. -/
def finish (b : Builder) (position : Nat) : Except Malformed (Automaton String) :=
  match b.fragments with
  | [] => .error ⟨position, .missingOperand⟩
  | [f] => .ok f.toAutomaton
  | _ => .error ⟨position, .leftoverOperands⟩

end Builder

/-- What a construction comes to. -/
structure Construction where
  /-- The number of fragments before each token that was looked at. -/
  heights : List Nat
  /-- The namer with all names handed out that were used, in a failed construction too. -/
  namer : Namer
  /-- The automaton, or why there is none. -/
  outcome : Except Malformed (Automaton String)

/-- The construction from the tokens from a position on. -/
def Builder.construct (b : Builder) (position : Nat) : List Token → Construction
  | [] => ⟨[], b.namer, b.finish position⟩
  | t :: rest =>
    let height := b.fragments.length
    match b.consume t with
    | .error misfit => ⟨[height], b.namer, .error ⟨position, misfit⟩⟩
    | .ok next =>
      let result := next.construct (position + 1) rest
      { result with heights := height :: result.heights }

/-- The construction of an automaton from tokens in postfix order. -/
def thompson (tokens : List Token) (namer : Namer) : Construction :=
  Builder.construct ⟨namer, []⟩ 0 tokens

end FiniteAutomata.Regex
