import FiniteAutomata.Proofs.Automaton.DeadState
import FiniteAutomata.Proofs.Regex.CanonicalForm

/-!
# The dead state of an expression

No way to build a fragment strands a state: where a part gives up its exit, an epsilon transition
leads from there to a state that can still be left for the exit of the whole. A state is *live* if
its exit can be reached, and all states of the fragment of a tree are live
(`Tree.allLive_fragment`). The words that lead to the exit are over the symbols of the tree, which
are the letters of the text, so the trap is the only dead state of the determinized automaton
(`onlyTrapIsDead_of_compile`).
-/

namespace FiniteAutomata.Regex

namespace Fragment

variable {f g left right inner : Fragment} {s a q r : String}

/-! ## Live states -/

/-- Some word leads from the state to the exit. -/
def Live (f : Fragment) (q : String) : Prop := ∃ w, w ∈ f.after q

/-- The exit is live. -/
theorem live_accept (f : Fragment) : f.Live f.accept := ⟨[], one_le_after_accept rfl⟩

/-- A state with an epsilon transition to a live state is live. -/
theorem Live.of_epsilon (hr : f.Live r) (h : ⟨q, .epsilon, r⟩ ∈ f.transitions) : f.Live q := by
  obtain ⟨w, hw⟩ := hr
  exact ⟨w, after_le_after h hw⟩

/-- What is live in a part is live in the whole, if the exit of the part is. -/
theorem Live.of_part (hq : f.Live q) (h : f.transitions ⊆ g.transitions) (hexit : g.Live f.accept) :
    g.Live q := by
  obtain ⟨u, hu⟩ := hq
  obtain ⟨v, hv⟩ := hexit
  exact ⟨u ++ v, after_mul_after_le h (Language.append_mem_mul hu hv)⟩

/-- All states of the fragment are live. -/
def AllLive (f : Fragment) : Prop := ∀ q, f.Touches q → f.Live q

/-- The states of a fragment for one symbol are live. -/
theorem allLive_symbol (s a : String) (c : Char) : (symbol s a c).AllLive := by
  intro q hq
  rcases eq_or_eq_of_touches_symbol hq with rfl | rfl
  · exact ⟨[c], .symbol (.head _) (.nil _)⟩
  · exact live_accept _

/-- The states of a union are live if those of its parts are. -/
theorem AllLive.union (hleft : left.AllLive) (hright : right.AllLive) (hl : left.HasEnds)
    (hr : right.HasEnds) (s a : String) : (union s a left right).AllLive := by
  set g := Fragment.union s a left right with hg
  have hsubl : left.transitions ⊆ g.transitions := left_subset_union s a left right
  have hsubr : right.transitions ⊆ g.transitions := right_subset_union s a left right
  -- From the exits of the parts it is one transition to the new exit.
  have hexitl : g.Live left.accept := g.live_accept.of_epsilon (by simp [hg, Fragment.union])
  have hexitr : g.Live right.accept := g.live_accept.of_epsilon (by simp [hg, Fragment.union])
  intro q hq
  rcases touches_of_touches_union hl hr hq with rfl | rfl | hq | hq
  · have hentry : g.Live left.start := (hleft _ hl.start).of_part hsubl hexitl
    exact hentry.of_epsilon (by simp [hg, Fragment.union])
  · exact g.live_accept
  · exact (hleft q hq).of_part hsubl hexitl
  · exact (hright q hq).of_part hsubr hexitr

/-- The states of a concatenation are live if those of its parts are. -/
theorem AllLive.concat (hleft : left.AllLive) (hright : right.AllLive) (hl : left.HasEnds)
    (hr : right.HasEnds) : (left.concat right).AllLive := by
  set g := left.concat right with hg
  have hsubl : left.transitions ⊆ g.transitions := left_subset_concat left right
  have hsubr : right.transitions ⊆ g.transitions := right_subset_concat left right
  -- From the exit of the first part it is one transition to the entry of the second one.
  have hentry : g.Live right.start := (hright _ hr.start).of_part hsubr g.live_accept
  have hexit : g.Live left.accept := hentry.of_epsilon (by simp [hg, Fragment.concat])
  intro q hq
  rcases touches_of_touches_concat hl hr hq with hq | hq
  · exact (hleft q hq).of_part hsubl hexit
  · exact (hright q hq).of_part hsubr g.live_accept

/-- In whatever has the transitions of a plus, with its exit, the states of the plus are live if
those of the inner fragment are. -/
theorem AllLive.live_of_plus (hinner : inner.AllLive) (hi : inner.HasEnds)
    (h : (plus s a inner).transitions ⊆ g.transitions) (ha : g.accept = a)
    (hq : q = s ∨ q = a ∨ inner.Touches q) : g.Live q := by
  have hsub : inner.transitions ⊆ g.transitions :=
    List.Subset.trans (inner_subset_plus s a inner) h
  have haccept : g.Live a := ha ▸ g.live_accept
  have hexit : g.Live inner.accept := haccept.of_epsilon (h (by simp [plus]))
  rcases hq with rfl | rfl | hq
  · have hentry : g.Live inner.start := (hinner _ hi.start).of_part hsub hexit
    exact hentry.of_epsilon (h (by simp [plus]))
  · exact haccept
  · exact (hinner q hq).of_part hsub hexit

/-- The states of a plus are live if those of the inner fragment are. -/
theorem AllLive.plus (hinner : inner.AllLive) (hi : inner.HasEnds) (s a : String) :
    (plus s a inner).AllLive := fun _ hq =>
  hinner.live_of_plus hi (fun _ ht => ht) rfl (touches_of_touches_plus hi hq)

/-- The states of a star are live if those of the inner fragment are. -/
theorem AllLive.star (hinner : inner.AllLive) (hi : inner.HasEnds) (s a : String) :
    (star s a inner).AllLive := fun _ hq =>
  hinner.live_of_plus hi (plus_subset_star s a inner) rfl (touches_of_touches_star hi hq)

end Fragment

namespace Tree

open Fragment

/-- All states of the fragment of a tree are live. -/
theorem allLive_fragment (e : Tree) (n : Namer) : (e.fragment n).AllLive := by
  induction e generalizing n with
  | symbol c => exact allLive_symbol _ _ c
  | union left right hl hr =>
    exact (hl n).union (hr _) (left.isPart_fragment n).toHasEnds (right.isPart_fragment _).toHasEnds
      _ _
  | concat left right hl hr =>
    exact (hl n).concat (hr _) (left.isPart_fragment n).toHasEnds
      (right.isPart_fragment _).toHasEnds
  | star inner ih => exact (ih n).star (inner.isPart_fragment n).toHasEnds _ _
  | plus inner ih => exact (ih n).plus (inner.isPart_fragment n).toHasEnds _ _

/-- A final state can be reached from each state of the automaton of the fragment of a tree, over
the symbols of the tree. -/
theorem coaccessible_fragment (e : Tree) (n : Namer) {symbols : FiniteSet Char}
    (hsymbols : ∀ c, .symbol c ∈ e.postorder → c ∈ symbols) :
    ((e.fragment n).toAutomaton.setAlphabet symbols).Coaccessible := by
  intro q hq
  obtain ⟨w, hw⟩ :=
    e.allLive_fragment n q (touches_of_mem_allStates (e.isPart_fragment n).toHasEnds hq)
  refine ⟨w, fun c hc => ?_, _, mem_finals_toAutomaton.2 rfl, ?_⟩
  · obtain ⟨p, p', ht⟩ := Path.exists_mem_of_mem hw hc
    exact hsymbols c (symbol_mem_postorder_iff.2 ⟨p, p', ht⟩)
  · exact Path.mono (fun t ht => mem_transitions_toAutomaton.2 ht) hw

end Tree

/-! ## Main result -/

/-- The trap is the only dead state of the determinized automaton of an expression: every other
state is reached and can reach a final state, a run stands on the trap when no continuation is
accepted, and canonical renaming gives the trap the last name. -/
theorem onlyTrapIsDead_of_compile {source : String} {A : Automaton String}
    (hA : compile source = .ok A) : ∃ start, A.determinize.OnlyTrapIsDead start := by
  obtain ⟨e, he⟩ := hasTree_of_compile hA
  obtain ⟨symbols, hsymbols, hA'⟩ := compile_of_hasTree he
  obtain rfl := Except.ok.inj (hA.symm.trans hA')
  have hmem : ∀ c, .symbol c ∈ e.postorder → c ∈ symbols := fun c => (hsymbols c).2
  obtain ⟨c, hc⟩ := e.exists_symbol_mem_postorder
  exact ⟨_, Automaton.onlyTrapIsDead_determinize (e.namesDistinct_fragment stateNamer symbols)
    (e.coaccessible_fragment stateNamer hmem) (hmem c hc)
    (FiniteSet.ne_empty_of_mem (Fragment.mem_starts_toAutomaton.2 rfl))⟩

/-- In the automaton of one text the run on `b` ends on the trap. In that of the other no run does,
and all the same the trap gets the last of four names. -/
theorem onlyTrapIsDead_of_compile_pair :
    (∃ A, compile "ab" = .ok A ∧ A.determinize.OnlyTrapIsDead "\x7bS0\x7d" ∧
      (A.determinize.run "\x7bS0\x7d" ['b']).ending = .finished trapName ∧
      ∀ v, A.determinize.accept ('b' :: v) ≠ .ok true) ∧
    ∃ A, compile "(a|b)*" = .ok A ∧ A.determinize.OnlyTrapIsDead "\x7bS0,S2,S4,S6,S7\x7d" ∧
      trapName ∉ A.determinize.reachable "\x7bS0,S2,S4,S6,S7\x7d" ∧
      A.determinize.canonicalName "\x7bS0,S2,S4,S6,S7\x7d" 'q' trapName = "q3" := by
  constructor
  · obtain ⟨A, hA, hstart, hend, hmem⟩ : ∃ A, compile "ab" = .ok A ∧
        A.determinize.startState? = some "\x7bS0\x7d" ∧
        (A.determinize.run "\x7bS0\x7d" ['b']).ending = .finished trapName ∧
        'b' ∈ A.determinize.alphabet := by
      refine ⟨_, rfl, ?_, ?_, ?_⟩ <;> decide +kernel
    obtain ⟨start, h⟩ := onlyTrapIsDead_of_compile hA
    obtain rfl := Option.some.inj (hstart.symm.trans h.startState?_eq)
    exact ⟨A, hA, h, hend, (h.ending_eq_trap_iff ['b'] (by simpa using hmem)).1 hend⟩
  · obtain ⟨A, hA, hstart, hreached, hsize⟩ : ∃ A, compile "(a|b)*" = .ok A ∧
        A.determinize.startState? = some "\x7bS0,S2,S4,S6,S7\x7d" ∧
        trapName ∉ A.determinize.reachable "\x7bS0,S2,S4,S6,S7\x7d" ∧
        A.determinize.allStates.size = 4 := by
      refine ⟨_, rfl, ?_, ?_, ?_⟩ <;> decide +kernel
    obtain ⟨start, h⟩ := onlyTrapIsDead_of_compile hA
    obtain rfl := Option.some.inj (hstart.symm.trans h.startState?_eq)
    obtain ⟨i, -, hname, hlast⟩ := (h.canonicalName_eq 'q').2 trapName h.trap_mem
    have hsucc := hlast.2 rfl
    obtain rfl : i = 3 := by omega
    exact ⟨A, hA, h, hreached, hname⟩

end FiniteAutomata.Regex
