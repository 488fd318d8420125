import ForkingLR.Automaton
import ForkingLR.Proofs.Table.States
import Mathlib.Data.List.Nodup

/-! The actions of a table. An LR(0) row offers exactly the moves and completions of its state,
each once. Lookahead only takes reductions away that it rules out, and precedence only chooses
among what a terminal row offers, so a built table never invents an action. -/
namespace ForkingLR

namespace Grammar
open Table
variable {g : Grammar}

inductive Offers (g : Grammar) (s : Nat) (x : Symbol) : Action → Prop
  | shift {t : Nat} (terminal : isTerminal x = true) (move : Moves g.lr0States s x t) :
      Offers g s x (.shift t)
  | goto {t : Nat} (nonterminal : isTerminal x = false) (move : Moves g.lr0States s x t) :
      Offers g s x (.goto t)
  | reduce {id : Nat} {p : Production Symbol} (known : x ∈ g.terminals) (ordinary : x ≠ .error)
      (other : id ≠ g.startProduction) (found : g.productions[id]? = some p)
      (complete : Holds g.lr0States s ⟨id, p.rhs.length⟩) : Offers g s x (.reduce id)
  | accept (last : x = .endOfInput) (complete : Holds g.lr0States s ⟨g.startProduction, 1⟩) :
      Offers g s x .accept

theorem memTerminals {x : Symbol} :
    x ∈ g.terminals ↔ x = .endOfInput ∨ isTerminal x = true ∧ ∃ p ∈ g.productions, x ∈ p.rhs := by
  rw [terminals, ← SortedSet.memIff, SortedSet.memInsert, Cfg.terminals, SortedSet.memOfList]
  simp [cfg, and_comm]

theorem isTerminalOfMem {x : Symbol} (h : x ∈ g.terminals) : isTerminal x = true := by
  rcases memTerminals.1 h with rfl | ⟨terminal, _⟩
  · rfl
  · exact terminal

theorem memTerminalsOfMoves (wf : g.WellFormed) {s t : Nat} {x : Symbol}
    (terminal : isTerminal x = true) (move : Moves g.lr0States s x t) : x ∈ g.terminals := by
  obtain ⟨i, _, next⟩ := nextOfMoves wf move
  obtain ⟨p, found, here⟩ := Item.nextIff.1 next
  exact memTerminals.2 (Or.inr ⟨terminal, p, List.mem_of_getElem? found, List.mem_of_getElem? here⟩)

theorem itemsSorted {s : Nat} {items : List Item} (wf : g.WellFormed)
    (h : g.collection[s]? = some items) : items.Pairwise fun a b => compare a b = .lt := by
  cases (memCollection wf).1 (List.mem_of_getElem? h) with
  | root start =>
    rw [List.mem_singleton.1 start]
    exact SortedSet.sorted _
  | edge before step =>
    obtain ⟨x, _, rfl⟩ := List.mem_map.1 step
    exact SortedSet.sorted _

theorem atEndIff {items : List Item} {s : Nat} (wf : g.WellFormed)
    (placed : g.collection[s]? = some items) {i : Item} (h : i ∈ items) :
    i.atEnd g.productions = true ↔ ∃ p, g.productions[i.production]? = some p ∧ i.dot = p.rhs.length := by
  obtain ⟨p, found, bound⟩ := holdsValid wf (holdsIff.2 ⟨items, placed, h⟩)
  simp only [Item.atEnd, found, decide_eq_true_eq, Option.some.injEq, exists_eq_left']
  omega

theorem memCompleted {items : List Item} {s : Nat} (wf : g.WellFormed)
    (placed : g.collection[s]? = some items) {id : Nat} :
    id ∈ g.completed items ↔
      ∃ p, g.productions[id]? = some p ∧ Holds g.lr0States s ⟨id, p.rhs.length⟩ := by
  simp only [completed, List.mem_map, List.mem_filter]
  constructor
  · rintro ⟨⟨id, dot⟩, ⟨member, final⟩, rfl⟩
    obtain ⟨p, found, rfl⟩ := (atEndIff wf placed member).1 final
    exact ⟨p, found, holdsIff.2 ⟨items, placed, member⟩⟩
  · rintro ⟨p, found, held⟩
    obtain ⟨items', same, member⟩ := holdsIff.1 held
    obtain rfl := Option.some.inj (placed.symm.trans same)
    exact ⟨_, ⟨member, (atEndIff wf placed member).2 ⟨p, found, rfl⟩⟩, rfl⟩

theorem completedNodup {items : List Item} {s : Nat} (wf : g.WellFormed)
    (placed : g.collection[s]? = some items) : (g.completed items).Nodup := by
  have distinct : items.Nodup := SortedSet.nodup ⟨items, itemsSorted wf placed⟩
  refine (distinct.filter _).map_on ?_
  rintro ⟨id, dot⟩ hi ⟨id', dot'⟩ hj same
  obtain rfl : id = id' := same
  obtain ⟨p, found, rfl⟩ := (atEndIff wf placed (List.mem_filter.1 hi).1).1 (List.mem_filter.1 hi).2
  obtain ⟨q, found', rfl⟩ := (atEndIff wf placed (List.mem_filter.1 hj).1).1 (List.mem_filter.1 hj).2
  obtain rfl := Option.some.inj (found.symm.trans found')
  rfl

theorem completionIff {x : Symbol} {id : Nat} {action : Action} :
    g.completion? x id = some action ↔
      (id = g.startProduction ∧ x = .endOfInput ∧ action = .accept) ∨
      (id ≠ g.startProduction ∧ x ≠ .error ∧ action = .reduce id) := by
  unfold completion?
  split
  · split <;> simp_all [eq_comm]
  · split <;> simp_all [eq_comm]

theorem completionsNodup {items : List Item} {s : Nat} (wf : g.WellFormed)
    (placed : g.collection[s]? = some items) (x : Symbol) :
    ((g.completed items).filterMap (g.completion? x)).Nodup := by
  refine (completedNodup wf placed).filterMap ?_
  intro id id' action h h'
  rcases completionIff.1 h with ⟨rfl, _, rfl⟩ | ⟨_, _, rfl⟩
  · rcases completionIff.1 h' with ⟨rfl, _, _⟩ | ⟨_, _, same⟩
    · rfl
    · cases same
  · rcases completionIff.1 h' with ⟨_, _, same⟩ | ⟨_, _, same⟩
    · cases same
    · cases same
      rfl

theorem memRowOf {transitions : SortedMap Symbol Nat} {items : List Item} {x : Symbol} {action : Action} :
    action ∈ g.rowOf transitions items x ↔
      (∃ t, transitions.get? x = some t ∧ advanceAction x t = action) ∨
        isTerminal x = true ∧ ∃ id ∈ g.completed items, g.completion? x id = some action := by
  rw [rowOf, List.mem_append, Option.mem_toList, Option.map_eq_some_iff]
  refine or_congr_right ?_
  split
  · rename_i terminal
    simp [terminal]
  · rename_i nonterminal
    simp [nonterminal]

theorem lr0Row {s : Nat} {st : State} (placed : g.lr0States[s]? = some st) (x : Symbol) :
    ∃ items, g.collection[s]? = some items ∧
      st.actionsOn x = if x ∈ st.transitions.keys ++ g.terminals
        then g.rowOf st.transitions items x else [] := by
  obtain ⟨items, here, rfl⟩ := stateAt.1 placed
  refine ⟨items, here, ?_⟩
  rw [stateOfTransitions]
  exact State.fillActions _ _ _ x

theorem movesAt {s t : Nat} {st : State} (placed : g.lr0States[s]? = some st) {x : Symbol} :
    st.transitions.get? x = some t ↔ Moves g.lr0States s x t := by
  constructor
  · exact fun h => ⟨st, placed, h⟩
  · rintro ⟨st', same, h⟩
    obtain rfl := Option.some.inj (placed.symm.trans same)
    exact h

theorem actionsOffered (wf : g.WellFormed) {s : Nat} {st : State} (placed : g.lr0States[s]? = some st)
    {x : Symbol} {action : Action} : action ∈ st.actionsOn x ↔ g.Offers s x action := by
  obtain ⟨items, here, row⟩ := lr0Row placed x
  have listed : action ∈ st.actionsOn x ↔
      x ∈ st.transitions.keys ++ g.terminals ∧ action ∈ g.rowOf st.transitions items x := by
    rw [row]
    split
    · rename_i known
      simp only [known, true_and]
    · rename_i unknown
      simp [unknown]
  rw [listed, memRowOf]
  simp only [List.mem_append, SortedMap.memKeys, movesAt placed, memCompleted wf here, completionIff]
  constructor
  · rintro ⟨known, ⟨t, move, rfl⟩ | ⟨terminal, id, ⟨p, found, held⟩, rest⟩⟩
    · unfold advanceAction
      split
      · exact .shift (by assumption) move
      · exact .goto (by simpa using ‹¬isTerminal x = true›) move
    · rcases rest with ⟨rfl, last, rfl⟩ | ⟨other, ordinary, rfl⟩
      · obtain rfl := Option.some.inj (wf.startProduction.symm.trans found)
        exact .accept last held
      · refine .reduce ?_ ordinary other found held
        rcases known with ⟨t, move⟩ | known
        · exact memTerminalsOfMoves wf terminal move
        · exact known
  · intro h
    cases h with
    | shift terminal move =>
      exact ⟨Or.inl ⟨_, move⟩, Or.inl ⟨_, move, by simp [advanceAction, terminal]⟩⟩
    | goto nonterminal move =>
      exact ⟨Or.inl ⟨_, move⟩, Or.inl ⟨_, move, by simp [advanceAction, nonterminal]⟩⟩
    | reduce known ordinary other found complete =>
      exact ⟨Or.inr known, Or.inr ⟨isTerminalOfMem known, _, ⟨_, found, complete⟩,
        Or.inr ⟨other, ordinary, rfl⟩⟩⟩
    | accept last complete =>
      subst last
      exact ⟨Or.inr (memTerminals.2 (Or.inl rfl)), Or.inr ⟨rfl, _, ⟨_, wf.startProduction, complete⟩,
        Or.inl ⟨rfl, rfl, rfl⟩⟩⟩

theorem actionsNodup (wf : g.WellFormed) {s : Nat} {st : State} (placed : g.lr0States[s]? = some st)
    (x : Symbol) : (st.actionsOn x).Nodup := by
  obtain ⟨items, here, row⟩ := lr0Row placed x
  rw [row]
  split
  · unfold rowOf
    refine List.nodup_append.2 ⟨?_, ?_, ?_⟩
    · cases (st.transitions.get? x).map (advanceAction x) <;> simp
    · split
      · exact completionsNodup wf here x
      · exact List.nodup_nil
    · intro action moved other completed
      rintro rfl
      obtain ⟨t, _, rfl⟩ := Option.map_eq_some_iff.1 (Option.mem_toList.1 moved)
      split at completed
      · rename_i terminal
        obtain ⟨id, _, h⟩ := List.mem_filterMap.1 completed
        rcases completionIff.1 h with ⟨_, _, same⟩ | ⟨_, _, same⟩ <;>
          simp [advanceAction, terminal] at same
      · contradiction
  · exact List.nodup_nil

end Grammar
end ForkingLR
