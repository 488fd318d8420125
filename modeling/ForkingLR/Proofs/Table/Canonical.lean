import ForkingLR.Proofs.Cfg.Rewriting
import ForkingLR.Proofs.Table.States
import ForkingLR.Table.Tagged

/-! Canonical LR(1) items. An item with a terminal is valid for the words that lead to it; merged
by state, such items are what reduction lookaheads approximate. -/
namespace ForkingLR

namespace Grammar
open Table
variable {g : Grammar}

/-- The LR(1) items after a word. -/
inductive Valid (g : Grammar) : List Symbol → Item → Symbol → Prop
  | start : Valid g [] ⟨g.startProduction, 0⟩ .endOfInput
  | shift {word : List Symbol} {i : Item} {x t : Symbol} (before : Valid g word i t)
      (next : i.next? g.productions = some x) : Valid g (word ++ [x]) i.advance t
  | predict {word : List Symbol} {outer dot id : Nat} {q p : Production Symbol} {t t' : Symbol}
      (before : Valid g word ⟨outer, dot⟩ t) (around : g.productions[outer]? = some q)
      (next : q.rhs[dot]? = some p.lhs) (found : g.productions[id]? = some p)
      (first : g.cfg.FirstOf (q.rhs.drop (dot + 1) ++ [t]) t') : Valid g word ⟨id, 0⟩ t'

def Productive (g : Grammar) : Prop :=
  ∀ p ∈ g.productions, ∃ word, (∀ x ∈ word, isTerminal x = true) ∧ g.cfg.Rewrites [p.lhs] word

theorem stepIff {states : List State} {s t : Nat} {x : Symbol} :
    g.step states s x = .ok t ↔ Moves states s x t := by
  unfold step Moves
  rw [← Option.bind_eq_some_iff]
  split
  · rename_i target found
    rw [found, Except.ok.injEq, Option.some.injEq]
  · rename_i missing
    simp [missing]

theorem walkCons {states : List State} {s t : Nat} {x : Symbol} {word : List Symbol} :
    g.walk states s (x :: word) = .ok t ↔
      ∃ mid, Moves states s x mid ∧ g.walk states mid word = .ok t := by
  rw [walk]
  cases taken : g.step states s x with
  | error fault =>
    refine ⟨nofun, ?_⟩
    rintro ⟨mid, move, _⟩
    rw [stepIff.2 move] at taken
    contradiction
  | ok mid =>
    constructor
    · intro rest
      exact ⟨mid, stepIff.1 taken, rest⟩
    · rintro ⟨mid', move, rest⟩
      obtain rfl := movesUnique (stepIff.1 taken) move
      exact rest

theorem walkAppend {states : List State} {s t : Nat} {u v : List Symbol} :
    g.walk states s (u ++ v) = .ok t ↔
      ∃ mid, g.walk states s u = .ok mid ∧ g.walk states mid v = .ok t := by
  induction u generalizing s with
  | nil =>
    constructor
    · exact fun h => ⟨s, rfl, h⟩
    · rintro ⟨mid, here, rest⟩
      cases here
      exact rest
  | cons x u ih =>
    rw [List.cons_append, walkCons]
    constructor
    · rintro ⟨next, move, rest⟩
      obtain ⟨mid, front, back⟩ := ih.1 rest
      exact ⟨mid, walkCons.2 ⟨next, move, front⟩, back⟩
    · rintro ⟨mid, front, back⟩
      obtain ⟨next, move, front⟩ := walkCons.1 front
      exact ⟨next, move, ih.2 ⟨mid, front, back⟩⟩

theorem walkSingle {states : List State} {s t : Nat} {x : Symbol} :
    g.walk states s [x] = .ok t ↔ Moves states s x t := by
  rw [walkCons]
  constructor
  · rintro ⟨mid, move, rest⟩
    cases rest
    exact move
  · exact fun move => ⟨t, move, rfl⟩

theorem nextAfter {id : Nat} {p : Production Symbol} {before after : List Symbol} {x : Symbol}
    (found : g.productions[id]? = some p) (split : p.rhs = before ++ x :: after) :
    Item.next? g.productions ⟨id, before.length⟩ = some x :=
  Item.nextIff.2 ⟨p, found, by simp [split]⟩

theorem shiftRun {R : List Symbol → Item → Prop}
    (shift : ∀ {word i x}, R word i → i.next? g.productions = some x → R (word ++ [x]) i.advance)
    {id : Nat} {p : Production Symbol} {word after : List Symbol} (found : g.productions[id]? = some p) :
    ∀ {u : List Symbol}, p.rhs = u ++ after → R word ⟨id, 0⟩ → R (word ++ u) ⟨id, u.length⟩ := by
  intro u
  induction u using List.reverseRecOn generalizing after with
  | nil =>
    intro _ h
    simpa using h
  | append_singleton u x ih =>
    intro split h
    rw [List.append_assoc] at split
    have moved := shift (ih split h) (nextAfter found split)
    simpa [Item.advance] using moved

theorem Valid.run {id : Nat} {p : Production Symbol} {t : Symbol} {word after u : List Symbol}
    (found : g.productions[id]? = some p) (split : p.rhs = u ++ after) (h : g.Valid word ⟨id, 0⟩ t) :
    g.Valid (word ++ u) ⟨id, u.length⟩ t :=
  shiftRun (R := fun word i => g.Valid word i t) (fun before next => before.shift next) found split h

theorem Valid.terminal {word : List Symbol} {i : Item} {t : Symbol} (h : g.Valid word i t) :
    isTerminal t = true := by
  induction h with
  | start => rfl
  | shift _ _ ih => exact ih
  | predict _ _ _ _ first => exact first.1

theorem Productive.word (productive : g.Productive) {u : List Symbol}
    (defined : ∀ x ∈ u, isTerminal x = false → ∃ q ∈ g.productions, q.lhs = x) :
    ∃ word, (∀ x ∈ word, isTerminal x = true) ∧ g.cfg.Rewrites u word := by
  induction u with
  | nil => exact ⟨[], nofun, .refl⟩
  | cons x u ih =>
    obtain ⟨rest, terminals, rewrites⟩ := ih fun y hy => defined y (List.mem_cons_of_mem _ hy)
    obtain ⟨first, terminals', rewrites'⟩ : ∃ word, (∀ y ∈ word, isTerminal y = true) ∧
        g.cfg.Rewrites [x] word := by
      cases kind : isTerminal x with
      | true => exact ⟨[x], by simpa using kind, .refl⟩
      | false =>
        obtain ⟨q, member, rfl⟩ := defined x List.mem_cons_self kind
        exact productive q member
    refine ⟨first ++ rest, ?_, ?_⟩
    · intro y hy
      exact (List.mem_append.1 hy).elim (terminals' y) (terminals y)
    · have head : g.cfg.Rewrites (x :: u) (first ++ u) := by simpa using rewrites'.append [] u
      have tail : g.cfg.Rewrites (first ++ u) (first ++ rest) := by simpa using rewrites.append first []
      exact head.trans tail

section
variable (wf : g.WellFormed)
include wf

theorem stateReached {s : Nat} {items : List Item} (h : g.collection[s]? = some items) :
    ∃ word, g.walk g.lr0States 0 word = .ok s := by
  have reach := (memCollection wf).1 (List.mem_of_getElem? h)
  induction reach generalizing s with
  | root start =>
    rw [List.mem_singleton.1 start] at h
    have first : s = 0 := (List.getElem?_inj (List.getElem?_eq_some_iff.1 h).1 collectionNodup).1
      (h.trans collectionStart.symm)
    exact ⟨[], first ▸ rfl⟩
  | edge before step ih =>
    obtain ⟨x, next, rfl⟩ := List.mem_map.1 step
    obtain ⟨source, found⟩ := List.mem_iff_getElem?.1 ((memCollection wf).2 before)
    obtain ⟨word, walked⟩ := ih found
    exact ⟨word ++ [x], walkAppend.2 ⟨source, walked,
      walkSingle.2 ((movesIff wf).2 ⟨_, found, next, h⟩)⟩⟩

theorem stateEntered {s id dot : Nat} (h : Holds g.lr0States s ⟨id, dot + 1⟩) :
    ∃ r x, Moves g.lr0States r x s := by
  obtain ⟨items, found, _⟩ := holdsIff.1 h
  obtain ⟨word, walked⟩ := stateReached wf found
  rcases List.eq_nil_or_concat word with rfl | ⟨word, x, rfl⟩
  · cases walked
    cases startStateFresh wf h
  · rw [List.concat_eq_append] at walked
    obtain ⟨r, _, last⟩ := walkAppend.1 walked
    exact ⟨r, x, walkSingle.1 last⟩

theorem Productive.first (productive : g.Productive) {q : Production Symbol} {t : Symbol} (dot : Nat)
    (member : q ∈ g.productions) (terminal : isTerminal t = true) :
    ∃ t', g.cfg.FirstOf (q.rhs.drop dot ++ [t]) t' := by
  obtain ⟨word, terminals, rewrites⟩ := productive.word (u := q.rhs.drop dot) (by
    intro x hx nonterminal
    obtain ⟨p, found, lhs, _⟩ := wf.defined q member x (List.mem_of_mem_drop hx) nonterminal
    exact ⟨p, found, lhs⟩)
  have whole : g.cfg.Rewrites (q.rhs.drop dot ++ [t]) (word ++ [t]) := by
    simpa using rewrites.append [] [t]
  cases word with
  | nil => exact ⟨t, terminal, [], whole⟩
  | cons x word => exact ⟨x, terminals x List.mem_cons_self, word ++ [t], whole⟩

theorem itemInduction {R : List Symbol → Item → Prop} (start : R [] ⟨g.startProduction, 0⟩)
    (shift : ∀ {word i x}, R word i → i.next? g.productions = some x → R (word ++ [x]) i.advance)
    (predict : ∀ {word i id} {p : Production Symbol}, R word i → i.next? g.productions = some p.lhs →
      g.productions[id]? = some p → R word ⟨id, 0⟩) {word : List Symbol} :
    ∀ {s : Nat} {i : Item}, g.walk g.lr0States 0 word = .ok s → Holds g.lr0States s i → R word i := by
  have closed {word : List Symbol} {kernel : List Item} (given : ∀ i ∈ kernel, R word i) {i : Item}
      (h : g.InClosure kernel i) : R word i := by
    induction h with
    | kernel h => exact given _ h
    | predict _ next found ih => exact predict ih next found
  induction word using List.reverseRecOn with
  | nil =>
    intro s i walked held
    cases walked
    obtain ⟨items, found, member⟩ := holdsIff.1 held
    obtain rfl : g.initialItems = items := Option.some.inj (collectionStart.symm.trans found)
    refine closed ?_ ((memCloseItems wf).1 member)
    intro i first
    rw [List.mem_singleton.1 first]
    exact start
  | append_singleton word x ih =>
    intro s i walked held
    obtain ⟨mid, walked, last⟩ := walkAppend.1 walked
    obtain ⟨items, found, _, goto⟩ := (movesIff wf).1 (walkSingle.1 last)
    obtain ⟨_, found', member⟩ := holdsIff.1 held
    obtain rfl := Option.some.inj (goto.symm.trans found')
    refine closed ?_ ((memGotoItems wf).1 member)
    intro j moved
    obtain ⟨k, inside, next, rfl⟩ := memMovedItems.1 moved
    exact shift (ih walked (holdsIff.2 ⟨items, found, inside⟩)) next

theorem Productive.inhabited (productive : g.Productive) {word : List Symbol} {s : Nat} {i : Item}
    (walked : g.walk g.lr0States 0 word = .ok s) (held : Holds g.lr0States s i) : ∃ t, g.Valid word i t := by
  refine itemInduction (R := fun word i => ∃ t, g.Valid word i t) wf ⟨_, .start⟩ ?_ ?_ walked held
  · intro word i x h next
    obtain ⟨t, valid⟩ := h
    exact ⟨t, valid.shift next⟩
  · intro word i id p h next found
    obtain ⟨t, valid⟩ := h
    obtain ⟨q, around, here⟩ := Item.nextIff.1 next
    obtain ⟨t', first⟩ := productive.first wf _ (List.mem_of_getElem? around) valid.terminal
    exact ⟨t', valid.predict around here found first⟩

end
end Grammar
end ForkingLR
