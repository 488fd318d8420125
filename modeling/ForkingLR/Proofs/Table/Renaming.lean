import ForkingLR.Proofs.Table.Correspondence

/-! Tables do not depend on how symbols are numbered. Two grammars that spell the same productions with
related symbols have the same item sets in the same order, move under related symbols to the same
states, and look ahead to related terminals. -/
namespace ForkingLR

theorem forallEraseDups {α β : Type} [DecidableEq α] [DecidableEq β] {R : α → β → Prop}
    (unique : ∀ {x x' y y'}, R x y → R x' y' → (x = x' ↔ y = y')) {k : List α} {l : List β}
    (h : List.Forall₂ R k l) : List.Forall₂ R k.eraseDups l.eraseDups := by
  induction size : k.length using Nat.strong_induction_on generalizing k l with
  | _ n ih =>
    cases h with
    | nil => exact .nil
    | @cons a b k l first rest =>
      rw [List.eraseDups_cons, List.eraseDups_cons]
      have fewer : (k.filter fun x => !x == a).length < n := by
        have bound := List.length_filter_le (fun x => !x == a) k
        rw [List.length_cons] at size
        omega
      refine .cons first (ih _ fewer ?_ rfl)
      refine List.rel_filter ?_ rest
      intro x y related
      simp [unique related first]

namespace Grammar
open Table

structure Alike (R : Symbol → Symbol → Prop) (g h : Grammar) : Prop where
  names : Renaming R
  wellFormed : g.WellFormed
  wellFormed' : h.WellFormed
  productions : List.Forall₂ (Production.Alike R) g.productions h.productions
  levels : ∀ {x y}, R x y → g.precedence.terminals.get? x = h.precedence.terminals.get? y
  declared : ∀ {x}, g.precedence.terminals.get? x ≠ none → ∃ y, R x y
  declared' : ∀ {y}, h.precedence.terminals.get? y ≠ none → ∃ x, R x y
  ranks : ∀ id, g.productionPrecedence? id = h.productionPrecedence? id

variable {R : Symbol → Symbol → Prop} {g h : Grammar}

theorem Alike.symm (alike : Alike R g h) : Alike (fun y x => R x y) h g := by
  refine ⟨alike.names.symm, alike.wellFormed', alike.wellFormed, ?_, fun related =>
    (alike.levels related).symm, alike.declared', alike.declared, fun id => (alike.ranks id).symm⟩
  refine alike.productions.flip.imp ?_
  intro q p same
  exact ⟨same.lhs, same.rhs.flip⟩

theorem Alike.size (alike : Alike R g h) : g.size = h.size := alike.productions.length_eq

theorem Alike.undeclared (alike : Alike R g h) (empty : g.precedence.isEmpty = true) :
    h.precedence.isEmpty = true := by
  simp only [PrecedenceTable.isEmpty, List.isEmpty_iff, List.eq_nil_iff_forall_not_mem] at empty ⊢
  rintro ⟨y, level⟩ inside
  have found := SortedMap.getSomeIff.2 inside
  obtain ⟨x, related⟩ := alike.declared' (y := y) (by simp [found])
  exact empty (x, level) (SortedMap.getSomeIff.1 ((alike.levels related).trans found))

theorem Alike.declares (alike : Alike R g h) : g.precedence.isEmpty = h.precedence.isEmpty :=
  Bool.eq_iff_iff.2 ⟨alike.undeclared, alike.symm.undeclared⟩

theorem Alike.startProduction (alike : Alike R g h) : g.startProduction = h.startProduction := by
  rw [Grammar.startProduction, alike.size]
  rfl

theorem Alike.production (alike : Alike R g h) {id : Nat} {p : Production Symbol}
    (found : g.productions[id]? = some p) : ∃ q, h.productions[id]? = some q ∧ p.Alike R q :=
  forallAt alike.productions found

theorem Alike.includes (alike : Alike R g h) : Includes R Eq g h where
  names := alike.names
  wellFormed := alike.wellFormed
  wellFormed' := alike.wellFormed'
  productions found := by
    obtain ⟨q, found', same⟩ := alike.production found
    exact ⟨_, q, rfl, found', same⟩
  numbers first second := first.symm.trans second

theorem Alike.next (alike : Alike R g h) {i : Item} {x : Symbol} (next : i.next? g.productions = some x) :
    ∃ y, i.next? h.productions = some y ∧ R x y := alike.includes.next rfl next

theorem Alike.nextIff (alike : Alike R g h) {i : Item} {x y : Symbol} (related : R x y) :
    i.next? g.productions = some x ↔ i.next? h.productions = some y := by
  constructor
  · intro next
    obtain ⟨y', next', related'⟩ := alike.next next
    rwa [(alike.names.unique related related').1 rfl]
  · intro next
    obtain ⟨x', next', related'⟩ := alike.symm.next next
    rwa [(alike.names.unique related related').2 rfl]

theorem Alike.atEnd (alike : Alike R g h) (i : Item) :
    i.atEnd g.productions = i.atEnd h.productions := by
  unfold Item.atEnd
  cases found : g.productions[i.production]? with
  | none =>
    have missing : h.productions[i.production]? = none := by
      rw [List.getElem?_eq_none_iff] at found ⊢
      have same := alike.size
      unfold Grammar.size at same
      omega
    rw [missing]
  | some p =>
    obtain ⟨q, found', same⟩ := alike.production found
    rw [found']
    simp only [same.rhs.length_eq]

theorem Alike.inClosure (alike : Alike R g h) {kernel : List Item} {i : Item}
    (inside : g.InClosure kernel i) : h.InClosure kernel i := by
  induction inside with
  | kernel listed => exact .kernel listed
  | predict before next found ih =>
    obtain ⟨q, found', same⟩ := alike.production found
    exact .predict ih ((alike.nextIff same.lhs).1 next) found'

theorem Alike.closeItems (alike : Alike R g h) (kernel : List Item) :
    g.closeItems kernel = h.closeItems kernel := by
  refine SortedSet.eqOfMembers (SortedSet.sorted _) (SortedSet.sorted _) fun i => ?_
  show i ∈ g.closeItems kernel ↔ i ∈ h.closeItems kernel
  rw [memCloseItems alike.wellFormed, memCloseItems alike.wellFormed']
  exact ⟨alike.inClosure, alike.symm.inClosure⟩

theorem Alike.gotoItems (alike : Alike R g h) (items : List Item) {x y : Symbol} (related : R x y) :
    g.gotoItems items x = h.gotoItems items y := by
  have picked : (items.filter fun i => i.next? g.productions = some x) =
      items.filter fun i => i.next? h.productions = some y :=
    List.filter_congr fun i _ => by simp [alike.nextIff related]
  rw [Grammar.gotoItems, picked, alike.closeItems]
  rfl

theorem Alike.nextSymbols (alike : Alike R g h) (items : List Item) :
    List.Forall₂ R (g.nextSymbols items) (h.nextSymbols items) := by
  refine forallEraseDups alike.names.unique ?_
  induction items with
  | nil => exact .nil
  | cons i items ih =>
    rw [List.filterMap_cons, List.filterMap_cons]
    cases next : i.next? g.productions with
    | none =>
      have none' : i.next? h.productions = none := by
        rw [Option.eq_none_iff_forall_ne_some]
        intro y next'
        obtain ⟨x, found, _⟩ := alike.symm.next next'
        rw [next] at found
        contradiction
      rw [none']
      exact ih
    | some x =>
      obtain ⟨y, next', related⟩ := alike.next next
      rw [next']
      exact .cons related ih

theorem Alike.successors (alike : Alike R g h) : g.successors = h.successors := by
  funext items
  have same := alike.nextSymbols items
  unfold Grammar.successors
  generalize g.nextSymbols items = xs at same
  generalize h.nextSymbols items = ys at same
  induction same with
  | nil => rfl
  | cons related _ ih => rw [List.map_cons, List.map_cons, ih, alike.gotoItems items related]

theorem Alike.allItems (alike : Alike R g h) : g.allItems = h.allItems := by
  have lengths : g.productions.map (fun p => p.rhs.length) = h.productions.map fun p => p.rhs.length := by
    have same := alike.productions
    generalize g.productions = ps at same
    generalize h.productions = qs at same
    induction same with
    | nil => rfl
    | cons first _ ih => rw [List.map_cons, List.map_cons, ih, first.rhs.length_eq]
  have listed (g : Grammar) : g.allItems = (g.productions.map fun p => p.rhs.length).zipIdx.flatMap
      fun e => (List.range (e.1 + 1)).map fun dot => ⟨e.2, dot⟩ := by
    simp [Grammar.allItems, List.zipIdx_map, List.flatMap_map]
  rw [listed g, listed h, lengths]

theorem Alike.collection (alike : Alike R g h) : g.collection = h.collection := by
  rw [Grammar.collection, alike.successors, setBound, alike.allItems, initialItems, alike.closeItems,
    alike.startProduction]
  rfl

theorem Alike.holds (alike : Alike R g h) {s : Nat} {i : Item} :
    Holds g.lr0States s i ↔ Holds h.lr0States s i := by
  rw [holdsIff, holdsIff, alike.collection]

theorem Alike.moves (alike : Alike R g h) {s t : Nat} {x y : Symbol} (related : R x y) :
    Moves g.lr0States s x t ↔ Moves h.lr0States s y t := by
  have next (items : List Item) : x ∈ g.nextSymbols items ↔ y ∈ h.nextSymbols items := by
    rw [memNextSymbols, memNextSymbols]
    simp only [alike.nextIff related]
  rw [movesIff alike.wellFormed, movesIff alike.wellFormed', alike.collection]
  simp only [next, alike.gotoItems _ related]

theorem Alike.corresponds (alike : Alike R g h) : Corresponds R Eq Eq g h where
  toIncludes := alike.includes
  start := rfl
  placed _ := ⟨_, rfl⟩
  unique first second := first.symm.trans second
  holds := by
    rintro s _ id _ dot rfl rfl held
    exact alike.holds.1 held
  moves := by
    rintro s _ s' x y rfl related move
    exact ⟨s', (alike.moves related).1 move, rfl⟩

theorem Alike.lookaheadSub (alike : Alike R g h) {found found' : Lookaheads}
    (answer : g.lookaheads g.lr0States = .ok found) (answer' : h.lookaheads h.lr0States = .ok found')
    {s id : Nat} {x y : Symbol} (related : R x y) (member : x ∈ found.getD ⟨s, id⟩ ∅) :
    y ∈ found'.getD ⟨s, id⟩ ∅ := by
  obtain ⟨y', member', related'⟩ := alike.corresponds.lookahead answer answer' rfl rfl member
  rwa [(alike.names.unique related related').1 rfl]

theorem Alike.lookahead (alike : Alike R g h) {found found' : Lookaheads}
    (answer : g.lookaheads g.lr0States = .ok found) (answer' : h.lookaheads h.lr0States = .ok found')
    {s id : Nat} {x y : Symbol} (related : R x y) :
    x ∈ found.getD ⟨s, id⟩ ∅ ↔ y ∈ found'.getD ⟨s, id⟩ ∅ :=
  ⟨alike.lookaheadSub answer answer' related, alike.symm.lookaheadSub answer' answer related⟩

theorem Alike.terminals (alike : Alike R g h) {x y : Symbol} (related : R x y) :
    x ∈ g.terminals ↔ y ∈ h.terminals := by
  constructor
  · intro known
    obtain ⟨y', known', related'⟩ := alike.includes.terminal known
    rwa [(alike.names.unique related related').1 rfl]
  · intro known
    obtain ⟨x', known', related'⟩ := alike.symm.includes.terminal known
    rwa [(alike.names.unique related related').2 rfl]

theorem Alike.completion (alike : Alike R g h) {x y : Symbol} (related : R x y) (id : Nat) :
    g.completion? x id = h.completion? y id := by
  have last := alike.names.unique related alike.names.endOfInput
  have error := alike.names.unique related alike.names.error
  simp only [completion?, alike.startProduction, last, error]

theorem Alike.completed (alike : Alike R g h) (items : List Item) : g.completed items = h.completed items := by
  have same : Item.atEnd g.productions = Item.atEnd h.productions := funext alike.atEnd
  rw [Grammar.completed, same]
  rfl

theorem Alike.usesError (alike : Alike R g h) : g.usesError = h.usesError :=
  Bool.eq_iff_iff.2 ⟨alike.includes.usesError, alike.symm.includes.usesError⟩

end Grammar

namespace State

def Mentions (s : State) (x : Symbol) : Prop := s.transitions.get? x ≠ none ∨ s.actionsOn x ≠ []

structure Alike (R : Symbol → Symbol → Prop) (s t : State) : Prop where
  items : s.items = t.items
  moves : ∀ {x y}, R x y → s.transitions.get? x = t.transitions.get? y
  actions : ∀ {x y}, R x y → s.actionsOn x = t.actionsOn y
  named : ∀ {x}, s.Mentions x → ∃ y, R x y
  named' : ∀ {y}, t.Mentions y → ∃ x, R x y

theorem Alike.symm {R : Symbol → Symbol → Prop} {s t : State} (h : Alike R s t) :
    Alike (fun y x => R x y) t s :=
  ⟨h.items.symm, fun related => (h.moves related).symm, fun related => (h.actions related).symm,
    h.named', h.named⟩

end State

namespace Grammar
open Table
variable {R : Symbol → Symbol → Prop} {g h : Grammar}

theorem Alike.lr0Named (alike : Alike R g h) {s : Nat} {st : State} (here : g.lr0States[s]? = some st)
    {x : Symbol} (mentions : st.Mentions x) : ∃ y, R x y := by
  rcases mentions with moves | acts
  · obtain ⟨t, move⟩ := Option.ne_none_iff_exists'.1 moves
    exact alike.includes.moved ((movesAt here).1 move)
  · obtain ⟨action, listed⟩ := List.exists_mem_of_ne_nil _ acts
    exact alike.includes.offered ((actionsOffered alike.wellFormed here).1 listed)

theorem Alike.lr0State (alike : Alike R g h) {s : Nat} {st st' : State}
    (here : g.lr0States[s]? = some st) (here' : h.lr0States[s]? = some st') : State.Alike R st st' := by
  have moves {x y : Symbol} (related : R x y) : st.transitions.get? x = st'.transitions.get? y := by
    refine Option.ext fun t => ?_
    rw [movesAt here, movesAt here', alike.moves related]
  refine ⟨?_, moves, ?_, alike.lr0Named here, alike.symm.lr0Named here'⟩
  · obtain ⟨items, placed, rfl⟩ := stateAt.1 here
    obtain ⟨items', placed', rfl⟩ := stateAt.1 here'
    rw [alike.collection] at placed
    rw [stateOfItems, stateOfItems]
    exact Option.some.inj (placed.symm.trans placed')
  · intro x y related
    obtain ⟨items, placed, row⟩ := lr0Row here x
    obtain ⟨items', placed', row'⟩ := lr0Row here' y
    rw [alike.collection] at placed
    obtain rfl := Option.some.inj (placed.symm.trans placed')
    have known : x ∈ st.transitions.keys ++ g.terminals ↔ y ∈ st'.transitions.keys ++ h.terminals := by
      simp only [List.mem_append, SortedMap.memKeys, moves related, alike.terminals related]
    have advance (t : Nat) : advanceAction x t = advanceAction y t := by
      simp only [advanceAction, alike.names.terminal related]
    have completion : g.completion? x = h.completion? y := funext (alike.completion related)
    rw [row, row']
    simp only [known, rowOf, moves related, alike.names.terminal related, alike.completed, completion,
      funext advance]

end Grammar
end ForkingLR
