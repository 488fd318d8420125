import ForkingLR.Proofs.Automaton.Totality
import ForkingLR.Proofs.Grammar.Agreement
import ForkingLR.Proofs.Grammar.Writing
import ForkingLR.Proofs.Table.Renumbering
import Mathlib.Data.List.FinRange
import Mathlib.Data.Set.Function

/-! Building does not depend on how productions are numbered: rules listed in another order give the same
table, with its states and productions renamed. -/
namespace ForkingLR

def reorder {α : Type} (l : List α) (π : Equiv.Perm (Fin l.length)) : List α :=
  List.ofFn fun i => l.get (π.symm i)

def renumber {n : Nat} (π : Equiv.Perm (Fin n)) : Equiv.Perm Nat := π.extendDomain Fin.equivSubtype

theorem reorderPerm {α : Type} (l : List α) (π : Equiv.Perm (Fin l.length)) : (reorder l π).Perm l := by
  have perm := Equiv.Perm.ofFn_comp_perm π.symm l.get
  rwa [List.ofFn_get] at perm

theorem reorderAt {α : Type} (l : List α) (π : Equiv.Perm (Fin l.length)) (a : α) (i : Nat) :
    (reorder l π ++ [a])[renumber π i]? = (l ++ [a])[i]? := by
  have length : (reorder l π).length = l.length := List.length_ofFn
  by_cases inside : i < l.length
  · have moved : renumber π i = (π ⟨i, inside⟩).val :=
      Equiv.Perm.extendDomain_apply_subtype π Fin.equivSubtype inside
    rw [moved, List.getElem?_append_left (length.symm ▸ (π ⟨i, inside⟩).isLt), List.getElem?_append_left inside]
    simp [reorder]
  · have stays : renumber π i = i := Equiv.Perm.extendDomain_apply_not_subtype π Fin.equivSubtype inside
    rw [stays, List.getElem?_append_right (by omega), List.getElem?_append_right (by omega), length]

theorem partnersLength {α β : Type} {R : α → β → Prop} {k : List α} {l : List β} (distinct : k.Nodup)
    (partner : ∀ a ∈ k, ∃ b ∈ l, R a b) (unique : ∀ a ∈ k, ∀ a' ∈ k, ∀ b, R a b → R a' b → a = a') :
    k.length ≤ l.length := by
  choose f inside related using partner
  have different : (k.attach.map fun a => f a.1 a.2).Nodup := by
    refine (List.nodup_attach.2 distinct).map_on ?_
    rintro ⟨a, listed⟩ _ ⟨a', listed'⟩ _ same
    have other := related a' listed'
    rw [← show f a listed = f a' listed' from same] at other
    exact Subtype.ext (unique a listed a' listed' _ (related a listed) other)
  have covered : (k.attach.map fun a => f a.1 a.2) ⊆ l := by
    intro b listed
    obtain ⟨⟨a, there⟩, _, rfl⟩ := List.mem_map.1 listed
    exact inside a there
  simpa using (List.subperm_of_subset different covered).length_le

def Item.renumber (number : Nat → Nat) (i : Item) : Item := ⟨number i.production, i.dot⟩

def Action.rename (state number : Nat → Nat) : Action → Action
  | .shift target => .shift (state target)
  | .reduce production => .reduce (number production)
  | .goto target => .goto (state target)
  | .accept => .accept

namespace Automaton

def moveBy? (a : Automaton) (s : Nat) (name : String) : Option Nat := do
  let x ← a.grammar.symbols.lookup? name
  let state ← a.states[s]?
  state.transitions.get? x

def actionsBy (a : Automaton) (s : Nat) (name : String) : List Action :=
  match a.grammar.symbols.lookup? name with
  | some x => a.actions s x
  | none => []

/-- `b` is the table `a` with its states and productions renamed. -/
structure Renamed (state number : Nat → Nat) (a b : Automaton) : Prop where
  states : Set.BijOn state {s | s < a.size} {t | t < b.size}
  start : state 0 = 0
  items : ∀ {s : Nat} {t t' : State}, a.states[s]? = some t → b.states[state s]? = some t' →
    (t.items.map (Item.renumber number)).Perm t'.items
  moves : ∀ {s}, s < a.size → ∀ name, (a.moveBy? s name).map state = b.moveBy? (state s) name
  actions : ∀ {s}, s < a.size → ∀ name,
    ((a.actionsBy s name).map (Action.rename state number)).Perm (b.actionsBy (state s) name)
  size : a.size = b.size
  conflicts : a.conflicts.length = b.conflicts.length
  lookaheads : ∃ found found', a.grammar.lookaheads a.grammar.lr0States = .ok found ∧
    b.grammar.lookaheads b.grammar.lr0States = .ok found' ∧
    ∀ {s}, s < a.size → ∀ id name, name ∈ (found.getD ⟨s, id⟩ ∅).toList.map a.name ↔
      name ∈ (found'.getD ⟨state s, number id⟩ ∅).toList.map b.name

end Automaton

namespace Grammar
open Table
variable {R : Symbol → Symbol → Prop} {N S : Nat → Nat → Prop} {g h : Grammar} {config : TableConfig}

theorem Corresponds.allows (same : Corresponds R N S g h) {s t : Nat} {x y : Symbol} {action : Action}
    (here : S s t) (related : R x y) (allowed : g.Allows config s x action) :
    ∃ action', action.Alike N S action' ∧ h.Allows config t y action' := by
  obtain ⟨action', alike, offer⟩ := same.offers here related allowed.offered
  refine ⟨action', alike, offer, ?_⟩
  rintro wanted id' found' rfl answer'
  cases alike with
  | reduce number =>
    obtain ⟨_, found, _, answer, _⟩ := lookaheadsCollect same.wellFormed
    obtain ⟨y', member, related'⟩ :=
      same.lookahead answer answer' here number (allowed.expected wanted rfl answer)
    rwa [(same.names.unique related related').1 rfl]

end Grammar

namespace Automaton
open Table
variable {g : Grammar} {config : TableConfig} {a b : Automaton}

structure Exact (a : Automaton) : Prop where
  trimmed : a.Trimmed
  nodup : ∀ s x, (a.actions s x).Nodup
  actions : ∀ {s x action}, action ∈ a.actions s x ↔ a.grammar.Allows a.config s x action
  size : a.size = a.grammar.collection.length
  items : ∀ {s : Nat} {t : State}, a.states[s]? = some t → a.grammar.collection[s]? = some t.items

theorem exactBuild (built : g.Built) (table : build g config = .ok a) (free : config.precedence = false)
    (strict : config.lookahead = true → g.usesError = false) : a.Exact := by
  have trimmed := trimmedBuild built table
  have nodup := nodupBuild built table
  obtain ⟨rfl, rfl, _, states, looked, settled⟩ := buildIff.1 table
  have kept := keptSettle looked settled
  obtain rfl : states = a.states := by
    rw [Grammar.settle, free] at settled
    exact Except.ok.inj settled
  have size : a.size = a.grammar.collection.length := by
    rw [Automaton.size, ← kept.1, Grammar.lr0States, List.length_map]
  refine ⟨trimmed, nodup, ?_, size, ?_⟩
  · intro s x action
    cases placed : a.states[s]? with
    | some t =>
      rw [actionsAt placed]
      exact Grammar.lookedIff built.wellFormed strict looked placed
    | none =>
      simp only [Automaton.actions, placed, List.not_mem_nil, false_iff]
      intro allowed
      obtain ⟨st, there⟩ := offersState allowed.offered
      obtain ⟨t, some, _⟩ := kept.ofBefore there
      rw [placed] at some
      contradiction
  · intro s t placed
    obtain ⟨st, before, same⟩ := kept.ofAfter placed
    obtain ⟨items, there, rfl⟩ := Grammar.stateAt.1 before
    rw [same.items, Grammar.stateOfItems, there]

theorem placedAction {s : Nat} {x : Symbol} {action : Action} (listed : action ∈ a.actions s x) : s < a.size := by
  by_contra beyond
  rw [Automaton.actions, List.getElem?_eq_none (not_lt.1 beyond)] at listed
  contradiction

theorem moveByIff {s t : Nat} {name : String} :
    a.moveBy? s name = some t ↔ ∃ x, a.grammar.symbols.Stands x name ∧ Moves a.states s x t := by
  simp [moveBy?, Moves, SymbolTable.Stands, Option.bind_eq_some_iff]

theorem memActionsBy {s : Nat} {name : String} {action : Action} :
    action ∈ a.actionsBy s name ↔ ∃ x, a.grammar.symbols.Stands x name ∧ action ∈ a.actions s x := by
  unfold actionsBy SymbolTable.Stands
  cases a.grammar.symbols.lookup? name <;> simp

theorem partnerNamed {g h : Grammar} {x y : Symbol} {name : String} (same : Grammar.SameName g h x y)
    (stands : g.symbols.Stands x name) : h.symbols.Stands y name := by
  have found := (Grammar.sameNameIff same.known).1 same
  rwa [show g.name x = name from stands.spelled] at found

section
variable {R : Symbol → Symbol → Prop} {N S : Nat → Nat → Prop}
  (same : Grammar.Corresponds R N S a.grammar b.grammar) (exact : a.Exact) (exact' : b.Exact)
  (named : ∀ {x y}, R x y → Grammar.SameName a.grammar b.grammar x y) {s t : Nat} (here : S s t) {name : String}
include same exact exact' named here

theorem moveCarried {s' : Nat} (move : a.moveBy? s name = some s') :
    ∃ t', b.moveBy? t name = some t' ∧ S s' t' := by
  obtain ⟨x, stands, move⟩ := moveByIff.1 move
  rw [exact.trimmed.moves] at move
  obtain ⟨y, related⟩ := same.moved move
  obtain ⟨t', move', there⟩ := same.moves here related move
  rw [← exact'.trimmed.moves] at move'
  exact ⟨t', moveByIff.2 ⟨y, partnerNamed (named related) stands, move'⟩, there⟩

theorem actionCarried (config : a.config = b.config) {action : Action} (listed : action ∈ a.actionsBy s name) :
    ∃ action' ∈ b.actionsBy t name, action.Alike N S action' := by
  obtain ⟨x, stands, listed⟩ := memActionsBy.1 listed
  have allowed := exact.actions.1 listed
  obtain ⟨y, related⟩ := same.offered allowed.offered
  obtain ⟨action', alike, allowed'⟩ := same.allows here related allowed
  rw [config] at allowed'
  exact ⟨action', memActionsBy.2 ⟨y, partnerNamed (named related) stands, exact'.actions.2 allowed'⟩, alike⟩

end

theorem Exact.nodupBy (exact : a.Exact) (s : Nat) (name : String) : (a.actionsBy s name).Nodup := by
  unfold actionsBy
  split
  · exact exact.nodup s _
  · exact List.nodup_nil

structure Matched (state number : Nat → Nat) (a b : Automaton) : Prop where
  permuted : Grammar.Permuted (Grammar.SameName a.grammar b.grammar) (fun id k => number id = k) a.grammar b.grammar
  left : a.Exact
  right : b.Exact
  config : a.config = b.config
  twins : ∀ {s}, s < a.size → Grammar.TwinStates (fun id k => number id = k) a.grammar b.grammar s (state s)

namespace Matched
variable {state number : Nat → Nat} (matched : Matched state number a b)
include matched

theorem unique {s t : Nat} (twins : Grammar.TwinStates (fun id k => number id = k) a.grammar b.grammar s t) :
    s < a.size ∧ t < b.size ∧ t = state s := by
  obtain ⟨items, items', placed, placed', _⟩ := id twins
  have bound : s < a.size := matched.left.size ▸ (List.getElem?_eq_some_iff.1 placed).1
  have bound' : t < b.size := matched.right.size ▸ (List.getElem?_eq_some_iff.1 placed').1
  exact ⟨bound, bound', matched.permuted.corresponds.unique twins (matched.twins bound)⟩

theorem states : Set.BijOn state {s | s < a.size} {t | t < b.size} := by
  refine ⟨fun s bound => (matched.unique (matched.twins bound)).2.1, ?_, ?_⟩
  · intro s bound s' bound' same
    have twins' : Grammar.TwinStates _ _ _ s' (state s) := same ▸ matched.twins bound'
    exact matched.permuted.symm.corresponds.unique (matched.twins bound).symm twins'.symm
  · intro t bound
    have placed := List.getElem?_eq_getElem (matched.right.size ▸ bound : t < b.grammar.collection.length)
    obtain ⟨s, twins⟩ := matched.permuted.symm.twinState placed
    obtain ⟨inside, _, same⟩ := matched.unique twins.symm
    exact ⟨s, inside, same.symm⟩

theorem rename {action action' : Action}
    (alike : action.Alike (fun id k => number id = k)
      (Grammar.TwinStates (fun id k => number id = k) a.grammar b.grammar) action') :
    action.rename state number = action' := by
  cases alike with
  | shift target => rw [Action.rename, (matched.unique target).2.2]
  | reduce number => rw [Action.rename, number]
  | goto target => rw [Action.rename, (matched.unique target).2.2]
  | accept => rfl

theorem moves {s : Nat} (bound : s < a.size) (name : String) :
    (a.moveBy? s name).map state = b.moveBy? (state s) name := by
  have here := matched.twins bound
  refine Option.ext fun t => ?_
  rw [Option.map_eq_some_iff]
  constructor
  · rintro ⟨s', move, rfl⟩
    obtain ⟨t', move', there⟩ := moveCarried matched.permuted.corresponds matched.left matched.right id here move
    rwa [← (matched.unique there).2.2]
  · intro move
    obtain ⟨s', move', there⟩ := moveCarried matched.permuted.symm.corresponds matched.right matched.left
      Grammar.SameName.symm here.symm move
    exact ⟨s', move', (matched.unique there.symm).2.2.symm⟩

theorem actionAlike {s : Nat} (bound : s < a.size) {name : String} {action : Action}
    (listed : action ∈ a.actionsBy s name) :
    action.rename state number ∈ b.actionsBy (state s) name ∧
      action.Alike (fun id k => number id = k)
        (Grammar.TwinStates (fun id k => number id = k) a.grammar b.grammar) (action.rename state number) := by
  obtain ⟨action', listed', alike⟩ := actionCarried matched.permuted.corresponds matched.left matched.right id
    (matched.twins bound) matched.config listed
  rw [matched.rename alike]
  exact ⟨listed', alike⟩

theorem actionRenamed {s : Nat} (bound : s < a.size) {name : String} {action' : Action}
    (listed : action' ∈ b.actionsBy (state s) name) :
    ∃ action ∈ a.actionsBy s name, action.rename state number = action' := by
  obtain ⟨action, listed', alike⟩ := actionCarried matched.permuted.symm.corresponds matched.right matched.left
    Grammar.SameName.symm (matched.twins bound).symm matched.config.symm listed
  have alike' := alike.symm
  simp only [Grammar.twinStatesSwap] at alike'
  exact ⟨action, listed', matched.rename alike'⟩

theorem actions {s : Nat} (bound : s < a.size) (name : String) :
    ((a.actionsBy s name).map (Action.rename state number)).Perm (b.actionsBy (state s) name) := by
  have back := matched.permuted.symm.corresponds
  refine (List.perm_ext_iff_of_nodup ?_ (matched.right.nodupBy _ name)).2 fun action' => ?_
  · refine (matched.left.nodupBy s name).map_on ?_
    intro action listed other listed' same
    have alike := (matched.actionAlike bound listed).2
    have alike' := (matched.actionAlike bound listed').2
    rw [← same] at alike'
    exact alike.symm.unique alike'.symm back.numbers fun twins twins' => back.unique twins.symm twins'.symm
  · rw [List.mem_map]
    constructor
    · rintro ⟨action, listed, rfl⟩
      exact (matched.actionAlike bound listed).1
    · exact matched.actionRenamed bound

theorem items {s : Nat} {t t' : State} (placed : a.states[s]? = some t) (placed' : b.states[state s]? = some t') :
    (t.items.map (Item.renumber number)).Perm t'.items := by
  have permuted := matched.permuted
  have bound := (List.getElem?_eq_some_iff.1 placed).1
  obtain ⟨items, items', there, there', twins⟩ := matched.twins bound
  obtain rfl := Option.some.inj ((matched.left.items placed).symm.trans there)
  obtain rfl := Option.some.inj ((matched.right.items placed').symm.trans there')
  have distinct : t.items.Nodup := SortedSet.nodup ⟨_, Grammar.itemsSorted permuted.left.wellFormed there⟩
  have distinct' : t'.items.Nodup := SortedSet.nodup ⟨_, Grammar.itemsSorted permuted.left.wellFormed' there'⟩
  refine (List.perm_ext_iff_of_nodup ?_ distinct').2 fun j => ?_
  · refine distinct.map_on ?_
    rintro ⟨id, dot⟩ _ ⟨id', dot'⟩ _ same
    simp only [Item.renumber, Item.mk.injEq] at same
    rw [permuted.right.numbers same.1 rfl, same.2]
  · rw [List.mem_map]
    constructor
    · rintro ⟨i, inside, rfl⟩
      exact twins.left i inside _ ⟨rfl, rfl⟩
    · intro inside
      obtain ⟨i, inside', alike⟩ := permuted.symm.twinItem twins.symm there' inside
      refine ⟨i, inside', ?_⟩
      rw [Item.renumber, alike.number, ← alike.dot]

theorem lookaheads : ∃ found found', a.grammar.lookaheads a.grammar.lr0States = .ok found ∧
    b.grammar.lookaheads b.grammar.lr0States = .ok found' ∧
    ∀ {s}, s < a.size → ∀ id name, name ∈ (found.getD ⟨s, id⟩ ∅).toList.map a.name ↔
      name ∈ (found'.getD ⟨state s, number id⟩ ∅).toList.map b.name := by
  have permuted := matched.permuted
  obtain ⟨_, found, _, answer, _⟩ := Grammar.lookaheadsCollect permuted.left.wellFormed
  obtain ⟨_, found', _, answer', _⟩ := Grammar.lookaheadsCollect permuted.left.wellFormed'
  refine ⟨found, found', answer, answer', ?_⟩
  intro s bound id name
  have here := matched.twins bound
  rw [List.mem_map, List.mem_map]
  constructor
  · rintro ⟨x, member, rfl⟩
    obtain ⟨y, member', same⟩ := permuted.corresponds.lookahead answer answer' here rfl member
    exact ⟨y, member', same.name.symm⟩
  · rintro ⟨y, member, rfl⟩
    obtain ⟨x, member', same⟩ := permuted.symm.corresponds.lookahead answer' answer here.symm rfl member
    exact ⟨x, member', same.name⟩

end Matched

theorem conflictsNodup (a : Automaton) : a.conflicts.Nodup := by
  unfold conflicts
  refine List.nodup_flatMap.2 ⟨?_, ?_⟩
  · rintro ⟨st, s⟩ _
    refine List.Nodup.map ?_ ?_
    · rintro ⟨x, row⟩ ⟨x', row'⟩ same
      cases same
      rfl
    · exact List.Nodup.filter _ (List.Nodup.of_map Prod.fst (SortedMap.keysNodup st.rows))
  · have positions : (a.states.zipIdx.map Prod.snd).Nodup := by
      rw [List.zipIdx_map_snd]
      exact List.nodup_range'
    refine (List.pairwise_map.1 positions).imp ?_
    rintro ⟨st, s⟩ ⟨st', s'⟩ different c listed listed'
    obtain ⟨_, _, rfl⟩ := List.mem_map.1 listed
    obtain ⟨_, _, same⟩ := List.mem_map.1 listed'
    exact different (congrArg Prod.fst same).symm

namespace Matched
variable {state number : Nat → Nat} (matched : Matched state number a b)
include matched

theorem rowLength {s : Nat} (bound : s < a.size) {x y : Symbol}
    (same : Grammar.SameName a.grammar b.grammar x y) :
    (a.actions s x).length = (b.actions (state s) y).length := by
  obtain ⟨name, found, found'⟩ := same
  have perm := (matched.actions bound name).length_eq
  rwa [List.length_map, actionsBy, actionsBy, found, found'] at perm

def Twin (state : Nat → Nat) (a b : Automaton) (c d : Nat × Symbol × List Action) : Prop :=
  state c.1 = d.1 ∧ Grammar.SameName a.grammar b.grammar c.2.1 d.2.1

theorem conflictsLe : a.conflicts.length ≤ b.conflicts.length := by
  refine partnersLength (R := Twin state a b) (conflictsNodup a) ?_ ?_
  · rintro ⟨s, x, row⟩ listed
    obtain ⟨rfl, several⟩ := memConflicts.1 listed
    obtain ⟨action, member⟩ := List.exists_mem_of_length_pos (Nat.lt_of_succ_lt several)
    obtain ⟨y, same⟩ := matched.permuted.left.offered (matched.left.trimmed.offers member)
    have length := matched.rowLength (placedAction member) same
    exact ⟨(state s, y, b.actions (state s) y), memConflicts.2 ⟨rfl, length ▸ several⟩, rfl, same⟩
  · rintro ⟨s, x, row⟩ listed ⟨s', x', row'⟩ listed' ⟨t, y, _⟩ ⟨here, same⟩ ⟨here', same'⟩
    obtain ⟨rfl, several⟩ := memConflicts.1 listed
    obtain ⟨rfl, several'⟩ := memConflicts.1 listed'
    obtain ⟨action, member⟩ := List.exists_mem_of_length_pos (Nat.lt_of_succ_lt several)
    obtain ⟨action', member'⟩ := List.exists_mem_of_length_pos (Nat.lt_of_succ_lt several')
    obtain rfl := matched.states.injOn (placedAction member) (placedAction member') (here.trans here'.symm)
    obtain rfl := (matched.permuted.left.names.unique same same').2 rfl
    rfl

theorem conflictsGe : b.conflicts.length ≤ a.conflicts.length := by
  refine partnersLength (R := fun d c => Twin state a b c d) (conflictsNodup b) ?_ ?_
  · rintro ⟨t, y, row⟩ listed
    obtain ⟨rfl, several⟩ := memConflicts.1 listed
    obtain ⟨action, member⟩ := List.exists_mem_of_length_pos (Nat.lt_of_succ_lt several)
    obtain ⟨x, same⟩ := matched.permuted.right.offered (matched.right.trimmed.offers member)
    obtain ⟨s, bound, rfl⟩ := matched.states.surjOn (placedAction member)
    have length := matched.rowLength bound same
    exact ⟨(s, x, a.actions s x), memConflicts.2 ⟨rfl, length ▸ several⟩, rfl, same⟩
  · rintro ⟨t, y, row⟩ listed ⟨t', y', row'⟩ listed' ⟨s, x, _⟩ ⟨here, same⟩ ⟨here', same'⟩
    obtain ⟨rfl, _⟩ := memConflicts.1 listed
    obtain ⟨rfl, _⟩ := memConflicts.1 listed'
    obtain rfl : t = t' := here.symm.trans here'
    obtain rfl := (matched.permuted.left.names.unique same same').1 rfl
    rfl

theorem size : a.size = b.size := by
  have states := matched.states
  have fewer : (List.range a.size).length ≤ (List.range b.size).length := by
    refine partnersLength (R := fun s t => state s = t) List.nodup_range ?_ ?_
    · intro s inside
      exact ⟨state s, List.mem_range.2 (states.mapsTo (List.mem_range.1 inside)), rfl⟩
    · intro s inside s' inside' t same same'
      exact states.injOn (List.mem_range.1 inside) (List.mem_range.1 inside') (same.trans same'.symm)
  have more : (List.range b.size).length ≤ (List.range a.size).length := by
    refine partnersLength (R := fun t s => state s = t) List.nodup_range ?_ fun t _ t' _ s same same' =>
      same.symm.trans same'
    intro t inside
    obtain ⟨s, bound, same⟩ := states.surjOn (List.mem_range.1 inside)
    exact ⟨s, List.mem_range.2 bound, same⟩
  simpa using Nat.le_antisymm fewer more

theorem renamed : Renamed state number a b where
  states := matched.states
  start := (matched.unique matched.permuted.corresponds.start).2.2.symm
  items := matched.items
  moves := matched.moves
  actions := matched.actions
  size := matched.size
  conflicts := Nat.le_antisymm matched.conflictsLe matched.conflictsGe
  lookaheads := matched.lookaheads

end Matched

end Automaton

namespace Grammar
variable {g h : Grammar} {start : String} {rules : List (Production String)}

theorem includesMoved {k l : List (Production String)} {N : Nat → Nat → Prop} (wf : g.WellFormed)
    (wf' : h.WellFormed) (left : List.Forall₂ (Production.Alike g.symbols.Stands) g.productions k)
    (right : List.Forall₂ (Production.Alike h.symbols.Stands) h.productions l)
    (numbers : ∀ {id n n'}, N id n → N id n' → n = n') (moved : ∀ id, ∃ n, N id n ∧ l[n]? = k[id]?) :
    Includes (SameName g h) N g h := by
  refine ⟨renamingSameName g h, wf, wf', ?_, numbers⟩
  intro id p found
  obtain ⟨r, here, one⟩ := forallAt left found
  obtain ⟨n, number, there⟩ := moved id
  obtain ⟨q, found', two⟩ := forallAt right.flip (there.trans here)
  exact ⟨n, q, number, found', ⟨_, one.lhs, two.lhs⟩, forallJoin one.rhs two.rhs⟩

theorem Listed.permuted (listed : g.Listed start rules) {π : Equiv.Perm (Fin rules.length)}
    (listed' : h.Listed start (reorder rules π)) :
    Permuted (SameName g h) (fun id k => renumber π id = k) g h := by
  have wf := listed.built.wellFormed
  have wf' := listed'.built.wellFormed
  constructor
  · refine includesMoved wf wf' listed.productions listed'.productions
      (fun first second => first.symm.trans second) fun id => ⟨_, rfl, reorderAt rules π _ id⟩
  · rw [sameNameSwap]
    refine includesMoved wf' wf listed'.productions listed.productions
      (fun first second => (renumber π).injective (first.trans second.symm)) fun id => ?_
    refine ⟨(renumber π).symm id, (renumber π).apply_symm_apply id, ?_⟩
    rw [← reorderAt rules π, Equiv.apply_symm_apply]

theorem Listed.usesError (listed : g.Listed start rules) (plain : ∀ p ∈ rules, "ERROR" ∉ p.rhs) :
    g.usesError = false := by
  rw [Bool.eq_false_iff]
  intro uses
  simp only [Grammar.usesError, List.any_eq_true, List.contains_iff_mem] at uses
  obtain ⟨p, inside, used⟩ := uses
  obtain ⟨r, inside', alike⟩ := (forallMem listed.productions).1 p inside
  obtain ⟨name, used', stands⟩ := (forallMem alike.rhs).1 _ used
  obtain rfl : name = "ERROR" := stands.spelled.symm.trans (SymbolTable.nameOfLookup SymbolTable.lookupReserved.2.1)
  rcases List.mem_append.1 inside' with inside' | last
  · exact plain r inside' used'
  · obtain ⟨_, nameable, _⟩ := listedIff.1 ⟨g, listed⟩
    rw [List.mem_singleton.1 last, List.mem_singleton] at used'
    have kind := nameable.spelled
    rw [← used'] at kind
    exact absurd kind (by decide)

end Grammar

namespace Automaton
variable {config : TableConfig} {g h : Grammar} {a b : Automaton}

theorem matchedBuild {number : Nat → Nat} (built : g.Built) (built' : h.Built) (free : config.precedence = false)
    (strict : config.lookahead = true → g.usesError = false)
    (permuted : Grammar.Permuted (Grammar.SameName g h) (fun id k => number id = k) g h)
    (table : build g config = .ok a) (table' : build h config = .ok b) : ∃ state, Matched state number a b := by
  have strict' (wanted : config.lookahead = true) : h.usesError = false := by
    rw [Bool.eq_false_iff]
    intro uses
    have uses' := permuted.right.usesError uses
    rw [strict wanted] at uses'
    contradiction
  have exact := exactBuild built table free strict
  have exact' := exactBuild built' table' free strict'
  obtain ⟨rfl, rfl, _⟩ := buildIff.1 table
  obtain ⟨rfl, same, _⟩ := buildIff.1 table'
  have partner (s : Nat) (bound : s < a.size) :
      ∃ t, Grammar.TwinStates (fun id k => number id = k) a.grammar b.grammar s t :=
    permuted.twinState (List.getElem?_eq_getElem (exact.size ▸ bound : s < a.grammar.collection.length))
  choose! state twins using partner
  exact ⟨state, permuted, exact, exact', same.symm, fun bound => twins _ bound⟩

theorem reorderedTable {start : String} {rules : List (Production String)} (listed : g.Listed start rules)
    (π : Equiv.Perm (Fin rules.length)) (free : config.precedence = false)
    (plain : config.lookahead = true → ∀ p ∈ rules, "ERROR" ∉ p.rhs) :
    ∃ h a b state, h.Listed start (reorder rules π) ∧ build g config = .ok a ∧ build h config = .ok b ∧
      Renamed state (renumber π) a b := by
  obtain ⟨h, listed'⟩ := listed.anyOrder (reorderPerm rules π)
  obtain ⟨a, table⟩ := buildOk listed.built.wellFormed (.inl free)
  obtain ⟨b, table'⟩ := buildOk listed'.built.wellFormed (.inl free)
  obtain ⟨state, matched⟩ := matchedBuild listed.built listed'.built free
    (fun wanted => listed.usesError (plain wanted)) (listed.permuted listed') table table'
  exact ⟨h, a, b, state, listed', table, table', matched.renamed⟩

def arithmetic : List (Production String) :=
  [⟨"e", ["e", "PLUS", "e"]⟩, ⟨"e", ["e", "TIMES", "e"]⟩, ⟨"e", ["LPAREN", "e", "RPAREN"]⟩, ⟨"e", ["NUM"]⟩]

theorem arithmeticReordered :
    ∃ g h a b state, g.Listed "e" arithmetic ∧ h.Listed "e" arithmetic.reverse ∧
      build g ⟨true, false⟩ = .ok a ∧ build h ⟨true, false⟩ = .ok b ∧ b.conflicts.length = 4 ∧
      Renamed state (renumber (n := 4) Fin.revPerm) a b := by
  have counted : ((Draft.ofCalls (Draft.listing "e" arithmetic)).build.toOption.any fun g =>
      (build g ⟨true, false⟩).toOption.any fun a => decide (a.conflicts.length = 4)) = true := by decide +kernel
  obtain ⟨g, finished, counted⟩ := okOfAny counted
  have listed : g.Listed "e" arithmetic := by
    have answers : ((Draft.run (Draft.listing "e" arithmetic)).run' .empty).isSome = true := by decide +kernel
    cases ran : Draft.run (Draft.listing "e" arithmetic) .empty with
    | ok _ d => exact ⟨d, ran, Draft.runFold ran ▸ finished⟩
    | error _ _ =>
      delta EStateM.run' EStateM.run at answers
      rw [ran] at answers
      cases answers
  obtain ⟨h, a, b, state, listed', table, table', renamed⟩ :=
    @reorderedTable ⟨true, false⟩ _ _ _ listed Fin.revPerm rfl fun _ => by decide
  have backwards : reorder arithmetic Fin.revPerm = arithmetic.reverse := by decide
  rw [table] at counted
  exact ⟨g, h, a, b, state, listed, backwards ▸ listed', table, table',
    renamed.conflicts ▸ of_decide_eq_true counted, renamed⟩

end Automaton
end ForkingLR
