import ForkingLR.Proofs.Parser.Actions
import ForkingLR.Proofs.Tree
import Mathlib.Data.Set.Function

/-! What helpers compute. A tree of a nonempty list goes down its last children by the two rules of the helper, so
it is a series of elements with separators between them, and its value is the list of their values. A list is
nothing or a nonempty list, and an optional is nothing or its symbol. -/
namespace ForkingLR

/-- Elements, one at least, and what stands between neighbours: a separator, or nothing. -/
inductive Series (V : Type) where
  | last (item : Tree V)
  | more (item : Tree V) (between : Option (Tree V)) (rest : Series V)

namespace Tree
variable {V : Type}

/-- The tree goes down its last children by the second of two productions, and then once by the first. -/
inductive Spinal (single cons : Nat) : Tree V → Prop
  | single {children : List (Tree V)} : Spinal single cons (.node single children)
  | cons {children : List (Tree V)} {rest : Tree V} (below : Spinal single cons rest) :
      Spinal single cons (.node cons (children ++ [rest]))

def choice (absent present : Nat) : Option (Tree V) → Tree V
  | none => .node absent []
  | some t => .node present [t]

inductive Chosen (absent present : Nat) (P : Tree V → Prop) : Tree V → Prop
  | absent {children : List (Tree V)} : Chosen absent present P (.node absent children)
  | present {children : List (Tree V)} (each : ∀ t ∈ children, P t) : Chosen absent present P (.node present children)

end Tree

namespace Series
variable {V : Type}

def items : Series V → List (Tree V)
  | .last item => [item]
  | .more item _ rest => item :: rest.items

def parts : Series V → List (Tree V)
  | .last item => [item]
  | .more item between rest => item :: between.toList ++ rest.parts

inductive Fits (g : Grammar) (base : Symbol) (separator : Option Symbol) : Series V → Prop
  | last {item : Tree V} (derived : item.Derives g base) : Fits g base separator (.last item)
  | more {item : Tree V} {between : Option (Tree V)} {rest : Series V} (derived : item.Derives g base)
      (separated : Option.Rel (Tree.Derives g) separator between) (fits : Fits g base separator rest) :
      Fits g base separator (.more item between rest)

def tree (single cons : Nat) : Series V → Tree V
  | .last item => .node single [item]
  | .more item between rest => .node cons (item :: between.toList ++ [rest.tree single cons])

variable {single cons : Nat}

theorem treeSpinal (s : Series V) : (s.tree single cons).Spinal single cons := by
  induction s with
  | last item => exact .single
  | more item between rest ih => exact .cons ih

theorem treeInjective (different : single ≠ cons) : Function.Injective (tree single cons : Series V → Tree V) := by
  intro s
  induction s with
  | last item =>
    intro s' same
    cases s' with
    | last item' => simpa [tree] using same
    | more item' between' rest' => exact absurd (Tree.node.inj same).1 different
  | more item between rest ih =>
    intro s' same
    cases s' with
    | last item' => exact absurd (Tree.node.inj same).1.symm different
    | more item' between' rest' =>
      obtain ⟨rfl, tail⟩ := List.cons.inj (Tree.node.inj same).2
      obtain ⟨separators, below⟩ := List.append_inj' tail rfl
      rw [ih (List.singleton_inj.1 below)]
      cases between <;> cases between' <;> simp_all

theorem treeLeaves (s : Series V) : (s.tree single cons).leaves = s.parts.flatMap Tree.leaves := by
  induction s with
  | last item => simp [tree, parts, Tree.leaves]
  | more item between rest ih => simp [tree, parts, Tree.leaves, ih]

end Series

def Grammar.Numbers (g : Grammar) : List Rule → List Nat → Prop :=
  List.Forall₂ fun r id => g.production? id = some r.production ∧ g.origin? id = some r.origin

def Grammar.Defined (g : Grammar) (key : HelperKey) (x inner : Symbol) (i j : Nat) : Prop :=
  g.Numbers (key.rules x inner) [i, j]

theorem HelperKey.rulesPair (key : HelperKey) (x inner : Symbol) : ∃ r s, key.rules x inner = [r, s] := by
  unfold rules
  cases key.op <;> exact ⟨_, _, rfl⟩

section
variable {g : Grammar} {r s : Rule} {i j : Nat}

theorem Grammar.numbersPair : g.Numbers [r, s] [i, j] ↔
    (g.production? i = some r.production ∧ g.origin? i = some r.origin) ∧
      g.production? j = some s.production ∧ g.origin? j = some s.origin := by
  simp [Numbers]

theorem Grammar.numbersApart (numbered : g.Numbers [r, s] [i, j])
    (different : r.production.rhs.length ≠ s.production.rhs.length) : i ≠ j := by
  rintro rfl
  obtain ⟨⟨first, _⟩, second, _⟩ := numbersPair.1 numbered
  exact different (by rw [Option.some.inj (first.symm.trans second)])

theorem Tree.derivesBy {V : Type} {x : Symbol} {children : List (Tree V)}
    (found : g.production? i = some r.production) :
    (Tree.node i children).Derives g x ↔
      x = r.production.lhs ∧ List.Forall₂ (Tree.Derives g) r.production.rhs children := by
  rw [Tree.derivesNode]
  constructor
  · rintro ⟨p, found', rfl, below⟩
    cases found.symm.trans found'
    exact ⟨rfl, below⟩
  · rintro ⟨rfl, below⟩
    exact ⟨_, found, rfl, below⟩

end

theorem optionForall {α β : Type} {R : α → β → Prop} {a : Option α} {l : List β} :
    List.Forall₂ R a.toList l ↔ ∃ b, Option.Rel R a b ∧ b.toList = l := by
  constructor
  · intro related
    cases a with
    | none =>
      cases related
      exact ⟨none, .none, rfl⟩
    | some a =>
      obtain ⟨b, _, here, nothing, rfl⟩ := List.forall₂_cons_left_iff.1 related
      cases nothing
      exact ⟨some b, .some here, rfl⟩
  · rintro ⟨_, ⟨related⟩ | _, rfl⟩
    · exact .cons related .nil
    · exact .nil

namespace Series
variable {V : Type} {g : Grammar} {base x y : Symbol} {separator : Option Symbol} {single cons : Nat}

section
variable (numbered : g.Defined ⟨.nonemptyList, base, separator⟩ x y single cons)
include numbered

theorem treeDerives {s : Series V} (fits : s.Fits g base separator) : (s.tree single cons).Derives g x := by
  obtain ⟨⟨one, _⟩, two, _⟩ := Grammar.numbersPair.1 numbered
  induction fits with
  | last derived => exact (Tree.derivesBy one).2 ⟨rfl, .cons derived .nil⟩
  | more derived separated _ ih =>
    have between := optionForall.2 ⟨_, separated, rfl⟩
    exact (Tree.derivesBy two).2 ⟨rfl, .cons derived (List.rel_append between (.cons ih .nil))⟩

theorem ofSpinal {t : Tree V} (derived : t.Derives g x) (spinal : t.Spinal single cons) :
    ∃ s : Series V, s.Fits g base separator ∧ s.tree single cons = t := by
  obtain ⟨⟨one, _⟩, two, _⟩ := Grammar.numbersPair.1 numbered
  induction spinal with
  | single =>
    obtain ⟨_, children⟩ := (Tree.derivesBy one).1 derived
    obtain ⟨item, _, here, nothing, rfl⟩ := List.forall₂_cons_left_iff.1 children
    cases nothing
    exact ⟨.last item, .last here, rfl⟩
  | @cons front rest _ ih =>
    obtain ⟨_, children⟩ := (Tree.derivesBy two).1 derived
    obtain ⟨item, tail, here, below, shape⟩ := List.forall₂_cons_left_iff.1 children
    obtain ⟨middle, last, separated, end', rfl⟩ := forallSplit below
    obtain ⟨t, _, there, nothing, rfl⟩ := List.forall₂_cons_left_iff.1 end'
    cases nothing
    rw [← List.cons_append] at shape
    obtain ⟨rfl, same⟩ := List.append_inj' shape rfl
    obtain rfl := List.singleton_inj.1 same
    obtain ⟨between, related, rfl⟩ := optionForall.1 separated
    obtain ⟨s, fits, rfl⟩ := ih there
    exact ⟨.more item between s, .more here related fits, rfl⟩

theorem corresponds : Set.BijOn (tree single cons) {s : Series V | s.Fits g base separator}
    {t | t.Derives g x ∧ t.Spinal single cons} := by
  refine ⟨fun s fits => ⟨treeDerives numbered fits, treeSpinal s⟩, ?_, fun t => ?_⟩
  · exact Function.Injective.injOn (treeInjective (Grammar.numbersApart numbered (by simp)))
  · rintro ⟨derived, spinal⟩
    exact ofSpinal numbered derived spinal

end

theorem value [SemanticValue V] (lawful : ∀ xs : List V, SemanticValue.toItems (SemanticValue.ofItems xs) = xs)
    {reducers : List (Reducer V)} {separated : Bool} (first : reducers[single]? = some (.helper .nonemptySingle))
    (second : reducers[cons]? = some (.helper (.nonemptyCons separated))) (style : ArgStyle) (s : Series V) :
    (s.tree single cons).evaluate reducers style =
      SemanticValue.ofItems (s.items.map (Tree.evaluate reducers style)) := by
  induction s with
  | last item => simp [tree, items, Tree.evaluate, first, Reducer.apply, Reducer.applyHelper]
  | more item between rest ih =>
    simp [tree, items, Tree.evaluate, second, Reducer.apply, Reducer.applyHelper, Reducer.firstValue, ih, lawful]

end Series

namespace Tree
variable {V : Type} {g : Grammar} {x y : Symbol} {absent present : Nat} {first second : Origin}

theorem choiceCorresponds {P : Tree V → Prop}
    (numbered : g.Numbers [⟨⟨x, []⟩, first⟩, ⟨⟨x, [y]⟩, second⟩] [absent, present]) :
    Set.BijOn (choice absent present) {o | ∀ t ∈ o, t.Derives g y ∧ P t}
      {t | t.Derives g x ∧ t.Chosen absent present P} := by
  have different := Grammar.numbersApart numbered (by simp)
  obtain ⟨⟨one, _⟩, two, _⟩ := Grammar.numbersPair.1 numbered
  refine ⟨fun o each => ?_, fun o _ o' _ same => ?_, fun t => ?_⟩
  · cases o with
    | none => exact ⟨(derivesBy one).2 ⟨rfl, .nil⟩, .absent⟩
    | some t =>
      obtain ⟨derived, holds⟩ := each t rfl
      exact ⟨(derivesBy two).2 ⟨rfl, .cons derived .nil⟩, .present (List.forall_mem_singleton.2 holds)⟩
  · cases o <;> cases o' <;> simp_all [choice, Ne.symm different]
  · rintro ⟨derived, chosen⟩
    cases chosen with
    | absent =>
      obtain ⟨_, children⟩ := (derivesBy one).1 derived
      cases children
      exact ⟨none, nofun, rfl⟩
    | present each =>
      obtain ⟨_, children⟩ := (derivesBy two).1 derived
      obtain ⟨t, _, here, nothing, rfl⟩ := List.forall₂_cons_left_iff.1 children
      cases nothing
      exact ⟨some t, by simpa using ⟨here, each t List.mem_cons_self⟩, rfl⟩

theorem choiceAbsent [SemanticValue V] {reducers : List (Reducer V)} {role : HelperRole}
    (empty : reducers[absent]? = some (.helper role)) (style : ArgStyle) :
    (choice absent present none).evaluate reducers style = Reducer.applyHelper role [] := by
  simp [choice, evaluate, empty, Reducer.apply]

theorem choicePresent [SemanticValue V] {reducers : List (Reducer V)} {role : HelperRole}
    (full : reducers[present]? = some (.helper role)) (style : ArgStyle) (t : Tree V) :
    (choice absent present (some t)).evaluate reducers style =
      Reducer.applyHelper role [t.evaluate reducers style] := by
  simp [choice, evaluate, full, Reducer.apply]

end Tree

theorem optionBijOn {α β : Type} {f : α → β} {s : Set α} {t : Set β} (h : Set.BijOn f s t) :
    Set.BijOn (Option.map f) {o | ∀ a ∈ o, a ∈ s} {o | ∀ b ∈ o, b ∈ t} := by
  refine ⟨fun o each => ?_, fun o each o' each' same => ?_, fun o each => ?_⟩
  · rintro b found
    obtain ⟨a, inside, rfl⟩ := Option.map_eq_some_iff.1 found
    exact h.mapsTo (each a inside)
  · cases o with
    | none => cases o' <;> simp_all
    | some a =>
      cases o' with
      | none => cases same
      | some a' => rw [h.injOn (each a rfl) (each' a' rfl) (Option.some.inj same)]
  · cases o with
    | none => exact ⟨none, nofun, rfl⟩
    | some b =>
      obtain ⟨a, inside, rfl⟩ := h.surjOn (each b rfl)
      exact ⟨some a, by simpa using inside, rfl⟩

namespace Draft
open Edit (answersBind answersDiscard)
variable {d d' : Draft} {x y : Symbol} {key : HelperKey} {calls : List DraftCall}

inductive Names (d : Draft) (x : Symbol) : DraftCall → HelperKey → Prop
  | optional {name base : String} {d' : Draft} {y : Symbol} (answered : defineOptional name base d = .ok x d')
      (stands : d'.symbols.Stands y base) : Names d x (.defineOptional name base) ⟨.optional, y, none⟩
  | list {name base : String} {separator : Option String} {d' : Draft} {y : Symbol} {z : Option Symbol}
      (answered : defineList name base separator d = .ok x d') (stands : d'.symbols.Stands y base)
      (separated : Option.Rel d'.symbols.Stands z separator) :
      Names d x (.defineList name base separator) ⟨.list, y, z⟩
  | nonemptyList {name base : String} {separator : Option String} {d' : Draft} {y : Symbol} {z : Option Symbol}
      (answered : defineNonemptyList name base separator d = .ok x d') (stands : d'.symbols.Stands y base)
      (separated : Option.Rel d'.symbols.Stands z separator) :
      Names d x (.defineNonemptyList name base separator) ⟨.nonemptyList, y, z⟩

inductive Supplies (calls : List DraftCall) (key : HelperKey) (x : Symbol) : Prop
  | memoized (recorded : (key, x) ∈ (ofCalls calls).helpers)
  | named {before after : List DraftCall} {call : DraftCall} (history : calls = before ++ call :: after)
      (names : (ofCalls before).Names x call key)

structure Provides (d : Draft) (key : HelperKey) (x inner : Symbol) : Prop where
  rules : ∀ r ∈ key.rules x inner, r ∈ d.rules
  nested : key.op = .list → (key.nonempty, inner) ∈ d.helpers

theorem standsOnce {t : SymbolTable} {name : String} (one : t.Stands x name) (other : t.Stands y name) : x = y :=
  Option.some.inj (one.symm.trans other)

theorem standOnce {t : SymbolTable} {a b : Option Symbol} {name : Option String}
    (one : Option.Rel t.Stands a name) (other : Option.Rel t.Stands b name) : a = b := by
  cases one with
  | none =>
    cases other
    rfl
  | some here =>
    obtain ⟨there⟩ := other
    rw [standsOnce here there]

theorem internSeparatorSource {separator : Option String} {z : Option Symbol}
    (h : internSeparator separator d = .ok z d') : d.Learns d' ∧ Option.Rel d'.symbols.Stands z separator := by
  cases separator with
  | none =>
    cases h
    exact ⟨.refl d, .none⟩
  | some name =>
    obtain ⟨x, mid, interned, h⟩ := answersBind.1 h
    cases h
    obtain ⟨_, learns, stands⟩ := internSource interned
    exact ⟨learns, .some stands⟩

theorem standWithin {t t' : SymbolTable} {z : Option Symbol} {separator : Option String}
    (stands : Option.Rel t.Stands z separator) (within : t.Within t') : Option.Rel t'.Stands z separator := by
  cases stands with
  | none => exact .none
  | some here => exact .some (here.within within)

section
variable {name base : String} {separator : Option String}

theorem defineOptionalSource (h : defineOptional name base d = .ok x d') :
    ∃ y, ∃ mid : Draft, mid.symbols.Stands y base ∧
      d' = { mid with rules := mid.rules ++ HelperKey.rules ⟨.optional, y, none⟩ x y } := by
  obtain ⟨lhs, _, _, h⟩ := answersBind.1 h
  obtain ⟨y, mid, interned, h⟩ := answersBind.1 h
  obtain ⟨_, _, pushed, h⟩ := answersBind.1 h
  cases h
  cases (optionalPushes x mid).symm.trans pushed
  exact ⟨y, mid, (internSource interned).2.2, rfl⟩

theorem defineNonemptyListSource (h : defineNonemptyList name base separator d = .ok x d') :
    ∃ y z, ∃ mid : Draft, mid.symbols.Stands y base ∧ Option.Rel mid.symbols.Stands z separator ∧
      d' = { mid with rules := mid.rules ++ HelperKey.rules ⟨.nonemptyList, y, z⟩ x y } := by
  obtain ⟨lhs, _, _, h⟩ := answersBind.1 h
  obtain ⟨y, first, interned, h⟩ := answersBind.1 h
  obtain ⟨z, mid, separated, h⟩ := answersBind.1 h
  obtain ⟨_, _, pushed, h⟩ := answersBind.1 h
  cases h
  cases (nonemptyPushes x mid).symm.trans pushed
  obtain ⟨learns, stands⟩ := internSeparatorSource separated
  exact ⟨y, z, mid, (internSource interned).2.2.within learns.within, stands, rfl⟩

theorem defineListSource (h : defineList name base separator d = .ok x d') :
    ∃ y z inner, ∃ mid : Draft, mid.symbols.Stands y base ∧ Option.Rel mid.symbols.Stands z separator ∧
      (⟨.nonemptyList, y, z⟩, inner) ∈ mid.helpers ∧
        d' = { mid with rules := mid.rules ++ HelperKey.rules ⟨.list, y, z⟩ x inner } := by
  obtain ⟨lhs, _, _, h⟩ := answersBind.1 h
  obtain ⟨y, first, interned, h⟩ := answersBind.1 h
  obtain ⟨z, second, separated, h⟩ := answersBind.1 h
  obtain ⟨inner, mid, nested, h⟩ := answersBind.1 h
  obtain ⟨_, _, pushed, h⟩ := answersBind.1 h
  cases h
  cases pushTwo.symm.trans pushed
  obtain ⟨learns, stands⟩ := internSeparatorSource separated
  obtain ⟨made, gathers⟩ := helperGathers nonemptyPushes nofun nested
  have first := (internSource interned).2.2.within learns.within
  exact ⟨y, z, inner, mid, first.within gathers.within, standWithin stands gathers.within, nonemptyRecorded nested, rfl⟩

end

theorem namesProvides {call : DraftCall} (names : d.Names x call key) :
    ∃ d' inner, call.edit d = .ok () d' ∧ d'.Provides key x inner := by
  cases names with
  | optional answered stands =>
    obtain ⟨y, mid, stands', rfl⟩ := defineOptionalSource answered
    cases standsOnce stands stands'
    exact ⟨_, _, answersDiscard.2 ⟨x, answered⟩, fun r listed => List.mem_append_right _ listed, nofun⟩
  | nonemptyList answered stands separated =>
    obtain ⟨y, z, mid, stands', separated', rfl⟩ := defineNonemptyListSource answered
    cases standsOnce stands stands'
    cases standOnce separated separated'
    exact ⟨_, _, answersDiscard.2 ⟨x, answered⟩, fun r listed => List.mem_append_right _ listed, nofun⟩
  | list answered stands separated =>
    obtain ⟨y, z, inner, mid, stands', separated', nested, rfl⟩ := defineListSource answered
    cases standsOnce stands stands'
    cases standOnce separated separated'
    exact ⟨_, inner, answersDiscard.2 ⟨x, answered⟩, fun r listed => List.mem_append_right _ listed, fun _ => nested⟩

theorem suppliesProvides (supplies : Supplies calls key x) : ∃ inner, (ofCalls calls).Provides key x inner := by
  cases supplies with
  | memoized recorded =>
    obtain ⟨inner, rules, nested⟩ := (filedOfCalls calls).defined _ recorded List.not_mem_nil
    refine ⟨inner, fun r listed => ?_, nested⟩
    rw [← rules] at listed
    exact (List.mem_filter.1 listed).1
  | @named before after call history names =>
    obtain ⟨d', inner, answered, rules, nested⟩ := namesProvides names
    have here : ofCalls (before ++ [call]) = d' := by
      rw [ofCalls, List.foldl_append]
      exact (performLeft call).trans (Edit.leftOk answered)
    have later : ofCalls calls = after.foldl perform d' := by
      rw [← here, history, ofCalls, ofCalls, ← List.foldl_append, List.append_assoc]
      rfl
    have appends : d'.rules <+: (ofCalls calls).rules := by
      rw [later]
      exact (appendsStable d').fold List.prefix_rfl after
    have grows : d'.helpers <+: (ofCalls calls).helpers := by
      rw [later]
      exact (askedTrace (here ▸ filedOfCalls _) after).evolves.grows.helpers
    exact ⟨inner, fun r listed => appends.subset (rules r listed), fun list => grows.subset (nested list)⟩

theorem definedOfBuild {g : Grammar} {inner : Symbol} (built : d.build = .ok g) (provides : d.Provides key x inner) :
    ∃ i j, g.Defined key x inner i j := by
  have there (r : Rule) (listed : r ∈ key.rules x inner) :
      ∃ id, g.production? id = some r.production ∧ g.origin? id = some r.origin := by
    obtain ⟨id, found⟩ := List.mem_iff_getElem?.1 (provides.rules r listed)
    exact ⟨id, buildAt built found⟩
  obtain ⟨r, s, pair⟩ := key.rulesPair x inner
  obtain ⟨i, first⟩ := there r (by simp [pair])
  obtain ⟨j, second⟩ := there s (by simp [pair])
  refine ⟨i, j, ?_⟩
  rw [Grammar.Defined, pair]
  exact .cons first (.cons second .nil)

end Draft

section
variable {V : Type} [SemanticValue V]

structure SeriesRebuilt (g : Grammar) (evaluate : Tree V → V) (base : Symbol) (separator : Option Symbol)
    (x : Symbol) (single cons : Nat) : Prop where
  trees : Set.BijOn (Series.tree single cons) {s : Series V | s.Fits g base separator}
    {t | t.Derives g x ∧ t.Spinal single cons}
  leaves : ∀ s : Series V, (s.tree single cons).leaves = s.parts.flatMap Tree.leaves
  value : ∀ s : Series V, evaluate (s.tree single cons) = SemanticValue.ofItems (s.items.map evaluate)

structure ListRebuilt (g : Grammar) (evaluate : Tree V → V) (base : Symbol) (separator : Option Symbol)
    (x : Symbol) (absent present single cons : Nat) : Prop where
  trees : Set.BijOn (Tree.choice absent present ∘ Option.map (Series.tree single cons))
    {o : Option (Series V) | ∀ s ∈ o, s.Fits g base separator}
    {t | t.Derives g x ∧ t.Chosen absent present (Tree.Spinal single cons)}
  empty : evaluate (Tree.choice absent present none) = SemanticValue.ofItems []
  full : ∀ s : Series V, evaluate (Tree.choice absent present (some (s.tree single cons))) =
    SemanticValue.ofItems (s.items.map evaluate)

structure OptionalRebuilt (g : Grammar) (evaluate : Tree V → V) (base x : Symbol) (absent present : Nat) : Prop where
  trees : Set.BijOn (Tree.choice absent present) {o : Option (Tree V) | ∀ t ∈ o, t.Derives g base}
    {t | t.Derives g x ∧ t.Chosen absent present fun _ => True}
  empty : evaluate (Tree.choice absent present none) = default
  full : ∀ t, evaluate (Tree.choice absent present (some t)) = evaluate t

structure HelpersRebuilt (calls : List DraftCall) (g : Grammar) (evaluate : Tree V → V) : Prop where
  nonemptyList : ∀ {base separator x}, Draft.Supplies calls ⟨.nonemptyList, base, separator⟩ x →
    (∃ single cons, g.Defined ⟨.nonemptyList, base, separator⟩ x x single cons) ∧
      ∀ {single cons}, g.Defined ⟨.nonemptyList, base, separator⟩ x x single cons →
        SeriesRebuilt g evaluate base separator x single cons
  list : ∀ {base separator x}, Draft.Supplies calls ⟨.list, base, separator⟩ x →
    ∃ inner, Draft.Supplies calls ⟨.nonemptyList, base, separator⟩ inner ∧
      (∃ absent present, g.Defined ⟨.list, base, separator⟩ x inner absent present) ∧
      ∀ {absent present single cons}, g.Defined ⟨.list, base, separator⟩ x inner absent present →
        g.Defined ⟨.nonemptyList, base, separator⟩ inner inner single cons →
          ListRebuilt g evaluate base separator x absent present single cons
  optional : ∀ {base x}, Draft.Supplies calls ⟨.optional, base, none⟩ x →
    (∃ absent present, g.Defined ⟨.optional, base, none⟩ x x absent present) ∧
      ∀ {absent present}, g.Defined ⟨.optional, base, none⟩ x x absent present →
        OptionalRebuilt g evaluate base x absent present

end

namespace ParserDraft
variable {V : Type} {g : Grammar} {base x inner : Symbol} {separator : Option Symbol}
  {absent present single cons : Nat}

theorem helperReducer (d : ParserDraft V) {id : Nat} {r : Rule} {role : HelperRole}
    (numbered : g.production? id = some r.production ∧ g.origin? id = some (.helper role)) :
    (d.reducers g)[id]? = some (.helper role) := by
  have inside : id < g.size := (List.getElem?_eq_some_iff.1 numbered.1).1
  rw [reducersAt inside, numbered.2]
  rfl

variable [SemanticValue V]

theorem optionalRebuilt (d : ParserDraft V) (style : ArgStyle)
    (numbered : g.Defined ⟨.optional, base, none⟩ x inner absent present) :
    OptionalRebuilt g (Tree.evaluate (d.reducers g) style) base x absent present := by
  obtain ⟨one, two⟩ := Grammar.numbersPair.1 numbered
  refine ⟨?_, Tree.choiceAbsent (d.helperReducer one) style, fun t => ?_⟩
  · have trees := Tree.choiceCorresponds (P := fun _ : Tree V => True) numbered
    simpa only [and_true] using trees
  · rw [Tree.choicePresent (d.helperReducer two) style]
    rfl

section
variable (lawful : ∀ xs : List V, SemanticValue.toItems (SemanticValue.ofItems xs) = xs)
include lawful

theorem seriesRebuilt (d : ParserDraft V) (style : ArgStyle)
    (numbered : g.Defined ⟨.nonemptyList, base, separator⟩ x inner single cons) :
    SeriesRebuilt g (Tree.evaluate (d.reducers g) style) base separator x single cons := by
  obtain ⟨one, two⟩ := Grammar.numbersPair.1 numbered
  refine ⟨Series.corresponds numbered, Series.treeLeaves, ?_⟩
  exact Series.value lawful (d.helperReducer one) (d.helperReducer two) style

theorem listRebuilt (d : ParserDraft V) (style : ArgStyle)
    (outer : g.Defined ⟨.list, base, separator⟩ x inner absent present)
    (numbered : g.Defined ⟨.nonemptyList, base, separator⟩ inner inner single cons) :
    ListRebuilt g (Tree.evaluate (d.reducers g) style) base separator x absent present single cons := by
  obtain ⟨one, two⟩ := Grammar.numbersPair.1 outer
  have series := seriesRebuilt lawful d style numbered
  refine ⟨(Tree.choiceCorresponds outer).comp (optionBijOn series.trees), ?_, fun s => ?_⟩
  · exact Tree.choiceAbsent (d.helperReducer one) style
  · rw [Tree.choicePresent (d.helperReducer two) style]
    exact series.value s

theorem helpersRebuilt {calls : List DraftCall} (built : (Draft.ofCalls calls).build = .ok g) (d : ParserDraft V)
    (style : ArgStyle) : HelpersRebuilt calls g (Tree.evaluate (d.reducers g) style) := by
  refine ⟨fun supplies => ⟨?_, seriesRebuilt lawful d style⟩, fun supplies => ?_,
    fun supplies => ⟨?_, optionalRebuilt d style⟩⟩
  · obtain ⟨inner, provides⟩ := Draft.suppliesProvides supplies
    obtain ⟨i, j, defined⟩ := Draft.definedOfBuild built provides
    exact ⟨i, j, defined⟩
  · obtain ⟨inner, provides⟩ := Draft.suppliesProvides supplies
    have nested := provides.nested rfl
    exact ⟨inner, .memoized nested, Draft.definedOfBuild built provides, listRebuilt lawful d style⟩
  · obtain ⟨inner, provides⟩ := Draft.suppliesProvides supplies
    obtain ⟨i, j, defined⟩ := Draft.definedOfBuild built provides
    exact ⟨i, j, defined⟩

end

def rowCalls : List DraftCall :=
  [.intern "CELL", .intern "COMMA", .list ⟨3, .terminal⟩ (some ⟨4, .terminal⟩), .defineOptional "mark" "SIGN",
    .declare "s" ["cell_comma_list", "mark"]]

def cell (v : Value) : Tree Value := .leaf ⟨3, .terminal⟩ v

def comma : Option (Tree Value) := some (.leaf ⟨4, .terminal⟩ .nil)

def nestedRow : Series Value :=
  .more (cell .nil) comma (.more (cell (.list [.nil])) comma (.last (cell (.int 1))))

theorem nestedRowRebuilt : ∃ g x single cons, (Draft.ofCalls rowCalls).build = .ok g ∧
    Draft.Supplies rowCalls ⟨.nonemptyList, ⟨3, .terminal⟩, some ⟨4, .terminal⟩⟩ x ∧
    (∀ xs : List Value, SemanticValue.toItems (SemanticValue.ofItems xs) = xs) ∧
    SeriesRebuilt g (Tree.evaluate (({} : ParserDraft Value).reducers g) .splat) ⟨3, .terminal⟩ (some ⟨4, .terminal⟩) x
      single cons ∧
    (nestedRow.tree single cons).evaluate (({} : ParserDraft Value).reducers g) .splat =
      .list [.nil, .list [.nil], .int 1] := by
  obtain ⟨g, built⟩ : ∃ g, (Draft.ofCalls rowCalls).build = .ok g := okOfIsOk (by decide +kernel)
  have supplied : Draft.Supplies rowCalls ⟨.nonemptyList, ⟨3, .terminal⟩, some ⟨4, .terminal⟩⟩ ⟨6, .nonterminal⟩ :=
    .memoized (by decide +kernel)
  obtain ⟨⟨single, cons, defined⟩, rebuilt⟩ :=
    (helpersRebuilt (fun _ => rfl) built ({} : ParserDraft Value) .splat).nonemptyList supplied
  refine ⟨g, _, single, cons, built, supplied, fun _ => rfl, rebuilt defined, ?_⟩
  rw [(rebuilt defined).value]
  simp only [nestedRow, Series.items, cell, List.map, Tree.evaluate]
  rfl

end ParserDraft
end ForkingLR
