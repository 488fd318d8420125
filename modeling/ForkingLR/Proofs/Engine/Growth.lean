import ForkingLR.Proofs.Engine.Path
import ForkingLR.Proofs.Tree

/-! Stacks as rows of trees. Each frame stands for a tree of the symbol it was moved over with, and
its value is what the tree computes. Only the error terminal has a value that is not settled before
its production is reduced. -/
namespace ForkingLR

def MatchesToken {V : Type} [Inhabited V] (a : Automaton) (leaf : Symbol × V) (token : Token V) : Prop :=
  a.terminal? token.kind = some leaf.1 ∧ leaf.2 = token.value.getD default

namespace Engine
open Table
variable {V : Type} [SemanticValue V]

structure Stands (e : Engine V) (x : Symbol) (tree : Tree V) (value : V) : Prop where
  derives : tree.Derives e.automaton.grammar x
  valued : x ≠ .error → tree.evaluate e.reducers e.argStyle = value

inductive Grown (e : Engine V) : Frames V → List Symbol → List (Tree V) → Prop
  | bottom : Grown e .bottom [] []
  | push {frames : Frames V} {word : List Symbol} {trees : List (Tree V)} {x : Symbol} {target : Nat}
      {tree : Tree V} {value : V} (below : Grown e frames word trees)
      (move : Moves e.automaton.states frames.state x target) (stands : e.Stands x tree value) :
      Grown e (.push target value frames) (x :: word) (tree :: trees)

inductive Fits (e : Engine V) : List Symbol → List (Tree V) → List V → Prop
  | nil : Fits e [] [] []
  | cons {x : Symbol} {rhs : List Symbol} {tree : Tree V} {trees : List (Tree V)} {value : V}
      {values : List V} (first : e.Stands x tree value) (rest : Fits e rhs trees values) :
      Fits e (x :: rhs) (tree :: trees) (value :: values)

variable {e : Engine V}

theorem Grown.spells {frames : Frames V} {word : List Symbol} {trees : List (Tree V)}
    (h : e.Grown frames word trees) : e.automaton.Spells frames word := by
  induction h with
  | bottom => exact .bottom
  | push below move stands ih => exact .push ih move

theorem Grown.take {under : List Symbol} :
    ∀ {top : List Symbol} {frames : Frames V} {trees : List (Tree V)} {rhs : List Symbol}
      {children : List (Tree V)} {values : List V},
      e.Grown frames (top ++ under) trees → e.Fits rhs children values →
      ∃ gone kept, trees = gone ++ kept ∧ e.Grown (frames.drop top.length) under kept ∧
        e.Fits (top.reverse ++ rhs) (gone.reverse ++ children) (frames.topValues top.length values) := by
  intro top
  induction top with
  | nil =>
    intro frames trees rhs children values grown fits
    exact ⟨[], trees, rfl, grown, by simpa [Frames.topValues] using fits⟩
  | cons x top ih =>
    intro frames trees rhs children values grown fits
    cases grown with
    | @push _ _ trees _ _ tree _ below move stands =>
      obtain ⟨gone, kept, rfl, rest, all⟩ := ih below (.cons stands fits)
      exact ⟨tree :: gone, kept, rfl, rest, by simpa [Frames.topValues] using all⟩

theorem Grown.drop {count : Nat} :
    ∀ {frames : Frames V} {word : List Symbol} {trees : List (Tree V)}, e.Grown frames word trees →
      frames.covers count = true → e.Grown (frames.drop count) (word.drop count) (trees.drop count) := by
  induction count with
  | zero => exact fun h _ => h
  | succ count ih =>
    intro frames word trees h covers
    cases h with
    | bottom => cases covers
    | push below move stands => exact ih below covers

theorem Fits.derives {rhs : List Symbol} {trees : List (Tree V)} {values : List V}
    (h : e.Fits rhs trees values) : List.Forall₂ (Tree.Derives e.automaton.grammar) rhs trees := by
  induction h with
  | nil => exact .nil
  | cons first rest ih => exact .cons first.derives ih

theorem Fits.values {rhs : List Symbol} {trees : List (Tree V)} {values : List V}
    (h : e.Fits rhs trees values) (ordinary : .error ∉ rhs) :
    trees.map (Tree.evaluate e.reducers e.argStyle) = values := by
  induction h with
  | nil => rfl
  | cons first rest ih =>
    rw [List.mem_cons, not_or] at ordinary
    rw [List.map_cons, ih ordinary.2, first.valued (Ne.symm ordinary.1)]

theorem Grown.bottomOfStart (trimmed : e.automaton.Trimmed) {frames : Frames V} {word : List Symbol}
    {trees : List (Tree V)} (h : e.Grown frames word trees) (start : frames.state = 0) :
    word = [] ∧ trees = [] := by
  cases h with
  | bottom => exact ⟨rfl, rfl⟩
  | push below move stands =>
    exact absurd start (Grammar.movesNotStart trimmed.wellFormed (trimmed.moves.1 move))

theorem Grown.accepts (trimmed : e.automaton.Trimmed) {s : Stack V} {word : List Symbol}
    {trees : List (Tree V)} {x : Symbol} (h : e.Grown s.frames word trees)
    (listed : .accept ∈ e.automaton.actions s.state x) :
    x = .endOfInput ∧ ∃ tree, trees = [tree] ∧ word = [e.automaton.grammar.start] ∧
      tree.Derives e.automaton.grammar e.automaton.grammar.start ∧
      tree.evaluate e.reducers e.argStyle = s.topValue := by
  have wf := trimmed.wellFormed
  cases trimmed.offers listed with
  | accept last complete =>
    obtain ⟨under, spelled, origin⟩ := trimmed.spelled wf.startProduction h.spells
      (trimmed.holds.2 complete)
    refine ⟨last, ?_⟩
    simp only [List.take_one, List.head?_cons, Option.toList_some, List.reverse_singleton,
      List.singleton_append] at spelled
    subst spelled
    unfold Stack.topValue
    generalize s.frames = frames at h origin
    cases h with
    | @push _ _ trees _ _ tree value below move stands =>
      obtain ⟨rfl, rfl⟩ := below.bottomOfStart trimmed
        (Grammar.startStateOnly wf (trimmed.holds.1 origin))
      have ordinary : e.automaton.grammar.start ≠ .error := by
        intro same
        have nonterminal := wf.startNonterminal
        rw [same] at nonterminal
        contradiction
      exact ⟨tree, rfl, rfl, stands.derives, stands.valued ordinary⟩

theorem Grown.handle (trimmed : e.automaton.Trimmed) {frames : Frames V} {word : List Symbol}
    {trees : List (Tree V)} {id : Nat} {x : Symbol} {p : Production Symbol}
    (h : e.Grown frames word trees) (listed : .reduce id ∈ e.automaton.actions frames.state x)
    (found : e.automaton.grammar.productions[id]? = some p) :
    ∃ gone kept under, word = p.rhs.reverse ++ under ∧ trees = gone ++ kept ∧
      e.Fits p.rhs gone.reverse (frames.topValues p.rhs.length []) ∧
      e.Grown (frames.drop p.rhs.length) under kept := by
  have complete : Holds e.automaton.states frames.state ⟨id, p.rhs.length⟩ := by
    cases trimmed.offers listed with
    | reduce _ _ _ found' complete =>
      obtain rfl := Option.some.inj (found.symm.trans found')
      exact trimmed.holds.2 complete
  obtain ⟨under, spelled, _⟩ := trimmed.spelled found h.spells complete
  rw [List.take_length] at spelled
  subst spelled
  obtain ⟨gone, kept, rfl, rest, fits⟩ := h.take .nil
  simp only [List.length_reverse, List.reverse_reverse, List.append_nil] at rest fits
  exact ⟨gone, kept, under, rfl, rfl, fits, rest⟩

end Engine
end ForkingLR
