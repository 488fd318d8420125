import ForkingLR.Grammar
import ForkingLR.Proofs.Cfg.Rewriting
import ForkingLR.Proofs.Lists
import ForkingLR.Reducer

/-! Derivation trees. A leaf is a terminal with its value, a node a production with a tree for
each symbol of its right-hand side. What a tree derives is what its symbol rewrites to. -/
namespace ForkingLR

inductive Tree (V : Type) where
  | leaf (symbol : Symbol) (value : V)
  | node (production : Nat) (children : List (Tree V))

namespace Tree
variable {V : Type}

/- The generated eliminator has a second motive for lists of trees. -/
@[elab_as_elim]
theorem childInduction {P : Tree V → Prop} (leaf : ∀ symbol value, P (.leaf symbol value))
    (node : ∀ production children, (∀ child ∈ children, P child) → P (.node production children))
    (t : Tree V) : P t := by
  refine Tree.rec (motive_2 := fun children => ∀ child ∈ children, P child) leaf node ?_ ?_ t
  · intro child inside
    cases inside
  · intro first rest one others child inside
    rcases List.mem_cons.1 inside with rfl | inside
    · exact one
    · exact others child inside

def leaves : Tree V → List (Symbol × V)
  | .leaf symbol value => [(symbol, value)]
  | .node _ children => children.flatMap leaves

inductive Derives (g : Grammar) : Symbol → Tree V → Prop
  | leaf {symbol : Symbol} {value : V} (terminal : isTerminal symbol = true) :
      Derives g symbol (.leaf symbol value)
  | node {production : Nat} {p : Production Symbol} {children : List (Tree V)}
      (found : g.productions[production]? = some p)
      (derived : List.Forall₂ (Derives g) p.rhs children) : Derives g p.lhs (.node production children)

def evaluate [SemanticValue V] (reducers : List (Reducer V)) (style : ArgStyle) : Tree V → V
  | .leaf _ value => value
  | .node production children =>
    match reducers[production]? with
    | some reducer => reducer.apply style (children.map (evaluate reducers style))
    | none => default

variable {g : Grammar}

theorem derivesLeaf {x symbol : Symbol} {value : V} :
    Derives g x (.leaf symbol value) ↔ x = symbol ∧ isTerminal symbol = true := by
  constructor
  · rintro ⟨terminal⟩
    exact ⟨rfl, terminal⟩
  · rintro ⟨rfl, terminal⟩
    exact .leaf terminal

theorem derivesNode {x : Symbol} {production : Nat} {children : List (Tree V)} :
    Derives g x (.node production children) ↔
      ∃ p, g.productions[production]? = some p ∧ x = p.lhs ∧
        List.Forall₂ (Derives g) p.rhs children := by
  constructor
  · rintro ⟨⟩
    rename_i p found derived
    exact ⟨p, found, rfl, derived⟩
  · rintro ⟨p, found, rfl, derived⟩
    exact .node found derived

theorem rewritesForest {rhs : List Symbol} {children : List (Tree V)}
    (each : ∀ t ∈ children, ∀ x, t.Derives g x → g.cfg.Rewrites [x] (t.leaves.map Prod.fst))
    (derived : List.Forall₂ (Derives g) rhs children) :
    g.cfg.Rewrites rhs ((children.flatMap leaves).map Prod.fst) := by
  induction derived with
  | nil => exact .refl
  | @cons x t rhs children first rest ih =>
    have head := (each t List.mem_cons_self x first).append [] rhs
    have tail := (ih fun t inside => each t (List.mem_cons_of_mem _ inside)).append
      (t.leaves.map Prod.fst) []
    simp only [List.nil_append, List.singleton_append, List.append_nil] at head tail
    rw [List.flatMap_cons, List.map_append]
    exact head.trans tail

theorem rewrites (t : Tree V) : ∀ x, t.Derives g x → g.cfg.Rewrites [x] (t.leaves.map Prod.fst) := by
  induction t using childInduction with
  | leaf symbol value =>
    intro x derived
    obtain ⟨rfl, _⟩ := derivesLeaf.1 derived
    simp only [leaves, List.map_cons, List.map_nil]
    exact .refl
  | node id children ih =>
    intro x derived
    obtain ⟨p, found, rfl, below⟩ := derivesNode.1 derived
    have first : g.cfg.Rewrites [p.lhs] p.rhs := by
      simpa using Cfg.Rewrites.first (g := g.cfg) (List.mem_of_getElem? found) []
    rw [leaves]
    exact first.trans (rewritesForest ih below)

theorem forestOfRewrites {u : List Symbol} {ends : List (Symbol × V)}
    (h : g.cfg.Rewrites u (ends.map Prod.fst)) (terminals : ∀ x ∈ ends.map Prod.fst, isTerminal x = true) :
    ∃ trees : List (Tree V), List.Forall₂ (Derives g) u trees ∧ trees.flatMap leaves = ends := by
  induction h using Relation.ReflTransGen.head_induction_on with
  | refl =>
    refine ⟨ends.map fun x => .leaf x.1 x.2, ?_, ?_⟩
    · rw [List.forall₂_map_left_iff, List.forall₂_map_right_iff, List.forall₂_same]
      intro x inside
      exact .leaf (terminals _ (List.mem_map_of_mem inside))
    · simp [List.flatMap_map, leaves]
  | head step _ ih =>
    obtain ⟨trees, derived, rfl⟩ := ih
    cases step with
    | @replace before after p member =>
      obtain ⟨id, found⟩ := List.mem_iff_getElem?.1 member
      obtain ⟨most, back, all, right, rfl⟩ := forallSplit derived
      obtain ⟨front, children, left, middle, rfl⟩ := forallSplit all
      refine ⟨front ++ .node id children :: back, ?_, by simp [leaves]⟩
      exact List.rel_append left (.cons (.node found middle) right)

theorem ofRewrites {x : Symbol} {ends : List (Symbol × V)} (h : g.cfg.Rewrites [x] (ends.map Prod.fst))
    (terminals : ∀ x ∈ ends.map Prod.fst, isTerminal x = true) :
    ∃ t : Tree V, t.Derives g x ∧ t.leaves = ends := by
  obtain ⟨trees, derived, rfl⟩ := forestOfRewrites h terminals
  obtain ⟨t, _, one, nothing, rfl⟩ := List.forall₂_cons_left_iff.1 derived
  cases nothing
  exact ⟨t, one, by simp⟩

end Tree
end ForkingLR
