import ForkingLR.Proofs.Engine.Growth

/-! What a single stack goes through, turn by turn. The turns determine the frames, the trees under
them and the tokens left; and the trees determine the turns. -/
namespace ForkingLR

inductive Turn where
  | shift
  | reduce (production : Nat)
  | accept
  deriving DecidableEq

def Action.turn : Action → Turn
  | .shift _ => .shift
  | .goto _ => .shift
  | .reduce id => .reduce id
  | .accept => .accept

def Tree.history {V : Type} : Tree V → List Turn
  | .leaf _ _ => [.shift]
  | .node id children => .reduce id :: (children.map history).reverse.flatten

namespace Engine
open Table
variable {V : Type} [SemanticValue V]

/-- What the input leads to by these turns, the last one first: frames, their trees and the
tokens left. -/
inductive Path (e : Engine V) (input : List (Token V)) :
    List Turn → Frames V → List (Tree V) → List (Token V) → Prop
  | start : Path e input [] .bottom [] input
  | shift {turns : List Turn} {frames : Frames V} {trees : List (Tree V)} {token : Token V}
      {rest : List (Token V)} {x : Symbol} {target : Nat}
      (before : Path e input turns frames trees (token :: rest))
      (known : e.automaton.terminal? token.kind = some x)
      (listed : .shift target ∈ e.automaton.actions frames.state x) :
      Path e input (.shift :: turns) (.push target (token.value.getD default) frames)
        (.leaf x (token.value.getD default) :: trees) rest
  | reduce {turns : List Turn} {frames : Frames V} {trees : List (Tree V)} {token : Token V}
      {rest : List (Token V)} {x : Symbol} {id target : Nat} {p : Production Symbol}
      {reducer : Reducer V} (before : Path e input turns frames trees (token :: rest))
      (known : e.automaton.terminal? token.kind = some x)
      (listed : .reduce id ∈ e.automaton.actions frames.state x)
      (found : e.automaton.production? id = some p) (made : e.reducers[id]? = some reducer)
      (goto : e.automaton.goto? (frames.drop p.rhs.length).state p.lhs = some target) :
      Path e input (.reduce id :: turns)
        (.push target (reducer.apply e.argStyle (frames.topValues p.rhs.length []))
          (frames.drop p.rhs.length))
        (.node id (trees.take p.rhs.length).reverse :: trees.drop p.rhs.length) (token :: rest)

def Completes (e : Engine V) (input : List (Token V)) (turns : List Turn) (tree : Tree V) (value : V) :
    Prop :=
  ∃ frames token rest x, e.Path input turns frames [tree] (token :: rest) ∧
    e.automaton.terminal? token.kind = some x ∧ .accept ∈ e.automaton.actions frames.state x ∧
    frames.topValue?.getD default = value

variable {e : Engine V} {input : List (Token V)}

theorem Path.history {turns : List Turn} {frames : Frames V} {trees : List (Tree V)}
    {rest : List (Token V)} (h : e.Path input turns frames trees rest) :
    turns = (trees.map Tree.history).flatten := by
  induction h with
  | start => rfl
  | shift before known listed ih => simp [Tree.history, ← ih]
  | @reduce turns frames trees token rest x id target p reducer before known listed found made goto ih =>
    have parts : (trees.map Tree.history).flatten =
        ((trees.take p.rhs.length).map Tree.history).flatten ++
          ((trees.drop p.rhs.length).map Tree.history).flatten := by
      rw [← List.flatten_append, ← List.map_append, List.take_append_drop]
    rw [List.map_cons, List.flatten_cons, Tree.history, List.map_reverse, List.reverse_reverse,
      List.cons_append, ← parts, ih]

theorem Path.left {turns : List Turn} {frames : Frames V} {trees : List (Tree V)}
    {rest : List (Token V)} (h : e.Path input turns frames trees rest) : rest <:+ input := by
  induction h with
  | start => exact List.suffix_rfl
  | shift before known listed ih => exact (List.suffix_cons _ _).trans ih
  | reduce before known listed found made goto ih => exact ih

theorem Path.unique (trimmed : e.automaton.Trimmed) {turns : List Turn} {frames frames' : Frames V}
    {trees trees' : List (Tree V)} {rest rest' : List (Token V)}
    (h : e.Path input turns frames trees rest) (h' : e.Path input turns frames' trees' rest') :
    frames = frames' ∧ trees = trees' ∧ rest = rest' := by
  induction h generalizing frames' trees' rest' with
  | start =>
    cases h'
    exact ⟨rfl, rfl, rfl⟩
  | shift before known listed ih =>
    cases h' with
    | shift before' known' listed' =>
      obtain ⟨rfl, rfl, same⟩ := ih before'
      cases same
      obtain rfl := Option.some.inj (known.symm.trans known')
      obtain rfl := movesUnique (trimmed.shiftMoves listed) (trimmed.shiftMoves listed')
      exact ⟨rfl, rfl, rfl⟩
  | reduce before known listed found made goto ih =>
    cases h' with
    | reduce before' known' listed' found' made' goto' =>
      obtain ⟨rfl, rfl, same⟩ := ih before'
      obtain rfl := Option.some.inj (found.symm.trans found')
      obtain rfl := Option.some.inj (made.symm.trans made')
      obtain rfl := Option.some.inj (goto.symm.trans goto')
      exact ⟨rfl, rfl, same⟩

theorem Path.earlier {turns later : List Turn} {frames : Frames V} {trees : List (Tree V)}
    {rest : List (Token V)} (h : e.Path input later frames trees rest) (past : turns <:+ later) :
    ∃ frames trees more, e.Path input turns frames trees more ∧ rest <:+ more := by
  induction h with
  | start =>
    obtain rfl := List.suffix_nil.1 past
    exact ⟨_, _, _, .start, List.suffix_rfl⟩
  | shift before known listed ih =>
    rcases List.suffix_cons_iff.1 past with rfl | past
    · exact ⟨_, _, _, .shift before known listed, List.suffix_rfl⟩
    · obtain ⟨frames, trees, more, path, left⟩ := ih past
      exact ⟨frames, trees, more, path, (List.suffix_cons _ _).trans left⟩
  | reduce before known listed found made goto ih =>
    rcases List.suffix_cons_iff.1 past with rfl | past
    · exact ⟨_, _, _, .reduce before known listed found made goto, List.suffix_rfl⟩
    · exact ih past

theorem Path.notAccept {turns later : List Turn} {frames : Frames V} {trees : List (Tree V)}
    {rest : List (Token V)} (h : e.Path input later frames trees rest) : ¬ .accept :: turns <:+ later := by
  intro past
  obtain ⟨_, _, _, path, _⟩ := h.earlier past
  cases path

theorem Path.grown (trimmed : e.automaton.Trimmed)
    (ordinary : ∀ token ∈ input, e.automaton.terminal? token.kind ≠ some .error) {turns : List Turn}
    {frames : Frames V} {trees : List (Tree V)} {rest : List (Token V)}
    (h : e.Path input turns frames trees rest) :
    ∃ word read, e.Grown frames word trees ∧ .error ∉ word ∧ input = read ++ rest ∧
      List.Forall₂ (MatchesToken e.automaton) (trees.reverse.flatMap Tree.leaves) read := by
  induction h with
  | start => exact ⟨[], [], .bottom, nofun, rfl, .nil⟩
  | @shift turns frames trees token rest x target before known listed ih =>
    obtain ⟨word, read, grown, clean, rfl, matched⟩ := ih
    have proper : x ≠ .error := by
      rintro rfl
      exact ordinary token (by simp) known
    have terminal := Grammar.isTerminalOfMem (Automaton.terminalMember known)
    have leaf : e.Stands x (.leaf x (token.value.getD default)) (token.value.getD default) :=
      ⟨.leaf terminal, fun _ => by simp [Tree.evaluate]⟩
    refine ⟨x :: word, read ++ [token], grown.push (trimmed.shiftMoves listed) leaf, ?_, by simp, ?_⟩
    · simp [clean, proper.symm]
    · simp only [List.reverse_cons, List.flatMap_append, List.flatMap_singleton, Tree.leaves]
      exact List.rel_append matched (.cons ⟨known, rfl⟩ .nil)
  | @reduce turns frames trees token rest x id target p reducer before known listed found made goto ih =>
    obtain ⟨word, read, grown, clean, split, matched⟩ := ih
    obtain ⟨gone, kept, under, rfl, rfl, fits, grown⟩ := grown.handle trimmed listed found
    have count : gone.length = p.rhs.length := by simpa using fits.derives.length_eq.symm
    simp only [List.mem_append, List.mem_reverse, not_or] at clean
    rw [← count, List.take_left, List.drop_left, count]
    have node : e.Stands p.lhs (.node id gone.reverse)
        (reducer.apply e.argStyle (frames.topValues p.rhs.length [])) :=
      ⟨.node found fits.derives, fun _ => by rw [Tree.evaluate, made, fits.values clean.1]⟩
    refine ⟨p.lhs :: under, read, grown.push (trimmed.gotoFound goto) node, ?_, split, ?_⟩
    · have nonterminal := trimmed.wellFormed.lhsNonterminal p (List.mem_of_getElem? found)
      have proper : Symbol.error ≠ p.lhs := by
        intro same
        rw [← same] at nonterminal
        contradiction
      simp [proper, clean.2]
    · simpa [Tree.leaves] using matched

end Engine
end ForkingLR
