import ForkingLR.Proofs.Engine.Completeness

/-! Errors are found as early as they can be. What stands on a stack begins a sentence, so the tokens
before a rejection begin one; and a token that could come after them is shifted, on the stack that grows
the trees before it. -/
namespace ForkingLR

namespace Grammar
open Table
variable {g : Grammar}

structure Sentence (g : Grammar) (word : List Symbol) : Prop where
  terminals : ∀ x ∈ word, isTerminal x = true
  derived : g.cfg.Rewrites [g.start] word

section
variable (wf : g.WellFormed)
include wf

theorem Valid.sentential {word : List Symbol} {i : Item} {t : Symbol} (h : g.Valid word i t) :
    ∀ {p : Production Symbol}, g.productions[i.production]? = some p →
      ∃ tail, (∀ x ∈ tail, isTerminal x = false → ∃ q ∈ g.productions, q.lhs = x) ∧
        g.cfg.Rewrites [g.start] (word ++ (p.rhs.drop i.dot ++ tail)) := by
  induction h with
  | start =>
    intro p found
    obtain rfl := Option.some.inj (wf.startProduction.symm.trans found)
    exact ⟨[], nofun, .refl⟩
  | @shift word i x t before next ih =>
    intro p found
    obtain ⟨tail, defined, rewrites⟩ := ih found
    obtain ⟨p', found', here⟩ := Item.nextIff.1 next
    obtain rfl := Option.some.inj (found.symm.trans found')
    obtain ⟨bound, rfl⟩ := List.getElem?_eq_some_iff.1 here
    rw [List.drop_eq_getElem_cons bound, List.cons_append] at rewrites
    refine ⟨tail, defined, ?_⟩
    rw [List.append_assoc, List.singleton_append]
    exact rewrites
  | @predict word outer dot id q p t t' before around next found first ih =>
    intro p' found'
    obtain rfl := Option.some.inj (found.symm.trans found')
    obtain ⟨tail, defined, rewrites⟩ := ih around
    obtain ⟨bound, here⟩ := List.getElem?_eq_some_iff.1 next
    rw [List.drop_eq_getElem_cons bound, here] at rewrites
    have step := Cfg.Step.replace (g := g.cfg) word (q.rhs.drop (dot + 1) ++ tail)
      (List.mem_of_getElem? found)
    refine ⟨q.rhs.drop (dot + 1) ++ tail, ?_, ?_⟩
    · intro x inside nonterminal
      rcases List.mem_append.1 inside with own | outside
      · obtain ⟨r, member, lhs, _⟩ := wf.defined q (List.mem_of_getElem? around) x
          (List.mem_of_mem_drop own) nonterminal
        exact ⟨r, member, lhs⟩
      · exact defined x outside nonterminal
    · rw [List.drop_zero, ← List.append_assoc]
      exact rewrites.tail step

theorem walkHolds {word : List Symbol} {s : Nat} (walked : g.walk g.lr0States 0 word = .ok s) :
    ∃ i, Holds g.lr0States s i := by
  rcases List.eq_nil_or_concat word with rfl | ⟨front, x, rfl⟩
  · cases walked
    exact ⟨_, holdsStart wf⟩
  · rw [List.concat_eq_append] at walked
    obtain ⟨mid, _, last⟩ := walkAppend.1 walked
    have move := walkSingle.1 last
    obtain ⟨i, held, next⟩ := nextOfMoves wf move
    exact ⟨_, holdsAdvance wf move held next⟩

theorem Productive.completes (productive : g.Productive) {word read : List Symbol} {s : Nat}
    (walked : g.walk g.lr0States 0 word = .ok s) (rewrites : g.cfg.Rewrites word read)
    (terminals : ∀ x ∈ read, isTerminal x = true) : ∃ more, g.Sentence (read ++ more) := by
  obtain ⟨i, held⟩ := walkHolds wf walked
  obtain ⟨t, valid⟩ := productive.inhabited wf walked held
  obtain ⟨p, found, _⟩ := holdsValid wf held
  obtain ⟨tail, defined, sentential⟩ := valid.sentential wf found
  obtain ⟨more, terminals', rewrites'⟩ := productive.word (u := p.rhs.drop i.dot ++ tail) (by
    intro x inside nonterminal
    rcases List.mem_append.1 inside with own | outside
    · obtain ⟨r, member, lhs, _⟩ := wf.defined p (List.mem_of_getElem? found) x
        (List.mem_of_mem_drop own) nonterminal
      exact ⟨r, member, lhs⟩
    · exact defined x outside nonterminal)
  have front : g.cfg.Rewrites (word ++ (p.rhs.drop i.dot ++ tail)) (read ++ (p.rhs.drop i.dot ++ tail)) := by
    simpa using rewrites.append [] (p.rhs.drop i.dot ++ tail)
  have back : g.cfg.Rewrites (read ++ (p.rhs.drop i.dot ++ tail)) (read ++ more) := by
    simpa using rewrites'.append read []
  refine ⟨more, ?_, sentential.trans (front.trans back)⟩
  intro x inside
  exact (List.mem_append.1 inside).elim (terminals x) (terminals' x)

end
end Grammar

namespace Automaton
variable {V : Type} {a : Automaton}

def Opens (a : Automaton) (tokens : List (Token V)) (word : List Symbol) : Prop :=
  ∃ front, List.Forall₂ (fun t x => a.terminal? t.kind = some x) tokens front ∧ front <+: word

theorem leavesOf [Inhabited V] {tokens : List (Token V)} {word : List Symbol}
    (h : List.Forall₂ (fun t x => a.terminal? t.kind = some x) tokens word) :
    ∃ leaves : List (Symbol × V), leaves.map Prod.fst = word ∧
      List.Forall₂ (MatchesToken a) leaves tokens := by
  induction h with
  | nil => exact ⟨[], rfl, .nil⟩
  | @cons token x tokens word here _ ih =>
    obtain ⟨leaves, rfl, matched⟩ := ih
    exact ⟨(x, token.value.getD default) :: leaves, rfl, .cons ⟨here, rfl⟩ matched⟩

end Automaton

namespace Engine
open Table
variable {V : Type} [SemanticValue V] {e : Engine V} {input : List (Token V)}

theorem Grown.derived {frames : Frames V} {word : List Symbol} {trees : List (Tree V)}
    (h : e.Grown frames word trees) : List.Forall₂ (Tree.Derives e.automaton.grammar) word trees := by
  induction h with
  | bottom => exact .nil
  | push below move stands ih => exact .cons stands.derives ih

theorem Path.begins (equipped : e.Equipped input) (productive : e.automaton.grammar.Productive)
    {turns : List Turn} {frames : Frames V} {trees : List (Tree V)} {read rest : List (Token V)}
    (h : e.Path input turns frames trees rest) (split : input = read ++ rest) :
    ∃ sentence, e.automaton.grammar.Sentence sentence ∧ e.automaton.Opens read sentence := by
  have trimmed := equipped.trimmed
  obtain ⟨word, read', grown, _, split', matched⟩ := h.grown trimmed equipped.ordinary
  obtain rfl : read = read' := List.append_cancel_right (split.symm.trans split')
  have rewrites := Tree.rewritesForest (fun t _ => t.rewrites) (List.forall₂_reverse_iff.2 grown.derived)
  generalize trees.reverse.flatMap Tree.leaves = leaves at matched rewrites
  have terminals : ∀ x ∈ leaves.map Prod.fst, isTerminal x = true := by
    intro x inside
    obtain ⟨leaf, member, rfl⟩ := List.mem_map.1 inside
    obtain ⟨token, _, known, _⟩ := (forallMem matched).1 leaf member
    exact Grammar.isTerminalOfMem (Automaton.terminalMember known)
  obtain ⟨more, sentence⟩ := productive.completes trimmed.wellFormed (grown.spells.walk trimmed) rewrites
    terminals
  refine ⟨_, sentence, leaves.map Prod.fst, ?_, List.prefix_append _ _⟩
  rw [List.forall₂_map_right_iff]
  exact (matched.imp fun _ _ here => here.1).flip

/-- Where an item with `x` after its dot awaits the tree, the token of any of its leaves gets its turn
once the leaves before it are read. -/
def Meets (e : Engine V) (input : List (Token V)) (t : Tree V) : Prop :=
  ∀ {outer dot : Nat} {q : Production Symbol} {x y z : Symbol} {turns : List Turn} {value : V}
    {frames : Frames V} {trees : List (Tree V)} {tokens rest : List (Token V)} {next : Token V}
    {front back : List (Symbol × V)},
    e.Path input turns frames trees (tokens ++ next :: rest) →
    e.automaton.Admits frames ⟨outer, dot⟩ z → e.automaton.grammar.productions[outer]? = some q →
    q.rhs[dot]? = some x → t.Derives e.automaton.grammar x → t.leaves = front ++ (y, value) :: back →
    List.Forall₂ (MatchesToken e.automaton) front tokens → e.automaton.terminal? next.kind = some y →
    ∃ turns frames trees target, e.Path input turns frames trees (next :: rest) ∧
      .shift target ∈ e.automaton.actions frames.state y

theorem forestMeets (equipped : e.Equipped input) {id : Nat} {p : Production Symbol}
    (found : e.automaton.grammar.productions[id]? = some p) {next : Token V} {rest : List (Token V)}
    {y z : Symbol} {value : V} {back : List (Symbol × V)}
    (known : e.automaton.terminal? next.kind = some y) :
    ∀ {children : List (Tree V)} {before after : List Symbol} {turns : List Turn}
      {frames : Frames V} {trees : List (Tree V)} {tokens : List (Token V)} {front : List (Symbol × V)},
      (∀ t ∈ children, e.Meets input t) → p.rhs = before ++ after →
      List.Forall₂ (Tree.Derives e.automaton.grammar) after children →
      children.flatMap Tree.leaves = front ++ (y, value) :: back →
      List.Forall₂ (MatchesToken e.automaton) front tokens →
      e.Path input turns frames trees (tokens ++ next :: rest) →
      e.automaton.Admits frames ⟨id, before.length⟩ z →
      ∃ turns frames trees target, e.Path input turns frames trees (next :: rest) ∧
        .shift target ∈ e.automaton.actions frames.state y := by
  intro children
  induction children with
  | nil =>
    intro before after turns frames trees tokens front _ _ _ leaves
    simp at leaves
  | cons t children ih =>
    intro before after turns frames trees tokens front each split derived leaves matched path admits
    cases derived with
    | @cons x _ after _ one others =>
      have here : p.rhs[before.length]? = some x := by simp [split]
      have entered (inside : List (Symbol × V)) (own : t.leaves = front ++ (y, value) :: inside) :=
        each t List.mem_cons_self path admits found here one own matched known
      have passed (tail : List (Symbol × V)) (own : front = t.leaves ++ tail)
          (theirs : children.flatMap Tree.leaves = tail ++ (y, value) :: back) :
          ∃ turns frames trees target, e.Path input turns frames trees (next :: rest) ∧
            .shift target ∈ e.automaton.actions frames.state y := by
        subst own
        obtain ⟨read, left, grown, ahead, rfl⟩ := forallSplit matched
        have rewrites := (Tree.rewritesForest (fun t _ => t.rewrites) others).append [] [z]
        rw [theirs, List.map_append, List.map_cons, List.nil_append, List.nil_append,
          List.append_assoc] at rewrites
        obtain ⟨first, more, w, order, seen, begins⟩ := firstToken rewrites ahead known rest
        have later : p.rhs.drop (before.length + 1) = after := by simp [split]
        rw [List.append_assoc, order] at path
        obtain ⟨target, value, path, move⟩ := treeGrows equipped t path admits found here one grown seen
          (by rw [later]; exact begins)
        rw [← order] at path
        have admits := admits.push (Grammar.nextAfter found split) move value
        exact ih (fun t inside => each t (List.mem_cons_of_mem _ inside))
          (show p.rhs = (before ++ [x]) ++ after by simp [split]) others theirs ahead path
          (by simpa [Item.advance] using admits)
      rw [List.flatMap_cons] at leaves
      rcases List.append_eq_append_iff.1 leaves with ⟨tail, own, theirs⟩ | ⟨inside, own, theirs⟩
      · exact passed tail own theirs
      · cases inside with
        | nil => exact passed [] (by simpa using own.symm) (by simpa using theirs.symm)
        | cons leaf inside =>
          obtain ⟨rfl, _⟩ := List.cons.inj theirs
          exact entered inside own

theorem treeMeets (equipped : e.Equipped input) (productive : e.automaton.grammar.Productive)
    (t : Tree V) : e.Meets input t := by
  have trimmed := equipped.trimmed
  induction t using Tree.childInduction with
  | leaf symbol value =>
    intro outer dot q x y z turns value' frames trees tokens rest next front back path admits around here
      derived leaves matched known
    obtain ⟨rfl, terminal⟩ := Tree.derivesLeaf.1 derived
    rw [Tree.leaves] at leaves
    cases front with
    | cons leaf front => simp at leaves
    | nil =>
      cases matched
      cases leaves
      obtain ⟨target, listed⟩ := admits.shiftListed trimmed equipped.unresolved
        (Item.nextIff.2 ⟨q, around, here⟩) terminal
      exact ⟨turns, frames, trees, target, path, listed⟩
  | node id children ih =>
    intro outer dot q x y z turns value' frames trees tokens rest next front back path admits around here
      derived leaves matched known
    obtain ⟨p, found, rfl, below⟩ := Tree.derivesNode.1 derived
    obtain ⟨word, spells, valid⟩ := admits
    obtain ⟨w, first⟩ := productive.first trimmed.wellFormed (dot + 1) (List.mem_of_getElem? around)
      valid.terminal
    have inner : e.automaton.Admits frames ⟨id, 0⟩ w :=
      ⟨word, spells, valid.predict around here found first⟩
    rw [Tree.leaves] at leaves
    exact forestMeets equipped found known ih (List.nil_append p.rhs).symm below leaves matched path inner

theorem Visits.arrives {tokens seen rest : List (Token V)} {m : Moment V} {r : Round V}
    (h : e.Visits tokens seen m rest r) : e.Arrives tokens seen (m.token :: rest) := by
  induction h with
  | first input known => exact input ▸ Arrives.first
  | step before working ih => exact ih
  | next before done sane unfinished alive known ih => exact .next before alive

structure Thorough (e : Engine V) (tokens : List (Token V)) : Prop where
  equipped : e.Equipped (closeInput tokens)
  productive : e.automaton.grammar.Productive
  unaware : e.automaton.grammar.usesError = false
  endless : ∀ p ∈ e.automaton.grammar.productions, .endOfInput ∉ p.rhs
  calm : Calm (e.run tokens).last

section
variable {tokens seen rest : List (Token V)} {m : Moment V} {r : Round V} (thorough : e.Thorough tokens)
include thorough

theorem Visits.exploresFor (h : e.Visits tokens seen m rest r) {goal : List Turn → Prop}
    (aims : e.Aims (closeInput tokens) (m.token :: rest) goal) :
    ∃ own queued passed completed,
      e.Explores goal (closeInput tokens) m rest [] own queued passed completed r := by
  refine h.explores thorough.equipped.fitted ?_ (calmBefore h.remembers thorough.calm) aims
  intro _ used
  rw [thorough.unaware] at used
  contradiction

theorem Arrives.begins (h : e.Arrives tokens seen rest) :
    ∃ sentence, e.automaton.grammar.Sentence sentence ∧ e.automaton.Opens seen sentence := by
  cases h with
  | first => exact Path.begins thorough.equipped thorough.productive .start rfl
  | @next seen rest m r visited alive =>
    have nothing : e.Aims (closeInput tokens) (m.token :: rest) fun _ => False := ⟨nofun, nofun⟩
    obtain ⟨_, _, passed, _, explores⟩ := visited.exploresFor thorough nothing
    obtain ⟨s, inside⟩ := List.exists_mem_of_ne_nil r.moved.toList (by
      rw [Ne, ← Queue.isEmptyIff, alive]
      simp)
    obtain ⟨turns, _, took⟩ := (forallMem explores.moved).2 s inside
    obtain ⟨trees, path⟩ := took.path
    exact path.begins thorough.equipped thorough.productive (by simp [← visited.placed.input])

theorem Visits.completed (h : e.Visits tokens seen m rest r) (done : r.isDone e = true)
    (none : r.accepted.isEmpty = true) (stops : r.moved.isEmpty = true ∨ rest = []) {word : List Symbol}
    (sentence : e.automaton.grammar.Sentence word)
    (denoted : List.Forall₂ (fun t x => e.automaton.terminal? t.kind = some x) seen word) :
    m.terminal ≠ .endOfInput := by
  intro last
  obtain ⟨leaves, rfl, matched⟩ := Automaton.leavesOf denoted
  obtain ⟨t, derives, rfl⟩ := Tree.ofRewrites sentence.derived sentence.terminals
  have ends : m.token.isEnd = true := by
    simp [Token.isEnd, Automaton.terminalEnd (last ▸ h.placed.known)]
  have equipped := thorough.equipped
  rw [← h.placed.input] at equipped
  obtain ⟨value, complete⟩ := treeCompletes equipped ends ⟨derives, matched⟩
  rw [h.placed.input] at complete
  obtain ⟨_, _, passed, completed, explores⟩ := h.exploresFor thorough (aimsCompletions e _ _)
  have rests := explores.rests done (by simp [none])
  have member := rests.exhausts thorough.equipped.fitted (stops.imp_left (nilOfEmpty rests.moved)) complete
    ⟨_, t, value, rfl, complete⟩
  rw [nilOfEmpty rests.accepted none] at member
  contradiction

theorem Visits.shiftable (h : e.Visits tokens seen m rest r) (done : r.isDone e = true)
    (none : r.accepted.isEmpty = true) (stops : r.moved.isEmpty = true ∨ rest = []) {word more : List Symbol}
    (denoted : List.Forall₂ (fun t x => e.automaton.terminal? t.kind = some x) seen word) :
    ¬ e.automaton.grammar.Sentence (word ++ m.terminal :: more) := by
  intro sentence
  have trimmed := thorough.equipped.trimmed
  have wf := trimmed.wellFormed
  obtain ⟨front, rfl, matched⟩ := Automaton.leavesOf denoted
  have spelled : (front ++ (m.terminal, default) :: more.map fun x => (x, default)).map Prod.fst =
      front.map Prod.fst ++ m.terminal :: more := by simp [Function.comp_def]
  rw [← spelled] at sentence
  obtain ⟨t, derives, leaves⟩ := Tree.ofRewrites sentence.derived sentence.terminals
  have first : e.Path (closeInput tokens) [] .bottom [] (seen ++ m.token :: rest) :=
    h.placed.input ▸ Path.start
  obtain ⟨turns, frames, trees, target, path, listed⟩ := treeMeets thorough.equipped thorough.productive t
    first e.automaton.admitsStart wf.startProduction rfl derives leaves matched h.placed.known
  have shifted := Path.shift path h.placed.known listed
  have aims : e.Aims (closeInput tokens) (m.token :: rest) (· = .shift :: turns) := by
    constructor
    · intro turns aimed
      rw [aimed]
      exact .path shifted
    · intro turns frames trees rest' aimed path'
      subst aimed
      obtain ⟨_, _, rfl⟩ := shifted.unique trimmed path'
      exact Nat.lt_succ_self _
  obtain ⟨_, _, passed, completed, explores⟩ := h.exploresFor thorough aims
  have rests := explores.rests done (by simp [none])
  obtain ⟨k, inside, past⟩ := rests.divides.whole rfl
  rcases List.mem_append.1 inside with waiting | finished
  · rcases stops with stuck | rfl
    · rw [nilOfEmpty rests.moved stuck] at waiting
      contradiction
    · -- The last token closes the input, and no production has the end marker.
      obtain ⟨last, ends, closed⟩ := closeInputEnd tokens
      obtain ⟨_, same⟩ := List.append_inj' (h.placed.input.trans closed) rfl
      obtain rfl := (List.cons.inj same).1
      have final := h.placed.known.symm.trans (e.automaton.terminalOfEnd ends)
      rw [Option.some.inj final] at listed
      obtain ⟨i, _, next⟩ := Grammar.nextOfMoves wf (trimmed.moves.1 (trimmed.shiftMoves listed))
      obtain ⟨p, found, here⟩ := Item.nextIff.1 next
      exact thorough.endless p (List.mem_of_getElem? found) (List.mem_of_getElem? here)
  · obtain ⟨own, _, rfl⟩ := List.mem_map.1 finished
    exact shifted.notAccept past

theorem Visits.hopeless (h : e.Visits tokens seen m rest r) (done : r.isDone e = true)
    (none : r.accepted.isEmpty = true) (stops : r.moved.isEmpty = true ∨ rest = []) {word : List Symbol}
    (sentence : e.automaton.grammar.Sentence word) :
    ¬ e.automaton.Opens (seen ++ [m.token]) (word ++ [.endOfInput]) := by
  intro opens
  obtain ⟨_, all, begins⟩ := opens
  obtain ⟨front, last, denoted, own, rfl⟩ := forallSplit all
  obtain ⟨x, _, known, nothing, rfl⟩ := List.forall₂_cons_left_iff.1 own
  cases nothing
  obtain rfl := Option.some.inj (h.placed.known.symm.trans known)
  rcases List.prefix_concat_iff.1 begins with whole | part
  · obtain ⟨rfl, same⟩ := List.append_inj' whole rfl
    exact h.completed thorough done none stops sentence denoted (List.cons.inj same).1
  · obtain ⟨more, rfl⟩ := part
    rw [List.append_assoc, List.singleton_append] at sentence
    exact h.shiftable thorough done none stops denoted sentence

end

omit [SemanticValue V] in
theorem remainingDropLast {tokens seen rest : List (Token V)} {token : Token V}
    (input : seen ++ token :: rest = closeInput tokens) : remainingOf rest = rest.dropLast := by
  obtain ⟨last, ends, closed⟩ := closeInputEnd tokens
  rcases List.eq_nil_or_concat rest with rfl | ⟨front, final, rfl⟩
  · rfl
  · rw [closed, List.concat_eq_append, ← List.cons_append, ← List.append_assoc] at input
    obtain ⟨_, same⟩ := List.append_inj' input rfl
    obtain rfl := (List.cons.inj same).1
    simp [remainingOf, ends]

theorem rejectionEarliest {g : Grammar} {config : TableConfig} (built : g.Built)
    (productive : g.Productive) (plain : ∀ p ∈ g.productions, .endOfInput ∉ p.rhs ∧ .error ∉ p.rhs)
    (e : Engine V) (table : Automaton.build g config = .ok e.automaton) (free : config.precedence = false)
    (d : ParserDraft V) (made : e.reducers = d.reducers g) (tokens : List (Token V))
    (room : (e.run tokens).last.overflowed = false) (acyclic : (e.run tokens).last.cycled = false) :
    (∀ seen current remaining,
      (e.run tokens).result = .error (.notInLanguage seen current remaining) →
      (∃ rest, closeInput tokens = seen ++ current :: rest ∧ remaining = rest.dropLast) ∧
      (∃ sentence, g.Sentence sentence ∧ e.automaton.Opens seen sentence) ∧
      ∀ sentence, g.Sentence sentence →
        ¬ e.automaton.Opens (seen ++ [current]) (sentence ++ [.endOfInput])) ∧
    ∀ token, (e.run tokens).result = .error (.badToken token) →
      ∃ seen rest, closeInput tokens = seen ++ token :: rest ∧
        e.automaton.terminal? token.kind = none ∧
        (∀ t ∈ seen, (e.automaton.terminal? t.kind).isSome = true) ∧
        ∃ sentence, g.Sentence sentence ∧ e.automaton.Opens seen sentence := by
  obtain rfl : e.automaton.grammar = g := (Automaton.buildSource table).1
  have thorough : e.Thorough tokens := by
    refine ⟨⟨Automaton.trimmedBuild built table, Automaton.unresolvedBuild built table (.inl free), ?_, ?_⟩,
      productive, ?_, fun p inside => (plain p inside).1, ⟨room, acyclic⟩⟩
    · rw [made, d.reducersLength]
    · intro token _ error
      rcases Grammar.memTerminals.1 (Automaton.terminalMember error) with ends | ⟨_, p, inside, used⟩
      · cases ends
      · exact (plain p inside).2 used
    · simpa [Grammar.usesError] using fun p inside => (plain p inside).2
  have ends := runEnds e tokens
  generalize (e.run tokens).result = result at ends ⊢
  cases ends with
  | @unknown seen rest token arrives unknown =>
    refine ⟨nofun, ?_⟩
    intro token' same
    cases same
    obtain ⟨sentence, derived, front, denoted, begins⟩ := arrives.begins thorough
    refine ⟨seen, rest, arrives.input.symm, unknown, ?_, sentence, derived, front, denoted, begins⟩
    intro t inside
    obtain ⟨x, _, known⟩ := (forallMem denoted).1 t inside
    rw [known]
    rfl
  | faulty visited fault =>
    exact ⟨nofun, nofun⟩
  | @done seen rest m r visited finished sane stops =>
    unfold exhausted
    split
    · rename_i none
      refine ⟨?_, nofun⟩
      intro seen' current remaining same
      cases same
      have ended : r.moved.isEmpty = true ∨ rest = [] := stops.resolve_left (by simp [none])
      refine ⟨⟨rest, visited.placed.input.symm, remainingDropLast visited.placed.input⟩,
        visited.arrives.begins thorough, ?_⟩
      intro sentence derived
      exact visited.hopeless thorough finished none ended derived
    · exact ⟨nofun, nofun⟩

end Engine

theorem Grammar.plainSumsProductive {g : Grammar} (finished : ParserDraft.plainSums.grammar.build = .ok g) :
    g.Productive := by
  have listed : ParserDraft.plainSums.grammar.build.toOption.map Grammar.productions = some
      [⟨⟨3, .nonterminal⟩, [⟨3, .nonterminal⟩, ⟨4, .terminal⟩, ⟨3, .nonterminal⟩]⟩,
        ⟨⟨3, .nonterminal⟩, [⟨5, .terminal⟩]⟩, ⟨.augmentedStart, [⟨3, .nonterminal⟩]⟩] := by
    decide +kernel
  simp only [finished, Except.toOption, Option.map_some, Option.some.injEq] at listed
  exact numbersProductive (by simp [listed]) (by simp [listed]) (by rw [listed]; decide)

theorem straySumEarliest :
    ∃ p seen current remaining, ParserDraft.plainSums.finalize .lr0 = .ok p ∧
      ((p.engine .first).run straySum).result = .error (.notInLanguage seen current remaining) ∧
      (seen ++ current :: remaining).map Token.kind = straySum.map Token.kind ∧ seen.length = 3 ∧
      (∃ sentence, p.automaton.grammar.Sentence sentence ∧ p.automaton.Opens seen sentence) ∧
      ∀ sentence, p.automaton.grammar.Sentence sentence →
        ¬ p.automaton.Opens (seen ++ [current]) (sentence ++ [.endOfInput]) := by
  have ran : ((ParserDraft.plainSums.finalize .lr0).toOption.any fun p =>
      let outcome := (p.engine .first).run straySum
      !outcome.last.overflowed && !outcome.last.cycled &&
        (p.automaton.grammar.productions.all fun p => .endOfInput ∉ p.rhs ∧ .error ∉ p.rhs) &&
        match outcome.result with
        | .error (.notInLanguage seen current remaining) =>
          (seen ++ current :: remaining).map Token.kind == straySum.map Token.kind && seen.length == 3
        | _ => false) = true := by decide +kernel
  obtain ⟨p, finished, ran⟩ := okOfAny ran
  simp only [Bool.and_eq_true, Bool.not_eq_true', List.all_eq_true, decide_eq_true_eq] at ran
  obtain ⟨⟨⟨room, acyclic⟩, plain⟩, answer⟩ := ran
  obtain ⟨g, a, built, table, rfl⟩ := ParserDraft.finalizeSource finished
  obtain rfl : a.grammar = g := (Automaton.buildSource table).1
  obtain ⟨earliest, _⟩ := Engine.rejectionEarliest ⟨_, built⟩ (Grammar.plainSumsProductive built) plain
    ((ParserDraft.plainSums.toParser a.grammar a).engine .first) table rfl ParserDraft.plainSums rfl
    straySum room acyclic
  split at answer
  · rename_i seen current remaining refused
    obtain ⟨_, begins, hopeless⟩ := earliest _ _ _ refused
    simp only [Bool.and_eq_true, beq_iff_eq] at answer
    exact ⟨_, seen, current, remaining, finished, refused, answer.1, answer.2, begins, hopeless⟩
  · cases answer

end ForkingLR
