import ForkingLR.Proofs.Engine.Exploration
import ForkingLR.Proofs.Engine.Reading

/-! Every derivation tree is found. A tree is grown in the order of its history: at each turn a
canonical item awaits what comes next, so the table offers the action and no lookahead rules it out.
With one history for each tree, a run that gives nothing up answers with the value of each tree of the
input, once. -/
namespace ForkingLR

namespace Frames
variable {V W : Type}

def map (f : V → W) : Frames V → Frames W
  | .bottom => .bottom
  | .push state value below => .push state (f value) (map f below)

def values : Frames V → List V
  | .bottom => []
  | .push _ value below => value :: below.values

theorem mapState (f : V → W) (frames : Frames V) : (frames.map f).state = frames.state := by
  cases frames <;> rfl

theorem mapDrop (f : V → W) (frames : Frames V) (count : Nat) :
    (frames.map f).drop count = (frames.drop count).map f := by
  induction count generalizing frames with
  | zero => rfl
  | succ count ih =>
    cases frames with
    | bottom => rfl
    | push state value below => exact ih below

theorem valuesDrop (frames : Frames V) (count : Nat) :
    (frames.drop count).values = frames.values.drop count := by
  induction count generalizing frames with
  | zero => rfl
  | succ count ih =>
    cases frames with
    | bottom => rfl
    | push state value below => exact ih below

theorem topValuesEq (frames : Frames V) (count : Nat) (values : List V) :
    frames.topValues count values = (frames.values.take count).reverse ++ values := by
  induction count generalizing frames values with
  | zero => rfl
  | succ count ih =>
    cases frames with
    | bottom => rfl
    | push state value below => simp [topValues, Frames.values, ih]

theorem topValuesMap (f : V → W) (frames : Frames V) (count : Nat) :
    (frames.map f).topValues count [] = (frames.topValues count []).map f := by
  have mapped : (frames.map f).values = frames.values.map f := by
    induction frames with
    | bottom => rfl
    | push state value below ih => simp [map, values, ih]
  rw [topValuesEq, topValuesEq, mapped, List.append_nil, List.append_nil, List.map_reverse, List.map_take]

end Frames

namespace Automaton
variable {V W : Type} {a : Automaton}

theorem spellsMap {f : V → W} {frames : Frames V} {word : List Symbol} :
    a.Spells (frames.map f) word ↔ a.Spells frames word := by
  induction frames generalizing word with
  | bottom =>
    constructor
    · rintro ⟨⟩
      exact .bottom
    · rintro ⟨⟩
      exact .bottom
  | push state value below ih =>
    constructor
    · rintro (_ | ⟨under, move⟩)
      exact .push (ih.1 under) (Frames.mapState f below ▸ move)
    · rintro (_ | ⟨under, move⟩)
      exact .push (ih.2 under) ((Frames.mapState f below).symm ▸ move)

theorem terminalOfEnd (a : Automaton) {token : Token V} (ends : token.isEnd = true) :
    a.terminal? token.kind = some .endOfInput := by
  have kind : token.kind = "EOS" := by simpa [Token.isEnd] using ends
  obtain ⟨rest, shape⟩ := a.grammar.symbols.reserved
  have key : a.grammar.symbols.names.key? "EOS" = some 0 := by
    simp [Interner.key?, ← shape, List.idxOf?_cons]
  have symbol : a.grammar.symbols.lookup? "EOS" = some .endOfInput := by
    rw [SymbolTable.lookup?, key]
    decide
  rw [kind, terminal?, symbol]
  simp [Grammar.memTerminals]

end Automaton

namespace Engine
open Table
variable {V : Type} [SemanticValue V] {e : Engine V} {input : List (Token V)}

/-- Where an item with `x` after its dot awaits the tree and `y` can come after it, the tree is
grown over its own tokens. -/
def Grows (e : Engine V) (input : List (Token V)) (t : Tree V) : Prop :=
  ∀ {outer dot : Nat} {q : Production Symbol} {x y z : Symbol} {turns : List Turn}
    {frames : Frames V} {trees : List (Tree V)} {tokens rest : List (Token V)} {next : Token V},
    e.Path input turns frames trees (tokens ++ next :: rest) →
    e.automaton.Admits frames ⟨outer, dot⟩ z → e.automaton.grammar.productions[outer]? = some q →
    q.rhs[dot]? = some x → t.Derives e.automaton.grammar x →
    List.Forall₂ (MatchesToken e.automaton) t.leaves tokens →
    e.automaton.terminal? next.kind = some y →
    e.automaton.grammar.cfg.FirstOf (q.rhs.drop (dot + 1) ++ [z]) y →
    ∃ target value, e.Path input (t.history ++ turns) (.push target value frames) (t :: trees)
      (next :: rest) ∧ Moves e.automaton.states frames.state x target

theorem firstToken {a : Automaton} {u more : List Symbol} {front : List (Symbol × V)}
    {tokens : List (Token V)} {next : Token V} {x : Symbol}
    (rewrites : a.grammar.cfg.Rewrites u (front.map Prod.fst ++ x :: more))
    (matched : List.Forall₂ (MatchesToken a) front tokens)
    (known : a.terminal? next.kind = some x) (rest : List (Token V)) :
    ∃ first others y, tokens ++ next :: rest = first :: others ∧ a.terminal? first.kind = some y ∧
      a.grammar.cfg.FirstOf u y := by
  cases matched with
  | nil =>
    have terminal := Grammar.isTerminalOfMem (Automaton.terminalMember known)
    exact ⟨next, rest, x, rfl, known, terminal, more, rewrites⟩
  | @cons leaf token leaves tokens here _ =>
    have terminal := Grammar.isTerminalOfMem (Automaton.terminalMember here.1)
    exact ⟨token, tokens ++ next :: rest, leaf.1, rfl, here.1, terminal, _, rewrites⟩

theorem Path.planted {turns : List Turn} {frames : Frames V} {trees : List (Tree V)}
    {rest : List (Token V)} (h : e.Path input turns frames trees rest) :
    ∃ planted : Frames (Tree V), planted.map (Tree.evaluate e.reducers e.argStyle) = frames ∧
      planted.values = trees := by
  induction h with
  | start => exact ⟨.bottom, rfl, rfl⟩
  | @shift turns frames trees token rest x target before known listed ih =>
    obtain ⟨planted, rfl, rfl⟩ := ih
    exact ⟨.push target (.leaf x (token.value.getD default)) planted, by simp [Frames.map, Tree.evaluate], rfl⟩
  | @reduce turns frames trees token rest x id target p reducer before known listed found made goto ih =>
    obtain ⟨planted, rfl, rfl⟩ := ih
    refine ⟨.push target (.node id (planted.topValues p.rhs.length [])) (planted.drop p.rhs.length), ?_, ?_⟩
    · simp only [Frames.map, Tree.evaluate, made, Frames.mapDrop, Frames.topValuesMap]
    · rw [Frames.values, Frames.topValuesEq, Frames.valuesDrop, List.append_nil]

theorem Path.follows (made : e.reducers.length = e.automaton.grammar.size) {r r' : Reading V}
    (read : e.automaton.Reads r r') (more : r'.left ≠ []) {turns : List Turn} {tokens rest : List (Token V)}
    (path : e.Path input turns (r.frames.map (Tree.evaluate e.reducers e.argStyle)) r.frames.values
      (tokens ++ rest))
    (matched : List.Forall₂ (MatchesToken e.automaton) r.left tokens) :
    ∃ turns' tokens', tokens' <:+ tokens ∧
      e.Path input turns' (r'.frames.map (Tree.evaluate e.reducers e.argStyle)) r'.frames.values
        (tokens' ++ rest) ∧
      List.Forall₂ (MatchesToken e.automaton) r'.left tokens' := by
  induction read with
  | refl => exact ⟨turns, tokens, List.suffix_rfl, path, matched⟩
  | tail _ step ih =>
    cases step with
    | @shift frames x value left target listed =>
      obtain ⟨turns', _, past, path, matched⟩ := ih (List.cons_ne_nil _ _)
      obtain ⟨token, tokens', ⟨known, rfl⟩, others, rfl⟩ := List.forall₂_cons_left_iff.1 matched
      rw [← Frames.mapState (Tree.evaluate e.reducers e.argStyle)] at listed
      have shifted := path.shift known listed
      refine ⟨.shift :: turns', tokens', (List.suffix_cons _ _).trans past, ?_, others⟩
      simpa [Frames.map, Frames.values, Tree.evaluate] using shifted
    | @reduce frames left id target p listed found goto =>
      obtain ⟨turns', tokens', past, path, matched⟩ := ih more
      cases matched with
      | nil => exact absurd rfl more
      | @cons leaf token left tokens'' first others =>
        have bound : id < e.reducers.length := by
          rw [made]
          exact (List.getElem?_eq_some_iff.1 found).1
        rw [← Frames.mapState (Tree.evaluate e.reducers e.argStyle)] at listed goto
        rw [← Frames.mapDrop] at goto
        have reduced := path.reduce first.1 listed found (List.getElem?_eq_getElem bound) goto
        refine ⟨.reduce id :: turns', token :: tokens'', past, ?_, .cons first others⟩
        rw [Frames.mapDrop, Frames.topValuesMap, ← Frames.valuesDrop, ← List.append_nil (List.reverse _),
          ← Frames.topValuesEq] at reduced
        simp only [Frames.map, Frames.values, Tree.evaluate, List.getElem?_eq_getElem bound]
        exact reduced

theorem Path.grows (made : e.reducers.length = e.automaton.grammar.size) {planted : Frames (Tree V)}
    {turns : List Turn} {tokens rest : List (Token V)} {next : Token V} {t : Tree V} {y : Symbol} {target : Nat}
    (path : e.Path input turns (planted.map (Tree.evaluate e.reducers e.argStyle)) planted.values
      (tokens ++ next :: rest))
    (matched : List.Forall₂ (MatchesToken e.automaton) t.leaves tokens)
    (known : e.automaton.terminal? next.kind = some y)
    (read : e.automaton.Reads ⟨planted, t.leaves ++ [(y, next.value.getD default)]⟩
      ⟨.push target t planted, [(y, next.value.getD default)]⟩) :
    e.Path input (t.history ++ turns) (.push target (t.evaluate e.reducers e.argStyle)
      (planted.map (Tree.evaluate e.reducers e.argStyle))) (t :: planted.values) (next :: rest) := by
  rw [List.append_cons] at path
  obtain ⟨turns', tokens', past, path', matched'⟩ := path.follows made read (List.cons_ne_nil _ _)
    (List.rel_append matched (.cons ⟨known, rfl⟩ .nil))
  obtain ⟨last, _, _, nothing, rfl⟩ := List.forall₂_cons_left_iff.1 matched'
  cases nothing
  obtain rfl : last = next := by
    rcases List.suffix_concat_iff.1 past with empty | ⟨front, same, _⟩
    · cases empty
    · simpa using congrArg List.getLast? same
  have order := path'.history
  rw [Frames.values, List.map_cons, List.flatten_cons, ← path.history] at order
  rw [order] at path'
  exact path'

theorem treeGrows (equipped : e.Equipped input) (t : Tree V) : e.Grows input t := by
  intro outer dot q x y z turns frames trees tokens rest next path admits around here derived matched
    known begins
  obtain ⟨planted, rfl, rfl⟩ := path.planted
  obtain ⟨word, spells, valid⟩ := admits
  have readable : e.automaton.Readable (t.leaves ++ [(y, next.value.getD default)]) := by
    have own {leaf : Symbol × V} {token : Token V} (matches' : MatchesToken e.automaton leaf token)
        (listed : token ∈ tokens ++ next :: rest) :
        leaf.1 ∈ e.automaton.grammar.terminals ∧ leaf.1 ≠ .error :=
      ⟨Automaton.terminalMember matches'.1,
        fun error => equipped.ordinary token (path.left.mem listed) (error ▸ matches'.1)⟩
    intro leaf inside
    rcases List.mem_append.1 inside with inside | last
    · obtain ⟨token, listed, here⟩ := (forallMem matched).1 leaf inside
      exact own here (List.mem_append_left _ listed)
    · rw [List.mem_singleton.1 last]
      exact own (show MatchesToken e.automaton _ next from ⟨known, rfl⟩) (by simp)
  obtain ⟨target, read, move⟩ := Automaton.treeGrows equipped.trimmed equipped.unresolved t
    ⟨word, Automaton.spellsMap.1 spells, valid⟩ around here derived readable begins
  rw [Frames.mapState]
  exact ⟨target, _, path.grows equipped.reducers matched known read, move⟩

end Engine

structure Tree.Parses {V : Type} [Inhabited V] (a : Automaton) (tokens : List (Token V))
    (t : Tree V) : Prop where
  derives : t.Derives a.grammar a.grammar.start
  matched : List.Forall₂ (MatchesToken a) t.leaves tokens

namespace Engine
variable {V : Type} [SemanticValue V] {e : Engine V}

theorem treeCompletes {content rest : List (Token V)} {last : Token V} {t : Tree V}
    (equipped : e.Equipped (content ++ last :: rest)) (ends : last.isEnd = true)
    (parses : t.Parses e.automaton content) :
    ∃ value, e.Completes (content ++ last :: rest) t.history t value := by
  have trimmed := equipped.trimmed
  have wf := trimmed.wellFormed
  have known := e.automaton.terminalOfEnd ends
  have admits := e.automaton.admitsStart (W := V)
  obtain ⟨target, value, path, move⟩ := treeGrows equipped t .start admits wf.startProduction rfl
    parses.derives parses.matched known ⟨rfl, [], .refl⟩
  have complete := admits.push (Item.nextIff.2 ⟨_, wf.startProduction, rfl⟩) move value
  have listed : .accept ∈ e.automaton.actions target .endOfInput :=
    equipped.unresolved.keeps (.accept rfl (complete.holds trimmed)) nofun
  rw [List.append_nil] at path
  exact ⟨value, _, last, rest, _, path, known, listed, rfl⟩

theorem completesParses {tokens : List (Token V)} {turns : List Turn} {t : Tree V} {value : V}
    (fitted : e.Fitted (closeInput tokens)) (ordinary : ∀ t ∈ tokens.dropLast, t.isEnd = false)
    (h : e.Completes (closeInput tokens) turns t value) :
    t.Parses e.automaton (remainingOf tokens) ∧ turns = t.history ∧
      value = t.evaluate e.reducers e.argStyle := by
  obtain ⟨frames, token, rest, x, path, known, accepts, rfl⟩ := h
  obtain ⟨word, read, grown, _, split, matched⟩ := path.grown fitted.trimmed fitted.ordinary
  obtain ⟨rfl, _, same, _, derives, valued⟩ :=
    grown.accepts (s := { id := 0, frames }) fitted.trimmed accepts
  cases same
  have all : read = remainingOf tokens :=
    readAll split.symm ordinary (by simp [Token.isEnd, Automaton.terminalEnd known])
  refine ⟨⟨derives, ?_⟩, by simpa using path.history, valued.symm⟩
  simpa [all] using matched

theorem acceptedTrees {tokens : List (Token V)} (explorer : e.Explorer (closeInput tokens))
    (ordinary : ∀ t ∈ tokens.dropLast, t.isEnd = false) {completed : List (List Turn)}
    {accepted : List (Accepted V)}
    (h : List.Forall₂ (Took.Accepted e (closeInput tokens)) completed accepted) :
    ∃ trees : List (Tree V), (∀ t ∈ trees, t.Parses e.automaton (remainingOf tokens)) ∧
      completed = trees.map Tree.history ∧
      accepted = trees.map fun t => ⟨t.evaluate e.reducers e.argStyle, []⟩ := by
  induction h with
  | nil => exact ⟨[], nofun, rfl, rfl⟩
  | @cons turns a completed accepted first _ ih =>
    obtain ⟨trees, parses, rfl, rfl⟩ := ih
    obtain ⟨⟨t, complete⟩, unharmed⟩ := first
    obtain ⟨here, rfl, valued⟩ := completesParses explorer.equipped.fitted ordinary complete
    refine ⟨t :: trees, List.forall_mem_cons.2 ⟨here, parses⟩, rfl, ?_⟩
    cases a
    rw [List.map_cons, ← valued, ← unharmed]

theorem historyUnique {tokens : List (Token V)} (explorer : e.Explorer (closeInput tokens)) {t t' : Tree V}
    (parses : t.Parses e.automaton (remainingOf tokens))
    (parses' : t'.Parses e.automaton (remainingOf tokens)) (same : t.history = t'.history) : t = t' := by
  obtain ⟨last, ends, input⟩ := closeInputEnd tokens
  have equipped := explorer.equipped
  rw [input] at equipped
  obtain ⟨_, _, _, _, _, path, _⟩ := treeCompletes equipped ends parses
  obtain ⟨_, _, _, _, _, path', _⟩ := treeCompletes equipped ends parses'
  rw [← same] at path'
  exact (List.cons.inj (path.unique explorer.trimmed path').2.1).1

theorem runTrees {tokens : List (Token V)} (explorer : e.Explorer (closeInput tokens))
    (ordinary : ∀ t ∈ tokens.dropLast, t.isEnd = false)
    (known : ∀ t ∈ tokens, (e.automaton.terminal? t.kind).isSome = true)
    (calm : Calm (e.run tokens).last) :
    ∃ trees : List (Tree V), trees.Nodup ∧
      (∀ t, t ∈ trees ↔ t.Parses e.automaton (remainingOf tokens)) ∧
      (trees = [] → ∃ seen token remaining,
        (e.run tokens).result = .error (.notInLanguage seen token remaining)) ∧
      (trees ≠ [] → (e.run tokens).result =
        .ok (trees.map fun t => ⟨t.evaluate e.reducers e.argStyle, []⟩)) := by
  obtain ⟨last, ends, input⟩ := closeInputEnd tokens
  have terminals : ∀ t ∈ closeInput tokens, (e.automaton.terminal? t.kind).isSome = true := by
    intro t inside
    rcases closeInputMem inside with given | marker
    · exact known t given
    · rw [e.automaton.terminalOfEnd marker]
      rfl
  obtain ⟨completed, accepted, aligned, nodup, all, answer⟩ := runEnumerates explorer terminals calm
  obtain ⟨trees, parses, rfl, rfl⟩ := acceptedTrees explorer ordinary aligned
  refine ⟨trees, nodup.of_map, ?_, ?_, ?_⟩
  · intro t
    refine ⟨parses t, fun h => ?_⟩
    obtain ⟨value, complete⟩ := treeCompletes (input ▸ explorer.equipped) ends h
    obtain ⟨t', inside, same⟩ := List.mem_map.1 (all (input ▸ complete))
    exact historyUnique explorer (parses t' inside) h same ▸ inside
  · rintro rfl
    exact answer.elim And.right fun ⟨found, _⟩ => absurd rfl found
  · intro found
    exact answer.elim (fun ⟨empty, _⟩ => absurd (List.map_eq_nil_iff.1 empty) found) And.right

end Engine

namespace Parser
variable {V : Type} [SemanticValue V]

theorem parseAllExact {g : Grammar} {config : TableConfig} (built : g.Built) (p : Parser V)
    (table : Automaton.build g config = .ok p.automaton)
    (free : config.precedence = false ∨ g.precedence.isEmpty = true) (d : ParserDraft V)
    (made : p.reducers = d.reducers g) (strict : p.options.errorRecovery = false)
    (tokens : List (Token V)) (ordinary : ∀ t ∈ tokens.dropLast, t.isEnd = false)
    (known : ∀ t ∈ tokens, (p.automaton.terminal? t.kind).isSome = true ∧ t.kind ≠ "ERROR")
    (room : ((p.engine .all).run tokens).last.overflowed = false)
    (acyclic : ((p.engine .all).run tokens).last.cycled = false) :
    ∃ trees : List (Tree V), trees.Nodup ∧
      (∀ t, t ∈ trees ↔ t.Parses p.automaton (Engine.remainingOf tokens)) ∧
      (trees ≠ [] → p.parseAll tokens = .ok (trees.map (Tree.evaluate p.reducers p.argStyle))) ∧
      (trees = [] → ∃ seen current remaining,
        p.parseAll tokens = .error (.rejected (.notInLanguage seen current remaining))) := by
  have same : p.automaton.grammar = g := (Automaton.buildSource table).1
  have explorer : (p.engine .all).Explorer (Engine.closeInput tokens) := by
    refine ⟨Automaton.trimmedBuild built table, Automaton.unresolvedBuild built table free, ?_, rfl,
      strict, ?_⟩
    · show p.reducers.length = p.automaton.grammar.size
      rw [made, d.reducersLength, same]
    · intro t inside error
      rcases Engine.closeInputMem inside with given | marker
      · exact (known t given).2 (Automaton.terminalError error)
      · cases (Automaton.terminalOfEnd _ marker).symm.trans error
  obtain ⟨trees, nodup, members, refused, answered⟩ := Engine.runTrees explorer ordinary
    (fun t inside => (known t inside).1) ⟨room, acyclic⟩
  refine ⟨trees, nodup, members, ?_, ?_⟩
  · intro found
    rw [parseAll, conclude, answered found]
    simp [allMatches, Function.comp_def, engine]
  · intro empty
    obtain ⟨seen, current, remaining, answer⟩ := refused empty
    exact ⟨seen, current, remaining, by rw [parseAll, conclude, answer]⟩

def longSum : List (Token Value) :=
  [{ kind := "N" }, { kind := "PLUS" }, { kind := "N" }, { kind := "PLUS" }, { kind := "N" }]

theorem longSumExact :
    ∃ p, ∃ left right : Tree Value, ParserDraft.sums.finalize {} = .ok p ∧ left ≠ right ∧
      (∀ t, t.Parses p.automaton longSum ↔ t = left ∨ t = right) ∧
      (p.withOptions { errorRecovery := false }).parseAll longSum =
        .ok [left.evaluate p.reducers p.argStyle, right.evaluate p.reducers p.argStyle] := by
  obtain ⟨p, finished⟩ := ParserDraft.sumsFinalized
  have ran : ((ParserDraft.sums.finalize {}).toOption.any fun p =>
      let p := p.withOptions { errorRecovery := false }
      let last := ((p.engine .all).run longSum).last
      p.automaton.grammar.precedence.isEmpty && !last.overflowed && !last.cycled &&
        (p.parseAll longSum).toOption.any (·.length == 2) &&
        longSum.all fun t => (p.automaton.terminal? t.kind).isSome && t.kind != "ERROR") = true := by
    decide +kernel
  simp only [finished, Except.toOption, Option.any_some, Bool.and_eq_true, Bool.not_eq_true',
    List.all_eq_true, bne_iff_ne] at ran
  obtain ⟨⟨⟨⟨plain, room⟩, acyclic⟩, two⟩, known⟩ := ran
  obtain ⟨g, a, built, table, rfl⟩ := ParserDraft.finalizeSource finished
  obtain rfl : a.grammar = g := (Automaton.buildSource table).1
  obtain ⟨trees, nodup, members, answered, refused⟩ := parseAllExact ⟨_, built⟩
    ((ParserDraft.sums.toParser a.grammar a).withOptions { errorRecovery := false }) table (.inr plain)
    ParserDraft.sums rfl rfl longSum (by decide) known room acyclic
  cases trees with
  | nil =>
    obtain ⟨seen, current, remaining, answer⟩ := refused rfl
    simp [answer] at two
  | cons left others =>
    have answer := answered (List.cons_ne_nil _ _)
    have one : others.length = 1 := by simpa [answer] using two
    obtain ⟨right, rfl⟩ := List.length_eq_one_iff.1 one
    refine ⟨_, left, right, finished, by simpa using nodup, ?_, answer⟩
    intro t
    exact (members t).symm.trans (by simp)

end Parser
end ForkingLR
