import ForkingLR.Proofs.Engine.Growth

/-! What backs an accepted value. The leaves of the trees on a stack are matched, from left to
right, with the input read so far: each with one token of its kind, the error terminal with
whatever was skipped or taken off the stack for it. -/
namespace ForkingLR

def Matches {V : Type} [Inhabited V] (a : Automaton) (leaf : Symbol × V) (segment : List (Token V)) :
    Prop :=
  leaf.1 = .error ∨ ∃ token, segment = [token] ∧ MatchesToken a leaf token

def AgreeExceptError {V : Type} (l l' : Symbol × V) : Prop := l'.1 = l.1 ∧ (l.1 ≠ .error → l' = l)

namespace Tree
variable {V : Type}

def Erroneous (t : Tree V) : Prop := ∃ value, (Symbol.error, value) ∈ t.leaves

structure Explains [Inhabited V] (a : Automaton) (content : List (Token V)) (t : Tree V) : Prop where
  derives : t.Derives a.grammar a.grammar.start
  aligned : ∃ segments, List.Forall₂ (Matches a) t.leaves segments ∧ segments.flatten = content

theorem errorLeaf {g : Grammar} (wf : g.WellFormed) {t : Tree V} (h : t.Derives g .error) :
    ∃ value, t = .leaf .error value := by
  cases t with
  | leaf symbol value =>
    obtain ⟨rfl, _⟩ := derivesLeaf.1 h
    exact ⟨value, rfl⟩
  | node id children =>
    obtain ⟨p, found, lhs, _⟩ := derivesNode.1 h
    have nonterminal := wf.lhsNonterminal p (List.mem_of_getElem? found)
    rw [← lhs] at nonterminal
    contradiction

theorem errorAmong {g : Grammar} (wf : g.WellFormed) {rhs : List Symbol} {trees : List (Tree V)}
    (h : List.Forall₂ (Derives g) rhs trees) : .error ∈ rhs ↔ ∃ value, .leaf .error value ∈ trees := by
  induction h with
  | nil => simp
  | @cons x t rhs trees first rest ih =>
    simp only [List.mem_cons, ih, exists_or]
    refine or_congr ?_ Iff.rfl
    constructor
    · rintro rfl
      obtain ⟨value, rfl⟩ := errorLeaf wf first
      exact ⟨value, rfl⟩
    · rintro ⟨value, rfl⟩
      exact (derivesLeaf.1 first).1.symm

theorem erroneousNode {id : Nat} {children : List (Tree V)} :
    (node id children).Erroneous ↔ ∃ child ∈ children, child.Erroneous := by
  simp only [Erroneous, leaves, List.mem_flatMap]
  constructor
  · rintro ⟨value, child, inside, here⟩
    exact ⟨child, inside, value, here⟩
  · rintro ⟨child, inside, value, here⟩
    exact ⟨value, child, inside, here⟩

end Tree

instance {V : Type} : Std.Refl (AgreeExceptError (V := V)) := ⟨fun _ => ⟨rfl, fun _ => rfl⟩⟩

theorem matchesAgree {V : Type} [Inhabited V] {a : Automaton} {l l' : List (Symbol × V)}
    {segments : List (List (Token V))} (h : List.Forall₂ (Matches a) l segments)
    (same : List.Forall₂ AgreeExceptError l l') : List.Forall₂ (Matches a) l' segments := by
  induction same generalizing segments with
  | nil => exact h
  | @cons x x' l l' head tail ih =>
    cases h with
    | cons first rest =>
      refine .cons ?_ (ih rest)
      by_cases error : x.1 = .error
      · exact .inl (head.1.trans error)
      · exact head.2 error ▸ first

theorem AgreeExceptError.errorMember {V : Type} {l l' : List (Symbol × V)}
    (same : List.Forall₂ AgreeExceptError l l') :
    (∃ value, (Symbol.error, value) ∈ l') ↔ ∃ value, (Symbol.error, value) ∈ l := by
  have symbols : l'.map Prod.fst = l.map Prod.fst := by
    induction same with
    | nil => rfl
    | cons head tail ih => rw [List.map_cons, List.map_cons, head.1, ih]
  have listed (k : List (Symbol × V)) :
      (∃ value, (Symbol.error, value) ∈ k) ↔ Symbol.error ∈ k.map Prod.fst := by simp
  rw [listed, listed, symbols]

theorem AgreeExceptError.errorLast {V : Type} {before : List (Symbol × V)} {value : V}
    {l : List (Symbol × V)} (same : List.Forall₂ AgreeExceptError (before ++ [(.error, value)]) l) :
    ∃ before value, l = before ++ [(.error, value)] := by
  obtain ⟨front, back, _, tail, rfl⟩ := forallSplit same
  obtain ⟨⟨symbol, value'⟩, _, agree, nothing, rfl⟩ := List.forall₂_cons_left_iff.1 tail
  obtain rfl := List.forall₂_nil_left_iff.1 nothing
  obtain rfl : symbol = .error := agree.1
  exact ⟨front, value', rfl⟩

theorem AgreeExceptError.erroneousIff {V : Type} {id : Nat} {trees children : List (Tree V)}
    (same : List.Forall₂ AgreeExceptError (trees.flatMap Tree.leaves) (children.flatMap Tree.leaves)) :
    (Tree.node id children).Erroneous ↔ ∃ t ∈ trees, t.Erroneous := by
  rw [Tree.erroneousNode]
  have members := AgreeExceptError.errorMember same
  simp only [List.mem_flatMap] at members
  simpa only [Tree.Erroneous, ← exists_and_left, exists_comm (α := V)] using members

namespace Engine
variable {V : Type} [SemanticValue V] {e : Engine V}

theorem Fits.length {rhs : List Symbol} {trees : List (Tree V)} {values : List V}
    (h : e.Fits rhs trees values) : values.length = rhs.length := by
  induction h with
  | nil => rfl
  | cons first rest ih => rw [List.length_cons, List.length_cons, ih]

theorem Fits.recovered {rhs : List Symbol} {trees : List (Tree V)} {values : List V}
    (h : e.Fits rhs trees values) (id : Nat) (r : Recovery V) :
    (arguments id rhs values r).2.recovered = [] ↔ r.recovered = [] ∧ .error ∉ rhs := by
  rw [argumentsSettled id rhs values r h.length, ← List.count_eq_zero]
  cases rhs.count .error with
  | zero => simp [Recovery.settleTimes]
  | succ count => simp [Recovery.settleTimes]

theorem Fits.settles (wf : e.automaton.grammar.WellFormed) {rhs : List Symbol}
    {trees : List (Tree V)} {values : List V} (h : e.Fits rhs trees values) (id : Nat) (r : Recovery V) :
    ∃ children, List.Forall₂ (Tree.Derives e.automaton.grammar) rhs children ∧
      children.map (Tree.evaluate e.reducers e.argStyle) = (arguments id rhs values r).1 ∧
      List.Forall₂ AgreeExceptError (trees.flatMap Tree.leaves) (children.flatMap Tree.leaves) := by
  have settled : ∃ children, List.Forall₂ (Tree.Derives e.automaton.grammar) rhs children ∧
      children.map (Tree.evaluate e.reducers e.argStyle) = (settleValues id rhs values r).1 ∧
      List.Forall₂ AgreeExceptError (trees.flatMap Tree.leaves) (children.flatMap Tree.leaves) := by
    induction h generalizing r with
    | nil => exact ⟨[], .nil, rfl, .nil⟩
    | @cons x rhs tree trees value values first rest ih =>
      rw [settleValues]
      by_cases error : x = .error
      · subst error
        obtain ⟨children, derived, valued, same⟩ := ih (r.settle id).2
        obtain ⟨old, rfl⟩ := Tree.errorLeaf wf first.derives
        refine ⟨.leaf .error (r.settle id).1 :: children, .cons (.leaf rfl) derived, ?_, ?_⟩
        · simp [Tree.evaluate, valued]
        · simp only [List.flatMap_cons, Tree.leaves, List.singleton_append]
          exact .cons ⟨rfl, fun ordinary => absurd rfl ordinary⟩ same
      · obtain ⟨children, derived, valued, same⟩ := ih r
        refine ⟨tree :: children, .cons first.derives derived, ?_, ?_⟩
        · simp [error, valued, first.valued error]
        · simp only [List.flatMap_cons]
          exact List.rel_append (List.forall₂_refl _) same
  unfold arguments
  split
  · exact settled
  · rename_i ordinary
    simp only [List.contains_iff_mem] at ordinary
    exact ⟨trees, h.derives, h.values ordinary, List.forall₂_refl _⟩

/-- The trees of a stack with the input they account for. -/
structure Backing (e : Engine V) (seen : List (Token V)) (s : Stack V) (word : List Symbol)
    (trees : List (Tree V)) (segments : List (List (Token V))) : Prop where
  grown : e.Grown s.frames word trees
  aligned : List.Forall₂ (Matches e.automaton) (trees.reverse.flatMap Tree.leaves) segments
  covered : segments.flatten = seen
  skipping : s.recovery.errorMode = true →
    ∃ before value, trees.reverse.flatMap Tree.leaves = before ++ [(.error, value)]
  caused : s.recovery.recovered ≠ [] → ∃ t ∈ trees, t.Erroneous
  settled : ∀ id children, .node id children ∈ trees → (Tree.node id children).Erroneous →
    s.recovery.recovered ≠ []

def Backed (e : Engine V) (seen : List (Token V)) (s : Stack V) : Prop :=
  ∃ word trees segments, e.Backing seen s word trees segments

theorem backedStart (e : Engine V) (id : Nat) : e.Backed [] (Stack.new id) :=
  ⟨[], [], [], .bottom, .nil, rfl, nofun, fun h => absurd rfl h, nofun⟩

def Warranted (e : Engine V) (content : List (Token V)) (x : Accepted V) : Prop :=
  ∃ tree : Tree V, tree.Explains e.automaton content ∧
    tree.evaluate e.reducers e.argStyle = x.value ∧ (x.errors = [] ↔ ¬ tree.Erroneous)

variable {seen : List (Token V)} {s : Stack V} {m : Moment V}

theorem Backed.congr {t : Stack V} (h : e.Backed seen s) (frames : t.frames = s.frames)
    (recovery : t.recovery = s.recovery) : e.Backed seen t := by
  obtain ⟨word, trees, segments, h⟩ := h
  refine ⟨word, trees, segments, frames ▸ h.grown, h.aligned, h.covered, ?_, ?_, ?_⟩
  · rw [recovery]
    exact h.skipping
  · rw [recovery]
    exact h.caused
  · rw [recovery]
    exact h.settled

theorem Backed.shift (trimmed : e.automaton.Trimmed)
    (known : e.automaton.terminal? m.token.kind = some m.terminal) (h : e.Backed seen s)
    {target : Nat} (listed : .shift target ∈ e.automaton.actions s.state m.terminal) :
    e.Backed (seen ++ [m.token]) (Round.shifted m s target) := by
  obtain ⟨word, trees, segments, h⟩ := h
  have terminal := Grammar.isTerminalOfMem (Automaton.terminalMember known)
  have leaf : e.Stands m.terminal (.leaf m.terminal (m.token.value.getD default))
      (m.token.value.getD default) := ⟨.leaf terminal, fun _ => by simp [Tree.evaluate]⟩
  refine ⟨_, _, segments ++ [[m.token]], h.grown.push (trimmed.shiftMoves listed) leaf, ?_, ?_,
    ?_, ?_, ?_⟩
  · simp only [List.reverse_cons, List.flatMap_append, List.flatMap_singleton, Tree.leaves]
    exact List.rel_append h.aligned (.cons (.inr ⟨_, rfl, known, rfl⟩) .nil)
  · simp [h.covered]
  · intro mode
    cases mode
  · intro recovered
    obtain ⟨t, inside, error⟩ := h.caused recovered
    exact ⟨t, List.mem_cons_of_mem _ inside, error⟩
  · intro id children inside error
    rcases List.mem_cons.1 inside with same | inside
    · cases same
    · exact h.settled id children inside error

theorem Backed.skip (h : e.Backed seen s) (mode : s.recovery.errorMode = true) (token : Token V) :
    e.Backed (seen ++ [token]) { s with recovery := s.recovery.skip token } := by
  obtain ⟨word, trees, segments, h⟩ := h
  obtain ⟨before, value, last⟩ := h.skipping mode
  have aligned := h.aligned
  rw [last] at aligned
  obtain ⟨front, back, first, rest, rfl⟩ := forallSplit aligned
  obtain ⟨segment, tail, _, nothing, rfl⟩ := List.forall₂_cons_left_iff.1 rest
  obtain rfl := List.forall₂_nil_left_iff.1 nothing
  have untouched := s.recovery.skipRecovered token
  refine ⟨word, trees, front ++ [segment ++ [token]], h.grown, ?_, ?_, fun _ => ⟨before, value, last⟩,
    ?_, ?_⟩
  · rw [last]
    exact List.rel_append first (.cons (.inl rfl) .nil)
  · have covered := h.covered
    simp only [List.flatten_append, List.flatten_singleton] at covered ⊢
    rw [← covered, List.append_assoc]
  · exact fun recovered => h.caused (untouched.not.1 recovered)
  · exact fun id children inside error => untouched.not.2 (h.settled id children inside error)

theorem Backed.recover (trimmed : e.automaton.Trimmed) {after : Stack V} (h : e.Backed seen s)
    (recovered : e.recover? m s = some after) : e.Backed seen after := by
  obtain ⟨word, trees, segments, h⟩ := h
  obtain ⟨count, target, covers, listed, rfl⟩ := recoverSource recovered
  have leaf : e.Stands .error (.leaf .error default) default := ⟨.leaf rfl, fun h => absurd rfl h⟩
  have aligned := h.aligned
  have parts : trees.reverse = (trees.drop count).reverse ++ (trees.take count).reverse := by
    rw [← List.reverse_append, List.take_append_drop]
  rw [parts, List.flatMap_append] at aligned
  obtain ⟨front, back, kept, gone, rfl⟩ := forallSplit aligned
  refine ⟨_, _, front ++ [back.flatten], (h.grown.drop covers).push (trimmed.shiftMoves listed) leaf,
    ?_, ?_, ?_, ?_, ?_⟩
  · simp only [List.reverse_cons, List.flatMap_append, List.flatMap_singleton, Tree.leaves]
    exact List.rel_append kept (.cons (.inl rfl) .nil)
  · have covered := h.covered
    simpa using covered
  · intro _
    exact ⟨(trees.drop count).reverse.flatMap Tree.leaves, default, by simp [Tree.leaves]⟩
  · intro _
    exact ⟨_, List.mem_cons_self, default, by simp [Tree.leaves]⟩
  · intro id children inside error
    rcases List.mem_cons.1 inside with same | inside
    · cases same
    · exact h.settled id children (List.mem_of_mem_drop inside) error

theorem Backed.reduce (trimmed : e.automaton.Trimmed) {after : Stack V} {id : Nat} {x : Symbol}
    (h : e.Backed seen s) (listed : .reduce id ∈ e.automaton.actions s.state x)
    (reduced : e.reduce s id = .ok after) : e.Backed seen after := by
  obtain ⟨word, trees, segments, h⟩ := h
  have wf := trimmed.wellFormed
  obtain ⟨p, reducer, target, found, made, _, goto, rfl⟩ := reduceSource reduced
  have move := trimmed.gotoFound goto
  obtain ⟨gone, kept, under, rfl, rfl, fits, rest⟩ := h.grown.handle trimmed listed found
  obtain ⟨children, derived, valued, same⟩ := fits.settles wf id s.recovery
  have recovered := fits.recovered id s.recovery
  have node : e.Stands p.lhs (.node id children) (reducer.apply e.argStyle
      (arguments id p.rhs (s.frames.topValues p.rhs.length []) s.recovery).1) :=
    ⟨.node found derived, fun _ => by rw [Tree.evaluate, made, ← valued]⟩
  have leaves : List.Forall₂ AgreeExceptError ((gone ++ kept).reverse.flatMap Tree.leaves)
      ((Tree.node id children :: kept).reverse.flatMap Tree.leaves) := by
    simp only [List.reverse_append, List.reverse_cons, List.flatMap_append, List.flatMap_singleton,
      Tree.leaves]
    exact List.rel_append (List.forall₂_refl _) same
  have erroneous : (Tree.node id children).Erroneous ↔ ∃ t ∈ gone, t.Erroneous := by
    simpa only [List.mem_reverse] using AgreeExceptError.erroneousIff same
  have errors := Tree.errorAmong wf fits.derives
  simp only [List.mem_reverse] at errors
  refine ⟨_, _, segments, rest.push move node, matchesAgree h.aligned leaves, h.covered, ?_, ?_, ?_⟩
  · intro mode
    rw [settleErrorMode] at mode
    obtain ⟨before, value, last⟩ := h.skipping mode
    rw [last] at leaves
    exact AgreeExceptError.errorLast leaves
  · intro later
    by_cases before : s.recovery.recovered = []
    · have used : .error ∈ p.rhs := by
        by_contra unused
        exact later (recovered.2 ⟨before, unused⟩)
      obtain ⟨value, inside⟩ := errors.1 used
      exact ⟨_, List.mem_cons_self, erroneous.2 ⟨_, inside, value, by simp [Tree.leaves]⟩⟩
    · obtain ⟨t, inside, error⟩ := h.caused before
      rcases List.mem_append.1 inside with inside | inside
      · exact ⟨_, List.mem_cons_self, erroneous.2 ⟨t, inside, error⟩⟩
      · exact ⟨t, List.mem_cons_of_mem _ inside, error⟩
  · intro id' children' inside error none
    obtain ⟨before, unused⟩ := recovered.1 none
    rcases List.mem_cons.1 inside with same | inside
    · rw [same] at error
      obtain ⟨t, inside, error⟩ := erroneous.1 error
      -- An error leaf under the new node is either its own or was under a node before.
      cases t with
      | leaf symbol value =>
        obtain ⟨_, here⟩ := error
        simp only [Tree.leaves, List.mem_singleton, Prod.mk.injEq] at here
        obtain ⟨rfl, _⟩ := here
        exact unused (errors.2 ⟨value, inside⟩)
      | node id children =>
        exact h.settled id children (List.mem_append_left _ inside) error before
    · exact h.settled id' children' (List.mem_append_right _ inside) error before

theorem backedPreserved (trimmed : e.automaton.Trimmed) {tokens rest : List (Token V)}
    (ordinary : ∀ t ∈ tokens.dropLast, t.isEnd = false) (placed : e.Placed tokens seen m rest) :
    Round.Preserves e m (e.Backed seen) (e.Backed (seen ++ [m.token]))
      (e.Warranted (remainingOf tokens)) (fun _ => True) where
  fork := fun _ _ h => h.congr rfl rfl
  shift := fun _ _ h listed => h.shift trimmed placed.known listed
  reduce := fun _ _ _ h listed reduced =>
    (h.congr (t := Stack.countReduction _) rfl rfl).reduce trimmed listed reduced
  fails := fun _ _ _ _ _ _ => trivial
  accept := by
    rintro s ⟨word, trees, segments, h⟩ listed
    obtain ⟨last, tree, rfl, _, derives, valued⟩ := h.grown.accepts trimmed listed
    refine ⟨tree, ⟨derives, segments, by simpa using h.aligned, ?_⟩, valued, ?_⟩
    · rw [h.covered]
      have known := placed.known
      rw [last] at known
      exact readAll placed.input ordinary (by simp [Token.isEnd, Automaton.terminalEnd known])
    · cases tree with
      | leaf symbol value =>
        obtain ⟨rfl, terminal⟩ := Tree.derivesLeaf.1 derives
        rw [trimmed.wellFormed.startNonterminal] at terminal
        contradiction
      | node id children =>
        constructor
        · exact fun none error => h.settled id children (List.mem_singleton.2 rfl) error none
        · intro clean
          by_contra some
          obtain ⟨t, inside, error⟩ := h.caused some
          exact clean (List.mem_singleton.1 inside ▸ error)
  goto := fun _ _ _ _ => trivial
  skip := fun _ h mode _ => h.skip mode m.token
  recover := fun _ _ h _ _ recovered => h.recover trimmed recovered

theorem acceptedWarranted (trimmed : e.automaton.Trimmed) {tokens : List (Token V)}
    (ordinary : ∀ t ∈ tokens.dropLast, t.isEnd = false) {accepted : List (Accepted V)}
    (h : (e.run tokens).result = .ok accepted) :
    accepted ≠ [] ∧ ∀ x ∈ accepted, e.Warranted (remainingOf tokens) x := by
  have ends := runEnds e tokens
  rw [h] at ends
  generalize answer : Except.ok accepted = result at ends
  cases ends with
  | unknown => cases answer
  | faulty => cases answer
  | @done _ _ _ r visited =>
    unfold exhausted at answer
    split at answer
    · cases answer
    · rename_i found
      cases answer
      rw [Queue.isEmptyIff] at found
      refine ⟨found, ?_⟩
      have kept := visited.keeps (backedStart e 0) (fun _ _ h => h.congr rfl rfl)
        (backedPreserved trimmed ordinary)
      exact kept.accepted

end Engine

namespace Parser
variable {V : Type} [SemanticValue V]

theorem acceptedBacked {g : Grammar} {config : TableConfig} (built : g.Built) (p : Parser V)
    (table : Automaton.build g config = .ok p.automaton) (tokens : List (Token V))
    (ordinary : ∀ t ∈ tokens.dropLast, t.isEnd = false) :
    (∀ mode traced accepted, ({ p.engine mode with traced }.run tokens).result = .ok accepted →
      ∀ x ∈ accepted, ∃ tree : Tree V, tree.Explains p.automaton (Engine.remainingOf tokens) ∧
        tree.evaluate p.reducers p.argStyle = x.value ∧ (x.errors = [] ↔ ¬ tree.Erroneous)) ∧
    (∀ accepted, ((p.engine .first).run tokens).result = .ok accepted →
      ∃ tree : Tree V, tree.Explains p.automaton (Engine.remainingOf tokens) ∧
        (¬ tree.Erroneous ∧ p.parse tokens = .ok (tree.evaluate p.reducers p.argStyle) ∨
          tree.Erroneous ∧ ∃ errors, errors ≠ [] ∧
            p.parse tokens = .error (.handled errors (tree.evaluate p.reducers p.argStyle)))) ∧
    ∀ reason, ((p.engine .first).run tokens).result = .error reason →
      p.parse tokens = .error (.rejected reason) := by
  have trimmed := Automaton.trimmedBuild built table
  refine ⟨?_, ?_, ?_⟩
  · intro mode traced accepted h
    exact (Engine.acceptedWarranted (e := { p.engine mode with traced }) trimmed ordinary h).2
  · intro accepted h
    obtain ⟨found, warranted⟩ := Engine.acceptedWarranted (e := p.engine .first) trimmed ordinary h
    obtain ⟨x, rest, rfl⟩ := List.exists_cons_of_ne_nil found
    obtain ⟨tree, explains, valued, errors⟩ := warranted x List.mem_cons_self
    refine ⟨tree, explains, ?_⟩
    have answer : p.parse tokens = firstMatch (x :: rest) := by rw [parse, conclude, h]
    rw [answer, firstMatch, show tree.evaluate p.reducers p.argStyle = x.value from valued]
    by_cases clean : x.errors = []
    · exact .inl ⟨errors.1 clean, by simp [clean]⟩
    · exact .inr ⟨not_not.1 (errors.not.1 clean), x.errors, clean, by simp [clean]⟩
  · intro reason h
    rw [parse, conclude, h]

def brokenSum : List (Token Value) :=
  [{ kind := "N" }, { kind := "PLUS" }, { kind := "PLUS" }, { kind := "N" }]

theorem brokenSumBacked :
    ∃ p errors, ∃ tree : Tree Value, ParserDraft.sums.finalize {} = .ok p ∧
      tree.Explains p.automaton brokenSum ∧ tree.Erroneous ∧
      p.parse brokenSum = .error (.handled errors (tree.evaluate p.reducers p.argStyle)) := by
  obtain ⟨p, finished⟩ := ParserDraft.sumsFinalized
  have handled : ((ParserDraft.sums.finalize {}).toOption.any fun p =>
      match p.parse brokenSum with
      | .error (.handled _ _) => true
      | _ => false) = true := by decide +kernel
  simp only [finished, Except.toOption, Option.any_some] at handled
  obtain ⟨g, a, built, table, rfl⟩ := ParserDraft.finalizeSource finished
  obtain ⟨_, settled, refused⟩ := acceptedBacked ⟨_, built⟩ (ParserDraft.sums.toParser g a) table brokenSum
    (by decide)
  cases result : (((ParserDraft.sums.toParser g a).engine .first).run brokenSum).result with
  | error reason => simp [refused reason result] at handled
  | ok accepted =>
    obtain ⟨tree, explains, ⟨_, answer⟩ | ⟨error, errors, _, answer⟩⟩ := settled accepted result
    · simp [answer] at handled
    · exact ⟨_, errors, tree, finished, explains, error, answer⟩

end Parser
end ForkingLR
