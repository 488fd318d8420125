import ForkingLR.Proofs.Engine.Determinism
import ForkingLR.Proofs.Table.Operators

/-! Expressions and their trees. Of all trees of an expression there is one in which operators are grouped
by their levels. The table reads the expression as that tree, and there is nothing else that it does. -/
namespace ForkingLR

namespace Tree
variable {V : Type}

def operator? : Tree V → Option Symbol
  | .node _ [_, .leaf x _, _] => some x
  | _ => none

def Fits (ranks : Symbol → Precedence → Prop) (side : Associativity) (x : Symbol) (t : Tree V) : Prop :=
  ∀ {y p q}, t.operator? = some y → ranks x p → ranks y q → p.Under side q

/-- Every operation is on a higher level than the one above it, or on the same level and on the side to
which the level groups. -/
inductive Ordered (ranks : Symbol → Precedence → Prop) : Tree V → Prop
  | operand (id : Nat) (x : Symbol) (value : V) : Ordered ranks (.node id [.leaf x value])
  | operation (id : Nat) {x : Symbol} (value : V) {left right : Tree V} (before : left.Ordered ranks)
      (after : right.Ordered ranks) (fits : left.Fits ranks .left x) (fits' : right.Fits ranks .right x) :
      Ordered ranks (.node id [left, .leaf x value, right])

theorem leavesOperand (id : Nat) (x : Symbol) (value : V) : (node id [leaf x value]).leaves = [(x, value)] := by
  simp [leaves]

theorem leavesOperation (id : Nat) (x : Symbol) (value : V) (left right : Tree V) :
    (node id [left, leaf x value, right]).leaves = left.leaves ++ (x, value) :: right.leaves := by
  simp [leaves]

end Tree

namespace Grammar.Operators
open Table
variable {V : Type} {g : Grammar} {e n : Symbol} (ops : g.Operators e n)
include ops

theorem lhsProper : e ≠ .augmentedStart := by
  rintro rfl
  exact ops.wellFormed.startUnused (List.mem_of_getElem? ops.wellFormed.startProduction)
    (List.mem_singleton.2 ops.start.symm)

theorem notStart {id : Nat} {rhs : List Symbol} (found : g.productions[id]? = some ⟨e, rhs⟩) :
    id ≠ g.startProduction := by
  rintro rfl
  cases ops.wellFormed.startProduction.symm.trans found
  exact ops.lhsProper rfl

theorem derivesOperand {id : Nat} {x : Symbol} {value : V} :
    (Tree.node id [.leaf x value]).Derives g e ↔ x = n ∧ g.productions[id]? = some ⟨e, [n]⟩ := by
  rw [Tree.derivesNode]
  constructor
  · rintro ⟨p, found, lhs, derived⟩
    cases ops.shapes p (List.mem_of_getElem? found) with
    | start => exact absurd lhs ops.lhsProper
    | operand =>
      cases derived with
      | cons one _ => exact ⟨(Tree.derivesLeaf.1 one).1.symm, found⟩
    | operation _ => simp only [List.forall₂_cons, List.forall₂_nil_right_iff, reduceCtorEq, and_false] at derived
  · rintro ⟨rfl, found⟩
    exact ⟨_, found, rfl, .cons (.leaf ops.terminal) .nil⟩

theorem derivesOperation {id : Nat} {x : Symbol} {value : V} {left right : Tree V} :
    (Tree.node id [left, .leaf x value, right]).Derives g e ↔
      (∃ p, g.Ranks x p) ∧ g.productions[id]? = some ⟨e, [e, x, e]⟩ ∧ left.Derives g e ∧ right.Derives g e := by
  rw [Tree.derivesNode]
  constructor
  · rintro ⟨p, found, lhs, derived⟩
    cases ops.shapes p (List.mem_of_getElem? found) with
    | start => exact absurd lhs ops.lhsProper
    | operand => simp only [List.forall₂_cons, List.forall₂_nil_left_iff, reduceCtorEq, and_false] at derived
    | operation ranks =>
      simp only [List.forall₂_cons, Tree.derivesLeaf] at derived
      obtain ⟨before, ⟨rfl, _⟩, after, _⟩ := derived
      exact ⟨⟨_, ranks⟩, found, before, after⟩
  · rintro ⟨⟨p, ranks⟩, found, before, after⟩
    exact ⟨_, found, rfl, .cons before (.cons (.leaf (ops.terminals ranks)) (.cons after .nil))⟩

theorem fitsThrough {t child : Tree V} {side side' : Associativity} {x y : Symbol} {p : Precedence}
    (fits : t.Fits g.Ranks side y) (root : t.operator? = some x) (ranks : g.Ranks x p)
    (below : child.Fits g.Ranks side' x) (different : side ≠ side') : child.Fits g.Ranks side y := by
  intro z q r operator ranks' ranks''
  exact (fits root ranks' ranks).trans (below operator ranks ranks'') (ops.agrees ranks' ranks) different

end Grammar.Operators

def Grammar.Closes (g : Grammar) (z : Symbol) : Prop := z = .endOfInput ∨ ∃ p, g.Ranks z p

theorem Grammar.Operators.known {g : Grammar} {e n z : Symbol} (ops : g.Operators e n) (closes : g.Closes z) :
    z ∈ g.terminals ∧ z ≠ .error := by
  rcases closes with rfl | ⟨p, ranks⟩
  · exact ⟨memTerminals.2 (.inl rfl), nofun⟩
  · exact ⟨memTerminals.2 (.inr ⟨ops.terminals ranks, _, ops.operation ranks, by simp⟩), (ops.reserved ranks).2⟩

theorem Grammar.Operators.operandListed {g : Grammar} {e n : Symbol} (ops : g.Operators e n) : n ∈ g.terminals :=
  memTerminals.2 (.inr ⟨ops.terminal, _, ops.operand, List.mem_singleton.2 rfl⟩)

namespace Automaton
open Table Reading
variable {V : Type} {a : Automaton} {e n : Symbol}

theorem terminalIff {name : String} {x : Symbol} :
    a.terminal? name = some x ↔ a.grammar.symbols.Stands x name ∧ x ∈ a.grammar.terminals := by
  simp [terminal?, Option.filter_eq_some_iff, SymbolTable.Stands]

def Awaits (a : Automaton) (e : Symbol) (frames : Frames (Tree V)) : Prop :=
  ∀ {id rhs z}, a.grammar.productions[id]? = some ⟨e, rhs⟩ → a.grammar.Closes z → a.Admits frames ⟨id, 0⟩ z

/-- Where expressions can begin and neither an operator before nor one after it may take a part of it, the
tree is read from its leaves. -/
def Groups (a : Automaton) (e : Symbol) (t : Tree V) : Prop :=
  ∀ {frames : Frames (Tree V)} {rest : List (Symbol × V)}, t.Derives a.grammar e → a.Awaits e frames →
    (∀ {id y}, Holds a.grammar.lr0States frames.state ⟨id, 2⟩ →
      a.grammar.productions[id]? = some ⟨e, [e, y, e]⟩ → t.Fits a.grammar.Ranks .right y) →
    a.grammar.Closes (ahead rest) → t.Fits a.grammar.Ranks .left (ahead rest) →
    ∃ target, a.Reads ⟨frames, t.leaves ++ rest⟩ ⟨.push target t frames, rest⟩ ∧
      Moves a.states frames.state e target

section
variable (ops : a.grammar.Operators e n)
include ops

theorem awaitsStart : a.Awaits (V := V) e .bottom := by
  have first {id : Nat} {rhs : List Symbol} (found : a.grammar.productions[id]? = some ⟨e, rhs⟩) :
      a.Admits (W := Tree V) .bottom ⟨id, 0⟩ .endOfInput :=
    a.admitsStart.predict ops.wellFormed.startProduction (congrArg some ops.start) found ⟨rfl, [], .refl⟩
  intro id rhs z found closes
  rcases closes with rfl | ⟨p, ranks⟩
  · exact first found
  · obtain ⟨outer, around⟩ := List.mem_iff_getElem?.1 (ops.operation ranks)
    exact (first around).predict around rfl found ⟨ops.terminals ranks, _, .refl⟩

theorem awaitsRight {frames : Frames (Tree V)} {id : Nat} {x : Symbol}
    (found : a.grammar.productions[id]? = some ⟨e, [e, x, e]⟩)
    (admits : ∀ {z}, a.grammar.Closes z → a.Admits frames ⟨id, 2⟩ z) : a.Awaits e frames := by
  intro id' rhs z found' closes
  have terminal := Grammar.isTerminalOfMem (ops.known closes).1
  exact (admits closes).predict found rfl found' ⟨terminal, [], .refl⟩

variable (trimmed : a.Trimmed) (table : build a.grammar {} = .ok a)
include trimmed table

theorem readsReduce {id : Nat} {rhs : List Symbol} {frames grown : Frames (Tree V)}
    {children : List (Tree V)} {rest : List (Symbol × V)} (found : a.grammar.productions[id]? = some ⟨e, rhs⟩)
    (closes : a.grammar.Closes (ahead rest)) (awaits : a.Awaits e frames)
    (complete : a.Admits grown ⟨id, rhs.length⟩ (ahead rest)) (base : grown.drop rhs.length = frames)
    (values : grown.topValues rhs.length [] = children)
    (first : ∀ {y p q}, a.grammar.productions[id]? = some ⟨e, [e, y, e]⟩ → a.grammar.Ranks (ahead rest) p →
      a.grammar.Ranks y q → p.Under .left q) :
    ∃ target, a.Step ⟨grown, rest⟩ ⟨.push target (.node id children) frames, rest⟩ ∧
      Moves a.states frames.state e target := by
  have other := ops.notStart found
  obtain ⟨known, ordinary⟩ := ops.known closes
  have listed := reduceStays ops table (complete.allows trimmed {} found known ordinary other) first
  obtain ⟨target, goto⟩ := trimmed.gotoExists found other (trimmed.holds.2 ((awaits found closes).holds trimmed))
  have step := Step.reduce listed found (base.symm ▸ goto)
  rw [base, values] at step
  exact ⟨target, step, trimmed.gotoFound goto⟩

theorem operandGroups (id : Nat) (x : Symbol) (value : V) : a.Groups e (.node id [.leaf x value]) := by
  intro frames rest derives awaits _ closes _
  obtain ⟨rfl, found⟩ := ops.derivesOperand.1 derives
  have admits := awaits found closes
  have next : Item.next? a.grammar.productions ⟨id, 0⟩ = some x := Item.nextIff.2 ⟨_, found, rfl⟩
  obtain ⟨target, move⟩ := Grammar.movesOfNext ops.wellFormed (admits.holds trimmed) next
  have listed : .shift target ∈ a.actions frames.state x :=
    shiftStays ops table ops.terminal move fun _ _ ranks => absurd ranks (ops.unranked _)
  have complete := admits.push next (trimmed.moves.2 move) (.leaf x value)
  obtain ⟨target', reduce, goto⟩ := readsReduce ops trimmed table found closes awaits complete rfl rfl
    fun found' => by cases found.symm.trans found'
  rw [Tree.leavesOperand]
  exact ⟨target', (Relation.ReflTransGen.single (.shift listed)).tail reduce, goto⟩

theorem operationGroups (id : Nat) {x : Symbol} (value : V) {left right : Tree V} (before : a.Groups e left)
    (after : a.Groups e right) (fits : left.Fits a.grammar.Ranks .left x)
    (fits' : right.Fits a.grammar.Ranks .right x) : a.Groups e (.node id [left, .leaf x value, right]) := by
  intro frames rest derives awaits held closes ends
  obtain ⟨⟨p, ranks⟩, found, derives, derives'⟩ := ops.derivesOperation.1 derives
  rw [Tree.leavesOperation, List.append_assoc, List.cons_append]
  -- The left side: what may not be taken from the whole may not be taken from it.
  have operator : a.grammar.Closes (ahead ((x, value) :: (right.leaves ++ rest))) := .inr ⟨p, ranks⟩
  obtain ⟨s₁, read₁, move₁⟩ := before derives awaits
    (fun inside found' => ops.fitsThrough (held inside found') rfl ranks fits nofun) operator fits
  have begun {z} (closes : a.grammar.Closes z) :=
    (awaits found closes).push (Item.nextIff.2 ⟨_, found, rfl⟩) move₁ left
  -- The operator: no operation that ends before it binds tighter.
  have next : Item.next? a.grammar.productions ⟨id, 1⟩ = some x := Item.nextIff.2 ⟨_, found, rfl⟩
  obtain ⟨s₂, move₂⟩ := Grammar.movesOfNext ops.wellFormed ((begun closes).holds trimmed) next
  have listed : .shift s₂ ∈ a.actions s₁ x := by
    refine shiftStays ops table (ops.terminals ranks) move₂ ?_
    intro id' y p' q inside found' ranks' ranks''
    obtain ⟨inside, _⟩ := Grammar.holdsBack ops.wellFormed (trimmed.moves.1 move₁) inside
    exact (Precedence.underRightIff (ops.agrees ranks'' ranks') (ops.decided ranks'')).1
      (held inside found' rfl ranks'' ranks')
  have halfway {z} (closes : a.grammar.Closes z) :=
    (begun closes).push next (trimmed.moves.2 move₂) (.leaf x value)
  -- The right side: the one operator that waits for it is this one.
  have awaits' : a.Awaits e (.push s₂ (.leaf x value) (.push s₁ left frames)) := awaitsRight ops found halfway
  have held' {id' y} (inside : Holds a.grammar.lr0States s₂ ⟨id', 2⟩)
      (found' : a.grammar.productions[id']? = some ⟨e, [e, y, e]⟩) : right.Fits a.grammar.Ranks .right y := by
    obtain rfl := ops.sameOperator found found' ((halfway closes).holds trimmed) inside
    exact fits'
  obtain ⟨s₃, read₂, move₃⟩ := after derives' awaits' held' closes (ops.fitsThrough ends rfl ranks fits' nofun)
  have complete := (halfway closes).push (Item.nextIff.2 ⟨_, found, rfl⟩) move₃ right
  have first {y p' q} (found' : a.grammar.productions[id]? = some ⟨e, [e, y, e]⟩)
      (ranks' : a.grammar.Ranks (ahead rest) p') (ranks'' : a.grammar.Ranks y q) : p'.Under .left q := by
    cases found.symm.trans found'
    exact ends rfl ranks' ranks''
  obtain ⟨target, reduce, goto⟩ := readsReduce ops trimmed table found closes awaits complete rfl rfl first
  exact ⟨target, ((read₁.tail (.shift listed)).trans read₂).tail reduce, goto⟩

theorem orderedGroups {t : Tree V} (ordered : t.Ordered a.grammar.Ranks) : a.Groups e t := by
  induction ordered with
  | operand id x value => exact operandGroups ops trimmed table id x value
  | operation id value _ _ fits fits' ih ih' => exact operationGroups ops trimmed table id value ih ih' fits fits'

theorem orderedReads {t : Tree V} (ordered : t.Ordered a.grammar.Ranks)
    (derives : t.Derives a.grammar e) (rest : List (Symbol × V)) (last : ahead rest = .endOfInput) :
    ∃ target, a.Reads ⟨.bottom, t.leaves ++ rest⟩ ⟨.push target t .bottom, rest⟩ ∧
      .accept ∈ a.actions target .endOfInput := by
  have wf := ops.wellFormed
  obtain ⟨target, read, move⟩ := orderedGroups ops trimmed table ordered derives (awaitsStart ops)
    (fun inside _ => by cases Grammar.startStateFresh wf inside) (.inl last)
    (fun _ ranks _ => by
      rw [last] at ranks
      exact absurd rfl (ops.reserved ranks).1)
  have next : Item.next? a.grammar.productions ⟨a.grammar.startProduction, 0⟩ = some e :=
    Item.nextIff.2 ⟨_, wf.startProduction, congrArg some ops.start⟩
  have complete := a.admitsStart.push next move t
  exact ⟨target, read, acceptStays ops table (complete.holds trimmed)⟩

end

theorem deterministicBuild {g : Grammar} (built : g.Built) (ops : g.Operators e n) (table : build g {} = .ok a) :
    a.Deterministic := by
  intro s x
  cases terminal : isTerminal x with
  | true =>
    cases settlesBuild ops table s terminal with
    | plain short _ => exact short
    | chosen _ _ _ best => simp [best]
  | false =>
    by_cases none : a.actions s x = []
    · simp [none]
    · obtain ⟨t, row⟩ := (trimmedBuild built table).soleGoto terminal (nodupBuild built table s x) none
      simp [row]

end Automaton

structure Grammar.Grafted {V : Type} (g : Grammar) (e n x : Symbol) (value value' : V) (t t' : Tree V) : Prop where
  ordered : t'.Ordered g.Ranks
  derives : t'.Derives g e
  leaves : t'.leaves = t.leaves ++ [(x, value), (n, value')]
  root : t'.operator? = some x ∨ t'.operator? = t.operator?

namespace Grammar.Operators
variable {V : Type} {g : Grammar} {e n x : Symbol} {p : Precedence} {t : Tree V} (ops : g.Operators e n)
include ops

theorem graftAtop (ranks : g.Ranks x p) (value value' : V) (ordered : t.Ordered g.Ranks)
    (derives : t.Derives g e) (fits : t.Fits g.Ranks .left x) : ∃ t', g.Grafted e n x value value' t t' := by
  obtain ⟨operand, found⟩ := List.mem_iff_getElem?.1 ops.operand
  obtain ⟨operation, found'⟩ := List.mem_iff_getElem?.1 (ops.operation ranks)
  refine ⟨.node operation [t, .leaf x value, .node operand [.leaf n value']], ?_, ?_, ?_, .inl rfl⟩
  · exact .operation operation value ordered (.operand operand n value') fits nofun
  · exact ops.derivesOperation.2 ⟨⟨p, ranks⟩, found', derives, ops.derivesOperand.2 ⟨rfl, found⟩⟩
  · rw [Tree.leavesOperation, Tree.leavesOperand]

theorem graft (ranks : g.Ranks x p) (value value' : V) (ordered : t.Ordered g.Ranks) :
    t.Derives g e → ∃ t', g.Grafted e n x value value' t t' := by
  -- The operator is put on top of the tree, or of as much of its right edge as binds tighter.
  induction ordered with
  | operand id y value'' =>
    intro derives
    exact ops.graftAtop ranks value value' (.operand id y value'') derives nofun
  | @operation id y value'' left right before after fits fits' _ ih =>
    intro derives
    obtain ⟨⟨q, ranks'⟩, found, derives₁, derives₂⟩ := ops.derivesOperation.1 derives
    by_cases under : p.Under .left q
    · refine ops.graftAtop ranks value value' (.operation id value'' before after fits fits') derives ?_
      intro z p' q' same ranks₁ ranks₂
      cases same
      cases ranks.symm.trans ranks₁
      cases ranks'.symm.trans ranks₂
      exact under
    · obtain ⟨right', ordered', derives', leaves, root⟩ := ih derives₂
      have fits'' : right'.Fits g.Ranks .right y := by
        intro z q' p' operator ranks₁ ranks₂
        rcases root with top | same
        · cases top.symm.trans operator
          cases ranks'.symm.trans ranks₁
          cases ranks.symm.trans ranks₂
          exact (Precedence.underRightIff (ops.agrees ranks' ranks) (ops.decided ranks')).2 under
        · exact fits' (same ▸ operator) ranks₁ ranks₂
      refine ⟨.node id [left, .leaf y value'', right'], .operation id value'' before ordered' fits fits'', ?_, ?_,
        .inr rfl⟩
      · exact ops.derivesOperation.2 ⟨⟨q, ranks'⟩, found, derives₁, derives'⟩
      · rw [Tree.leavesOperation, Tree.leavesOperation, leaves, List.append_assoc, List.cons_append]

theorem cycleFree : g.CycleFree := by
  refine cycleFreeOfWeight (fun x =>
    if x = .augmentedStart then 2 else if x = e then 1 else if x = n then 0 else -2) ?_
  intro p listed
  have lhs := ops.lhsProper
  have apart := ops.apart
  cases ops.shapes p listed with
  | start => simp [lhs]
  | operand =>
    have operand : n ≠ .augmentedStart := by
      rintro rfl
      cases ops.terminal
    simp [lhs, operand, apart.symm]
  | @operation x p ranks =>
    have terminal := ops.terminals ranks
    have proper : x ≠ .augmentedStart := by
      rintro rfl
      cases terminal
    have other : x ≠ e := by
      rintro rfl
      exact ops.unrankedLhs p ranks
    have other' : x ≠ n := by
      rintro rfl
      exact ops.unranked p ranks
    simp [lhs, proper, other, other']

theorem nonempty : ∀ p ∈ g.productions, p.rhs ≠ [] := by
  intro p listed
  cases ops.shapes p listed with
  | start => exact List.cons_ne_nil _ _
  | operand => exact List.cons_ne_nil _ _
  | operation _ => exact List.cons_ne_nil _ _

end Grammar.Operators

namespace Automaton
variable {V : Type} {a : Automaton} {e n : Symbol} {t : Tree V} (ops : a.grammar.Operators e n)
include ops

section
variable [Inhabited V] (operand : a.terminal? "NUM" = some n) {names : List String}
  (known : ∀ name ∈ names, ∃ x p, a.terminal? name = some x ∧ a.grammar.Ranks x p)
include operand known

theorem orderedExtends (ordered : t.Ordered a.grammar.Ranks) (derives : t.Derives a.grammar e)
    {tokens : List (Token V)} (kinds : tokens.map Token.kind = names.flatMap fun name => [name, "NUM"]) :
    ∃ (t' : Tree V) (word : List (Symbol × V)), t'.Ordered a.grammar.Ranks ∧ t'.Derives a.grammar e ∧
      t'.leaves = t.leaves ++ word ∧ List.Forall₂ (MatchesToken a) word tokens := by
  induction names generalizing t tokens with
  | nil =>
    obtain rfl : tokens = [] := List.map_eq_nil_iff.1 kinds
    exact ⟨t, [], ordered, derives, (List.append_nil _).symm, .nil⟩
  | cons name names ih =>
    obtain ⟨⟨x, p, found, ranks⟩, later⟩ := List.forall_mem_cons.1 known
    match tokens with
    | [] => cases kinds
    | [_] => cases kinds
    | operator :: number :: tokens =>
      simp only [List.map_cons, List.flatMap_cons, List.cons_append, List.nil_append, List.cons.injEq] at kinds
      obtain ⟨rfl, kind, kinds⟩ := kinds
      obtain ⟨t', ordered, derives, leaves, _⟩ := ops.graft ranks (operator.value.getD default)
        (number.value.getD default) ordered derives
      obtain ⟨t'', word, ordered, derives, leaves', matched⟩ := ih later ordered derives kinds
      rw [leaves, List.append_assoc] at leaves'
      exact ⟨t'', _, ordered, derives, leaves', .cons ⟨found, rfl⟩ (.cons ⟨kind ▸ operand, rfl⟩ matched)⟩

theorem orderedExists {tokens : List (Token V)}
    (kinds : tokens.map Token.kind = Levels.expression names) :
    ∃ t : Tree V, t.Parses a tokens ∧ t.Ordered a.grammar.Ranks := by
  obtain ⟨id, found⟩ := List.mem_iff_getElem?.1 ops.operand
  match tokens with
  | [] => cases kinds
  | number :: tokens =>
    obtain ⟨kind, kinds⟩ := List.cons.inj kinds
    obtain ⟨t, word, ordered, derives, leaves, matched⟩ := orderedExtends ops operand known
      (.operand id n (number.value.getD default)) (ops.derivesOperand.2 ⟨rfl, found⟩) kinds
    refine ⟨t, ⟨ops.start ▸ derives, ?_⟩, ordered⟩
    rw [leaves, Tree.leavesOperand]
    exact .cons ⟨kind ▸ operand, rfl⟩ matched

end

omit ops in
theorem matchesUnique [Inhabited V] : Relator.LeftUnique (MatchesToken (V := V) a) := by
  rintro leaf leaf' token ⟨found, value⟩ ⟨found', value'⟩
  exact Prod.ext (Option.some.inj (found.symm.trans found')) (value.trans value'.symm)

theorem orderedUnique [Inhabited V] (built : a.grammar.Built) (table : build a.grammar {} = .ok a) {t' : Tree V}
    {tokens : List (Token V)} (parses : t.Parses a tokens) (parses' : t'.Parses a tokens)
    (ordered : t.Ordered a.grammar.Ranks) (ordered' : t'.Ordered a.grammar.Ranks) : t = t' := by
  have accepts {t : Tree V} (parses : t.Parses a tokens) (ordered : t.Ordered a.grammar.Ranks) :
      a.Accepts t.leaves t := by
    have derives := parses.derives
    rw [ops.start] at derives
    have read := orderedReads ops (trimmedBuild built table) table ordered derives [] rfl
    rwa [List.append_nil] at read
  have leaves := List.left_unique_forall₂' matchesUnique parses'.matched parses.matched
  exact (deterministicBuild built ops table).accepts (accepts parses ordered) (leaves ▸ accepts parses' ordered')

end Automaton

namespace Engine
variable {V : Type} [SemanticValue V] {e : Engine V} {x n : Symbol} {t : Tree V} {tokens : List (Token V)}
  (ops : e.automaton.grammar.Operators x n) (built : e.automaton.grammar.Built)
  (table : Automaton.build e.automaton.grammar {} = .ok e.automaton)
  (made : e.reducers.length = e.automaton.grammar.size)
include ops built table made

theorem orderedCompletes {content : List (Token V)} {last : Token V} (ends : last.isEnd = true)
    (parses : t.Parses e.automaton content) (ordered : t.Ordered e.automaton.grammar.Ranks) :
    e.Completes (content ++ [last]) t.history t (t.evaluate e.reducers e.argStyle) := by
  have known := e.automaton.terminalOfEnd ends
  have derives := parses.derives
  rw [ops.start] at derives
  obtain ⟨target, read, accepts⟩ := Automaton.orderedReads ops (Automaton.trimmedBuild built table) table ordered
    derives [(.endOfInput, last.value.getD default)] rfl
  have path : e.Path (content ++ [last]) (t.history ++ [])
      (.push target (t.evaluate e.reducers e.argStyle) .bottom) [t] [last] :=
    Path.grows made .start parses.matched known read
  rw [List.append_nil] at path
  exact ⟨_, last, [], _, path, known, accepts, rfl⟩

theorem orderedRuns (ordinary : ∀ token ∈ tokens, token.kind ≠ "ERROR")
    (parses : t.Parses e.automaton (remainingOf tokens)) (ordered : t.Ordered e.automaton.grammar.Ranks) :
    (e.run tokens).result = .ok [⟨t.evaluate e.reducers e.argStyle, []⟩] := by
  have trimmed := Automaton.trimmedBuild built table
  have single := Automaton.deterministicBuild built ops table
  have fitted : e.Fitted (closeInput tokens) := by
    refine ⟨trimmed, ?_, made, ?_⟩
    · intro s y _
      have short := single s y
      exact List.nodup_iff_count_le_one.2 fun turn =>
        List.count_le_length.trans ((List.length_map _).trans_le short)
    · intro token inside error
      rcases closeInputMem inside with given | marker
      · exact ordinary token given (Automaton.terminalError error)
      · cases (Automaton.terminalOfEnd _ marker).symm.trans error
  obtain ⟨last, ends, input⟩ := closeInputEnd tokens
  have complete := orderedCompletes ops built table made ends parses ordered
  rw [← input] at complete
  exact runSole fitted ⟨trimmed, ops.cycleFree, ops.nonempty⟩ single (fun _ => parsedKnown parses) complete

end Engine

theorem Value.ofText {v : Value} {text : String} (h : v.str? = some text) : v = .str text := by
  cases v with
  | str s => exact congrArg Value.str (Option.some.inj h)
  | _ => cases h

namespace Parser
variable {V : Type} [SemanticValue V]

theorem operatorsParsed {levels : Levels} {rules : List (Production String)} {calls : List DraftCall}
    (proper : levels.Proper) (declared : Levels.Declared levels rules calls) (same : rules.Perm levels.rules) :
    ∃ d g a, Draft.run calls .empty = .ok () d ∧ d.build = .ok g ∧ Automaton.build g {} = .ok a ∧
      a.conflicts = [] ∧
      ∀ (names : List String) (tokens : List (Token V)), (∀ name ∈ names, name ∈ levels.names) →
        tokens.map Token.kind = Levels.expression names →
        ∃ t : Tree V, (∀ t' : Tree V, t'.Parses a tokens ∧ t'.Ordered (levels.Ranks g.symbols) ↔ t' = t) ∧
          ∀ p : Parser V, p.automaton = a → p.reducers.length = g.size →
            p.parse tokens = .ok (t.evaluate p.reducers p.argStyle) ∧
            p.parseAll tokens = .ok [t.evaluate p.reducers p.argStyle] := by
  obtain ⟨d, g, e, n, ran, finished, built, spells⟩ := Grammar.declaredFinishes proper declared same
  have ops := spells.operators built proper
  obtain ⟨a, table⟩ : ∃ a, Automaton.build g {} = .ok a := Automaton.buildOk ops.wellFormed (.inr ops.associative)
  obtain rfl : a.grammar = g := (Automaton.buildSource table).1
  have single := Automaton.deterministicBuild built ops table
  refine ⟨d, a.grammar, a, ran, finished, table, Automaton.conflictsEmptyIff.2 single, ?_⟩
  intro names tokens listed kinds
  rw [← spells.ranks]
  have operand : a.terminal? "NUM" = some n := Automaton.terminalIff.2 ⟨spells.operand, ops.operandListed⟩
  have known : ∀ name ∈ names, ∃ x p, a.terminal? name = some x ∧ a.grammar.Ranks x p := by
    intro name inside
    obtain ⟨x, p, stands, ranks⟩ := spells.ranked (listed name inside)
    exact ⟨x, p, Automaton.terminalIff.2 ⟨stands, (ops.known (.inr ⟨p, ranks⟩)).1⟩, ranks⟩
  have ordinary : ∀ token ∈ tokens, token.kind ≠ "EOS" ∧ token.kind ≠ "ERROR" := fun token inside =>
    proper.unreserved listed (kinds ▸ List.mem_map_of_mem inside)
  obtain ⟨t, parses, ordered⟩ := Automaton.orderedExists ops operand known kinds
  refine ⟨t, ?_, ?_⟩
  · intro t'
    constructor
    · rintro ⟨parses', ordered'⟩
      exact Automaton.orderedUnique ops built table parses' parses ordered' ordered
    · rintro rfl
      exact ⟨parses, ordered⟩
  · rintro p rfl made
    have content : Engine.remainingOf tokens = tokens :=
      Engine.remainingWhole fun token inside => by simp [Token.isEnd, (ordinary token inside).1]
    have runs (mode : AcceptMode) := Engine.orderedRuns (e := p.engine mode) ops built table made
      (fun token inside => (ordinary token inside).2) (content.symm ▸ parses) ordered
    constructor
    · rw [parse, conclude, runs]
      rfl
    · rw [parseAll, conclude, runs]
      rfl

def powers : Levels := [(.left, ["PLUS", "MINUS"]), (.left, ["TIMES"]), (.right, ["POW"])]

def powerRules : List (Production String) :=
  [⟨"e", ["e", "POW", "e"]⟩, ⟨"e", ["NUM"]⟩, ⟨"e", ["e", "PLUS", "e"]⟩, ⟨"e", ["e", "TIMES", "e"]⟩,
    ⟨"e", ["e", "MINUS", "e"]⟩]

def powerCalls : List DraftCall :=
  [.declare "e" ["e", "POW", "e"], .declarePrecedence .left ["PLUS", "MINUS"], .declare "e" ["NUM"],
    .declare "e" ["e", "PLUS", "e"], .declarePrecedence .left ["TIMES"], .declare "e" ["e", "TIMES", "e"],
    .declarePrecedence .right ["POW"], .declare "e" ["e", "MINUS", "e"]]

def bracketed : List Value → Value
  | [.str number] => .str number
  | [.str left, .str operator, .str right] => .str ("(" ++ left ++ operator ++ right ++ ")")
  | _ => .nil

def powerTokens : List (Token Value) :=
  [⟨"NUM", some (.str "1"), none⟩, ⟨"MINUS", some (.str "-"), none⟩, ⟨"NUM", some (.str "2"), none⟩,
    ⟨"PLUS", some (.str "+"), none⟩, ⟨"NUM", some (.str "3"), none⟩, ⟨"TIMES", some (.str "*"), none⟩,
    ⟨"NUM", some (.str "4"), none⟩, ⟨"POW", some (.str "^"), none⟩, ⟨"NUM", some (.str "5"), none⟩,
    ⟨"POW", some (.str "^"), none⟩, ⟨"NUM", some (.str "6"), none⟩]

def powerParser (a : Automaton) : Parser Value :=
  ⟨a, List.replicate a.grammar.size (.action bracketed none), .splat, {}⟩

theorem powersParsed :
    ∃ d g a, Draft.run powerCalls .empty = .ok () d ∧ d.build = .ok g ∧ Automaton.build g {} = .ok a ∧
      a.conflicts = [] ∧ (∃ t : Tree Value, ∀ t' : Tree Value,
        t'.Parses a powerTokens ∧ t'.Ordered (powers.Ranks g.symbols) ↔ t' = t) ∧
      (powerParser a).parse powerTokens = .ok (.str "((1-2)+(3*(4^(5^6))))") ∧
      (powerParser a).parseAll powerTokens = .ok [.str "((1-2)+(3*(4^(5^6))))"] := by
  have proper : powers.Proper := by
    have ordinary : ∀ name ∈ powers.names, name ≠ "$start" := by decide
    have spelled : ∀ name ∈ powers.names, SymbolKind.ofName? name = some .terminal := by decide
    exact ⟨by decide, fun name inside => ⟨ordinary name inside, spelled name inside⟩, by decide, by decide⟩
  have declared : Levels.Declared powers powerRules powerCalls :=
    .rule _ (.level _ _ (.rule _ (.rule _ (.level _ _ (.rule _ (.level _ _ (.rule _ .nil)))))))
  obtain ⟨d, g, a, ran, finished, table, calm, parsed⟩ := operatorsParsed (V := Value) proper declared (by decide)
  obtain ⟨t, unique, answers⟩ := parsed ["MINUS", "PLUS", "TIMES", "POW", "POW"] powerTokens (by decide) (by decide)
  obtain ⟨first, all⟩ := answers (powerParser a) rfl (by simp [powerParser, (Automaton.buildSource table).1])
  have text : ((Draft.ofCalls powerCalls).build.toOption.any fun g =>
      (Automaton.build g {}).toOption.any fun a =>
        ((powerParser a).parse powerTokens).toOption.any fun value =>
          decide (value.str? = some "((1-2)+(3*(4^(5^6))))")) = true := by decide +kernel
  rw [show Draft.ofCalls powerCalls = d from (Draft.runFold ran).symm, finished] at text
  simp only [Except.toOption, Option.any_some, table, first] at text
  rw [Value.ofText (of_decide_eq_true text)] at first all
  exact ⟨d, g, a, ran, finished, table, calm, ⟨t, unique⟩, first, all⟩

end Parser
end ForkingLR
