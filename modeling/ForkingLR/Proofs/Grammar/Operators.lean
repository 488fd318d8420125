import ForkingLR.Proofs.Grammar.Writing

/-! Grammars of binary operators. Operators are declared level by level, and each has a rule that puts it
between two expressions; levels and rules may be declared in turn, and the rules in any order. The finished
grammar has these rules and no others, and ranks the operators as their levels do. -/
namespace ForkingLR

/-- How the operator of a child may stand to that of its parent, on this side: on a higher level, or on
the same level if that level groups to the side. -/
def Precedence.Under (side : Associativity) (parent child : Precedence) : Prop :=
  parent.level < child.level ∨ parent.level = child.level ∧ parent.assoc = side

instance (side : Associativity) (parent child : Precedence) : Decidable (parent.Under side child) :=
  inferInstanceAs (Decidable (_ ∨ _))

namespace Precedence
variable {p q r : Precedence}

def Agrees (p q : Precedence) : Prop := p.level = q.level → p.assoc = q.assoc

theorem Under.trans {side side' : Associativity} (first : Under side p q) (second : Under side' q r)
    (agrees : p.Agrees q) (different : side ≠ side') : Under side p r := by
  rcases first with higher | ⟨level, assoc⟩
  · refine .inl (Nat.lt_of_lt_of_le higher ?_)
    exact second.elim Nat.le_of_lt fun same => Nat.le_of_eq same.1
  · rcases second with higher | ⟨_, assoc'⟩
    · exact .inl (level ▸ higher)
    · exact absurd (assoc.symm.trans ((agrees level).trans assoc')) different

theorem underRightIff (agrees : p.Agrees q) (decided : p.assoc ≠ .nonAssoc) :
    Under .right p q ↔ ¬ Under .left q p := by
  unfold Under
  by_cases same : p.level = q.level
  · have assoc := agrees same
    cases kind : p.assoc with
    | left => simp [same, ← assoc, kind]
    | right => simp [same, ← assoc, kind]
    | nonAssoc => exact absurd kind decided
  · simp only [same, Ne.symm same, false_and, or_false]
    omega

end Precedence

theorem SymbolTable.Stands.unreserved {t : SymbolTable} {x : Symbol} {name : String} (stands : t.Stands x name)
    (last : name ≠ "EOS") (error : name ≠ "ERROR") : x ≠ .endOfInput ∧ x ≠ .error := by
  have reserved : t.Stands .endOfInput "EOS" := lookupReserved.1
  have reserved' : t.Stands .error "ERROR" := lookupReserved.2.1
  constructor
  · rintro rfl
    exact last (stands.spelled.symm.trans reserved.spelled)
  · rintro rfl
    exact error (stands.spelled.symm.trans reserved'.spelled)

abbrev Levels := List (Associativity × List String)

namespace Levels
variable {levels more : Levels} {name : String} {p q : Precedence}

def names (levels : Levels) : List String := levels.flatMap Prod.snd

theorem namesAppend : names (levels ++ more) = levels.names ++ more.names := List.flatMap_append

theorem namesCons {assoc : Associativity} {own : List String} :
    names ((assoc, own) :: levels) = own ++ levels.names := List.flatMap_cons

def Places (levels : Levels) (name : String) (p : Precedence) : Prop :=
  ∃ i names, levels[i]? = some (p.assoc, names) ∧ name ∈ names ∧ p.level = i + 1

theorem Places.mem (h : levels.Places name p) : name ∈ levels.names := by
  obtain ⟨i, names, placed, inside, _⟩ := h
  exact List.mem_flatMap.2 ⟨_, List.mem_of_getElem? placed, inside⟩

theorem placesOfMem (h : name ∈ levels.names) : ∃ p, levels.Places name p := by
  obtain ⟨⟨assoc, names⟩, listed, inside⟩ := List.mem_flatMap.1 h
  obtain ⟨i, placed⟩ := List.mem_iff_getElem?.1 listed
  exact ⟨⟨i + 1, assoc⟩, i, names, placed, inside, rfl⟩

theorem Places.agrees {name' : String} (h : levels.Places name p) (h' : levels.Places name' q) : p.Agrees q := by
  obtain ⟨i, _, placed, _, level⟩ := h
  obtain ⟨j, _, placed', _, level'⟩ := h'
  intro same
  obtain rfl : i = j := by omega
  exact congrArg Prod.fst (Option.some.inj (placed.symm.trans placed'))

theorem placesConcat {assoc : Associativity} {names : List String} :
    Places (levels ++ [(assoc, names)]) name p ↔
      levels.Places name p ∨ name ∈ names ∧ p = ⟨levels.length + 1, assoc⟩ := by
  constructor
  · rintro ⟨i, names', placed, inside, level⟩
    by_cases earlier : i < levels.length
    · rw [List.getElem?_append_left earlier] at placed
      exact .inl ⟨i, names', placed, inside, level⟩
    · have bound := (List.getElem?_eq_some_iff.1 placed).1
      rw [List.length_append, List.length_singleton] at bound
      obtain rfl : i = levels.length := by omega
      rw [List.getElem?_concat_length] at placed
      cases p
      cases placed
      cases level
      exact .inr ⟨inside, rfl⟩
  · rintro (⟨i, names', placed, inside, level⟩ | ⟨inside, rfl⟩)
    · refine ⟨i, names', ?_, inside, level⟩
      rw [List.getElem?_append_left (List.getElem?_eq_some_iff.1 placed).1]
      exact placed
    · exact ⟨levels.length, names, List.getElem?_concat_length, inside, rfl⟩

def Ranks (levels : Levels) (symbols : SymbolTable) (x : Symbol) (p : Precedence) : Prop :=
  ∃ name, symbols.Stands x name ∧ levels.Places name p

theorem Ranks.agrees {symbols : SymbolTable} {x y : Symbol} (h : levels.Ranks symbols x p)
    (h' : levels.Ranks symbols y q) : p.Agrees q := by
  obtain ⟨_, _, places⟩ := h
  obtain ⟨_, _, places'⟩ := h'
  exact places.agrees places'

def rules (levels : Levels) : List (Production String) :=
  ⟨"e", ["NUM"]⟩ :: levels.names.map fun name => ⟨"e", ["e", name, "e"]⟩

theorem memRules {p : Production String} :
    p ∈ levels.rules ↔ p = ⟨"e", ["NUM"]⟩ ∨ ∃ name ∈ levels.names, p = ⟨"e", ["e", name, "e"]⟩ := by
  simp [rules, eq_comm]

def expression (names : List String) : List String := "NUM" :: names.flatMap fun name => [name, "NUM"]

theorem memExpression {names : List String} (h : name ∈ expression names) : name = "NUM" ∨ name ∈ names := by
  simp only [expression, List.mem_cons, List.mem_flatMap, List.not_mem_nil, or_false] at h
  rcases h with rfl | ⟨operator, inside, rfl | rfl⟩
  · exact .inl rfl
  · exact .inr inside
  · exact .inl rfl

inductive Declared : Levels → List (Production String) → List DraftCall → Prop
  | nil : Declared [] [] []
  | level {levels : Levels} {rules : List (Production String)} {calls : List DraftCall} (assoc : Associativity)
      (names : List String) (rest : Declared levels rules calls) :
      Declared ((assoc, names) :: levels) rules (.declarePrecedence assoc names :: calls)
  | rule {levels : Levels} {rules : List (Production String)} {calls : List DraftCall} (p : Production String)
      (rest : Declared levels rules calls) : Declared levels (p :: rules) (.declare p.lhs p.rhs :: calls)

structure Proper (levels : Levels) : Prop where
  distinct : levels.names.Nodup
  spelled : ∀ name ∈ levels.names, Nameable .terminal name
  apart : ∀ name ∈ levels.names, name ≠ "NUM" ∧ name ≠ "EOS" ∧ name ≠ "ERROR"
  sided : ∀ level ∈ levels, level.1 = .left ∨ level.1 = .right

theorem Proper.unreserved (proper : levels.Proper) {names : List String}
    (listed : ∀ name ∈ names, name ∈ levels.names) (h : name ∈ expression names) :
    name ≠ "EOS" ∧ name ≠ "ERROR" := by
  rcases memExpression h with rfl | operator
  · decide
  · exact (proper.apart name (listed name operator)).2

section
variable {symbols : SymbolTable} {x : Symbol} (proper : levels.Proper) (ranks : levels.Ranks symbols x p)
include proper ranks

theorem Proper.terminal : isTerminal x = true := by
  obtain ⟨name, stands, places⟩ := ranks
  have kind := stands.kind.symm.trans (proper.spelled name places.mem).spelled
  exact Symbol.terminalIff.2 (Option.some.inj kind)

theorem Proper.ordinary : x ≠ .endOfInput ∧ x ≠ .error ∧ ¬ symbols.Stands x "NUM" := by
  obtain ⟨name, stands, places⟩ := ranks
  obtain ⟨operand, last, error⟩ := proper.apart name places.mem
  obtain ⟨notEnd, notError⟩ := stands.unreserved last error
  exact ⟨notEnd, notError, fun other => operand (stands.spelled.symm.trans other.spelled)⟩

theorem Proper.decided : p.assoc ≠ .nonAssoc := by
  obtain ⟨_, _, i, names, placed, _, _⟩ := ranks
  intro kind
  have sided := proper.sided _ (List.mem_of_getElem? placed)
  simp [kind] at sided

end

theorem Proper.wellSpelled (proper : levels.Proper) : ∀ p ∈ levels.rules, p.WellSpelled := by
  have expression : Nameable .nonterminal "e" := ⟨by decide, by decide⟩
  have operand : Nameable .terminal "NUM" := ⟨by decide, by decide⟩
  intro p listed
  rcases memRules.1 listed with rfl | ⟨name, inside, rfl⟩
  · exact ⟨expression, by simpa using ⟨_, operand⟩⟩
  · have operator := proper.spelled name inside
    refine ⟨expression, ?_⟩
    simp only [List.forall_mem_cons, List.not_mem_nil, false_implies, implies_true, and_true]
    exact ⟨⟨_, expression⟩, ⟨_, operator⟩, ⟨_, expression⟩⟩

theorem Proper.complete (proper : levels.Proper) : Draft.Complete "e" levels.rules := by
  have first : ∃ p ∈ levels.rules, p.lhs = "e" := ⟨_, memRules.2 (.inl rfl), rfl⟩
  refine ⟨first, ?_⟩
  intro p listed name used kind
  rcases memRules.1 listed with rfl | ⟨operator, inside, rfl⟩
  · rw [List.mem_singleton.1 used] at kind
    contradiction
  · have terminal := (proper.spelled operator inside).spelled
    simp only [List.mem_cons, List.not_mem_nil, or_false] at used
    rcases used with rfl | rfl | rfl
    · exact first
    · cases kind.symm.trans terminal
    · exact first

theorem Proper.rulesNodup (proper : levels.Proper) : levels.rules.Nodup := by
  refine List.nodup_cons.2 ⟨by simp, proper.distinct.map ?_⟩
  intro name name' same
  simpa using same

end Levels

namespace Draft
open Edit (answersBind answersDiscard)
variable {d d' : Draft} {levels : Levels} {rules : List (Production String)} {name : String} {x : Symbol}

structure Records (d : Draft) (levels : Levels) (rules : List (Production String)) : Prop where
  written : d.Writes rules
  count : d.precedence.lastLevel = levels.length
  known : ∀ name ∈ levels.names, ∃ x, d.symbols.Stands x name
  ranks : ∀ {x p}, d.precedence.terminals.get? x = some p ↔ levels.Ranks d.symbols x p
  plain : d.precedence.overrides = ∅
  start : d.declaredStart = none

theorem recordsEmpty : empty.Records [] [] := by
  refine ⟨writesEmpty, rfl, nofun, ?_, rfl, rfl⟩
  intro x p
  constructor
  · nofun
  · rintro ⟨_, _, _, _, placed, _⟩
    cases placed

theorem Records.learns (h : d.Records levels rules) (learns : d.Learns d') : d'.Records levels rules := by
  have written := h.written.learns learns
  obtain ⟨symbols, within, rfl⟩ := learns
  have known : ∀ name ∈ levels.names, ∃ x, symbols.Stands x name := by
    intro name listed
    obtain ⟨x, stands⟩ := h.known name listed
    exact ⟨x, stands.within within⟩
  refine ⟨written, h.count, known, ?_, h.plain, h.start⟩
  intro x p
  rw [h.ranks]
  constructor
  · rintro ⟨name, stands, places⟩
    exact ⟨name, stands.within within, places⟩
  · rintro ⟨name, stands, places⟩
    obtain ⟨y, stands'⟩ := h.known name places.mem
    obtain rfl := Option.some.inj (stands.symm.trans (stands'.within within))
    exact ⟨name, stands', places⟩

theorem Records.rule (h : d.Records levels rules) {p : Production String} (spelled : p.WellSpelled) :
    ∃ d', (DraftCall.declare p.lhs p.rhs).edit d = .ok () d' ∧ d'.Records levels (rules ++ [p]) := by
  obtain ⟨id, d', declared⟩ := declareOk spelled d
  have written := h.written.declare declared
  obtain ⟨_, mid, q, learns, _, rfl⟩ := declareSource declared
  have after := h.learns learns
  exact ⟨_, answersDiscard.2 ⟨id, declared⟩, written, after.count, after.known, after.ranks, after.plain,
    after.start⟩

theorem declarePrecedenceOk {mid : Draft} {assoc : Associativity} {names : List String} {xs : List Symbol}
    (interned : names.mapM internTerminal d = .ok xs mid)
    (free : ∀ x ∈ xs, mid.precedence.terminals.get? x = none) :
    declarePrecedence assoc names d = .ok (mid.precedence.lastLevel + 1) { mid with precedence :=
      { mid.precedence with
        lastLevel := mid.precedence.lastLevel + 1
        terminals := xs.foldl (fun m x => m.insert x ⟨mid.precedence.lastLevel + 1, assoc⟩)
          mid.precedence.terminals } } := by
  have none : (xs.find? fun x => (mid.precedence.terminals.get? x).isSome) = none :=
    List.find?_eq_none.2 fun x listed => by simp [free x listed]
  refine answersBind.2 ⟨xs, mid, interned, answersBind.2 ⟨mid, mid, rfl, ?_⟩⟩
  rw [PrecedenceTable.declare, none]
  rfl

theorem Records.level (h : d.Records levels rules) (assoc : Associativity) {names : List String}
    (spelled : ∀ name ∈ names, Nameable .terminal name) (fresh : ∀ name ∈ names, name ∉ levels.names) :
    ∃ d', (DraftCall.declarePrecedence assoc names).edit d = .ok () d' ∧
      d'.Records (levels ++ [(assoc, names)]) rules := by
  obtain ⟨xs, mid, interned⟩ := mapOk (f := internTerminal) internTerminalOk spelled d
  obtain ⟨_, learns, stands⟩ := mapSource (P := fun _ => True)
    (fun interned => ⟨trivial, (internSource (internTerminalIff.1 interned).1).2⟩) interned
  have after := h.learns learns
  have free : ∀ x ∈ xs, mid.precedence.terminals.get? x = none := by
    intro x listed
    refine Option.eq_none_iff_forall_ne_some.2 fun p ranked => ?_
    obtain ⟨name, inside, stands⟩ := (forallMem stands).1 x listed
    obtain ⟨name', stands', places⟩ := after.ranks.1 ranked
    have same : name = name' := stands.spelled.symm.trans stands'.spelled
    exact fresh name inside (same ▸ places.mem)
  have known : ∀ name ∈ Levels.names (levels ++ [(assoc, names)]), ∃ x, mid.symbols.Stands x name := by
    intro name listed
    rw [Levels.namesAppend, List.mem_append, Levels.namesCons, List.mem_append] at listed
    rcases listed with earlier | inside | none
    · exact after.known name earlier
    · obtain ⟨x, _, stands⟩ := (forallMem stands).2 name inside
      exact ⟨x, stands⟩
    · cases none
  refine ⟨_, answersDiscard.2 ⟨_, declarePrecedenceOk interned free⟩, after.written, ?_, known, ?_, after.plain,
    after.start⟩
  · simp [after.count]
  · intro x p
    simp only [SortedMap.getFoldInsert, Levels.Ranks, Levels.placesConcat, after.count]
    split
    · rename_i listed
      obtain ⟨name, inside, own⟩ := (forallMem stands).1 x listed
      constructor
      · intro same
        cases same
        exact ⟨name, own, .inr ⟨inside, rfl⟩⟩
      · rintro ⟨name', own', earlier | ⟨_, rfl⟩⟩
        · cases (free x listed).symm.trans (after.ranks.2 ⟨name', own', earlier⟩)
        · rfl
    · rename_i unlisted
      rw [after.ranks]
      constructor
      · rintro ⟨name, own, places⟩
        exact ⟨name, own, .inl places⟩
      · rintro ⟨name, own, places | ⟨inside, _⟩⟩
        · exact ⟨name, own, places⟩
        · obtain ⟨y, listed, own'⟩ := (forallMem stands).2 name inside
          obtain rfl := Option.some.inj (own.symm.trans own')
          exact absurd listed unlisted

theorem recordsRun {more : Levels} {further : List (Production String)} {calls : List DraftCall}
    (declared : Levels.Declared more further calls) :
    ∀ {d : Draft} {levels : Levels} {rules : List (Production String)}, d.Records levels rules →
      (Levels.names (levels ++ more)).Nodup → (∀ name ∈ more.names, Nameable .terminal name) →
      (∀ p ∈ further, p.WellSpelled) →
      ∃ d', run calls d = .ok () d' ∧ d'.Records (levels ++ more) (rules ++ further) := by
  induction declared with
  | nil =>
    intro d levels rules records _ _ _
    exact ⟨d, rfl, by simpa using records⟩
  | @level more further calls assoc names rest ih =>
    intro d levels rules records distinct spelled wellSpelled
    have fresh : ∀ name ∈ names, name ∉ levels.names := by
      rw [Levels.namesAppend, Levels.namesCons] at distinct
      intro name inside earlier
      exact (List.nodup_append.1 distinct).2.2 name earlier name (List.mem_append_left _ inside) rfl
    rw [Levels.namesCons, List.forall_mem_append] at spelled
    rw [List.append_cons] at distinct ⊢
    obtain ⟨mid, first, records⟩ := records.level assoc spelled.1 fresh
    obtain ⟨d', ran, records⟩ := ih records distinct spelled.2 wellSpelled
    exact ⟨d', runCons.2 ⟨mid, first, ran⟩, records⟩
  | @rule more further calls p rest ih =>
    intro d levels rules records distinct spelled wellSpelled
    obtain ⟨here, later⟩ := List.forall_mem_cons.1 wellSpelled
    obtain ⟨mid, first, records⟩ := records.rule here
    obtain ⟨d', ran, records⟩ := ih records distinct spelled later
    exact ⟨d', runCons.2 ⟨mid, first, ran⟩, by simpa using records⟩

theorem Records.starts (h : d.Records levels rules) (same : rules.Perm levels.rules) :
    ∃ e, d.start? = some e ∧ d.symbols.Stands e "e" := by
  cases rules with
  | nil => cases same.nil_eq
  | cons p rules =>
    have lhs : p.lhs = "e" := by
      rcases Levels.memRules.1 (same.mem_iff.1 List.mem_cons_self) with rfl | ⟨_, _, rfl⟩
      · rfl
      · rfl
    obtain ⟨r, others, ⟨origin, alike⟩, _, shape⟩ := List.forall₂_cons_right_iff.1 h.written
    refine ⟨r.production.lhs, ?_, lhs ▸ alike.lhs⟩
    simp [start?, h.start, shape, origin]

theorem Records.finishes (h : d.Records levels rules) (proper : levels.Proper) (same : rules.Perm levels.rules) :
    ∃ g, d.build = .ok g := by
  obtain ⟨e, chosen, stands⟩ := h.starts same
  exact (h.written.buildIff chosen stands).2 (proper.complete.perm same)

end Draft

namespace Grammar

def Ranks (g : Grammar) (x : Symbol) (p : Precedence) : Prop := g.precedence.terminals.get? x = some p

inductive Shape (g : Grammar) (e n : Symbol) : Production Symbol → Prop
  | start : Shape g e n ⟨.augmentedStart, [e]⟩
  | operand : Shape g e n ⟨e, [n]⟩
  | operation {x : Symbol} {p : Precedence} (ranks : g.Ranks x p) : Shape g e n ⟨e, [e, x, e]⟩

structure Operators (g : Grammar) (e n : Symbol) : Prop where
  wellFormed : g.WellFormed
  start : g.start = e
  shapes : ∀ p ∈ g.productions, g.Shape e n p
  nodup : g.productions.Nodup
  operand : ⟨e, [n]⟩ ∈ g.productions
  operation : ∀ {x p}, g.Ranks x p → ⟨e, [e, x, e]⟩ ∈ g.productions
  terminal : isTerminal n = true
  ordinary : n ≠ .endOfInput ∧ n ≠ .error
  unranked : ∀ p, ¬ g.Ranks n p
  terminals : ∀ {x p}, g.Ranks x p → isTerminal x = true
  reserved : ∀ {x p}, g.Ranks x p → x ≠ .endOfInput ∧ x ≠ .error
  plain : ∀ id, g.precedence.overrides.get? id = none
  agrees : ∀ {x y p q}, g.Ranks x p → g.Ranks y q → p.Agrees q
  decided : ∀ {x p}, g.Ranks x p → p.assoc ≠ .nonAssoc

theorem Operators.nonterminal {g : Grammar} {e n : Symbol} (ops : g.Operators e n) : isTerminal e = false :=
  ops.start ▸ ops.wellFormed.startNonterminal

theorem alikeUnique {t : SymbolTable} {p q : Production Symbol} {r : Production String}
    (alike : p.Alike t.Stands r) (alike' : q.Alike t.Stands r) : p = q := by
  have one : Relator.LeftUnique t.Stands := fun _ _ _ stands stands' => Option.some.inj (stands.symm.trans stands')
  cases p
  cases q
  rw [Production.mk.injEq]
  exact ⟨one alike.lhs alike'.lhs, List.left_unique_forall₂' one alike.rhs alike'.rhs⟩

theorem alikeNames {t : SymbolTable} {p : Production Symbol} {r r' : Production String}
    (alike : p.Alike t.Stands r) (alike' : p.Alike t.Stands r') : r = r' := by
  have one : Relator.RightUnique t.Stands := fun _ _ _ stands stands' => stands.spelled.symm.trans stands'.spelled
  cases r
  cases r'
  rw [Production.mk.injEq]
  exact ⟨one alike.lhs alike'.lhs, List.right_unique_forall₂' one alike.rhs alike'.rhs⟩

structure Spells (g : Grammar) (levels : Levels) (e n : Symbol) : Prop where
  start : g.start = e
  expression : g.symbols.Stands e "e"
  operand : g.symbols.Stands n "NUM"
  known : ∀ name ∈ levels.names, ∃ x, g.symbols.Stands x name
  rules : ∃ rules : List (Production String), rules.Perm (⟨"$start", ["e"]⟩ :: levels.rules) ∧
    List.Forall₂ (Production.Alike g.symbols.Stands) g.productions rules
  ranks : g.Ranks = levels.Ranks g.symbols
  plain : g.precedence.overrides = ∅

theorem spellsFinished {d : Draft} {g : Grammar} {levels : Levels} {rules : List (Production String)}
    (records : d.Records levels rules) (same : rules.Perm levels.rules) (finished : d.build = .ok g) :
    ∃ e n, g.Spells levels e n := by
  obtain ⟨e, chosen, expression⟩ := records.starts same
  have aligned := records.written.finished chosen expression finished
  obtain ⟨symbols, precedence, _, _, started, _⟩ := Draft.buildSource finished
  have listed : ⟨"e", ["NUM"]⟩ ∈ rules ++ [⟨"$start", ["e"]⟩] :=
    List.mem_append_left _ (same.mem_iff.2 (Levels.memRules.2 (.inl rfl)))
  obtain ⟨_, _, alike⟩ := (forallMem aligned).2 _ listed
  obtain ⟨n, _, operand, _⟩ := List.forall₂_cons_right_iff.1 alike.rhs
  have ranks : g.Ranks = levels.Ranks g.symbols := by
    funext x p
    rw [Ranks, precedence, symbols, records.ranks]
  have reordered := (List.perm_append_singleton ⟨"$start", ["e"]⟩ rules).trans (same.cons _)
  exact ⟨e, n, Option.some.inj (started.symm.trans chosen), symbols ▸ expression, operand,
    symbols ▸ records.known, ⟨_, reordered, aligned⟩, ranks, precedence ▸ records.plain⟩

theorem declaredFinishes {levels : Levels} {rules : List (Production String)} {calls : List DraftCall}
    (proper : levels.Proper) (declared : Levels.Declared levels rules calls) (same : rules.Perm levels.rules) :
    ∃ d g e n, Draft.run calls .empty = .ok () d ∧ d.build = .ok g ∧ g.Built ∧ g.Spells levels e n := by
  obtain ⟨d, ran, records⟩ := Draft.recordsRun declared Draft.recordsEmpty proper.distinct proper.spelled
    fun p listed => proper.wellSpelled p (same.mem_iff.1 listed)
  obtain ⟨g, finished⟩ := records.finishes proper same
  obtain ⟨e, n, spells⟩ := spellsFinished records same finished
  exact ⟨d, g, e, n, ran, finished, ⟨_, Draft.runFold ran ▸ finished⟩, spells⟩

namespace Spells
variable {g : Grammar} {levels : Levels} {e n : Symbol} (spells : g.Spells levels e n)
include spells

theorem operandAlike : Production.Alike g.symbols.Stands ⟨e, [n]⟩ ⟨"e", ["NUM"]⟩ :=
  ⟨spells.expression, .cons spells.operand .nil⟩

theorem operationAlike {x : Symbol} {name : String} (stands : g.symbols.Stands x name) :
    Production.Alike g.symbols.Stands ⟨e, [e, x, e]⟩ ⟨"e", ["e", name, "e"]⟩ :=
  ⟨spells.expression, .cons spells.expression (.cons stands (.cons spells.expression .nil))⟩

theorem listed {p : Production Symbol} {r : Production String} (alike : p.Alike g.symbols.Stands r)
    (inside : r ∈ levels.rules) : p ∈ g.productions := by
  obtain ⟨rules, same, aligned⟩ := spells.rules
  obtain ⟨q, found, alike'⟩ := (forallMem aligned).2 r (same.mem_iff.2 (List.mem_cons_of_mem _ inside))
  rwa [alikeUnique alike alike']

theorem ranked {name : String} (inside : name ∈ levels.names) : ∃ x p, g.symbols.Stands x name ∧ g.Ranks x p := by
  obtain ⟨x, stands⟩ := spells.known name inside
  obtain ⟨p, places⟩ := Levels.placesOfMem inside
  have ranks : levels.Ranks g.symbols x p := ⟨name, stands, places⟩
  exact ⟨x, p, stands, spells.ranks ▸ ranks⟩

theorem shapes : ∀ p ∈ g.productions, g.Shape e n p := by
  obtain ⟨rules, same, aligned⟩ := spells.rules
  intro p inside
  obtain ⟨r, written, alike⟩ := (forallMem aligned).1 p inside
  rcases List.mem_cons.1 (same.mem_iff.1 written) with rfl | rule
  · rw [alikeUnique alike (q := ⟨.augmentedStart, [e]⟩)
      ⟨SymbolTable.lookupReserved.2.2, .cons spells.expression .nil⟩]
    exact .start
  · rcases Levels.memRules.1 rule with rfl | ⟨name, own, rfl⟩
    · rw [alikeUnique alike spells.operandAlike]
      exact .operand
    · obtain ⟨x, q, stands, ranks⟩ := spells.ranked own
      rw [alikeUnique alike (spells.operationAlike stands)]
      exact .operation ranks

theorem nodup (proper : levels.Proper) : g.productions.Nodup := by
  obtain ⟨rules, same, aligned⟩ := spells.rules
  refine forallNodup aligned alikeNames (same.nodup_iff.2 (List.nodup_cons.2 ⟨?_, proper.rulesNodup⟩))
  simp [Levels.memRules]

theorem operators (built : g.Built) (proper : levels.Proper) : g.Operators e n where
  wellFormed := built.wellFormed
  start := spells.start
  shapes := spells.shapes
  nodup := spells.nodup proper
  operand := spells.listed spells.operandAlike (Levels.memRules.2 (.inl rfl))
  operation := by
    intro x p ranked
    obtain ⟨name, stands, places⟩ : levels.Ranks g.symbols x p := spells.ranks ▸ ranked
    exact spells.listed (spells.operationAlike stands) (Levels.memRules.2 (.inr ⟨name, places.mem, rfl⟩))
  terminal := Symbol.terminalIff.2 (Option.some.inj (spells.operand.kind.symm.trans (by decide)))
  ordinary := spells.operand.unreserved (by decide) (by decide)
  unranked := fun _ ranked => (proper.ordinary (spells.ranks ▸ ranked)).2.2 spells.operand
  terminals := fun ranked => proper.terminal (spells.ranks ▸ ranked)
  reserved := fun ranked => (proper.ordinary (spells.ranks ▸ ranked)).imp_right And.left
  plain := by simp [spells.plain]
  agrees := fun ranked ranked' => Levels.Ranks.agrees (spells.ranks ▸ ranked) (spells.ranks ▸ ranked')
  decided := fun ranked => proper.decided (spells.ranks ▸ ranked)

end Spells

end Grammar
end ForkingLR
