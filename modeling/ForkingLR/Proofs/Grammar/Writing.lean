import ForkingLR.Proofs.Cfg.Renaming
import ForkingLR.Proofs.Grammar.Naming

/-! Grammars written name by name. A rule is taken in if its names are well spelled, whatever the draft
holds already; the draft then has the rules in order, and it can be finished if every nonterminal they
use is defined. -/
namespace ForkingLR

structure Nameable (kind : SymbolKind) (name : String) : Prop where
  ordinary : name ≠ "$start"
  spelled : SymbolKind.ofName? name = some kind

structure Production.WellSpelled (p : Production String) : Prop where
  lhs : Nameable .nonterminal p.lhs
  rhs : ∀ name ∈ p.rhs, ∃ kind, Nameable kind name

theorem Symbol.terminalIff {x : Symbol} : isTerminal x = true ↔ x.kind = .terminal := by simp [isTerminal]

theorem Symbol.nonterminalIff {x : Symbol} : isTerminal x = false ↔ x.kind = .nonterminal := by
  cases kind : x.kind <;> simp [isTerminal, kind]

namespace SymbolTable
variable {t t' : SymbolTable} {name : String} {x : Symbol}

def Stands (t : SymbolTable) (x : Symbol) (name : String) : Prop := t.lookup? name = some x

theorem Stands.within (stands : t.Stands x name) (within : t.Within t') : t'.Stands x name := by
  have known := within.knows (knowsLookup stands)
  rw [Knows] at known
  have same : t'.name x = name := by
    obtain ⟨placed, _⟩ := lookupIff.1 stands
    obtain ⟨rest, shape⟩ := within
    rw [SymbolTable.name, Interner.resolve?, ← shape,
      List.getElem?_append_left (List.getElem?_eq_some_iff.1 placed).1, placed]
    rfl
  rwa [same] at known

theorem Stands.kind (stands : t.Stands x name) : SymbolKind.ofName? name = some x.kind :=
  (lookupIff.1 stands).2

theorem Stands.spelled (stands : t.Stands x name) : t.name x = name := nameOfLookup stands

theorem internSource (h : intern name t = .ok x t') :
    Nameable x.kind name ∧ t.Within t' ∧ t'.Stands x name := by
  obtain ⟨within, known⟩ := internKnows h
  obtain ⟨ordinary, placed⟩ := internKey h
  have same : t'.name x = name := by simp [SymbolTable.name, Interner.resolve?, placed]
  rw [Knows, same] at known
  exact ⟨⟨ordinary, (lookupIff.1 known).2⟩, within, known⟩

theorem internOk {kind : SymbolKind} (nameable : Nameable kind name) (t : SymbolTable) :
    ∃ x t', intern name t = .ok x t' := by
  unfold intern
  rw [if_neg nameable.ordinary]
  split
  · rename_i none
    rw [nameable.spelled] at none
    contradiction
  · exact ⟨_, _, rfl⟩

end SymbolTable

namespace Edit
variable {ε σ α β : Type}

theorem answersBind {x : EStateM ε σ α} {f : α → EStateM ε σ β} {d d' : σ} {b : β} :
    (x >>= f) d = .ok b d' ↔ ∃ a mid, x d = .ok a mid ∧ f a mid = .ok b d' := by
  show EStateM.bind x f d = .ok b d' ↔ _
  unfold EStateM.bind
  cases x d <;> simp

theorem failsBind {x : EStateM ε σ α} {f : α → EStateM ε σ β} {d d' : σ} {e : ε} :
    (x >>= f) d = .error e d' ↔ x d = .error e d' ∨ ∃ a mid, x d = .ok a mid ∧ f a mid = .error e d' := by
  show EStateM.bind x f d = .error e d' ↔ _
  unfold EStateM.bind
  cases x d <;> simp

theorem answersDiscard {x : EStateM ε σ α} {d d' : σ} : discard x d = .ok () d' ↔ ∃ a, x d = .ok a d' := by
  show EStateM.map _ x d = .ok () d' ↔ _
  unfold EStateM.map
  cases x d <;> simp

end Edit

namespace Draft
open Edit (answersBind answersDiscard)
variable {d d' : Draft} {name : String} {x : Symbol}

def Learns (d d' : Draft) : Prop := ∃ symbols, d.symbols.Within symbols ∧ d' = { d with symbols }

theorem Learns.refl (d : Draft) : d.Learns d := ⟨d.symbols, List.prefix_rfl, rfl⟩

theorem Learns.trans {d'' : Draft} (first : d.Learns d') (second : d'.Learns d'') : d.Learns d'' := by
  obtain ⟨symbols, within, rfl⟩ := first
  obtain ⟨symbols', within', rfl⟩ := second
  exact ⟨symbols', within.trans within', rfl⟩

theorem Learns.within (learns : d.Learns d') : d.symbols.Within d'.symbols := by
  obtain ⟨symbols, within, rfl⟩ := learns
  exact within

theorem internSource (h : intern name d = .ok x d') :
    Nameable x.kind name ∧ d.Learns d' ∧ d'.symbols.Stands x name := by
  unfold intern onSymbols at h
  split at h
  · rename_i a symbols interned
    cases h
    obtain ⟨nameable, within, stands⟩ := SymbolTable.internSource interned
    exact ⟨nameable, ⟨symbols, within, rfl⟩, stands⟩
  · cases h

theorem internOk {kind : SymbolKind} (nameable : Nameable kind name) (d : Draft) :
    ∃ x d', intern name d = .ok x d' := by
  obtain ⟨x, t', interned⟩ := SymbolTable.internOk nameable d.symbols
  exact ⟨x, { d with symbols := t' }, by rw [intern, onSymbols, interned]⟩

theorem internTerminalIff :
    internTerminal name d = .ok x d' ↔ intern name d = .ok x d' ∧ isTerminal x = true := by
  rw [internTerminalTests, answersBind]
  constructor
  · rintro ⟨y, mid, interned, answer⟩
    split at answer
    · cases answer
      exact ⟨interned, by assumption⟩
    · cases answer
  · rintro ⟨interned, terminal⟩
    exact ⟨x, d', interned, by rw [if_pos terminal]; rfl⟩

theorem internTerminalOk (nameable : Nameable .terminal name) (d : Draft) :
    ∃ x d', internTerminal name d = .ok x d' := by
  obtain ⟨x, d', interned⟩ := internOk nameable d
  have kind := (internSource interned).1.spelled.symm.trans nameable.spelled
  exact ⟨x, d', internTerminalIff.2 ⟨interned, Symbol.terminalIff.2 (Option.some.inj kind)⟩⟩

theorem internNonterminalIff :
    internNonterminal name d = .ok x d' ↔ intern name d = .ok x d' ∧ isTerminal x = false := by
  rw [internNonterminalTests, answersBind]
  constructor
  · rintro ⟨y, mid, interned, answer⟩
    split at answer
    · cases answer
    · cases answer
      exact ⟨interned, by simpa using ‹¬ isTerminal x = true›⟩
  · rintro ⟨interned, nonterminal⟩
    exact ⟨x, d', interned, by rw [if_neg (by simp [nonterminal])]; rfl⟩

theorem mapSource {f : String → Edit Symbol} {P : String → Prop}
    (step : ∀ {name d x d'}, f name d = .ok x d' → P name ∧ d.Learns d' ∧ d'.symbols.Stands x name) :
    ∀ {names : List String} {d d' : Draft} {xs : List Symbol}, names.mapM f d = .ok xs d' →
      (∀ name ∈ names, P name) ∧ d.Learns d' ∧ List.Forall₂ d'.symbols.Stands xs names := by
  intro names
  induction names with
  | nil =>
    intro d d' xs h
    cases h
    exact ⟨nofun, .refl d, .nil⟩
  | cons name names ih =>
    intro d d' xs h
    rw [List.mapM_cons] at h
    obtain ⟨x, mid, first, h⟩ := answersBind.1 h
    obtain ⟨rest, last, others, h⟩ := answersBind.1 h
    cases h
    obtain ⟨here, learns, stands⟩ := step first
    obtain ⟨each, learns', all⟩ := ih others
    exact ⟨List.forall_mem_cons.2 ⟨here, each⟩, learns.trans learns', .cons (stands.within learns'.within) all⟩

theorem mapOk {f : String → Edit Symbol} {P : String → Prop}
    (step : ∀ {name}, P name → ∀ d, ∃ x d', f name d = .ok x d') {names : List String}
    (each : ∀ name ∈ names, P name) (d : Draft) : ∃ xs d', names.mapM f d = .ok xs d' := by
  induction names generalizing d with
  | nil => exact ⟨[], d, rfl⟩
  | cons name names ih =>
    obtain ⟨here, later⟩ := List.forall_mem_cons.1 each
    obtain ⟨x, mid, first⟩ := step here d
    obtain ⟨xs, d', others⟩ := ih later mid
    refine ⟨x :: xs, d', ?_⟩
    rw [List.mapM_cons]
    exact answersBind.2 ⟨x, mid, first, answersBind.2 ⟨xs, d', others, rfl⟩⟩

theorem declareSource {lhs : String} {rhs : List String} {id : Nat} (h : declare lhs rhs d = .ok id d') :
    Production.WellSpelled ⟨lhs, rhs⟩ ∧ ∃ mid q, d.Learns mid ∧ q.Alike mid.symbols.Stands ⟨lhs, rhs⟩ ∧
      d' = { mid with rules := mid.rules ++ [⟨q, .declared⟩] } := by
  obtain ⟨x, first, head, h⟩ := answersBind.1 h
  obtain ⟨xs, mid, tail, h⟩ := answersBind.1 h
  cases h
  obtain ⟨interned, nonterminal⟩ := internNonterminalIff.1 head
  obtain ⟨nameable, learns, stands⟩ := internSource interned
  obtain ⟨each, learns', all⟩ := mapSource (P := fun name => ∃ kind, Nameable kind name)
    (fun h => (internSource h).imp_left fun nameable => ⟨_, nameable⟩) tail
  have kind := Symbol.nonterminalIff.1 nonterminal
  exact ⟨⟨kind ▸ nameable, each⟩, mid, ⟨x, xs⟩, learns.trans learns', ⟨stands.within learns'.within, all⟩, rfl⟩

theorem declareOk {p : Production String} (spelled : p.WellSpelled) (d : Draft) :
    ∃ id d', declare p.lhs p.rhs d = .ok id d' := by
  obtain ⟨x, first, interned⟩ := internOk spelled.lhs d
  have kind := (internSource interned).1.spelled.symm.trans spelled.lhs.spelled
  have nonterminal := Symbol.nonterminalIff.2 (Option.some.inj kind)
  obtain ⟨xs, mid, tail⟩ := mapOk (P := fun name => ∃ kind, Nameable kind name)
    (fun ⟨_, nameable⟩ => internOk nameable) spelled.rhs first
  exact ⟨mid.size, _, answersBind.2 ⟨x, first, internNonterminalIff.2 ⟨interned, nonterminal⟩,
    answersBind.2 ⟨xs, mid, tail, rfl⟩⟩⟩

theorem setStartSource (h : setStart name d = .ok x d') :
    Nameable .nonterminal name ∧ ∃ mid, d.Learns mid ∧ mid.symbols.Stands x name ∧
      d' = { mid with declaredStart := some x } := by
  unfold setStart at h
  split at h
  · rename_i y mid interned
    split at h
    · cases h
    · rename_i nonterminal
      cases h
      obtain ⟨nameable, learns, stands⟩ := internSource interned
      have kind := Symbol.nonterminalIff.1 (by simpa using nonterminal)
      exact ⟨kind ▸ nameable, mid, learns, stands, rfl⟩
  · cases h

theorem setStartOk (nameable : Nameable .nonterminal name) (d : Draft) : ∃ x d', setStart name d = .ok x d' := by
  obtain ⟨x, mid, interned⟩ := internOk nameable d
  have kind := (internSource interned).1.spelled.symm.trans nameable.spelled
  have nonterminal := Symbol.nonterminalIff.2 (Option.some.inj kind)
  exact ⟨x, { mid with declaredStart := some x }, by simp [setStart, interned, nonterminal]⟩

def Writes (d : Draft) (rules : List (Production String)) : Prop :=
  List.Forall₂ (fun r p => r.origin = .declared ∧ r.production.Alike d.symbols.Stands p) d.rules rules

variable {rules : List (Production String)}

theorem writesEmpty : empty.Writes [] := .nil

theorem Writes.learns (written : d.Writes rules) (learns : d.Learns d') : d'.Writes rules := by
  obtain ⟨symbols, within, rfl⟩ := learns
  refine written.imp ?_
  rintro r p ⟨origin, alike⟩
  exact ⟨origin, alike.lhs.within within, alike.rhs.imp fun _ _ stands => stands.within within⟩

theorem Writes.declare (written : d.Writes rules) {lhs : String} {rhs : List String} {id : Nat}
    (h : declare lhs rhs d = .ok id d') : d'.Writes (rules ++ [⟨lhs, rhs⟩]) := by
  obtain ⟨_, mid, q, learns, alike, rfl⟩ := declareSource h
  exact List.rel_append (written.learns learns) (.cons ⟨rfl, alike⟩ .nil)

structure Complete (start : String) (rules : List (Production String)) : Prop where
  start : ∃ p ∈ rules, p.lhs = start
  used : ∀ p ∈ rules, ∀ name ∈ p.rhs, SymbolKind.ofName? name = some .nonterminal → ∃ q ∈ rules, q.lhs = name

theorem Complete.perm {start : String} {rules rules' : List (Production String)} (complete : Complete start rules)
    (same : rules'.Perm rules) : Complete start rules' := by
  have defined {name : String} (h : ∃ p ∈ rules, p.lhs = name) : ∃ p ∈ rules', p.lhs = name := by
    obtain ⟨p, inside, lhs⟩ := h
    exact ⟨p, same.mem_iff.2 inside, lhs⟩
  refine ⟨defined complete.start, ?_⟩
  intro p inside name used kind
  exact defined (complete.used p (same.mem_iff.1 inside) name used kind)

theorem Writes.definesIff (written : d.Writes rules) (stands : d.symbols.Stands x name) :
    d.defines x = true ↔ ∃ p ∈ rules, p.lhs = name := by
  simp only [defines, List.any_eq_true, decide_eq_true_eq]
  constructor
  · rintro ⟨r, listed, rfl⟩
    obtain ⟨p, inside, _, alike⟩ := (forallMem written).1 r listed
    exact ⟨p, inside, alike.lhs.spelled.symm.trans stands.spelled⟩
  · rintro ⟨p, inside, rfl⟩
    obtain ⟨r, listed, _, alike⟩ := (forallMem written).2 p inside
    exact ⟨r, listed, Option.some.inj (alike.lhs.symm.trans stands)⟩

theorem Writes.completeIff (written : d.Writes rules) :
    d.undefined? = none ↔ ∀ p ∈ rules, ∀ name ∈ p.rhs, SymbolKind.ofName? name = some .nonterminal →
      ∃ q ∈ rules, q.lhs = name := by
  simp only [undefined?, List.find?_eq_none, List.mem_flatMap, productions, List.mem_map]
  constructor
  · intro complete p inside name used kind
    obtain ⟨r, listed, _, alike⟩ := (forallMem written).2 p inside
    obtain ⟨x, used', stands⟩ := (forallMem alike.rhs).2 name used
    have defined := complete x ⟨r.production, ⟨r, listed, rfl⟩, used'⟩
    have nonterminal := Symbol.nonterminalIff.2 (Option.some.inj (stands.kind.symm.trans kind))
    exact (written.definesIff stands).1 (by simpa [nonterminal] using defined)
  · rintro complete x ⟨_, ⟨r, listed, rfl⟩, used⟩
    obtain ⟨p, inside, _, alike⟩ := (forallMem written).1 r listed
    obtain ⟨name, used', stands⟩ := (forallMem alike.rhs).1 x used
    cases terminal : isTerminal x with
    | true => simp
    | false =>
      have kind := Symbol.nonterminalIff.1 terminal
      simp [(written.definesIff stands).2 (complete p inside name used' (kind ▸ stands.kind))]

theorem buildOk (start : d.start? = some x) (defined : d.defines x = true) (complete : d.undefined? = none) :
    ∃ g, d.build = .ok g := by
  have some : d.rules.isEmpty = false := by
    obtain ⟨r, listed, _⟩ := List.any_eq_true.1 defined
    rw [List.isEmpty_eq_false_iff]
    exact List.ne_nil_of_mem listed
  simp only [build, some, start, defined, complete]
  exact ⟨_, rfl⟩

theorem Writes.buildIff (written : d.Writes rules) (start : d.start? = some x) (stands : d.symbols.Stands x name) :
    (∃ g, d.build = .ok g) ↔ Complete name rules := by
  constructor
  · rintro ⟨g, finished⟩
    obtain ⟨_, _, _, _, chosen, defined, complete⟩ := buildSource finished
    obtain rfl := Option.some.inj (start.symm.trans chosen)
    exact ⟨(written.definesIff stands).1 defined, written.completeIff.1 complete⟩
  · intro complete
    exact buildOk start ((written.definesIff stands).2 complete.start) (written.completeIff.2 complete.used)

theorem Writes.finished (written : d.Writes rules) (start : d.start? = some x) (stands : d.symbols.Stands x name)
    {g : Grammar} (finished : d.build = .ok g) :
    List.Forall₂ (Production.Alike g.symbols.Stands) g.productions (rules ++ [⟨"$start", [name]⟩]) := by
  obtain ⟨symbols, _, productions, _, chosen, _, _⟩ := buildSource finished
  obtain rfl := Option.some.inj (start.symm.trans chosen)
  rw [productions, symbols]
  refine List.rel_append ?_ (.cons ⟨SymbolTable.lookupReserved.2.2, .cons stands .nil⟩ .nil)
  exact List.forall₂_map_left_iff.2 (written.imp fun _ _ said => said.2)

def run : List DraftCall → Edit Unit
  | [] => pure ()
  | call :: calls => do
    call.edit
    run calls

theorem runCons {call : DraftCall} {calls : List DraftCall} :
    run (call :: calls) d = .ok () d' ↔ ∃ mid, call.edit d = .ok () mid ∧ run calls mid = .ok () d' :=
  answersBind.trans ⟨fun ⟨_, mid, answers⟩ => ⟨mid, answers⟩, fun ⟨mid, answers⟩ => ⟨(), mid, answers⟩⟩

theorem runAppend {calls more : List DraftCall} :
    run (calls ++ more) d = .ok () d' ↔ ∃ mid, run calls d = .ok () mid ∧ run more mid = .ok () d' := by
  induction calls generalizing d with
  | nil =>
    constructor
    · exact fun ran => ⟨d, rfl, ran⟩
    · rintro ⟨mid, start, ran⟩
      cases start
      exact ran
  | cons call calls ih =>
    simp only [List.cons_append, runCons, ih]
    constructor
    · rintro ⟨mid, first, mid', rest, ran⟩
      exact ⟨mid', ⟨mid, first, rest⟩, ran⟩
    · rintro ⟨mid', ⟨mid, first, rest⟩, ran⟩
      exact ⟨mid, first, mid', rest, ran⟩

theorem runFold {calls : List DraftCall} (ran : run calls d = .ok () d') :
    d' = calls.foldl perform d := by
  induction calls generalizing d with
  | nil =>
    cases ran
    rfl
  | cons call calls ih =>
    obtain ⟨mid, first, rest⟩ := runCons.1 ran
    rw [List.foldl_cons, show d.perform call = mid by rw [perform, first]]
    exact ih rest

def listing (start : String) (rules : List (Production String)) : List DraftCall :=
  rules.map (fun p => .declare p.lhs p.rhs) ++ [.setStart start]

theorem declaresSource {before : List (Production String)} (written : d.Writes before)
    (ran : run (rules.map fun p => .declare p.lhs p.rhs) d = .ok () d') :
    (∀ p ∈ rules, p.WellSpelled) ∧ d'.Writes (before ++ rules) := by
  induction rules generalizing d before with
  | nil =>
    cases ran
    exact ⟨nofun, by rwa [List.append_nil]⟩
  | cons p rules ih =>
    obtain ⟨mid, first, rest⟩ := runCons.1 ran
    obtain ⟨id, declared⟩ := answersDiscard.1 first
    obtain ⟨spelled, after⟩ := ih (written.declare declared) rest
    refine ⟨List.forall_mem_cons.2 ⟨(declareSource declared).1, spelled⟩, ?_⟩
    rwa [List.append_assoc] at after

theorem declaresOk (spelled : ∀ p ∈ rules, p.WellSpelled) (d : Draft) :
    ∃ d', run (rules.map fun p => .declare p.lhs p.rhs) d = .ok () d' := by
  induction rules generalizing d with
  | nil => exact ⟨d, rfl⟩
  | cons p rules ih =>
    obtain ⟨here, later⟩ := List.forall_mem_cons.1 spelled
    obtain ⟨id, mid, declared⟩ := declareOk here d
    obtain ⟨d', rest⟩ := ih later mid
    exact ⟨d', runCons.2 ⟨mid, answersDiscard.2 ⟨id, declared⟩, rest⟩⟩

theorem listingSource {start : String} (ran : run (listing start rules) .empty = .ok () d) :
    (∀ p ∈ rules, p.WellSpelled) ∧ Nameable .nonterminal start ∧ d.Writes rules ∧
      ∃ x, d.start? = some x ∧ d.symbols.Stands x start := by
  obtain ⟨mid, first, last⟩ := runAppend.1 ran
  obtain ⟨spelled, written⟩ := declaresSource writesEmpty first
  obtain ⟨_, chosen, done⟩ := runCons.1 last
  cases done
  obtain ⟨x, chosen⟩ := answersDiscard.1 chosen
  obtain ⟨nameable, mid', learns, stands, rfl⟩ := setStartSource chosen
  have written' : mid'.Writes rules := written.learns learns
  exact ⟨spelled, nameable, written', x, rfl, stands⟩

theorem listingOk {start : String} (spelled : ∀ p ∈ rules, p.WellSpelled) (nameable : Nameable .nonterminal start) :
    ∃ d, run (listing start rules) .empty = .ok () d := by
  obtain ⟨mid, first⟩ := declaresOk spelled .empty
  obtain ⟨x, d, chosen⟩ := setStartOk nameable mid
  exact ⟨d, runAppend.2 ⟨mid, first, runCons.2 ⟨d, answersDiscard.2 ⟨x, chosen⟩, rfl⟩⟩⟩

end Draft

namespace Grammar
variable {g : Grammar} {start : String} {rules : List (Production String)}

/-- The grammar of these rules and this start symbol: every call answers, and the draft is finished. -/
def Listed (start : String) (rules : List (Production String)) (g : Grammar) : Prop :=
  ∃ d, Draft.run (Draft.listing start rules) .empty = .ok () d ∧ d.build = .ok g

theorem Listed.built (listed : g.Listed start rules) : g.Built := by
  obtain ⟨d, ran, finished⟩ := listed
  exact ⟨_, Draft.runFold ran ▸ finished⟩

theorem Listed.productions (listed : g.Listed start rules) :
    List.Forall₂ (Production.Alike g.symbols.Stands) g.productions (rules ++ [⟨"$start", [start]⟩]) := by
  obtain ⟨d, ran, finished⟩ := listed
  obtain ⟨_, _, written, x, chosen, stands⟩ := Draft.listingSource ran
  exact written.finished chosen stands finished

theorem listedIff : (∃ g, Listed start rules g) ↔
    (∀ p ∈ rules, p.WellSpelled) ∧ Nameable .nonterminal start ∧ Draft.Complete start rules := by
  constructor
  · rintro ⟨g, d, ran, finished⟩
    obtain ⟨spelled, nameable, written, x, chosen, stands⟩ := Draft.listingSource ran
    exact ⟨spelled, nameable, (written.buildIff chosen stands).1 ⟨g, finished⟩⟩
  · rintro ⟨spelled, nameable, complete⟩
    obtain ⟨d, ran⟩ := Draft.listingOk spelled nameable
    obtain ⟨_, _, written, x, chosen, stands⟩ := Draft.listingSource ran
    obtain ⟨g, finished⟩ := (written.buildIff chosen stands).2 complete
    exact ⟨g, d, ran, finished⟩

theorem Listed.anyOrder (listed : g.Listed start rules) {rules' : List (Production String)}
    (same : rules'.Perm rules) : ∃ h, Listed start rules' h := by
  obtain ⟨spelled, nameable, complete⟩ := listedIff.1 ⟨g, listed⟩
  exact listedIff.2 ⟨fun p inside => spelled p (same.mem_iff.1 inside), nameable, complete.perm same⟩

end Grammar
end ForkingLR
