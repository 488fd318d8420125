import ForkingLR.Proofs.Grammar.Spelling

/-! Requests for helpers. A helper is entered under a name that was free, and then defined; what is entered
stays. Between the two steps a list asks for the nonempty list of the same operands, which cannot be refused
once the list itself has a name. -/
namespace ForkingLR

inductive HelperRequest where
  | optional (base : Symbol)
  | list (base : Symbol) (separator : Option Symbol)
  | nonemptyList (base : Symbol) (separator : Option Symbol)
  deriving DecidableEq, Repr

namespace HelperRequest

def key : HelperRequest → HelperKey
  | .optional base => ⟨.optional, base, none⟩
  | .list base separator => ⟨.list, base, separator⟩
  | .nonemptyList base separator => ⟨.nonemptyList, base, separator⟩

def edit : HelperRequest → Edit Symbol
  | .optional base => Draft.optional base
  | .list base separator => Draft.list base separator
  | .nonemptyList base separator => Draft.nonemptyList base separator

def ofOperator : Operator → Symbol → HelperRequest
  | .optional, base => .optional base
  | .list, base => .list base none
  | .nonemptyList, base => .nonemptyList base none

theorem keyInjective {r s : HelperRequest} (same : r.key = s.key) : r = s := by
  cases r <;> cases s <;> simp_all [key]

end HelperRequest

namespace HelperKey

def rules (key : HelperKey) (lhs nonempty : Symbol) : List Rule :=
  match key.op with
  | .optional => [⟨⟨lhs, []⟩, .helper .optionalEmpty⟩, ⟨⟨lhs, [key.base]⟩, .helper .optionalPresent⟩]
  | .list => [⟨⟨lhs, []⟩, .helper .listEmpty⟩, ⟨⟨lhs, [nonempty]⟩, .helper .listNonempty⟩]
  | .nonemptyList => [⟨⟨lhs, [key.base]⟩, .helper .nonemptySingle⟩,
      ⟨⟨lhs, key.base :: key.separator.toList ++ [lhs]⟩, .helper (.nonemptyCons key.separator.isSome)⟩]

def nonempty (key : HelperKey) : HelperKey := { key with op := .nonemptyList }

theorem rulesOwn {key : HelperKey} {x y : Symbol} :
    ∀ r ∈ key.rules x y, r.production.lhs = x ∧ r.origin ≠ .declared := by
  unfold rules
  cases key.op <;> simp

theorem rulesSome (key : HelperKey) (lhs inner : Symbol) : key.rules lhs inner ≠ [] := by
  unfold rules
  cases key.op <;> simp

end HelperKey

namespace Draft
open Edit (answersBind failsBind)
variable {d d' d'' : Draft} {key : HelperKey} {x : Symbol}

def given (d : Draft) (x : Symbol) : List Rule :=
  d.rules.filter fun r => r.production.lhs = x ∧ r.origin ≠ .declared

theorem givenOther {rules : List Rule} (own : ∀ r ∈ rules, r.production.lhs = x) {y : Symbol} (different : y ≠ x) :
    ({ d with rules := d.rules ++ rules } : Draft).given y = d.given y := by
  have none : (rules.filter fun r => r.production.lhs = y ∧ r.origin ≠ .declared) = [] := by
    refine List.filter_eq_nil_iff.2 fun r listed said => ?_
    exact different ((of_decide_eq_true said).1.symm.trans (own r listed))
  rw [given, List.filter_append, none, List.append_nil]
  rfl

def Holds (d : Draft) (key : HelperKey) (x : Symbol) : Prop :=
  ∃ inner, d.given x = key.rules x inner ∧ (key.op = .list → (key.nonempty, inner) ∈ d.helpers)

theorem Holds.ruled (holds : d.Holds key x) : ∃ r ∈ d.rules, r.production.lhs = x := by
  obtain ⟨inner, rules, _⟩ := holds
  obtain ⟨r, inside⟩ := List.exists_mem_of_ne_nil _ (key.rulesSome x inner)
  rw [← rules] at inside
  obtain ⟨listed, said⟩ := List.mem_filter.1 inside
  exact ⟨r, listed, (of_decide_eq_true said).1⟩

/-- The helpers in order: one symbol for each key, named, and defined but for those that are pending. -/
structure Filed (d : Draft) (pending : List Symbol) : Prop where
  keys : (d.helpers.map Prod.fst).Nodup
  symbols : (d.helpers.map fun e => e.2.key).Nodup
  named : ∀ e ∈ d.helpers, e.2.key < d.symbols.size
  bounded : ∀ r ∈ d.rules, r.origin ≠ .declared → r.production.lhs.key < d.symbols.size
  waiting : ∀ x ∈ pending, x.key < d.symbols.size ∧ d.given x = []
  defined : ∀ e ∈ d.helpers, e.2 ∉ pending → d.Holds e.1 e.2

structure Grows (d d' : Draft) : Prop where
  within : d.symbols.Within d'.symbols
  helpers : d.helpers <+: d'.helpers
  fresh : ∀ e ∈ d'.helpers, e ∈ d.helpers ∨ d.symbols.size ≤ e.2.key

theorem sizeWithin {t t' : SymbolTable} (within : t.Within t') : t.size ≤ t'.size :=
  List.IsPrefix.length_le within

namespace Grows

theorem refl (d : Draft) : d.Grows d := ⟨List.prefix_rfl, List.prefix_rfl, fun _ => .inl⟩

theorem trans (first : d.Grows d') (second : d'.Grows d'') : d.Grows d'' := by
  refine ⟨first.within.trans second.within, first.helpers.trans second.helpers, ?_⟩
  intro e listed
  rcases second.fresh e listed with listed | above
  · exact first.fresh e listed
  · exact .inr (Nat.le_trans (sizeWithin first.within) above)

theorem learns (learns : d.Learns d') : d.Grows d' := by
  obtain ⟨symbols, within, rfl⟩ := learns
  exact ⟨within, List.prefix_rfl, fun _ => .inl⟩

theorem lookup (grows : d.Grows d') (found : d.helpers.lookup key = some x) :
    d'.helpers.lookup key = some x := by
  obtain ⟨rest, shape⟩ := grows.helpers
  rw [← shape, List.lookup_append, found]
  rfl

end Grows

theorem memOfLookup (found : d.helpers.lookup key = some x) : (key, x) ∈ d.helpers := by
  obtain ⟨front, back, shape, _⟩ := List.lookup_eq_some_iff.1 found
  simp [shape]

theorem keyOfLookup (missing : d.helpers.lookup key = none) : key ∉ d.helpers.map Prod.fst := by
  rw [List.lookup_eq_none_iff] at missing
  intro listed
  obtain ⟨e, inside, rfl⟩ := List.mem_map.1 listed
  simpa using missing e inside

theorem internFresh {name : String} (h : intern name d = .ok x d') (free : name ∉ d.symbols.names.entries) :
    x.key = d.symbols.size ∧ d'.symbols.size = d.symbols.size + 1 := by
  unfold intern onSymbols SymbolTable.intern at h
  split at h
  · rename_i y symbols interned
    cases h
    split at interned
    · cases interned
    · split at interned
      · cases interned
      · cases interned
        simp [SymbolTable.add, SymbolTable.size, Interner.intern, free, Interner.size]
  · cases h

theorem internFails {name : String} {e : GrammarError} (h : intern name d = .error e d') : d.Learns d' := by
  unfold intern onSymbols at h
  split at h
  · cases h
  · rename_i symbols interned
    cases h
    exact ⟨symbols, SymbolTable.internFails interned, rfl⟩

theorem internNonterminalFails {name : String} {e : GrammarError} (h : internNonterminal name d = .error e d') :
    d.Learns d' ∧ ¬ Nameable .nonterminal name := by
  rw [internNonterminalTests] at h
  change EStateM.bind _ _ d = _ at h
  unfold EStateM.bind at h
  cases result : intern name d with
  | error e mid =>
    rw [result] at h
    cases h
    refine ⟨internFails result, fun nameable => ?_⟩
    obtain ⟨x, mid, interned⟩ := internOk nameable d
    cases result.symm.trans interned
  | ok x mid =>
    obtain ⟨nameable, learns, _⟩ := internSource result
    rw [result] at h
    dsimp only at h
    split at h
    · rename_i terminal
      cases h
      refine ⟨learns, fun other => ?_⟩
      have kind := Option.some.inj (nameable.spelled.symm.trans other.spelled)
      cases (Symbol.terminalIff.1 terminal).symm.trans kind
    · cases h

structure Enters (d : Draft) (key : HelperKey) (x : Symbol) (d' : Draft) : Prop where
  missing : d.helpers.lookup key = none
  entered : ∃ mid, intern (d.freshName (d.stem key)) d = .ok x mid ∧ isTerminal x = false ∧
    d' = { mid with helpers := mid.helpers ++ [(key, x)] }

theorem helperKnown {define : Symbol → Edit Unit} (found : d.helpers.lookup key = some x) :
    helper key define d = .ok x d := by
  refine answersBind.2 ⟨d, d, rfl, ?_⟩
  rw [found]
  rfl

theorem helperNew {define : Symbol → Edit Unit} (missing : d.helpers.lookup key = none) :
    helper key define d = match internNonterminal (d.freshName (d.stem key)) d with
      | .error e d' => .error e d'
      | .ok x mid =>
        match define x { mid with helpers := mid.helpers ++ [(key, x)] } with
        | .error e d' => .error e d'
        | .ok _ d' => .ok x d' := by
  have read : (get : Edit Draft) d = .ok d d := rfl
  simp only [helper, bind, EStateM.bind, read, missing]
  cases internNonterminal (d.freshName (d.stem key)) d with
  | error e d' => rfl
  | ok x mid =>
    have filed : (modify fun d => { d with helpers := d.helpers ++ [(key, x)] } : Edit Unit) mid =
        .ok () { mid with helpers := mid.helpers ++ [(key, x)] } := rfl
    simp only [filed]
    cases define x { mid with helpers := mid.helpers ++ [(key, x)] } <;> rfl

theorem helperSource {define : Symbol → Edit Unit} (h : helper key define d = .ok x d') :
    d.helpers.lookup key = some x ∧ d' = d ∨ ∃ mid, d.Enters key x mid ∧ define x mid = .ok () d' := by
  cases found : d.helpers.lookup key with
  | some existing =>
    cases (helperKnown found).symm.trans h
    exact .inl ⟨rfl, rfl⟩
  | none =>
    rw [helperNew found] at h
    split at h
    · cases h
    · rename_i y mid interned
      split at h
      · cases h
      · rename_i defined
        cases h
        obtain ⟨interned, nonterminal⟩ := internNonterminalIff.1 interned
        exact .inr ⟨_, ⟨found, mid, interned, nonterminal, rfl⟩, defined⟩

theorem freshNameable : Nameable .nonterminal (d.freshName (d.stem key)) ↔ d.Spellable key := by
  obtain ⟨n, _, same, _⟩ := freshNameSource d (d.stem key)
  rw [same, helperNameable]

theorem helperFails {define : Symbol → Edit Unit} {e : GrammarError} (h : helper key define d = .error e d') :
    d.Learns d' ∧ ¬ d.Spellable key ∨ ∃ x mid, d.Enters key x mid ∧ define x mid = .error e d' := by
  cases found : d.helpers.lookup key with
  | some existing => cases (helperKnown found).symm.trans h
  | none =>
    rw [helperNew found] at h
    split at h
    · rename_i refused
      cases h
      rw [← freshNameable]
      exact .inl (internNonterminalFails refused)
    · rename_i x mid interned
      split at h
      · rename_i refused
        cases h
        obtain ⟨interned, nonterminal⟩ := internNonterminalIff.1 interned
        exact .inr ⟨x, _, ⟨found, mid, interned, nonterminal, rfl⟩, refused⟩
      · cases h

namespace Enters

theorem fresh (enters : d.Enters key x d') : x.key = d.symbols.size ∧ d'.symbols.size = d.symbols.size + 1 := by
  obtain ⟨_, _, same, free, _⟩ := freshNameSource d (d.stem key)
  obtain ⟨mid, interned, _, rfl⟩ := enters.entered
  have fresh := internFresh interned (same ▸ free)
  exact fresh

theorem learns (enters : d.Enters key x d') :
    ∃ mid, d.Learns mid ∧ d' = { mid with helpers := mid.helpers ++ [(key, x)] } := by
  obtain ⟨mid, interned, _, rfl⟩ := enters.entered
  exact ⟨mid, (internSource interned).2.1, rfl⟩

theorem helpers (enters : d.Enters key x d') : d'.helpers = d.helpers ++ [(key, x)] := by
  obtain ⟨_, ⟨symbols, _, rfl⟩, rfl⟩ := enters.learns
  rfl

theorem within (enters : d.Enters key x d') : d.symbols.Within d'.symbols := by
  obtain ⟨_, ⟨symbols, within, rfl⟩, rfl⟩ := enters.learns
  exact within

theorem rules (enters : d.Enters key x d') : d'.rules = d.rules := by
  obtain ⟨_, ⟨symbols, _, rfl⟩, rfl⟩ := enters.learns
  rfl

theorem spelled (enters : d.Enters key x d') : d'.symbols.Stands x (d.freshName (d.stem key)) := by
  obtain ⟨mid, interned, _, rfl⟩ := enters.entered
  exact (internSource interned).2.2

theorem spellable (enters : d.Enters key x d') : d.Spellable key := by
  obtain ⟨mid, interned, nonterminal, _⟩ := enters.entered
  have nameable := (internSource interned).1
  rw [Symbol.nonterminalIff.1 nonterminal] at nameable
  exact freshNameable.1 nameable

theorem grows (enters : d.Enters key x d') : d.Grows d' := by
  refine ⟨enters.within, ?_, ?_⟩
  · rw [enters.helpers]
    exact List.prefix_append _ _
  · intro e listed
    rw [enters.helpers] at listed
    rcases List.mem_append.1 listed with old | last
    · exact .inl old
    · rw [List.mem_singleton.1 last]
      exact .inr (Nat.le_of_eq enters.fresh.1.symm)

end Enters

namespace Filed
variable {pending : List Symbol}

theorem lookup (filed : d.Filed pending) (listed : (key, x) ∈ d.helpers) : d.helpers.lookup key = some x := by
  obtain ⟨front, back, shape⟩ := List.append_of_mem listed
  refine List.lookup_eq_some_iff.2 ⟨front, back, shape, ?_⟩
  have distinct := filed.keys
  rw [shape, List.map_append, List.map_cons, List.nodup_append] at distinct
  intro e earlier
  have other := distinct.2.2 e.1 (List.mem_map_of_mem earlier) key List.mem_cons_self
  simpa using Ne.symm other

theorem learns (filed : d.Filed pending) (learns : d.Learns d') : d'.Filed pending := by
  obtain ⟨symbols, within, rfl⟩ := learns
  have larger := sizeWithin within
  refine ⟨filed.keys, filed.symbols, ?_, ?_, ?_, filed.defined⟩
  · exact fun e listed => Nat.lt_of_lt_of_le (filed.named e listed) larger
  · exact fun r listed helper => Nat.lt_of_lt_of_le (filed.bounded r listed helper) larger
  · exact fun x waiting => (filed.waiting x waiting).imp_left fun below => Nat.lt_of_lt_of_le below larger

theorem unnamed (filed : d.Filed pending) (new : d.symbols.size ≤ x.key) : d.given x = [] := by
  refine List.filter_eq_nil_iff.2 fun r listed said => ?_
  obtain ⟨rfl, helper⟩ := of_decide_eq_true said
  exact Nat.not_lt.2 new (filed.bounded r listed helper)

theorem enter (filed : d.Filed pending) (enters : d.Enters key x d') : d'.Filed (x :: pending) := by
  obtain ⟨own, larger⟩ := enters.fresh
  have unchanged (y : Symbol) : d'.given y = d.given y := by rw [given, given, enters.rules]
  have member {e : HelperKey × Symbol} (listed : e ∈ d'.helpers) : e ∈ d.helpers ∨ e = (key, x) := by
    simpa [enters.helpers] using listed
  refine ⟨?_, ?_, ?_, ?_, ?_, ?_⟩
  · rw [enters.helpers, List.map_append]
    exact List.nodup_append_comm.1 (List.nodup_cons.2 ⟨keyOfLookup enters.missing, filed.keys⟩)
  · rw [enters.helpers, List.map_append]
    refine List.nodup_append_comm.1 (List.nodup_cons.2 ⟨?_, filed.symbols⟩)
    intro listed
    obtain ⟨e, listed, same⟩ := List.mem_map.1 listed
    exact absurd (same.trans own) (Nat.ne_of_lt (filed.named e listed))
  · intro e listed
    rcases member listed with old | rfl
    · exact larger ▸ Nat.lt_succ_of_lt (filed.named e old)
    · exact larger ▸ own ▸ Nat.lt_succ_self _
  · intro r listed helper
    rw [enters.rules] at listed
    exact larger ▸ Nat.lt_succ_of_lt (filed.bounded r listed helper)
  · intro y waiting
    rw [unchanged]
    rcases List.mem_cons.1 waiting with rfl | waiting
    · exact ⟨larger ▸ own ▸ Nat.lt_succ_self _, filed.unnamed (Nat.le_of_eq own.symm)⟩
    · exact (filed.waiting y waiting).imp_left fun below => larger ▸ Nat.lt_succ_of_lt below
  · intro e listed settled
    rcases member listed with old | rfl
    · obtain ⟨inner, rules, nested⟩ := filed.defined e old fun waiting => settled (List.mem_cons_of_mem _ waiting)
      refine ⟨inner, (unchanged e.2).trans rules, fun list => ?_⟩
      rw [enters.helpers]
      exact List.mem_append_left _ (nested list)
    · exact absurd List.mem_cons_self settled

theorem define (filed : d.Filed (x :: pending)) (last : x ∉ pending) (listed : (key, x) ∈ d.helpers)
    {inner : Symbol} (nested : key.op = .list → (key.nonempty, inner) ∈ d.helpers) :
    ({ d with rules := d.rules ++ key.rules x inner } : Draft).Filed pending := by
  have own := key.rulesOwn (x := x) (y := inner)
  have unchanged {y : Symbol} (different : y ≠ x) :=
    givenOther (d := d) (fun r inside => (own r inside).1) different
  refine ⟨filed.keys, filed.symbols, filed.named, ?_, ?_, ?_⟩
  · intro r inside helper
    rcases List.mem_append.1 inside with old | new
    · exact filed.bounded r old helper
    · rw [(own r new).1]
      exact filed.named (key, x) listed
  · intro y waiting
    rw [unchanged fun same => last (same ▸ waiting)]
    exact filed.waiting y (List.mem_cons_of_mem _ waiting)
  · intro e inside settled
    by_cases here : e.2 = x
    · have same : e = (key, x) :=
        List.inj_on_of_nodup_map filed.symbols inside listed (congrArg Symbol.key here)
      subst same
      refine ⟨inner, ?_, nested⟩
      have all : ((key.rules x inner).filter fun r => r.production.lhs = x ∧ r.origin ≠ .declared) =
          key.rules x inner := List.filter_eq_self.2 fun r new => decide_eq_true (own r new)
      have none := (filed.waiting x List.mem_cons_self).2
      rw [given] at none ⊢
      rw [List.filter_append, none, all]
      rfl
    · obtain ⟨other, rules, nested⟩ := filed.defined e inside fun waiting =>
        (List.mem_cons.1 waiting).elim here settled
      exact ⟨other, (unchanged here).trans rules, nested⟩

end Filed

theorem pushTwo {lhs : Symbol} {one two : List Symbol} {first second : Origin} :
    (do discard (push lhs one first); discard (push lhs two second) : Edit Unit) d =
      .ok () { d with rules := d.rules ++ [⟨⟨lhs, one⟩, first⟩, ⟨⟨lhs, two⟩, second⟩] } := by
  have joined : d.rules ++ [Rule.mk ⟨lhs, one⟩ first] ++ [Rule.mk ⟨lhs, two⟩ second] =
      d.rules ++ [⟨⟨lhs, one⟩, first⟩, ⟨⟨lhs, two⟩, second⟩] := List.append_assoc ..
  rw [← joined]
  rfl

structure Answers (d : Draft) (key : HelperKey) (x : Symbol) (d' : Draft) : Prop where
  grows : d.Grows d'
  recorded : (key, x) ∈ d'.helpers
  spelled : d.helpers.lookup key = none → d'.symbols.Stands x (d.freshName (d.stem key))

theorem Answers.ruled (answers : d.Answers key x d') {rules : List Rule} : d.Answers key x { d' with rules } :=
  ⟨⟨answers.grows.within, answers.grows.helpers, answers.grows.fresh⟩, answers.recorded, answers.spelled⟩

theorem answersKnown (found : d.helpers.lookup key = some x) : d.Answers key x d :=
  ⟨.refl d, memOfLookup found, fun missing => absurd (found.symm.trans missing) nofun⟩

theorem Enters.answers (enters : d.Enters key x d') (grows : d'.Grows d'') : d.Answers key x d'' := by
  have recorded : (key, x) ∈ d'.helpers := by simp [enters.helpers]
  exact ⟨enters.grows.trans grows, grows.helpers.subset recorded, fun _ => enters.spelled.within grows.within⟩

section
variable {define : Symbol → Edit Unit} {inner : Symbol} {pending : List Symbol} {e : GrammarError}
  (pushes : ∀ x d, define x d = .ok () { d with rules := d.rules ++ key.rules x inner })
include pushes

theorem helperAnswers (plain : key.op ≠ .list) (filed : d.Filed pending) (h : helper key define d = .ok x d') :
    d'.Filed pending ∧ d.Answers key x d' := by
  rcases helperSource h with ⟨found, rfl⟩ | ⟨mid, enters, defined⟩
  · exact ⟨filed, answersKnown found⟩
  · cases (pushes x mid).symm.trans defined
    have answers := enters.answers (.refl mid)
    refine ⟨(filed.enter enters).define ?_ answers.recorded fun list => absurd list plain, answers.ruled⟩
    intro waiting
    exact absurd enters.fresh.1 (Nat.ne_of_lt (filed.waiting x waiting).1)

theorem helperRefused (h : helper key define d = .error e d') : d.Learns d' ∧ ¬ d.Spellable key := by
  rcases helperFails h with refused | ⟨x, mid, _, failed⟩
  · exact refused
  · cases (pushes x mid).symm.trans failed

end

variable {base : Symbol} {separator : Option Symbol} {e : GrammarError}

theorem optionalPushes (lhs : Symbol) (d : Draft) : pushOptional lhs base d =
    .ok () { d with rules := d.rules ++ (HelperKey.mk .optional base none).rules lhs base } := pushTwo

theorem nonemptyPushes (lhs : Symbol) (d : Draft) : pushNonempty lhs base separator d =
    .ok () { d with rules := d.rules ++ (HelperKey.mk .nonemptyList base separator).rules lhs base } := pushTwo

theorem listSource {x : Symbol} (h : (nonemptyList base separator >>= pushList x) d = .ok () d') :
    ∃ inner mid, nonemptyList base separator d = .ok inner mid ∧
      d' = { mid with rules := mid.rules ++ (HelperKey.mk .list base separator).rules x inner } := by
  obtain ⟨inner, mid, nested, pushed⟩ := answersBind.1 h
  cases pushTwo.symm.trans pushed
  exact ⟨inner, mid, nested, rfl⟩

theorem listFails {x : Symbol} (h : (nonemptyList base separator >>= pushList x) d = .error e d') :
    ¬ d.Spellable ⟨.nonemptyList, base, separator⟩ := by
  rcases failsBind.1 h with failed | ⟨inner, mid, _, failed⟩
  · exact (helperRefused nonemptyPushes failed).2
  · cases pushTwo.symm.trans failed

theorem requestKnown {r : HelperRequest} (found : d.helpers.lookup r.key = some x) : r.edit d = .ok x d := by
  cases r with
  | optional base => exact helperKnown found
  | list base separator => exact helperKnown found
  | nonemptyList base separator => exact helperKnown found

theorem requestAnswers {r : HelperRequest} (filed : d.Filed []) (h : r.edit d = .ok x d') :
    d'.Filed [] ∧ d.Answers r.key x d' := by
  cases r with
  | optional base => exact helperAnswers optionalPushes nofun filed h
  | nonemptyList base separator => exact helperAnswers nonemptyPushes nofun filed h
  | list base separator =>
    rcases helperSource h with ⟨found, rfl⟩ | ⟨entered, enters, defined⟩
    · exact ⟨filed, answersKnown found⟩
    · obtain ⟨inner, mid, nested, rfl⟩ := listSource defined
      obtain ⟨filed, within⟩ := helperAnswers nonemptyPushes nofun (filed.enter enters) nested
      have answers := enters.answers within.grows
      exact ⟨filed.define List.not_mem_nil answers.recorded fun _ => within.recorded, answers.ruled⟩

theorem requestFails {r : HelperRequest} (h : r.edit d = .error e d') : d.Learns d' := by
  cases r with
  | optional base => exact (helperRefused optionalPushes h).1
  | nonemptyList base separator => exact (helperRefused nonemptyPushes h).1
  | list base separator =>
    rcases helperFails h with ⟨learns, _⟩ | ⟨x, mid, enters, failed⟩
    · exact learns
    · have spellable := enters.spellable
      have nested : mid.Spellable ⟨.nonemptyList, base, separator⟩ :=
        ⟨Nat.lt_of_lt_of_le spellable.base (sizeWithin enters.within), spellable.ordinary⟩
      exact absurd nested (listFails failed)

end Draft
end ForkingLR
