import ForkingLR.Cfg.Analysis
import ForkingLR.Proofs.Grammar.Tracing

/-! What a call leaves behind when it fails. An edit takes in its names and makes its tests before it changes
anything else, so that a call which fails has at most taught the draft new names. Where a right-hand side is
expanded, the helpers of the terms before the failing one stay too, each of them whole. -/
namespace ForkingLR

theorem HelperKey.rulesHelper {key : HelperKey} {x y : Symbol} :
    ∀ r ∈ key.rules x y, ∃ role, r.origin = .helper role := by
  unfold rules
  cases key.op <;> simp

structure Synthesis where
  key : HelperKey
  symbol : Symbol
  inner : Symbol

namespace Synthesis

def rules (s : Synthesis) : List Rule := s.key.rules s.symbol s.inner

def entry (s : Synthesis) : HelperKey × Symbol := (s.key, s.symbol)

theorem rulesSynthesised (made : List Synthesis) : ∀ r ∈ made.flatMap rules, ∃ role, r.origin = .helper role := by
  intro r inside
  obtain ⟨s, _, inside⟩ := List.mem_flatMap.1 inside
  exact s.key.rulesHelper r inside

end Synthesis

namespace Draft
variable {d d' d'' : Draft} {made more : List Synthesis} {key : HelperKey} {x inner : Symbol}

/-- More names, and new helpers with both of their rules; otherwise the draft is as it was. A helper is
recorded before its rules are written, so a list stands before the nonempty list in it, but its rules after. -/
structure Gathers (d : Draft) (made : List Synthesis) (d' : Draft) : Prop where
  within : d.symbols.Within d'.symbols
  rules : d'.rules = d.rules ++ made.flatMap Synthesis.rules
  helpers : ∃ entries, d'.helpers = d.helpers ++ entries ∧ entries.Perm (made.map Synthesis.entry)
  nested : ∀ s ∈ made, s.key.op = .list → (s.key.nonempty, s.inner) ∈ d'.helpers
  fresh : ∀ s ∈ made, d.symbols.size ≤ s.symbol.key
  precedence : d'.precedence = d.precedence
  declaredStart : d'.declaredStart = d.declaredStart

namespace Gathers

theorem learns (learns : d.Learns d') : d.Gathers [] d' := by
  obtain ⟨symbols, within, rfl⟩ := learns
  exact ⟨within, by simp, ⟨[], by simp, .refl _⟩, nofun, nofun, rfl, rfl⟩

theorem trans (first : d.Gathers made d') (second : d'.Gathers more d'') : d.Gathers (made ++ more) d'' := by
  obtain ⟨entries, before, same⟩ := first.helpers
  obtain ⟨entries', after, same'⟩ := second.helpers
  refine ⟨first.within.trans second.within, ?_, ⟨entries ++ entries', ?_, ?_⟩, ?_, ?_, ?_, ?_⟩
  · rw [second.rules, first.rules, List.flatMap_append, List.append_assoc]
  · rw [after, before, List.append_assoc]
  · rw [List.map_append]
    exact same.append same'
  · refine List.forall_mem_append.2 ⟨fun s inside list => ?_, second.nested⟩
    rw [after]
    exact List.mem_append_left _ (first.nested s inside list)
  · refine List.forall_mem_append.2 ⟨first.fresh, fun s inside => ?_⟩
    exact Nat.le_trans (sizeWithin first.within) (second.fresh s inside)
  · exact second.precedence.trans first.precedence
  · exact second.declaredStart.trans first.declaredStart

theorem appends (gathers : d.Gathers made d') : d.rules <+: d'.rules := by
  rw [gathers.rules]
  exact List.prefix_append _ _

theorem synthesised (gathers : d.Gathers made d') {id : Nat} {r : Rule} (later : d.size ≤ id)
    (found : d'.rules[id]? = some r) : ∃ role, r.origin = .helper role := by
  rw [gathers.rules, List.getElem?_append_right later] at found
  exact Synthesis.rulesSynthesised made r (List.mem_of_getElem? found)

theorem declared (gathers : d.Gathers made d') :
    (d'.rules.filter fun r => r.origin = .declared) = d.rules.filter fun r => r.origin = .declared := by
  have none : ((made.flatMap Synthesis.rules).filter fun r => r.origin = .declared) = [] := by
    refine List.filter_eq_nil_iff.2 fun r inside => ?_
    obtain ⟨role, origin⟩ := Synthesis.rulesSynthesised made r inside
    simp [origin]
  rw [gathers.rules, List.filter_append, none, List.append_nil]

theorem start (gathers : d.Gathers made d') : d'.start? = d.start? := by
  rw [start?, start?, gathers.declaredStart, ← List.head?_filter, ← List.head?_filter, gathers.declared]

end Gathers

def Gathered (d d' : Draft) : Prop := ∃ made, d.Gathers made d'

theorem Gathered.learns (learns : d.Learns d') : d.Gathered d' := ⟨[], .learns learns⟩

theorem Gathered.refl (d : Draft) : d.Gathered d := .learns (.refl d)

theorem Gathered.trans (first : d.Gathered d') (second : d'.Gathered d'') : d.Gathered d'' := by
  obtain ⟨made, here⟩ := first
  obtain ⟨more, there⟩ := second
  exact ⟨made ++ more, here.trans there⟩

theorem Enters.gathers (enters : d.Enters key x d') (rest : d'.Gathers made d'')
    (nested : key.op = .list → (key.nonempty, inner) ∈ d''.helpers) :
    d.Gathers (made ++ [⟨key, x, inner⟩]) { d'' with rules := d''.rules ++ key.rules x inner } := by
  obtain ⟨mid, ⟨symbols, within, rfl⟩, rfl⟩ := enters.learns
  obtain ⟨entries, listed, same⟩ := rest.helpers
  refine ⟨within.trans rest.within, ?_, ⟨(key, x) :: entries, ?_, ?_⟩, ?_, ?_, rest.precedence, rest.declaredStart⟩
  · simp [rest.rules, Synthesis.rules]
  · simp [listed]
  · rw [List.map_append]
    exact (List.perm_append_singleton _ _).symm.trans (same.append_right _)
  · exact List.forall_mem_append.2 ⟨rest.nested, List.forall_mem_singleton.2 nested⟩
  · refine List.forall_mem_append.2 ⟨fun s inside => ?_, List.forall_mem_singleton.2 ?_⟩
    · exact Nat.le_trans (sizeWithin within) (rest.fresh s inside)
    · exact Nat.le_of_eq enters.fresh.1.symm

theorem nonemptyRecorded {base : Symbol} {separator : Option Symbol} (h : nonemptyList base separator d = .ok x d') :
    (⟨.nonemptyList, base, separator⟩, x) ∈ d'.helpers := by
  rcases helperSource h with ⟨found, rfl⟩ | ⟨mid, enters, defined⟩
  · exact memOfLookup found
  · cases (nonemptyPushes x mid).symm.trans defined
    exact (enters.answers (.refl mid)).recorded

theorem helperGathers {define : Symbol → Edit Unit}
    (pushes : ∀ x d, define x d = .ok () { d with rules := d.rules ++ key.rules x inner })
    (plain : key.op ≠ .list) (h : helper key define d = .ok x d') : d.Gathered d' := by
  rcases helperSource h with ⟨_, rfl⟩ | ⟨mid, enters, defined⟩
  · exact .refl _
  · cases (pushes x mid).symm.trans defined
    exact ⟨_, enters.gathers (.learns (.refl mid)) fun list => absurd list plain⟩

theorem requestGathers {r : HelperRequest} (h : r.edit d = .ok x d') : d.Gathered d' := by
  cases r with
  | optional base => exact helperGathers optionalPushes nofun h
  | nonemptyList base separator => exact helperGathers nonemptyPushes nofun h
  | list base separator =>
    rcases helperSource h with ⟨_, rfl⟩ | ⟨mid, enters, defined⟩
    · exact .refl _
    · obtain ⟨inner, last, nested, rfl⟩ := listSource defined
      obtain ⟨made, gathers⟩ := helperGathers nonemptyPushes nofun nested
      exact ⟨_, enters.gathers gathers fun _ => nonemptyRecorded nested⟩

theorem learnsLearn (d : Draft) {mid : Draft} {symbols : SymbolTable} (within : mid.symbols.Within symbols)
    (learns : d.Learns mid) : d.Learns { mid with symbols } := learns.trans ⟨symbols, within, rfl⟩

theorem gathersLearn (d : Draft) {mid : Draft} {symbols : SymbolTable} (within : mid.symbols.Within symbols)
    (gathered : d.Gathered mid) : d.Gathered { mid with symbols } := gathered.trans (.learns ⟨symbols, within, rfl⟩)

theorem gathersRequest (d : Draft) (r : HelperRequest) : r.edit.Keeps d.Gathered fun _ => True := by
  intro mid gathered
  cases result : r.edit mid with
  | ok x d' => exact ⟨gathered.trans (requestGathers result), trivial⟩
  | error e d' => exact gathered.trans (.learns (requestFails result))

theorem gathersTerm (d : Draft) (term : Rhs.Term) : (expandTerm term).Keeps d.Gathered fun _ => True := by
  refine Edit.keepsBind (keepsIntern (gathersLearn d) term.name) fun base _ => ?_
  split
  · exact Edit.keepsPure trivial
  · exact gathersRequest d (.optional base)
  · exact gathersRequest d (.list base none)
  · exact gathersRequest d (.nonemptyList base none)

theorem gathersExpand (d : Draft) (expression : String) :
    (expand expression).Keeps d.Gathered fun _ => True := by
  unfold expand
  split
  · exact Edit.keepsThrow _ _
  · exact Edit.keepsBind (Edit.keepsMapM _ (gathersTerm d) _) fun _ _ => Edit.keepsPure trivial

end Draft

namespace Edit
variable {α β : Type} {R : Draft → Draft → Prop}

def Fails (R : Draft → Draft → Prop) (edit : Edit α) : Prop := ∀ d e d', edit d = .error e d' → R d d'

def Refuses {ε σ : Type} (edit : EStateM ε σ α) (d : σ) (e : ε) (P : σ → Prop) : Prop :=
  ∃ d', edit d = .error e d' ∧ P d'

instance {ε σ : Type} [DecidableEq ε] (edit : EStateM ε σ α) (d : σ) (e : ε) (P : σ → Prop) [DecidablePred P] :
    Decidable (Refuses edit d e P) :=
  match failed : edit d with
  | .ok _ _ => .isFalse fun ⟨_, refused, _⟩ => by cases failed.symm.trans refused
  | .error e' d' =>
    if here : e' = e ∧ P d' then .isTrue ⟨d', here.1 ▸ failed, here.2⟩
    else .isFalse fun ⟨_, refused, holds⟩ => by
      cases failed.symm.trans refused
      exact here ⟨rfl, holds⟩

def Sure (edit : Edit α) : Prop := ∀ d, ∃ a d', edit d = .ok a d'

theorem sureBind {x : Edit α} {f : α → Edit β} (first : Sure x) (second : ∀ a, Sure (f a)) : Sure (x >>= f) := by
  intro d
  obtain ⟨a, mid, here⟩ := first d
  obtain ⟨b, d', there⟩ := second a mid
  exact ⟨b, d', answersBind.2 ⟨a, mid, here, there⟩⟩

theorem sureFails {edit : Edit α} (sure : Sure edit) : Fails R edit := by
  intro d e d' failed
  obtain ⟨a, mid, answered⟩ := sure d
  cases answered.symm.trans failed

theorem failsThen {x : Edit α} {f : α → Edit β} (first : Fails R x) (second : ∀ a, Sure (f a)) :
    Fails R (x >>= f) := by
  intro d e d' failed
  rcases failsBind.1 failed with failed | ⟨a, mid, _, failed⟩
  · exact first d e d' failed
  · obtain ⟨b, last, answered⟩ := second a mid
    cases answered.symm.trans failed

theorem failsDiscard {x : Edit α} (h : Fails R x) : Fails R (discard x) := by
  rw [discardBind]
  exact failsThen h fun _ d => ⟨(), d, rfl⟩

variable (refl : ∀ d, R d d)
include refl

theorem failsThrow (error : GrammarError) : Fails R (throw error : Edit α) := by
  intro d e d' failed
  cases failed
  exact refl d

theorem failsKept {Answer : Draft → α → Prop} {edit : Edit α} (keeps : ∀ d, Keeps (R d) edit (Answer d)) :
    Fails R edit := by
  intro d e d' failed
  have kept := keeps d d (refl d)
  rw [failed] at kept
  exact kept

variable (trans : ∀ {d d' d''}, R d d' → R d' d'' → R d d'')
include trans

theorem failsAfter {Answer : Draft → α → Prop} {x : Edit α} {f : α → Edit β}
    (first : ∀ d, Keeps (R d) x (Answer d)) (second : ∀ a, Fails R (f a)) : Fails R (x >>= f) := by
  intro d e d' failed
  rcases failsBind.1 failed with failed | ⟨a, mid, answered, failed⟩
  · exact failsKept refl first d e d' failed
  · have kept := first d d (refl d)
    rw [answered] at kept
    exact trans kept.1 (second a mid e d' failed)

end Edit

def DraftCall.Expands : DraftCall → Prop
  | .declareRule _ _ => True
  | .expand _ => True
  | _ => False

namespace Draft
open Edit (failsBind failsThen failsDiscard failsThrow failsKept failsAfter sureBind sureFails)
variable {d d' : Draft}

section
variable {R : Draft → Draft → Prop} (refl : ∀ d, R d d)
include refl

theorem failsDeclareSymbols (lhs : Symbol) (rhs : List Symbol) : (declareSymbols lhs rhs).Fails R := by
  intro d e d' failed
  unfold declareSymbols at failed
  split at failed
  · cases failed
    exact refl d
  · cases failed

end

theorem surePushTwo (lhs : Symbol) (one two : List Symbol) (first second : Origin) :
    Edit.Sure (do discard (push lhs one first); discard (push lhs two second)) := fun _ => ⟨_, _, pushTwo⟩

theorem sureDefinition {define : Edit Unit} (sure : define.Sure) (lhs : Symbol) :
    Edit.Sure (do define; pure lhs) := sureBind sure fun _ d => ⟨lhs, d, rfl⟩

theorem failsRequest (r : HelperRequest) : r.edit.Fails Learns := fun _ _ _ => requestFails

theorem failsSetStart (name : String) : (setStart name).Fails Learns := by
  intro d e d' failed
  unfold setStart at failed
  split at failed
  · rename_i x mid interned
    split at failed
    · cases failed
      exact (internSource interned).2.1
    · cases failed
  · rename_i mid refused
    cases failed
    exact internFails refused

theorem failsSetProductionPrecedence (id : Nat) (terminal : String) :
    (setProductionPrecedence id terminal).Fails Learns := by
  refine failsAfter .refl .trans (fun _ => Edit.keepsGet) fun d => ?_
  have rest : Edit.Fails Learns (do
      let symbol ← internTerminal terminal
      modify fun d => { d with precedence := d.precedence.override id symbol }) :=
    failsThen (failsKept .refl fun d => keepsInternTerminal (learnsLearn d) terminal) fun _ _ => ⟨_, _, rfl⟩
  split
  · exact failsAfter .refl .trans (fun _ => Edit.keepsThrow (fun _ => True) _) fun _ => rest
  · exact rest

theorem failsDeclarePrecedence (assoc : Associativity) (terminals : List String) :
    (declarePrecedence assoc terminals).Fails Learns := by
  refine failsAfter .refl .trans (fun d => Edit.keepsMapM _ (keepsInternTerminal (learnsLearn d)) terminals)
    fun symbols => ?_
  refine failsAfter .refl .trans (fun _ => Edit.keepsGet) fun d => ?_
  split
  · exact sureFails fun _ => ⟨_, _, rfl⟩
  · exact failsThrow .refl _

theorem failsCall {call : DraftCall} (plain : ¬ call.Expands) : call.edit.Fails Learns := by
  -- Names are taken in first; what comes after them fails at once or not at all.
  have fresh (name : String) (d : Draft) := keepsFreshDefinition (learnsLearn d) name
  have interns (name : String) (d : Draft) := keepsIntern (learnsLearn d) name
  have separates (separator : Option String) (d : Draft) := keepsInternSeparator (learnsLearn d) separator
  cases call with
  | intern name => exact failsDiscard (failsKept .refl (interns name))
  | internNonterminal name =>
    exact failsDiscard (failsKept .refl fun d => keepsInternNonterminal (learnsLearn d) name)
  | declare lhs rhs =>
    refine failsDiscard (failsAfter .refl .trans (fun d => keepsInternNonterminal (learnsLearn d) lhs) fun lhs => ?_)
    refine failsThen (failsKept .refl fun d => Edit.keepsMapM _ (keepsIntern (learnsLearn d)) rhs) fun rhs d => ?_
    exact ⟨_, _, rfl⟩
  | declareSymbols lhs rhs => exact failsDiscard (failsDeclareSymbols .refl lhs rhs)
  | declareRule lhs expression => exact absurd trivial plain
  | setStart name => exact failsDiscard (failsSetStart name)
  | declarePrecedence assoc terminals => exact failsDiscard (failsDeclarePrecedence assoc terminals)
  | setProductionPrecedence id terminal => exact failsSetProductionPrecedence id terminal
  | optional base => exact failsDiscard (failsRequest (.optional base))
  | list base separator => exact failsDiscard (failsRequest (.list base separator))
  | nonemptyList base separator => exact failsDiscard (failsRequest (.nonemptyList base separator))
  | defineOptional name base =>
    refine failsDiscard (failsAfter .refl .trans (fresh name) fun lhs => ?_)
    exact failsThen (failsKept .refl (interns base)) fun base => sureDefinition (surePushTwo lhs _ _ _ _) lhs
  | defineList name base separator =>
    refine failsDiscard (failsAfter .refl .trans (fresh name) fun lhs => ?_)
    refine failsAfter .refl .trans (interns base) fun base => ?_
    refine failsAfter .refl .trans (separates separator) fun separator => ?_
    exact failsThen (failsRequest (.nonemptyList base separator)) fun inner =>
      sureDefinition (surePushTwo lhs _ _ _ _) lhs
  | defineNonemptyList name base separator =>
    refine failsDiscard (failsAfter .refl .trans (fresh name) fun lhs => ?_)
    refine failsAfter .refl .trans (interns base) fun base => ?_
    exact failsThen (failsKept .refl (separates separator)) fun separator =>
      sureDefinition (surePushTwo lhs _ _ _ _) lhs
  | expand expression => exact absurd trivial plain

theorem failsExpansion (call : DraftCall) : call.edit.Fails Gathered := by
  by_cases expands : call.Expands
  · cases call with
    | declareRule lhs expression =>
      refine failsDiscard (failsAfter .refl .trans (fun d => keepsInternNonterminal (gathersLearn d) lhs) fun lhs => ?_)
      exact failsAfter .refl .trans (fun d => gathersExpand d expression) fun _ => failsDeclareSymbols .refl lhs _
    | expand expression => exact failsDiscard (failsKept .refl fun d => gathersExpand d expression)
    | _ => exact expands.elim
  · exact fun d e d' failed => .learns (failsCall expands d e d' failed)

structure Retains (d d' : Draft) : Prop where
  productions : d'.productions = d.productions
  origins : ∀ id, d'.origin? id = d.origin? id
  helpers : d'.helpers = d.helpers
  lastLevel : d'.precedence.lastLevel = d.precedence.lastLevel
  levels : d'.precedence.terminals = d.precedence.terminals
  overrides : d'.precedence.overrides = d.precedence.overrides
  declaredStart : d'.declaredStart = d.declaredStart
  start : d'.start? = d.start?
  nullable : ∀ x, d'.cfg.nullable x = d.cfg.nullable x
  first : ∀ xs, d'.cfg.first xs = d.cfg.first xs
  follow : ∀ x, d'.cfg.follow x = d.cfg.follow x
  names : d.symbols.names.entries <+: d'.symbols.names.entries

theorem Learns.retains (learns : d.Learns d') : d.Retains d' := by
  obtain ⟨symbols, within, rfl⟩ := learns
  exact ⟨rfl, fun _ => rfl, rfl, rfl, rfl, rfl, rfl, rfl, fun _ => rfl, fun _ => rfl, fun _ => rfl, within⟩

theorem failureContained {call : DraftCall} {e : GrammarError} (failed : call.edit d = .error e d') :
    (¬ call.Expands → d.Retains d') ∧ ∃ made, d.Gathers made d' ∧ d'.start? = d.start? := by
  refine ⟨fun plain => (failsCall plain d e d' failed).retains, ?_⟩
  obtain ⟨made, gathers⟩ := failsExpansion call d e d' failed
  exact ⟨made, gathers, gathers.start⟩

def gradedSumCalls : List DraftCall :=
  [.declarePrecedence .left ["PLUS"], .declareRule "e" "e PLUS e", .declareRule "e" "N+"]

theorem refusalsContained : ∃ d' d'',
    (DraftCall.declarePrecedence .right ["TIMES", "PLUS"]).edit (ofCalls gradedSumCalls) =
        .error (.precedenceRedeclared "PLUS") d' ∧
      (ofCalls gradedSumCalls).Retains d' ∧
      (DraftCall.expand "WORD* N+ Word").edit (ofCalls gradedSumCalls) = .error (.invalidSymbol "Word") d'' ∧
      ∃ made, (ofCalls gradedSumCalls).Gathers made d'' ∧ d''.start? = (ofCalls gradedSumCalls).start? := by
  have redeclared : Edit.Refuses (DraftCall.declarePrecedence .right ["TIMES", "PLUS"]).edit (ofCalls gradedSumCalls)
      (.precedenceRedeclared "PLUS") fun _ => True := by decide +kernel
  have misspelled : Edit.Refuses (DraftCall.expand "WORD* N+ Word").edit (ofCalls gradedSumCalls)
      (.invalidSymbol "Word") fun _ => True := by decide +kernel
  obtain ⟨d', failed, _⟩ := redeclared
  obtain ⟨d'', failed', _⟩ := misspelled
  exact ⟨d', d'', failed, (failureContained failed).1 not_false, failed', (failureContained failed').2⟩

end Draft
end ForkingLR
