import ForkingLR.Proofs.Engine.Path
import ForkingLR.Proofs.Parser.Clauses
import ForkingLR.Proofs.Rhs

/-! Actions and the productions they belong to. Actions are kept by production number, in a list that only
clauses lengthen, while rules come from helpers, from named lists and from clauses that fail as well. A history
of calls is read as the clauses it has added; between them rules are only appended and actions stay where they
are, so each finished production has the action of the clause that wrote it. -/
namespace ForkingLR

namespace Rhs

def dots (expression : String) : List Bool :=
  (Text.words expression.toList).map fun word => word.head? == some '.'

def mask (expression : String) : Option (List Bool) :=
  if (dots expression).any id then some (dots expression) else none

def handed {V : Type} (expression : String) (values : List V) : List V :=
  if (dots expression).any id then
    (List.range values.length).filterMap fun i => if (dots expression)[i]? = some true then values[i]? else none
  else values

theorem ofWordsDots {expression : String} {words : List (List Char)} {terms : List Term}
    (h : ofWords expression words = .ok terms) :
    terms.map Term.selected = words.map fun word => word.head? == some '.' := by
  have all := ofWordsOk.1 h
  clear h
  induction all with
  | nil => rfl
  | cons first _ ih => rw [List.map_cons, List.map_cons, first.selected, ih]

theorem selectPositions {V : Type} (mask : List Bool) (values : List V) :
    selectValues (some mask) values =
      (List.range values.length).filterMap fun i => if mask[i]? = some true then values[i]? else none := by
  induction values generalizing mask with
  | nil => rfl
  | cons v values ih =>
    cases mask with
    | nil => simp [selectValues]
    | cons b mask =>
      have rest := ih mask
      simp only [selectValues] at rest
      rw [List.length_cons, List.range_succ_eq_map, List.filterMap_cons, List.filterMap_map]
      cases b <;> simp [selectValues, rest]

theorem selectMask {V : Type} (expression : String) (values : List V) :
    selectValues (mask expression) values = handed expression values := by
  unfold mask handed
  split
  · exact selectPositions _ _
  · rfl

end Rhs

namespace Draft
open Edit (answersBind)
variable {d d' : Draft}

theorem mapLength {α β : Type} {f : α → Edit β} {xs : List α} {ys : List β} (h : xs.mapM f d = .ok ys d') :
    ys.length = xs.length := by
  induction xs generalizing d ys with
  | nil =>
    cases h
    rfl
  | cons x xs ih =>
    rw [List.mapM_cons] at h
    obtain ⟨y, mid, _, h⟩ := answersBind.1 h
    obtain ⟨rest, last, others, h⟩ := answersBind.1 h
    cases h
    rw [List.length_cons, List.length_cons, ih others]

theorem expandSource {expression : String} {expansion : Expansion} (h : expand expression d = .ok expansion d') :
    expansion.symbols.length = (Rhs.dots expression).length ∧ expansion.selection = Rhs.mask expression := by
  unfold expand at h
  cases parsed : Rhs.parse expression with
  | error e =>
    rw [parsed] at h
    cases h
  | ok terms =>
    have dots : terms.map Rhs.Term.selected = Rhs.dots expression := Rhs.ofWordsDots parsed
    rw [parsed] at h
    obtain ⟨symbols, mid, mapped, h⟩ := answersBind.1 h
    cases h
    refine ⟨?_, ?_⟩
    · rw [← dots, List.length_map]
      exact mapLength mapped
    · rw [Rhs.mask, ← dots]

end Draft

namespace ParserDraft
variable {V : Type} {d d' : ParserDraft V}

/-- What an author does with a parser's draft. Clauses stand in a production, which ends with the first that
fails, or alone, as do those of a production that goes on after a failure. -/
inductive ParserCall (V : Type) where
  | declarePrecedence (assoc : Associativity) (terminals : List String)
  | setStart (name : String)
  | setArgStyle (style : ArgStyle)
  | setOptions (options : ParseOptions)
  | defineOptional (name base : String)
  | defineList (name base : String) (separator : Option String)
  | defineNonemptyList (name base : String) (separator : Option String)
  | production (lhs : String) (clauses : List (Clause V))
  | clause (call : ClauseCall V)

def ParserCall.edit : ParserCall V → ParserEdit V Unit
  | .declarePrecedence assoc terminals => ParserDraft.declarePrecedence assoc terminals
  | .setStart name => ParserDraft.setStart name
  | .setArgStyle argStyle => modify fun d => { d with argStyle }
  | .setOptions options => modify fun d => { d with options }
  | .defineOptional name base => ParserDraft.defineOptional name base
  | .defineList name base separator => ParserDraft.defineList name base separator
  | .defineNonemptyList name base separator => ParserDraft.defineNonemptyList name base separator
  | .production lhs clauses => ParserDraft.production lhs clauses
  | .clause call => call.edit

def left {α : Type} (edit : ParserEdit V α) (d : ParserDraft V) : ParserDraft V :=
  match edit d with
  | .ok _ d => d
  | .error _ d => d

def ofCalls (calls : List (ParserCall V)) : ParserDraft V := calls.foldl (fun d call => left call.edit d) {}

structure Addition (V : Type) where
  before : ParserDraft V
  call : ClauseCall V
  after : ParserDraft V

namespace Addition

def Made (a : Addition V) : Prop := a.call.edit a.before = .ok () a.after

def id (a : Addition V) : Nat := a.after.grammar.size - 1

end Addition

def clauseAdditions (lhs : Symbol) : List (Clause V) → ParserDraft V → List (Addition V)
  | [], _ => []
  | clause :: rest, d =>
    match addClause lhs clause d with
    | .ok _ after => ⟨d, .under lhs clause, after⟩ :: clauseAdditions lhs rest after
    | .error _ _ => []

def ParserCall.additions : ParserCall V → ParserDraft V → List (Addition V)
  | .production lhs clauses, d =>
    match onGrammar (Draft.internNonterminal lhs) d with
    | .ok lhs d => clauseAdditions lhs clauses d
    | .error _ _ => []
  | .clause call, d =>
    match call.edit d with
    | .ok _ after => [⟨d, call, after⟩]
    | .error _ _ => []
  | _, _ => []

def additions : ParserDraft V → List (ParserCall V) → List (Addition V)
  | _, [] => []
  | d, call :: calls => call.additions d ++ (left call.edit d).additions calls

structure Extends (d d' : ParserDraft V) : Prop where
  rules : d.grammar.rules <+: d'.grammar.rules
  actions : d'.actions = d.actions

theorem Extends.refl (d : ParserDraft V) : d.Extends d := ⟨List.prefix_rfl, rfl⟩

theorem Extends.trans {d'' : ParserDraft V} (first : d.Extends d') (second : d'.Extends d'') : d.Extends d'' :=
  ⟨first.rules.trans second.rules, second.actions.trans first.actions⟩

def Trace : ParserDraft V → List (Addition V) → ParserDraft V → Prop
  | d, [], d' => d.Extends d'
  | d, a :: rest, d' => d.Extends a.before ∧ a.Made ∧ Trace a.after rest d'

namespace Trace
variable {d'' : ParserDraft V} {adds more : List (Addition V)}

theorem after (first : d.Extends d') (trace : Trace d' adds d'') : Trace d adds d'' := by
  cases adds with
  | nil => exact first.trans trace
  | cons a adds => exact ⟨first.trans trace.1, trace.2⟩

theorem append (first : Trace d adds d') (second : Trace d' more d'') : Trace d (adds ++ more) d'' := by
  induction adds generalizing d with
  | nil => exact second.after first
  | cons a adds ih => exact ⟨first.1, first.2.1, ih first.2.2⟩

end Trace

section
variable {α β : Type} {edit : ParserEdit V α} {f : α → ParserEdit V β}

theorem leftOk {a : α} (h : edit d = .ok a d') : left edit d = d' := by rw [left, h]

theorem leftError {e : GrammarError} (h : edit d = .error e d') : left edit d = d' := by rw [left, h]

theorem leftThen {a : α} (h : edit d = .ok a d') : left (edit >>= f) d = left (f a) d' := by
  simp only [left, bind, EStateM.bind, h]

theorem leftAtOnce {e : GrammarError} (h : edit d = .error e d') : left (edit >>= f) d = d' := by
  simp only [left, bind, EStateM.bind, h]

theorem leftOnGrammar (edit : Edit α) : left (onGrammar edit) d = { d with grammar := edit.left d.grammar } := by
  unfold left onGrammar Edit.left
  cases edit d.grammar <;> rfl

theorem discardOnGrammar (edit : Edit α) :
    (discard (onGrammar edit) : ParserEdit V Unit) = onGrammar (discard edit) := by
  funext d
  change EStateM.map (Function.const α ()) (onGrammar edit) d = onGrammar (EStateM.map (Function.const α ()) edit) d
  simp only [EStateM.map, onGrammar]
  cases edit d.grammar <;> rfl

end

theorem extendsOnGrammar {α : Type} {edit : Edit α} {Answer : α → Prop}
    (keeps : edit.Keeps (fun g => d.grammar.rules <+: g.rules) Answer) : d.Extends (left (onGrammar edit) d) := by
  rw [leftOnGrammar]
  exact ⟨Edit.keepsLeft keeps List.prefix_rfl, rfl⟩

theorem extendsFailed (call : ClauseCall V) {e : GrammarError} (h : call.edit d = .error e d') : d.Extends d' := by
  obtain ⟨grammar, rfl, unwritten | ⟨id, selection, mid, written, learns, _⟩⟩ := ClauseCall.editFails h
  · obtain ⟨made, gathers⟩ := ClauseCall.writeFails call _ _ _ unwritten
    exact ⟨gathers.appends, rfl⟩
  · obtain ⟨lhs, _, expansion, last, _, _, ⟨made, gathers⟩, _, _, rfl⟩ := ClauseCall.writeSource written
    obtain ⟨symbols, _, rfl⟩ := learns
    exact ⟨gathers.appends.trans (List.prefix_append _ _), rfl⟩

theorem traceClauses (lhs : Symbol) (clauses : List (Clause V)) (d : ParserDraft V) :
    Trace d (clauseAdditions lhs clauses d) (left (addClauses lhs clauses) d) := by
  induction clauses generalizing d with
  | nil => exact .refl d
  | cons clause clauses ih =>
    unfold clauseAdditions addClauses
    cases result : addClause lhs clause d with
    | ok a after =>
      rw [leftThen result]
      exact ⟨.refl d, result, ih after⟩
    | error e d' =>
      rw [leftAtOnce result]
      exact extendsFailed (.under lhs clause) result

theorem traceCall (call : ParserCall V) (d : ParserDraft V) : Trace d (call.additions d) (left call.edit d) := by
  have stable := Draft.appendsStable d.grammar
  have plain (call : DraftCall) {edit : ParserEdit V Unit} (same : edit = onGrammar call.edit) :
      d.Extends (left edit d) := same ▸ extendsOnGrammar (Draft.keepsCall stable call)
  cases call with
  | declarePrecedence assoc terminals => exact plain (.declarePrecedence assoc terminals) (discardOnGrammar _)
  | setStart name => exact plain (.setStart name) (discardOnGrammar _)
  | setArgStyle style => exact ⟨List.prefix_rfl, rfl⟩
  | setOptions options => exact ⟨List.prefix_rfl, rfl⟩
  | defineOptional name base => exact plain (.defineOptional name base) (discardOnGrammar _)
  | defineList name base separator => exact plain (.defineList name base separator) (discardOnGrammar _)
  | defineNonemptyList name base separator =>
    exact plain (.defineNonemptyList name base separator) (discardOnGrammar _)
  | production lhs clauses =>
    have first : d.Extends (left (onGrammar (Draft.internNonterminal lhs)) d) :=
      extendsOnGrammar (Draft.keepsInternNonterminal stable.learn lhs)
    simp only [ParserCall.additions, ParserCall.edit, production]
    cases result : onGrammar (Draft.internNonterminal lhs) d with
    | ok x mid =>
      rw [leftOk result] at first
      rw [leftThen result]
      exact (traceClauses x clauses mid).after first
    | error e mid =>
      rw [leftError result] at first
      rw [leftAtOnce result]
      exact first
  | clause call =>
    simp only [ParserCall.additions, ParserCall.edit]
    cases result : call.edit d with
    | ok a after =>
      rw [leftOk result]
      exact ⟨.refl d, result, .refl after⟩
    | error e d' =>
      rw [leftError result]
      exact extendsFailed call result

theorem historyTrace (calls : List (ParserCall V)) (d : ParserDraft V) :
    Trace d (d.additions calls) (calls.foldl (fun d call => left call.edit d) d) := by
  induction calls generalizing d with
  | nil => exact .refl d
  | cons call calls ih => exact (traceCall call d).append (ih _)

def actionAt (d : ParserDraft V) (id : Nat) : Option (ClauseAction V) := d.actions[id]?.join

theorem resizeAt {actions : List (Option (ClauseAction V))} {length id : Nat} (inside : id < length) :
    (resize length actions)[id]? = some actions[id]?.join := by
  unfold resize
  by_cases known : id < actions.length
  · rw [List.getElem?_append_left (by rw [List.length_take]; omega), List.getElem?_take_of_lt inside]
    simp [known]
  · rw [List.getElem?_append_right (by rw [List.length_take]; omega), List.length_take, List.getElem?_replicate,
      if_pos (by omega), List.getElem?_eq_none (Nat.not_lt.1 known)]
    rfl

theorem recordAt {actions : List (Option (ClauseAction V))} {id : Nat} (beyond : actions.length ≤ id)
    (action : ClauseAction V) (other : Nat) :
    ((resize (id + 1) actions).set id (some action))[other]?.join =
      if other = id then some action else actions[other]?.join := by
  have length : (resize (id + 1) actions).length = id + 1 := by
    simp [resize]
    omega
  split
  · rename_i same
    subst same
    rw [List.getElem?_set_self (by omega)]
    rfl
  · rename_i different
    rw [List.getElem?_set_ne (Ne.symm different)]
    by_cases inside : other < id + 1
    · rw [resizeAt inside]
      rfl
    · rw [List.getElem?_eq_none (by omega), List.getElem?_eq_none (by omega)]

namespace Addition
variable {a : Addition V}

structure Writes (a : Addition V) (lhs : Symbol) (expansion : Expansion) (mid : Draft) : Prop where
  expanded : ∃ start, a.call.head a.before.grammar = .ok lhs start ∧
    Draft.expand a.call.body.rhs start = .ok expansion mid
  gathered : a.before.grammar.Gathered mid
  rules : a.after.grammar.rules = mid.rules ++ [⟨⟨lhs, expansion.symbols⟩, .declared⟩]
  actions : a.after.actions = (resize (mid.size + 1) a.before.actions).set mid.size
    (some ⟨a.call.body.action, Rhs.mask a.call.body.rhs⟩)

theorem madeSource (made : a.Made) : ∃ lhs expansion mid, a.Writes lhs expansion mid := by
  obtain ⟨id, selection, last, grammar, written, ranked, after⟩ := ClauseCall.editAnswers.1 made
  obtain ⟨lhs, start, expansion, mid, head, expanded, gathered, rfl, rfl, rfl⟩ := ClauseCall.writeSource written
  refine ⟨lhs, expansion, mid, ⟨start, head, expanded⟩, gathered, ?_, ?_⟩
  · rw [after]
    exact Draft.rankSource ranked
  · rw [after, (Draft.expandSource expanded).2]

variable {lhs : Symbol} {expansion : Expansion} {mid : Draft}

theorem Writes.position (writes : a.Writes lhs expansion mid) : a.id = mid.size := by
  simp [Addition.id, Draft.size, writes.rules]

theorem Writes.later (writes : a.Writes lhs expansion mid) : a.before.grammar.size ≤ a.id := by
  obtain ⟨made, gathers⟩ := writes.gathered
  rw [writes.position]
  exact gathers.appends.length_le

theorem Writes.appends (writes : a.Writes lhs expansion mid) : a.before.grammar.rules <+: a.after.grammar.rules := by
  obtain ⟨made, gathers⟩ := writes.gathered
  rw [writes.rules]
  exact gathers.appends.trans (List.prefix_append _ _)

theorem Writes.size (writes : a.Writes lhs expansion mid) : a.after.grammar.size = a.id + 1 := by
  rw [writes.position]
  simp [Draft.size, writes.rules]

end Addition

structure Aligned (d : ParserDraft V) (adds : List (Addition V)) : Prop where
  bounded : d.actions.length ≤ d.grammar.size
  made : ∀ a ∈ adds, a.Made
  kept : ∀ a ∈ adds, a.after.grammar.rules <+: d.grammar.rules
  recorded : ∀ a ∈ adds, d.actionAt a.id = some ⟨a.call.body.action, Rhs.mask a.call.body.rhs⟩
  only : ∀ id, (∀ a ∈ adds, a.id ≠ id) → d.actionAt id = none
  ordered : adds.Pairwise fun a b => a.id < b.id

namespace Aligned
variable {adds more : List (Addition V)} {a : Addition V}

theorem fresh : Aligned ({} : ParserDraft V) [] := by
  refine ⟨Nat.zero_le _, List.forall_mem_nil _, List.forall_mem_nil _, List.forall_mem_nil _, ?_, .nil⟩
  exact fun _ _ => rfl

theorem below (aligned : d.Aligned adds) (listed : a ∈ adds) : a.id < d.grammar.size := by
  obtain ⟨_, _, _, writes⟩ := Addition.madeSource (aligned.made a listed)
  have size := writes.size
  have kept : a.after.grammar.size ≤ d.grammar.size := (aligned.kept a listed).length_le
  omega

theorem extend (aligned : d.Aligned adds) (grows : d.Extends d') : d'.Aligned adds := by
  have same (id : Nat) : d'.actionAt id = d.actionAt id := by rw [actionAt, actionAt, grows.actions]
  refine ⟨?_, aligned.made, fun a listed => (aligned.kept a listed).trans grows.rules, ?_, ?_, aligned.ordered⟩
  · rw [grows.actions]
    exact Nat.le_trans aligned.bounded grows.rules.length_le
  · exact fun a listed => (same a.id).trans (aligned.recorded a listed)
  · exact fun id none => (same id).trans (aligned.only id none)

theorem add (aligned : a.before.Aligned adds) (made : a.Made) : a.after.Aligned (adds ++ [a]) := by
  obtain ⟨lhs, expansion, mid, writes⟩ := Addition.madeSource made
  have position := writes.position
  have later := writes.later
  have bounded := aligned.bounded
  have apart (b : Addition V) (listed : b ∈ adds) : b.id ≠ a.id := by
    have below := aligned.below listed
    omega
  have action (id : Nat) : a.after.actionAt id =
      if id = a.id then some ⟨a.call.body.action, Rhs.mask a.call.body.rhs⟩ else a.before.actionAt id := by
    rw [actionAt, writes.actions, recordAt (by omega), position]
    rfl
  refine ⟨?_, ?_, ?_, ?_, ?_, ?_⟩
  · rw [writes.size, writes.actions, List.length_set, position]
    simp [resize]
    omega
  · exact List.forall_mem_append.2 ⟨aligned.made, List.forall_mem_singleton.2 made⟩
  · refine List.forall_mem_append.2 ⟨fun b listed => ?_, List.forall_mem_singleton.2 List.prefix_rfl⟩
    exact (aligned.kept b listed).trans writes.appends
  · refine List.forall_mem_append.2 ⟨fun b listed => ?_, List.forall_mem_singleton.2 ?_⟩
    · rw [action, if_neg (apart b listed)]
      exact aligned.recorded b listed
    · rw [action, if_pos rfl]
  · intro id none
    obtain ⟨before, here⟩ := List.forall_mem_append.1 none
    rw [action, if_neg (Ne.symm (here a List.mem_cons_self))]
    exact aligned.only id before
  · refine List.pairwise_append.2 ⟨aligned.ordered, List.pairwise_singleton _ _, fun b listed c last => ?_⟩
    rw [List.mem_singleton.1 last]
    exact Nat.lt_of_lt_of_le (aligned.below listed) later

theorem trace (aligned : d.Aligned adds) (trace : Trace d more d') : d'.Aligned (adds ++ more) := by
  induction more generalizing d adds with
  | nil =>
    rw [List.append_nil]
    exact aligned.extend trace
  | cons a more ih =>
    obtain ⟨grows, made, rest⟩ := trace
    have next := ih ((aligned.extend grows).add made) rest
    rwa [List.append_assoc] at next

end Aligned

theorem alignedOfCalls (calls : List (ParserCall V)) : (ofCalls calls).Aligned (additions {} calls) :=
  Aligned.fresh.trace (historyTrace calls {})

inductive Finishes (d : ParserDraft V) : Parser V → Prop
  | built {config : TableConfig} {p : Parser V} (h : d.finalize config = .ok p) : d.Finishes p
  | cached {config : TableConfig} {cache : TableCache} {s : Store} {time : Nat} {p : Parser V}
      (h : (d.finalizeCached config cache s time).1 = .ok p) : d.Finishes p

theorem finishesSource {p : Parser V} (finished : d.Finishes p) :
    ∃ g a, d.grammar.build = .ok g ∧ p = d.toParser g a := by
  cases finished with
  | built h =>
    obtain ⟨g, a, built, _, rfl⟩ := finalizeSource h
    exact ⟨g, a, built, rfl⟩
  | cached h =>
    unfold finalizeCached at h
    split at h
    · cases h
    · rename_i g built
      obtain ⟨a, _, rfl⟩ := bindPureIff.1 h
      exact ⟨g, a, built, rfl⟩

theorem reducersAt {g : Grammar} {id : Nat} (inside : id < g.size) :
    (d.reducers g)[id]? = some (reducerFor (g.origin? id) (d.actionAt id)) := by
  rw [reducers, List.getElem?_mapIdx, resizeAt inside]
  rfl

namespace Addition
variable {a : Addition V}

structure Owns (a : Addition V) (g : Grammar) : Prop where
  position : a.before.grammar.size ≤ a.id ∧ a.id < a.after.grammar.size
  declared : g.origin? a.id = some .declared
  production : ∃ lhs start expansion mid, a.call.head a.before.grammar = .ok lhs start ∧
    Draft.expand a.call.body.rhs start = .ok expansion mid ∧ g.production? a.id = some ⟨lhs, expansion.symbols⟩ ∧
    (Rhs.dots a.call.body.rhs).length = expansion.symbols.length
  alone : ∀ id, a.before.grammar.size ≤ id → id < a.after.grammar.size → id ≠ a.id →
    ∃ role, g.origin? id = some (.helper role)

theorem owns {d : Draft} {g : Grammar} (made : a.Made) (kept : a.after.grammar.rules <+: d.rules)
    (built : d.build = .ok g) : a.Owns g := by
  obtain ⟨lhs, expansion, mid, writes⟩ := madeSource made
  obtain ⟨start, head, expanded⟩ := writes.expanded
  have position := writes.position
  have size := writes.size
  have finished {id : Nat} {r : Rule} (found : a.after.grammar.rules[id]? = some r) :=
    Draft.buildAt built (prefixAt kept found)
  have own : a.after.grammar.rules[a.id]? = some ⟨⟨lhs, expansion.symbols⟩, .declared⟩ := by
    rw [writes.rules, position]
    simp [Draft.size]
  refine ⟨⟨writes.later, by omega⟩, (finished own).2, ?_, fun id later inside other => ?_⟩
  · exact ⟨lhs, start, expansion, mid, head, expanded, (finished own).1, (Draft.expandSource expanded).1.symm⟩
  · obtain ⟨synthesised, gathers⟩ := writes.gathered
    obtain ⟨r, found⟩ : ∃ r, mid.rules[id]? = some r := by
      have among : id < mid.size := by omega
      exact ⟨_, List.getElem?_eq_getElem among⟩
    obtain ⟨role, origin⟩ := gathers.synthesised later found
    have appended : mid.rules <+: a.after.grammar.rules := by
      rw [writes.rules]
      exact List.prefix_append _ _
    exact ⟨role, origin ▸ (finished (prefixAt appended found)).2⟩

end Addition

structure Assigned [SemanticValue V] (g : Grammar) (reducers : List (Reducer V)) (adds : List (Addition V)) : Prop where
  total : reducers.length = g.size
  helpers : ∀ id role, g.origin? id = some (.helper role) → reducers[id]? = some (.helper role)
  made : ∀ a ∈ adds, a.Made
  owned : ∀ a ∈ adds, a.Owns g
  distinct : (adds.map Addition.id).Nodup
  clauses : ∀ a ∈ adds, reducers[a.id]? = some (.action a.call.body.action (Rhs.mask a.call.body.rhs))
  start : reducers[g.startProduction]? = some .forward
  others : ∀ id < g.size, (∀ role, g.origin? id ≠ some (.helper role)) → (∀ a ∈ adds, a.id ≠ id) →
    reducers[id]? = some .forward
  splat : ∀ a ∈ adds, ∀ reducer ∈ reducers[a.id]?, ∀ values,
    reducer.apply .splat values = a.call.body.action (Rhs.handed a.call.body.rhs values)
  array : ∀ a ∈ adds, ∀ reducer ∈ reducers[a.id]?, ∀ values,
    reducer.apply .array values = a.call.body.action [SemanticValue.ofItems (Rhs.handed a.call.body.rhs values)]

theorem Aligned.assigned [SemanticValue V] {adds : List (Addition V)} {g : Grammar} (aligned : d.Aligned adds)
    (built : d.grammar.build = .ok g) : Assigned g (d.reducers g) adds := by
  obtain ⟨size, origins, last⟩ := Draft.buildEnd built
  have bounded {id : Nat} {origin : Origin} (found : g.origin? id = some origin) : id < g.size := by
    have inside := (List.getElem?_eq_some_iff.1 found).1
    omega
  have owned (a : Addition V) (listed : a ∈ adds) : a.Owns g :=
    Addition.owns (aligned.made a listed) (aligned.kept a listed) built
  have clauses (a : Addition V) (listed : a ∈ adds) :
      (d.reducers g)[a.id]? = some (.action a.call.body.action (Rhs.mask a.call.body.rhs)) := by
    have declared := (owned a listed).declared
    rw [reducersAt (bounded declared), declared, aligned.recorded a listed]
    rfl
  have others (id : Nat) (inside : id < g.size) (plain : ∀ role, g.origin? id ≠ some (.helper role))
      (none : ∀ a ∈ adds, a.id ≠ id) : (d.reducers g)[id]? = some .forward := by
    rw [reducersAt inside, aligned.only id none]
    unfold reducerFor
    split
    · rename_i role origin
      exact absurd origin (plain role)
    · contradiction
    · rfl
  refine ⟨d.reducersLength g, ?_, aligned.made, owned, ?_, clauses, ?_, others, ?_, ?_⟩
  · intro id role origin
    rw [reducersAt (bounded origin), origin]
    rfl
  · exact List.pairwise_map.2 (aligned.ordered.imp Nat.ne_of_lt)
  · have start : g.startProduction = d.grammar.size := by
      rw [Grammar.startProduction, size]
      rfl
    rw [start]
    refine others _ (bounded last) (fun role other => ?_) fun a listed => Nat.ne_of_lt (aligned.below listed)
    cases last.symm.trans other
  · intro a listed reducer found values
    cases (clauses a listed).symm.trans found
    simp only [Reducer.apply, Rhs.selectMask]
  · intro a listed reducer found values
    cases (clauses a listed).symm.trans found
    simp only [Reducer.apply, Rhs.selectMask]

theorem actionsAssigned [SemanticValue V] {calls : List (ParserCall V)} {p : Parser V}
    (finished : (ofCalls calls).Finishes p) :
    ∃ g, (ofCalls calls).grammar.build = .ok g ∧ Assigned g p.reducers (additions {} calls) := by
  obtain ⟨g, a, built, rfl⟩ := finishesSource finished
  exact ⟨g, built, (alignedOfCalls calls).assigned built⟩

def sumRowCalls : List (ParserCall Value) :=
  [.declarePrecedence .left ["PLUS"],
    .production "e" [⟨".e PLUS .e", .list, none⟩, ⟨"N", Reducer.firstValue, none⟩],
    .clause (.rule "e" ⟨"N+ Word", .list, none⟩),
    .clause (.rule "e" ⟨"MINUS e", .list, some "low"⟩),
    .defineList "row" "e" (some "COMMA"),
    .clause (.rule "s" ⟨"LEFT .row SIGN? RIGHT", .list, some "PLUS"⟩),
    .setStart "s"]

theorem sumRowsAssigned : ∃ p g, (ofCalls sumRowCalls).finalize .lr0 = .ok p ∧
    (additions {} sumRowCalls).map Addition.id = [0, 1, 11] ∧ (ofCalls sumRowCalls).grammar.build = .ok g ∧
      Assigned g p.reducers (additions {} sumRowCalls) := by
  obtain ⟨p, finished⟩ : ∃ p, (ofCalls sumRowCalls).finalize .lr0 = .ok p := okOfIsOk (by decide +kernel)
  obtain ⟨g, built, assigned⟩ := actionsAssigned (.built finished)
  exact ⟨p, g, finished, by decide +kernel, built, assigned⟩

end ParserDraft
end ForkingLR
