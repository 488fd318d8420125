import ForkingLR.Parser
import ForkingLR.Proofs.Grammar.Failure

/-! Clauses, step by step. The left-hand side and the right-hand side are taken in and the rule is written; then
the rule gets the precedence of a terminal, if one is named, and its action. A failure before the rule is written
leaves names and whole helpers only. Of the steps after it one can fail, the name of the precedence, and then
the rule stays, without an action. -/
namespace ForkingLR

namespace Draft
open Edit (answersBind failsBind)
variable {d d' : Draft} {lhs : Symbol} {rhs : List Symbol}

theorem declareSymbolsSource {id : Nat} (h : declareSymbols lhs rhs d = .ok id d') :
    id = d.size ∧ d' = { d with rules := d.rules ++ [⟨⟨lhs, rhs⟩, .declared⟩] } := by
  unfold declareSymbols at h
  split at h
  · cases h
  · cases h
    exact ⟨rfl, rfl⟩

def rank (id : Nat) : Option String → Edit Unit
  | none => pure ()
  | some terminal => setProductionPrecedence id terminal

theorem setProductionPrecedenceOk {id : Nat} {terminal : String} (nameable : Nameable .terminal terminal)
    (present : id < d.size) : ∃ d', setProductionPrecedence id terminal d = .ok () d' := by
  obtain ⟨x, mid, interned⟩ := internTerminalOk nameable d
  refine ⟨{ mid with precedence := mid.precedence.override id x }, answersBind.2 ⟨d, d, rfl, ?_⟩⟩
  rw [if_neg (Nat.not_le.2 present)]
  exact answersBind.2 ⟨x, mid, interned, rfl⟩

theorem rankFails {id : Nat} {precedence : Option String} {e : GrammarError} (present : id < d.size)
    (h : rank id precedence d = .error e d') :
    d.Learns d' ∧ ∃ name, precedence = some name ∧ ¬ Nameable .terminal name := by
  cases precedence with
  | none => cases h
  | some name =>
    refine ⟨failsSetProductionPrecedence id name d e d' h, name, rfl, fun nameable => ?_⟩
    obtain ⟨mid, answered⟩ := setProductionPrecedenceOk nameable present
    cases answered.symm.trans h

theorem rankSource {id : Nat} {precedence : Option String} (h : rank id precedence d = .ok () d') :
    d'.rules = d.rules := by
  cases precedence with
  | none =>
    cases h
    rfl
  | some terminal =>
    obtain ⟨_, _, same, h⟩ := answersBind.1 h
    cases same
    split at h
    · obtain ⟨_, _, thrown, _⟩ := answersBind.1 h
      cases thrown
    · obtain ⟨x, mid, interned, h⟩ := answersBind.1 h
      cases h
      obtain ⟨symbols, _, rfl⟩ := (internSource (internTerminalIff.1 interned).1).2.1
      rfl

end Draft

namespace ParserDraft
open Edit (answersBind failsBind)
variable {V α β : Type} {d d' : ParserDraft V}

theorem onGrammarAnswers {edit : Edit α} {a : α} :
    onGrammar edit d = .ok a d' ↔ ∃ grammar, edit d.grammar = .ok a grammar ∧ d' = { d with grammar } := by
  unfold onGrammar
  cases edit d.grammar <;> simp [eq_comm]

theorem onGrammarFails {edit : Edit α} {e : GrammarError} :
    onGrammar edit d = .error e d' ↔ ∃ grammar, edit d.grammar = .error e grammar ∧ d' = { d with grammar } := by
  unfold onGrammar
  cases edit d.grammar <;> simp [eq_comm]

theorem onGrammarBind {x : Edit α} {f : α → Edit β} :
    (onGrammar (x >>= f) : ParserEdit V β) = onGrammar x >>= fun a => onGrammar (f a) := by
  funext d
  simp only [onGrammar, bind, EStateM.bind]
  cases x d.grammar <;> rfl

inductive ClauseCall (V : Type) where
  | rule (lhs : String) (body : Clause V)
  | under (lhs : Symbol) (body : Clause V)

namespace ClauseCall

def edit : ClauseCall V → ParserEdit V Unit
  | .rule lhs body => ParserDraft.rule lhs body
  | .under lhs body => addClause lhs body

def head : ClauseCall V → Edit Symbol
  | .rule lhs _ => Draft.internNonterminal lhs
  | .under lhs _ => pure lhs

def body : ClauseCall V → Clause V
  | .rule _ body => body
  | .under _ body => body

def unranked : ClauseCall V → ClauseCall V
  | .rule lhs body => .rule lhs { body with precedence := none }
  | .under lhs body => .under lhs { body with precedence := none }

def write (call : ClauseCall V) : Edit (Nat × Option (List Bool)) := do
  let lhs ← call.head
  let expansion ← Draft.expand call.body.rhs
  let id ← Draft.declareSymbols lhs expansion.symbols
  pure (id, expansion.selection)

theorem editWrites (call : ClauseCall V) : call.edit = (do
    let (id, selection) ← onGrammar call.write
    onGrammar (Draft.rank id call.body.precedence)
    recordAction id ⟨call.body.action, selection⟩) := by
  have step (lhs : Symbol) (clause : Clause V) : addClause lhs clause = (do
      let expansion ← onGrammar (Draft.expand clause.rhs)
      let id ← onGrammar (Draft.declareSymbols lhs expansion.symbols)
      onGrammar (Draft.rank id clause.precedence)
      recordAction id ⟨clause.action, expansion.selection⟩) := by
    unfold addClause
    cases clause.precedence <;> rfl
  have last (a : Nat × Option (List Bool)) : (onGrammar (pure a) : ParserEdit V _) = pure a := rfl
  cases call with
  | rule lhs clause =>
    have once : ParserDraft.rule lhs clause = onGrammar (Draft.internNonterminal lhs) >>= (addClause · clause) := by
      simp only [ParserDraft.rule, production, addClauses, bind_pure_unit]
    simp only [edit, once, step, write, head, body, onGrammarBind, last, bind_assoc, pure_bind]
  | under lhs clause =>
    simp only [edit, step, write, head, body, onGrammarBind, last, bind_assoc, pure_bind]

variable {call : ClauseCall V} {id : Nat} {selection : Option (List Bool)}

theorem unrankedWrites (call : ClauseCall V) : call.unranked.write = call.write := by
  cases call <;> rfl

theorem writeSource {g g' : Draft} (h : call.write g = .ok (id, selection) g') :
    ∃ lhs start expansion mid, call.head g = .ok lhs start ∧ Draft.expand call.body.rhs start = .ok expansion mid ∧
      g.Gathered mid ∧ id = mid.size ∧ selection = expansion.selection ∧
      g' = { mid with rules := mid.rules ++ [⟨⟨lhs, expansion.symbols⟩, .declared⟩] } := by
  obtain ⟨lhs, start, head, h⟩ := answersBind.1 h
  obtain ⟨expansion, mid, expanded, h⟩ := answersBind.1 h
  obtain ⟨id, last, declared, h⟩ := answersBind.1 h
  cases h
  obtain ⟨rfl, rfl⟩ := Draft.declareSymbolsSource declared
  have learnt : g.Learns start := by
    cases call with
    | rule name body => exact (Draft.internSource (Draft.internNonterminalIff.1 head).1).2.1
    | under lhs body =>
      cases head
      exact .refl g
  have gathered := Draft.gathersExpand g call.body.rhs start (.learns learnt)
  rw [expanded] at gathered
  exact ⟨lhs, start, expansion, mid, head, expanded, gathered.1, rfl, rfl, rfl⟩

theorem writeFails (call : ClauseCall V) : call.write.Fails Draft.Gathered := by
  have rest (lhs : Symbol) : Edit.Fails Draft.Gathered (do
      let expansion ← Draft.expand call.body.rhs
      let id ← Draft.declareSymbols lhs expansion.symbols
      pure (id, expansion.selection)) := by
    refine Edit.failsAfter .refl .trans (Draft.gathersExpand · call.body.rhs) fun expansion => ?_
    exact Edit.failsThen (Draft.failsDeclareSymbols .refl lhs _) fun id g => ⟨_, g, rfl⟩
  cases call with
  | rule lhs body =>
    exact Edit.failsAfter .refl .trans (fun g => Draft.keepsInternNonterminal (Draft.gathersLearn g) lhs) rest
  | under lhs body => exact rest lhs

theorem editAnswers : call.edit d = .ok () d' ↔ ∃ id selection mid grammar,
    call.write d.grammar = .ok (id, selection) mid ∧ Draft.rank id call.body.precedence mid = .ok () grammar ∧
      d' = { d with grammar, actions := (resize (id + 1) d.actions).set id (some ⟨call.body.action, selection⟩) } := by
  rw [editWrites, answersBind]
  constructor
  · rintro ⟨⟨id, selection⟩, _, first, rest⟩
    obtain ⟨mid, written, rfl⟩ := onGrammarAnswers.1 first
    obtain ⟨_, _, second, recorded⟩ := answersBind.1 rest
    obtain ⟨grammar, ranked, rfl⟩ := onGrammarAnswers.1 second
    cases recorded
    exact ⟨id, selection, mid, grammar, written, ranked, rfl⟩
  · rintro ⟨id, selection, mid, grammar, written, ranked, rfl⟩
    refine ⟨(id, selection), { d with grammar := mid }, onGrammarAnswers.2 ⟨mid, written, rfl⟩, ?_⟩
    exact answersBind.2 ⟨(), { d with grammar }, onGrammarAnswers.2 ⟨grammar, ranked, rfl⟩, rfl⟩

theorem editFails {e : GrammarError} (h : call.edit d = .error e d') : ∃ grammar, d' = { d with grammar } ∧
    (call.write d.grammar = .error e grammar ∨ ∃ id selection mid, call.write d.grammar = .ok (id, selection) mid ∧
      mid.Learns grammar ∧ ∃ name, call.body.precedence = some name ∧ ¬ Nameable .terminal name) := by
  rw [editWrites] at h
  rcases failsBind.1 h with first | ⟨⟨id, selection⟩, _, first, rest⟩
  · obtain ⟨grammar, failed, rfl⟩ := onGrammarFails.1 first
    exact ⟨grammar, rfl, .inl failed⟩
  · obtain ⟨mid, written, rfl⟩ := onGrammarAnswers.1 first
    have present : id < mid.size := by
      obtain ⟨_, _, _, last, _, _, _, rfl, _, rfl⟩ := writeSource written
      simp [Draft.size]
    rcases failsBind.1 rest with second | ⟨_, _, _, recorded⟩
    · obtain ⟨grammar, failed, rfl⟩ := onGrammarFails.1 second
      obtain ⟨learns, name⟩ := Draft.rankFails present failed
      exact ⟨grammar, rfl, .inr ⟨id, selection, mid, written, learns, name⟩⟩
    · cases recorded

theorem unrankedAnswers (h : call.unranked.edit d = .ok () d') :
    ∃ a, call.write d.grammar = .ok a d'.grammar := by
  obtain ⟨id, selection, mid, grammar, written, ranked, rfl⟩ := editAnswers.1 h
  rw [unrankedWrites] at written
  have same : mid = grammar := by
    cases call <;> cases ranked <;> rfl
  exact ⟨(id, selection), same ▸ written⟩

theorem unrankedOk {a : Nat × Option (List Bool)} {grammar : Draft} (written : call.write d.grammar = .ok a grammar) :
    ∃ d', call.unranked.edit d = .ok () d' := by
  rw [← unrankedWrites] at written
  refine ⟨_, editAnswers.2 ⟨a.1, a.2, grammar, grammar, written, ?_, rfl⟩⟩
  cases call <;> rfl

end ClauseCall

/-- The draft has more names and more helpers, each of them whole, and is otherwise as it was: what the author
has declared, the start that follows from it, the precedences and the actions. -/
structure Spares (d d' : ParserDraft V) : Prop where
  gathers : ∃ made, d.grammar.Gathers made d'.grammar
  declared : (d'.grammar.rules.filter fun r => r.origin = .declared) =
    d.grammar.rules.filter fun r => r.origin = .declared
  start : d'.grammar.start? = d.grammar.start?
  precedence : d'.grammar.precedence = d.grammar.precedence
  actions : d'.actions = d.actions
  argStyle : d'.argStyle = d.argStyle
  options : d'.options = d.options

theorem sparesGathered {grammar : Draft} (gathered : d.grammar.Gathered grammar) : d.Spares { d with grammar } := by
  obtain ⟨made, gathers⟩ := gathered
  exact ⟨⟨made, gathers⟩, gathers.declared, gathers.start, gathers.precedence, rfl, rfl, rfl⟩

theorem failedClauseSpares {call : ClauseCall V} {e : GrammarError} (failed : call.edit d = .error e d') :
    d'.actions = d.actions ∧ d'.grammar.precedence = d.grammar.precedence ∧
      ((∀ name ∈ call.body.precedence, Nameable .terminal name) → d.Spares d') ∧
      ((∀ accepted, call.unranked.edit d ≠ .ok () accepted) → d.Spares d') ∧
      ∀ accepted, call.unranked.edit d = .ok () accepted → accepted.grammar.Learns d'.grammar := by
  obtain ⟨grammar, rfl, unwritten | ⟨id, selection, mid, written, learns, name, named, misnamed⟩⟩ :=
    ClauseCall.editFails failed
  · have spares := sparesGathered (ClauseCall.writeFails call _ _ _ unwritten)
    refine ⟨rfl, spares.precedence, fun _ => spares, fun _ => spares, fun accepted answered => ?_⟩
    obtain ⟨_, written⟩ := ClauseCall.unrankedAnswers answered
    cases unwritten.symm.trans written
  · have precedence : grammar.precedence = d.grammar.precedence := by
      obtain ⟨_, _, _, _, _, _, ⟨made, gathers⟩, _, _, rfl⟩ := ClauseCall.writeSource written
      obtain ⟨symbols, _, rfl⟩ := learns
      exact gathers.precedence
    refine ⟨rfl, precedence, fun nameable => ?_, fun refused => ?_, fun accepted answered => ?_⟩
    · exact absurd (nameable name named) misnamed
    · obtain ⟨accepted, answered⟩ := ClauseCall.unrankedOk written
      exact absurd answered (refused accepted)
    · obtain ⟨_, written'⟩ := ClauseCall.unrankedAnswers answered
      cases written.symm.trans written'
      exact learns

def numbers : ParserDraft Value := { grammar := .ofCalls [.declare "e" ["N"]] }

def misspelledClause : Clause Value := ⟨"N+ e Word", fun _ => .nil, some "low"⟩

theorem misspelledClauseSpared : ∃ d',
    (ClauseCall.rule "e" misspelledClause).edit numbers = .error (.invalidSymbol "Word") d' ∧ numbers.Spares d' := by
  have misspelled : Edit.Refuses (ClauseCall.rule "e" misspelledClause).edit numbers (.invalidSymbol "Word")
    fun _ => True := by decide +kernel
  have refused : Edit.Refuses (ClauseCall.rule "e" misspelledClause).unranked.edit numbers (.invalidSymbol "Word")
    fun _ => True := by decide +kernel
  obtain ⟨d', failed, _⟩ := misspelled
  obtain ⟨_, failed', _⟩ := refused
  exact ⟨d', failed, (failedClauseSpares failed).2.2.2.1 fun _ answered => by cases failed'.symm.trans answered⟩

def misrankedClause : Clause Value := ⟨"A", fun _ => .nil, some "low"⟩

theorem misrankedClauseStays : ∃ d',
    (ClauseCall.rule "s" misrankedClause).edit {} = .error (.expectedTerminal "low") d' ∧
      (d'.grammar.rules.map Rule.origin = [.declared] ∧ d'.grammar.start?.isSome ∧ d'.actions.isEmpty) ∧
      ¬ Spares {} d' := by
  have misranked : Edit.Refuses (ClauseCall.rule "s" misrankedClause).edit {} (.expectedTerminal "low") fun d' =>
      d'.grammar.rules.map Rule.origin = [.declared] ∧ d'.grammar.start?.isSome ∧ d'.actions.isEmpty := by
    decide +kernel
  obtain ⟨d', failed, left⟩ := misranked
  refine ⟨d', failed, left, fun spares => ?_⟩
  rw [spares.start] at left
  exact absurd left.2.1 (by decide)

end ParserDraft
end ForkingLR
