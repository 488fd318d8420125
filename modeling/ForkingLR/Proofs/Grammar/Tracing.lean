import ForkingLR.Proofs.Grammar.Requests

/-! The requests for helpers that a history makes, one after the other: calls for a helper make one, and
right-hand sides with operators and lists under a name of their own make others on the way. Between two
requests there is no new helper, and the helpers stay in order. -/
namespace ForkingLR

namespace Edit
variable {α β : Type}

def left (edit : Edit α) (d : Draft) : Draft :=
  match edit d with
  | .ok _ d => d
  | .error _ d => d

theorem leftOk {edit : Edit α} {d d' : Draft} {a : α} (h : edit d = .ok a d') : left edit d = d' := by
  rw [left, h]

theorem leftError {edit : Edit α} {d d' : Draft} {e : GrammarError} (h : edit d = .error e d') :
    left edit d = d' := by
  rw [left, h]

theorem keepsLeft {Good : Draft → Prop} {Answer : α → Prop} {edit : Edit α} (keeps : edit.Keeps Good Answer)
    {d : Draft} (good : Good d) : Good (left edit d) := by
  have kept := keeps d good
  unfold left
  cases result : edit d with
  | ok a d' =>
    rw [result] at kept
    exact kept.1
  | error e d' =>
    rw [result] at kept
    exact kept

end Edit

structure Ask where
  request : HelperRequest
  draft : Draft

namespace Ask

def left (a : Ask) : Draft := Edit.left a.request.edit a.draft

def Answers (a : Ask) (x : Symbol) : Prop := a.request.edit a.draft = .ok x a.left

end Ask

namespace Edit
variable {α : Type} {edit : Edit α} {next : α → Draft → List Ask} {d d' : Draft}

def asksThen (edit : Edit α) (next : α → Draft → List Ask) (d : Draft) : List Ask :=
  match edit d with
  | .ok a d => next a d
  | .error _ _ => []

theorem asksThenOk {a : α} (h : edit d = .ok a d') : asksThen edit next d = next a d' := by rw [asksThen, h]

theorem asksThenError {e : GrammarError} (h : edit d = .error e d') : asksThen edit next d = [] := by
  rw [asksThen, h]

theorem asksThenNone (edit : Edit α) : (asksThen edit fun _ _ => []) = fun _ => [] := by
  funext d
  unfold asksThen
  split <;> rfl

end Edit

namespace Draft
open Edit (asksThen)

def termAsks (term : Rhs.Term) : Draft → List Ask :=
  asksThen (intern term.name) fun base d => (term.op.map fun op => ⟨.ofOperator op base, d⟩).toList

def termsAsks : List Rhs.Term → Draft → List Ask
  | [], _ => []
  | term :: terms, d => termAsks term d ++ asksThen (expandTerm term) (fun _ => termsAsks terms) d

def expandAsks (expression : String) : Draft → List Ask :=
  match Rhs.parse expression with
  | .error _ => fun _ => []
  | .ok terms => termsAsks terms

end Draft

open Edit (asksThen) in
def DraftCall.asks : DraftCall → Draft → List Ask
  | .optional base => fun d => [⟨.optional base, d⟩]
  | .list base separator => fun d => [⟨.list base separator, d⟩]
  | .nonemptyList base separator => fun d => [⟨.nonemptyList base separator, d⟩]
  | .expand expression => Draft.expandAsks expression
  | .declareRule lhs expression => asksThen (Draft.internNonterminal lhs) fun _ => Draft.expandAsks expression
  | .defineList name base separator =>
    asksThen (Draft.freshDefinition name) fun _ => asksThen (Draft.intern base) fun base =>
      asksThen (Draft.internSeparator separator) fun separator d => [⟨.nonemptyList base separator, d⟩]
  | _ => fun _ => []

namespace Draft
variable {d d' d'' : Draft}

def asked : Draft → List DraftCall → List Ask
  | _, [] => []
  | d, call :: calls => call.asks d ++ (d.perform call).asked calls

structure Evolves (d d' : Draft) : Prop where
  filed : d'.Filed []
  grows : d.Grows d'

theorem Evolves.trans (first : d.Evolves d') (second : d'.Evolves d'') : d.Evolves d'' :=
  ⟨second.filed, first.grows.trans second.grows⟩

structure Idles (d d' : Draft) : Prop where
  filed : d'.Filed []
  within : d.symbols.Within d'.symbols
  helpers : d'.helpers = d.helpers

theorem Filed.idles (filed : d.Filed []) : d.Idles d := ⟨filed, List.prefix_rfl, rfl⟩

theorem Idles.trans (first : d.Idles d') (second : d'.Idles d'') : d.Idles d'' :=
  ⟨second.filed, first.within.trans second.within, second.helpers.trans first.helpers⟩

theorem Idles.evolves (idles : d.Idles d') : d.Evolves d' :=
  ⟨idles.filed, idles.within, idles.helpers ▸ List.prefix_rfl, fun _ listed => .inl (idles.helpers ▸ listed)⟩

theorem evolvesAsk {a : Ask} (filed : a.draft.Filed []) : a.draft.Evolves a.left := by
  cases result : a.request.edit a.draft with
  | ok x d =>
    rw [Ask.left, Edit.leftOk result]
    obtain ⟨filed, answers⟩ := requestAnswers filed result
    exact ⟨filed, answers.grows⟩
  | error e d =>
    rw [Ask.left, Edit.leftError result]
    have learns := requestFails result
    exact ⟨filed.learns learns, .learns learns⟩

/-- One draft becomes another through these requests, and idles between them. -/
def Trace : Draft → List Ask → Draft → Prop
  | d, [], d' => d.Idles d'
  | d, a :: asks, d' => d.Idles a.draft ∧ Trace a.left asks d'

namespace Trace
variable {asks more : List Ask}

theorem after (first : d.Idles d') (trace : Trace d' asks d'') : Trace d asks d'' := by
  cases asks with
  | nil => exact first.trans trace
  | cons a asks => exact ⟨first.trans trace.1, trace.2⟩

theorem append (first : Trace d asks d') (second : Trace d' more d'') : Trace d (asks ++ more) d'' := by
  induction asks generalizing d with
  | nil => exact second.after first
  | cons a asks ih => exact ⟨first.1, ih first.2⟩

theorem evolves (trace : Trace d asks d') : d.Evolves d' := by
  induction asks generalizing d with
  | nil => exact trace.evolves
  | cons a asks ih => exact trace.1.evolves.trans ((evolvesAsk trace.1.filed).trans (ih trace.2))

theorem around (trace : Trace d asks d') {a : Ask} (made : a ∈ asks) : d.Evolves a.draft ∧ a.left.Evolves d' := by
  induction asks generalizing d with
  | nil => cases made
  | cons b asks ih =>
    rcases List.mem_cons.1 made with rfl | later
    · exact ⟨trace.1.evolves, trace.2.evolves⟩
    · obtain ⟨before, behind⟩ := ih trace.2 later
      exact ⟨trace.1.evolves.trans ((evolvesAsk trace.1.filed).trans before), behind⟩

theorem ordered (trace : Trace d asks d') : asks.Pairwise fun a b => a.left.Grows b.draft := by
  induction asks generalizing d with
  | nil => exact .nil
  | cons a asks ih => exact .cons (fun b later => (trace.2.around later).1.grows) (ih trace.2)

theorem created (trace : Trace d asks d') {e : HelperKey × Symbol} (listed : e ∈ d'.helpers) :
    e ∈ d.helpers ∨ ∃ a ∈ asks, e ∈ a.left.helpers ∧ e ∉ a.draft.helpers := by
  induction asks generalizing d with
  | nil => exact .inl (Idles.helpers trace ▸ listed)
  | cons a asks ih =>
    rcases ih trace.2 with old | ⟨b, later, new⟩
    · by_cases before : e ∈ a.draft.helpers
      · exact .inl (trace.1.helpers ▸ before)
      · exact .inr ⟨a, List.mem_cons_self, old, before⟩
    · exact .inr ⟨b, List.mem_cons_of_mem _ later, new⟩

end Trace
end Draft

def Edit.Traces {α : Type} (edit : Edit α) (asks : Draft → List Ask) : Prop :=
  ∀ d, d.Filed [] → Draft.Trace d (asks d) (edit.left d)

namespace Edit
variable {α β : Type} {asks : Draft → List Ask}

theorem tracesQuiet {Answer : α → Prop} {edit : Edit α} (h : ∀ d : Draft, edit.Keeps d.Idles Answer) :
    edit.Traces fun _ => [] := fun d filed => keepsLeft (h d) filed.idles

theorem tracesPure (a : α) : (pure a : Edit α).Traces fun _ => [] := fun _ filed => filed.idles

theorem tracesThrow (e : GrammarError) : (throw e : Edit α).Traces fun _ => [] := fun _ filed => filed.idles

theorem tracesRequest (request : HelperRequest) : request.edit.Traces fun d => [⟨request, d⟩] := by
  intro d filed
  have evolves := Draft.evolvesAsk (a := ⟨request, d⟩) filed
  exact ⟨filed.idles, evolves.filed.idles⟩

theorem traceBind {edit : Edit α} {f : α → Edit β} {next : α → Draft → List Ask} {d : Draft} {asks : List Ask}
    (first : Draft.Trace d asks (edit.left d))
    (second : ∀ {a mid}, edit d = .ok a mid → mid.Filed [] → Draft.Trace mid (next a mid) ((f a).left mid)) :
    Draft.Trace d (asks ++ asksThen edit next d) (left (edit >>= f) d) := by
  cases result : edit d with
  | ok a mid =>
    have same : left (edit >>= f) d = left (f a) mid := by simp only [left, bind, EStateM.bind, result]
    rw [leftOk result] at first
    rw [same, asksThenOk result]
    exact first.append (second result first.evolves.filed)
  | error e mid =>
    have same : left (edit >>= f) d = mid := by simp only [left, bind, EStateM.bind, result]
    rw [leftError result] at first
    rw [same, asksThenError result, List.append_nil]
    exact first

theorem tracesBind {edit : Edit α} {f : α → Edit β} {next : α → Draft → List Ask} (first : edit.Traces asks)
    (second : ∀ a, (f a).Traces (next a)) : (edit >>= f).Traces fun d => asks d ++ asksThen edit next d :=
  fun d filed => traceBind (first d filed) fun _ filed => second _ _ filed

theorem tracesThen {edit : Edit α} {f : α → Edit β} {next : α → Draft → List Ask}
    (first : edit.Traces fun _ => []) (second : ∀ a, (f a).Traces (next a)) :
    (edit >>= f).Traces (asksThen edit next) := tracesBind first second

theorem tracesLast {edit : Edit α} {f : α → Edit β} (first : edit.Traces asks)
    (second : ∀ a, (f a).Traces fun _ => []) : (edit >>= f).Traces asks := by
  have traces := tracesBind first second
  simp only [asksThenNone, List.append_nil] at traces
  exact traces

theorem tracesDiscard {edit : Edit α} (h : edit.Traces asks) : (discard edit).Traces asks := by
  rw [discardBind]
  exact tracesLast h fun _ => tracesPure ()

end Edit

namespace Draft
open Edit (answersBind asksThen asksThenNone traceBind tracesQuiet tracesPure tracesThrow tracesRequest tracesBind
  tracesThen tracesLast tracesDiscard)
variable {d d' : Draft} {x : Symbol}

theorem Idles.push (idles : d.Idles d') {rules : List Rule}
    (bounded : ∀ r ∈ rules, r.origin ≠ .declared → r.production.lhs.key < d'.symbols.size)
    (unchanged : ∀ e ∈ d'.helpers, ({ d' with rules := d'.rules ++ rules } : Draft).given e.2 = d'.given e.2) :
    d.Idles { d' with rules := d'.rules ++ rules } := by
  obtain ⟨filed, within, helpers⟩ := idles
  refine ⟨⟨filed.keys, filed.symbols, filed.named, ?_, List.forall_mem_nil _, ?_⟩, within, helpers⟩
  · intro r listed helper
    rcases List.mem_append.1 listed with old | new
    · exact filed.bounded r old helper
    · exact bounded r new helper
  · intro e listed _
    obtain ⟨inner, rules, nested⟩ := filed.defined e listed List.not_mem_nil
    exact ⟨inner, (unchanged e listed).trans rules, nested⟩

theorem Idles.rule (idles : d.Idles d') {p : Production Symbol} :
    d.Idles { d' with rules := d'.rules ++ [⟨p, .declared⟩] } := by
  refine idles.push ?_ fun e _ => by simp [given]
  intro r last helper
  rw [List.mem_singleton.1 last] at helper
  exact absurd rfl helper

theorem Idles.define (idles : d.Idles d') (named : x.key < d'.symbols.size)
    (apart : ∀ e ∈ d'.helpers, e.2 ≠ x) {rules : List Rule} (own : ∀ r ∈ rules, r.production.lhs = x) :
    d.Idles { d' with rules := d'.rules ++ rules } :=
  idles.push (fun r listed _ => own r listed ▸ named) fun e listed => givenOther own (apart e listed)

theorem Idles.other (idles : d.Idles d') {precedence : PrecedenceTable} {declaredStart : Option Symbol} :
    d.Idles { d' with precedence, declaredStart } := by
  obtain ⟨filed, within, helpers⟩ := idles
  exact ⟨⟨filed.keys, filed.symbols, filed.named, filed.bounded, List.forall_mem_nil _, filed.defined⟩,
    within, helpers⟩

theorem steadyIdles (d : Draft) : Steady d.Idles where
  learn := by
    intro d' symbols within idles
    exact ⟨idles.filed.learns ⟨symbols, within, rfl⟩, idles.within.trans within, idles.helpers⟩
  rule := fun _ idles => idles.rule
  start := fun idles => idles.other
  declare := fun _ idles => idles.other
  override := fun idles => idles.other

theorem tracesIntern (name : String) : (intern name).Traces fun _ => [] :=
  tracesQuiet fun d => keepsIntern (steadyIdles d).learn name

theorem tracesInternSeparator (separator : Option String) : (internSeparator separator).Traces fun _ => [] :=
  tracesQuiet fun d => keepsInternSeparator (steadyIdles d).learn separator

theorem tracesTerm (term : Rhs.Term) : (expandTerm term).Traces (termAsks term) := by
  refine tracesThen (tracesIntern term.name) fun base => ?_
  cases term.op with
  | none => exact tracesPure base
  | some op =>
    cases op with
    | optional => exact tracesRequest (.optional base)
    | list => exact tracesRequest (.list base none)
    | nonemptyList => exact tracesRequest (.nonemptyList base none)

theorem tracesTerms (terms : List Rhs.Term) : (terms.mapM expandTerm).Traces (termsAsks terms) := by
  induction terms with
  | nil => exact tracesPure []
  | cons term terms ih =>
    rw [List.mapM_cons]
    exact tracesBind (tracesTerm term) fun x => tracesLast ih fun xs => tracesPure (x :: xs)

theorem tracesExpand (expression : String) : (expand expression).Traces (expandAsks expression) := by
  unfold expand expandAsks
  cases Rhs.parse expression with
  | error e => exact tracesThrow e
  | ok terms => exact tracesLast (tracesTerms terms) fun _ => tracesPure _

theorem Filed.apart (filed : d.Filed []) (undefined : d.defines x = false) : ∀ e ∈ d.helpers, e.2 ≠ x := by
  rintro e listed rfl
  obtain ⟨r, ruled, same⟩ := (filed.defined e listed List.not_mem_nil).ruled
  have defined : d.defines e.2 = true := List.any_eq_true.2 ⟨r, ruled, decide_eq_true same⟩
  rw [undefined] at defined
  cases defined

theorem freshDefinitionSource {name : String} (h : freshDefinition name d = .ok x d') :
    d'.defines x = false ∧ x.key < d'.symbols.size := by
  obtain ⟨y, mid, interned, h⟩ := answersBind.1 h
  obtain ⟨_, _, same, h⟩ := answersBind.1 h
  cases same
  split at h
  · cases h
  · rename_i undefined
    cases h
    obtain ⟨_, _, stands⟩ := internSource (internNonterminalIff.1 interned).1
    exact ⟨by simpa using undefined, (List.getElem?_eq_some_iff.1 (SymbolTable.lookupKey stands)).1⟩

theorem tracesDefinition {α : Type} (name : String) {middle : Edit α} {asks : Draft → List Ask}
    {define : Symbol → α → Edit Unit} (key : α → HelperKey) (inner : α → Symbol) (traces : middle.Traces asks)
    (pushes : ∀ x a d, define x a d = .ok () { d with rules := d.rules ++ (key a).rules x (inner a) }) :
    (do let x ← freshDefinition name; let a ← middle; define x a; pure x : Edit Symbol).Traces
      (asksThen (freshDefinition name) fun _ => asks) := by
  have fresh : (freshDefinition name).Traces fun _ => [] :=
    tracesQuiet fun d => keepsFreshDefinition (steadyIdles d).learn name
  intro d filed
  refine traceBind (fresh d filed) fun {x mid} answered filed => ?_
  obtain ⟨undefined, named⟩ := freshDefinitionSource answered
  have last {a : α} {d : Draft} (answered : middle mid = .ok a d) (filed' : d.Filed []) :
      Trace d [] (Edit.left (do define x a; pure x : Edit Symbol) d) := by
    have same : Edit.left (do define x a; pure x : Edit Symbol) d =
        { d with rules := d.rules ++ (key a).rules x (inner a) } := by
      simp only [Edit.left, bind, EStateM.bind, pushes]
      rfl
    have evolves := (traces mid filed).evolves
    rw [Edit.leftOk answered] at evolves
    rw [same]
    refine filed'.idles.define ?_ ?_ fun r listed => ((key a).rulesOwn r listed).1
    · exact Nat.lt_of_lt_of_le named (sizeWithin evolves.grows.within)
    · intro e listed
      rcases evolves.grows.fresh e listed with old | new
      · exact filed.apart undefined e old
      · rintro rfl
        exact absurd named (Nat.not_lt.2 new)
  have trace := traceBind (traces mid filed) last
  rwa [asksThenNone, List.append_nil] at trace

theorem tracesOperands (base : String) (separator : Option String) {α : Type} {f : Symbol → Option Symbol → Edit α}
    {next : Symbol → Option Symbol → Draft → List Ask} (h : ∀ x y, (f x y).Traces (next x y)) :
    (do let x ← intern base; let y ← internSeparator separator; f x y : Edit α).Traces
      (asksThen (intern base) fun x => asksThen (internSeparator separator) (next x)) :=
  tracesThen (tracesIntern base) fun x => tracesThen (tracesInternSeparator separator) fun y => h x y

theorem tracesCall (call : DraftCall) : call.edit.Traces call.asks := by
  cases call with
  | intern name => exact tracesDiscard (tracesIntern name)
  | internNonterminal name =>
    exact tracesDiscard (tracesQuiet fun d => keepsInternNonterminal (steadyIdles d).learn name)
  | declare lhs rhs => exact tracesDiscard (tracesQuiet fun d => keepsDeclare (steadyIdles d) lhs rhs)
  | declareSymbols lhs rhs =>
    exact tracesDiscard (tracesQuiet fun d => keepsDeclareSymbols (steadyIdles d) lhs rhs)
  | declareRule lhs expression =>
    refine tracesDiscard ?_
    refine tracesThen (tracesQuiet fun d => keepsInternNonterminal (steadyIdles d).learn lhs) fun lhs => ?_
    refine tracesLast (tracesExpand expression) fun expansion => ?_
    exact tracesQuiet fun d => keepsDeclareSymbols (steadyIdles d) lhs expansion.symbols
  | setStart name => exact tracesDiscard (tracesQuiet fun d => keepsSetStart (steadyIdles d) name)
  | declarePrecedence assoc terminals =>
    exact tracesDiscard (tracesQuiet fun d => keepsDeclarePrecedence (steadyIdles d) assoc terminals)
  | setProductionPrecedence id terminal =>
    exact tracesQuiet fun d => keepsSetProductionPrecedence (steadyIdles d) id terminal
  | optional base => exact tracesDiscard (tracesRequest (.optional base))
  | list base separator => exact tracesDiscard (tracesRequest (.list base separator))
  | nonemptyList base separator => exact tracesDiscard (tracesRequest (.nonemptyList base separator))
  | defineOptional name base =>
    refine tracesDiscard ?_
    have traces := tracesDefinition name (⟨.optional, ·, none⟩) id (tracesIntern base) fun x _ d =>
      optionalPushes x d
    rwa [asksThenNone] at traces
  | defineList name base separator =>
    refine tracesDiscard ?_
    have operands := tracesOperands base separator fun x y => tracesRequest (.nonemptyList x y)
    have traces := tracesDefinition name (⟨.list, ·, none⟩) id operands fun _ _ _ => pushTwo
    simp only [bind_assoc] at traces
    exact traces
  | defineNonemptyList name base separator =>
    refine tracesDiscard ?_
    have operands := tracesOperands base separator fun x y => tracesPure (x, y)
    have traces := tracesDefinition name (fun a => ⟨.nonemptyList, a.1, a.2⟩) Prod.fst operands fun x _ d =>
      nonemptyPushes x d
    simp only [asksThenNone, bind_assoc, pure_bind] at traces
    exact traces
  | expand expression => exact tracesDiscard (tracesExpand expression)

theorem filedEmpty : Filed .empty [] := by
  refine ⟨?_, ?_, ?_, ?_, ?_, ?_⟩ <;> simp [Draft.empty]

theorem performLeft (call : DraftCall) : d.perform call = call.edit.left d := by
  unfold perform Edit.left
  cases call.edit d <;> rfl

theorem askedTrace (filed : d.Filed []) (calls : List DraftCall) :
    Trace d (d.asked calls) (calls.foldl perform d) := by
  induction calls generalizing d with
  | nil => exact filed.idles
  | cons call calls ih =>
    have first := tracesCall call d filed
    rw [← performLeft] at first
    exact first.append (ih first.evolves.filed)

theorem historyTrace (calls : List DraftCall) : Trace .empty (asked .empty calls) (ofCalls calls) :=
  askedTrace filedEmpty calls

theorem filedOfCalls (calls : List DraftCall) : (ofCalls calls).Filed [] := (historyTrace calls).evolves.filed

end Draft
end ForkingLR
