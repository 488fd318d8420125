import ForkingLR.Grammar
import ForkingLR.Proofs.Lists
import ForkingLR.Proofs.Sorted

/-! Drafts as the outcome of a history of calls, failed ones included, and what every grammar
finished from such a draft has: nonterminals on the left, one augmented production at the end,
a production for each nonterminal it uses, and one associativity for each precedence level. -/
namespace ForkingLR

inductive DraftCall where
  | intern (name : String)
  | internNonterminal (name : String)
  | declare (lhs : String) (rhs : List String)
  | declareSymbols (lhs : Symbol) (rhs : List Symbol)
  | declareRule (lhs expression : String)
  | setStart (name : String)
  | declarePrecedence (assoc : Associativity) (terminals : List String)
  | setProductionPrecedence (id : Nat) (terminal : String)
  | optional (base : Symbol)
  | list (base : Symbol) (separator : Option Symbol)
  | nonemptyList (base : Symbol) (separator : Option Symbol)
  | defineOptional (name base : String)
  | defineList (name base : String) (separator : Option String)
  | defineNonemptyList (name base : String) (separator : Option String)
  | expand (expression : String)

def DraftCall.edit : DraftCall → Edit Unit
  | .intern name => discard (Draft.intern name)
  | .internNonterminal name => discard (Draft.internNonterminal name)
  | .declare lhs rhs => discard (Draft.declare lhs rhs)
  | .declareSymbols lhs rhs => discard (Draft.declareSymbols lhs rhs)
  | .declareRule lhs expression => discard (Draft.declareRule lhs expression)
  | .setStart name => discard (Draft.setStart name)
  | .declarePrecedence assoc terminals => discard (Draft.declarePrecedence assoc terminals)
  | .setProductionPrecedence id terminal => Draft.setProductionPrecedence id terminal
  | .optional base => discard (Draft.optional base)
  | .list base separator => discard (Draft.list base separator)
  | .nonemptyList base separator => discard (Draft.nonemptyList base separator)
  | .defineOptional name base => discard (Draft.defineOptional name base)
  | .defineList name base separator => discard (Draft.defineList name base separator)
  | .defineNonemptyList name base separator => discard (Draft.defineNonemptyList name base separator)
  | .expand expression => discard (Draft.expand expression)

def Draft.perform (d : Draft) (call : DraftCall) : Draft :=
  match call.edit d with
  | .ok _ d => d
  | .error _ d => d

def Draft.ofCalls (calls : List DraftCall) : Draft := calls.foldl Draft.perform .empty

def Grammar.Built (g : Grammar) : Prop := ∃ calls, (Draft.ofCalls calls).build = .ok g

def Edit.Keeps {α : Type} (Good : Draft → Prop) (edit : Edit α) (Answer : α → Prop) : Prop :=
  ∀ d, Good d → match edit d with
    | .ok a d => Good d ∧ Answer a
    | .error _ d => Good d

namespace Edit
variable {α β : Type} {Good : Draft → Prop}

theorem keepsPure {Answer : α → Prop} {a : α} (h : Answer a) : Keeps Good (pure a) Answer :=
  fun _ good => ⟨good, h⟩

theorem keepsThrow (Answer : α → Prop) (e : GrammarError) :
    Keeps Good (throw e : Edit α) Answer := fun _ good => good

theorem keepsGet : Keeps Good (get : Edit Draft) Good := fun _ good => ⟨good, good⟩

theorem keepsSet {d : Draft} (h : Good d) : Keeps Good (set d : Edit PUnit) fun _ => True :=
  fun _ _ => ⟨h, trivial⟩

theorem keepsModify {f : Draft → Draft} (h : ∀ d, Good d → Good (f d)) :
    Keeps Good (modify f : Edit PUnit) fun _ => True := fun d good => ⟨h d good, trivial⟩

theorem keepsBind {Middle : α → Prop} {Answer : β → Prop} {x : Edit α} {f : α → Edit β}
    (first : Keeps Good x Middle) (second : ∀ a, Middle a → Keeps Good (f a) Answer) :
    Keeps Good (x >>= f) Answer := by
  intro d good
  have left := first d good
  show match EStateM.bind x f d with
    | .ok a d => Good d ∧ Answer a
    | .error _ d => Good d
  unfold EStateM.bind
  cases result : x d with
  | ok a d =>
    rw [result] at left
    exact second a left.2 d left.1
  | error e d =>
    rw [result] at left
    exact left

theorem discardBind (x : Edit α) : discard x = x >>= fun _ => pure () := by
  simp only [discard, Functor.discard, Functor.mapConst, bind_pure_comp]
  rfl

theorem keepsDiscard (Answer : α → Prop) {x : Edit α} (h : Keeps Good x Answer) :
    Keeps Good (discard x) fun _ => True := by
  rw [discardBind]
  exact keepsBind h fun _ _ => keepsPure trivial

theorem keepsMapM (Answer : β → Prop) {f : α → Edit β} (h : ∀ a, Keeps Good (f a) Answer)
    (l : List α) : Keeps Good (l.mapM f) fun _ => True := by
  induction l with
  | nil => exact keepsPure trivial
  | cons a l ih =>
    rw [List.mapM_cons]
    exact keepsBind (h a) fun _ _ => keepsBind ih fun _ _ => keepsPure trivial

end Edit

namespace SymbolTable

theorem startKey (t : SymbolTable) : t.names.entries[2]? = some "$start" := by
  obtain ⟨rest, shape⟩ := t.reserved
  simp [← shape]

theorem lookupKey {t : SymbolTable} {name : String} {symbol : Symbol}
    (h : t.lookup? name = some symbol) : t.names.entries[symbol.key]? = some name := by
  obtain ⟨key, found, h⟩ := Option.bind_eq_some_iff.1 h
  obtain ⟨kind, _, h⟩ := Option.bind_eq_some_iff.1 h
  obtain rfl := Option.some.inj h
  obtain ⟨bound, here, _⟩ := List.idxOf?_eq_some_iff.1 found
  exact List.getElem?_eq_some_iff.2 ⟨bound, here⟩

theorem internKey {t t' : SymbolTable} {name : String} {symbol : Symbol}
    (h : intern name t = .ok symbol t') :
    name ≠ "$start" ∧ t'.names.entries[symbol.key]? = some name := by
  unfold intern at h
  split at h
  · contradiction
  · rename_i ordinary
    split at h
    · contradiction
    · cases h
      refine ⟨ordinary, ?_⟩
      simp only [add, Interner.intern]
      split
      · rename_i known
        simp [List.idxOf_lt_length_iff.2 known]
      · simp [Interner.size]

theorem internNotStart {t t' : SymbolTable} {name : String} {symbol : Symbol}
    (h : intern name t = .ok symbol t') : symbol ≠ .augmentedStart := by
  obtain ⟨ordinary, key⟩ := internKey h
  rintro rfl
  exact ordinary (Option.some.inj (key.symm.trans t'.startKey))

def Within (t t' : SymbolTable) : Prop := t.names.entries <+: t'.names.entries

theorem internWithin {t t' : SymbolTable} {name : String} {symbol : Symbol}
    (h : intern name t = .ok symbol t') : t.Within t' := by
  unfold intern at h
  split at h
  · contradiction
  · split at h
    · contradiction
    · cases h
      exact t.names.entriesPrefix name

theorem internFails {t t' : SymbolTable} {name : String} {e : GrammarError}
    (h : intern name t = .error e t') : t.Within t' := by
  unfold intern at h
  split at h
  · cases h
    exact List.prefix_rfl
  · split at h
    · cases h
      exact List.prefix_rfl
    · cases h

end SymbolTable

namespace PrecedenceTable

structure Graded (t : PrecedenceTable) : Prop where
  bounded : ∀ x p, t.terminals.get? x = some p → p.level ≤ t.lastLevel
  assoc : ∀ x y p q, t.terminals.get? x = some p → t.terminals.get? y = some q →
    p.level = q.level → p.assoc = q.assoc

theorem Graded.declare {t t' : PrecedenceTable} {assoc : Associativity} {symbols : List Symbol} {level : Nat}
    (h : t.Graded) (declared : t.declare assoc symbols = .ok (level, t')) : t'.Graded := by
  unfold PrecedenceTable.declare at declared
  split at declared
  · cases declared
  · cases declared
    have known {x : Symbol} {p : Precedence}
        (found : (symbols.foldl (fun m s => m.insert s ⟨t.lastLevel + 1, assoc⟩) t.terminals).get? x = some p) :
        p = ⟨t.lastLevel + 1, assoc⟩ ∨ t.terminals.get? x = some p ∧ p.level ≤ t.lastLevel := by
      rw [SortedMap.getFoldInsert] at found
      split at found
      · exact .inl (Option.some.inj found).symm
      · exact .inr ⟨found, h.bounded x p found⟩
    refine ⟨?_, ?_⟩
    · intro x p found
      rcases known found with rfl | ⟨_, old⟩
      · exact Nat.le_refl _
      · exact Nat.le_succ_of_le old
    · intro x y p q found found' same
      rcases known found with rfl | ⟨found, old⟩
      · rcases known found' with rfl | ⟨_, old'⟩
        · rfl
        · dsimp only at same
          omega
      · rcases known found' with rfl | ⟨found', _⟩
        · dsimp only at same
          omega
        · exact h.assoc x y p q found found' same

end PrecedenceTable

namespace Draft

def Definable (symbol : Symbol) : Prop := isTerminal symbol = false ∧ symbol ≠ .augmentedStart

/-- An invariant that an author does not break with names, rules, a start symbol and precedences. -/
structure Steady (Good : Draft → Prop) : Prop where
  learn : ∀ {d symbols}, d.symbols.Within symbols → Good d → Good { d with symbols }
  rule : ∀ {d lhs rhs}, Definable lhs → Good d →
    Good { d with rules := d.rules ++ [⟨⟨lhs, rhs⟩, .declared⟩] }
  start : ∀ {d declaredStart}, Good d → Good { d with declaredStart }
  declare : ∀ {d assoc symbols level precedence},
    d.precedence.declare assoc symbols = .ok (level, precedence) → Good d → Good { d with precedence }
  override : ∀ {d id terminal}, Good d → Good { d with precedence := d.precedence.override id terminal }

structure Stable (Good : Draft → Prop) : Prop extends Steady Good where
  define : ∀ {d lhs rhs role}, Definable lhs → Good d →
    Good { d with rules := d.rules ++ [⟨⟨lhs, rhs⟩, .helper role⟩] }
  helpers : ∀ {d helpers}, Good d → Good { d with helpers }

theorem internTests (name : String) (test : Symbol → EStateM GrammarError SymbolTable Symbol) :
    onSymbols (do let x ← SymbolTable.intern name; test x) =
      (do let x ← intern name; onSymbols (test x) : Edit Symbol) := by
  funext d
  simp only [bind, EStateM.bind, intern, onSymbols]
  cases SymbolTable.intern name d.symbols <;> rfl

theorem internTerminalTests (name : String) : internTerminal name = (do
    let x ← intern name
    onSymbols (if isTerminal x then pure x else throw (.expectedTerminal name)) : Edit Symbol) :=
  internTests name _

theorem internNonterminalTests (name : String) : internNonterminal name = (do
    let x ← intern name
    onSymbols (if isTerminal x then throw (.expectedNonterminal name) else pure x) : Edit Symbol) :=
  internTests name _

section
variable {Good : Draft → Prop}
  (learn : ∀ {d : Draft} {symbols : SymbolTable}, d.symbols.Within symbols → Good d → Good { d with symbols })
include learn

theorem keepsIntern (name : String) : Edit.Keeps Good (intern name) (· ≠ .augmentedStart) := by
  intro d good
  simp only [intern, onSymbols]
  cases result : SymbolTable.intern name d.symbols with
  | ok x symbols => exact ⟨learn (SymbolTable.internWithin result) good, SymbolTable.internNotStart result⟩
  | error e symbols => exact learn (SymbolTable.internFails result) good

theorem keepsInternTerminal (name : String) :
    Edit.Keeps Good (internTerminal name) fun _ => True := by
  rw [internTerminalTests]
  refine Edit.keepsBind (keepsIntern learn name) fun x _ => ?_
  split
  · exact Edit.keepsPure trivial
  · exact Edit.keepsThrow _ _

theorem keepsInternNonterminal (name : String) :
    Edit.Keeps Good (internNonterminal name) Definable := by
  rw [internNonterminalTests]
  refine Edit.keepsBind (keepsIntern learn name) fun x ordinary => ?_
  split
  · exact Edit.keepsThrow _ _
  · rename_i nonterminal
    exact Edit.keepsPure ⟨by simpa using nonterminal, ordinary⟩

theorem keepsFreshDefinition (name : String) :
    Edit.Keeps Good (freshDefinition name) Definable := by
  refine Edit.keepsBind (keepsInternNonterminal learn name) fun lhs definable => ?_
  refine Edit.keepsBind Edit.keepsGet fun d _ => ?_
  split
  · exact Edit.keepsBind (Edit.keepsThrow (fun _ => True) _) fun _ _ =>
      Edit.keepsPure definable
  · exact Edit.keepsPure definable

theorem keepsInternSeparator (separator : Option String) :
    Edit.Keeps Good (internSeparator separator) fun _ => True := by
  cases separator with
  | none => exact Edit.keepsPure trivial
  | some name => exact Edit.keepsBind (keepsIntern learn name) fun _ _ => Edit.keepsPure trivial

end

section
variable {Good : Draft → Prop} (steady : Steady Good)
include steady

theorem keepsRule {lhs : Symbol} (definable : Definable lhs) (rhs : List Symbol) :
    Edit.Keeps Good (push lhs rhs .declared) fun _ => True := by
  intro d good
  exact ⟨steady.rule definable good, trivial⟩

theorem keepsDeclare (lhs : String) (rhs : List String) : Edit.Keeps Good (declare lhs rhs) fun _ => True := by
  refine Edit.keepsBind (keepsInternNonterminal steady.learn lhs) fun lhs definable => ?_
  exact Edit.keepsBind (Edit.keepsMapM _ (keepsIntern steady.learn) rhs) fun rhs _ => keepsRule steady definable rhs

theorem keepsDeclareSymbols (lhs : Symbol) (rhs : List Symbol) :
    Edit.Keeps Good (declareSymbols lhs rhs) fun _ => True := by
  unfold declareSymbols
  split
  · refine Edit.keepsBind Edit.keepsGet fun d _ => ?_
    exact Edit.keepsThrow _ _
  · rename_i allowed
    have definable : Definable lhs := by simpa [Definable] using allowed
    exact keepsRule steady definable rhs

theorem keepsSetStart (name : String) : Edit.Keeps Good (setStart name) fun _ => True := by
  intro d good
  have kept := keepsIntern steady.learn name d good
  simp only [setStart]
  cases result : intern name d with
  | ok symbol d =>
    rw [result] at kept
    dsimp only
    split
    · rename_i same
      split at same <;> cases same
      exact ⟨steady.start kept.1, trivial⟩
    · rename_i same
      split at same <;> cases same
      exact kept.1
  | error e d =>
    rw [result] at kept
    exact kept

theorem keepsDeclarePrecedence (assoc : Associativity) (terminals : List String) :
    Edit.Keeps Good (declarePrecedence assoc terminals) fun _ => True := by
  refine Edit.keepsBind (Edit.keepsMapM _ (keepsInternTerminal steady.learn) terminals) fun symbols _ => ?_
  refine Edit.keepsBind Edit.keepsGet fun d good => ?_
  split
  · rename_i declared
    exact Edit.keepsBind (Edit.keepsSet (steady.declare declared good)) fun _ _ => Edit.keepsPure trivial
  · exact Edit.keepsThrow _ _

theorem keepsSetProductionPrecedence (id : Nat) (terminal : String) :
    Edit.Keeps Good (setProductionPrecedence id terminal) fun _ => True := by
  refine Edit.keepsBind Edit.keepsGet fun d _ => ?_
  have rest : Edit.Keeps Good (do
      let symbol ← internTerminal terminal
      modify fun d => { d with precedence := d.precedence.override id symbol }) fun _ => True :=
    Edit.keepsBind (keepsInternTerminal steady.learn terminal) fun _ _ => Edit.keepsModify fun _ => steady.override
  split
  · exact Edit.keepsBind (Edit.keepsThrow (fun _ => True) _) fun _ _ => rest
  · exact rest

end

section
variable {Good : Draft → Prop} (stable : Stable Good)
include stable

theorem keepsPushTwo {lhs : Symbol} (definable : Definable lhs) (one two : List Symbol)
    (first second : HelperRole) : Edit.Keeps Good (do
      discard (push lhs one (.helper first))
      discard (push lhs two (.helper second))) fun _ => True := by
  have keeps (rhs : List Symbol) (role : HelperRole) :
      Edit.Keeps Good (push lhs rhs (.helper role)) fun _ => True :=
    fun d good => ⟨stable.define definable good, trivial⟩
  exact Edit.keepsBind (Edit.keepsDiscard _ (keeps one first)) fun _ _ => Edit.keepsDiscard _ (keeps two second)

theorem keepsHelper {key : HelperKey} {define : Symbol → Edit Unit}
    (h : ∀ symbol, Definable symbol → Edit.Keeps Good (define symbol) fun _ => True) :
    Edit.Keeps Good (helper key define) fun _ => True := by
  refine Edit.keepsBind Edit.keepsGet fun d _ => ?_
  cases d.helpers.lookup key with
  | some existing => exact Edit.keepsPure trivial
  | none =>
    refine Edit.keepsBind (keepsInternNonterminal stable.learn _) fun symbol definable => ?_
    refine Edit.keepsBind (Edit.keepsModify fun _ => stable.helpers) fun _ _ => ?_
    exact Edit.keepsBind (h symbol definable) fun _ _ => Edit.keepsPure trivial

theorem keepsOptional (base : Symbol) : Edit.Keeps Good (optional base) fun _ => True :=
  keepsHelper stable fun _ definable => keepsPushTwo stable definable _ _ _ _

theorem keepsNonemptyList (base : Symbol) (separator : Option Symbol) :
    Edit.Keeps Good (nonemptyList base separator) fun _ => True :=
  keepsHelper stable fun _ definable => keepsPushTwo stable definable _ _ _ _

theorem keepsList (base : Symbol) (separator : Option Symbol) :
    Edit.Keeps Good (list base separator) fun _ => True :=
  keepsHelper stable fun _ definable => Edit.keepsBind (keepsNonemptyList stable base separator) fun _ _ =>
    keepsPushTwo stable definable _ _ _ _

theorem keepsExpand (expression : String) : Edit.Keeps Good (expand expression) fun _ => True := by
  unfold expand
  split
  · exact Edit.keepsThrow _ _
  · refine Edit.keepsBind (Edit.keepsMapM (fun _ => True) ?_ _) fun _ _ =>
      Edit.keepsPure trivial
    intro term
    refine Edit.keepsBind (keepsIntern stable.learn term.name) fun base _ => ?_
    split
    · exact Edit.keepsPure trivial
    · exact keepsOptional stable base
    · exact keepsList stable base none
    · exact keepsNonemptyList stable base none

theorem keepsCall (call : DraftCall) : Edit.Keeps Good call.edit fun _ => True := by
  have steady := stable.toSteady
  cases call with
  | intern name => exact Edit.keepsDiscard _ (keepsIntern steady.learn name)
  | internNonterminal name => exact Edit.keepsDiscard _ (keepsInternNonterminal steady.learn name)
  | declare lhs rhs => exact Edit.keepsDiscard _ (keepsDeclare steady lhs rhs)
  | declareSymbols lhs rhs => exact Edit.keepsDiscard _ (keepsDeclareSymbols steady lhs rhs)
  | declareRule lhs expression =>
    refine Edit.keepsDiscard (fun _ => True) ?_
    refine Edit.keepsBind (keepsInternNonterminal steady.learn lhs) fun lhs _ => ?_
    exact Edit.keepsBind (keepsExpand stable expression) fun _ _ => keepsDeclareSymbols steady _ _
  | setStart name => exact Edit.keepsDiscard _ (keepsSetStart steady name)
  | declarePrecedence assoc terminals =>
    exact Edit.keepsDiscard _ (keepsDeclarePrecedence steady assoc terminals)
  | setProductionPrecedence id terminal => exact keepsSetProductionPrecedence steady id terminal
  | optional base => exact Edit.keepsDiscard _ (keepsOptional stable base)
  | list base separator => exact Edit.keepsDiscard _ (keepsList stable base separator)
  | nonemptyList base separator => exact Edit.keepsDiscard _ (keepsNonemptyList stable base separator)
  | defineOptional name base =>
    refine Edit.keepsDiscard (fun _ => True) ?_
    refine Edit.keepsBind (keepsFreshDefinition steady.learn name) fun lhs definable => ?_
    refine Edit.keepsBind (keepsIntern steady.learn base) fun base _ => ?_
    exact Edit.keepsBind (keepsPushTwo stable definable _ _ _ _) fun _ _ => Edit.keepsPure trivial
  | defineList name base separator =>
    refine Edit.keepsDiscard (fun _ => True) ?_
    refine Edit.keepsBind (keepsFreshDefinition steady.learn name) fun lhs definable => ?_
    refine Edit.keepsBind (keepsIntern steady.learn base) fun base _ => ?_
    refine Edit.keepsBind (keepsInternSeparator steady.learn separator) fun separator _ => ?_
    refine Edit.keepsBind (keepsNonemptyList stable base separator) fun _ _ => ?_
    exact Edit.keepsBind (keepsPushTwo stable definable _ _ _ _) fun _ _ => Edit.keepsPure trivial
  | defineNonemptyList name base separator =>
    refine Edit.keepsDiscard (fun _ => True) ?_
    refine Edit.keepsBind (keepsFreshDefinition steady.learn name) fun lhs definable => ?_
    refine Edit.keepsBind (keepsIntern steady.learn base) fun base _ => ?_
    refine Edit.keepsBind (keepsInternSeparator steady.learn separator) fun separator _ => ?_
    exact Edit.keepsBind (keepsPushTwo stable definable _ _ _ _) fun _ _ => Edit.keepsPure trivial
  | expand expression => exact Edit.keepsDiscard _ (keepsExpand stable expression)

theorem Stable.perform {d : Draft} (good : Good d) (call : DraftCall) : Good (d.perform call) := by
  have kept := keepsCall stable call d good
  unfold Draft.perform
  cases result : call.edit d with
  | ok a d =>
    rw [result] at kept
    exact kept.1
  | error e d =>
    rw [result] at kept
    exact kept

theorem Stable.fold {d : Draft} (good : Good d) (calls : List DraftCall) : Good (calls.foldl Draft.perform d) := by
  induction calls generalizing d with
  | nil => exact good
  | cons call calls ih => exact ih (stable.perform good call)

theorem Stable.ofCalls (good : Good .empty) (calls : List DraftCall) : Good (Draft.ofCalls calls) :=
  stable.fold good calls

end

def Sound (d : Draft) : Prop := ∀ r ∈ d.rules, Definable r.production.lhs

theorem Sound.push {d : Draft} (sound : d.Sound) {r : Rule} (definable : Definable r.production.lhs) :
    ({ d with rules := d.rules ++ [r] } : Draft).Sound := by
  intro other inside
  rcases List.mem_append.1 inside with old | new
  · exact sound other old
  · rw [List.mem_singleton.1 new]
    exact definable

theorem soundStable : Stable Sound where
  learn := fun _ => id
  rule := fun definable sound => sound.push definable
  define := fun definable sound => sound.push definable
  helpers := id
  start := id
  declare := fun _ => id
  override := id

theorem gradedStable : Stable fun d => d.precedence.Graded where
  learn := fun _ => id
  rule := fun _ => id
  define := fun _ => id
  helpers := id
  start := id
  declare := fun declared graded => graded.declare declared
  override := fun graded => ⟨graded.bounded, graded.assoc⟩

theorem appendsStable (d : Draft) : Stable fun d' => d.rules <+: d'.rules where
  learn := fun _ => id
  rule := fun _ appends => appends.trans (List.prefix_append _ _)
  define := fun _ appends => appends.trans (List.prefix_append _ _)
  helpers := id
  start := id
  declare := fun _ => id
  override := id

theorem soundOfCalls (calls : List DraftCall) : (ofCalls calls).Sound :=
  soundStable.ofCalls (by simp [Sound, empty]) calls

end Draft

namespace Grammar

structure WellFormed (g : Grammar) : Prop where
  startProduction : g.productions[g.startProduction]? = some ⟨.augmentedStart, [g.start]⟩
  startOnly : ∀ {id p}, g.productions[id]? = some p → p.lhs = .augmentedStart → id = g.startProduction
  lhsNonterminal : ∀ p ∈ g.productions, isTerminal p.lhs = false
  startNonterminal : isTerminal g.start = false
  defined : ∀ p ∈ g.productions, ∀ x ∈ p.rhs, isTerminal x = false →
    ∃ q ∈ g.productions, q.lhs = x ∧ x ≠ .augmentedStart

theorem WellFormed.startUnused {g : Grammar} (wf : g.WellFormed) {p : Production Symbol}
    (h : p ∈ g.productions) : Symbol.augmentedStart ∉ p.rhs := by
  intro used
  obtain ⟨_, _, _, different⟩ := wf.defined p h _ used (by decide)
  exact different rfl

end Grammar

namespace Draft

theorem buildSource {d : Draft} {g : Grammar} (h : d.build = .ok g) :
    g.symbols = d.symbols ∧ g.precedence = d.precedence ∧
    g.productions = d.productions ++ [⟨.augmentedStart, [g.start]⟩] ∧
    g.origins = d.rules.map Rule.origin ++ [.start] ∧
    d.start? = some g.start ∧ d.defines g.start = true ∧ d.undefined? = none := by
  simp only [build, bind, Except.bind, pure, Except.pure, throw, throwThe,
    MonadExceptOf.throw] at h
  split at h <;> try contradiction
  split at h <;> try contradiction
  rename_i start chosen
  split at h <;> try contradiction
  rename_i defined
  cases complete : d.undefined? with
  | some symbol => simp [complete] at h
  | none =>
    simp only [complete, Except.ok.injEq] at h
    subst h
    exact ⟨rfl, rfl, rfl, rfl, chosen, by simpa using defined, rfl⟩

theorem buildAt {d : Draft} {g : Grammar} (built : d.build = .ok g) {id : Nat} {r : Rule}
    (found : d.rules[id]? = some r) : g.production? id = some r.production ∧ g.origin? id = some r.origin := by
  obtain ⟨_, _, productions, origins, _⟩ := buildSource built
  have inside := (List.getElem?_eq_some_iff.1 found).1
  refine ⟨?_, ?_⟩
  · rw [Grammar.production?, productions, List.getElem?_append_left (by simpa [Draft.productions] using inside)]
    simp [Draft.productions, found]
  · rw [Grammar.origin?, origins, List.getElem?_append_left (by simpa using inside)]
    simp [found]

theorem buildEnd {d : Draft} {g : Grammar} (built : d.build = .ok g) :
    g.size = d.size + 1 ∧ g.origins.length = d.size + 1 ∧ g.origin? d.size = some .start := by
  obtain ⟨_, _, productions, origins, _⟩ := buildSource built
  refine ⟨?_, ?_, ?_⟩
  · simp [Grammar.size, productions, Draft.productions, size]
  · simp [origins, size]
  · simp [Grammar.origin?, origins, size]

theorem memProductions {d : Draft} {p : Production Symbol} (sound : d.Sound)
    (h : p ∈ d.productions) : Definable p.lhs := by
  obtain ⟨r, hr, rfl⟩ := List.mem_map.1 h
  exact sound r hr

theorem definesSource {d : Draft} {x : Symbol} (h : d.defines x = true) :
    ∃ p ∈ d.productions, p.lhs = x := by
  obtain ⟨r, hr, same⟩ := List.any_eq_true.1 h
  exact ⟨r.production, List.mem_map_of_mem hr, by simpa using same⟩

theorem wellFormedBuild {d : Draft} {g : Grammar} (sound : d.Sound) (h : d.build = .ok g) :
    g.WellFormed := by
  obtain ⟨_, _, productions, _, _, defined, complete⟩ := buildSource h
  obtain ⟨first, found, same⟩ := definesSource defined
  have last : g.startProduction = d.productions.length := by
    simp [Grammar.startProduction, Grammar.size, productions]
  have definable : Definable g.start := same ▸ memProductions sound found
  have member {p : Production Symbol} (h : p ∈ g.productions) :
      p ∈ d.productions ∨ p = ⟨.augmentedStart, [g.start]⟩ := by
    simpa [productions] using h
  have inside {p : Production Symbol} (h : p ∈ d.productions) : p ∈ g.productions := by
    simp [productions, h]
  refine ⟨?_, ?_, ?_, definable.1, ?_⟩
  · simp [productions, last]
  · intro id p found lhs
    rw [productions] at found
    by_cases early : id < d.productions.length
    · rw [List.getElem?_append_left early] at found
      exact absurd lhs (memProductions sound (List.mem_of_getElem? found)).2
    · have bound := (List.getElem?_eq_some_iff.1 found).1
      simp only [List.length_append, List.length_singleton] at bound
      omega
  · intro p hp
    rcases member hp with hp | rfl
    · exact (memProductions sound hp).1
    · rfl
  · intro p hp x hx nonterminal
    rcases member hp with hp | rfl
    · have all := List.find?_eq_none.1 complete x (List.mem_flatMap.2 ⟨p, hp, hx⟩)
      obtain ⟨q, hq, rfl⟩ := definesSource (d := d) (x := x) (by simpa [nonterminal] using all)
      exact ⟨q, inside hq, rfl, (memProductions sound hq).2⟩
    · rw [List.mem_singleton.1 hx]
      exact ⟨first, inside found, same, definable.2⟩

end Draft

theorem Grammar.Built.wellFormed {g : Grammar} (h : g.Built) : g.WellFormed := by
  obtain ⟨calls, built⟩ := h
  exact Draft.wellFormedBuild (Draft.soundOfCalls calls) built

theorem Grammar.Built.graded {g : Grammar} (h : g.Built) : g.precedence.Graded := by
  obtain ⟨calls, built⟩ := h
  rw [(Draft.buildSource built).2.1]
  refine Draft.gradedStable.ofCalls ⟨?_, ?_⟩ calls
  · intro x p found
    simp [Draft.empty, SortedMap.getEmpty] at found
  · intro x y p q found
    simp [Draft.empty, SortedMap.getEmpty] at found

def Draft.sumCalls : List DraftCall :=
  [.declare "e" ["e", "PLUS", "e"], .declare "e" ["N"], .declare "e" ["ERROR"]]

theorem Draft.sumsBuilt : ∃ g, (ofCalls sumCalls).build = .ok g := okOfIsOk (by decide +kernel)

end ForkingLR
