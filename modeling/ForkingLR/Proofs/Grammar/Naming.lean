import ForkingLR.Proofs.Grammar.History
import ForkingLR.Proofs.Sorted
import Mathlib.Data.List.Nodup

/-! Symbols and their names. A history of calls that hands over only symbols of its own draft ends in a
grammar all of whose symbols have a name, so that the name can stand for the symbol. -/
namespace ForkingLR

namespace SymbolTable
variable {t : SymbolTable} {name : String} {x : Symbol}

def Knows (t : SymbolTable) (x : Symbol) : Prop := t.lookup? (t.name x) = some x

instance (t : SymbolTable) (x : Symbol) : Decidable (t.Knows x) :=
  inferInstanceAs (Decidable (t.lookup? (t.name x) = some x))

theorem lookupIff : t.lookup? name = some x ↔
    t.names.entries[x.key]? = some name ∧ SymbolKind.ofName? name = some x.kind := by
  constructor
  · intro found
    refine ⟨lookupKey found, ?_⟩
    obtain ⟨key, _, found⟩ := Option.bind_eq_some_iff.1 found
    obtain ⟨kind, spelled, found⟩ := Option.bind_eq_some_iff.1 found
    obtain rfl := Option.some.inj found
    exact spelled
  · rintro ⟨placed, spelled⟩
    obtain ⟨bound, here⟩ := List.getElem?_eq_some_iff.1 placed
    have key : t.names.key? name = some x.key := by
      refine List.idxOf?_eq_some_iff.2 ⟨bound, here, ?_⟩
      intro j before same
      have equal := t.names.nodup.getElem_inj_iff.1 (same.trans here.symm)
      omega
    simp [lookup?, key, spelled]

theorem nameOfLookup (found : t.lookup? name = some x) : t.name x = name := by
  simp [SymbolTable.name, Interner.resolve?, (lookupIff.1 found).1]

theorem knowsLookup (found : t.lookup? name = some x) : t.Knows x := by
  rw [Knows, nameOfLookup found]
  exact found

theorem lookupReserved : t.lookup? "EOS" = some .endOfInput ∧ t.lookup? "ERROR" = some .error ∧
    t.lookup? "$start" = some .augmentedStart := by
  obtain ⟨rest, shape⟩ := t.reserved
  simp only [lookupIff, ← shape]
  exact ⟨⟨rfl, by decide⟩, ⟨rfl, by decide⟩, ⟨rfl, by decide⟩⟩

theorem Within.knows {t' : SymbolTable} (within : t.Within t') (known : t.Knows x) : t'.Knows x := by
  obtain ⟨placed, spelled⟩ := lookupIff.1 known
  obtain ⟨rest, shape⟩ := within
  refine knowsLookup (lookupIff.2 ⟨?_, spelled⟩)
  rw [← shape, List.getElem?_append_left (List.getElem?_eq_some_iff.1 placed).1, placed]

theorem internKnows {t' : SymbolTable} (h : intern name t = .ok x t') : t.Within t' ∧ t'.Knows x := by
  have placed := (internKey h).2
  refine ⟨internWithin h, ?_⟩
  unfold intern at h
  split at h
  · contradiction
  · split at h
    · contradiction
    · rename_i kind spelled
      cases h
      exact knowsLookup (lookupIff.2 ⟨placed, spelled⟩)

end SymbolTable

namespace Draft

def mentioned (d : Draft) : List Symbol :=
  d.productions.flatMap (fun p => p.lhs :: p.rhs) ++ d.helpers.map Prod.snd ++ d.precedence.terminals.keys

def Named (d : Draft) : Prop := ∀ x ∈ d.mentioned, d.symbols.Knows x

end Draft

def Edit.Names {α : Type} (before : List Symbol) (edit : Edit α) (answer : α → List Symbol) : Prop :=
  ∀ d, d.Named → (∀ x ∈ before, d.symbols.Knows x) → match edit d with
    | .ok a d' => (d'.Named ∧ d.symbols.Within d'.symbols) ∧ ∀ x ∈ answer a, d'.symbols.Knows x
    | .error _ d' => d'.Named ∧ d.symbols.Within d'.symbols

namespace Edit
variable {α β : Type} {before : List Symbol}

theorem namesPure {a : α} {answer : α → List Symbol} (h : answer a ⊆ before) :
    Names before (pure a) answer :=
  fun _ named known => ⟨⟨named, List.prefix_rfl⟩, fun x inside => known x (h inside)⟩

theorem namesThrow (answer : α → List Symbol) (e : GrammarError) : Names before (throw e : Edit α) answer :=
  fun _ named _ => ⟨named, List.prefix_rfl⟩

theorem namesGet : Names before (get : Edit Draft) Draft.mentioned :=
  fun _ named _ => ⟨⟨named, List.prefix_rfl⟩, named⟩

theorem namesGetThen {answer : α → List Symbol} {f : Draft → Edit α}
    (h : Names before (fun d => f d d) answer) : Names before (get >>= f) answer := h

theorem namesBind {middle : α → List Symbol} {answer : β → List Symbol} {x : Edit α} {f : α → Edit β}
    (first : Names before x middle) (second : ∀ a, Names (middle a ++ before) (f a) answer) :
    Names before (x >>= f) answer := by
  intro d named known
  have left := first d named known
  show match EStateM.bind x f d with
    | .ok a d' => (d'.Named ∧ d.symbols.Within d'.symbols) ∧ ∀ x ∈ answer a, d'.symbols.Knows x
    | .error _ d' => d'.Named ∧ d.symbols.Within d'.symbols
  unfold EStateM.bind
  cases result : x d with
  | error e d' =>
    rw [result] at left
    exact left
  | ok a d' =>
    rw [result] at left
    obtain ⟨⟨named', within⟩, known'⟩ := left
    have right := second a d' named' (fun x inside => (List.mem_append.1 inside).elim (known' x)
      fun inside => within.knows (known x inside))
    dsimp only
    cases result' : f a d' with
    | ok b d'' =>
      rw [result'] at right
      exact ⟨⟨right.1.1, within.trans right.1.2⟩, right.2⟩
    | error e d'' =>
      rw [result'] at right
      exact ⟨right.1, within.trans right.2⟩

theorem namesDiscard (answer : α → List Symbol) {x : Edit α} (h : Names before x answer) :
    Names before (discard x) fun _ => [] := by
  rw [discardBind]
  exact namesBind h fun _ => namesPure (List.nil_subset _)

theorem namesMapM {f : α → Edit Symbol} (h : ∀ before a, Names before (f a) fun x => [x]) (l : List α) :
    ∀ before, Names before (l.mapM f) id := by
  induction l with
  | nil => exact fun _ => namesPure (List.nil_subset _)
  | cons a l ih =>
    intro before
    rw [List.mapM_cons]
    refine namesBind (h before a) fun x => namesBind (ih _) fun xs => namesPure ?_
    simp

end Edit

namespace Draft
open Edit (Names namesPure namesThrow namesGet namesGetThen namesBind namesDiscard namesMapM)
variable {before : List Symbol}

theorem Named.within {d : Draft} (named : d.Named) {symbols : SymbolTable} (within : d.symbols.Within symbols) :
    ({ d with symbols } : Draft).Named := fun x inside => within.knows (named x inside)

theorem namesIntern (name : String) : Names before (intern name) fun x => [x] := by
  intro d named _
  simp only [intern, onSymbols]
  cases result : SymbolTable.intern name d.symbols with
  | ok x symbols =>
    obtain ⟨within, known⟩ := SymbolTable.internKnows result
    refine ⟨⟨named.within within, within⟩, fun y inside => ?_⟩
    rw [List.mem_singleton.1 inside]
    exact known
  | error e symbols =>
    have within := SymbolTable.internFails result
    exact ⟨named.within within, within⟩

theorem namesInternTerminal (name : String) : Names before (internTerminal name) fun x => [x] := by
  rw [internTerminalTests]
  refine namesBind (namesIntern name) fun x => ?_
  split
  · exact namesPure (List.subset_append_left _ _)
  · exact namesThrow _ _

theorem namesInternNonterminal (name : String) : Names before (internNonterminal name) fun x => [x] := by
  rw [internNonterminalTests]
  refine namesBind (namesIntern name) fun x => ?_
  split
  · exact namesThrow _ _
  · exact namesPure (List.subset_append_left _ _)

theorem namesPush {lhs : Symbol} {rhs : List Symbol} (known : lhs :: rhs ⊆ before) (origin : Origin) :
    Names before (push lhs rhs origin) fun _ => [] := by
  intro d named given
  refine ⟨⟨?_, List.prefix_rfl⟩, List.forall_mem_nil _⟩
  intro x inside
  have cases : x ∈ d.mentioned ∨ x ∈ lhs :: rhs := by
    simp only [mentioned, productions, List.map_append, List.flatMap_append, List.mem_append] at inside ⊢
    simp only [List.map_cons, List.map_nil, List.flatMap_cons, List.flatMap_nil, List.append_nil] at inside
    tauto
  rcases cases with old | new
  · exact named x old
  · exact given x (known new)

theorem namesPushTwo {lhs : Symbol} {one two : List Symbol} (known : lhs :: one ⊆ before)
    (known' : lhs :: two ⊆ before) (first second : Origin) :
    Names before (do discard (push lhs one first); discard (push lhs two second)) fun _ => [] :=
  namesBind (namesDiscard _ (namesPush known first)) fun _ => namesDiscard _ (namesPush known' second)

theorem namesHelper {key : HelperKey} {define : Symbol → Edit Unit}
    (h : ∀ x after, x :: before ⊆ after → Names after (define x) fun _ => []) :
    Names before (helper key define) fun x => [x] := by
  refine namesBind namesGet fun d => ?_
  cases found : d.helpers.lookup key with
  | some existing =>
    refine namesPure ?_
    obtain ⟨front, back, listed, _⟩ := List.lookup_eq_some_iff.1 found
    have inside : existing ∈ d.mentioned := by simp [mentioned, listed]
    simp [inside]
  | none =>
    refine namesBind (namesInternNonterminal _) fun x => ?_
    have recorded : Names ([x] ++ (d.mentioned ++ before))
        (modify fun d => { d with helpers := d.helpers ++ [(key, x)] }) fun _ => [] := by
      intro d named given
      refine ⟨⟨?_, List.prefix_rfl⟩, List.forall_mem_nil _⟩
      intro y inside
      have cases : y ∈ d.mentioned ∨ y = x := by
        simp only [mentioned, productions, List.map_append, List.mem_append, List.map_cons, List.map_nil,
          List.mem_singleton] at inside ⊢
        tauto
      rcases cases with old | rfl
      · exact named y old
      · exact given y (by simp)
    refine namesBind recorded fun _ => namesBind (h x _ ?_) fun _ => namesPure ?_
    · simp
    · simp

theorem namesOptional {base : Symbol} (known : base ∈ before) : Names before (optional base) fun x => [x] := by
  refine namesHelper fun lhs after larger => ?_
  obtain ⟨own, rest⟩ := List.cons_subset.1 larger
  exact namesPushTwo (by simp [own]) (by simp [own, rest known]) _ _

theorem namesPushNonempty {lhs base : Symbol} {separator : Option Symbol} (own : lhs ∈ before)
    (known : base :: separator.toList ⊆ before) :
    Names before (pushNonempty lhs base separator) fun _ => [] := by
  obtain ⟨known, known'⟩ := List.cons_subset.1 known
  refine namesPushTwo ?_ ?_ _ _
  · simp [own, known]
  · simp [own, known, known']

theorem namesPushList {lhs nonempty : Symbol} (own : lhs ∈ before) (known : nonempty ∈ before) :
    Names before (pushList lhs nonempty) fun _ => [] :=
  namesPushTwo (by simp [own]) (by simp [own, known]) _ _

theorem namesNonemptyList {base : Symbol} {separator : Option Symbol}
    (known : base :: separator.toList ⊆ before) :
    Names before (nonemptyList base separator) fun x => [x] := by
  refine namesHelper fun lhs after larger => ?_
  obtain ⟨own, rest⟩ := List.cons_subset.1 larger
  exact namesPushNonempty own (List.Subset.trans known rest)

theorem namesList {base : Symbol} {separator : Option Symbol}
    (known : base :: separator.toList ⊆ before) : Names before (list base separator) fun x => [x] := by
  refine namesHelper fun lhs after larger => ?_
  obtain ⟨own, rest⟩ := List.cons_subset.1 larger
  refine namesBind (namesNonemptyList (List.Subset.trans known rest)) fun nonempty => ?_
  exact namesPushList (by simp [own]) (by simp)

theorem namesFreshDefinition (name : String) : Names before (freshDefinition name) fun x => [x] := by
  refine namesBind (namesInternNonterminal name) fun lhs => namesBind namesGet fun d => ?_
  split
  · exact namesBind (namesThrow (fun _ => []) _) fun _ => namesPure (by simp)
  · exact namesPure (by simp)

theorem namesInternSeparator (separator : Option String) :
    Names before (internSeparator separator) Option.toList := by
  cases separator with
  | none => exact namesPure (by simp)
  | some name => exact namesBind (namesIntern name) fun x => namesPure (by simp)

theorem namesExpandTerm (term : Rhs.Term) : Names before (expandTerm term) fun x => [x] := by
  refine namesBind (namesIntern term.name) fun base => ?_
  split
  · exact namesPure (by simp)
  · exact namesOptional (by simp)
  · exact namesList (by simp)
  · exact namesNonemptyList (by simp)

theorem namesExpand (expression : String) :
    Names before (expand expression) Expansion.symbols := by
  unfold expand
  split
  · exact namesThrow _ _
  · exact namesBind (namesMapM (fun _ => namesExpandTerm) _ _) fun symbols => namesPure (by simp)

theorem namesDeclareSymbols {lhs : Symbol} {rhs : List Symbol} (known : lhs :: rhs ⊆ before) :
    Names before (declareSymbols lhs rhs) fun _ => [] := by
  unfold declareSymbols
  split
  · exact namesBind namesGet fun d => namesThrow _ _
  · exact namesPush known .declared

theorem namesSetStart (name : String) : Names before (setStart name) fun _ => [] := by
  intro d named given
  have interned := namesIntern name d named given
  simp only [setStart]
  cases result : intern name d with
  | error e d' =>
    rw [result] at interned
    exact interned
  | ok x d' =>
    rw [result] at interned
    dsimp only
    split
    · rename_i same
      split at same <;> cases same
      exact ⟨interned.1, List.forall_mem_nil _⟩
    · rename_i same
      split at same <;> cases same
      exact interned.1

theorem declareKeys {table table' : PrecedenceTable} {assoc : Associativity} {symbols : List Symbol}
    {level : Nat} (declared : table.declare assoc symbols = .ok (level, table')) {x : Symbol}
    (inside : x ∈ table'.terminals.keys) : x ∈ table.terminals.keys ∨ x ∈ symbols := by
  unfold PrecedenceTable.declare at declared
  split at declared
  · cases declared
  · cases declared
    obtain ⟨p, found⟩ := SortedMap.memKeys.1 inside
    rw [SortedMap.getFoldInsert] at found
    split at found
    · rename_i listed
      exact .inr listed
    · exact .inl (SortedMap.memKeys.2 ⟨p, found⟩)

theorem namesDeclarePrecedence (assoc : Associativity) (terminals : List String) :
    Names before (declarePrecedence assoc terminals) fun _ => [] := by
  refine namesBind (namesMapM (fun _ => namesInternTerminal) terminals before) fun symbols => ?_
  refine namesGetThen ?_
  intro d named given
  dsimp only
  cases declared : d.precedence.declare assoc symbols with
  | error taken => exact ⟨named, List.prefix_rfl⟩
  | ok answer =>
    refine ⟨⟨?_, List.prefix_rfl⟩, List.forall_mem_nil _⟩
    intro x inside
    rcases List.mem_append.1 inside with old | new
    · exact named x (List.mem_append_left _ old)
    · rcases declareKeys declared new with old | new
      · exact named x (List.mem_append_right _ old)
      · exact given x (List.mem_append_left _ new)

theorem namesSetProductionPrecedence (id : Nat) (terminal : String) :
    Names before (setProductionPrecedence id terminal) fun _ => [] := by
  have rest {before : List Symbol} : Names before (do
      let symbol ← internTerminal terminal
      modify fun d => { d with precedence := d.precedence.override id symbol }) fun _ => [] :=
    namesBind (namesInternTerminal terminal) fun _ _ named _ =>
      ⟨⟨named, List.prefix_rfl⟩, List.forall_mem_nil _⟩
  refine namesBind namesGet fun d => ?_
  split
  · exact namesBind (namesThrow (fun _ => []) _) fun _ => rest
  · exact rest

end Draft

def DraftCall.symbols : DraftCall → List Symbol
  | .declareSymbols lhs rhs => lhs :: rhs
  | .optional base => [base]
  | .list base separator => base :: separator.toList
  | .nonemptyList base separator => base :: separator.toList
  | _ => []

namespace Draft
open Edit (Names namesPure namesThrow namesGet namesGetThen namesBind namesDiscard namesMapM)

theorem namesCall (call : DraftCall) : Names call.symbols call.edit fun _ => [] := by
  cases call with
  | intern name => exact namesDiscard _ (namesIntern name)
  | internNonterminal name => exact namesDiscard _ (namesInternNonterminal name)
  | declare lhs rhs =>
    refine namesDiscard (fun _ => []) ?_
    refine namesBind (namesInternNonterminal lhs) fun lhs => ?_
    exact namesBind (namesMapM (fun _ => namesIntern) rhs _) fun rhs => namesPush (by simp) _
  | declareSymbols lhs rhs => exact namesDiscard _ (namesDeclareSymbols (List.Subset.refl _))
  | declareRule lhs expression =>
    refine namesDiscard (fun _ => []) ?_
    refine namesBind (namesInternNonterminal lhs) fun lhs => ?_
    exact namesBind (namesExpand expression) fun expansion => namesDeclareSymbols (by simp)
  | setStart name => exact namesDiscard _ (namesSetStart name)
  | declarePrecedence assoc terminals => exact namesDiscard _ (namesDeclarePrecedence assoc terminals)
  | setProductionPrecedence id terminal => exact namesSetProductionPrecedence id terminal
  | optional base => exact namesDiscard _ (namesOptional (List.mem_singleton_self _))
  | list base separator => exact namesDiscard _ (namesList (List.Subset.refl _))
  | nonemptyList base separator => exact namesDiscard _ (namesNonemptyList (List.Subset.refl _))
  | defineOptional name base =>
    refine namesDiscard (fun _ => []) ?_
    refine namesBind (namesFreshDefinition name) fun lhs => namesBind (namesIntern base) fun base => ?_
    exact namesBind (namesPushTwo (by simp) (by simp) _ _) fun _ => namesPure (by simp)
  | defineList name base separator =>
    refine namesDiscard (fun _ => []) ?_
    refine namesBind (namesFreshDefinition name) fun lhs => namesBind (namesIntern base) fun base => ?_
    refine namesBind (namesInternSeparator separator) fun separator => ?_
    refine namesBind (namesNonemptyList (by simp)) fun nonempty => ?_
    exact namesBind (namesPushList (by simp) (by simp)) fun _ => namesPure (by simp)
  | defineNonemptyList name base separator =>
    refine namesDiscard (fun _ => []) ?_
    refine namesBind (namesFreshDefinition name) fun lhs => namesBind (namesIntern base) fun base => ?_
    refine namesBind (namesInternSeparator separator) fun separator => ?_
    exact namesBind (namesPushNonempty (by simp) (by simp)) fun _ => namesPure (by simp)
  | expand expression => exact namesDiscard _ (namesExpand expression)

def Owns : Draft → List DraftCall → Prop
  | _, [] => True
  | d, call :: calls => (∀ x ∈ call.symbols, d.symbols.Knows x) ∧ (d.perform call).Owns calls

theorem namedPerform {d : Draft} (named : d.Named) {call : DraftCall}
    (owns : ∀ x ∈ call.symbols, d.symbols.Knows x) : (d.perform call).Named := by
  have kept := namesCall call d named owns
  unfold perform
  cases result : call.edit d with
  | ok a d =>
    rw [result] at kept
    exact kept.1.1
  | error e d =>
    rw [result] at kept
    exact kept.1

theorem namedEmpty : Named .empty := by
  simp [Named, mentioned, empty, productions, SortedMap.keys, EmptyCollection.emptyCollection, SortedMap.empty]

theorem namedFold {d : Draft} (named : d.Named) {calls : List DraftCall} (owns : d.Owns calls) :
    (calls.foldl perform d).Named := by
  induction calls generalizing d with
  | nil => exact named
  | cons call calls ih => exact ih (namedPerform named owns.1) owns.2

end Draft

namespace Grammar

/-- Finished from a history of calls, each with symbols of the draft itself. -/
def Drafted (g : Grammar) : Prop := ∃ calls, Draft.Owns .empty calls ∧ (Draft.ofCalls calls).build = .ok g

theorem Drafted.built {g : Grammar} (h : g.Drafted) : g.Built :=
  h.imp fun _ drafted => drafted.2

structure Named (g : Grammar) : Prop where
  productions : ∀ p ∈ g.productions, ∀ x ∈ p.lhs :: p.rhs, g.symbols.Knows x
  declared : ∀ x ∈ g.precedence.terminals.keys, g.symbols.Knows x

theorem Drafted.named {g : Grammar} (h : g.Drafted) : g.Named := by
  obtain ⟨calls, owns, built⟩ := h
  have named : (Draft.ofCalls calls).Named := Draft.namedFold Draft.namedEmpty owns
  obtain ⟨symbols, precedence, productions, _, _, defined, _⟩ := Draft.buildSource built
  have member {p : Production Symbol} (listed : p ∈ (Draft.ofCalls calls).productions) :
      ∀ x ∈ p.lhs :: p.rhs, g.symbols.Knows x := by
    intro x inside
    rw [symbols]
    refine named x ?_
    simp only [Draft.mentioned, List.mem_append]
    exact .inl (.inl (List.mem_flatMap.2 ⟨p, listed, inside⟩))
  refine ⟨?_, ?_⟩
  · intro p listed
    rw [productions, List.mem_append, List.mem_singleton] at listed
    rcases listed with listed | rfl
    · exact member listed
    · intro x inside
      rcases List.mem_cons.1 inside with rfl | inside
      · exact SymbolTable.knowsLookup SymbolTable.lookupReserved.2.2
      · rw [List.mem_singleton.1 inside]
        obtain ⟨q, listed, same⟩ := Draft.definesSource defined
        exact same ▸ member listed q.lhs List.mem_cons_self
  · intro x inside
    rw [symbols]
    refine named x ?_
    rw [precedence] at inside
    exact List.mem_append_right _ inside

end Grammar
end ForkingLR
