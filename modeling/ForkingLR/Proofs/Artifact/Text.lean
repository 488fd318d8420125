import ForkingLR.Artifact.Text
import ForkingLR.Proofs.Json
import Mathlib.Data.List.Nodup

/-! The text of an artifact. Its decoder reads back every artifact whose numbers fit the format, and
refuses the text of any other. -/
namespace ForkingLR

def fitsWord (n : Nat) : Bool := decide (n < Artifact.wordBound)

def Precedence.fits (p : Precedence) : Bool := fitsWord p.level

def Item.fits (i : Item) : Bool := fitsWord i.production && fitsWord i.dot

def Action.fits : Action → Bool
  | .shift target => fitsWord target
  | .reduce production => fitsWord production
  | .goto target => fitsWord target
  | .accept => true

def ProductionRecord.fits (r : ProductionRecord) : Bool := fitsWord r.lhs && r.rhs.all fitsWord

def StateRecord.fits (r : StateRecord) : Bool :=
  r.items.all Item.fits && (r.transitions.all fun e => fitsWord e.1 && fitsWord e.2) &&
    r.actions.all fun e => fitsWord e.1 && e.2.all Action.fits

def Artifact.fits (a : Artifact) : Bool :=
  decide (a.version < versionBound) && a.productions.all ProductionRecord.fits &&
    (a.terminalPrecedence.all fun e => fitsWord e.1 && e.2.fits) &&
    (a.productionPrecedence.all fun e => fitsWord e.1 && e.2.fits) && a.states.all StateRecord.fits

namespace Json
variable {α β : Type}

/-- The decoder reads back what the encoder wrote if it fits, and refuses it otherwise. -/
def Codes (encode : α → Json) (decode : Json → Option α) (fits : α → Bool) : Prop :=
  ∀ a, decode (encode a) = if fits a then some a else none

theorem digitsValueDigits (n : Nat) : digitsValue (Nat.toDigits 10 n) = n := by
  have same : digitsValue (Nat.toDigits 10 n) = Nat.ofDigitChars 10 (Nat.toDigits 10 n) 0 := by
    simp only [digitsValue, Nat.ofDigitChars, Nat.mul_comm]
  rw [same, Nat.ofDigitChars_toDigits (by omega) (by omega)]

theorem codesNatural (bound : Nat) : Codes ofNat (natural? bound) fun n => decide (n < bound) := by
  intro n
  have all : (Nat.toDigits 10 n).all Char.isDigit = true :=
    List.all_eq_true.2 fun c inside => Nat.isDigit_of_mem_toDigits (by omega) (by omega) inside
  simp [ofNat, natural?, all, digitsValueDigits]

theorem codesWord : Codes ofNat word? fitsWord := codesNatural Artifact.wordBound

theorem decodeChars (text : List Char) : decodeUnits (text.map .char) = some text := by
  induction text with
  | nil => rfl
  | cons c text ih => simp [decodeUnits, ih]

theorem codesText : Codes ofString text? fun _ => true := by
  intro s
  simp [ofString, text?, decodeChars]

theorem guardBind (fits : Bool) (a : α) (next : α → Option β) :
    (if fits then some a else none).bind next = if fits then next a else none := by
  cases fits <;> rfl

theorem guardAnd (fits fits' : Bool) (a : Option α) :
    (if fits then if fits' then a else none else none) = if fits && fits' then a else none := by
  cases fits <;> rfl

theorem codesList {encode : α → Json} {decode : Json → Option α} {fits : α → Bool}
    (codes : Codes encode decode fits) : Codes (ofList encode) (list? decode) fun l => l.all fits := by
  intro l
  simp only [ofList, list?]
  induction l with
  | nil => rfl
  | cons a l ih =>
    simp only [List.map_cons, List.mapM_cons, codes a, ih, Option.bind_eq_bind, guardBind, guardAnd,
      List.all_cons]
    rfl

theorem codesPair {encode : α → Json} {decode : Json → Option α} {fits : α → Bool}
    {encode' : β → Json} {decode' : Json → Option β} {fits' : β → Bool} (codes : Codes encode decode fits)
    (codes' : Codes encode' decode' fits') :
    Codes (ofPair encode encode') (pair? decode decode') fun p => fits p.1 && fits' p.2 := by
  intro p
  simp only [ofPair, pair?, codes p.1, codes' p.2, Option.bind_eq_bind, guardBind, guardAnd]

theorem fieldMember {members : List (List Char × Json)} (distinct : (members.map Prod.fst).Nodup)
    {name : String} {value : Json} (listed : (name.toList, value) ∈ members) :
    field? members name = some value := by
  have only : (members.filter fun m => m.1 = name.toList) = [(name.toList, value)] := by
    induction members with
    | nil => cases listed
    | cons m members ih =>
      obtain ⟨new, distinct⟩ := List.nodup_cons.1 distinct
      rcases List.mem_cons.1 listed with rfl | listed
      · rw [List.filter_cons_of_pos (by simp), List.filter_eq_nil_iff.2]
        intro m inside same
        exact new (List.mem_map.2 ⟨m, inside, of_decide_eq_true same⟩)
      · rw [List.filter_cons_of_neg, ih distinct listed]
        intro same
        exact new (of_decide_eq_true same ▸ List.mem_map_of_mem listed)
  rw [field?, only]

theorem mapMSome {f : α → Option β} {f' : α → β} {l : List α} (h : ∀ a ∈ l, f a = some (f' a)) :
    l.mapM f = some (l.map f') := by
  induction l with
  | nil => rfl
  | cons a l ih =>
    obtain ⟨first, rest⟩ := List.forall_mem_cons.1 h
    simp [first, ih rest]

theorem fieldsOfFields (names : List String) (fields : List (String × Json))
    (same : fields.map Prod.fst = names) (distinct : names.Nodup) :
    fields? names (ofFields fields) = some (fields.map Prod.snd) := by
  subst same
  have decoded : ((fields.map fun f => (f.1.toList.map StringUnit.char, f.2)).mapM fun m =>
      (decodeUnits m.1).map (·, m.2)) = some (fields.map fun f => (f.1.toList, f.2)) := by
    rw [List.mapM_map]
    exact mapMSome fun f _ => by simp [decodeChars]
  have keys : ((fields.map fun f => (f.1.toList, f.2)).map Prod.fst).Nodup := by
    have listed : (fields.map fun f => (f.1.toList, f.2)).map Prod.fst =
        (fields.map Prod.fst).map String.toList := by simp
    rw [listed]
    exact List.Nodup.map (fun a b same => String.toList_inj.1 same) distinct
  simp only [fields?, ofFields, decoded, Option.bind_eq_bind, Option.bind_some, List.mapM_map]
  exact mapMSome fun f inside => fieldMember keys (List.mem_map_of_mem inside)

theorem codesAssociativity : Codes ofAssociativity associativity? fun _ => true := by
  intro assoc
  cases assoc <;> rfl

theorem codesPrecedence : Codes ofPrecedence precedence? Precedence.fits := by
  intro p
  have fields := fieldsOfFields ["level", "assoc"]
    [("level", ofNat p.level), ("assoc", ofAssociativity p.assoc)] rfl (by decide)
  simp only [precedence?, ofPrecedence, fields, List.map_cons, List.map_nil, codesWord p.level,
    codesAssociativity p.assoc, Option.bind_eq_bind, Option.bind_some, guardBind, if_true]
  rfl

theorem codesItem : Codes ofItem item? Item.fits := by
  intro i
  have fields := fieldsOfFields ["production", "dot"]
    [("production", ofNat i.production), ("dot", ofNat i.dot)] rfl (by decide)
  simp only [item?, ofItem, fields, List.map_cons, List.map_nil, codesWord i.production, codesWord i.dot,
    Option.bind_eq_bind, Option.bind_some, guardBind, guardAnd]
  rfl

theorem codesAction : Codes ofAction action? Action.fits := by
  have choice (name : String) (content : Json) :
      variant? (ofFields [(name, content)]) = some (name, some content) := by
    simp [variant?, ofFields, decodeChars]
  have number (make : Nat → Action) (n : Nat) :
      (word? (ofNat n)).map make = if fitsWord n then some (make n) else none := by
    rw [codesWord n]
    split <;> rfl
  intro action
  cases action with
  | shift target =>
    simp only [action?, ofAction, choice, Option.bind_eq_bind, Option.bind_some]
    exact number .shift target
  | reduce production =>
    simp only [action?, ofAction, choice, Option.bind_eq_bind, Option.bind_some]
    exact number .reduce production
  | goto target =>
    simp only [action?, ofAction, choice, Option.bind_eq_bind, Option.bind_some]
    exact number .goto target
  | accept => rfl

theorem codesProductionRecord : Codes ofProductionRecord productionRecord? ProductionRecord.fits := by
  intro r
  have fields := fieldsOfFields ["lhs", "rhs"] [("lhs", ofNat r.lhs), ("rhs", ofList ofNat r.rhs)] rfl
    (by decide)
  simp only [productionRecord?, ofProductionRecord, fields, List.map_cons, List.map_nil, codesWord r.lhs,
    codesList codesWord r.rhs, Option.bind_eq_bind, Option.bind_some, guardBind, guardAnd]
  rfl

theorem codesStateRecord : Codes ofStateRecord stateRecord? StateRecord.fits := by
  intro r
  have fields := fieldsOfFields ["items", "transitions", "actions"] [("items", ofList ofItem r.items),
    ("transitions", ofList (ofPair ofNat ofNat) r.transitions),
    ("actions", ofList (ofPair ofNat (ofList ofAction)) r.actions)] rfl (by decide)
  simp only [stateRecord?, ofStateRecord, fields, List.map_cons, List.map_nil, codesList codesItem r.items,
    codesList (codesPair codesWord codesWord) r.transitions,
    codesList (codesPair codesWord (codesList codesAction)) r.actions, Option.bind_eq_bind,
    Option.bind_some, guardBind, guardAnd, ← Bool.and_assoc]
  rfl

theorem codesArtifact : Codes ofArtifact artifact? Artifact.fits := by
  intro a
  have fields := fieldsOfFields ["version", "lookahead", "precedence", "symbols", "productions",
    "terminal_precedence", "production_precedence", "states"]
    [("version", ofNat a.version), ("lookahead", .bool a.lookahead),
    ("precedence", .bool a.precedence), ("symbols", ofList ofString a.symbols),
    ("productions", ofList ofProductionRecord a.productions),
    ("terminal_precedence", ofList (ofPair ofNat ofPrecedence) a.terminalPrecedence),
    ("production_precedence", ofList (ofPair ofNat ofPrecedence) a.productionPrecedence),
    ("states", ofList ofStateRecord a.states)] rfl (by decide)
  have names : a.symbols.all (fun _ => true) = true := List.all_eq_true.2 fun _ _ => rfl
  simp only [artifact?, ofArtifact, fields, List.map_cons, List.map_nil,
    codesNatural Artifact.versionBound a.version, boolean?, codesList codesText a.symbols, names, if_true,
    codesList codesProductionRecord a.productions,
    codesList (codesPair codesWord codesPrecedence) a.terminalPrecedence,
    codesList (codesPair codesWord codesPrecedence) a.productionPrecedence,
    codesList codesStateRecord a.states, Option.bind_eq_bind, Option.bind_some, guardBind, guardAnd,
    ← Bool.and_assoc]
  rfl

theorem plainChars {s : String} (plain : ∀ c ∈ s.toList, PlainChar c) : PlainUnits (s.toList.map .char) :=
  ⟨s.toList, plain, rfl⟩

theorem plainList {encode : α → Json} {l : List α} (plain : ∀ a ∈ l, Plain (encode a)) :
    Plain (ofList encode l) := by
  refine .array fun e inside => ?_
  obtain ⟨a, listed, rfl⟩ := List.mem_map.1 inside
  exact plain a listed

theorem plainPair {encode : α → Json} {encode' : β → Json} {p : α × β} (plain : Plain (encode p.1))
    (plain' : Plain (encode' p.2)) : Plain (ofPair encode encode' p) := by
  refine .array fun e inside => ?_
  rcases List.mem_cons.1 inside with rfl | inside
  · exact plain
  · rw [List.mem_singleton.1 inside]
    exact plain'

theorem plainFields {fields : List (String × Json)} (names : ∀ f ∈ fields, ∀ c ∈ f.1.toList, PlainChar c)
    (plain : ∀ f ∈ fields, Plain f.2) : Plain (ofFields fields) := by
  refine .object ?_ ?_
  · intro m inside
    obtain ⟨f, listed, rfl⟩ := List.mem_map.1 inside
    exact plainChars (names f listed)
  · intro m inside
    obtain ⟨f, listed, rfl⟩ := List.mem_map.1 inside
    exact plain f listed

theorem plainWord (n : Nat) : Plain (ofNat n) := .number n

theorem plainPrecedence (p : Precedence) : Plain (ofPrecedence p) := by
  have assoc : Plain (ofAssociativity p.assoc) := by
    cases p.assoc <;> exact .string (plainChars (by simp [PlainChar]))
  refine plainFields (by simp [PlainChar]) ?_
  simp [assoc, plainWord]

theorem plainItem (i : Item) : Plain (ofItem i) := by
  refine plainFields (by simp [PlainChar]) ?_
  simp [plainWord]

theorem plainAction (action : Action) : Plain (ofAction action) := by
  cases action with
  | accept => exact .string (plainChars (by simp [PlainChar]))
  | shift target => exact plainFields (by simp [PlainChar]) (by simp [plainWord])
  | reduce production => exact plainFields (by simp [PlainChar]) (by simp [plainWord])
  | goto target => exact plainFields (by simp [PlainChar]) (by simp [plainWord])

theorem plainProductionRecord (r : ProductionRecord) : Plain (ofProductionRecord r) := by
  have rhs : Plain (ofList ofNat r.rhs) := plainList fun n _ => plainWord n
  refine plainFields (by simp [PlainChar]) ?_
  simp [rhs, plainWord]

theorem plainStateRecord (r : StateRecord) : Plain (ofStateRecord r) := by
  have items : Plain (ofList ofItem r.items) := plainList fun i _ => plainItem i
  have transitions : Plain (ofList (ofPair ofNat ofNat) r.transitions) :=
    plainList fun _ _ => plainPair (plainWord _) (plainWord _)
  have actions : Plain (ofList (ofPair ofNat (ofList ofAction)) r.actions) :=
    plainList fun _ _ => plainPair (plainWord _) (plainList fun action _ => plainAction action)
  refine plainFields (by simp [PlainChar]) ?_
  simp [items, transitions, actions]

theorem plainArtifact {a : Artifact} (names : ∀ s ∈ a.symbols, ∀ c ∈ s.toList, PlainChar c) :
    Plain (ofArtifact a) := by
  have symbols : Plain (ofList ofString a.symbols) :=
    plainList fun s listed => .string (plainChars (names s listed))
  have productions : Plain (ofList ofProductionRecord a.productions) :=
    plainList fun r _ => plainProductionRecord r
  have levels (saved : List (Nat × Precedence)) : Plain (ofList (ofPair ofNat ofPrecedence) saved) :=
    plainList fun _ _ => plainPair (plainWord _) (plainPrecedence _)
  have states : Plain (ofList ofStateRecord a.states) := plainList fun r _ => plainStateRecord r
  refine plainFields (by simp [PlainChar]) ?_
  simp [plainWord, Plain.bool, symbols, productions, levels, states]

end Json

theorem SymbolKind.tailPlain {letter : Char → Bool} (upper : letter = Char.isUpper ∨ letter = Char.isLower)
    {c : Char} (tail : isNameTail letter c = true) : Json.PlainChar c := by
  have control : ∀ n < 0x20, isNameTail Char.isUpper (Char.ofNat n) = false ∧
      isNameTail Char.isLower (Char.ofNat n) = false := by decide
  by_contra small
  have faults := control c.toNat (Nat.lt_of_not_le small)
  rw [Char.ofNat_toNat] at faults
  rcases upper with rfl | rfl
  · rw [faults.1] at tail
    contradiction
  · rw [faults.2] at tail
    contradiction

theorem SymbolKind.spelledPlain {name : String} (spelled : (ofName? name).isSome) :
    ∀ c ∈ name.toList, Json.PlainChar c := by
  have word {letter : Char → Bool} (known : letter = Char.isUpper ∨ letter = Char.isLower) {c : Char}
      {rest : List Char} (spelled : (letter c && rest.all (isNameTail letter)) = true) :
      ∀ d ∈ c :: rest, Json.PlainChar d := by
    obtain ⟨first, later⟩ := Bool.and_eq_true_iff.1 spelled
    refine List.forall_mem_cons.2 ⟨tailPlain known ?_, fun d inside => ?_⟩
    · simp [isNameTail, first]
    · exact tailPlain known (List.all_eq_true.1 later d inside)
  unfold ofName? at spelled
  split at spelled
  · rename_i start
    rw [start]
    simp [Json.PlainChar]
  · split at spelled
    · contradiction
    · rename_i c rest shape
      rw [shape]
      split at spelled
      · rename_i upper
        exact word (.inl rfl) upper
      · split at spelled
        · rename_i lower
          exact word (.inr rfl) lower
        · contradiction

theorem Artifact.textReadBack {a : Artifact} (names : ∀ s ∈ a.symbols, (SymbolKind.ofName? s).isSome) :
    ofText? a.toText = if a.fits then some a else none := by
  have plain := Json.plainArtifact fun s listed => SymbolKind.spelledPlain (names s listed)
  rw [ofText?, toText, String.toList_ofList, Json.readWrite plain, Option.bind_some]
  exact Json.codesArtifact a

end ForkingLR
