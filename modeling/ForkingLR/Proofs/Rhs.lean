import ForkingLR.Rhs
import ForkingLR.Proofs.Text
import Mathlib.Data.List.Forall2

/-! Right-hand sides, read and printed. Every word can be cut into a dot, a name and an operator, and it is read if
the name is a plain one; so what is read prints as the words it was read from. The first word with no plain name is
the one that is complained of. -/
namespace ForkingLR

theorem Operator.ofCharIff {c : Char} {op : Operator} : ofChar? c = some op ↔ c = op.toChar := by
  constructor
  · intro found
    unfold ofChar? at found
    split at found <;> cases found <;> rfl
  · rintro rfl
    cases op <;> rfl

namespace Rhs
variable {word name : List Char} {words : List (List Char)} {dotted : Bool} {op : Option Operator} {t : Term}
  {terms : List Term} {expression : String}

def spell (dotted : Bool) (name : List Char) (op : Option Operator) : List Char :=
  (if dotted then ['.'] else []) ++ name ++ (op.map Operator.toChar).toList

structure PlainName (name : List Char) : Prop where
  filled : name ≠ []
  plain : ∀ c ∈ name, isSpecial c = false

def Form (word : List Char) : Prop := ∃ dotted name op, PlainName name ∧ word = spell dotted name op

/-- A word in parts: a dot at its front and an operator at the end of what is left are no part of the name. -/
structure Cut (word : List Char) (dotted : Bool) (name : List Char) (op : Option Operator) : Prop where
  whole : word = spell dotted name op
  dot : dotted = false → word.head? ≠ some '.'
  operator : op = none → ∀ o : Operator, name.getLast? ≠ some o.toChar

theorem splitDotPlain (plain : word.head? ≠ some '.') : splitDot word = (false, word) := by
  unfold splitDot
  split
  · exact absurd rfl plain
  · rfl

theorem noOperator (plain : ∀ o : Operator, word.getLast? ≠ some o.toChar) :
    word.getLast?.bind Operator.ofChar? = none := by
  cases last : word.getLast? with
  | none => rfl
  | some c =>
    rw [Option.bind_some, Option.eq_none_iff_forall_ne_some]
    intro o found
    rw [Operator.ofCharIff.1 found] at last
    exact plain o last

theorem splitOperatorPlain (plain : ∀ o : Operator, word.getLast? ≠ some o.toChar) :
    splitOperator word = (word, none) := by
  rw [splitOperator, noOperator plain]

theorem splitOperatorBehind (o : Operator) : splitOperator (name ++ [o.toChar]) = (name, some o) := by
  rw [splitOperator, List.getLast?_concat, Option.bind_some, Operator.ofCharIff.2 rfl]
  simp

theorem Cut.split (cut : Cut word dotted name op) :
    ∃ rest, splitDot word = (dotted, rest) ∧ splitOperator rest = (name, op) := by
  obtain ⟨rfl, dot, operator⟩ := cut
  refine ⟨name ++ (op.map Operator.toChar).toList, ?_, ?_⟩
  · cases dotted with
    | false => exact splitDotPlain (dot rfl)
    | true => rfl
  · cases op with
    | none =>
      rw [Option.map_none, Option.toList_none, List.append_nil]
      exact splitOperatorPlain (operator rfl)
    | some o => exact splitOperatorBehind o

theorem operatorAtEnd (word : List Char) :
    (∀ o : Operator, word.getLast? ≠ some o.toChar) ∨ ∃ name o, word = name ++ [Operator.toChar o] := by
  rw [or_iff_not_imp_left]
  intro ends
  push Not at ends
  obtain ⟨o, last⟩ := ends
  obtain ⟨name, rfl⟩ := List.getLast?_eq_some_iff.1 last
  exact ⟨name, o, rfl⟩

theorem cutExists (word : List Char) : ∃ dotted name op, Cut word dotted name op := by
  have behind (rest : List Char) : ∃ name op, rest = name ++ (op.map Operator.toChar).toList ∧
      (op = none → ∀ o : Operator, name.getLast? ≠ some o.toChar) := by
    rcases operatorAtEnd rest with plain | ⟨name, o, rfl⟩
    · exact ⟨rest, none, (List.append_nil rest).symm, fun _ => plain⟩
    · exact ⟨name, some o, rfl, nofun⟩
  by_cases dot : word.head? = some '.'
  · obtain ⟨rest, rfl⟩ := List.head?_eq_some_iff.1 dot
    obtain ⟨name, op, rfl, operator⟩ := behind rest
    exact ⟨true, name, op, rfl, nofun, operator⟩
  · obtain ⟨name, op, rfl, operator⟩ := behind word
    exact ⟨false, name, op, rfl, fun _ => dot, operator⟩

def Term.ofParts (dotted : Bool) (name : List Char) (op : Option Operator) : Except WordFault Term :=
  if name.isEmpty then .error .missingName
  else if name.any isSpecial then .error .misplacedOperator
  else .ok ⟨String.ofList name, op, dotted⟩

theorem Cut.ofWord (cut : Cut word dotted name op) : Term.ofWord word = Term.ofParts dotted name op := by
  obtain ⟨rest, front, back⟩ := cut.split
  rw [Term.ofWord, front]
  dsimp only
  rw [back]
  rfl

theorem cutEmpty (dotted : Bool) (op : Option Operator) : Cut (spell dotted [] op) dotted [] op := by
  refine ⟨rfl, ?_, fun _ _ => nofun⟩
  rintro rfl
  rcases op with _ | _ | _ | _ <;> decide

theorem specialOperator (o : Operator) : isSpecial o.toChar = true := by
  cases o <;> rfl

theorem PlainName.cut (plain : PlainName name) : Cut (spell dotted name op) dotted name op := by
  refine ⟨rfl, ?_, ?_⟩
  · rintro rfl
    obtain ⟨c, rest, rfl⟩ := List.exists_cons_of_ne_nil plain.filled
    intro same
    have special : isSpecial c = false := plain.plain c List.mem_cons_self
    rw [show c = '.' from Option.some.inj same] at special
    cases special
  · intro _ o last
    have special := plain.plain o.toChar (List.mem_of_getLast? last)
    rw [specialOperator] at special
    cases special

structure Term.Reads (t : Term) (word : List Char) : Prop where
  name : PlainName t.name.toList
  whole : word = spell t.selected t.name.toList t.op
  selected : t.selected = (word.head? == some '.')
  op : t.op = word.getLast?.bind Operator.ofChar?

theorem PlainName.reads (plain : PlainName name) :
    Term.Reads ⟨String.ofList name, op, dotted⟩ (spell dotted name op) := by
  have cut : Cut (spell dotted name op) dotted name op := plain.cut
  refine ⟨?_, ?_, ?_, ?_⟩
  · rwa [String.toList_ofList]
  · rw [String.toList_ofList]
  · cases dotted with
    | true => rfl
    | false => exact (beq_eq_false_iff_ne.2 (cut.dot rfl)).symm
  · cases op with
    | some o =>
      have last : (spell dotted name (some o)).getLast? = some o.toChar := List.getLast?_concat
      rw [last, Option.bind_some, Operator.ofCharIff.2 rfl]
    | none =>
      -- There is a name, so the word ends in what the name ends in, and not in the dot.
      have last : (spell dotted name none).getLast? = name.getLast? := by
        rw [spell, Option.map_none, Option.toList_none, List.append_nil,
          List.getLast?_append_of_ne_nil _ plain.filled]
      rw [last, noOperator (cut.operator rfl)]

theorem readsIff : t.Reads word ↔ PlainName t.name.toList ∧ t.toWord = word := by
  constructor
  · intro reads
    exact ⟨reads.name, reads.whole.symm⟩
  · rintro ⟨plain, rfl⟩
    have reads : Term.Reads ⟨String.ofList t.name.toList, t.op, t.selected⟩ t.toWord := plain.reads
    rwa [String.ofList_toList] at reads

inductive Faulty : WordFault → List Char → Prop
  | missingName (dotted : Bool) (op : Option Operator) : Faulty .missingName (spell dotted [] op)
  | misplacedOperator {word name : List Char} {dotted : Bool} {op : Option Operator} {c : Char}
      (cut : Cut word dotted name op) (inside : c ∈ name) (special : isSpecial c = true) :
      Faulty .misplacedOperator word

theorem ofWordOk : Term.ofWord word = .ok t ↔ t.Reads word := by
  constructor
  · intro read
    obtain ⟨dotted, name, op, cut⟩ := cutExists word
    rw [cut.ofWord, Term.ofParts] at read
    split at read
    · cases read
    · rename_i filled
      split at read
      · cases read
      · rename_i plain
        cases read
        rw [cut.whole]
        exact PlainName.reads ⟨by simpa using filled, by simpa using plain⟩
  · rintro ⟨named, rfl, _, _⟩
    rw [named.cut.ofWord, Term.ofParts, if_neg (by simpa using named.filled), if_neg (by simpa using named.plain)]
    simp

theorem ofWordError {fault : WordFault} : Term.ofWord word = .error fault ↔ Faulty fault word := by
  constructor
  · intro refused
    obtain ⟨dotted, name, op, cut⟩ := cutExists word
    rw [cut.ofWord, Term.ofParts] at refused
    split at refused
    · rename_i empty
      cases refused
      rw [List.isEmpty_iff] at empty
      subst empty
      rw [cut.whole]
      exact .missingName dotted op
    · split at refused
      · rename_i special
        cases refused
        obtain ⟨c, inside, special⟩ := List.any_eq_true.1 special
        exact .misplacedOperator cut inside special
      · cases refused
  · rintro (⟨dotted, op⟩ | ⟨cut, inside, special⟩)
    · exact (cutEmpty dotted op).ofWord
    · rw [cut.ofWord, Term.ofParts, if_neg (by simpa using List.ne_nil_of_mem inside),
        if_pos (List.any_eq_true.2 ⟨_, inside, special⟩)]

theorem formIff : Form word ↔ ∃ t, Term.Reads t word := by
  constructor
  · rintro ⟨dotted, name, op, plain, rfl⟩
    exact ⟨_, plain.reads⟩
  · rintro ⟨t, reads⟩
    exact ⟨_, _, _, reads.name, reads.whole⟩

theorem formNotFaulty {fault : WordFault} (form : Form word) : ¬ Faulty fault word := by
  obtain ⟨t, reads⟩ := formIff.1 form
  intro faulty
  have both := (ofWordOk.2 reads).symm.trans (ofWordError.2 faulty)
  cases both

instance : Decidable (Form word) :=
  match read : Term.ofWord word with
  | .ok t => isTrue (formIff.2 ⟨t, ofWordOk.1 read⟩)
  | .error _ => isFalse fun form => formNotFaulty form (ofWordError.1 read)

theorem ofWordsReads (all : List.Forall₂ Term.Reads terms words) : ofWords expression words = .ok terms := by
  induction all with
  | nil => rfl
  | cons first _ ih =>
    rw [ofWords, ofWordOk.2 first, ih]
    rfl

theorem ofWordsFaulty {before after : List (List Char)} {fault : WordFault} (forms : ∀ w ∈ before, Form w)
    (faulty : Faulty fault word) : ofWords expression (before ++ word :: after) =
      .error (.malformedExpression expression (String.ofList word) fault) := by
  induction before with
  | nil => rw [List.nil_append, ofWords, ofWordError.2 faulty]
  | cons w before ih =>
    obtain ⟨form, others⟩ := List.forall_mem_cons.1 forms
    obtain ⟨t, reads⟩ := formIff.1 form
    rw [List.cons_append, ofWords, ofWordOk.2 reads, ih others]
    rfl

theorem firstFaulty (words : List (List Char)) : (∃ terms, List.Forall₂ Term.Reads terms words) ∨
    ∃ before word after fault, words = before ++ word :: after ∧ (∀ w ∈ before, Form w) ∧ Faulty fault word := by
  induction words with
  | nil => exact .inl ⟨[], .nil⟩
  | cons word words ih =>
    cases first : Term.ofWord word with
    | error fault => exact .inr ⟨[], word, words, fault, rfl, nofun, ofWordError.1 first⟩
    | ok t =>
      have reads := ofWordOk.1 first
      rcases ih with ⟨terms, all⟩ | ⟨before, w, after, fault, rfl, forms, faulty⟩
      · exact .inl ⟨t :: terms, .cons reads all⟩
      · exact .inr ⟨word :: before, w, after, fault, rfl, List.forall_mem_cons.2 ⟨formIff.2 ⟨t, reads⟩, forms⟩, faulty⟩

theorem ofWordsOk : ofWords expression words = .ok terms ↔ List.Forall₂ Term.Reads terms words := by
  refine ⟨fun read => ?_, ofWordsReads⟩
  rcases firstFaulty words with ⟨others, all⟩ | ⟨before, word, after, fault, rfl, forms, faulty⟩
  · rw [ofWordsReads all] at read
    cases read
    exact all
  · rw [ofWordsFaulty forms faulty] at read
    cases read

theorem ofWordsError {error : GrammarError} : ofWords expression words = .error error ↔
    ∃ before word after fault, words = before ++ word :: after ∧ (∀ w ∈ before, Form w) ∧ Faulty fault word ∧
      error = .malformedExpression expression (String.ofList word) fault := by
  constructor
  · intro refused
    rcases firstFaulty words with ⟨terms, all⟩ | ⟨before, word, after, fault, rfl, forms, faulty⟩
    · rw [ofWordsReads all] at refused
      cases refused
    · rw [ofWordsFaulty forms faulty] at refused
      cases refused
      exact ⟨before, word, after, fault, rfl, forms, faulty, rfl⟩
  · rintro ⟨before, word, after, fault, rfl, forms, faulty, rfl⟩
    exact ofWordsFaulty forms faulty

theorem parseOk : parse expression = .ok terms ↔
    ∃ runs, Text.Spaced runs expression.toList ∧ List.Forall₂ Term.Reads terms runs := by
  rw [parse, ofWordsOk]
  constructor
  · intro all
    exact ⟨_, Text.spacedWords _, all⟩
  · rintro ⟨runs, spaced, all⟩
    rwa [Text.wordsIff.2 spaced]

theorem parseError {error : GrammarError} : parse expression = .error error ↔
    ∃ before word after fault, Text.Spaced (before ++ word :: after) expression.toList ∧
      (∀ w ∈ before, Form w) ∧ Faulty fault word ∧
      error = .malformedExpression expression (String.ofList word) fault := by
  simp only [parse, ofWordsError, Text.wordsIff]

structure Term.Plain (t : Term) : Prop where
  name : PlainName t.name.toList
  solid : ∀ c ∈ t.name.toList, Text.isBlank c = false

theorem plainIff : t.Plain ↔
    t.name.toList ≠ [] ∧ (t.name.toList.all fun c => !isSpecial c && !Text.isBlank c) = true := by
  simp only [List.all_eq_true, Bool.and_eq_true, Bool.not_eq_true']
  constructor
  · rintro ⟨⟨filled, plain⟩, solid⟩
    exact ⟨filled, fun c inside => ⟨plain c inside, solid c inside⟩⟩
  · rintro ⟨filled, both⟩
    exact ⟨⟨filled, fun c inside => (both c inside).1⟩, fun c inside => (both c inside).2⟩

instance : Decidable t.Plain := decidable_of_iff _ plainIff.symm

theorem solidSpell : (∀ c ∈ spell dotted name op, Text.isBlank c = false) ↔ ∀ c ∈ name, Text.isBlank c = false := by
  have dot : ∀ c ∈ (if dotted then ['.'] else []), Text.isBlank c = false := by
    cases dotted with
    | false => simp
    | true => exact List.forall_mem_singleton.2 rfl
  have operator : ∀ c ∈ (op.map Operator.toChar).toList, Text.isBlank c = false := by
    cases op with
    | none => exact nofun
    | some o =>
      rw [Option.map_some, Option.toList_some, List.forall_mem_singleton]
      cases o <;> rfl
  simp only [spell, List.forall_mem_append]
  exact ⟨fun h => h.1.2, fun h => ⟨⟨dot, h⟩, operator⟩⟩

theorem printedReads (all : List.Forall₂ Term.Reads terms words) : terms.map Term.toWord = words := by
  induction all with
  | nil => rfl
  | cons first _ ih => rw [List.map_cons, ih, (readsIff.1 first).2]

theorem parsePrinted : parse expression = .ok terms ↔
    (∀ t ∈ terms, t.Plain) ∧ Text.Spaced (terms.map Term.toWord) expression.toList := by
  rw [parseOk]
  constructor
  · rintro ⟨runs, spaced, all⟩
    have printed := printedReads all
    subst printed
    rw [List.forall₂_map_right_iff, List.forall₂_same] at all
    refine ⟨fun t inside => ⟨(all t inside).name, ?_⟩, spaced⟩
    obtain ⟨_, _, _, run⟩ := spaced.placed (List.mem_map_of_mem inside)
    exact solidSpell.1 run.solid
  · rintro ⟨plain, spaced⟩
    refine ⟨_, spaced, ?_⟩
    rw [List.forall₂_map_right_iff, List.forall₂_same]
    exact fun t inside => readsIff.2 ⟨(plain t inside).name, rfl⟩

theorem Term.Plain.printed (plain : t.Plain) : t.toWord ≠ [] ∧ ∀ c ∈ t.toWord, Text.isBlank c = false := by
  refine ⟨?_, solidSpell.2 plain.solid⟩
  simp [Term.toWord, plain.name.filled]

theorem parsePrint (plain : ∀ t ∈ terms, t.Plain) : parse (print terms) = .ok terms := by
  rw [parsePrinted, print, String.toList_ofList]
  refine ⟨plain, Text.spacedIntercalate ?_⟩
  rw [List.forall_mem_map]
  exact fun t inside => (plain t inside).printed

theorem printParse (read : parse expression = .ok terms) :
    print terms = String.ofList (Text.normalised expression.toList) := by
  have words := Text.wordsIff.2 (parsePrinted.1 read).2
  rw [print, ← words, Text.normalisedWords]

theorem parseAccepts : (∃ terms, parse expression = .ok terms) ↔ ∀ before run after,
    expression.toList = before ++ run ++ after → Text.Run before run after → Form run := by
  constructor
  · rintro ⟨terms, read⟩ before run after whole alone
    obtain ⟨plain, spaced⟩ := parsePrinted.1 read
    have listed : run ∈ Text.words expression.toList := Text.memWords.2 ⟨before, after, whole, alone⟩
    rw [Text.wordsIff.2 spaced] at listed
    obtain ⟨t, inside, rfl⟩ := List.mem_map.1 listed
    exact ⟨_, _, _, (plain t inside).name, rfl⟩
  · intro forms
    rcases firstFaulty (Text.words expression.toList) with ⟨terms, all⟩ | ⟨front, word, back, fault, found, _, faulty⟩
    · exact ⟨terms, ofWordsReads all⟩
    · have listed : word ∈ Text.words expression.toList := by simp [found]
      obtain ⟨before, after, whole, run⟩ := Text.memWords.1 listed
      exact absurd faulty (formNotFaulty (forms before word after whole run))

def sliceOperator? (word : String) : Option (String × Option Operator) :=
  match word.toList.getLast?.bind Operator.ofChar? with
  | some op => (Text.withoutLastByte? word).map fun name => (name, some op)
  | none => some (word, none)

theorem sliceOperator (word : List Char) : sliceOperator? (String.ofList word) =
    some (String.ofList (splitOperator word).1, (splitOperator word).2) := by
  rw [sliceOperator?, String.toList_ofList]
  rcases operatorAtEnd word with plain | ⟨name, o, rfl⟩
  · rw [noOperator plain, splitOperatorPlain plain]
  · have single : o.toChar.utf8Size = 1 := by cases o <;> rfl
    rw [splitOperatorBehind, List.getLast?_concat, Option.bind_some, Operator.ofCharIff.2 rfl, String.ofList_append,
      ← String.singleton_eq_ofList]
    dsimp only
    rw [Text.withoutLastByteAppend _ single]
    rfl

/-- Reads a word as it is stored. There is no answer if a cut falls inside of a character. -/
def Term.sliced? (word : List Char) : Option (Except WordFault Term) :=
  (sliceOperator? (String.ofList (splitDot word).2)).map fun parts =>
    Term.ofParts (splitDot word).1 parts.1.toList parts.2

theorem sliced (word : List Char) : Term.sliced? word = some (Term.ofWord word) := by
  obtain ⟨dotted, name, op, cut⟩ := cutExists word
  obtain ⟨rest, front, back⟩ := cut.split
  rw [Term.sliced?, front, sliceOperator, back, Option.map_some, String.toList_ofList, cut.ofWord]

def wording : WordFault → String
  | .missingName => "no symbol name"
  | .misplacedOperator => "a misplaced operator"

theorem faultMessage (word : String) (fault : WordFault) :
    (GrammarError.malformedExpression expression word fault).message =
      "malformed right-hand side " ++ quoted expression ++ ": " ++ quoted word ++ " has " ++ wording fault := by
  have said : fault.message word = quoted word ++ " has " ++ wording fault := by
    have name : " has no symbol name" = " has " ++ "no symbol name" := by decide
    have place : " has a misplaced operator" = " has " ++ "a misplaced operator" := by decide
    cases fault with
    | missingName => simp only [WordFault.message, wording, name, String.append_assoc]
    | misplacedOperator => simp only [WordFault.message, wording, place, String.append_assoc]
  have whole : (GrammarError.malformedExpression expression word fault).message =
    "malformed right-hand side " ++ quoted expression ++ ": " ++ fault.message word := rfl
  rw [whole, said]
  simp only [String.append_assoc]

structure ReadsExactly (expression : String) : Prop where
  accepts : (∃ terms, parse expression = .ok terms) ↔ ∀ before run after,
    expression.toList = before ++ run ++ after → Text.Run before run after → Form run
  reads : ∀ terms, parse expression = .ok terms ↔
    ∃ runs, Text.Spaced runs expression.toList ∧ List.Forall₂ Term.Reads terms runs
  inverts : ∀ terms, parse expression = .ok terms ↔
    (∀ t ∈ terms, t.Plain) ∧ Text.Spaced (terms.map Term.toWord) expression.toList
  prints : ∀ terms, (∀ t ∈ terms, t.Plain) → print terms = expression → parse expression = .ok terms
  normalises : ∀ terms, parse expression = .ok terms →
    print terms = String.ofList (Text.normalised expression.toList)
  refuses : ∀ error, parse expression = .error error ↔
    ∃ before word after fault, Text.Spaced (before ++ word :: after) expression.toList ∧
      (∀ w ∈ before, Form w) ∧ Faulty fault word ∧
      error = .malformedExpression expression (String.ofList word) fault
  complains : ∀ word fault, (GrammarError.malformedExpression expression word fault).message =
    "malformed right-hand side " ++ quoted expression ++ ": " ++ quoted word ++ " has " ++ wording fault
  answers : ∀ word, Term.sliced? word = some (Term.ofWord word)

theorem expressionsReadExactly (expression : String) : ReadsExactly expression where
  accepts := parseAccepts
  reads _ := parseOk
  inverts _ := parsePrinted
  prints _ plain same := same ▸ parsePrint plain
  normalises _ := printParse
  refuses _ := parseError
  complains := faultMessage
  answers := sliced

def accentedTerms : List Term := [⟨"é", some .list, true⟩, ⟨"WORD", some .nonemptyList, false⟩]

theorem accentedReadExactly :
    parse "\t.é*\u3000 WORD+ " = .ok accentedTerms ∧ print accentedTerms = ".é* WORD+" ∧
      parse ".é* WORD+" = .ok accentedTerms ∧
      parse "é é+* ." = .error (.malformedExpression "é é+* ." "é+*" .misplacedOperator) := by
  have plain : ∀ t ∈ accentedTerms, t.Plain := by decide +kernel
  have read : parse "\t.é*\u3000 WORD+ " = .ok accentedTerms :=
    ((expressionsReadExactly _).inverts _).2 ⟨plain, by decide +kernel⟩
  have printed : print accentedTerms = ".é* WORD+" :=
    ((expressionsReadExactly _).normalises _ read).trans (by decide +kernel)
  have cut : Cut ['é', '+', '*'] false ['é', '+'] (some .list) := ⟨rfl, fun _ => by decide, nofun⟩
  have faulty : Faulty .misplacedOperator ['é', '+', '*'] :=
    .misplacedOperator cut (List.mem_cons_of_mem _ List.mem_cons_self) rfl
  refine ⟨read, printed, (expressionsReadExactly _).prints _ plain printed, ?_⟩
  have first : ∀ w ∈ [['é']], Form w := by decide
  exact ((expressionsReadExactly _).refuses _).2 ⟨[['é']], _, [['.']], _, by decide +kernel, first, faulty, rfl⟩

end Rhs
end ForkingLR
