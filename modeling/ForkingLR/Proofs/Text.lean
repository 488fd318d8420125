import ForkingLR.Text.Blank
import Mathlib.Data.List.DropRight

/-! Words, blanks and bytes of a text. Its words are its maximal runs of other characters than blanks, in order,
and with one space between any two of them they are the text with its blanks put in order. A text can be cut
after a byte only where a character ends. -/
namespace ForkingLR.Text
variable {c d : Char} {s t w before after : List Char} {ws vs : List (List Char)}

inductive Spaced : List (List Char) → List Char → Prop
  | nil : Spaced [] []
  | blank {c : Char} {ws : List (List Char)} {s : List Char} (space : isBlank c = true) (rest : Spaced ws s) :
      Spaced ws (c :: s)
  | word {w s : List Char} {ws : List (List Char)} (filled : w ≠ []) (solid : ∀ c ∈ w, isBlank c = false)
      (ends : ∀ c ∈ s.head?, isBlank c = true) (rest : Spaced ws s) : Spaced (w :: ws) (w ++ s)

structure Run (before run after : List Char) : Prop where
  filled : run ≠ []
  solid : ∀ c ∈ run, isBlank c = false
  left : ∀ c ∈ before.getLast?, isBlank c = true
  right : ∀ c ∈ after.head?, isBlank c = true

theorem Spaced.attach (solid : isBlank c = false) (h : Spaced ws s) (goes : ¬ ∀ b ∈ s.head?, isBlank b = true) :
    Spaced (attach c ws) (c :: s) := by
  cases h with
  | nil => exact absurd nofun goes
  | blank space rest => simp [space] at goes
  | @word w s ws filled inner ends rest =>
    exact .word (List.cons_ne_nil c w) (List.forall_mem_cons.2 ⟨solid, inner⟩) ends rest

theorem spacedWords (s : List Char) : Spaced (words s) s := by
  induction s with
  | nil => exact .nil
  | cons c rest ih =>
    rw [words]
    split
    · exact .blank ‹_› ih
    · rename_i solid
      rw [Bool.not_eq_true] at solid
      split
      · rename_i ends
        exact .word (List.cons_ne_nil c []) (by simpa using solid) ((Option.all_eq_true _ _).1 ends) ih
      · rename_i goes
        exact ih.attach solid fun ends => goes ((Option.all_eq_true _ _).2 ends)

theorem wordsBlank (space : isBlank c = true) : words (c :: s) = words s := by
  rw [words, if_pos space]

theorem wordsAttach (solid : isBlank c = false) (goes : isBlank d = false) :
    words (c :: d :: s) = attach c (words (d :: s)) := by
  rw [words, if_neg (by simp [solid]), if_neg (by simp [goes])]

theorem wordsSolid (filled : w ≠ []) (solid : ∀ c ∈ w, isBlank c = false)
    (ends : ∀ c ∈ s.head?, isBlank c = true) : words (w ++ s) = w :: words s := by
  induction w with
  | nil => exact absurd rfl filled
  | cons c w ih =>
    obtain ⟨first, others⟩ := List.forall_mem_cons.1 solid
    cases w with
    | nil =>
      have alone : s.head?.all isBlank = true := (Option.all_eq_true _ _).2 ends
      simp [words, first, alone]
    | cons d w =>
      have tail := ih (List.cons_ne_nil d w) others
      have next : isBlank d = false := others d List.mem_cons_self
      rw [List.cons_append, List.cons_append, wordsAttach first next, ← List.cons_append, tail]
      rfl

theorem wordsIff : words s = ws ↔ Spaced ws s := by
  constructor
  · rintro rfl
    exact spacedWords s
  · intro h
    induction h with
    | nil => rfl
    | blank space _ ih => rw [wordsBlank space, ih]
    | word filled solid ends _ ih => rw [wordsSolid filled solid ends, ih]

instance : Decidable (Spaced ws s) := decidable_of_iff (words s = ws) wordsIff

theorem Spaced.join (h : Spaced ws s) (space : isBlank c = true) (h' : Spaced vs t) :
    Spaced (ws ++ vs) (s ++ c :: t) := by
  induction h with
  | nil => exact .blank space h'
  | blank first _ ih => exact .blank first ih
  | @word w s ws filled solid ends _ ih =>
    rw [List.append_assoc]
    refine .word filled solid ?_ ih
    cases s with
    | nil => simpa using space
    | cons b s => simpa using ends

theorem wordsJoin (space : isBlank c = true) : words (s ++ c :: t) = words s ++ words t :=
  wordsIff.2 ((spacedWords s).join space (spacedWords t))

theorem wordsFront (gap : ∀ c ∈ s, isBlank c = true) : words (s ++ t) = words t := by
  induction s with
  | nil => rfl
  | cons c s ih =>
    obtain ⟨space, rest⟩ := List.forall_mem_cons.1 gap
    rw [List.cons_append, wordsBlank space, ih rest]

theorem wordsNil : words s = [] ↔ ∀ c ∈ s, isBlank c = true := by
  constructor
  · intro none
    have h := wordsIff.1 none
    clear none
    generalize empty : [] = ws at h
    induction h with
    | nil => exact nofun
    | blank space _ ih => exact List.forall_mem_cons.2 ⟨space, ih empty⟩
    | word => cases empty
  · intro gap
    rw [← List.append_nil s]
    exact wordsFront gap

theorem wordsBehind (gap : ∀ c ∈ t, isBlank c = true) : words (s ++ t) = words s := by
  cases t with
  | nil => rw [List.append_nil]
  | cons c t =>
    obtain ⟨space, rest⟩ := List.forall_mem_cons.1 gap
    rw [wordsJoin space, wordsNil.2 rest, List.append_nil]

theorem Run.listed (h : Run before w after) : w ∈ words (before ++ w ++ after) := by
  have here : w ∈ words (w ++ after) := by
    rw [wordsSolid h.filled h.solid h.right]
    exact List.mem_cons_self
  rw [List.append_assoc]
  cases before using List.reverseRecOn with
  | nil => exact here
  | append_singleton before c =>
    have space : isBlank c = true := h.left c (by simp)
    rw [List.append_assoc, List.singleton_append, wordsJoin space]
    exact List.mem_append_right _ here

theorem Spaced.placed (h : Spaced ws s) (listed : w ∈ ws) :
    ∃ before after, s = before ++ w ++ after ∧ Run before w after := by
  induction h with
  | nil => cases listed
  | @blank c ws s space _ ih =>
    obtain ⟨before, after, rfl, run⟩ := ih listed
    refine ⟨c :: before, after, rfl, run.filled, run.solid, ?_, run.right⟩
    cases before with
    | nil => simpa using space
    | cons b before => simpa using run.left
  | @word u s ws filled solid ends _ ih =>
    rcases List.mem_cons.1 listed with rfl | later
    · exact ⟨[], s, rfl, filled, solid, nofun, ends⟩
    · obtain ⟨before, after, rfl, run⟩ := ih later
      refine ⟨u ++ before, after, by simp, run.filled, run.solid, ?_, run.right⟩
      cases before with
      | nil =>
        -- Two words with nothing between them would be one.
        obtain ⟨c, w, rfl⟩ := List.exists_cons_of_ne_nil run.filled
        have space : isBlank c = true := ends c rfl
        rw [run.solid c List.mem_cons_self] at space
        cases space
      | cons b before =>
        rw [List.getLast?_append_of_ne_nil _ (List.cons_ne_nil b before)]
        exact run.left

theorem memWords : w ∈ words s ↔ ∃ before after, s = before ++ w ++ after ∧ Run before w after := by
  constructor
  · exact (spacedWords s).placed
  · rintro ⟨before, after, rfl, run⟩
    exact run.listed

theorem spacedIntercalate (fit : ∀ w ∈ ws, w ≠ [] ∧ ∀ c ∈ w, isBlank c = false) :
    Spaced ws ([' '].intercalate ws) := by
  induction ws with
  | nil => exact .nil
  | cons w ws ih =>
    obtain ⟨⟨filled, solid⟩, others⟩ := List.forall_mem_cons.1 fit
    cases ws with
    | nil =>
      rw [List.intercalate_singleton]
      have alone := Spaced.word filled solid (by simp) .nil
      rwa [List.append_nil] at alone
    | cons v ws =>
      have space : isBlank ' ' = true := by decide
      rw [List.intercalate_cons_cons, List.append_assoc]
      exact .word filled solid (by simp [space]) (.blank space (ih others))

def squeeze : List Char → List Char
  | [] => []
  | c :: rest =>
    if isBlank c then
      if rest.head?.any isBlank then squeeze rest else ' ' :: squeeze rest
    else c :: squeeze rest

def trimmed (s : List Char) : List Char := (s.dropWhile isBlank).rdropWhile isBlank

def normalised (s : List Char) : List Char := squeeze (trimmed s)

theorem wordsTrimmed (s : List Char) : words (trimmed s) = words s := by
  have front : words (s.dropWhile isBlank) = words s := by
    conv_rhs => rw [← List.takeWhile_append_dropWhile (p := isBlank) (l := s)]
    exact (wordsFront fun c inside => List.mem_takeWhile_imp inside).symm
  rw [← front, trimmed]
  conv_rhs => rw [← List.rdropWhile_append_rtakeWhile (p := isBlank) (l := s.dropWhile isBlank)]
  exact (wordsBehind fun c inside => List.mem_rtakeWhile_imp inside).symm

theorem headTrimmed (s : List Char) : (trimmed s).head?.any isBlank = false := by
  obtain ⟨more, whole⟩ : trimmed s <+: s.dropWhile isBlank := List.rdropWhile_prefix isBlank _
  have head := List.head?_dropWhile_not isBlank s
  rw [← whole] at head
  cases shape : trimmed s with
  | nil => rfl
  | cons c rest =>
    rw [shape] at head
    simpa using head

theorem lastTrimmed (s : List Char) : ∀ c ∈ (trimmed s).getLast?, isBlank c = false := by
  intro c last
  obtain ⟨filled, rfl⟩ := List.mem_getLast?_eq_getLast last
  exact Bool.not_eq_true _ ▸ List.rdropWhile_last_not isBlank _ filled

theorem intercalateAttach {gap : List Char} (some : ws ≠ []) :
    gap.intercalate (attach c ws) = c :: gap.intercalate ws := by
  cases ws with
  | nil => exact absurd rfl some
  | cons w ws => cases ws <;> simp [attach, List.intercalate]

theorem wordsLast (filled : s ≠ []) (solid : ∀ c ∈ s.getLast?, isBlank c = false) : words s ≠ [] := by
  intro none
  have space := wordsNil.1 none _ (List.getLast_mem filled)
  rw [solid _ (List.getLast?_eq_some_getLast filled)] at space
  cases space

theorem squeezeWords (solid : ∀ c ∈ s.getLast?, isBlank c = false) :
    squeeze s = (if s.head?.any isBlank then [' '] else []) ++ [' '].intercalate (words s) := by
  induction s with
  | nil => rfl
  | cons c s ih =>
    cases s with
    | nil =>
      have alone : isBlank c = false := solid c rfl
      simp [squeeze, words, alone]
    | cons d s =>
      have last : ∀ c ∈ (d :: s).getLast?, isBlank c = false := by simpa using solid
      have rest := ih last
      have some : words (d :: s) ≠ [] := wordsLast (List.cons_ne_nil d s) last
      cases first : isBlank c with
      | true =>
        rw [wordsBlank first, squeeze, if_pos first, rest]
        cases next : isBlank d <;> simp [first, next]
      | false =>
        rw [squeeze, if_neg (by simp [first]), rest]
        cases next : isBlank d with
        | true =>
          have alone : words (c :: d :: s) = [c] :: words (d :: s) :=
            wordsSolid (List.cons_ne_nil c []) (by simpa using first) (by simpa using next)
          simp [alone, first, next, List.intercalate_cons_of_ne_nil some]
        | false =>
          rw [wordsAttach first next, intercalateAttach some]
          simp [first, next]

theorem normalisedWords (s : List Char) : [' '].intercalate (words s) = normalised s := by
  rw [normalised, squeezeWords (lastTrimmed s), headTrimmed, wordsTrimmed]
  rfl

/-- The part of a text before its byte `n`. There is none if `n` is past the end or inside of a character. -/
def before? (text : String) (n : Nat) : Option String :=
  if inside : (⟨n⟩ : String.Pos.Raw).IsValid text then some (text.sliceTo (text.pos ⟨n⟩ inside)).copy else none

theorem beforeAppend (front back : String) : before? (front ++ back) front.utf8ByteSize = some front := by
  have inside : (⟨front.utf8ByteSize⟩ : String.Pos.Raw).IsValid (front ++ back) :=
    String.Pos.Raw.isValid_iff_exists_append.2 ⟨front, back, rfl, rfl⟩
  have splits : ((front ++ back).pos ⟨front.utf8ByteSize⟩ inside).Splits front back := ⟨rfl, rfl⟩
  rw [before?, dif_pos inside, splits.copy_sliceTo_eq]

def withoutLastByte? (text : String) : Option String :=
  match text.utf8ByteSize with
  | 0 => none
  | n + 1 => before? text n

theorem withoutLastByteAppend (front : String) (single : c.utf8Size = 1) :
    withoutLastByte? (front ++ String.singleton c) = some front := by
  have size : (front ++ String.singleton c).utf8ByteSize = front.utf8ByteSize + 1 := by
    rw [String.utf8ByteSize_append, String.utf8ByteSize_singleton, single]
  rw [withoutLastByte?, size]
  exact beforeAppend front _

end ForkingLR.Text
