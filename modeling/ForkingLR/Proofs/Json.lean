import ForkingLR.Json.Reader
import Mathlib.Algebra.BigOperators.Group.List.Basic

/-! Reading what was written. A plain document, whose numbers are natural and whose strings need no
escape in hexadecimal, is read back as it was, in front of any text that cannot continue it. -/
namespace ForkingLR.Json

def PlainChar (c : Char) : Prop := 0x20 ≤ c.toNat

instance (c : Char) : Decidable (PlainChar c) := inferInstanceAs (Decidable (0x20 ≤ c.toNat))

def PlainUnits (units : List StringUnit) : Prop :=
  ∃ text : List Char, (∀ c ∈ text, PlainChar c) ∧ units = text.map .char

inductive Plain : Json → Prop
  | bool (b : Bool) : Plain (.bool b)
  | number (n : Nat) : Plain (ofNat n)
  | string {units : List StringUnit} (plain : PlainUnits units) : Plain (.string units)
  | array {elements : List Json} (plain : ∀ e ∈ elements, Plain e) : Plain (.array elements)
  | object {members : List (List StringUnit × Json)} (keys : ∀ m ∈ members, PlainUnits m.1)
      (plain : ∀ m ∈ members, Plain m.2) : Plain (.object members)

/-- Text before which a number is complete. -/
def Stops (text : List Char) : Prop :=
  ∀ c, text.head? = some c → c.isDigit = false ∧ c ≠ '.' ∧ c ≠ 'e' ∧ c ≠ 'E'

section
variable {text rest : List Char}

theorem writeCharPlain {c : Char} (plain : PlainChar c) :
    writeChar c = if c = '"' ∨ c = '\\' then ['\\', c] else [c] := by
  unfold writeChar
  split
  · rfl
  · rfl
  -- the control characters
  iterate 5 exact absurd plain (by decide)
  rename_i quote backslash _ _ _ _ _
  rw [if_neg (Nat.not_lt.2 plain), if_neg (not_or.2 ⟨quote, backslash⟩)]

theorem writeCharHead {c : Char} (plain : PlainChar c) : ∃ d more, writeChar c = d :: more ∧ d ≠ '"' := by
  rw [writeCharPlain plain]
  split
  · exact ⟨_, _, rfl, by decide⟩
  · rename_i other
    exact ⟨c, [], rfl, fun quote => other (.inl quote)⟩

theorem readUnitPlain {c : Char} (plain : PlainChar c) (rest : List Char) :
    readUnit (writeChar c ++ rest) = some (.char c, rest) := by
  rw [writeCharPlain plain]
  split
  · rename_i special
    rcases special with rfl | rfl <;> rfl
  · rename_i other
    have printable : ¬ c.toNat < 0x20 := Nat.not_lt.2 plain
    unfold readUnit
    split <;> simp_all

theorem readUnitsPlain (plain : ∀ c ∈ text, PlainChar c) :
    ∀ {fuel : Nat}, text.length ≤ fuel →
      readUnits fuel (text.flatMap writeChar ++ '"' :: rest) = some (text.map .char, rest) := by
  induction text with
  | nil =>
    intro fuel _
    unfold readUnits
    rfl
  | cons c text ih =>
    intro fuel enough
    obtain ⟨first, later⟩ := List.forall_mem_cons.1 plain
    obtain ⟨d, more, written, open'⟩ := writeCharHead first
    obtain ⟨fuel, rfl⟩ : ∃ n, fuel = n + 1 := ⟨fuel - 1, by simp at enough; omega⟩
    have one := readUnitPlain first (text.flatMap writeChar ++ '"' :: rest)
    have tail := ih later (Nat.le_of_succ_le_succ enough)
    rw [List.flatMap_cons, List.append_assoc]
    rw [written, List.cons_append] at one ⊢
    unfold readUnits
    split <;> simp_all

theorem readStringPlain {units : List StringUnit} (plain : PlainUnits units) :
    readString (writeString units ++ rest) = some (units, rest) := by
  obtain ⟨text, plain, rfl⟩ := plain
  have written : writeString (text.map .char) ++ rest = '"' :: (text.flatMap writeChar ++ '"' :: rest) := by
    simp [writeString, List.flatMap_map, writeUnit]
  have each : text.length ≤ (text.flatMap writeChar).length := by
    have long : ∀ c ∈ text, 1 ≤ (writeChar c).length := by
      intro c inside
      obtain ⟨d, more, written, _⟩ := writeCharHead (plain c inside)
      simp [written]
    rw [List.length_flatMap]
    simpa using List.length_le_sum_of_one_le (text.map fun c => (writeChar c).length) (by simpa using long)
  rw [written, readString]
  refine readUnitsPlain plain ?_
  rw [List.length_append]
  omega

theorem digitsSplit {digits : List Char} (all : ∀ c ∈ digits, c.isDigit = true) (stops : Stops rest) :
    readDigits (digits ++ rest) = (digits, rest) := by
  have stop : rest.takeWhile Char.isDigit = [] ∧ rest.dropWhile Char.isDigit = rest := by
    cases rest with
    | nil => exact ⟨rfl, rfl⟩
    | cons c rest => simp [(stops c rfl).1]
  rw [readDigits, List.takeWhile_append_of_pos all, List.dropWhile_append_of_pos all, stop.1, stop.2,
    List.append_nil]

theorem digitsHead {n : Nat} (positive : 0 < n) : (Nat.toDigits 10 n).head? ≠ some '0' := by
  induction n using Nat.strongRecOn with
  | _ n ih =>
    by_cases small : n < 10
    · rw [Nat.toDigits_of_lt_base small]
      have each : ∀ d < 10, 0 < d → Nat.digitChar d ≠ '0' := by decide
      simpa using each n small positive
    · have large : 10 ≤ n := Nat.le_of_not_lt small
      have shorter := ih (n / 10) (by omega) (by omega)
      rw [Nat.toDigits_of_base_le (by omega) large, List.head?_append]
      cases more : (Nat.toDigits 10 (n / 10)).head? with
      | none =>
        rw [List.head?_eq_none_iff] at more
        exact absurd more Nat.toDigits_ne_nil
      | some c =>
        rw [more] at shorter
        exact shorter

theorem digitsBegin (n : Nat) : ∃ c digits, Nat.toDigits 10 n = c :: digits ∧ c.isDigit = true := by
  obtain ⟨c, digits, shape⟩ := List.exists_cons_of_ne_nil (Nat.toDigits_ne_nil (b := 10) (n := n))
  have inside : c ∈ Nat.toDigits 10 n := by simp [shape]
  exact ⟨c, digits, shape, Nat.isDigit_of_mem_toDigits (by omega) (by omega) inside⟩

theorem readIntegerDigits (n : Nat) (stops : Stops rest) :
    readInteger (Nat.toDigits 10 n ++ rest) = some (Nat.toDigits 10 n, rest) := by
  have all : ∀ c ∈ Nat.toDigits 10 n, c.isDigit = true :=
    fun c inside => Nat.isDigit_of_mem_toDigits (by omega) (by omega) inside
  rcases Nat.eq_zero_or_pos n with rfl | positive
  · show (if rest.head?.any Char.isDigit then none else some (['0'], rest)) = some (['0'], rest)
    rw [if_neg]
    cases rest with
    | nil => nofun
    | cons c rest => simp [(stops c rfl).1]
  · have head := digitsHead positive
    have split := digitsSplit all stops
    obtain ⟨c, digits, shape, _⟩ := digitsBegin n
    rw [shape] at head split ⊢
    unfold readInteger
    split
    · simp_all
    · rw [readSomeDigits, split]

theorem readNumberDigits (n : Nat) (stops : Stops rest) :
    readNumber (Nat.toDigits 10 n ++ rest) = some (Nat.toDigits 10 n, rest) := by
  have unsigned : readMinus (Nat.toDigits 10 n ++ rest) = ([], Nat.toDigits 10 n ++ rest) := by
    obtain ⟨c, digits, shape, digit⟩ := digitsBegin n
    rw [shape]
    unfold readMinus
    split
    · simp_all
    · rfl
  have whole : readFraction rest = some ([], rest) ∧ readExponent rest = some ([], rest) := by
    cases rest with
    | nil => exact ⟨rfl, rfl⟩
    | cons c rest =>
      obtain ⟨_, point, small, capital⟩ := stops c rfl
      unfold readFraction readExponent
      simp [point, small, capital]
  simp [readNumber, unsigned, readIntegerDigits n stops, whole]

end

theorem skipSpaceFirst {c : Char} (visible : isSpace c = false) (text : List Char) :
    skipSpace (c :: text) = c :: text := by
  simp [skipSpace, visible]

theorem writeBegins {j : Json} (plain : Plain j) :
    ∃ c text, write j = c :: text ∧ isSpace c = false ∧ c ≠ ']' := by
  cases plain with
  | bool b => cases b <;> exact ⟨_, _, rfl, by decide, by decide⟩
  | number n =>
    obtain ⟨c, digits, shape, digit⟩ := digitsBegin n
    refine ⟨c, digits, shape, ?_, ?_⟩
    · cases space : isSpace c with
      | false => rfl
      | true =>
        simp only [isSpace, Bool.or_eq_true, beq_iff_eq] at space
        rcases space with ((rfl | rfl) | rfl) | rfl <;> contradiction
    · rintro rfl
      contradiction
  | string => exact ⟨_, _, rfl, by decide, by decide⟩
  | @array elements =>
    cases elements with
    | nil => exact ⟨_, _, rfl, by decide, by decide⟩
    | cons => exact ⟨_, _, rfl, by decide, by decide⟩
  | @object members =>
    cases members with
    | nil => exact ⟨_, _, rfl, by decide, by decide⟩
    | cons => exact ⟨_, _, rfl, by decide, by decide⟩

theorem elementsStop (elements : List Json) (rest : List Char) : Stops (writeElements elements ++ rest) := by
  intro c first
  cases elements with
  | nil =>
    cases first
    decide
  | cons =>
    cases first
    decide

theorem membersStop (members : List (List StringUnit × Json)) (rest : List Char) :
    Stops (writeMembers members ++ rest) := by
  intro c first
  cases members with
  | nil =>
    cases first
    decide
  | cons =>
    cases first
    decide

def ReadsBack (j : Json) : Prop :=
  ∀ fuel rest, (write j).length ≤ fuel → Stops rest → readValue fuel (write j ++ rest) = some (j, rest)

theorem elementsReadBack {elements : List Json} (plain : ∀ e ∈ elements, Plain e)
    (each : ∀ e ∈ elements, ReadsBack e) (rest : List Char) :
    ∀ fuel, (writeElements elements).length ≤ fuel →
      readElements fuel (writeElements elements ++ rest) = some (elements, rest) ∧
        skipSpace (writeElements elements ++ rest) = writeElements elements ++ rest := by
  induction elements with
  | nil =>
    intro fuel enough
    cases fuel with
    | zero => cases enough
    | succ fuel => exact ⟨rfl, rfl⟩
  | cons e elements ih =>
    intro fuel enough
    obtain ⟨first, others⟩ := List.forall_mem_cons.1 each
    obtain ⟨plain, plains⟩ := List.forall_mem_cons.1 plain
    cases fuel with
    | zero => cases enough
    | succ fuel =>
      simp only [writeElements, List.cons_append, List.length_cons, List.length_append,
        Nat.add_le_add_iff_right] at enough
      obtain ⟨c, text, written, visible, _⟩ := writeBegins plain
      have head := first fuel (writeElements elements ++ rest) (by omega) (elementsStop _ _)
      obtain ⟨tail, spaced⟩ := ih plains others fuel (by omega)
      refine ⟨?_, rfl⟩
      simp only [writeElements, List.cons_append, List.append_assoc, readElements]
      rw [written, List.cons_append] at head ⊢
      simp [skipSpaceFirst visible, head, spaced, tail]

theorem memberReadsBack {key : List StringUnit} {value : Json} (name : PlainUnits key) (plain : Plain value)
    (back : ReadsBack value) {rest : List Char} (stops : Stops rest) {fuel : Nat}
    (enough : (write value).length + 1 ≤ fuel) :
    readMember fuel (writeString key ++ ':' :: (write value ++ rest)) = some ((key, value), rest) := by
  obtain ⟨fuel, rfl⟩ : ∃ n, fuel = n + 1 := ⟨fuel - 1, by omega⟩
  obtain ⟨c, text, written, visible, _⟩ := writeBegins plain
  have later := back fuel rest (by omega) stops
  rw [written, List.cons_append] at later ⊢
  simp [readMember, readStringPlain name, skipSpaceFirst visible,
    skipSpaceFirst (show isSpace ':' = false by decide), later]

theorem membersReadBack {members : List (List StringUnit × Json)} (keys : ∀ m ∈ members, PlainUnits m.1)
    (plain : ∀ m ∈ members, Plain m.2) (each : ∀ m ∈ members, ReadsBack m.2) (rest : List Char) :
    ∀ fuel, (writeMembers members).length ≤ fuel →
      readMembers fuel (writeMembers members ++ rest) = some (members, rest) ∧
        skipSpace (writeMembers members ++ rest) = writeMembers members ++ rest := by
  induction members with
  | nil =>
    intro fuel enough
    cases fuel with
    | zero => cases enough
    | succ fuel => exact ⟨rfl, rfl⟩
  | cons m members ih =>
    obtain ⟨key, value⟩ := m
    intro fuel enough
    obtain ⟨first, others⟩ := List.forall_mem_cons.1 each
    obtain ⟨plain, plains⟩ := List.forall_mem_cons.1 plain
    obtain ⟨name, names⟩ := List.forall_mem_cons.1 keys
    dsimp only at first plain name
    cases fuel with
    | zero => cases enough
    | succ fuel =>
      simp only [writeMembers, List.cons_append, List.length_cons, List.length_append,
        Nat.add_le_add_iff_right] at enough
      have head := memberReadsBack name plain first (membersStop members rest)
          (show (write value).length + 1 ≤ fuel by omega)
      obtain ⟨tail, spaced⟩ := ih names plains others fuel (by omega)
      have quoted : skipSpace (writeString key ++ ':' :: (write value ++ (writeMembers members ++ rest))) =
          writeString key ++ ':' :: (write value ++ (writeMembers members ++ rest)) := rfl
      refine ⟨?_, rfl⟩
      simp [writeMembers, readMembers, quoted, head, spaced, tail]

theorem readValueDigit {c : Char} (digit : c.isDigit = true) (fuel : Nat) (text : List Char) :
    readValue (fuel + 1) (c :: text) =
      (readNumber (c :: text)).map fun (literal, text) => (.number literal, text) := by
  unfold readValue
  split
  iterate 6 (rename_i same; cases same; contradiction)
  rfl

theorem readsBack {j : Json} (plain : Plain j) : ReadsBack j := by
  induction plain with
  | bool b =>
    intro fuel rest enough _
    cases fuel with
    | zero => cases b <;> cases enough
    | succ fuel => cases b <;> rfl
  | number n =>
    intro fuel rest enough stops
    have number := readNumberDigits n stops
    obtain ⟨c, digits, shape, digit⟩ := digitsBegin n
    have written : write (ofNat n) = c :: digits := shape
    rw [written] at enough ⊢
    cases fuel with
    | zero => cases enough
    | succ fuel =>
      rw [shape, List.cons_append] at number
      rw [List.cons_append, readValueDigit digit, number, ← shape]
      rfl
  | string plain =>
    intro fuel rest enough _
    cases fuel with
    | zero => cases enough
    | succ fuel =>
      show (readString (writeString _ ++ rest)).map (fun p => (Json.string p.1, p.2)) = _
      rw [readStringPlain plain]
      rfl
  | @array elements plain ih =>
    intro fuel rest enough _
    cases fuel with
    | zero => cases elements <;> cases enough
    | succ fuel =>
      cases elements with
      | nil => rfl
      | cons e elements =>
        obtain ⟨first, others⟩ := List.forall_mem_cons.1 ih
        obtain ⟨plain, plains⟩ := List.forall_mem_cons.1 plain
        simp only [write, List.cons_append, List.length_cons, List.length_append,
          Nat.add_le_add_iff_right] at enough
        obtain ⟨c, text, written, visible, open'⟩ := writeBegins plain
        have head := first fuel (writeElements elements ++ rest) (by omega) (elementsStop _ _)
        obtain ⟨tail, spaced⟩ := elementsReadBack plains others rest fuel (by omega)
        simp only [write, List.cons_append, List.append_assoc]
        rw [written, List.cons_append] at head ⊢
        simp [readValue, skipSpaceFirst visible, open', head, spaced, tail]
  | @object members keys plain ih =>
    intro fuel rest enough _
    cases fuel with
    | zero => cases members <;> cases enough
    | succ fuel =>
      cases members with
      | nil => rfl
      | cons m members =>
        obtain ⟨key, value⟩ := m
        obtain ⟨first, others⟩ := List.forall_mem_cons.1 ih
        obtain ⟨plain, plains⟩ := List.forall_mem_cons.1 plain
        obtain ⟨name, names⟩ := List.forall_mem_cons.1 keys
        dsimp only at first plain name
        simp only [write, List.cons_append, List.length_cons, List.length_append,
          Nat.add_le_add_iff_right] at enough
        have head := memberReadsBack name plain first (membersStop members rest)
          (show (write value).length + 1 ≤ fuel by omega)
        obtain ⟨tail, spaced⟩ := membersReadBack names plains others rest fuel (by omega)
        have opened (tail : List Char) : readValue (fuel + 1) ('\x7b' :: (writeString key ++ tail)) = (do
            let m ← readMember fuel (writeString key ++ tail)
            let more ← readMembers fuel (skipSpace m.2)
            some (.object (m.1 :: more.1), more.2)) := rfl
        simp [write, opened, head, spaced, tail]

theorem readWrite {j : Json} (plain : Plain j) : read (write j) = some j := by
  obtain ⟨c, text, written, visible, _⟩ := writeBegins plain
  have back := readsBack plain (3 * (write j).length + 3) [] (by omega) nofun
  rw [List.append_nil] at back
  have spaced : skipSpace (write j) = write j := by rw [written, skipSpaceFirst visible]
  rw [read, spaced, back]
  rfl

end ForkingLR.Json
