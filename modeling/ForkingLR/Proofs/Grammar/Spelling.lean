import ForkingLR.Proofs.Grammar.Writing

/-! The names of helpers. The numbered candidates for a name are distinct, so one of the first few is free;
and whether it is well spelled depends on the operands alone, not on the operator or the number. -/
namespace ForkingLR

theorem lowerToList (name : String) : name.toLower.toList = name.toList.map Char.toLower := String.toList_map

namespace SymbolKind
variable {c : Char} {name : String}

theorem isUpperIff : c.isUpper = true ↔ 65 ≤ c.toNat ∧ c.toNat ≤ 90 := by
  show decide (c.val ≥ 'A'.val ∧ c.val ≤ 'Z'.val) = true ↔ _
  simp [UInt32.le_iff_toNat_le, ← Char.toNat_val]

theorem isLowerIff : c.isLower = true ↔ 97 ≤ c.toNat ∧ c.toNat ≤ 122 := by
  show (decide (c.val ≥ 'a'.val) && decide (c.val ≤ 'z'.val)) = true ↔ _
  simp [UInt32.le_iff_toNat_le, ← Char.toNat_val]

theorem upperOfLower (lower : c.isLower = true) : c.isUpper = false := by
  rw [← Bool.not_eq_true, isUpperIff]
  rw [isLowerIff] at lower
  omega

theorem lowerUpper (upper : c.isUpper = true) : c.toLower.isLower = true := by
  have bounds := isUpperIff.1 upper
  have range : c.val ≥ 'A'.val ∧ c.val ≤ 'Z'.val := of_decide_eq_true upper
  have shifted : c.toLower.toNat = c.toNat + 32 := by
    have step : ('a'.val - 'A'.val).toNat = 32 := by decide
    have same : c.val.toNat = c.toNat := rfl
    have moved : c.toLower = _ := dif_pos range
    rw [moved]
    simp only [Char.toNat, UInt32.toNat_add]
    omega
  rw [isLowerIff, shifted]
  omega

theorem lowerOther (other : c.isUpper = false) : c.toLower = c := by
  have range : ¬ (c.val ≥ 'A'.val ∧ c.val ≤ 'Z'.val) := of_decide_eq_false other
  exact dif_neg range

def Lowered (cs : List Char) : Prop := ∀ c ∈ cs, isNameTail Char.isLower c = true

theorem loweredTail {letter : Char → Bool} (small : ∀ c, letter c = true → c.toLower.isLower = true)
    {cs : List Char} (tail : cs.all (isNameTail letter) = true) : Lowered (cs.map Char.toLower) := by
  intro c inside
  obtain ⟨b, listed, rfl⟩ := List.mem_map.1 inside
  have fits := List.all_eq_true.1 tail b listed
  cases upper : b.isUpper with
  | true => simp [isNameTail, lowerUpper upper]
  | false =>
    have same := lowerOther upper
    rw [same]
    simp only [isNameTail, Bool.or_eq_true] at fits ⊢
    exact fits.imp_right fun letter => same ▸ small b letter

theorem loweredName (spelled : (ofName? name).isSome = true) (ordinary : name ≠ "$start") :
    ∃ c rest, name.toLower.toList = c :: rest ∧ c.isLower = true ∧ Lowered rest := by
  rw [ofName?, if_neg ordinary] at spelled
  rw [lowerToList]
  split at spelled
  · cases spelled
  · rename_i c rest shape
    rw [shape, List.map_cons]
    split at spelled
    · rename_i upper
      rw [Bool.and_eq_true] at upper
      exact ⟨_, _, rfl, lowerUpper upper.1, loweredTail (fun _ => lowerUpper) upper.2⟩
    · split at spelled
      · rename_i lower
        rw [Bool.and_eq_true] at lower
        have kept (b : Char) (small : b.isLower = true) : b.toLower.isLower = true := by
          rwa [lowerOther (upperOfLower small)]
        exact ⟨_, _, rfl, kept c lower.1, loweredTail kept lower.2⟩
      · cases spelled

theorem nameableIff : Nameable .nonterminal name ↔
    ∃ c rest, name.toList = c :: rest ∧ c.isLower = true ∧ Lowered rest := by
  constructor
  · rintro ⟨ordinary, spelled⟩
    rw [ofName?, if_neg ordinary] at spelled
    split at spelled
    · cases spelled
    · rename_i c rest shape
      split at spelled
      · cases spelled
      · split at spelled
        · rename_i lower
          rw [Bool.and_eq_true, List.all_eq_true] at lower
          exact ⟨c, rest, shape, lower⟩
        · cases spelled
  · rintro ⟨c, rest, shape, lower, tail⟩
    have ordinary : name ≠ "$start" := by
      rintro rfl
      cases shape
      cases lower
    have all : rest.all (isNameTail Char.isLower) = true := List.all_eq_true.2 tail
    exact ⟨ordinary, by simp [ofName?, ordinary, shape, upperOfLower lower, lower, all]⟩

end SymbolKind

theorem startLower : "$start".toLower.toList = "$start".toList := by
  rw [lowerToList]
  rfl

namespace SymbolTable

theorem nameStart {t : SymbolTable} {x : Symbol} : t.name x = "$start" ↔ x.key = Symbol.augmentedStart.key := by
  rw [SymbolTable.name, Interner.resolve?]
  constructor
  · intro same
    cases found : t.names.entries[x.key]? with
    | none => simp [found] at same
    | some name =>
      rw [found, Option.getD_some] at same
      rw [same] at found
      have bound := (List.getElem?_eq_some_iff.1 found).1
      exact (List.getElem?_inj bound t.names.nodup).1 (found.trans t.startKey.symm)
  · intro same
    rw [same, show Symbol.augmentedStart.key = 2 from rfl, t.startKey]
    rfl

theorem nameSpelled (t : SymbolTable) (x : Symbol) :
    t.size ≤ x.key ∧ t.name x = "" ∨ x.key < t.size ∧ (SymbolKind.ofName? (t.name x)).isSome = true := by
  unfold SymbolTable.name Interner.resolve?
  cases found : t.names.entries[x.key]? with
  | none => exact .inl ⟨List.getElem?_eq_none_iff.1 found, rfl⟩
  | some name =>
    exact .inr ⟨(List.getElem?_eq_some_iff.1 found).1, t.spelled name (List.mem_of_getElem? found)⟩

theorem lookupOfMem {t : SymbolTable} {name : String} (listed : name ∈ t.names.entries) :
    (t.lookup? name).isSome = true := by
  obtain ⟨key, placed⟩ := List.mem_iff_getElem?.1 listed
  obtain ⟨kind, spelled⟩ := Option.isSome_iff_exists.1 (t.spelled name listed)
  have found : t.lookup? name = some ⟨key, kind⟩ := lookupIff.2 ⟨placed, spelled⟩
  simp [found]

end SymbolTable

namespace Draft
open SymbolKind (Lowered nameableIff loweredName)

theorem candidateInjective (stem : String) : Function.Injective (candidate stem) := by
  have longer (n : Nat) : candidate stem (n + 1) ≠ stem := by
    intro same
    have lengths := congrArg String.length same
    have mark : "_".length = 1 := rfl
    simp only [candidate, String.length_append] at lengths
    omega
  have read (n : Nat) : Nat.ofDigitChars 10 (toString n).toList 0 = n := by
    rw [Nat.toString_eq_repr, Nat.toList_repr, Nat.ofDigitChars_ten_toDigits]
  intro n k same
  cases n with
  | zero =>
    cases k with
    | zero => rfl
    | succ k => exact absurd same.symm (longer k)
  | succ n =>
    cases k with
    | zero => exact absurd same (longer n)
    | succ k =>
      have digits : toString (n + 2) = toString (k + 2) := by simpa [candidate] using same
      have equal : n + 2 = k + 2 := by rw [← read (n + 2), digits, read]
      omega

theorem freshNameSource (d : Draft) (stem : String) :
    ∃ n ≤ d.symbols.size, d.freshName stem = candidate stem n ∧
      candidate stem n ∉ d.symbols.names.entries ∧ ∀ k < n, candidate stem k ∈ d.symbols.names.entries := by
  have taken {name : String} : (d.symbols.lookup? name).isNone = false ↔ name ∈ d.symbols.names.entries := by
    rw [Option.isNone_eq_false_iff]
    constructor
    · intro found
      obtain ⟨x, found⟩ := Option.isSome_iff_exists.1 found
      exact List.mem_of_getElem? (SymbolTable.lookupKey found)
    · exact SymbolTable.lookupOfMem
  unfold freshName
  rw [List.find?_map]
  cases found : (List.range (d.symbols.size + 1)).find?
      ((fun name => (d.symbols.lookup? name).isNone) ∘ candidate stem) with
  | some n =>
    obtain ⟨free, bound, before⟩ := List.find?_range_eq_some.1 found
    refine ⟨n, Nat.le_of_lt_succ (List.mem_range.1 bound), rfl, ?_, ?_⟩
    · intro listed
      rw [← taken] at listed
      simp [listed] at free
    · intro k less
      exact taken.1 (by simpa using before k less)
  | none =>
    have all : (List.range (d.symbols.size + 1)).map (candidate stem) ⊆ d.symbols.names.entries := by
      intro name listed
      obtain ⟨n, inside, rfl⟩ := List.mem_map.1 listed
      exact taken.1 (Bool.not_eq_true _ ▸ List.find?_eq_none.1 found n inside)
    have distinct := List.nodup_range (n := d.symbols.size + 1) |>.map (candidateInjective stem)
    have short := (List.subperm_of_subset distinct all).length_le
    rw [List.length_map, List.length_range] at short
    exact absurd short (Nat.not_succ_le_self _)

theorem lowered {cs : List Char} (fits : cs.all (SymbolKind.isNameTail Char.isLower) = true) : Lowered cs :=
  List.all_eq_true.1 fits

theorem loweredAppend {cs more : List Char} : Lowered (cs ++ more) ↔ Lowered cs ∧ Lowered more :=
  List.forall_mem_append

theorem loweredCons {c : Char} {cs : List Char} (fits : SymbolKind.isNameTail Char.isLower c = true) :
    Lowered (c :: cs) ↔ Lowered cs := by
  simp [Lowered, fits]

theorem loweredSymbol {t : SymbolTable} {x : Symbol} :
    Lowered (t.name x).toLower.toList ↔ x.key ≠ Symbol.augmentedStart.key := by
  by_cases start : x.key = Symbol.augmentedStart.key
  · rw [SymbolTable.nameStart.2 start, startLower]
    constructor
    · intro fits
      exact absurd (fits '$' List.mem_cons_self) (by decide)
    · exact fun ordinary => absurd start ordinary
  · refine iff_of_true ?_ start
    rcases t.nameSpelled x with ⟨_, empty⟩ | ⟨_, spelled⟩
    · rw [empty, lowerToList]
      exact lowered rfl
    · obtain ⟨c, rest, shape, small, tail⟩ := loweredName spelled fun same => start (SymbolTable.nameStart.1 same)
      rw [shape, loweredCons (by simp [SymbolKind.isNameTail, small])]
      exact tail

theorem candidateShape (d : Draft) (key : HelperKey) (n : Nat) :
    ∃ rest, (candidate (d.stem key) n).toList = (d.name key.base).toLower.toList ++ '_' :: rest ∧
      (Lowered rest ↔ ∀ x ∈ key.separator, x.key ≠ Symbol.augmentedStart.key) := by
  have numbered : ∃ digits, (candidate (d.stem key) n).toList = (d.stem key).toList ++ digits ∧ Lowered digits := by
    cases n with
    | zero => exact ⟨[], by simp [candidate], lowered rfl⟩
    | succ n =>
      refine ⟨'_' :: (toString (n + 2)).toList, by simp [candidate], (loweredCons (by decide)).2 ?_⟩
      intro c inside
      rw [Nat.toString_eq_repr, Nat.toList_repr] at inside
      simp [SymbolKind.isNameTail, Nat.isDigit_of_mem_toDigits (by omega) (by omega) inside]
  have suffixed : ∃ suffix, (stemSuffix key.op).toList = '_' :: suffix ∧ Lowered suffix := by
    cases key.op with
    | optional => exact ⟨_, rfl, lowered (by decide)⟩
    | list => exact ⟨_, rfl, lowered (by decide)⟩
    | nonemptyList => exact ⟨_, rfl, lowered (by decide)⟩
  obtain ⟨digits, shape, fine⟩ := numbered
  obtain ⟨suffix, ends, fits⟩ := suffixed
  rw [shape, stem]
  cases key.separator with
  | none =>
    refine ⟨suffix ++ digits, by simp [ends], ?_⟩
    simp [loweredAppend, fits, fine]
  | some x =>
    refine ⟨(d.name x).toLower.toList ++ '_' :: (suffix ++ digits), by simp [ends], ?_⟩
    rw [loweredAppend, loweredCons (by decide), loweredAppend, Draft.name, loweredSymbol]
    simp [fits, fine]

structure Spellable (d : Draft) (key : HelperKey) : Prop where
  base : key.base.key < d.symbols.size
  ordinary : ∀ x ∈ key.base :: key.separator.toList, x.key ≠ Symbol.augmentedStart.key

theorem helperNameable {d : Draft} {key : HelperKey} {n : Nat} :
    Nameable .nonterminal (candidate (d.stem key) n) ↔ d.Spellable key := by
  obtain ⟨rest, shape, fits⟩ := candidateShape d key n
  rw [nameableIff, shape]
  have spellable : d.Spellable key ↔ key.base.key < d.symbols.size ∧
      key.base.key ≠ Symbol.augmentedStart.key ∧ Lowered rest := by
    rw [fits]
    constructor
    · rintro ⟨base, ordinary⟩
      obtain ⟨one, others⟩ := List.forall_mem_cons.1 ordinary
      exact ⟨base, one, by simpa using others⟩
    · rintro ⟨base, one, others⟩
      exact ⟨base, List.forall_mem_cons.2 ⟨one, by simpa using others⟩⟩
  rw [spellable]
  by_cases start : key.base.key = Symbol.augmentedStart.key
  · refine iff_of_false ?_ fun h => h.2.1 start
    rintro ⟨c, tail, same, small, _⟩
    rw [Draft.name, SymbolTable.nameStart.2 start, startLower] at same
    cases same
    cases small
  · rcases d.symbols.nameSpelled key.base with ⟨unknown, empty⟩ | ⟨known, spelled⟩
    · refine iff_of_false ?_ fun h => Nat.not_lt.2 unknown h.1
      rintro ⟨c, tail, same, small, _⟩
      rw [Draft.name, empty, lowerToList] at same
      cases same
      cases small
    · obtain ⟨c, front, lower, small, tail⟩ :=
        loweredName spelled fun same => start (SymbolTable.nameStart.1 same)
      rw [Draft.name, lower]
      constructor
      · rintro ⟨_, _, same, _, all⟩
        cases same
        exact ⟨known, start, (loweredCons (by decide)).1 (loweredAppend.1 all).2⟩
      · rintro ⟨_, _, rest⟩
        exact ⟨c, _, rfl, small, loweredAppend.2 ⟨tail, (loweredCons (by decide)).2 rest⟩⟩

end Draft
end ForkingLR
