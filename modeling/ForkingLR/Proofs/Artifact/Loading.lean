import ForkingLR.Artifact
import ForkingLR.Proofs.Automaton.Renaming
import ForkingLR.Proofs.Grammar.Agreement

/-! Loading a saved table. What an artifact says by numbers is read under the symbols that the grammar has
for the saved names, so it loads for exactly the grammars that agree with the one it was saved for and
know every name it mentions, and what it loads is the same table in the other grammar's symbols. -/
namespace ForkingLR

def EntryAlike {β : Type} (R : Symbol → Symbol → Prop) (e f : Symbol × β) : Prop := R e.1 f.1 ∧ e.2 = f.2

section
variable {β : Type} {R : Symbol → Symbol → Prop} {k l : List (Symbol × β)}

theorem entryMember (names : Renaming R) (same : List.Forall₂ (EntryAlike R) k l) {x y : Symbol}
    (related : R x y) {b : β} : (x, b) ∈ k ↔ (y, b) ∈ l := by
  constructor
  · intro listed
    obtain ⟨⟨y', _⟩, listed', related', rfl⟩ := (forallMem same).1 _ listed
    rwa [(names.unique related related').1 rfl]
  · intro listed
    obtain ⟨⟨x', _⟩, listed', related', rfl⟩ := (forallMem same).2 _ listed
    rwa [(names.unique related related').2 rfl]

theorem entriesResolve (partner : ∀ e ∈ k, ∃ y, R e.1 y) : ∃ l, List.Forall₂ (EntryAlike R) k l := by
  refine forallExists fun e listed => ?_
  obtain ⟨y, related⟩ := partner e listed
  exact ⟨(y, e.2), related, rfl⟩

theorem entryKeys (same : List.Forall₂ (EntryAlike R) k l) :
    List.Forall₂ R (k.map Prod.fst) (l.map Prod.fst) := by
  rw [List.forall₂_map_left_iff, List.forall₂_map_right_iff]
  exact same.imp fun _ _ alike => alike.1

theorem entryDistinct (names : Renaming R) (same : List.Forall₂ (EntryAlike R) k l)
    (distinct : (k.map Prod.fst).Nodup) : (l.map Prod.fst).Nodup := by
  have unique : Relator.BiUnique R :=
    ⟨fun _ _ _ first second => (names.unique first second).2 rfl,
      fun _ _ _ first second => (names.unique first second).1 rfl⟩
  exact (List.rel_nodup unique (entryKeys same)).1 distinct

end

namespace PrecedenceTable
open Artifact (compareDeclared)

instance : Std.TransCmp compareDeclared :=
  inferInstanceAs (Std.TransCmp
    (compareLex (compareOn fun e : Symbol × Precedence => e.2.level) (compareOn Prod.fst)))

theorem memDeclared {t : PrecedenceTable} {x : Symbol} {p : Precedence} :
    (x, p) ∈ t.declared ↔ t.terminals.get? x = some p := by
  rw [SortedMap.getSomeIff]
  exact (List.mergeSort_perm _ _).mem_iff

theorem declaredKeys (t : PrecedenceTable) : (t.declared.map Prod.fst).Nodup :=
  ((List.mergeSort_perm _ _).map Prod.fst).nodup_iff.2 t.terminals.keysNodup

theorem declaredSorted (t : PrecedenceTable) :
    t.declared.Pairwise fun a b => (compareDeclared a b).isLE = true := by
  have trans : ∀ a b c : Symbol × Precedence, decide (a.2.level ≤ b.2.level) = true →
      decide (b.2.level ≤ c.2.level) = true → decide (a.2.level ≤ c.2.level) = true := by
    simp only [decide_eq_true_eq]
    exact fun _ _ _ => Nat.le_trans
  have total : ∀ a b : Symbol × Precedence,
      (decide (a.2.level ≤ b.2.level) || decide (b.2.level ≤ a.2.level)) = true := by
    simp only [Bool.or_eq_true, decide_eq_true_eq]
    exact fun _ _ => Nat.le_total _ _
  have distinct : t.declared.Nodup := t.declaredKeys.of_map
  have levels := List.pairwise_mergeSort trans total t.terminals.entries
  refine List.pairwise_iff_forall_sublist.2 ?_
  intro a b placed
  have below : a.2.level ≤ b.2.level := of_decide_eq_true (List.pairwise_iff_forall_sublist.1 levels placed)
  rcases Nat.lt_or_eq_of_le below with less | same
  · simp [compareDeclared, Nat.compare_eq_lt.2 less]
  · have inside {e : Symbol × Precedence} (h : e ∈ [a, b]) : e ∈ t.terminals.entries :=
      (List.mergeSort_perm _ _).mem_iff.1 (placed.subset h)
    have different : a ≠ b := by simpa using distinct.sublist placed
    have order : [a, b].Sublist t.terminals.entries := by
      refine (pairPlaced (inside (by simp)) (inside (by simp)) different).resolve_right ?_
      intro back
      exact pairOnce distinct placed
        (List.pair_sublist_mergeSort trans total (decide_eq_true (Nat.le_of_eq same.symm)) back)
    have symbols := List.pairwise_iff_forall_sublist.1 t.terminals.sorted order
    simp [compareDeclared, same, symbols]

theorem declaredEq {t : PrecedenceTable} {l : List (Symbol × Precedence)} (distinct : (l.map Prod.fst).Nodup) :
    l.mergeSort (fun a b => (compareDeclared a b).isLE) = t.declared ↔ ∀ e, e ∈ l ↔ e ∈ t.declared := by
  have perm := List.mergeSort_perm l fun a b => (compareDeclared a b).isLE
  constructor
  · intro same e
    rw [← same, perm.mem_iff]
  · intro members
    have equal : l.Perm t.declared :=
      (List.perm_ext_iff_of_nodup distinct.of_map t.declaredKeys.of_map).2 members
    refine (perm.trans equal).eq_of_pairwise ?_ ?_ t.declaredSorted
    · rintro ⟨x, p⟩ ⟨y, q⟩ left right below above
      have order : compareDeclared (x, p) (y, q) = .eq := by
        rw [← Std.OrientedCmp.isGE_iff_isLE] at above
        cases order : compareDeclared (x, p) (y, q) <;> simp_all
      obtain rfl : x = y := Std.LawfulEqOrd.eq_of_compare (Ordering.then_eq_eq.1 order).2
      have left := memDeclared.1 ((members _).1 (perm.mem_iff.1 left))
      rw [Option.some.inj (left.symm.trans (memDeclared.1 right))]
    · refine List.pairwise_mergeSort ?_ ?_ l
      · exact fun a b c first second => Std.TransCmp.isLE_trans first second
      · intro a b
        rw [Bool.or_eq_true, ← Std.OrientedCmp.isGE_iff_isLE (a := a) (b := b)]
        cases compareDeclared a b <;> simp

end PrecedenceTable

namespace Artifact

def recordOf (number : Symbol → Nat) (s : State) : StateRecord :=
  { items := s.items
    transitions := s.transitions.entries.map fun e => (number e.1, e.2)
    actions := s.rows.entries.map fun e => (number e.1, e.2) }

section
variable {R : Symbol → Symbol → Prop} {used ys : List Symbol} (names : Renaming R)
  (pairs : List.Forall₂ R used ys)
include names pairs

theorem symbolAtIff {x y : Symbol} (inside : x ∈ used) : symbolAt ys (used.idxOf x) = .ok y ↔ R x y := by
  have bound : used.idxOf x < used.length := List.idxOf_lt_length_iff.2 inside
  have bound' : used.idxOf x < ys.length := pairs.length_eq ▸ bound
  have related : R x ys[used.idxOf x] := by
    have placed := pairs.get bound bound'
    simpa using placed
  have found : symbolAt ys (used.idxOf x) = .ok ys[used.idxOf x] := by
    rw [symbolAt, List.getElem?_eq_getElem bound']
  rw [found, Except.ok.injEq]
  constructor
  · rintro rfl
    exact related
  · exact fun other => (names.unique related other).1 rfl

omit names in
theorem partnerOf {x : Symbol} (inside : x ∈ used) : ∃ y, R x y := by
  obtain ⟨y, _, related⟩ := (forallMem pairs).1 x inside
  exact ⟨y, related⟩

theorem wordIff {u v : List Symbol} (inside : ∀ x ∈ u, x ∈ used) :
    (u.map fun x => used.idxOf x).mapM (symbolAt ys) = .ok v ↔ List.Forall₂ R u v := by
  rw [mapMIff, List.forall₂_map_left_iff]
  exact forallCongr fun x listed y _ => symbolAtIff names pairs (inside x listed)

theorem entriesIff {β : Type} {k l : List (Symbol × β)} (inside : ∀ e ∈ k, e.1 ∈ used) :
    ((k.map fun e => (used.idxOf e.1, e.2)).mapM fun e => do
      let symbol ← symbolAt ys e.1
      pure (symbol, e.2)) = .ok l ↔ List.Forall₂ (EntryAlike R) k l := by
  rw [mapMIff, List.forall₂_map_left_iff]
  refine forallCongr fun e listed f _ => ?_
  rw [bindPureIff]
  constructor
  · rintro ⟨y, found, rfl⟩
    exact ⟨(symbolAtIff names pairs (inside e listed)).1 found, rfl⟩
  · rintro ⟨related, same⟩
    exact ⟨f.1, (symbolAtIff names pairs (inside e listed)).2 related, by rw [same]⟩

theorem checkProductionIff {p q : Production Symbol} (inside : ∀ x ∈ p.lhs :: p.rhs, x ∈ used) (id : Nat) :
    checkProduction ys ⟨used.idxOf p.lhs, p.rhs.map fun x => used.idxOf x⟩ id q = .ok () ↔ p.Alike R q := by
  obtain ⟨own, rest⟩ := List.forall_mem_cons.1 inside
  have lhs {y : Symbol} := symbolAtIff (y := y) names pairs own
  have rhs {v : List Symbol} := wordIff (v := v) names pairs rest
  unfold checkProduction
  constructor
  · intro passed
    cases word : (p.rhs.map fun x => used.idxOf x).mapM (symbolAt ys) with
    | error e => simp [word, bind, Except.bind] at passed
    | ok v =>
      cases head : symbolAt ys (used.idxOf p.lhs) with
      | error e => simp [word, head, bind, Except.bind] at passed
      | ok y =>
        simp only [word, head, bind, Except.bind] at passed
        split at passed
        · rename_i same
          exact ⟨same.1 ▸ lhs.1 head, same.2 ▸ rhs.1 word⟩
        · cases passed
  · intro alike
    simp [rhs.2 alike.rhs, lhs.2 alike.lhs, bind, Except.bind, pure, Except.pure]

theorem checkProductionsIff {ps qs : List (Production Symbol)}
    (inside : ∀ p ∈ ps, ∀ x ∈ p.lhs :: p.rhs, x ∈ used) (length : ps.length = qs.length) :
    ∀ id, checkProductions ys id
      (ps.map fun p => ⟨used.idxOf p.lhs, p.rhs.map fun x => used.idxOf x⟩) qs = .ok () ↔
        List.Forall₂ (Production.Alike R) ps qs := by
  induction ps generalizing qs with
  | nil =>
    intro id
    obtain rfl := List.length_eq_zero_iff.1 length.symm
    exact ⟨fun _ => .nil, fun _ => rfl⟩
  | cons p ps ih =>
    cases qs with
    | nil => cases length
    | cons q qs =>
      intro id
      obtain ⟨first, rest⟩ := List.forall_mem_cons.1 inside
      rw [List.map_cons, checkProductions, List.forall₂_cons, ← checkProductionIff names pairs first id,
        ← ih rest (Nat.succ.inj length) (id + 1)]
      cases checkProduction ys ⟨used.idxOf p.lhs, p.rhs.map fun x => used.idxOf x⟩ id q <;>
        simp [bind, Except.bind]

theorem declaredInIff {t t' : PrecedenceTable} (inside : ∀ e ∈ t.declared, e.1 ∈ used) :
    declaredIn ys (t.declared.map fun e => (used.idxOf e.1, e.2)) = .ok t'.declared ↔
      ∀ y p, t'.terminals.get? y = some p ↔ ∃ x, R x y ∧ t.terminals.get? x = some p := by
  obtain ⟨l, same⟩ := entriesResolve fun e listed => partnerOf pairs (inside e listed)
  have member {y : Symbol} {p : Precedence} :
      (y, p) ∈ l ↔ ∃ x, R x y ∧ t.terminals.get? x = some p := by
    constructor
    · intro listed
      obtain ⟨⟨x, _⟩, listed', related, rfl⟩ := (forallMem same).2 _ listed
      exact ⟨x, related, PrecedenceTable.memDeclared.1 listed'⟩
    · rintro ⟨x, related, level⟩
      exact (entryMember names same related).1 (PrecedenceTable.memDeclared.2 level)
  have distinct := entryDistinct names same t.declaredKeys
  rw [declaredIn, (entriesIff names pairs inside).2 same]
  show Except.ok _ = Except.ok _ ↔ _
  rw [Except.ok.injEq, PrecedenceTable.declaredEq distinct]
  constructor
  · intro members y p
    rw [← PrecedenceTable.memDeclared, ← members, member]
  · rintro members ⟨y, p⟩
    rw [PrecedenceTable.memDeclared, members, member]

end
end Artifact

namespace State
variable {R : Symbol → Symbol → Prop} {s t t' : State}

theorem setRowsFrame (rows : List (Symbol × List Action)) (s : State) :
    (rows.foldl (fun s row => s.setRow row.1 row.2) s).items = s.items ∧
      (rows.foldl (fun s row => s.setRow row.1 row.2) s).transitions = s.transitions := by
  induction rows generalizing s with
  | nil => exact ⟨rfl, rfl⟩
  | cons row rows ih =>
    obtain ⟨items, transitions⟩ := ih (s.setRow row.1 row.2)
    exact ⟨items.trans (setRowItems _ _ _), transitions.trans (setRowTransitions _ _ _)⟩

theorem setRowsOthers {rows : List (Symbol × List Action)} {y : Symbol} (absent : y ∉ rows.map Prod.fst)
    (s : State) : (rows.foldl (fun s row => s.setRow row.1 row.2) s).actionsOn y = s.actionsOn y := by
  induction rows generalizing s with
  | nil => rfl
  | cons e rows ih =>
    rw [List.map_cons, List.mem_cons, not_or] at absent
    rw [List.foldl_cons, ih absent.2, setRowActions, if_neg absent.1]

theorem setRowsListed {rows : List (Symbol × List Action)} (distinct : (rows.map Prod.fst).Nodup) {y : Symbol}
    {row : List Action} (listed : (y, row) ∈ rows) (s : State) :
    (rows.foldl (fun s row => s.setRow row.1 row.2) s).actionsOn y = row := by
  induction rows generalizing s with
  | nil => cases listed
  | cons e rows ih =>
    obtain ⟨new, distinct⟩ := List.nodup_cons.1 distinct
    rw [List.foldl_cons]
    rcases List.mem_cons.1 listed with rfl | listed
    · rw [setRowsOthers new, setRowActions, if_pos rfl]
    · exact ih distinct listed _

theorem Alike.unique (one : Alike R s t) (two : Alike R s t') (tidy : t.Tidy)
    (tidy' : t'.Tidy) : t = t' := by
  have cases (y : Symbol) : (∃ x, R x y) ∨ ¬ t.Mentions y ∧ ¬ t'.Mentions y := by
    by_cases named : ∃ x, R x y
    · exact .inl named
    · exact .inr ⟨fun h => named (one.named' h), fun h => named (two.named' h)⟩
  have moves : t.transitions = t'.transitions := by
    refine SortedMap.extAnswers fun y => ?_
    rcases cases y with ⟨x, related⟩ | ⟨none, none'⟩
    · exact (one.moves related).symm.trans (two.moves related)
    · simp only [Mentions, not_or, not_not] at none none'
      rw [none.1, none'.1]
  have rows : t.rows = t'.rows := by
    refine tidy.rowsEq tidy' fun y => ?_
    rcases cases y with ⟨x, related⟩ | ⟨none, none'⟩
    · exact (one.actions related).symm.trans (two.actions related)
    · simp only [Mentions, not_or, not_not] at none none'
      rw [none.2, none'.2]
  have items : t.items = t'.items := one.items.symm.trans two.items
  cases t
  cases t'
  simp_all

theorem Tidy.mentionsIff (tidy : s.Tidy) {x : Symbol} : x ∈ Automaton.stateSymbols s ↔ s.Mentions x := by
  rw [Automaton.stateSymbols, List.mem_append, SortedMap.memKeys, Mentions, Option.ne_none_iff_exists']
  refine or_congr_right ?_
  constructor
  · intro listed
    obtain ⟨⟨x, row⟩, inside, rfl⟩ := List.mem_map.1 listed
    exact actionsOnEntry inside ▸ tidy.entry inside
  · intro acts
    exact List.mem_map.2 ⟨_, (entryIff acts).2 rfl, rfl⟩

end State

namespace Artifact
variable {R : Symbol → Symbol → Prop} {used ys : List Symbol} {s t : State}

theorem stateOfIff {symbols : List Symbol} {record : StateRecord} : stateOf symbols record = .ok t ↔
    ∃ moves, (record.transitions.mapM fun e => do
        let symbol ← symbolAt symbols e.1
        pure (symbol, e.2)) = .ok moves ∧
      ∃ rows, (record.actions.mapM fun e => do
          let symbol ← symbolAt symbols e.1
          pure (symbol, e.2)) = .ok rows ∧
        rows.foldl (fun s row => s.setRow row.1 row.2)
          { items := record.items, transitions := SortedMap.ofList moves } = t := by
  simp only [stateOf, bindIff, pure, Except.pure, Except.ok.injEq]

theorem tidyRebuilt (items : List Item) (moves : List (Symbol × Nat)) (rows : List (Symbol × List Action)) :
    (rows.foldl (fun s row => s.setRow row.1 row.2)
      { items := items, transitions := SortedMap.ofList moves } : State).Tidy :=
  State.tidyFold (fun _ _ tidy => State.tidySetRow tidy _ _) rows nofun

theorem tidyStateOf {symbols : List Symbol} {record : StateRecord} (loaded : stateOf symbols record = .ok t) :
    t.Tidy := by
  obtain ⟨moves, _, rows, _, rfl⟩ := stateOfIff.1 loaded
  exact tidyRebuilt _ _ _

theorem mentionsLoaded {symbols : List Symbol} {record : StateRecord} (loaded : stateOf symbols record = .ok t)
    {x : Symbol} (mentions : t.Mentions x) : x ∈ symbols := by
  have found {β : Type} {saved : List (Nat × β)} {l : List (Symbol × β)} (answer : (saved.mapM fun e => do
      let symbol ← symbolAt symbols e.1
      pure (symbol, e.2)) = .ok l) (listed : x ∈ l.map Prod.fst) : x ∈ symbols := by
    obtain ⟨⟨_, b⟩, inside, rfl⟩ := List.mem_map.1 listed
    obtain ⟨e, _, here⟩ := (forallMem (mapMIff.1 answer)).2 _ inside
    obtain ⟨y, placed, same⟩ := bindPureIff.1 here
    cases same
    unfold symbolAt at placed
    split at placed
    · rename_i there
      cases placed
      exact List.mem_of_getElem? there
    · cases placed
  obtain ⟨moves, moves', rows, rows', rfl⟩ := stateOfIff.1 loaded
  rcases mentions with move | acts
  · rw [(State.setRowsFrame rows _).2] at move
    exact found moves' (SortedMap.keysOfList move)
  · refine found rows' ?_
    by_contra absent
    exact acts (State.setRowsOthers absent _)

theorem rebuiltAlike (names : Renaming R) (tidy : s.Tidy) (partner : ∀ x, s.Mentions x → ∃ y, R x y)
    {moves : List (Symbol × Nat)} {rows : List (Symbol × List Action)}
    (sameMoves : List.Forall₂ (EntryAlike R) s.transitions.entries moves)
    (sameRows : List.Forall₂ (EntryAlike R) s.rows.entries rows) :
    State.Alike R s (rows.foldl (fun s row => s.setRow row.1 row.2)
      { items := s.items, transitions := SortedMap.ofList moves }) := by
  have distinct := entryDistinct names sameMoves s.transitions.keysNodup
  have distinct' := entryDistinct names sameRows s.rows.keysNodup
  obtain ⟨items, transitions⟩ := State.setRowsFrame rows
    { items := s.items, transitions := SortedMap.ofList moves }
  refine ⟨items.symm, ?_, ?_, partner _, ?_⟩
  · intro x y related
    refine Option.ext fun target => ?_
    rw [transitions, SortedMap.getOfList distinct, SortedMap.getSomeIff, entryMember names sameMoves related]
  · intro x y related
    by_cases acts : s.actionsOn x = []
    · have absent : y ∉ rows.map Prod.fst := by
        intro listed
        obtain ⟨⟨y, row⟩, inside, rfl⟩ := List.mem_map.1 listed
        have own := (entryMember names sameRows related).2 inside
        exact tidy.entry own ((State.actionsOnEntry own).symm.trans acts)
      rw [State.setRowsOthers absent, acts]
      rfl
    · have own : (x, s.actionsOn x) ∈ s.rows.entries := (State.entryIff acts).2 rfl
      exact (State.setRowsListed distinct' ((entryMember names sameRows related).1 own) _).symm
  · rintro y (move | acts)
    · rw [transitions] at move
      obtain ⟨target, found⟩ := Option.ne_none_iff_exists'.1 move
      obtain ⟨e, _, related, _⟩ := (forallMem sameMoves).2 _ ((SortedMap.getOfList distinct).1 found)
      exact ⟨e.1, related⟩
    · by_cases listed : y ∈ rows.map Prod.fst
      · obtain ⟨x, _, related⟩ := (forallMem (entryKeys sameRows)).2 y listed
        exact ⟨x, related⟩
      · exact absurd (State.setRowsOthers listed _) acts

theorem rebuild (names : Renaming R) (tidy : s.Tidy) (partner : ∀ x, s.Mentions x → ∃ y, R x y) :
    ∃ moves rows, List.Forall₂ (EntryAlike R) s.transitions.entries moves ∧
      List.Forall₂ (EntryAlike R) s.rows.entries rows ∧
      State.Alike R s (rows.foldl (fun s row => s.setRow row.1 row.2)
        { items := s.items, transitions := SortedMap.ofList moves }) := by
  obtain ⟨moves, sameMoves⟩ : ∃ moves, List.Forall₂ (EntryAlike R) s.transitions.entries moves := by
    refine entriesResolve fun e listed => partner e.1 (tidy.mentionsIff.1 ?_)
    exact List.mem_append_left _ (List.mem_map_of_mem listed)
  obtain ⟨rows, sameRows⟩ : ∃ rows, List.Forall₂ (EntryAlike R) s.rows.entries rows := by
    refine entriesResolve fun e listed => partner e.1 (tidy.mentionsIff.1 ?_)
    exact List.mem_append_right _ (List.mem_map_of_mem listed)
  exact ⟨moves, rows, sameMoves, sameRows, rebuiltAlike names tidy partner sameMoves sameRows⟩

theorem stateOfAlike (names : Renaming R) (pairs : List.Forall₂ R used ys) (tidy : s.Tidy)
    (inside : ∀ x, s.Mentions x → x ∈ used) :
    stateOf ys (recordOf (fun x => used.idxOf x) s) = .ok t ↔ State.Alike R s t ∧ t.Tidy := by
  obtain ⟨moves, rows, sameMoves, sameRows, alike⟩ :=
    rebuild names tidy fun x mentions => partnerOf pairs (inside x mentions)
  have movesInside : ∀ e ∈ s.transitions.entries, e.1 ∈ used := by
    intro e listed
    exact inside e.1 (tidy.mentionsIff.1 (List.mem_append_left _ (List.mem_map_of_mem listed)))
  have rowsInside : ∀ e ∈ s.rows.entries, e.1 ∈ used := by
    intro e listed
    exact inside e.1 (tidy.mentionsIff.1 (List.mem_append_right _ (List.mem_map_of_mem listed)))
  have loaded : stateOf ys (recordOf (fun x => used.idxOf x) s) = .ok _ :=
    stateOfIff.2 ⟨moves, (entriesIff names pairs movesInside).2 sameMoves, rows,
      (entriesIff names pairs rowsInside).2 sameRows, rfl⟩
  rw [loaded, Except.ok.injEq]
  constructor
  · rintro rfl
    exact ⟨alike, tidyRebuilt _ _ _⟩
  · rintro ⟨other, tidy'⟩
    exact alike.unique other (tidyRebuilt _ _ _) tidy'

theorem resolveNamesIff {g h : Grammar} (known : ∀ x ∈ used, g.symbols.Knows x) :
    resolveNames h (used.map g.name) = .ok ys ↔ List.Forall₂ (Grammar.SameName g h) used ys := by
  rw [resolveNames, mapMIff, List.forall₂_map_left_iff]
  refine forallCongr fun x listed y _ => ?_
  rw [Grammar.sameNameIff (known x listed)]
  cases h.symbols.lookup? (g.name x) <;> simp [fail]

theorem toAutomatonIff {saved : Artifact} {g : Grammar} {b : Automaton} : saved.toAutomaton g = .ok b ↔
    saved.version = schemaVersion ∧ ∃ ys, resolveNames g saved.symbols = .ok ys ∧
      saved.productions.length = g.size ∧ checkProductions ys 0 saved.productions g.productions = .ok () ∧
      declaredIn ys saved.terminalPrecedence = .ok g.precedence.declared ∧
      saved.productionPrecedence = g.resolvedPrecedence ∧
      saved.states.mapM (stateOf ys) = .ok b.states ∧
      b = ⟨g, b.states, saved.lookahead, saved.precedence⟩ := by
  simp only [toAutomaton, fail, throw, throwThe, MonadExceptOf.throw, refuseIff, bindIff, not_or, not_not, pure,
    Except.pure, Except.ok.injEq]
  constructor
  · rintro ⟨version, ys, names, length, _, checked, _, declared, ⟨rfl, ranks⟩, states, loaded, rfl⟩
    exact ⟨version, ys, names, length, checked, declared, ranks, loaded, rfl⟩
  · rintro ⟨version, ys, names, length, checked, declared, ranks, loaded, same⟩
    exact ⟨version, ys, names, length, (), checked, _, declared, ⟨rfl, ranks⟩, b.states, loaded, same.symm⟩

end Artifact
namespace Grammar
variable {g h : Grammar}

theorem memResolved {id : Nat} {p : Precedence} :
    (id, p) ∈ g.resolvedPrecedence ↔ g.productionPrecedence? id = some p := by
  simp only [resolvedPrecedence, List.mem_filterMap, List.mem_range, Option.map_eq_some_iff, Prod.mk.injEq]
  constructor
  · rintro ⟨_, _, _, found, rfl, rfl⟩
    exact found
  · intro found
    obtain ⟨q, placed, _⟩ := Option.bind_eq_some_iff.1 found
    exact ⟨id, (List.getElem?_eq_some_iff.1 placed).1, p, found, rfl, rfl⟩

theorem resolvedIff (size : g.size = h.size) :
    g.resolvedPrecedence = h.resolvedPrecedence ↔
      ∀ id, g.productionPrecedence? id = h.productionPrecedence? id := by
  constructor
  · intro same id
    refine Option.ext fun p => ?_
    rw [← memResolved, ← memResolved, same]
  · intro same
    rw [resolvedPrecedence, resolvedPrecedence, size]
    simp only [same]

end Grammar

namespace Automaton
open Grammar (SameName renamingSameName)
variable {a b : Automaton} {h : Grammar}

/-- What is saved of the table can be told by names. -/
structure Portable (a : Automaton) : Prop where
  wellFormed : a.grammar.WellFormed
  named : a.grammar.Named
  tidy : ∀ s ∈ a.states, s.Tidy
  known : ∀ s ∈ a.states, ∀ x, s.Mentions x → a.grammar.symbols.Knows x

theorem Portable.memUsed (portable : a.Portable) {x : Symbol} :
    x ∈ a.usedSymbols ↔ (∃ p ∈ a.grammar.productions, x ∈ p.lhs :: p.rhs) ∨
      a.grammar.precedence.terminals.get? x ≠ none ∨ ∃ s ∈ a.states, s.Mentions x := by
  have declared : x ∈ a.grammar.precedence.declared.map Prod.fst ↔
      a.grammar.precedence.terminals.get? x ≠ none := by
    rw [Option.ne_none_iff_exists', List.mem_map]
    constructor
    · rintro ⟨⟨x, p⟩, listed, rfl⟩
      exact ⟨p, PrecedenceTable.memDeclared.1 listed⟩
    · rintro ⟨p, found⟩
      exact ⟨(x, p), PrecedenceTable.memDeclared.2 found, rfl⟩
  rw [usedSymbols, List.mem_eraseDups, List.mem_append, List.mem_append, declared, or_assoc, List.mem_flatMap,
    List.mem_flatMap]
  refine or_congr_right (or_congr_right (exists_congr fun s => and_congr_right fun inside => ?_))
  exact (portable.tidy s inside).mentionsIff

theorem Portable.usedKnown (portable : a.Portable) :
    ∀ x ∈ a.usedSymbols, a.grammar.symbols.Knows x := by
  intro x used
  rcases portable.memUsed.1 used with ⟨p, listed, inside⟩ | declared | ⟨s, listed, mentions⟩
  · exact portable.named.productions p listed x inside
  · exact portable.named.declaredKnown declared
  · exact portable.known s listed x mentions

theorem Portable.loadIff (portable : a.Portable) (wf : h.WellFormed) :
    a.toArtifact.toAutomaton h = .ok b ↔ Grammar.Alike (SameName a.grammar h) a.grammar h ∧ b.grammar = h ∧
      b.config = a.config ∧ List.Forall₂ (State.Alike (SameName a.grammar h)) a.states b.states ∧
        ∀ t ∈ b.states, t.Tidy := by
  have names := renamingSameName a.grammar h
  have inProductions : ∀ p ∈ a.grammar.productions, ∀ x ∈ p.lhs :: p.rhs, x ∈ a.usedSymbols :=
    fun p listed x inside => portable.memUsed.2 (.inl ⟨p, listed, inside⟩)
  have inDeclared : ∀ e ∈ a.grammar.precedence.declared, e.1 ∈ a.usedSymbols := by
    intro e listed
    have found := PrecedenceTable.memDeclared.1 listed
    exact portable.memUsed.2 (.inr (.inl (by simp [found])))
  have inStates : ∀ s ∈ a.states, ∀ x, s.Mentions x → x ∈ a.usedSymbols :=
    fun s listed x mentions => portable.memUsed.2 (.inr (.inr ⟨s, listed, mentions⟩))
  have saved : a.toArtifact.states = a.states.map (Artifact.recordOf fun x => a.usedSymbols.idxOf x) := rfl
  rw [Artifact.toAutomatonIff]
  constructor
  · rintro ⟨_, ys, resolved, length, checked, declared, ranks, loaded, same⟩
    have pairs := (Artifact.resolveNamesIff portable.usedKnown).1 resolved
    have size : a.grammar.size = h.size := by simpa [toArtifact, Grammar.size] using length
    have productions := (Artifact.checkProductionsIff names pairs inProductions size 0).1 checked
    have levels := (Artifact.declaredInIff names pairs inDeclared).1 declared
    rw [saved, mapMIff, List.forall₂_map_left_iff] at loaded
    have states := (forallCongr fun s inside t _ =>
      Artifact.stateOfAlike names pairs (portable.tidy s inside) (inStates s inside)).1 loaded
    refine ⟨⟨names, portable.wellFormed, wf, productions, ?_, ?_, ?_, (Grammar.resolvedIff size).1 ranks⟩,
      ?_, ?_, states.imp fun _ _ both => both.1, ?_⟩
    · intro x y related
      refine Option.ext fun p => ?_
      rw [levels]
      constructor
      · exact fun found => ⟨x, related, found⟩
      · rintro ⟨x', related', found⟩
        rwa [(names.unique related related').2 rfl]
    · exact fun declared => Artifact.partnerOf pairs (portable.memUsed.2 (.inr (.inl declared)))
    · intro y declared
      obtain ⟨p, found⟩ := Option.ne_none_iff_exists'.1 declared
      obtain ⟨x, related, _⟩ := (levels y p).1 found
      exact ⟨x, related⟩
    · rw [same]
    · rw [same]
      rfl
    · intro t inside
      obtain ⟨s, _, both⟩ := (forallMem states).2 t inside
      exact both.2
  · rintro ⟨alike, rfl, config, states, tidy⟩
    have partner : ∀ x ∈ a.usedSymbols, ∃ y, SameName a.grammar b.grammar x y := by
      intro x used
      rcases portable.memUsed.1 used with ⟨p, listed, inside⟩ | declared | ⟨s, listed, mentions⟩
      · obtain ⟨q, _, same⟩ := (forallMem alike.productions).1 p listed
        obtain ⟨y, _, related⟩ := (forallMem (.cons same.lhs same.rhs)).1 x inside
        exact ⟨y, related⟩
      · exact alike.declared declared
      · obtain ⟨t, _, same⟩ := (forallMem states).1 s listed
        exact same.named mentions
    obtain ⟨ys, pairs⟩ := forallExists partner
    refine ⟨rfl, ys, (Artifact.resolveNamesIff portable.usedKnown).2 pairs, ?_, ?_, ?_, ?_, ?_, ?_⟩
    · simpa [toArtifact, Grammar.size] using alike.size
    · exact (Artifact.checkProductionsIff names pairs inProductions alike.size 0).2 alike.productions
    · refine (Artifact.declaredInIff names pairs inDeclared).2 fun y p => ?_
      constructor
      · intro found
        obtain ⟨x, related⟩ := alike.declared' (y := y) (by simp [found])
        exact ⟨x, related, (alike.levels related).trans found⟩
      · rintro ⟨x, related, found⟩
        exact (alike.levels related).symm.trans found
    · exact (Grammar.resolvedIff alike.size).2 alike.ranks
    · rw [saved, mapMIff, List.forall₂_map_left_iff]
      exact (forallCongr fun s inside t inside' => (Artifact.stateOfAlike names pairs (portable.tidy s inside)
        (inStates s inside)).trans (and_iff_left (tidy t inside'))).2 states
    · show b = ⟨b.grammar, b.states, a.config⟩
      rw [← config]

end Automaton
end ForkingLR
