import ForkingLR.Proofs.Table.Passes

/-! What lookahead leaves of a row. Where every reduction that lookahead rules out goes, the row that is
left is said at once. Where lone reductions are spared the pass looks at a row that it has already cut, so
the outcome is found by going through the productions: either something of the row is allowed, and then
all that is ruled out goes, or nothing is, and then the production that comes last is spared. -/
namespace ForkingLR

section
variable {allowed : Nat → Prop} [DecidablePred allowed] {ids : List Nat} {row : List Action} {id : Nat}

theorem filterAbsent (absent : .reduce id ∉ row) : row.filter (· ≠ .reduce id) = row := by
  refine List.filter_eq_self.2 fun action inside => ?_
  simpa using fun same : action = .reduce id => absent (same ▸ inside)

theorem pruneRowAbsent (onlyConflicts : Bool) (free : Prop) [Decidable free] (absent : .reduce id ∉ row) :
    pruneRow onlyConflicts free row id = row := by
  rw [pruneRow, filterAbsent absent, ite_self, ite_self]

theorem pruneRowsShort (short : row.length ≤ 1) :
    ids.foldl (fun row id => pruneRow true (allowed id) row id) row = row := by
  induction ids with
  | nil => rfl
  | cons id ids ih =>
    have still : pruneRow true (allowed id) row id = row := by
      simp [pruneRow, Nat.not_lt_of_le short]
    rw [List.foldl_cons, still, ih]

theorem pruneRowShared {action : Action} (inside : action ∈ row) (fine : action = .reduce id → allowed id) :
    pruneRow true (allowed id) row id = pruneRow false (allowed id) row id := by
  by_cases free : allowed id
  · simp only [pruneRow, if_pos free]
  by_cases listed : .reduce id ∈ row
  · have different : action ≠ .reduce id := fun same => free (fine same)
    have several : 1 < row.length := by
      rcases pairPlaced inside listed different with pair | pair
      · exact pair.length_le
      · exact pair.length_le
    simp [pruneRow, several]
  · rw [pruneRowAbsent _ _ listed, pruneRowAbsent _ _ listed]

theorem pruneRowsShared {action : Action} (inside : action ∈ row)
    (fine : ∀ id ∈ ids, action = .reduce id → allowed id) :
    ids.foldl (fun row id => pruneRow true (allowed id) row id) row =
      ids.foldl (fun row id => pruneRow false (allowed id) row id) row := by
  induction ids generalizing row with
  | nil => rfl
  | cons id ids ih =>
    obtain ⟨first, others⟩ := List.forall_mem_cons.1 fine
    have stays : action ∈ [id].foldl (fun row id => pruneRow false (allowed id) row id) row :=
      State.pruneRowFold.2 ⟨inside, by simpa using first⟩
    rw [List.foldl_cons, List.foldl_cons, pruneRowShared inside first]
    exact ih stays others

theorem pruneRowsBarred (ascending : ids.Pairwise (· < ·)) (distinct : row.Nodup) (some : row ≠ [])
    (barred : ∀ action ∈ row, ∃ id ∈ ids, action = .reduce id ∧ ¬ allowed id) :
    ∃ last, .reduce last ∈ row ∧ (∀ id, .reduce id ∈ row → id ≤ last) ∧
      ids.foldl (fun row id => pruneRow true (allowed id) row id) row = [.reduce last] := by
  induction ids generalizing row with
  | nil =>
    obtain ⟨action, inside⟩ := List.exists_mem_of_ne_nil _ some
    obtain ⟨id, listed, _⟩ := barred action inside
    cases listed
  | cons id ids ih =>
    obtain ⟨before, ascending⟩ := List.pairwise_cons.1 ascending
    by_cases several : 1 < row.length
    · have cut : pruneRow true (allowed id) row id = row.filter (· ≠ .reduce id) := by
        by_cases listed : .reduce id ∈ row
        · obtain ⟨_, _, same, out⟩ := barred _ listed
          cases same
          simp [pruneRow, out, several]
        · rw [pruneRowAbsent _ _ listed, filterAbsent listed]
      have left : row.filter (· ≠ .reduce id) ≠ [] := by
        intro empty
        have all : ∀ action ∈ row, action = .reduce id := by simpa using empty
        rw [List.eq_replicate_of_mem all] at distinct
        exact absurd (List.nodup_replicate.1 distinct) (Nat.not_le_of_lt several)
      -- All that is left belongs to later productions.
      have later : ∀ action ∈ row.filter (· ≠ .reduce id), ∃ id ∈ ids, action = .reduce id ∧ ¬ allowed id := by
        intro action kept
        obtain ⟨inside, other⟩ := List.mem_filter.1 kept
        obtain ⟨own, listed, rfl, out⟩ := barred action inside
        rcases List.mem_cons.1 listed with rfl | listed
        · simp at other
        · exact ⟨own, listed, rfl, out⟩
      obtain ⟨last, kept, top, answer⟩ := ih ascending (distinct.filter _) left later
      refine ⟨last, (List.mem_filter.1 kept).1, fun id' inside => ?_, ?_⟩
      · by_cases same : id' = id
        · obtain ⟨_, listed, own, _⟩ := later _ kept
          cases own
          exact same ▸ Nat.le_of_lt (before _ listed)
        · exact top id' (List.mem_filter.2 ⟨inside, by simpa using same⟩)
      · rw [List.foldl_cons, cut, answer]
    · obtain ⟨only, rfl⟩ := List.length_eq_one_iff.1
        (Nat.le_antisymm (Nat.le_of_not_lt several) (List.length_pos_of_ne_nil some))
      obtain ⟨last, _, rfl, _⟩ := barred only (List.mem_singleton_self _)
      exact ⟨last, List.mem_singleton_self _, by simp, pruneRowsShort (Nat.le_refl 1)⟩

/-- What is left of a row when lone reductions are spared: what is allowed, if there is any of it, else the
reduction by the highest production. -/
inductive Spares (allowed : Nat → Prop) (row : List Action) : List Action → Prop
  | shared {kept : List Action} {action : Action} (inside : action ∈ row)
      (fine : ∀ id, action = .reduce id → allowed id)
      (exact : ∀ action, action ∈ kept ↔ action ∈ row ∧ ∀ id, action = .reduce id → allowed id) :
      Spares allowed row kept
  | lone {last : Nat} (inside : .reduce last ∈ row)
      (barred : ∀ action ∈ row, ∃ id, action = .reduce id ∧ ¬ allowed id ∧ id ≤ last) :
      Spares allowed row [.reduce last]
  | nothing (empty : row = []) : Spares allowed row []

section
omit [DecidablePred allowed]
variable {kept : List Action}

theorem Spares.nonempty (h : Spares allowed row kept) (some : row ≠ []) : kept ≠ [] := by
  cases h with
  | shared inside fine exact => exact List.ne_nil_of_mem ((exact _).2 ⟨inside, fine⟩)
  | lone => exact List.cons_ne_nil _ _
  | nothing empty => exact absurd empty some

theorem Spares.sparedIff (h : Spares allowed row kept) (inside : .reduce id ∈ row) (out : ¬ allowed id) :
    .reduce id ∈ kept ↔ ∀ action ∈ row, ∃ q, action = .reduce q ∧ ¬ allowed q ∧ q ≤ id := by
  cases h with
  | shared other fine exact =>
    rw [exact]
    constructor
    · rintro ⟨_, allows⟩
      exact absurd (allows id rfl) out
    · intro barred
      obtain ⟨q, same, out', _⟩ := barred _ other
      exact absurd (fine q same) out'
  | @lone last there barred =>
    rw [List.mem_singleton]
    constructor
    · rintro ⟨⟩
      exact barred
    · intro below
      obtain ⟨_, same, _, up⟩ := below _ there
      obtain ⟨_, same', _, down⟩ := barred _ inside
      cases same
      cases same'
      rw [Nat.le_antisymm up down]
  | nothing empty => simp [empty] at inside

theorem Spares.alone (h : Spares allowed row kept) (out : ¬ allowed id) (stays : .reduce id ∈ kept) :
    kept = [.reduce id] := by
  cases h with
  | shared other fine exact => exact absurd (((exact _).1 stays).2 id rfl) out
  | lone => rw [List.mem_singleton.1 stays]
  | nothing empty => cases stays

end

theorem pruneRowsSpare (ascending : ids.Pairwise (· < ·)) (distinct : row.Nodup)
    (listed : ∀ id, .reduce id ∈ row → id ∈ ids) :
    Spares allowed row (ids.foldl (fun row id => pruneRow true (allowed id) row id) row) := by
  by_cases free : ∃ action ∈ row, ∀ id, action = .reduce id → allowed id
  · obtain ⟨action, inside, fine⟩ := free
    rw [pruneRowsShared inside fun id _ => fine id]
    refine .shared inside fine fun action => ?_
    rw [State.pruneRowFold]
    refine and_congr_right fun inside => ⟨fun fine id same => ?_, fun fine id _ => fine id⟩
    exact fine id (listed id (same ▸ inside)) same
  · have barred : ∀ action ∈ row, ∃ id ∈ ids, action = .reduce id ∧ ¬ allowed id := by
      intro action inside
      by_contra none
      refine free ⟨action, inside, fun id same => ?_⟩
      by_contra out
      exact none ⟨id, listed id (same ▸ inside), same, out⟩
    by_cases empty : row = []
    · rw [pruneRowsShort (by simp [empty]), empty]
      exact .nothing rfl
    · obtain ⟨last, inside, top, answer⟩ := pruneRowsBarred ascending distinct empty barred
      rw [answer]
      refine .lone inside fun action listed' => ?_
      obtain ⟨id, _, rfl, out⟩ := barred action listed'
      exact ⟨id, rfl, out, top id listed'⟩

end

namespace State

theorem reductionsAscending (s : State) : s.reductions.Pairwise (· < ·) :=
  (SortedSet.sorted _).imp fun {_ _} less => Nat.compare_eq_lt.1 less

structure Retains (onlyConflicts : Bool) (lookahead : Nat → SortedSet Symbol) (s t : State) : Prop where
  items : t.items = s.items
  transitions : t.transitions = s.transitions
  order : ∀ x, (t.actionsOn x).Sublist (s.actionsOn x)
  moves : ∀ x, ∀ action ∈ s.actionsOn x, action.isReduce = false → action ∈ t.actionsOn x
  strict : onlyConflicts = false → ∀ x p,
    .reduce p ∈ t.actionsOn x ↔ .reduce p ∈ s.actionsOn x ∧ x ∈ lookahead p
  allowed : onlyConflicts = true → ∀ x p, .reduce p ∈ s.actionsOn x → x ∈ lookahead p →
    .reduce p ∈ t.actionsOn x
  nonempty : onlyConflicts = true → ∀ x, s.actionsOn x ≠ [] → t.actionsOn x ≠ []
  spared : onlyConflicts = true → ∀ x p, .reduce p ∈ s.actionsOn x → x ∉ lookahead p →
    (.reduce p ∈ t.actionsOn x ↔
      ∀ action ∈ s.actionsOn x, ∃ q, action = .reduce q ∧ x ∉ lookahead q ∧ q ≤ p)
  alone : onlyConflicts = true → ∀ x p, x ∉ lookahead p → .reduce p ∈ t.actionsOn x →
    t.actionsOn x = [.reduce p]

section
variable {terminals : List Symbol} {lookahead : Nat → SortedSet Symbol} {s : State}

theorem pruneListed (onlyConflicts : Bool) (distinct : terminals.Nodup)
    (listed : ∀ x p, .reduce p ∈ s.actionsOn x → x ∈ terminals) (x : Symbol) :
    (s.prune onlyConflicts terminals lookahead).actionsOn x =
      s.reductions.foldl (fun row id => pruneRow onlyConflicts (x ∈ lookahead id) row id) (s.actionsOn x) := by
  rw [pruneActions onlyConflicts lookahead distinct]
  split
  · rfl
  · rename_i unlisted
    induction s.reductions with
    | nil => rfl
    | cons id ids ih =>
      rw [List.foldl_cons, pruneRowAbsent _ _ fun inside => unlisted (listed x id inside)]
      exact ih

theorem pruneSpares (distinct : terminals.Nodup)
    (listed : ∀ x p, .reduce p ∈ s.actionsOn x → x ∈ terminals) {x : Symbol} (row : (s.actionsOn x).Nodup) :
    Spares (fun id => x ∈ lookahead id) (s.actionsOn x) ((s.prune true terminals lookahead).actionsOn x) := by
  rw [pruneListed true distinct listed]
  exact pruneRowsSpare s.reductionsAscending row fun id inside => memReductions.2 ⟨x, inside⟩

theorem pruneRetains (onlyConflicts : Bool) (distinct : terminals.Nodup)
    (listed : ∀ x p, .reduce p ∈ s.actionsOn x → x ∈ terminals) (rows : ∀ x, (s.actionsOn x).Nodup) :
    s.Retains onlyConflicts lookahead (s.prune onlyConflicts terminals lookahead) := by
  have pruned := prunedPrune onlyConflicts terminals lookahead s
  have spares (only : onlyConflicts = true) (x : Symbol) :
      Spares (fun id => x ∈ lookahead id) (s.actionsOn x)
        ((s.prune onlyConflicts terminals lookahead).actionsOn x) := by
    subst only
    exact pruneSpares distinct listed (rows x)
  refine ⟨pruned.items, pruned.transitions, pruned.sublist, ?_, ?_, ?_, ?_, ?_, ?_⟩
  · intro x action inside move
    refine pruned.keeps x action inside fun id same => ?_
    rw [same] at move
    cases move
  · intro strict x p
    subst strict
    rw [pruneListed false distinct listed, pruneRowFold]
    refine and_congr_right fun inside => ⟨fun fine => ?_, ?_⟩
    · exact fine p (memReductions.2 ⟨x, inside⟩) rfl
    · rintro fine _ _ ⟨⟩
      exact fine
  · intro _ x p inside fine
    refine pruned.keeps x _ inside ?_
    rintro _ ⟨⟩
    exact fine
  · exact fun only x => (spares only x).nonempty
  · exact fun only x p => (spares only x).sparedIff
  · exact fun only x p => (spares only x).alone

end

end State

namespace Grammar
variable {g : Grammar}

theorem pruningRetains (built : g.Built) (lookaheads : Lookaheads) (onlyConflicts : Bool) :
    Pointwise (fun id => State.Retains onlyConflicts fun p => lookaheads.getD ⟨id, p⟩ ∅) g.lr0States
      (pruneByLookahead g.lr0States lookaheads g.terminals onlyConflicts) := by
  have wf := built.wellFormed
  refine ⟨by simp [pruneByLookahead], ?_⟩
  intro id s t before after
  rw [pruneByLookahead, List.getElem?_mapIdx, before] at after
  obtain rfl := Option.some.inj after
  refine State.pruneRetains onlyConflicts (SortedSet.nodup _) ?_ (actionsNodup wf before)
  intro x p inside
  cases (actionsOffered wf before).1 inside with
  | reduce known => exact known

def pairCalls : List DraftCall :=
  [.declare "s" ["a"], .declare "s" ["b"], .declare "s" ["ERROR"], .declare "a" ["X"], .declare "b" ["X"]]

theorem pairRetained :
    ∃ (g : Grammar) (id : Nat) (s t : State), (Draft.ofCalls pairCalls).build = .ok g ∧
      g.lr0States[id]? = some s ∧
      (pruneByLookahead g.lr0States ∅ g.terminals true)[id]? = some t ∧
      s.actionsOn .endOfInput = [.reduce 3, .reduce 4] ∧ t.actionsOn .endOfInput = [.reduce 4] := by
  have facts : ((Draft.ofCalls pairCalls).build.toOption.any fun g =>
      g.lr0States.any fun s => decide (s.actionsOn .endOfInput = [.reduce 3, .reduce 4])) = true := by
    decide +kernel
  obtain ⟨g, built, facts⟩ := okOfAny facts
  obtain ⟨s, inside, row⟩ := List.any_eq_true.1 facts
  have row : s.actionsOn .endOfInput = [.reduce 3, .reduce 4] := of_decide_eq_true row
  obtain ⟨id, placed⟩ := List.mem_iff_getElem?.1 inside
  obtain ⟨t, after, kept⟩ := (pruningRetains ⟨_, built⟩ ∅ true).ofBefore placed
  have out (p : Nat) : Symbol.endOfInput ∉ (∅ : Lookaheads).getD ⟨id, p⟩ ∅ := SortedSet.notMemEmpty _
  have stays : .reduce 4 ∈ t.actionsOn .endOfInput := by
    refine (kept.spared rfl _ 4 (by simp [row]) (out 4)).2 fun action listed => ?_
    rw [row, List.mem_cons, List.mem_singleton] at listed
    rcases listed with rfl | rfl
    · exact ⟨3, rfl, out 3, by decide⟩
    · exact ⟨4, rfl, out 4, by decide⟩
  exact ⟨g, id, s, t, built, placed, after, row, kept.alone rfl _ 4 (out 4) stays⟩

end Grammar
end ForkingLR
