import ForkingLR.Cfg.Analysis
import ForkingLR.Proofs.Cfg.Rewriting
import ForkingLR.Proofs.Lists
import ForkingLR.Proofs.Reach
import ForkingLR.Proofs.Sorted
import Mathlib.Data.List.Nodup

/-! The first sets are exact. A table is the list of the facts it states; a pass only adds facts
that the rules derive, there are finitely many, and a table that a pass leaves alone is closed under
the rules. -/
namespace ForkingLR

namespace Cfg
variable {σ : Type} [Ord σ]

namespace SetTable

def facts (t : SetTable σ) : List (σ × Option σ) :=
  t.entries.flatMap fun e => (e.1, none) :: e.2.toList.map fun a => (e.1, some a)

theorem listedOfMember {t : SetTable σ} {x a : σ} (h : a ∈ t.getD x ∅) : (t.get? x).isSome = true := by
  rw [SortedMap.getDOfGet] at h
  cases found : t.get? x with
  | none => simp [found] at h
  | some s => rfl

variable [Std.LawfulEqOrd σ]

theorem factListed {t : SetTable σ} {x : σ} : (x, none) ∈ facts t ↔ (t.get? x).isSome = true := by
  simp only [facts, List.mem_flatMap, List.mem_cons, Prod.mk.injEq, and_true, List.mem_map,
    reduceCtorEq, and_false, exists_false, or_false]
  rw [Option.isSome_iff_exists]
  constructor
  · rintro ⟨⟨y, s⟩, inside, rfl⟩
    exact ⟨s, SortedMap.getSomeIff.2 inside⟩
  · rintro ⟨s, found⟩
    exact ⟨(x, s), SortedMap.getSomeIff.1 found, rfl⟩

theorem factMember {t : SetTable σ} {x a : σ} : (x, some a) ∈ facts t ↔ a ∈ t.getD x ∅ := by
  simp only [facts, List.mem_flatMap, List.mem_cons, Prod.mk.injEq, reduceCtorEq, and_false, false_or,
    List.mem_map, Option.some.injEq]
  rw [SortedMap.getDOfGet]
  constructor
  · rintro ⟨⟨y, s⟩, inside, b, member, rfl, rfl⟩
    rw [SortedMap.getSomeIff.2 inside, Option.getD_some]
    exact member
  · intro member
    cases found : t.get? x with
    | none => simp [found] at member
    | some s =>
      rw [found, Option.getD_some] at member
      exact ⟨(x, s), SortedMap.getSomeIff.1 found, a, member, rfl, rfl⟩

theorem factsNodup (t : SetTable σ) : (facts t).Nodup := by
  refine List.nodup_flatMap.2 ⟨?_, ?_⟩
  · intro e _
    refine List.nodup_cons.2 ⟨by simp, ?_⟩
    exact (SortedSet.nodup e.2).map fun a b same => by simpa using same
  · refine t.sorted.imp ?_
    rintro ⟨x, s⟩ ⟨y, s'⟩ less ⟨z, f⟩ left right
    have here : z = x := by
      rcases List.mem_cons.1 left with same | inside
      · exact congrArg Prod.fst same
      · obtain ⟨_, _, same⟩ := List.mem_map.1 inside
        exact (congrArg Prod.fst same).symm
    have there : z = y := by
      rcases List.mem_cons.1 right with same | inside
      · exact congrArg Prod.fst same
      · obtain ⟨_, _, same⟩ := List.mem_map.1 inside
        exact (congrArg Prod.fst same).symm
    obtain rfl := here.symm.trans there
    simp at less

variable [Std.TransOrd σ]

theorem factsDetermine {t t' : SetTable σ} (h : ∀ f, f ∈ facts t ↔ f ∈ facts t') : t = t' := by
  refine SortedMap.extAnswers fun x => ?_
  have listed := h (x, none)
  have members : ∀ a, a ∈ t.getD x ∅ ↔ a ∈ t'.getD x ∅ := fun a => by
    simpa only [factMember] using h (x, some a)
  simp only [factListed] at listed
  simp only [SortedMap.getDOfGet] at members
  cases left : t.get? x with
  | none =>
    cases right : t'.get? x with
    | none => rfl
    | some s' => simp [left, right] at listed
  | some s =>
    cases right : t'.get? x with
    | none => simp [left, right] at listed
    | some s' =>
      simp only [left, right, Option.getD_some] at members
      rw [SortedSet.extMembers members]

variable [DecidableEq σ]

theorem memExtend {t : SetTable σ} {x y a : σ} {s : SortedSet σ} :
    a ∈ (extend t x s).getD y ∅ ↔ a ∈ t.getD y ∅ ∨ y = x ∧ a ∈ s := by
  rw [extend, SortedMap.getDOfGet, SortedMap.getInsert]
  by_cases same : y = x
  · simp [same]
  · simp [same, SortedMap.getDOfGet]

theorem listedExtend {t : SetTable σ} {x y : σ} {s : SortedSet σ} :
    ((extend t x s).get? y).isSome = true ↔ (t.get? y).isSome = true ∨ y = x := by
  rw [extend, SortedMap.getInsert]
  by_cases same : y = x <;> simp [same]

end SetTable

namespace FirstTable

def facts (t : FirstTable σ) : List (σ ⊕ σ × Option σ) :=
  t.nullable.toList.map .inl ++ (SetTable.facts t.first).map .inr

theorem factNullable {t : FirstTable σ} {x : σ} : .inl x ∈ facts t ↔ x ∈ t.nullable := by
  simp [facts, SortedSet.memIff]

theorem factFirst {t : FirstTable σ} {f : σ × Option σ} :
    .inr f ∈ facts t ↔ f ∈ SetTable.facts t.first := by simp [facts]

section
variable [GrammarSymbol σ]

structure Sound (g : Cfg σ) (t : FirstTable σ) : Prop where
  nullable : ∀ x ∈ t.nullable, g.Vanishes [x]
  first : ∀ x a, a ∈ t.first.getD x ∅ → g.Begins a [x]
  listed : ∀ x, (t.first.get? x).isSome = true → x ∈ g.productions.map Production.lhs

theorem emptySound (g : Cfg σ) : (empty : FirstTable σ).Sound g := by
  refine ⟨fun x h => ?_, fun x a h => ?_, fun x h => ?_⟩
  · simp [empty] at h
  · simp [empty, SortedMap.getDOfGet, SortedMap.getEmpty] at h
  · simp [empty, SortedMap.getEmpty] at h

end

variable [Std.LawfulEqOrd σ]

theorem factsNodup (t : FirstTable σ) : (facts t).Nodup := by
  refine List.nodup_append.2 ⟨?_, ?_, ?_⟩
  · exact t.nullable.nodup.map fun _ _ => Sum.inl.inj
  · exact (SetTable.factsNodup _).map fun _ _ => Sum.inr.inj
  · intro f left f' right
    obtain ⟨_, _, rfl⟩ := List.mem_map.1 left
    obtain ⟨_, _, rfl⟩ := List.mem_map.1 right
    exact Sum.inl_ne_inr

variable [Std.TransOrd σ]

theorem factsDetermine (t t' : FirstTable σ) (h : ∀ f, f ∈ facts t ↔ f ∈ facts t') : t = t' := by
  have nullable : t.nullable = t'.nullable := SortedSet.extMembers fun x => by
    simpa only [factNullable] using h (.inl x)
  have first : t.first = t'.first := SetTable.factsDetermine fun f => by
    simpa only [factFirst] using h (.inr f)
  cases t
  cases t'
  cases nullable
  cases first
  rfl

variable [DecidableEq σ] [GrammarSymbol σ]

theorem factsLearn (t : FirstTable σ) (p : Production σ) : facts t ⊆ facts (t.learn p) := by
  rintro (x | ⟨x, none | a⟩) h
  · rw [factNullable] at h ⊢
    simp only [learn]
    split
    · exact SortedSet.memInsert.2 (.inr h)
    · exact h
  · rw [factFirst, SetTable.factListed] at h ⊢
    exact SetTable.listedExtend.2 (.inl h)
  · rw [factFirst, SetTable.factMember] at h ⊢
    exact SetTable.memExtend.2 (.inl h)

structure Exact (g : Cfg σ) (t : FirstTable σ) : Prop where
  epsilon : ∀ u, (t.firstOf u).epsilon = true ↔ g.Vanishes u
  terminals : ∀ u a, a ∈ (t.firstOf u).terminals ↔ g.Begins a u

variable {g : Cfg σ} {t : FirstTable σ}

theorem Sound.firstOf (sound : t.Sound g) (u : List σ) :
    ((t.firstOf u).epsilon = true → g.Vanishes u) ∧
      ∀ a ∈ (t.firstOf u).terminals, g.Begins a u := by
  induction u with
  | nil => exact ⟨fun _ => .nil, fun a h => by simp [FirstTable.firstOf] at h⟩
  | cons x u ih =>
    have widen {a : σ} (h : a ∈ t.first.getD x ∅) : g.Begins a (x :: u) :=
      beginsAppend.2 (.inl (sound.first x a h))
    unfold FirstTable.firstOf
    split
    · rename_i terminal
      refine ⟨nofun, ?_⟩
      intro a h
      obtain rfl : a = x := by simpa using h
      exact .here terminal
    · split
      · rename_i vanishes
        have gone := sound.nullable x vanishes
        refine ⟨fun h => gone.append (ih.1 h), ?_⟩
        intro a h
        rcases SortedSet.memUnion.1 h with h | h
        · exact widen h
        · exact .later gone (ih.2 a h)
      · exact ⟨nofun, fun a h => widen h⟩

theorem Sound.learn (sound : t.Sound g) {p : Production σ} (h : p ∈ g.productions) :
    (t.learn p).Sound g := by
  obtain ⟨epsilon, terminals⟩ := sound.firstOf p.rhs
  refine ⟨?_, ?_, ?_⟩
  · intro x inside
    simp only [FirstTable.learn] at inside
    split at inside
    · rename_i found
      rcases SortedSet.memInsert.1 inside with rfl | inside
      · exact .cons h (epsilon found) .nil
      · exact sound.nullable x inside
    · exact sound.nullable x inside
  · intro x a inside
    rcases SetTable.memExtend.1 inside with known | ⟨rfl, found⟩
    · exact sound.first x a known
    · exact .inside h (terminals a found)
  · intro x listed
    rcases SetTable.listedExtend.1 listed with listed | rfl
    · exact sound.listed x listed
    · exact List.mem_map_of_mem h

theorem Sound.exact (nonterminals : ∀ p ∈ g.productions, isTerminal p.lhs = false)
    (sound : t.Sound g) (fixed : ∀ p ∈ g.productions, t.learn p = t) : t.Exact g := by
  have nullable {p : Production σ} (h : p ∈ g.productions) (found : (t.firstOf p.rhs).epsilon = true) :
      p.lhs ∈ t.nullable := by
    rw [← fixed p h]
    simp [FirstTable.learn, found]
  have first {p : Production σ} {a : σ} (h : p ∈ g.productions)
      (found : a ∈ (t.firstOf p.rhs).terminals) : a ∈ t.first.getD p.lhs ∅ := by
    have learned : a ∈ (t.learn p).first.getD p.lhs ∅ := SetTable.memExtend.2 (.inr ⟨rfl, found⟩)
    rwa [fixed p h] at learned
  have vanishes {u : List σ} (h : g.Vanishes u) : (t.firstOf u).epsilon = true := by
    induction h with
    | nil => rfl
    | @cons p rest h _ _ one two =>
      simpa [FirstTable.firstOf, nonterminals p h, nullable h one] using two
  have begins {u : List σ} {a : σ} (h : g.Begins a u) : a ∈ (t.firstOf u).terminals := by
    induction h with
    | here terminal => simp [FirstTable.firstOf, terminal]
    | @inside p rest h _ ih =>
      unfold FirstTable.firstOf
      rw [nonterminals p h]
      simp only [Bool.false_eq_true, if_false]
      split
      · exact SortedSet.memUnion.2 (.inl (first h ih))
      · exact first h ih
    | @later x rest gone _ ih =>
      obtain ⟨p, h, rfl, empty⟩ := vanishesSingle.1 gone
      simp only [FirstTable.firstOf, nonterminals p h, Bool.false_eq_true, if_false,
        nullable h (vanishes empty), if_true]
      exact SortedSet.memUnion.2 (.inr ih)
  exact ⟨fun u => ⟨(sound.firstOf u).1, vanishes⟩, fun u a => ⟨(sound.firstOf u).2 a, begins⟩⟩

end FirstTable

variable [Std.TransOrd σ] [GrammarSymbol σ] {g : Cfg σ}

def firstFacts (g : Cfg σ) : List (σ ⊕ σ × Option σ) :=
  (g.productions.map Production.lhs).flatMap fun x =>
    .inl x :: .inr (x, none) :: g.terminals.toList.map fun a => .inr (x, some a)

theorem firstFactsLength (g : Cfg σ) : g.firstFacts.length = g.size * (g.terminals.size + 2) := by
  rw [firstFacts, flatMapLength (g.terminals.size + 2), List.length_map, size]
  simp [SortedSet.size]

variable [Std.LawfulEqOrd σ]

theorem memCfgTerminals {a : σ} :
    a ∈ g.terminals ↔ isTerminal a = true ∧ ∃ p ∈ g.productions, a ∈ p.rhs := by
  rw [terminals, SortedSet.memOfList]
  simp [and_comm]

theorem Begins.listed {a : σ} {u : List σ} (h : g.Begins a u) : a ∈ u ∨ a ∈ g.terminals := by
  induction h with
  | here => exact .inl List.mem_cons_self
  | @inside p rest h first ih =>
    right
    rcases ih with here | listed
    · exact memCfgTerminals.2 ⟨first.terminal, p, h, here⟩
    · exact listed
  | later gone _ ih => exact ih.imp_left fun h => List.mem_cons_of_mem _ h

theorem Begins.known (nonterminals : ∀ p ∈ g.productions, isTerminal p.lhs = false) {a x : σ}
    (h : g.Begins a [x]) (defined : x ∈ g.productions.map Production.lhs) : a ∈ g.terminals := by
  rcases h.listed with here | listed
  · obtain ⟨p, member, rfl⟩ := List.mem_map.1 defined
    obtain rfl := List.mem_singleton.1 here
    have terminal := h.terminal
    rw [nonterminals p member] at terminal
    contradiction
  · exact listed

theorem FirstTable.Sound.inside (nonterminals : ∀ p ∈ g.productions, isTerminal p.lhs = false)
    {t : FirstTable σ} (sound : t.Sound g) : FirstTable.facts t ⊆ g.firstFacts := by
  intro f h
  refine List.mem_flatMap.2 ?_
  rcases f with x | ⟨x, none | a⟩
  · rw [FirstTable.factNullable] at h
    obtain ⟨p, member, rfl, _⟩ := vanishesSingle.1 (sound.nullable x h)
    exact ⟨p.lhs, List.mem_map_of_mem member, by simp⟩
  · rw [FirstTable.factFirst, SetTable.factListed] at h
    exact ⟨x, sound.listed x h, by simp⟩
  · rw [FirstTable.factFirst, SetTable.factMember] at h
    have defined := sound.listed x (SetTable.listedOfMember h)
    exact ⟨x, defined, by simpa [← SortedSet.memIff] using (sound.first x a h).known nonterminals defined⟩

variable [DecidableEq σ]

theorem foldSound {t : FirstTable σ} (sound : t.Sound g) :
    (g.productions.foldl FirstTable.learn t).Sound g :=
  List.foldlRecOn _ _ sound fun _ sound _ h => sound.learn h

section
variable (nonterminals : ∀ p ∈ g.productions, isTerminal p.lhs = false)
include nonterminals

theorem firstTableFixed :
    g.firstTable.Sound g ∧ g.productions.foldl FirstTable.learn g.firstTable = g.firstTable :=
  stabiliseFixed FirstTable.factsNodup FirstTable.factsDetermine
    (fun t _ => (foldlIncludes FirstTable.factsLearn g.productions t).1) (fun _ => foldSound)
    (fun _ sound => sound.inside nonterminals) g.firstBound (FirstTable.emptySound g)
    (by rw [firstFactsLength, firstBound]; omega)

theorem firstTableRepeats :
    Repeats (fun t => g.productions.foldl FirstTable.learn t) FirstTable.empty g.firstTable :=
  stabiliseRepeats (firstTableFixed nonterminals).2

theorem firstTableExact : g.firstTable.Exact g := by
  obtain ⟨sound, fixed⟩ := firstTableFixed nonterminals
  exact sound.exact nonterminals (foldlFixed FirstTable.factsDetermine FirstTable.factsLearn fixed)

end

end Cfg
end ForkingLR
