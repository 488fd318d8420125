import ForkingLR.Proofs.Grammar.Memo
import ForkingLR.Proofs.Tree
import Mathlib.Computability.Language

/-! What helpers derive. In a finished grammar a helper has the two productions of its operator, and besides
only what an author declares under its name; a helper that is left alone derives what its operator says. -/
namespace ForkingLR

open Computability

namespace Tree
variable {V : Type} {g : Grammar}

def word (t : Tree V) : List Symbol := t.leaves.map Prod.fst

theorem wordLeaf {x : Symbol} {value : V} : (leaf x value).word = [x] := by
  rw [word, leaves]
  rfl

theorem wordNode {id : Nat} {children : List (Tree V)} : (node id children).word = children.flatMap word := by
  rw [word, leaves, List.map_flatMap]
  rfl

theorem wordTerminal (t : Tree V) : ∀ x, t.Derives g x → ∀ y ∈ t.word, isTerminal y = true := by
  induction t using childInduction with
  | leaf symbol value =>
    intro x derived y inside
    obtain ⟨rfl, terminal⟩ := derivesLeaf.1 derived
    rw [wordLeaf, List.mem_singleton] at inside
    rw [inside]
    exact terminal
  | node id children ih =>
    intro x derived y inside
    obtain ⟨p, _, _, below⟩ := derivesNode.1 derived
    rw [wordNode] at inside
    obtain ⟨child, member, inside⟩ := List.mem_flatMap.1 inside
    obtain ⟨z, _, derived⟩ := (forallMem below).2 child member
    exact ih child member z derived y inside

end Tree

namespace Grammar
variable {g : Grammar} {u v w : List Symbol} {x base : Symbol}

def strings (g : Grammar) (u : List Symbol) : Language Symbol :=
  { w | g.cfg.Rewrites u w ∧ ∀ t ∈ w, isTerminal t = true }

theorem memStrings : w ∈ g.strings u ↔
    ∃ trees : List (Tree Unit), List.Forall₂ (Tree.Derives g) u trees ∧ trees.flatMap Tree.word = w := by
  constructor
  · rintro ⟨rewrites, terminals⟩
    have ends : (w.map fun t => (t, ())).map Prod.fst = w := by
      rw [List.map_map]
      exact List.map_id w
    rw [← ends] at rewrites terminals
    obtain ⟨trees, derived, same⟩ := Tree.forestOfRewrites rewrites terminals
    refine ⟨trees, derived, ?_⟩
    rw [← ends, ← same, List.map_flatMap]
    rfl
  · rintro ⟨trees, derived, rfl⟩
    constructor
    · have rewrites := Tree.rewritesForest (fun t _ x => t.rewrites x) derived
      rwa [List.map_flatMap] at rewrites
    · intro y inside
      obtain ⟨t, member, inside⟩ := List.mem_flatMap.1 inside
      obtain ⟨z, _, derived⟩ := (forallMem derived).2 t member
      exact t.wordTerminal z derived y inside

theorem stringsNil : g.strings [] = 1 := by
  ext w
  rw [memStrings, Language.mem_one]
  constructor
  · rintro ⟨trees, derived, rfl⟩
    cases derived
    rfl
  · rintro rfl
    exact ⟨[], .nil, rfl⟩

theorem stringsAppend : g.strings (u ++ v) = g.strings u * g.strings v := by
  ext w
  simp only [Language.mem_mul, memStrings]
  constructor
  · rintro ⟨trees, derived, rfl⟩
    obtain ⟨front, back, left, right, rfl⟩ := forallSplit derived
    exact ⟨_, ⟨front, left, rfl⟩, _, ⟨back, right, rfl⟩, List.flatMap_append.symm⟩
  · rintro ⟨_, ⟨front, left, rfl⟩, _, ⟨back, right, rfl⟩, rfl⟩
    exact ⟨front ++ back, List.rel_append left right, List.flatMap_append⟩

theorem memSymbol : w ∈ g.strings [x] ↔ ∃ t : Tree Unit, t.Derives g x ∧ t.word = w := by
  rw [memStrings]
  constructor
  · rintro ⟨trees, derived, rfl⟩
    obtain ⟨t, _, one, rest, rfl⟩ := List.forall₂_cons_left_iff.1 derived
    cases rest
    exact ⟨t, one, by simp⟩
  · rintro ⟨t, derived, rfl⟩
    exact ⟨[t], .cons derived .nil, by simp⟩

theorem memRules {p : Production Symbol} :
    p ∈ g.productions.filter (·.lhs = x) ↔ p ∈ g.productions ∧ p.lhs = x := by simp

theorem derivesRule (nonterminal : isTerminal x = false) {t : Tree Unit} (derived : t.Derives g x) :
    ∃ id children p, t = .node id children ∧ p ∈ g.productions.filter (·.lhs = x) ∧
      List.Forall₂ (Tree.Derives g) p.rhs children ∧ t.word = children.flatMap Tree.word := by
  cases t with
  | leaf symbol value =>
    obtain ⟨rfl, terminal⟩ := Tree.derivesLeaf.1 derived
    rw [nonterminal] at terminal
    cases terminal
  | node id children =>
    obtain ⟨p, found, rfl, below⟩ := Tree.derivesNode.1 derived
    exact ⟨id, children, p, rfl, memRules.2 ⟨List.mem_of_getElem? found, rfl⟩, below, Tree.wordNode⟩

theorem memRewritten (nonterminal : isTerminal x = false) :
    w ∈ g.strings [x] ↔ ∃ p ∈ g.productions.filter (·.lhs = x), w ∈ g.strings p.rhs := by
  constructor
  · intro inside
    obtain ⟨t, derived, rfl⟩ := memSymbol.1 inside
    obtain ⟨_, children, p, _, listed, below, word⟩ := derivesRule nonterminal derived
    exact ⟨p, listed, memStrings.2 ⟨children, below, word.symm⟩⟩
  · rintro ⟨p, listed, rewrites, terminals⟩
    obtain ⟨inside, rfl⟩ := memRules.1 listed
    have first := Cfg.Rewrites.first (g := g.cfg) inside []
    rw [List.append_nil] at first
    exact ⟨first.trans rewrites, terminals⟩

theorem stringsTerminal (wf : g.WellFormed) (terminal : isTerminal x = true) : g.strings [x] = {[x]} := by
  ext w
  rw [memSymbol]
  change _ ↔ w = [x]
  constructor
  · rintro ⟨t, derived, rfl⟩
    cases t with
    | leaf symbol value =>
      obtain ⟨rfl, _⟩ := Tree.derivesLeaf.1 derived
      exact Tree.wordLeaf
    | node id children =>
      obtain ⟨p, found, rfl, _⟩ := Tree.derivesNode.1 derived
      rw [wf.lhsNonterminal p (List.mem_of_getElem? found)] at terminal
      cases terminal
  · rintro rfl
    exact ⟨.leaf x (), .leaf terminal, Tree.wordLeaf⟩

section
variable (nonterminal : isTerminal x = false)
include nonterminal

theorem stringsTwo (rules : g.productions.filter (·.lhs = x) = [⟨x, u⟩, ⟨x, v⟩]) :
    g.strings [x] = g.strings u + g.strings v := by
  ext w
  rw [memRewritten nonterminal, rules, Language.mem_add]
  simp

theorem stringsRepeat (rules : g.productions.filter (·.lhs = x) = [⟨x, v⟩, ⟨x, u ++ [x]⟩]) :
    g.strings [x] = (g.strings u)∗ * g.strings v := by
  have equation := stringsTwo nonterminal rules
  rw [stringsAppend] at equation
  have once : g.strings v ≤ (g.strings u)∗ * g.strings v :=
    fun w inside => Language.append_mem_mul (Language.nil_mem_kstar _) inside
  have again : g.strings u * ((g.strings u)∗ * g.strings v) ≤ (g.strings u)∗ * g.strings v := by
    rw [← mul_assoc]
    gcongr
    exact mul_kstar_le_kstar
  -- The equation alone has other solutions where the repeated part can be empty.
  have each (t : Tree Unit) : t.Derives g x → t.word ∈ (g.strings u)∗ * g.strings v := by
    induction t using Tree.childInduction with
    | leaf symbol value =>
      intro derived
      obtain ⟨_, _, _, same, _⟩ := derivesRule nonterminal derived
      cases same
    | node id children ih =>
      intro derived
      obtain ⟨_, _, p, same, listed, below, word⟩ := derivesRule nonterminal derived
      cases same
      rw [rules] at listed
      rw [word]
      rcases List.mem_cons.1 listed with rfl | listed
      · exact once (memStrings.2 ⟨children, below, rfl⟩)
      · obtain rfl := List.mem_singleton.1 listed
        obtain ⟨front, back, left, right, rfl⟩ := forallSplit below
        obtain ⟨last, _, recurs, rest, rfl⟩ := List.forall₂_cons_left_iff.1 right
        cases rest
        have inner := ih last (by simp) recurs
        rw [List.flatMap_append, List.flatMap_singleton]
        exact again (Language.append_mem_mul (memStrings.2 ⟨front, left, rfl⟩) inner)
  apply le_antisymm
  · intro w inside
    obtain ⟨t, derived, rfl⟩ := memSymbol.1 inside
    exact each t derived
  · refine kstar_mul_le ?_ ?_
    · rw [equation]
      exact le_self_add
    · nth_rewrite 2 [equation]
      exact le_add_self

end
end Grammar

def HelperKey.language (key : HelperKey) (g : Grammar) : Language Symbol :=
  match key.op with
  | .optional => 1 + g.strings [key.base]
  | .list => 1 + (g.strings (key.base :: key.separator.toList))∗ * g.strings [key.base]
  | .nonemptyList => (g.strings (key.base :: key.separator.toList))∗ * g.strings [key.base]

namespace Draft
variable {d : Draft} {g : Grammar} {calls : List DraftCall} {key : HelperKey} {x inner : Symbol}

def Untouched (d : Draft) (x : Symbol) : Prop := ∀ r ∈ d.rules, r.production.lhs = x → r.origin ≠ .declared

instance (d : Draft) (x : Symbol) : Decidable (d.Untouched x) :=
  inferInstanceAs (Decidable (∀ r ∈ d.rules, r.production.lhs = x → r.origin ≠ .declared))

theorem untouchedRules (finished : d.build = .ok g) (ordinary : x ≠ .augmentedStart) (untouched : d.Untouched x) :
    g.productions.filter (·.lhs = x) = (d.given x).map Rule.production := by
  have same : d.rules.filter ((fun p : Production Symbol => p.lhs = x) ∘ Rule.production) = d.given x := by
    refine List.filter_congr fun r listed => ?_
    simpa using untouched r listed
  rw [(buildSource finished).2.2.1, List.filter_append, productions, List.filter_map, same]
  simp [Ne.symm ordinary]

theorem helperHolds (recorded : (key, x) ∈ (ofCalls calls).helpers) : (ofCalls calls).Holds key x :=
  (filedOfCalls calls).defined (key, x) recorded List.not_mem_nil

theorem helperDefinable (recorded : (key, x) ∈ (ofCalls calls).helpers) : Definable x := by
  obtain ⟨r, listed, same⟩ := (helperHolds recorded).ruled
  exact same ▸ soundOfCalls calls r listed

section
variable (finished : (ofCalls calls).build = .ok g) (recorded : (key, x) ∈ (ofCalls calls).helpers)
include finished recorded

theorem helperRules (rules : (ofCalls calls).given x = key.rules x inner)
    (untouched : (ofCalls calls).Untouched x) :
    g.productions.filter (·.lhs = x) = (key.rules x inner).map Rule.production := by
  rw [← rules]
  exact untouchedRules finished (helperDefinable recorded).2 untouched

theorem nonemptyLanguage (op : key.op = .nonemptyList) (untouched : (ofCalls calls).Untouched x) :
    g.strings [x] = key.language g := by
  obtain ⟨inner, rules, _⟩ := helperHolds recorded
  have own := helperRules finished recorded rules untouched
  rw [HelperKey.rules, op] at own
  rw [HelperKey.language, op]
  exact Grammar.stringsRepeat (helperDefinable recorded).1 own

theorem helperLanguage (rules : (ofCalls calls).given x = key.rules x inner)
    (nested : key.op = .list → (key.nonempty, inner) ∈ (ofCalls calls).helpers)
    (untouched : (ofCalls calls).Untouched x) (within : key.op = .list → (ofCalls calls).Untouched inner) :
    g.strings [x] = key.language g := by
  have own := helperRules finished recorded rules untouched
  have nonterminal := (helperDefinable recorded).1
  cases op : key.op with
  | optional =>
    rw [HelperKey.rules, op] at own
    rw [Grammar.stringsTwo nonterminal own, Grammar.stringsNil, HelperKey.language, op]
  | nonemptyList => exact nonemptyLanguage finished recorded op untouched
  | list =>
    rw [HelperKey.rules, op] at own
    rw [Grammar.stringsTwo nonterminal own, Grammar.stringsNil, HelperKey.language, op,
      nonemptyLanguage finished (nested op) rfl (within op)]
    rfl

end

theorem helperBefore (owns : Owns .empty calls) (recorded : (key, x) ∈ (ofCalls calls).helpers) :
    ∃ a ∈ asked .empty calls, (key, x) ∈ a.left.helpers ∧ (key, x) ∉ a.draft.helpers ∧ a.draft.Untouched x := by
  obtain ⟨a, made, after, before⟩ := helperCreated recorded
  refine ⟨a, made, after, before, fun r listed same => ?_⟩
  have above := (askedFresh made after before).1
  have below := askedNamed owns made (List.mem_map_of_mem listed) List.mem_cons_self
  rw [same] at below
  exact absurd below (Nat.not_lt.2 above)

theorem helpersHygienic (finished : (ofCalls calls).build = .ok g)
    (recorded : (key, x) ∈ (ofCalls calls).helpers) :
    ∃ inner, (key.op = .list → (key.nonempty, inner) ∈ (ofCalls calls).helpers) ∧
      (ofCalls calls).given x = key.rules x inner ∧
      (Owns .empty calls → ∃ a ∈ asked .empty calls, (key, x) ∈ a.left.helpers ∧ (key, x) ∉ a.draft.helpers ∧
        a.draft.Untouched x) ∧
      ((ofCalls calls).Untouched x →
        g.productions.filter (·.lhs = x) = (key.rules x inner).map Rule.production ∧
          ((key.op = .list → (ofCalls calls).Untouched inner) → g.strings [x] = key.language g)) := by
  obtain ⟨inner, rules, nested⟩ := helperHolds recorded
  refine ⟨inner, nested, rules, fun owns => helperBefore owns recorded, fun untouched => ?_⟩
  refine ⟨helperRules finished recorded rules untouched, fun within => ?_⟩
  exact helperLanguage finished recorded rules nested untouched within

def commaCalls : List DraftCall :=
  [.intern "WORD", .intern "COMMA", .list ⟨3, .terminal⟩ (some ⟨4, .terminal⟩),
    .declare "s" ["word_comma_list", "SEMI", "word_comma_nonempty_list"]]

theorem commasHygienic : ∃ g, (ofCalls commaCalls).build = .ok g ∧
    (⟨.list, ⟨3, .terminal⟩, some ⟨4, .terminal⟩⟩, ⟨5, .nonterminal⟩) ∈ (ofCalls commaCalls).helpers ∧
    g.strings [⟨5, .nonterminal⟩] =
      1 + (g.strings [⟨3, .terminal⟩, ⟨4, .terminal⟩])∗ * g.strings [⟨3, .terminal⟩] := by
  obtain ⟨g, finished⟩ : ∃ g, (ofCalls commaCalls).build = .ok g := okOfIsOk (by decide +kernel)
  have recorded : (⟨.list, ⟨3, .terminal⟩, some ⟨4, .terminal⟩⟩, ⟨5, .nonterminal⟩) ∈
      (ofCalls commaCalls).helpers := by decide +kernel
  have untouched : ∀ e ∈ (ofCalls commaCalls).helpers, (ofCalls commaCalls).Untouched e.2 := by decide +kernel
  obtain ⟨inner, nested, _, _, alone⟩ := helpersHygienic finished recorded
  exact ⟨g, finished, recorded, (alone (untouched _ recorded)).2 fun list => untouched _ (nested list)⟩

def overlaidCalls : List DraftCall := [.declareRule "s" "WORD?", .declare "word_optional" ["OTHER"]]

theorem helperOverlaid : ∃ g, (ofCalls overlaidCalls).build = .ok g ∧
    (⟨.optional, ⟨4, .terminal⟩, none⟩, ⟨5, .nonterminal⟩) ∈ (ofCalls overlaidCalls).helpers ∧
    g.productions.filter (·.lhs = ⟨5, .nonterminal⟩) = [⟨⟨5, .nonterminal⟩, []⟩,
      ⟨⟨5, .nonterminal⟩, [⟨4, .terminal⟩]⟩, ⟨⟨5, .nonterminal⟩, [⟨6, .terminal⟩]⟩] ∧
    [⟨6, .terminal⟩] ∈ g.strings [⟨5, .nonterminal⟩] ∧
    [⟨6, .terminal⟩] ∉ (HelperKey.mk .optional ⟨4, .terminal⟩ none).language g := by
  obtain ⟨g, finished⟩ : ∃ g, (ofCalls overlaidCalls).build = .ok g := okOfIsOk (by decide +kernel)
  have wf : g.WellFormed := Grammar.Built.wellFormed ⟨overlaidCalls, finished⟩
  have rules : g.productions.filter (·.lhs = ⟨5, .nonterminal⟩) = [⟨⟨5, .nonterminal⟩, []⟩,
      ⟨⟨5, .nonterminal⟩, [⟨4, .terminal⟩]⟩, ⟨⟨5, .nonterminal⟩, [⟨6, .terminal⟩]⟩] := by
    rw [(buildSource finished).2.2.1, List.filter_append]
    have own : (ofCalls overlaidCalls).productions.filter (·.lhs = ⟨5, .nonterminal⟩) = [⟨⟨5, .nonterminal⟩, []⟩,
      ⟨⟨5, .nonterminal⟩, [⟨4, .terminal⟩]⟩, ⟨⟨5, .nonterminal⟩, [⟨6, .terminal⟩]⟩] := by decide +kernel
    rw [own]
    rfl
  refine ⟨g, finished, by decide +kernel, rules, ?_, ?_⟩
  · rw [Grammar.memRewritten rfl, rules]
    exact ⟨⟨⟨5, .nonterminal⟩, [⟨6, .terminal⟩]⟩, by simp, .refl, by decide⟩
  · rw [HelperKey.language, Grammar.stringsTerminal wf rfl]
    rintro (empty | word)
    · cases empty
    · cases word

end Draft
end ForkingLR
