import ForkingLR.Cfg.Memo
import ForkingLR.Proofs.Cfg.Follow

/-! What a grammar answers at any moment of its history. A kept analysis is always that of the grammar
as it stands, so every answer is the exact one. -/
namespace ForkingLR

inductive CfgCall (σ : Type)
  | add (lhs : σ) (rhs : List σ)
  | start (s : σ)
  | nullable (x : σ)
  | first (xs : List σ)
  | follow (x : σ)

/-- One of the grammars that there are is called or copied. The copy is a grammar of its own. -/
inductive CfgEvent (σ : Type)
  | call (k : Nat) (c : CfgCall σ)
  | clone (k : Nat)

namespace CfgEvent
variable {σ M : Type}

def act (perform : M → CfgCall σ → M) (pool : List M) : CfgEvent σ → List M
  | .call k c => pool.modify k fun m => perform m c
  | .clone k => pool ++ pool[k]?.toList

theorem actKeeps {perform : M → CfgCall σ → M} {P : M → Prop} {pool : List M} {event : CfgEvent σ}
    (keeps : ∀ k c, event = .call k c → ∀ m, P m → P (perform m c)) (h : ∀ m ∈ pool, P m) :
    ∀ m ∈ event.act perform pool, P m := by
  intro m inside
  cases event with
  | call k c =>
    obtain ⟨i, found⟩ := List.mem_iff_getElem?.1 inside
    rw [act, List.getElem?_modify] at found
    obtain ⟨before, old, rfl⟩ := Option.map_eq_some_iff.1 found
    have good := h before (List.mem_of_getElem? old)
    split
    · exact keeps k c rfl before good
    · exact good
  | clone k =>
    rcases List.mem_append.1 inside with old | copy
    · exact h m old
    · exact h m (List.mem_of_getElem? (Option.mem_toList.1 copy))

theorem historyKeeps {perform : M → CfgCall σ → M} {P : M → Prop} {history : List (CfgEvent σ)}
    (keeps : ∀ k c, .call k c ∈ history → ∀ m, P m → P (perform m c)) {pool : List M} (h : ∀ m ∈ pool, P m) :
    ∀ m ∈ history.foldl (act perform) pool, P m :=
  List.foldlRecOn (motive := fun pool => ∀ m ∈ pool, P m) history _ h fun _ good _ inside =>
    actKeeps (fun k c same => keeps k c (same ▸ inside)) good

theorem historyMap {M' : Type} {perform : M → CfgCall σ → M} {perform' : M' → CfgCall σ → M'} {view : M → M'}
    (respects : ∀ m c, view (perform m c) = perform' (view m) c) (history : List (CfgEvent σ)) (pool : List M) :
    (history.foldl (act perform) pool).map view = history.foldl (act perform') (pool.map view) := by
  induction history generalizing pool with
  | nil => rfl
  | cons event history ih =>
    rw [List.foldl_cons, List.foldl_cons, ih]
    congr 1
    cases event with
    | call k c =>
      refine List.ext_getElem? fun i => ?_
      simp only [act, List.getElem?_map, List.getElem?_modify]
      cases pool[i]? with
      | none => rfl
      | some m => by_cases here : k = i <;> simp [here, respects]
    | clone k =>
      rw [act, act, List.map_append, List.getElem?_map]
      cases pool[k]? <;> rfl

end CfgEvent

namespace Cfg
variable {σ : Type}

def perform (g : Cfg σ) : CfgCall σ → Cfg σ
  | .add lhs rhs => g.add lhs rhs
  | .start s => g.withStart s
  | _ => g

def after (endMarker : σ) (history : List (CfgEvent σ)) : List (Cfg σ) :=
  history.foldl (CfgEvent.act perform) [{ endMarker }]

end Cfg

namespace MemoCfg
variable {σ : Type} [DecidableEq σ] [Ord σ] [Std.TransOrd σ] [GrammarSymbol σ]

def perform (m : MemoCfg σ) : CfgCall σ → MemoCfg σ
  | .add lhs rhs => m.add lhs rhs
  | .start s => m.setStart s
  | .nullable x => (m.nullable x).2
  | .first xs => (m.first xs).2
  | .follow x => (m.follow x).2

def after (endMarker : σ) (history : List (CfgEvent σ)) : List (MemoCfg σ) :=
  history.foldl (CfgEvent.act perform) [.new endMarker]

def Fresh (m : MemoCfg σ) : Prop := ∀ a, m.kept = some a → a = m.grammar.analysis

variable {m : MemoCfg σ}

theorem Fresh.analysis (h : m.Fresh) : m.analysis = m.grammar.analysis := by
  unfold MemoCfg.analysis
  split
  · rename_i a kept
    exact h a kept
  · rfl

theorem Fresh.analysed (h : m.Fresh) : m.analysed.Fresh := by
  intro a kept
  cases kept
  exact h.analysis

theorem Fresh.perform (h : m.Fresh) (c : CfgCall σ) : (m.perform c).Fresh := by
  cases c with
  | add lhs rhs => exact nofun
  | start s =>
    simp only [MemoCfg.perform, setStart]
    split
    · exact h
    · exact nofun
  | nullable x =>
    simp only [MemoCfg.perform, MemoCfg.nullable]
    split
    · exact h
    · exact h.analysed
  | first xs => exact h.analysed
  | follow x => exact h.analysed

theorem freshAfter (endMarker : σ) (history : List (CfgEvent σ)) : ∀ m ∈ after endMarker history, m.Fresh := by
  refine CfgEvent.historyKeeps (fun _ c _ m h => h.perform c) ?_
  intro m first
  obtain rfl := List.mem_singleton.1 first
  exact nofun

theorem grammarPerform (m : MemoCfg σ) (c : CfgCall σ) : (m.perform c).grammar = m.grammar.perform c := by
  cases c with
  | add lhs rhs => rfl
  | start s =>
    simp only [perform, setStart, Cfg.perform, Cfg.withStart]
    split
    · rename_i same
      rw [← same]
    · rfl
  | nullable x =>
    simp only [perform, nullable]
    split <;> rfl
  | first xs => rfl
  | follow x => rfl

theorem grammarsAfter (endMarker : σ) (history : List (CfgEvent σ)) :
    (after endMarker history).map grammar = Cfg.after endMarker history :=
  CfgEvent.historyMap grammarPerform history _

theorem nonterminalsAfter {endMarker : σ} {history : List (CfgEvent σ)}
    (nonterminals : ∀ k lhs rhs, .call k (.add lhs rhs) ∈ history → isTerminal lhs = false) :
    ∀ m ∈ after endMarker history, ∀ p ∈ m.grammar.productions, isTerminal p.lhs = false := by
  refine CfgEvent.historyKeeps ?_ ?_
  · intro k c inside m h p listed
    rw [grammarPerform] at listed
    cases c with
    | add lhs rhs =>
      rcases List.mem_append.1 listed with old | new
      · exact h p old
      · obtain rfl := List.mem_singleton.1 new
        exact nonterminals k lhs rhs inside
    | start s => exact h p listed
    | nullable x => exact h p listed
    | first xs => exact h p listed
    | follow x => exact h p listed
  · intro m first p listed
    obtain rfl := List.mem_singleton.1 first
    cases listed

section
variable [Std.LawfulEqOrd σ] (h : m.Fresh) (nonterminals : ∀ p ∈ m.grammar.productions, isTerminal p.lhs = false)
include h nonterminals

theorem firstExact (u : List σ) :
    ((m.first u).1.epsilon = true ↔ m.grammar.Rewrites u []) ∧
      ∀ t, t ∈ (m.first u).1.terminals ↔ m.grammar.FirstOf u t := by
  have exact := Cfg.firstTableExact nonterminals
  have answer : (m.first u).1 = m.grammar.firstTable.firstOf u := by
    simp only [first, h.analysed.analysis]
    rfl
  rw [answer]
  exact ⟨(exact.epsilon u).trans Cfg.vanishesIff, fun t => (exact.terminals u t).trans Cfg.beginsIff⟩

theorem nullableExact (x : σ) : (m.nullable x).1 = true ↔ m.grammar.Rewrites [x] [] := by
  rw [← (firstExact h nonterminals [x]).1]
  simp only [nullable, first, h.analysed.analysis]
  by_cases terminal : isTerminal x = true
  · simp [terminal, Cfg.Analysis.first, Cfg.FirstTable.firstOf]
  · by_cases known : x ∈ m.analysed.grammar.analysis.firsts.nullable <;>
      simp [terminal, known, Cfg.Analysis.nullable, Cfg.Analysis.first, Cfg.FirstTable.firstOf]

theorem followExact (x t : σ) : t ∈ (m.follow x).1 ↔ m.grammar.FollowOf x t := by
  have answer : (m.follow x).1 = m.grammar.follow x := by
    simp only [follow, h.analysed.analysis]
    rfl
  rw [answer, Cfg.followTableExact nonterminals, Cfg.followsIff]

end

theorem analysesExact [Std.LawfulEqOrd σ] (endMarker : σ) (history : List (CfgEvent σ))
    (nonterminals : ∀ k lhs rhs, .call k (.add lhs rhs) ∈ history → isTerminal lhs = false) :
    (after endMarker history).map grammar = Cfg.after endMarker history ∧
    ∀ m ∈ after endMarker history,
      Repeats (fun t => m.grammar.productions.foldl Cfg.FirstTable.learn t) .empty m.grammar.firstTable ∧
      Repeats (Cfg.followPass m.grammar.firstTable m.grammar.productions) m.grammar.followSeed
        (m.grammar.followTable m.grammar.firstTable) ∧
      (∀ x, (m.nullable x).1 = true ↔ m.grammar.Rewrites [x] []) ∧
      (∀ u, ((m.first u).1.epsilon = true ↔ m.grammar.Rewrites u []) ∧
        ∀ t, t ∈ (m.first u).1.terminals ↔ m.grammar.FirstOf u t) ∧
      ∀ x t, t ∈ (m.follow x).1 ↔ m.grammar.FollowOf x t := by
  refine ⟨grammarsAfter endMarker history, ?_⟩
  intro m inside
  have fresh := freshAfter endMarker history m inside
  have lhs := nonterminalsAfter nonterminals m inside
  exact ⟨Cfg.firstTableRepeats lhs, Cfg.followTableRepeats lhs, nullableExact fresh lhs, firstExact fresh lhs,
    followExact fresh lhs⟩

def revision (e n : Symbol) : List (CfgEvent Symbol) :=
  [.call 0 (.add e [n]), .call 0 (.start e), .call 0 (.follow e), .clone 0, .call 0 (.add e [e, n])]

theorem revisionAnalysed :
    ∃ m copy, after Symbol.endOfInput (revision ⟨3, .nonterminal⟩ ⟨4, .terminal⟩) = [m, copy] ∧
      m.grammar.FollowOf ⟨3, .nonterminal⟩ ⟨4, .terminal⟩ ∧
      ¬ copy.grammar.FollowOf ⟨3, .nonterminal⟩ ⟨4, .terminal⟩ := by
  have nonterminals : ∀ k lhs rhs, .call k (.add lhs rhs) ∈ revision ⟨3, .nonterminal⟩ ⟨4, .terminal⟩ →
      isTerminal lhs = false := by
    intro k lhs rhs added
    have same : lhs = ⟨3, .nonterminal⟩ := by
      simp only [revision, List.mem_cons, CfgEvent.call.injEq, CfgCall.add.injEq, reduceCtorEq, and_false,
        false_or, List.not_mem_nil, or_false] at added
      exact added.elim (·.2.1) (·.2.1)
    rw [same]
    rfl
  obtain ⟨_, exact⟩ := analysesExact Symbol.endOfInput (revision ⟨3, .nonterminal⟩ ⟨4, .terminal⟩) nonterminals
  refine ⟨_, _, rfl, ?_, ?_⟩
  · refine ((exact _ ?_).2.2.2.2 _ _).1 (by decide +kernel)
    exact List.mem_cons_self
  · refine ((exact _ ?_).2.2.2.2 _ _).not.1 (by decide +kernel)
    exact List.mem_cons_of_mem _ List.mem_cons_self

end MemoCfg
end ForkingLR
