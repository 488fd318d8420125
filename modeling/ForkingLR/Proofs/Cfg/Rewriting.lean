import ForkingLR.Cfg
import ForkingLR.Proofs.Lists
import Mathlib.Logic.Relation

/-! Rewriting in a context-free grammar, and by rules of their own what can vanish, begin a
sequence and follow a symbol. The rules are what the analyses compute with, and they say the same
as rewriting. -/
namespace ForkingLR

namespace Cfg
variable {σ : Type}

inductive Step (g : Cfg σ) : List σ → List σ → Prop
  | replace (before after : List σ) {p : Production σ} (h : p ∈ g.productions) :
      Step g (before ++ p.lhs :: after) (before ++ p.rhs ++ after)

def Rewrites (g : Cfg σ) : List σ → List σ → Prop := Relation.ReflTransGen g.Step

def FirstOf [GrammarSymbol σ] (g : Cfg σ) (u : List σ) (t : σ) : Prop :=
  isTerminal t = true ∧ ∃ rest, g.Rewrites u (t :: rest)

inductive Vanishes (g : Cfg σ) : List σ → Prop
  | nil : Vanishes g []
  | cons {p : Production σ} {rest : List σ} (h : p ∈ g.productions) (first : Vanishes g p.rhs)
      (others : Vanishes g rest) : Vanishes g (p.lhs :: rest)

inductive Begins [GrammarSymbol σ] (g : Cfg σ) (t : σ) : List σ → Prop
  | here {rest : List σ} (terminal : isTerminal t = true) : Begins g t (t :: rest)
  | inside {p : Production σ} {rest : List σ} (h : p ∈ g.productions) (first : Begins g t p.rhs) :
      Begins g t (p.lhs :: rest)
  | later {x : σ} {rest : List σ} (gone : Vanishes g [x]) (others : Begins g t rest) :
      Begins g t (x :: rest)

inductive Follows [GrammarSymbol σ] (g : Cfg σ) : σ → σ → Prop
  | start {s : σ} (h : g.start = some s) : Follows g s g.endMarker
  | inside {p : Production σ} {before after : List σ} {x t : σ} (h : p ∈ g.productions)
      (placed : p.rhs = before ++ x :: after) (next : Begins g t after) : Follows g x t
  | tail {p : Production σ} {before after : List σ} {x t : σ} (h : p ∈ g.productions)
      (placed : p.rhs = before ++ x :: after) (gone : Vanishes g after)
      (outer : Follows g p.lhs t) : Follows g x t

/-- The terminal stands right after the symbol in what a left-hand side is rewritten to, or it is the
end marker and the symbol stands last in what the start symbol is rewritten to. -/
def FollowOf [GrammarSymbol σ] (g : Cfg σ) (x t : σ) : Prop :=
  isTerminal t = true ∧
      (∃ p ∈ g.productions, ∃ before after, g.Rewrites [p.lhs] (before ++ x :: t :: after)) ∨
    t = g.endMarker ∧ ∃ s, g.start = some s ∧ ∃ before, g.Rewrites [s] (before ++ [x])

variable {g : Cfg σ}

theorem Rewrites.trans {u v w : List σ} (first : g.Rewrites u v) (second : g.Rewrites v w) :
    g.Rewrites u w := Relation.ReflTransGen.trans first second

theorem Rewrites.append {u u' : List σ} (h : g.Rewrites u u') (before after : List σ) :
    g.Rewrites (before ++ u ++ after) (before ++ u' ++ after) := by
  induction h with
  | refl => exact .refl
  | tail _ step ih =>
    refine ih.tail ?_
    cases step with
    | replace l r h => simpa using Step.replace (before ++ l) (r ++ after) h

theorem Rewrites.first {p : Production σ} (h : p ∈ g.productions) (rest : List σ) :
    g.Rewrites (p.lhs :: rest) (p.rhs ++ rest) := .single (.replace [] rest h)

theorem Vanishes.append {u v : List σ} (left : g.Vanishes u) (right : g.Vanishes v) :
    g.Vanishes (u ++ v) := by
  induction left with
  | nil => exact right
  | cons h first _ _ ih => exact .cons h first ih

theorem vanishesAppend {u v : List σ} : g.Vanishes (u ++ v) ↔ g.Vanishes u ∧ g.Vanishes v := by
  refine ⟨?_, fun h => h.1.append h.2⟩
  induction u with
  | nil => exact fun h => ⟨.nil, h⟩
  | cons x u ih =>
    rintro ⟨⟩
    rename_i p h first others
    obtain ⟨left, right⟩ := ih others
    exact ⟨.cons h first left, right⟩

theorem vanishesCons {x : σ} {rest : List σ} :
    g.Vanishes (x :: rest) ↔ (∃ p ∈ g.productions, p.lhs = x ∧ g.Vanishes p.rhs) ∧ g.Vanishes rest := by
  constructor
  · rintro ⟨⟩
    rename_i p h first others
    exact ⟨⟨p, h, rfl, first⟩, others⟩
  · rintro ⟨⟨p, h, rfl, first⟩, others⟩
    exact .cons h first others

theorem vanishesSingle {x : σ} :
    g.Vanishes [x] ↔ ∃ p ∈ g.productions, p.lhs = x ∧ g.Vanishes p.rhs := by
  rw [vanishesCons]
  exact and_iff_left .nil

theorem vanishesIff {u : List σ} : g.Vanishes u ↔ g.Rewrites u [] := by
  constructor
  · intro h
    induction h with
    | nil => exact .refl
    | @cons p rest h _ _ one two =>
      have gone : g.Rewrites (p.rhs ++ rest) rest := by simpa using one.append [] rest
      exact (Rewrites.first h rest).trans (gone.trans two)
  · intro h
    induction h using Relation.ReflTransGen.head_induction_on with
    | refl => exact .nil
    | head step _ ih =>
      cases step with
      | replace l r h =>
        rw [vanishesAppend, vanishesAppend] at ih
        exact ih.1.1.append (.cons h ih.1.2 ih.2)

variable [GrammarSymbol σ]

theorem Begins.terminal {t : σ} {u : List σ} (h : g.Begins t u) : isTerminal t = true := by
  induction h with
  | here terminal => exact terminal
  | inside _ _ ih => exact ih
  | later _ _ ih => exact ih

theorem beginsAppend {t : σ} {u v : List σ} :
    g.Begins t (u ++ v) ↔ g.Begins t u ∨ g.Vanishes u ∧ g.Begins t v := by
  constructor
  · induction u with
    | nil => exact fun h => .inr ⟨.nil, h⟩
    | cons x u ih =>
      rintro ⟨⟩
      · rename_i terminal
        exact .inl (.here terminal)
      · rename_i p h first
        exact .inl (.inside h first)
      · rename_i gone others
        rcases ih others with left | ⟨empty, right⟩
        · exact .inl (.later gone left)
        · exact .inr ⟨gone.append empty, right⟩
  · rintro (h | ⟨gone, h⟩)
    · induction h with
      | here terminal => exact .here terminal
      | inside h first => exact .inside h first
      | later gone _ ih => exact .later gone ih
    · induction gone with
      | nil => exact h
      | cons member first _ _ ih => exact .later (.cons member first .nil) ih

theorem beginsBefore (nonterminals : ∀ p ∈ g.productions, isTerminal p.lhs = false) {t t' : σ}
    {u : List σ} (terminal : isTerminal t = true) :
    g.Begins t' (u ++ [t]) ↔ g.Begins t' u ∨ g.Vanishes u ∧ t' = t := by
  rw [beginsAppend]
  refine or_congr Iff.rfl (and_congr_right fun _ => ?_)
  constructor
  · rintro ⟨⟩
    · rfl
    · rename_i p h _
      simp [nonterminals p h] at terminal
    · rename_i empty
      cases empty
  · rintro rfl
    exact .here terminal

theorem beginsIff {t : σ} {u : List σ} : g.Begins t u ↔ g.FirstOf u t := by
  constructor
  · intro h
    refine ⟨h.terminal, ?_⟩
    induction h with
    | here => exact ⟨_, .refl⟩
    | @inside p rest h _ ih =>
      obtain ⟨tail, rewrites⟩ := ih
      have grown : g.Rewrites (p.rhs ++ rest) (t :: (tail ++ rest)) := by
        simpa using rewrites.append [] rest
      exact ⟨tail ++ rest, (Rewrites.first h rest).trans grown⟩
    | @later x rest gone _ ih =>
      obtain ⟨tail, rewrites⟩ := ih
      have shrunk : g.Rewrites (x :: rest) rest := by
        simpa using (vanishesIff.1 gone).append [] rest
      exact ⟨tail, shrunk.trans rewrites⟩
  · rintro ⟨terminal, rest, h⟩
    induction h using Relation.ReflTransGen.head_induction_on with
    | refl => exact .here terminal
    | head step _ ih =>
      cases step with
      | replace l r h =>
        rw [beginsAppend, beginsAppend, vanishesAppend] at ih
        rcases ih with (left | ⟨gone, middle⟩) | ⟨⟨gone, empty⟩, right⟩
        · exact beginsAppend.2 (.inl left)
        · exact beginsAppend.2 (.inr ⟨gone, .inside h middle⟩)
        · exact beginsAppend.2 (.inr ⟨gone, .later (.cons h empty .nil) right⟩)

theorem Begins.unstep {t : σ} {u v : List σ} (step : g.Step u v) (h : g.Begins t v) : g.Begins t u := by
  obtain ⟨terminal, rest, rewrites⟩ := beginsIff.1 h
  exact beginsIff.2 ⟨terminal, rest, .head step rewrites⟩

omit [GrammarSymbol σ] in
theorem Vanishes.unstep {u v : List σ} (step : g.Step u v) (h : g.Vanishes v) : g.Vanishes u :=
  vanishesIff.2 (.head step (vanishesIff.1 h))

theorem followsInside {b t : σ} {w : List σ} (h : g.Rewrites [b] w) {x : σ} {before after : List σ}
    (placed : w = before ++ x :: after)
    (next : g.Begins t after ∨ g.Vanishes after ∧ g.Follows b t) : g.Follows x t := by
  -- The symbol is left of the last replacement, in it or right of it.
  induction h generalizing x before after with
  | refl =>
    obtain ⟨rfl, last⟩ : before = [] ∧ [b] = x :: after := by
      cases before with
      | nil => exact ⟨rfl, placed⟩
      | cons y before => simp at placed
    cases last
    rcases next with begins | ⟨_, outer⟩
    · cases begins
    · exact outer
  | tail _ step ih =>
    cases step with
    | @replace left right p h =>
      rcases placedAppend placed with ⟨rest, inside, rfl⟩ | ⟨front, rfl, rfl⟩
      · rcases placedAppend inside with ⟨rest, rfl, rfl⟩ | ⟨front, inRhs, rfl⟩
        · have step : g.Step (rest ++ p.lhs :: right) (rest ++ p.rhs ++ right) := .replace rest right h
          refine ih (List.append_assoc _ _ _) ?_
          exact next.imp (Begins.unstep step) (And.imp_left (Vanishes.unstep step))
        · rcases next with begins | ⟨gone, outer⟩
          · rcases beginsAppend.1 begins with begins | ⟨gone, begins⟩
            · exact .inside h inRhs begins
            · exact .tail h inRhs gone (ih rfl (.inl begins))
          · obtain ⟨gone, gone'⟩ := vanishesAppend.1 gone
            exact .tail h inRhs gone (ih rfl (.inr ⟨gone', outer⟩))
      · have later : left ++ p.lhs :: (front ++ x :: after) = left ++ p.lhs :: front ++ x :: after := by simp
        exact ih later next

theorem followsIff {x t : σ} : g.Follows x t ↔ g.FollowOf x t := by
  constructor
  · intro h
    induction h with
    | start h => exact .inr ⟨rfl, _, h, [], .refl⟩
    | @inside p before after x t h placed next =>
      obtain ⟨terminal, rest, rewrites⟩ := beginsIff.1 next
      refine .inl ⟨terminal, p, h, before, rest, ?_⟩
      have first : g.Rewrites [p.lhs] (before ++ x :: after) := by
        simpa [placed] using Rewrites.first h []
      exact first.trans (by simpa using rewrites.append (before ++ [x]) [])
    | @tail p before after x t h placed gone _ ih =>
      have last : g.Rewrites [p.lhs] (before ++ [x]) := by
        have first : g.Rewrites [p.lhs] (before ++ x :: after) := by
          simpa [placed] using Rewrites.first h []
        exact first.trans (by simpa using (vanishesIff.1 gone).append (before ++ [x]) [])
      rcases ih with ⟨terminal, q, h, left, right, rewrites⟩ | ⟨rfl, s, start, left, rewrites⟩
      · refine .inl ⟨terminal, q, h, left ++ before, right, rewrites.trans ?_⟩
        simpa using last.append left (t :: right)
      · refine .inr ⟨rfl, s, start, left ++ before, rewrites.trans ?_⟩
        simpa using last.append left []
  · intro h
    rcases h with ⟨terminal, p, _, before, after, rewrites⟩ | ⟨rfl, s, start, before, rewrites⟩
    · exact followsInside rewrites rfl (.inl (.here terminal))
    · exact followsInside rewrites rfl (.inr ⟨.nil, .start start⟩)

end Cfg
end ForkingLR
