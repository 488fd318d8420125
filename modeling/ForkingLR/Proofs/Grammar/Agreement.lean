import ForkingLR.Proofs.Grammar.Naming
import ForkingLR.Proofs.Table.Renaming

/-! Grammars that agree name by name, however their symbols are numbered: the same productions in the same
order, the same declared precedences and the same precedences of productions. -/
namespace ForkingLR

namespace Grammar
variable {g h : Grammar} {x y : Symbol}

def SameName (g h : Grammar) (x y : Symbol) : Prop :=
  ∃ name, g.symbols.lookup? name = some x ∧ h.symbols.lookup? name = some y

theorem SameName.name (same : SameName g h x y) : g.name x = h.name y := by
  obtain ⟨name, found, found'⟩ := same
  exact (SymbolTable.nameOfLookup found).trans (SymbolTable.nameOfLookup found').symm

theorem SameName.known (same : SameName g h x y) : g.symbols.Knows x := by
  obtain ⟨name, found, _⟩ := same
  exact SymbolTable.knowsLookup found

theorem SameName.symm (same : SameName g h x y) : SameName h g y x := by
  obtain ⟨name, found, found'⟩ := same
  exact ⟨name, found', found⟩

theorem sameNameIff (known : g.symbols.Knows x) :
    SameName g h x y ↔ h.symbols.lookup? (g.name x) = some y := by
  constructor
  · rintro ⟨name, found, found'⟩
    rwa [show g.name x = name from SymbolTable.nameOfLookup found]
  · intro found
    exact ⟨g.name x, known, found⟩

theorem sameNameKnown (known : g.symbols.Knows x) (known' : h.symbols.Knows y) :
    SameName g h x y ↔ g.name x = h.name y := by
  constructor
  · exact SameName.name
  · intro same
    exact (sameNameIff known).2 (same ▸ known')

theorem renamingSameName (g h : Grammar) : Renaming (SameName g h) := by
  refine ⟨?_, ?_, ?_, ?_, ?_⟩
  · intro x x' y y' same same'
    have names := same.name
    have names' := same'.name
    constructor
    · rintro rfl
      have equal : h.symbols.lookup? (h.name y) = some y' := by
        rw [← names, names']
        exact same'.symm.known
      exact Option.some.inj (same.symm.known.symm.trans equal)
    · rintro rfl
      have equal : g.symbols.lookup? (g.name x) = some x' := by
        rw [names, ← names']
        exact same'.known
      exact Option.some.inj (same.known.symm.trans equal)
  · rintro x y ⟨name, found, found'⟩
    have kind := (SymbolTable.lookupIff.1 found).2.symm.trans (SymbolTable.lookupIff.1 found').2
    show (x.kind == .terminal) = (y.kind == .terminal)
    rw [Option.some.inj kind]
  · exact ⟨_, SymbolTable.lookupReserved.1, SymbolTable.lookupReserved.1⟩
  · exact ⟨_, SymbolTable.lookupReserved.2.1, SymbolTable.lookupReserved.2.1⟩
  · exact ⟨_, SymbolTable.lookupReserved.2.2, SymbolTable.lookupReserved.2.2⟩

def spell (g : Grammar) (p : Production Symbol) : Production String := ⟨g.name p.lhs, p.rhs.map g.name⟩

def levelOf? (g : Grammar) (name : String) : Option Precedence :=
  (g.symbols.lookup? name).bind g.precedence.terminals.get?

structure Agrees (g h : Grammar) : Prop where
  productions : g.productions.map g.spell = h.productions.map h.spell
  levels : ∀ name, g.levelOf? name = h.levelOf? name
  ranks : ∀ id, g.productionPrecedence? id = h.productionPrecedence? id

theorem Agrees.symm (agrees : Agrees g h) : Agrees h g :=
  ⟨agrees.productions.symm, fun name => (agrees.levels name).symm, fun id => (agrees.ranks id).symm⟩

theorem spellIff {p q : Production Symbol} (known : ∀ x ∈ p.lhs :: p.rhs, g.symbols.Knows x)
    (known' : ∀ x ∈ q.lhs :: q.rhs, h.symbols.Knows x) :
    g.spell p = h.spell q ↔ p.Alike (SameName g h) q := by
  have one {x y : Symbol} (inside : x ∈ p.lhs :: p.rhs) (inside' : y ∈ q.lhs :: q.rhs) :
      g.name x = h.name y ↔ SameName g h x y := (sameNameKnown (known x inside) (known' y inside')).symm
  have word : p.rhs.map g.name = q.rhs.map h.name ↔ List.Forall₂ (SameName g h) p.rhs q.rhs := by
    rw [forallMapEq]
    exact forallCongr fun x inside y inside' =>
      one (List.mem_cons_of_mem _ inside) (List.mem_cons_of_mem _ inside')
  rw [spell, spell, Production.mk.injEq, word, one List.mem_cons_self List.mem_cons_self]
  exact ⟨fun same => ⟨same.1, same.2⟩, fun same => ⟨same.lhs, same.rhs⟩⟩

theorem spelledIff (named : g.Named) (named' : h.Named) :
    g.productions.map g.spell = h.productions.map h.spell ↔
      List.Forall₂ (Production.Alike (SameName g h)) g.productions h.productions := by
  rw [forallMapEq]
  exact forallCongr fun p listed q listed' =>
    spellIff (named.productions p listed) (named'.productions q listed')

theorem levelOfLookup {name : String} (found : g.symbols.lookup? name = some x) :
    g.levelOf? name = g.precedence.terminals.get? x := by
  rw [levelOf?, found, Option.bind_some]

theorem Named.declaredKnown (named : g.Named) (declared : g.precedence.terminals.get? x ≠ none) :
    g.symbols.Knows x :=
  named.declared x (SortedMap.memKeys.2 (Option.ne_none_iff_exists'.1 declared))

theorem Agrees.declared (agrees : Agrees g h) (named : g.Named)
    (declared : g.precedence.terminals.get? x ≠ none) : ∃ y, SameName g h x y := by
  have known := named.declaredKnown declared
  have level : g.precedence.terminals.get? x = h.levelOf? (g.name x) :=
    (levelOfLookup known).symm.trans (agrees.levels _)
  cases found : h.symbols.lookup? (g.name x) with
  | some y => exact ⟨y, (sameNameIff known).2 found⟩
  | none =>
    rw [levelOf?, found, Option.bind_none] at level
    exact absurd level declared

theorem Alike.level (alike : Alike (SameName g h) g h) {name : String} {p : Precedence}
    (level : g.levelOf? name = some p) : h.levelOf? name = some p := by
  obtain ⟨x, found, declared⟩ := Option.bind_eq_some_iff.1 level
  obtain ⟨y, same⟩ := alike.declared (x := x) (by simp [declared])
  have there := (sameNameIff same.known).1 same
  rw [show g.name x = name from SymbolTable.nameOfLookup found] at there
  rw [levelOfLookup there, ← alike.levels same, declared]

theorem sameNameSwap : (fun y x => SameName g h x y) = SameName h g :=
  funext fun _ => funext fun _ => propext ⟨SameName.symm, SameName.symm⟩

theorem Alike.flip (alike : Alike (SameName g h) g h) : Alike (SameName h g) h g := by
  have swapped := alike.symm
  rwa [sameNameSwap] at swapped

theorem alikeIff (wf : g.WellFormed) (wf' : h.WellFormed) (named : g.Named) (named' : h.Named) :
    Alike (SameName g h) g h ↔ Agrees g h := by
  constructor
  · intro alike
    refine ⟨(spelledIff named named').2 alike.productions, ?_, alike.ranks⟩
    intro name
    refine Option.ext fun p => ⟨alike.level, alike.flip.level⟩
  · intro agrees
    refine ⟨renamingSameName g h, wf, wf', (spelledIff named named').1 agrees.productions, ?_,
      agrees.declared named, ?_, agrees.ranks⟩
    · rintro x y ⟨name, found, found'⟩
      rw [← levelOfLookup found, ← levelOfLookup found', agrees.levels]
    · intro y declared
      obtain ⟨x, same⟩ := agrees.symm.declared named' declared
      exact ⟨x, same.symm⟩

end Grammar
end ForkingLR
