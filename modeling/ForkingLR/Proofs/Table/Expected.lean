import ForkingLR.Proofs.Table.Canonical

/-! What an item expects behind its production, and what can be made of a word in front of a
terminal. Canonical items vanish where a nonterminal derives nothing; expectation only asks for the
symbols right behind the dot, so it also covers such grammars. Where reductions lead a word to the
terminal, every one of them is expected in front of it. -/
namespace ForkingLR

namespace Grammar
open Table
variable {g : Grammar}

def Leads (g : Grammar) (word : List Symbol) (i : Item) : Prop :=
  ∃ s, g.walk g.lr0States 0 word = .ok s ∧ Holds g.lr0States s i

/-- After the word, the terminal may follow the production of the item: it begins what stands behind
the production, or what stands there vanishes in front of it. -/
inductive Expects (g : Grammar) : List Symbol → Item → Symbol → Prop
  | start : Expects g [] ⟨g.startProduction, 0⟩ .endOfInput
  | shift {word : List Symbol} {i : Item} {x t : Symbol} (before : Expects g word i t)
      (next : i.next? g.productions = some x) : Expects g (word ++ [x]) i.advance t
  | inside {word : List Symbol} {outer dot id : Nat} {q p : Production Symbol} {t : Symbol}
      (leads : g.Leads word ⟨outer, dot⟩) (around : g.productions[outer]? = some q)
      (next : q.rhs[dot]? = some p.lhs) (found : g.productions[id]? = some p)
      (first : g.cfg.Begins t (q.rhs.drop (dot + 1))) : Expects g word ⟨id, 0⟩ t
  | tail {word : List Symbol} {outer dot id : Nat} {q p : Production Symbol} {t : Symbol}
      (before : Expects g word ⟨outer, dot⟩ t) (around : g.productions[outer]? = some q)
      (next : q.rhs[dot]? = some p.lhs) (found : g.productions[id]? = some p)
      (gone : g.cfg.Vanishes (q.rhs.drop (dot + 1))) : Expects g word ⟨id, 0⟩ t

theorem Expects.run {id : Nat} {p : Production Symbol} {t : Symbol} {word after u : List Symbol}
    (found : g.productions[id]? = some p) (split : p.rhs = u ++ after) (h : g.Expects word ⟨id, 0⟩ t) :
    g.Expects (word ++ u) ⟨id, u.length⟩ t :=
  shiftRun (R := fun word i => g.Expects word i t) (fun before next => before.shift next) found split h

theorem Expects.back {word : List Symbol} {x t : Symbol} {id dot : Nat}
    (h : g.Expects (word ++ [x]) ⟨id, dot + 1⟩ t) : g.Expects word ⟨id, dot⟩ t := by
  generalize same : word ++ [x] = whole at h
  generalize advanced : (⟨id, dot + 1⟩ : Item) = item at h
  cases h with
  | start => cases advanced
  | @shift word' i x' t before next =>
    obtain ⟨rfl, _⟩ := List.append_inj' same rfl
    cases i
    cases advanced
    exact before
  | inside => cases advanced
  | tail => cases advanced

def Kernel (g : Grammar) (i : Item) : Prop := i.dot ≠ 0 ∨ i.production = g.startProduction

def Invites (g : Grammar) (x : Symbol) (word : List Symbol) (i : Item) : Prop :=
  g.Leads word i ∧ ∃ p, g.productions[i.production]? = some p ∧
    (g.cfg.Begins x (p.rhs.drop i.dot) ∨ g.cfg.Vanishes (p.rhs.drop i.dot) ∧ g.Expects word i x)

/-- Reductions at the end of the word, as many as it takes, lead to a state that shifts the terminal
or accepts in front of it. -/
inductive Takes (g : Grammar) (x : Symbol) : List Symbol → Prop
  | shift {word : List Symbol} {s t : Nat} (walked : g.walk g.lr0States 0 word = .ok s)
      (move : Moves g.lr0States s x t) : Takes g x word
  | accept {word : List Symbol} (last : x = .endOfInput) (complete : g.Leads word ⟨g.startProduction, 1⟩) :
      Takes g x word
  | reduce {word : List Symbol} {id : Nat} {p : Production Symbol} (found : g.productions[id]? = some p)
      (later : Takes g x (word ++ [p.lhs])) : Takes g x (word ++ p.rhs)

theorem dropNext {dot : Nat} {q : Production Symbol} {x : Symbol} (next : q.rhs[dot]? = some x) :
    q.rhs.drop dot = x :: q.rhs.drop (dot + 1) := by
  obtain ⟨bound, here⟩ := List.getElem?_eq_some_iff.1 next
  rw [← here, List.getElem_cons_drop]

section
variable (wf : g.WellFormed)
include wf

theorem Leads.closed {word : List Symbol} {i : Item} {id : Nat} {p : Production Symbol}
    (h : g.Leads word i) (next : i.next? g.productions = some p.lhs)
    (found : g.productions[id]? = some p) : g.Leads word ⟨id, 0⟩ := by
  obtain ⟨s, walked, held⟩ := h
  exact ⟨s, walked, holdsClosed wf held next found⟩

theorem Leads.advance {word : List Symbol} {i : Item} {x : Symbol} (h : g.Leads word i)
    (next : i.next? g.productions = some x) : g.Leads (word ++ [x]) i.advance := by
  obtain ⟨s, walked, held⟩ := h
  obtain ⟨target, move⟩ := movesOfNext wf held next
  exact ⟨target, walkAppend.2 ⟨s, walked, walkSingle.2 move⟩, holdsAdvance wf move held next⟩

theorem Leads.back {word : List Symbol} {id dot : Nat} (h : g.Leads word ⟨id, dot + 1⟩) :
    ∃ u x, word = u ++ [x] ∧ Item.next? g.productions ⟨id, dot⟩ = some x ∧ g.Leads u ⟨id, dot⟩ := by
  obtain ⟨s, walked, held⟩ := h
  rcases List.eq_nil_or_concat word with rfl | ⟨u, x, rfl⟩
  · cases walked
    cases startStateFresh wf held
  · rw [List.concat_eq_append] at walked
    obtain ⟨mid, front, last⟩ := walkAppend.1 walked
    obtain ⟨earlier, next⟩ := holdsBack wf (walkSingle.1 last) held
    exact ⟨u, x, List.concat_eq_append, next, mid, front, earlier⟩

theorem Leads.origin {id : Nat} {p : Production Symbol} (found : g.productions[id]? = some p) :
    ∀ {dot : Nat} {word : List Symbol}, g.Leads word ⟨id, dot⟩ →
      ∃ u, word = u ++ p.rhs.take dot ∧ g.Leads u ⟨id, 0⟩ := by
  intro dot
  induction dot with
  | zero =>
    intro word h
    exact ⟨word, by simp, h⟩
  | succ dot ih =>
    intro word h
    obtain ⟨u, x, rfl, next, earlier⟩ := h.back wf
    obtain ⟨origin, rfl, begun⟩ := ih earlier
    obtain ⟨p', found', here⟩ := Item.nextIff.1 next
    obtain rfl := Option.some.inj (found.symm.trans found')
    refine ⟨origin, ?_, begun⟩
    rw [List.take_add_one, here, Option.toList_some, List.append_assoc]

theorem Leads.notAtStart {word : List Symbol} {x : Symbol} :
    ¬ g.Leads (word ++ [x]) ⟨g.startProduction, 0⟩ := by
  rintro ⟨s, walked, held⟩
  obtain ⟨mid, _, last⟩ := walkAppend.1 walked
  exact movesNotStart wf (walkSingle.1 last) (startStateOnly wf held)

theorem Expects.leads {word : List Symbol} {i : Item} {t : Symbol} (h : g.Expects word i t) :
    g.Leads word i := by
  induction h with
  | start => exact ⟨0, rfl, holdsStart wf⟩
  | shift before next ih => exact ih.advance wf next
  | inside leads around next found first =>
    exact leads.closed wf (Item.nextIff.2 ⟨_, around, next⟩) found
  | tail before around next found gone ih => exact ih.closed wf (Item.nextIff.2 ⟨_, around, next⟩) found

theorem Valid.expects {word : List Symbol} {i : Item} {t : Symbol} (h : g.Valid word i t) :
    g.Expects word i t := by
  induction h with
  | start => exact .start
  | shift before next ih => exact ih.shift next
  | predict before around next found first ih =>
    rcases (Cfg.beginsBefore wf.lhsNonterminal before.terminal).1 (Cfg.beginsIff.2 first) with
      begins | ⟨gone, rfl⟩
    · exact .inside (ih.leads wf) around next found begins
    · exact .tail ih around next found gone

theorem Valid.holds {word : List Symbol} {i : Item} {t : Symbol} (h : g.Valid word i t) :
    ∃ s, g.walk g.lr0States 0 word = .ok s ∧ Holds g.lr0States s i := (h.expects wf).leads wf

theorem Leads.kernelBegins {word : List Symbol} {i : Item} {x : Symbol} {p : Production Symbol}
    (h : g.Leads word i) (found : g.productions[i.production]? = some p)
    (begins : g.cfg.Begins x (p.rhs.drop i.dot)) : ∃ j, g.Kernel j ∧ g.Invites x word j := by
  have climb {kernel : List Item} (all : ∀ j, g.InClosure kernel j → g.Leads word j)
      (roots : ∀ j ∈ kernel, g.Kernel j) {i : Item} (inside : g.InClosure kernel i) :
      ∀ {p : Production Symbol}, g.productions[i.production]? = some p →
        g.cfg.Begins x (p.rhs.drop i.dot) → ∃ j, g.Kernel j ∧ g.Invites x word j := by
    induction inside with
    | kernel h =>
      intro p found begins
      exact ⟨_, roots _ h, all _ (.kernel h), p, found, .inl begins⟩
    | predict before next found ih =>
      intro p' found' begins
      obtain rfl := Option.some.inj (found.symm.trans found')
      obtain ⟨q, around, here⟩ := Item.nextIff.1 next
      refine ih around ?_
      rw [dropNext here]
      exact .inside (List.mem_of_getElem? found) begins
  obtain ⟨s, walked, held⟩ := h
  rcases inClosureOf wf held with ⟨rfl, inside⟩ | ⟨items, y, inside, all⟩
  · refine climb ?_ ?_ inside found begins
    · intro j hj
      exact ⟨0, walked, holdsIff.2 ⟨_, collectionStart, (memCloseItems wf).2 hj⟩⟩
    · intro j hj
      rw [List.mem_singleton.1 hj]
      exact .inr rfl
  · refine climb (fun j hj => ⟨s, walked, all j hj⟩) ?_ inside found begins
    intro j hj
    obtain ⟨k, _, _, rfl⟩ := memMovedItems.1 hj
    exact .inl (Nat.succ_ne_zero _)

theorem Expects.kernelInvites {word : List Symbol} {i : Item} {x : Symbol} (h : g.Expects word i x) :
    ∀ {p : Production Symbol}, g.productions[i.production]? = some p → g.cfg.Vanishes (p.rhs.drop i.dot) →
      ∃ j, g.Kernel j ∧ g.Invites x word j := by
  induction h with
  | start =>
    intro p found gone
    exact ⟨_, .inr rfl, ⟨0, rfl, holdsStart wf⟩, p, found, .inr ⟨gone, .start⟩⟩
  | shift before next ih =>
    intro p found gone
    have expects := before.shift next
    exact ⟨_, .inl (Nat.succ_ne_zero _), expects.leads wf, p, found, .inr ⟨gone, expects⟩⟩
  | inside leads around next found first =>
    intro p' found' gone
    obtain rfl := Option.some.inj (found.symm.trans found')
    have empty : g.cfg.Vanishes [_] := .cons (List.mem_of_getElem? found) gone .nil
    refine leads.kernelBegins wf around ?_
    rw [dropNext next]
    exact .later empty first
  | tail before around next found rest ih =>
    intro p' found' gone
    obtain rfl := Option.some.inj (found.symm.trans found')
    refine ih around ?_
    rw [dropNext next]
    exact .cons (List.mem_of_getElem? found) gone rest

theorem Invites.expects {word : List Symbol} {x : Symbol} {i : Item} {id : Nat} {p : Production Symbol}
    (kernel : g.Kernel i) (h : g.Invites x (word ++ [p.lhs]) i) (found : g.productions[id]? = some p) :
    g.Expects word ⟨id, 0⟩ x := by
  obtain ⟨leads, q, around, rest⟩ := h
  obtain ⟨outer, dot⟩ := i
  cases dot with
  | zero =>
    rcases kernel with moved | start
    · exact absurd rfl moved
    · cases start
      exact absurd leads (Leads.notAtStart wf)
  | succ dot =>
    obtain ⟨u, y, same, next, earlier⟩ := leads.back wf
    obtain ⟨rfl, last⟩ := List.append_inj' same rfl
    obtain rfl := List.singleton_inj.1 last
    obtain ⟨q', around', here⟩ := Item.nextIff.1 next
    obtain rfl := Option.some.inj (around.symm.trans around')
    rcases rest with begins | ⟨gone, expects⟩
    · exact .inside earlier around here found begins
    · exact .tail expects.back around here found gone

theorem acceptExpects {word : List Symbol} (h : g.Leads word ⟨g.startProduction, 1⟩) :
    g.Expects word ⟨g.startProduction, 1⟩ .endOfInput := by
  obtain ⟨u, x, rfl, next, s, walked, held⟩ := h.back wf
  rcases List.eq_nil_or_concat u with rfl | ⟨v, y, rfl⟩
  · exact Expects.start.shift next
  · rw [List.concat_eq_append] at walked
    exact absurd ⟨s, walked, held⟩ (Leads.notAtStart wf)

theorem Takes.invites {x : Symbol} (terminal : isTerminal x = true) {word : List Symbol}
    (h : g.Takes x word) : ∃ i, g.Kernel i ∧ g.Invites x word i := by
  induction h with
  | shift walked move =>
    obtain ⟨i, held, next⟩ := nextOfMoves wf move
    obtain ⟨p, found, here⟩ := Item.nextIff.1 next
    refine Leads.kernelBegins wf ⟨_, walked, held⟩ found ?_
    rw [dropNext here]
    exact .here terminal
  | accept last complete =>
    subst last
    refine ⟨_, .inl Nat.one_ne_zero, complete, _, wf.startProduction, .inr ⟨.nil, ?_⟩⟩
    exact acceptExpects wf complete
  | reduce found later ih =>
    obtain ⟨i, kernel, invites⟩ := ih
    have expects := (invites.expects wf kernel found).run found (List.append_nil _).symm
    refine expects.kernelInvites wf found ?_
    rw [List.drop_length]
    exact .nil

theorem Takes.expects {x : Symbol} (terminal : isTerminal x = true) {word : List Symbol} {id : Nat}
    {p : Production Symbol} (found : g.productions[id]? = some p) (h : g.Takes x (word ++ [p.lhs])) :
    g.Expects (word ++ p.rhs) ⟨id, p.rhs.length⟩ x := by
  obtain ⟨i, kernel, invites⟩ := h.invites wf terminal
  exact (invites.expects wf kernel found).run found (List.append_nil _).symm

end
end Grammar
end ForkingLR
