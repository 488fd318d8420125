import ForkingLR.Proofs.Automaton.Totality

/-! What precedence makes of a table. The actions of a row meet in turn, and the strongest of all wins
unless two of the strongest so far are tied at a level that is not associative. That is asked of every
beginning of the row: a tie counts even where something stronger is listed behind it. -/
namespace ForkingLR

namespace Contender

def strongest (cs : List Contender) : List Contender :=
  cs.filter fun c => cs.all fun d => decide (d.precedence.level ≤ c.precedence.level)

def Tied (cs : List Contender) : Prop :=
  1 < (strongest cs).length ∧ ∀ c ∈ strongest cs, c.precedence.assoc = .nonAssoc

instance : DecidablePred Tied := fun _ => inferInstanceAs (Decidable (_ ∧ _))

inductive Wins (cs : List Contender) : Contender → Prop
  | alone {c : Contender} (only : strongest cs = [c]) : Wins cs c
  | left {c : Contender} (several : 1 < (strongest cs).length)
      (level : ∀ d ∈ strongest cs, d.precedence.assoc = .left)
      (first : (strongest cs).find? (·.action.isReduce) = some c) : Wins cs c
  | right {c : Contender} (several : 1 < (strongest cs).length)
      (level : ∀ d ∈ strongest cs, d.precedence.assoc = .right)
      (shift : ((strongest cs).find? (·.action.isShift)).or (strongest cs).head? = some c) : Wins cs c

def Graded (cs : List Contender) : Prop :=
  ∀ c ∈ cs, ∀ d ∈ cs, c.precedence.level = d.precedence.level → c.precedence.assoc = d.precedence.assoc

variable {cs : List Contender} {c d w : Contender}

theorem memStrongest : c ∈ strongest cs ↔ c ∈ cs ∧ ∀ d ∈ cs, d.precedence.level ≤ c.precedence.level := by
  simp [strongest]

section
variable (top : w ∈ strongest cs)
include top

theorem strongestBefore (below : d.precedence.level ≤ w.precedence.level) :
    (cs.filter fun c => (cs ++ [d]).all fun e => decide (e.precedence.level ≤ c.precedence.level)) =
      strongest cs := by
  refine List.filter_congr fun c _ => ?_
  rw [List.all_append, Bool.and_eq_left_iff_imp]
  intro highest
  have above : w.precedence.level ≤ c.precedence.level := by
    simpa using List.all_eq_true.1 highest w (memStrongest.1 top).1
  simp only [List.all_cons, List.all_nil, Bool.and_true, decide_eq_true_eq]
  omega

theorem strongestBelow (below : d.precedence.level < w.precedence.level) :
    strongest (cs ++ [d]) = strongest cs := by
  have low : ¬ ∀ e ∈ cs ++ [d], e.precedence.level ≤ d.precedence.level := by
    intro high
    have := high w (List.mem_append_left _ (memStrongest.1 top).1)
    omega
  have gone : [d].filter (fun c => (cs ++ [d]).all fun e => decide (e.precedence.level ≤ c.precedence.level)) = [] := by
    simpa [-List.mem_append, -List.all_append] using low
  rw [strongest, List.filter_append, strongestBefore top (Nat.le_of_lt below), gone, List.append_nil]

theorem strongestReached (reached : w.precedence.level ≤ d.precedence.level) :
    [d].filter (fun c => (cs ++ [d]).all fun e => decide (e.precedence.level ≤ c.precedence.level)) = [d] := by
  have high : ∀ e ∈ cs, e.precedence.level ≤ d.precedence.level :=
    fun e inside => Nat.le_trans ((memStrongest.1 top).2 e inside) reached
  simpa using high

theorem strongestEqual (equal : d.precedence.level = w.precedence.level) :
    strongest (cs ++ [d]) = strongest cs ++ [d] := by
  rw [strongest, List.filter_append, strongestBefore top (Nat.le_of_eq equal),
    strongestReached top (Nat.le_of_eq equal.symm)]

theorem strongestAbove (above : w.precedence.level < d.precedence.level) : strongest (cs ++ [d]) = [d] := by
  have none : (cs.filter fun c =>
      (cs ++ [d]).all fun e => decide (e.precedence.level ≤ c.precedence.level)) = [] := by
    refine List.filter_eq_nil_iff.2 fun c inside highest => ?_
    have low := (memStrongest.1 top).2 c inside
    have high := List.all_eq_true.1 highest d (by simp)
    rw [decide_eq_true_eq] at high
    omega
  rw [strongest, List.filter_append, none, strongestReached top (Nat.le_of_lt above), List.nil_append]

end

def pick (assoc : Associativity) (cs : List Contender) : Option Contender :=
  match assoc with
  | .left => (cs.find? (·.action.isReduce)).or cs.head?
  | .right => (cs.find? (·.action.isShift)).or cs.head?
  | .nonAssoc => cs.head?

/-- Where things stand after these have met: `w` is chosen, and no tie has stopped the choice. -/
structure Chosen (cs : List Contender) (w : Contender) : Prop where
  top : w ∈ strongest cs
  picked : pick w.precedence.assoc (strongest cs) = some w
  sole : w.precedence.assoc = .nonAssoc → strongest cs = [w]
  free : ∀ front, front <+: cs → ¬ Tied front

theorem pickSole (assoc : Associativity) (c : Contender) : pick assoc [c] = some c := by
  unfold pick
  split
  · cases kind : c.action.isReduce <;> simp [kind]
  · cases kind : c.action.isShift <;> simp [kind]
  · rfl

theorem findSnoc {p : Contender → Bool} (h : (cs.find? p).or cs.head? = some w) (d : Contender) :
    ((cs ++ [d]).find? p).or (cs ++ [d]).head? = some (if p d && !p w then d else w) := by
  rw [List.find?_append]
  cases found : cs.find? p with
  | some c =>
    obtain rfl : c = w := by simpa [found] using h
    simp [List.find?_some found]
  | none =>
    have first : cs.head? = some w := by simpa [found] using h
    have other : p w = false := by
      simpa using List.find?_eq_none.1 found w (List.mem_of_head? first)
    cases kind : p d <;> simp [kind, other, first]

theorem Chosen.untied (top : w ∈ strongest cs) (sole : w.precedence.assoc = .nonAssoc → strongest cs = [w]) :
    ¬ Tied cs := by
  intro tied
  have alone := sole (tied.2 w top)
  have several := tied.1
  rw [alone] at several
  simp at several

theorem Chosen.snoc (h : Chosen cs w) {w' : Contender} (top : w' ∈ strongest (cs ++ [d]))
    (picked : pick w'.precedence.assoc (strongest (cs ++ [d])) = some w')
    (sole : w'.precedence.assoc = .nonAssoc → strongest (cs ++ [d]) = [w']) : Chosen (cs ++ [d]) w' := by
  refine ⟨top, picked, sole, ?_⟩
  intro front before
  rcases List.prefix_concat_iff.1 before with rfl | before
  · exact Chosen.untied top sole
  · exact h.free front before

theorem chosenFirst (c : Contender) : Chosen [c] c := by
  have only : strongest [c] = [c] := by simp [strongest]
  have sole : c.precedence.assoc = .nonAssoc → strongest [c] = [c] := fun _ => only
  refine ⟨by simp [only], ?_, sole, ?_⟩
  · rw [only]
    exact pickSole _ c
  · intro front before
    have untied := Chosen.untied (w := c) (by simp [only]) sole
    rcases List.prefix_concat_iff.1 (show front <+: [] ++ [c] from before) with rfl | empty
    · exact untied
    · rw [List.prefix_nil.1 empty]
      exact fun tied => by simp [Tied, strongest] at tied

theorem Chosen.joins (h : Chosen cs w) (equal : d.precedence.level = w.precedence.level)
    (assoc : d.precedence.assoc = w.precedence.assoc) (decided : d.precedence.assoc ≠ .nonAssoc)
    {w' : Contender} (either : w' = d ∨ w' = w)
    (picked : pick d.precedence.assoc (strongest cs ++ [d]) = some w') : Chosen (cs ++ [d]) w' := by
  have joined := strongestEqual h.top equal
  have same : w'.precedence.assoc = d.precedence.assoc := by
    rcases either with rfl | rfl
    · rfl
    · exact assoc.symm
  refine h.snoc ?_ ?_ fun lone => absurd (same ▸ lone) decided
  · rw [joined, List.mem_append, List.mem_singleton]
    rcases either with rfl | rfl
    · exact .inr rfl
    · exact .inl h.top
  · rw [same, joined]
    exact picked

theorem Chosen.meets (h : Chosen cs w)
    (alike : d.precedence.level = w.precedence.level → d.precedence.assoc = w.precedence.assoc) :
    (∃ w', duel w d = some w' ∧ Chosen (cs ++ [d]) w') ∨ duel w d = none ∧ Tied (cs ++ [d]) := by
  unfold duel
  split
  · -- The newcomer is stronger than all before it, so it is alone.
    rename_i above
    have only := strongestAbove h.top (Nat.compare_eq_gt.1 above)
    exact .inl ⟨d, rfl, h.snoc (by simp [only]) (by rw [only]; exact pickSole _ d) fun _ => only⟩
  · rename_i below
    have same := strongestBelow h.top (Nat.compare_eq_lt.1 below)
    exact .inl ⟨w, rfl, h.snoc (same ▸ h.top) (same ▸ h.picked) fun lone => same.trans (h.sole lone)⟩
  · -- It joins the strongest, and the level they share says which of them is chosen.
    rename_i equal
    have equal := Nat.compare_eq_eq.1 equal
    have joined := strongestEqual h.top equal
    have assoc := alike equal
    have picked := h.picked
    rw [← assoc] at picked
    split
    · rename_i left
      rw [left] at picked
      exact .inl ⟨_, rfl, h.joins equal assoc (by simp [left]) (by split <;> simp)
        (by rw [left]; exact findSnoc picked d)⟩
    · rename_i right
      rw [right] at picked
      exact .inl ⟨_, rfl, h.joins equal assoc (by simp [right]) (by split <;> simp)
        (by rw [right]; exact findSnoc picked d)⟩
    · rename_i lone
      rw [assoc] at lone
      -- The choice was alone so far, or this tie would have come earlier.
      have sole := h.sole lone
      refine .inr ⟨rfl, ?_, ?_⟩
      · simp [joined, sole]
      · intro c inside
        rw [joined, sole] at inside
        rcases List.mem_cons.1 inside with rfl | inside
        · exact lone
        · rw [List.mem_singleton.1 inside, assoc]
          exact lone

theorem Chosen.run {rest : List Contender} (h : Chosen cs w) (graded : Graded (cs ++ rest)) :
    (∃ w', rest.foldlM duel w = some w' ∧ Chosen (cs ++ rest) w') ∨
      rest.foldlM duel w = none ∧ ∃ front, front <+: cs ++ rest ∧ Tied front := by
  -- The induction is on those still to meet; what is chosen among those before is carried along.
  induction rest generalizing cs w with
  | nil => exact .inl ⟨w, rfl, by simpa using h⟩
  | cons d rest ih =>
    have inside : w ∈ cs ++ d :: rest := List.mem_append_left _ (memStrongest.1 h.top).1
    have shape : cs ++ d :: rest = cs ++ [d] ++ rest := by simp
    rcases h.meets (graded d (by simp) w inside) with ⟨w', won, chosen⟩ | ⟨open_, tied⟩
    · rw [List.foldlM_cons, won, shape]
      exact ih chosen (shape ▸ graded)
    · refine .inr ⟨by rw [List.foldlM_cons, open_]; rfl, cs ++ [d], ?_, tied⟩
      rw [shape]
      exact List.prefix_append _ _

theorem Chosen.wins (h : Chosen cs w) (graded : Graded cs) (distinct : (cs.map action).Nodup)
    (sole : ∀ c ∈ cs, ∀ d ∈ cs, c.action.isReduce = false → d.action.isReduce = false → c.action = d.action) :
    Wins cs w := by
  have alike : ∀ c ∈ strongest cs, c.precedence.assoc = w.precedence.assoc := by
    intro c inside
    obtain ⟨member, high⟩ := memStrongest.1 inside
    obtain ⟨member', high'⟩ := memStrongest.1 h.top
    exact graded c member w member' (Nat.le_antisymm (high' c member) (high w member'))
  have picked := h.picked
  by_cases several : 1 < (strongest cs).length
  · cases assoc : w.precedence.assoc with
    | left =>
      rw [assoc] at picked alike
      refine .left several alike ?_
      cases found : (strongest cs).find? (·.action.isReduce) with
      | some c => simpa [pick, found] using picked
      | none =>
        -- All but one reduce, so several cannot be without a reduction.
        have members : (strongest cs).Sublist cs := List.filter_sublist
        have moves (c : Contender) (inside : c ∈ strongest cs) : c.action.isReduce = false := by
          simpa using List.find?_eq_none.1 found c inside
        have apart := distinct.sublist (members.map action)
        match all : strongest cs with
        | [] => simp [all] at several
        | [c] => simp [all] at several
        | c :: d :: rest =>
          have same := sole c (members.subset (by simp [all])) d (members.subset (by simp [all]))
            (moves c (by simp [all])) (moves d (by simp [all]))
          simp [all, same] at apart
    | right =>
      rw [assoc] at picked alike
      exact .right several alike picked
    | nonAssoc =>
      rw [h.sole assoc] at several
      simp at several
  · refine .alone ?_
    obtain ⟨c, only⟩ := List.length_eq_one_iff.1
      (Nat.le_antisymm (Nat.le_of_not_lt several) (List.length_pos_of_mem h.top))
    have same : w = c := by simpa [only] using h.top
    rw [only, same]

end Contender

namespace Grammar
open Table
variable {g : Grammar} {config : TableConfig} {s t : State} {x : Symbol} {cs : List Contender}

structure Contest (g : Grammar) (s : State) (x : Symbol) (cs : List Contender) : Prop where
  terminal : isTerminal x = true
  several : 1 < (s.actionsOn x).length
  ranked : (s.actionsOn x).mapM (Contender.of? (g.precedence.ofTerminal? x) g.productionPrecedence?) = some cs

structure Decides (g : Grammar) (s t : State) : Prop where
  items : t.items = s.items
  transitions : t.transitions = s.transitions
  contests : ∀ x cs, g.Contest s x cs → ∃ c, Contender.Wins cs c ∧ t.actionsOn x = [c.action]
  others : ∀ x, (∀ cs, ¬ g.Contest s x cs) → t.actionsOn x = s.actionsOn x

theorem Contest.speaks (h : g.Contest s x cs) :
    List.Forall₂ (fun action c =>
      Contender.of? (g.precedence.ofTerminal? x) g.productionPrecedence? action = some c) (s.actionsOn x) cs :=
  Contender.ofRow h.ranked

theorem Contest.actions (h : g.Contest s x cs) : cs.map Contender.action = s.actionsOn x := by
  have same := forallMapEq.2 (h.speaks.imp fun action c own => (Contender.ofAction own).symm)
  rw [← same, List.map_id']

theorem Contest.nonempty (h : g.Contest s x cs) : ∃ first rest, cs = first :: rest := by
  have several := h.several
  rw [← h.actions, List.length_map] at several
  exact List.exists_cons_of_ne_nil (List.ne_nil_of_length_pos (Nat.lt_of_succ_lt several))

theorem Contest.graded (h : g.Contest s x cs) (levels : g.precedence.Graded) : Contender.Graded cs := by
  intro c inside d inside' same
  obtain ⟨_, _, own⟩ := (forallMem h.speaks).2 c inside
  obtain ⟨_, _, own'⟩ := (forallMem h.speaks).2 d inside'
  obtain ⟨y, declared⟩ := speaksDeclared own
  obtain ⟨z, declared'⟩ := speaksDeclared own'
  exact levels.assoc y z _ _ declared declared' same

theorem Contest.settles (h : g.Contest s x cs) (levels : g.precedence.Graded) :
    (∃ w, settleRow? (g.precedence.ofTerminal? x) g.productionPrecedence? (s.actionsOn x) = some [w.action] ∧
        Contender.Chosen cs w) ∨
      settleRow? (g.precedence.ofTerminal? x) g.productionPrecedence? (s.actionsOn x) = none ∧
        ∃ front, front <+: cs ∧ Contender.Tied front := by
  obtain ⟨first, rest, rfl⟩ := h.nonempty
  unfold settleRow?
  rw [h.ranked]
  rcases (Contender.chosenFirst first).run (h.graded levels) with ⟨w, won, chosen⟩ | ⟨lost, tied⟩
  · exact .inl ⟨w, by simp [won], chosen⟩
  · exact .inr ⟨by simp [lost], tied⟩

theorem Contest.settled (h : g.Contest s x cs) (levels : g.precedence.Graded)
    (row : State.Settled g.precedence g.productionPrecedence? s t) :
    ∃ w, t.actionsOn x = [w.action] ∧ Contender.Chosen cs w := by
  have own := row.contested x h.terminal h.several
  rcases h.settles levels with ⟨w, answer, chosen⟩ | ⟨none, _⟩
  · exact ⟨w, Option.some.inj (own.symm.trans answer), chosen⟩
  · rw [none] at own
    cases own

theorem uncontestedSettled (row : State.Settled g.precedence g.productionPrecedence? s t)
    (calm : ∀ cs, ¬ g.Contest s x cs) : t.actionsOn x = s.actionsOn x := by
  by_cases contested : isTerminal x = true ∧ 1 < (s.actionsOn x).length
  · have own := row.contested x contested.1 contested.2
    cases ranked : (s.actionsOn x).mapM (Contender.of? (g.precedence.ofTerminal? x) g.productionPrecedence?) with
    | none => simpa [settleRow?, ranked] using own.symm
    | some cs => exact absurd ⟨contested.1, contested.2, ranked⟩ (calm cs)
  · exact row.others x contested

theorem undeclaredCalm (empty : g.precedence.isEmpty = true) : ¬ g.Contest s x cs := by
  intro contest
  obtain ⟨first, rest, rfl⟩ := contest.nonempty
  obtain ⟨_, _, own⟩ := (forallMem contest.speaks).2 first List.mem_cons_self
  obtain ⟨y, declared⟩ := speaksDeclared own
  have listed := SortedMap.getSomeIff.1 declared
  rw [List.isEmpty_iff.1 empty] at listed
  cases listed

section
variable {states : List State} (looked : Automaton.lookaheadStates g config = .ok states)
include looked

theorem Contest.wins (built : g.Built) {id : Nat} (placed : states[id]? = some s) (h : g.Contest s x cs)
    {w : Contender} (chosen : Contender.Chosen cs w) : Contender.Wins cs w := by
  have wf := built.wellFormed
  refine chosen.wins (h.graded built.graded) (h.actions ▸ lookedNodup wf looked placed x) ?_
  obtain ⟨s₀, placed₀, cut⟩ := lookedSublist looked placed
  have moves {c : Contender} (inside : c ∈ cs) (move : c.action.isReduce = false) :
      ∃ target, c.action = .shift target ∧ Moves g.lr0States id x target := by
    obtain ⟨action, listed, own⟩ := (forallMem h.speaks).2 c inside
    rw [Contender.ofAction own] at move ⊢
    cases (actionsOffered wf placed₀).1 ((cut x).subset listed) with
    | shift _ there => exact ⟨_, rfl, there⟩
    | goto => cases own
    | reduce => cases move
    | accept => cases own
  intro c inside d inside' move move'
  obtain ⟨target, same, there⟩ := moves inside move
  obtain ⟨target', same', there'⟩ := moves inside' move'
  rw [same, same', movesUnique there there']

theorem resolvedDecides (built : g.Built) {after : List State}
    (h : resolveByPrecedence g.symbols g.precedence g.productionPrecedence? states = .ok after) :
    Pointwise (fun _ => g.Decides) states after ∧
      ∀ s ∈ states, ∀ x cs, g.Contest s x cs → ∀ front, front <+: cs → ¬ Contender.Tied front := by
  rcases settledPointwise h with ⟨empty, rfl⟩ | settled
  · constructor
    · refine .refl (fun _ s => ⟨rfl, rfl, ?_, fun _ _ => rfl⟩) _
      exact fun x cs contest => absurd contest (undeclaredCalm empty)
    · exact fun s _ x cs contest => absurd contest (undeclaredCalm empty)
  · have resolved := resolvePointwise h
    refine ⟨⟨settled.1, ?_⟩, ?_⟩
    · intro id s t before after
      have row := settled.2 id s t before after
      have kept := resolved.2 id s t before after
      refine ⟨kept.items, kept.transitions, ?_, fun x => uncontestedSettled row⟩
      intro x cs contest
      obtain ⟨w, answer, chosen⟩ := contest.settled built.graded row
      exact ⟨w, contest.wins looked built before chosen, answer⟩
    · intro s inside x cs contest
      obtain ⟨id, before⟩ := List.mem_iff_getElem?.1 inside
      obtain ⟨t, _, row⟩ := settled.ofBefore before
      obtain ⟨w, _, chosen⟩ := contest.settled built.graded row
      exact chosen.free

theorem precedenceResolves (built : g.Built) :
    ((∃ id name, resolveByPrecedence g.symbols g.precedence g.productionPrecedence? states =
        .error (.nonAssociative id name)) ↔
      ∃ s ∈ states, ∃ x cs, g.Contest s x cs ∧ ∃ front, front <+: cs ∧ Contender.Tied front) ∧
    ((¬ ∃ s ∈ states, ∃ x cs, g.Contest s x cs ∧ ∃ front, front <+: cs ∧ Contender.Tied front) →
      ∃ after, resolveByPrecedence g.symbols g.precedence g.productionPrecedence? states = .ok after ∧
        Pointwise (fun _ => g.Decides) states after) := by
  cases result : resolveByPrecedence g.symbols g.precedence g.productionPrecedence? states with
  | ok after =>
    obtain ⟨decides, free⟩ := resolvedDecides looked built result
    refine ⟨⟨?_, ?_⟩, fun _ => ⟨after, rfl, decides⟩⟩
    · intro h
      obtain ⟨_, _, same⟩ := h
      cases same
    · intro h
      obtain ⟨s, inside, x, cs, contest, front, before, tied⟩ := h
      exact absurd tied (free s inside x cs contest front before)
  | error e =>
    obtain ⟨id, s, x, placed, rfl, terminal, several, fails⟩ := settledFails result
    have inside : s ∈ states := List.mem_of_getElem? placed
    have tied : ∃ s ∈ states, ∃ x cs, g.Contest s x cs ∧ ∃ front, front <+: cs ∧ Contender.Tied front := by
      cases ranked : (s.actionsOn x).mapM (Contender.of? (g.precedence.ofTerminal? x) g.productionPrecedence?) with
      | none => simp [settleRow?, ranked] at fails
      | some cs =>
        have contest : g.Contest s x cs := ⟨terminal, several, ranked⟩
        rcases contest.settles built.graded with ⟨w, answer, _⟩ | ⟨_, tied⟩
        · rw [fails] at answer
          cases answer
        · exact ⟨s, inside, x, cs, contest, tied⟩
    exact ⟨⟨fun _ => tied, fun _ => ⟨id, _, rfl⟩⟩, fun free => absurd tied free⟩

end

def rivals (first second third : String) : Draft :=
  .ofCalls [.declare "s" ["a"], .declare "s" ["b"], .declare "s" ["c"], .declare "a" ["X"], .declare "b" ["X"],
    .declare "c" ["X"], .declarePrecedence .nonAssoc ["N"], .declarePrecedence .left ["M"],
    .setProductionPrecedence 3 first, .setProductionPrecedence 4 second, .setProductionPrecedence 5 third]

theorem rivalsDecided :
    ∃ g states after, (rivals "M" "N" "N").build = .ok g ∧ Automaton.lookaheadStates g {} = .ok states ∧
      resolveByPrecedence g.symbols g.precedence g.productionPrecedence? states = .ok after ∧
      Pointwise (fun _ => g.Decides) states after := by
  have facts : ((rivals "M" "N" "N").build.toOption.any fun g =>
      (Automaton.lookaheadStates g {}).toOption.any fun states =>
        (resolveByPrecedence g.symbols g.precedence g.productionPrecedence? states).isOk) = true := by
    decide +kernel
  obtain ⟨g, built, facts⟩ := okOfAny facts
  obtain ⟨states, looked, facts⟩ := okOfAny facts
  obtain ⟨after, resolved⟩ := okOfIsOk facts
  obtain ⟨refused, decides⟩ := precedenceResolves looked ⟨_, built⟩
  have free := refused.not.1 (by simp [resolved])
  obtain ⟨after, resolved, decided⟩ := decides free
  exact ⟨g, states, after, built, looked, resolved, decided⟩

theorem rivalsRefused :
    ∃ g states, (rivals "N" "N" "M").build = .ok g ∧ Automaton.lookaheadStates g {} = .ok states ∧
      resolveByPrecedence g.symbols g.precedence g.productionPrecedence? states =
        .error (.nonAssociative 4 "EOS") ∧
      ¬ ∃ s ∈ states, ∃ x cs, g.Contest s x cs ∧ Contender.Tied cs := by
  have facts : ((rivals "N" "N" "M").build.toOption.any fun g =>
      (Automaton.lookaheadStates g {}).toOption.any fun states =>
        decide (resolveByPrecedence g.symbols g.precedence g.productionPrecedence? states =
          .error (.nonAssociative 4 "EOS")) &&
        states.all fun s => s.contested.all fun row =>
          (row.2.mapM (Contender.of? (g.precedence.ofTerminal? row.1) g.productionPrecedence?)).all fun cs =>
            !decide (Contender.Tied cs)) = true := by
    decide +kernel
  obtain ⟨g, built, facts⟩ := okOfAny facts
  obtain ⟨states, looked, facts⟩ := okOfAny facts
  rw [Bool.and_eq_true, decide_eq_true_eq] at facts
  obtain ⟨refused, calm⟩ := facts
  refine ⟨g, states, built, looked, refused, ?_⟩
  intro h
  obtain ⟨s, inside, x, cs, contest, tied⟩ := h
  have row := List.all_eq_true.1 (List.all_eq_true.1 calm s inside) (x, s.actionsOn x)
    (State.memContested.2 ⟨contest.terminal, contest.several, rfl⟩)
  simp [contest.ranked, tied] at row

end Grammar
end ForkingLR
