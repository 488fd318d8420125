import ForkingLR.Proofs.Cfg.First

/-! The follow sets are exact, by the same argument as the first sets: what a production adds is
what the rules derive from it. -/
namespace ForkingLR

namespace Cfg
variable {σ : Type} [Ord σ] [Std.TransOrd σ] [GrammarSymbol σ] {g : Cfg σ}

def followFacts (g : Cfg σ) : List (σ × Option σ) :=
  (g.start.toList ++ g.productions.flatMap Production.rhs).flatMap fun x =>
    (x, none) :: (x, some g.endMarker) :: g.terminals.toList.map fun a => (x, some a)

theorem followFactsLength (g : Cfg σ) : g.followFacts.length < g.followBound := by
  rw [followFacts, flatMapLength (g.terminals.size + 2) (by simp [SortedSet.size]), followBound,
    List.length_append, Nat.lt_succ_iff]
  refine Nat.mul_le_mul_right _ ?_
  have single : g.start.toList.length ≤ 1 := by cases g.start <;> simp
  omega

structure FollowSound (g : Cfg σ) (t : SetTable σ) : Prop where
  members : ∀ x a, a ∈ t.getD x ∅ → g.Follows x a
  listed : ∀ x, (t.get? x).isSome = true → x ∈ g.start.toList ++ g.productions.flatMap Production.rhs
  start : ∀ s, g.start = some s → g.endMarker ∈ t.getD s ∅

variable [Std.LawfulEqOrd σ]

theorem Follows.known {x a : σ} (h : g.Follows x a) : a = g.endMarker ∨ a ∈ g.terminals := by
  induction h with
  | start => exact .inl rfl
  | @inside p before after x a h placed next =>
    right
    rcases next.listed with here | listed
    · exact memCfgTerminals.2 ⟨next.terminal, p, h, by simp [placed, here]⟩
    · exact listed
  | tail _ _ _ _ ih => exact ih

theorem FollowSound.inside {t : SetTable σ} (sound : g.FollowSound t) :
    SetTable.facts t ⊆ g.followFacts := by
  intro f h
  refine List.mem_flatMap.2 ?_
  rcases f with ⟨x, none | a⟩
  · rw [SetTable.factListed] at h
    exact ⟨x, sound.listed x h, by simp⟩
  · rw [SetTable.factMember] at h
    refine ⟨x, sound.listed x (SetTable.listedOfMember h), ?_⟩
    have known : a = g.endMarker ∨ a ∈ g.terminals := (sound.members x a h).known
    simpa [← SortedSet.memIff] using known

variable [DecidableEq σ]

omit [Std.LawfulEqOrd σ] [GrammarSymbol σ] in
def followSeed (g : Cfg σ) : SetTable σ :=
  match g.start with
  | some s => SetTable.extend ∅ s (SortedSet.ofList [g.endMarker])
  | none => ∅

theorem followStart (g : Cfg σ) : g.FollowSound g.followSeed := by
  unfold followSeed
  cases start : g.start with
  | none =>
    refine ⟨fun x a h => ?_, fun x h => ?_, fun s h => ?_⟩
    · simp [SortedMap.getDOfGet, SortedMap.getEmpty] at h
    · simp [SortedMap.getEmpty] at h
    · simp [start] at h
  | some s =>
    refine ⟨fun x a h => ?_, fun x h => ?_, fun s' h => ?_⟩
    · rcases SetTable.memExtend.1 h with known | ⟨rfl, only⟩
      · simp [SortedMap.getDOfGet, SortedMap.getEmpty] at known
      · obtain rfl : a = g.endMarker := by simpa using only
        exact .start start
    · rcases SetTable.listedExtend.1 h with known | rfl
      · simp [SortedMap.getEmpty] at known
      · simp [start]
    · obtain rfl : s = s' := by simpa [start] using h
      exact SetTable.memExtend.2 (.inr ⟨rfl, by simp⟩)

theorem FirstTable.Exact.trailer {firsts : FirstTable σ} (exact : firsts.Exact g) {x a : σ}
    {trailer : SortedSet σ} :
    a ∈ trailerBefore firsts x trailer ↔ g.Begins a [x] ∨ g.Vanishes [x] ∧ a ∈ trailer := by
  rw [← exact.terminals, ← exact.epsilon]
  unfold trailerBefore
  by_cases terminal : isTerminal x = true
  · simp [FirstTable.firstOf, terminal]
  · by_cases vanishes : x ∈ firsts.nullable
    · simp [FirstTable.firstOf, terminal, vanishes, or_comm]
    · simp [FirstTable.firstOf, terminal, vanishes]

theorem FirstTable.Exact.followRhs {firsts : FirstTable σ} (exact : firsts.Exact g) (t : SetTable σ)
    (outer : SortedSet σ) (u : List σ) :
    (∀ a, a ∈ (followRhs firsts u (t, outer)).2 ↔ g.Begins a u ∨ g.Vanishes u ∧ a ∈ outer) ∧
    (∀ x a, a ∈ (followRhs firsts u (t, outer)).1.getD x ∅ ↔ a ∈ t.getD x ∅ ∨
      ∃ before after, u = before ++ x :: after ∧ (g.Begins a after ∨ g.Vanishes after ∧ a ∈ outer)) ∧
    ∀ x, ((followRhs firsts u (t, outer)).1.get? x).isSome = true ↔ (t.get? x).isSome = true ∨ x ∈ u := by
  induction u with
  | nil =>
    refine ⟨fun a => ?_, fun x a => ?_, fun x => ?_⟩
    · have nothing : ¬ g.Begins a [] := nofun
      simp [Cfg.followRhs, nothing, Vanishes.nil]
    · simp [Cfg.followRhs]
    · simp [Cfg.followRhs]
  | cons y u ih =>
    obtain ⟨trailer, members, listed⟩ := ih
    refine ⟨fun a => ?_, fun x a => ?_, fun x => ?_⟩
    · show a ∈ trailerBefore firsts y (Cfg.followRhs firsts u (t, outer)).2 ↔ _
      rw [exact.trailer, trailer, show y :: u = [y] ++ u from rfl, beginsAppend, vanishesAppend]
      tauto
    · show a ∈ (SetTable.extend (Cfg.followRhs firsts u (t, outer)).1 y
        (Cfg.followRhs firsts u (t, outer)).2).getD x ∅ ↔ _
      rw [SetTable.memExtend, members, trailer]
      constructor
      · rintro ((known | ⟨before, after, rfl, next⟩) | ⟨rfl, next⟩)
        · exact .inl known
        · exact .inr ⟨y :: before, after, rfl, next⟩
        · exact .inr ⟨[], u, rfl, next⟩
      · rintro (known | ⟨before, after, placed, next⟩)
        · exact .inl (.inl known)
        · cases before with
          | nil =>
            cases placed
            exact .inr ⟨rfl, next⟩
          | cons z before =>
            cases placed
            exact .inl (.inr ⟨before, after, rfl, next⟩)
    · show ((SetTable.extend (Cfg.followRhs firsts u (t, outer)).1 y
        (Cfg.followRhs firsts u (t, outer)).2).get? x).isSome = true ↔ _
      rw [SetTable.listedExtend, listed, List.mem_cons]
      tauto

def followLearn (firsts : FirstTable σ) (t : SetTable σ) (p : Production σ) : SetTable σ :=
  (followRhs firsts p.rhs (t, t.getD p.lhs ∅)).1

section
variable {firsts : FirstTable σ} (exact : firsts.Exact g)
include exact

theorem followGrows (t : SetTable σ) (p : Production σ) :
    SetTable.facts t ⊆ SetTable.facts (followLearn firsts t p) := by
  obtain ⟨_, members, listed⟩ := exact.followRhs t (t.getD p.lhs ∅) p.rhs
  rintro ⟨x, none | a⟩ h
  · rw [SetTable.factListed] at h ⊢
    exact (listed x).2 (.inl h)
  · rw [SetTable.factMember] at h ⊢
    exact (members x a).2 (.inl h)

theorem FollowSound.learn {t : SetTable σ} (sound : g.FollowSound t) {p : Production σ}
    (h : p ∈ g.productions) : g.FollowSound (followLearn firsts t p) := by
  obtain ⟨_, members, listed⟩ := exact.followRhs t (t.getD p.lhs ∅) p.rhs
  refine ⟨fun x a inside => ?_, fun x inside => ?_,
    fun s start => (members _ _).2 (.inl (sound.start s start))⟩
  · rcases (members x a).1 inside with known | ⟨before, after, placed, next | ⟨gone, outer⟩⟩
    · exact sound.members x a known
    · exact .inside h placed next
    · exact .tail h placed gone (sound.members _ a outer)
  · rcases (listed x).1 inside with known | new
    · exact sound.listed x known
    · exact List.mem_append_right _ (List.mem_flatMap.2 ⟨p, h, new⟩)

theorem FollowSound.complete {t : SetTable σ} (sound : g.FollowSound t)
    (fixed : ∀ p ∈ g.productions, followLearn firsts t p = t) {x a : σ} (h : g.Follows x a) :
    a ∈ t.getD x ∅ := by
  have closed {p : Production σ} {before after : List σ} {x a : σ} (h : p ∈ g.productions)
      (placed : p.rhs = before ++ x :: after)
      (next : g.Begins a after ∨ g.Vanishes after ∧ a ∈ t.getD p.lhs ∅) : a ∈ t.getD x ∅ := by
    have learned := ((exact.followRhs t (t.getD p.lhs ∅) p.rhs).2.1 x a).2
      (.inr ⟨before, after, placed, next⟩)
    rwa [show (followRhs firsts p.rhs (t, t.getD p.lhs ∅)).1 = t from fixed p h] at learned
  induction h with
  | start h => exact sound.start _ h
  | inside h placed next => exact closed h placed (.inl next)
  | tail h placed gone _ ih => exact closed h placed (.inr ⟨gone, ih⟩)

end

section
variable (nonterminals : ∀ p ∈ g.productions, isTerminal p.lhs = false)
include nonterminals

theorem followTableFixed :
    g.FollowSound (g.followTable g.firstTable) ∧
      followPass g.firstTable g.productions (g.followTable g.firstTable) = g.followTable g.firstTable := by
  have exact := firstTableExact nonterminals
  exact stabiliseFixed SetTable.factsNodup (fun _ _ => SetTable.factsDetermine)
    (fun t _ => (foldlIncludes (followGrows exact) g.productions t).1)
    (fun t sound => List.foldlRecOn _ _ sound fun _ sound _ h => sound.learn exact h)
    (fun _ sound => sound.inside) g.followBound (followStart g)
    (Nat.lt_add_right _ g.followFactsLength)

theorem followTableRepeats :
    Repeats (followPass g.firstTable g.productions) g.followSeed (g.followTable g.firstTable) :=
  stabiliseRepeats (followTableFixed nonterminals).2

theorem followTableExact {x a : σ} : a ∈ g.follow x ↔ g.Follows x a := by
  have exact := firstTableExact nonterminals
  obtain ⟨sound, fixed⟩ := followTableFixed nonterminals
  have closed := foldlFixed (fun _ _ => SetTable.factsDetermine) (followGrows exact) fixed
  exact ⟨sound.members x a, sound.complete exact closed⟩

end

end Cfg
end ForkingLR
