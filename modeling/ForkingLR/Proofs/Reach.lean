import ForkingLR.Reach
import Mathlib.Data.List.Perm.Subperm

/-! Exploration finds exactly what its roots lead to once its fuel covers a set that no step
leaves, and repetition ends in a fixed point once its fuel covers every fact it could learn. -/
namespace ForkingLR

theorem eraseDupsNodup {α : Type} [DecidableEq α] (l : List α) : l.eraseDups.Nodup := by
  induction len : l.length using Nat.strongRecOn generalizing l with
  | ind n ih =>
    cases l with
    | nil => simp
    | cons a l =>
      subst len
      rw [List.eraseDups_cons, List.nodup_cons]
      have shorter : (l.filter fun b => !b == a).length < (a :: l).length := by
        rw [List.length_cons]
        exact Nat.lt_succ_of_le (List.length_filter_le _ _)
      exact ⟨by simp [List.mem_eraseDups], ih _ shorter _ rfl⟩

namespace Reach
variable {α : Type}

inductive Reachable (next : α → List α) (roots : List α) : α → Prop
  | root {a : α} (h : a ∈ roots) : Reachable next roots a
  | edge {a b : α} (before : Reachable next roots a) (h : b ∈ next a) : Reachable next roots b

variable [DecidableEq α] {next : α → List α}

theorem memDiscovered {seen frontier : List α} {b : α} :
    b ∈ discovered next seen frontier ↔ (∃ a ∈ frontier, b ∈ next a) ∧ b ∉ seen := by
  simp [discovered, List.mem_eraseDups]

theorem exploreSound {roots : List α} {fuel : Nat} {done frontier : List α} {x : α}
    (reached : ∀ a ∈ done ++ frontier, Reachable next roots a)
    (h : x ∈ explore next fuel done frontier) : Reachable next roots x := by
  induction fuel generalizing done frontier with
  | zero => exact reached x h
  | succ fuel ih =>
    unfold explore at h
    split at h
    · exact reached x h
    · refine ih ?_ h
      intro a ha
      rcases List.mem_append.1 ha with ha | ha
      · exact reached a ha
      · obtain ⟨⟨b, hb, step⟩, _⟩ := memDiscovered.1 ha
        exact .edge (reached b (List.mem_append_right _ hb)) step

theorem explorePrefix (fuel : Nat) (done frontier : List α) :
    done ++ frontier <+: explore next fuel done frontier := by
  induction fuel generalizing done frontier with
  | zero => exact List.prefix_rfl
  | succ fuel ih =>
    unfold explore
    split
    · exact List.prefix_rfl
    · exact (List.prefix_append _ _).trans (ih _ _)

theorem exploreNodup {fuel : Nat} {done frontier : List α} (nodup : (done ++ frontier).Nodup) :
    (explore next fuel done frontier).Nodup := by
  induction fuel generalizing done frontier with
  | zero => exact nodup
  | succ fuel ih =>
    unfold explore
    split
    · exact nodup
    · refine ih (List.nodup_append.2 ⟨nodup, eraseDupsNodup _, ?_⟩)
      intro a ha b hb same
      exact (memDiscovered.1 hb).2 (same ▸ ha)

/-- What the exploration without a bound ends with: levels are added until one is empty. -/
inductive Exhausts (next : α → List α) : List α → List α → List α → Prop
  | stop {done frontier : List α} (nothing : discovered next (done ++ frontier) frontier = []) :
      Exhausts next done frontier (done ++ frontier)
  | level {done frontier all : List α} (something : discovered next (done ++ frontier) frontier ≠ [])
      (rest : Exhausts next (done ++ frontier) (discovered next (done ++ frontier) frontier) all) :
      Exhausts next done frontier all

theorem Exhausts.closed {done frontier all : List α} (h : Exhausts next done frontier all)
    (expanded : ∀ a ∈ done, next a ⊆ done ++ frontier) : ∀ a ∈ all, next a ⊆ all := by
  have covered {done frontier : List α} (expanded : ∀ a ∈ done, next a ⊆ done ++ frontier) {a b : α}
      (ha : a ∈ done ++ frontier) (hb : b ∈ next a) :
      b ∈ done ++ frontier ++ discovered next (done ++ frontier) frontier := by
    by_cases known : b ∈ done ++ frontier
    · exact List.mem_append_left _ known
    · rcases List.mem_append.1 ha with ha | ha
      · exact List.mem_append_left _ (expanded a ha hb)
      · exact List.mem_append_right _ (memDiscovered.2 ⟨⟨a, ha, hb⟩, known⟩)
  induction h with
  | stop nothing =>
    intro a ha b hb
    simpa [nothing] using covered expanded ha hb
  | level _ _ ih => exact ih fun a ha b hb => covered expanded ha hb

-- Every level but the last adds a node, so fuel and size together have to cover `all`.
theorem exploreExhausts {all : List α} {fuel : Nat} {done frontier : List α}
    (inside : done ++ frontier ⊆ all) (stays : ∀ a ∈ all, next a ⊆ all)
    (nodup : (done ++ frontier).Nodup) (enough : all.length ≤ fuel + (done ++ frontier).length) :
    Exhausts next done frontier (explore next fuel done frontier) := by
  induction fuel generalizing done frontier with
  | zero =>
    have perm : (done ++ frontier).Perm all :=
      (List.subperm_of_subset nodup inside).perm_of_length_le (by simpa using enough)
    refine .stop (List.eq_nil_iff_forall_not_mem.2 fun b found => ?_)
    obtain ⟨⟨a, ha, hb⟩, new⟩ := memDiscovered.1 found
    exact new (perm.mem_iff.2 (stays a (inside (List.mem_append_right _ ha)) hb))
  | succ fuel ih =>
    unfold explore
    split
    · rename_i nothing
      exact .stop nothing
    · rename_i something
      refine .level something (ih ?_ ?_ ?_)
      · intro b hb
        rcases List.mem_append.1 hb with hb | hb
        · exact inside hb
        · obtain ⟨⟨a, ha, step⟩, _⟩ := memDiscovered.1 hb
          exact stays a (inside (List.mem_append_right _ ha)) step
      · refine List.nodup_append.2 ⟨nodup, eraseDupsNodup _, ?_⟩
        intro a ha b hb same
        exact (memDiscovered.1 hb).2 (same ▸ ha)
      · have grows := List.length_pos_iff.2 something
        rw [List.length_append]
        omega

theorem closureNodup (bound : Nat) (roots : List α) : (closure next bound roots).Nodup :=
  exploreNodup (by simpa using eraseDupsNodup roots)

theorem closureRoot (bound : Nat) (a : α) : (closure next bound [a])[0]? = some a := by
  have begins : [a] <+: explore next bound [] [a] := explorePrefix bound [] [a]
  obtain ⟨rest, shape⟩ := begins
  have single : [a].eraseDups = [a] := by simp [List.eraseDups_cons]
  simp [closure, single, ← shape]

section
variable (all : List α) {roots : List α} {bound : Nat} (inside : roots ⊆ all)
  (stays : ∀ a ∈ all, next a ⊆ all) (enough : all.length ≤ bound)
include inside stays enough

theorem closureExhausts : Exhausts next [] roots.eraseDups (closure next bound roots) := by
  refine exploreExhausts ?_ stays (by simpa using eraseDupsNodup roots) (by omega)
  intro a ha
  exact inside (List.mem_eraseDups.1 (by simpa using ha))

theorem closureExact {x : α} : x ∈ closure next bound roots ↔ Reachable next roots x := by
  constructor
  · refine exploreSound fun a ha => .root ?_
    simpa [List.mem_eraseDups] using ha
  · intro h
    have closed := (closureExhausts all inside stays enough).closed nofun
    induction h with
    | root h =>
      exact (explorePrefix bound [] roots.eraseDups).subset (by simpa [List.mem_eraseDups] using h)
    | edge before h ih => exact closed _ ih h

end

end Reach

inductive Repeats {α : Type} (pass : α → α) : α → α → Prop
  | stop {a : α} (fixed : pass a = a) : Repeats pass a a
  | again {a b : α} (moved : pass a ≠ a) (rest : Repeats pass (pass a) b) : Repeats pass a b

theorem stabiliseRepeats {α : Type} [DecidableEq α] {pass : α → α} {fuel : Nat} {a : α}
    (fixed : pass (stabilise pass fuel a) = stabilise pass fuel a) :
    Repeats pass a (stabilise pass fuel a) := by
  induction fuel generalizing a with
  | zero => exact .stop fixed
  | succ fuel ih =>
    simp only [stabilise] at fixed ⊢
    split
    · rename_i still
      exact .stop still
    · rename_i moved
      rw [if_neg moved] at fixed
      exact .again moved (ih fixed)

theorem stabiliseFixed {α β : Type} [DecidableEq α] {pass : α → α} {facts : α → List β}
    {all : List β} {Good : α → Prop} (nodup : ∀ a, (facts a).Nodup)
    (determined : ∀ a b, (∀ f, f ∈ facts a ↔ f ∈ facts b) → a = b)
    (grows : ∀ a, Good a → facts a ⊆ facts (pass a)) (keeps : ∀ a, Good a → Good (pass a))
    (inside : ∀ a, Good a → facts a ⊆ all) (fuel : Nat) {a : α} (good : Good a)
    (enough : all.length < fuel + (facts a).length) :
    Good (stabilise pass fuel a) ∧ pass (stabilise pass fuel a) = stabilise pass fuel a := by
  have bounded (b : α) (h : Good b) : (facts b).length ≤ all.length :=
    (List.subperm_of_subset (nodup b) (inside b h)).length_le
  induction fuel generalizing a with
  | zero => exact absurd enough (by simpa using bounded a good)
  | succ fuel ih =>
    simp only [stabilise]
    split
    · rename_i fixed
      exact ⟨good, fixed⟩
    · rename_i moved
      refine ih (keeps a good) ?_
      have more : (facts a).length ≠ (facts (pass a)).length := by
        intro same
        have perm : (facts a).Perm (facts (pass a)) :=
          (List.subperm_of_subset (nodup a) (grows a good)).perm_of_length_le (by omega)
        exact moved (determined _ _ fun f => perm.symm.mem_iff)
      have less := (List.subperm_of_subset (nodup a) (grows a good)).length_le
      omega

end ForkingLR
