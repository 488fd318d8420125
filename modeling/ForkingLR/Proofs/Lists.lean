import Mathlib.Data.List.Forall2

/-! Lists taken element by element: related lists, lists with elements left out, computations over a
list that can fail, and folds that only ever add. -/
namespace ForkingLR

/-- The second list stands for the first, element by element; only elements with `P` are left out. -/
inductive Thins {α β : Type} (R : α → β → Prop) (P : α → Prop) : List α → List β → Prop
  | nil : Thins R P [] []
  | keep {a : α} {b : β} {k : List α} {l : List β} (pair : R a b) (rest : Thins R P k l) :
      Thins R P (a :: k) (b :: l)
  | drop {a : α} {k : List α} {l : List β} (gone : P a) (rest : Thins R P k l) : Thins R P (a :: k) l

section
variable {α β : Type} {R : α → β → Prop} {P : α → Prop} {k k' : List α} {l l' : List β}

theorem Thins.length (h : Thins R P k l) : l.length ≤ k.length := by
  induction h with
  | nil => exact Nat.le_refl _
  | keep _ _ ih => exact Nat.succ_le_succ ih
  | drop _ _ ih => exact Nat.le_succ_of_le ih

theorem Thins.append (h : Thins R P k l) (h' : Thins R P k' l') : Thins R P (k ++ k') (l ++ l') := by
  induction h with
  | nil => exact h'
  | keep pair _ ih => exact .keep pair ih
  | drop gone _ ih => exact .drop gone ih

theorem Thins.allGone (h : Thins R P k []) : ∀ a ∈ k, P a := by
  generalize empty : [] = l at h
  induction h with
  | nil => exact nofun
  | keep => cases empty
  | drop gone _ ih => exact List.forall_mem_cons.2 ⟨gone, ih empty⟩

theorem thinsOfForall (h : List.Forall₂ R k l) : Thins R P k l := by
  induction h with
  | nil => exact .nil
  | cons pair _ ih => exact .keep pair ih

theorem thinsOfSublist {l : List α} (h : l.Sublist k) (distinct : k.Nodup)
    (gone : ∀ a ∈ k, a ∉ l → P a) : Thins (· = ·) P k l := by
  induction h with
  | slnil => exact .nil
  | @cons l k a sub ih =>
    obtain ⟨new, distinct⟩ := List.nodup_cons.1 distinct
    have rest := ih distinct fun b inside out => gone b (List.mem_cons_of_mem _ inside) out
    exact .drop (gone a List.mem_cons_self fun inside => new (sub.subset inside)) rest
  | @cons_cons l k a sub ih =>
    obtain ⟨new, distinct⟩ := List.nodup_cons.1 distinct
    refine .keep rfl (ih distinct fun b inside out => gone b (List.mem_cons_of_mem _ inside) ?_)
    rintro (_ | ⟨_, there⟩)
    · exact new inside
    · exact out there

end

theorem pairPlaced {α : Type} {l : List α} {a b : α} (left : a ∈ l) (right : b ∈ l) (different : a ≠ b) :
    [a, b].Sublist l ∨ [b, a].Sublist l := by
  induction l with
  | nil => cases left
  | cons c l ih =>
    rcases List.mem_cons.1 left with rfl | left'
    · have later := (List.mem_cons.1 right).resolve_left (Ne.symm different)
      exact .inl ((List.singleton_sublist.2 later).cons_cons _)
    · rcases List.mem_cons.1 right with rfl | right'
      · exact .inr ((List.singleton_sublist.2 left').cons_cons _)
      · exact (ih left' right').imp (·.cons _) (·.cons _)

theorem pairOnce {α : Type} {l : List α} {a b : α} (distinct : l.Nodup) (placed : [a, b].Sublist l) :
    ¬ [b, a].Sublist l := by
  induction l with
  | nil => cases placed
  | cons c l ih =>
    obtain ⟨new, distinct⟩ := List.nodup_cons.1 distinct
    intro back
    cases placed with
    | cons _ placed =>
      cases back with
      | cons _ back => exact ih distinct placed back
      | cons_cons => exact new (placed.subset (by simp))
    | cons_cons _ placed =>
      cases back with
      | cons _ back => exact new (back.subset (by simp))
      | cons_cons _ back => exact new (back.subset (by simp))

theorem placedAppend {α : Type} {u v before after : List α} {x : α} (h : u ++ v = before ++ x :: after) :
    (∃ rest, u = before ++ x :: rest ∧ after = rest ++ v) ∨
      ∃ front, v = front ++ x :: after ∧ before = u ++ front := by
  rcases List.append_eq_append_iff.1 h with ⟨front, joined, placed⟩ | ⟨back, joined, placed⟩
  · exact .inr ⟨front, placed, joined⟩
  · cases back with
    | nil => exact .inr ⟨[], placed.symm, by simpa using joined.symm⟩
    | cons y back =>
      cases placed
      exact .inl ⟨back, joined, rfl⟩

theorem forallSplit {α β : Type} {R : α → β → Prop} {k k' : List α} {l : List β}
    (h : List.Forall₂ R (k ++ k') l) :
    ∃ front back, List.Forall₂ R k front ∧ List.Forall₂ R k' back ∧ l = front ++ back := by
  induction k generalizing l with
  | nil => exact ⟨[], l, .nil, h, rfl⟩
  | cons a k ih =>
    cases h with
    | @cons _ b _ l first rest =>
      obtain ⟨front, back, left, right, rfl⟩ := ih rest
      exact ⟨b :: front, back, .cons first left, right, rfl⟩

theorem forallMem {α β : Type} {R : α → β → Prop} {l : List α} {r : List β}
    (h : List.Forall₂ R l r) :
    (∀ a ∈ l, ∃ b ∈ r, R a b) ∧ ∀ b ∈ r, ∃ a ∈ l, R a b := by
  induction h with
  | nil => exact ⟨nofun, nofun⟩
  | cons first _ ih =>
    constructor
    · rintro a (_ | ⟨_, inside⟩)
      · exact ⟨_, List.mem_cons_self, first⟩
      · obtain ⟨b, there, related⟩ := ih.1 a inside
        exact ⟨b, List.mem_cons_of_mem _ there, related⟩
    · rintro b (_ | ⟨_, inside⟩)
      · exact ⟨_, List.mem_cons_self, first⟩
      · obtain ⟨a, there, related⟩ := ih.2 b inside
        exact ⟨a, List.mem_cons_of_mem _ there, related⟩

theorem forallAt {α β : Type} {R : α → β → Prop} {l : List α} {r : List β} (h : List.Forall₂ R l r) {i : Nat}
    {a : α} (found : l[i]? = some a) : ∃ b, r[i]? = some b ∧ R a b := by
  obtain ⟨bound, rfl⟩ := List.getElem?_eq_some_iff.1 found
  have bound' : i < r.length := h.length_eq ▸ bound
  exact ⟨_, List.getElem?_eq_getElem bound', h.get bound bound'⟩

theorem forallJoin {α β γ : Type} {R : α → γ → Prop} {S : β → γ → Prop} {k : List α} {m : List γ}
    (one : List.Forall₂ R k m) {l : List β} (two : List.Forall₂ S l m) :
    List.Forall₂ (fun a b => ∃ c, R a c ∧ S b c) k l := by
  induction one generalizing l with
  | nil =>
    cases two
    exact .nil
  | cons first _ ih =>
    cases two with
    | cons second rest => exact .cons ⟨_, first, second⟩ (ih rest)

theorem forallNodup {α β : Type} {R : α → β → Prop} {l : List α} {r : List β} (h : List.Forall₂ R l r)
    (unique : ∀ {a b b'}, R a b → R a b' → b = b') (distinct : r.Nodup) : l.Nodup := by
  induction h with
  | nil => exact List.nodup_nil
  | @cons a b l r here others ih =>
    obtain ⟨new, distinct⟩ := List.nodup_cons.1 distinct
    refine List.nodup_cons.2 ⟨fun again => ?_, ih distinct⟩
    obtain ⟨b', inside, there⟩ := (forallMem others).1 a again
    exact new (unique here there ▸ inside)

theorem forallExists {α β : Type} {R : α → β → Prop} {l : List α} (h : ∀ a ∈ l, ∃ b, R a b) :
    ∃ r, List.Forall₂ R l r := by
  induction l with
  | nil => exact ⟨[], .nil⟩
  | cons a l ih =>
    obtain ⟨first, rest⟩ := List.forall_mem_cons.1 h
    obtain ⟨b, related⟩ := first
    obtain ⟨r, others⟩ := ih rest
    exact ⟨b :: r, .cons related others⟩

theorem forallCongr {α β : Type} {R S : α → β → Prop} {l : List α} {r : List β}
    (h : ∀ a ∈ l, ∀ b ∈ r, R a b ↔ S a b) : List.Forall₂ R l r ↔ List.Forall₂ S l r := by
  rw [List.forall₂_iff_get, List.forall₂_iff_get]
  refine and_congr_right fun _ => forall_congr' fun i => forall_congr' fun bound => ?_
  exact forall_congr' fun bound' => h _ (List.get_mem l ⟨i, bound⟩) _ (List.get_mem r ⟨i, bound'⟩)

theorem forallMapEq {α β γ : Type} {f : α → γ} {f' : β → γ} {l : List α} {r : List β} :
    l.map f = r.map f' ↔ List.Forall₂ (fun a b => f a = f' b) l r := by
  rw [← List.forall₂_eq_eq_eq, List.forall₂_map_left_iff, List.forall₂_map_right_iff]

theorem mapMIff {α β ε : Type} {f : α → Except ε β} {l : List α} {r : List β} :
    l.mapM f = .ok r ↔ List.Forall₂ (fun a b => f a = .ok b) l r := by
  induction l generalizing r with
  | nil =>
    rw [List.forall₂_nil_left_iff]
    exact ⟨fun h => by cases h; rfl, fun h => by rw [h]; rfl⟩
  | cons a l ih =>
    rw [List.mapM_cons, List.forall₂_cons_left_iff]
    cases first : f a with
    | error e => simp [bind, Except.bind]
    | ok b =>
      cases later : l.mapM f with
      | error e =>
        simp only [bind, Except.bind, reduceCtorEq, Except.ok.injEq, false_iff, not_exists, not_and]
        rintro b rest rfl all rfl
        rw [ih.2 all] at later
        contradiction
      | ok rest =>
        simp only [bind, Except.bind, pure, Except.pure, Except.ok.injEq, ← ih, later]
        constructor
        · rintro rfl
          exact ⟨b, rest, rfl, rfl, rfl⟩
        · rintro ⟨_, _, rfl, rfl, rfl⟩
          rfl

theorem mapMExists {α β ε : Type} {f : α → Except ε β} {l : List α}
    (h : ∀ a ∈ l, ∃ b, f a = .ok b) : ∃ r, l.mapM f = .ok r :=
  (forallExists h).imp fun _ => mapMIff.2

theorem mapMError {α β ε : Type} {f : α → Except ε β} {l : List α} {e : ε} (h : l.mapM f = .error e) :
    ∃ a ∈ l, f a = .error e := by
  induction l with
  | nil => cases h
  | cons a l ih =>
    rw [List.mapM_cons] at h
    cases first : f a with
    | error e' =>
      simp only [first, bind, Except.bind, Except.error.injEq] at h
      exact ⟨a, List.mem_cons_self, h ▸ first⟩
    | ok b =>
      cases later : l.mapM f with
      | error e' =>
        simp only [first, later, bind, Except.bind, Except.error.injEq] at h
        obtain ⟨a', inside, failed⟩ := ih (h ▸ later)
        exact ⟨a', List.mem_cons_of_mem _ inside, failed⟩
      | ok rest => simp [first, later, bind, Except.bind, pure, Except.pure] at h

theorem mapMForall {α β α' β' ε ε' : Type} {R : α → α' → Prop} {S : β → β' → Prop} {f : α → Except ε β}
    {f' : α' → Except ε' β'} (step : ∀ {a a' b}, R a a' → f a = .ok b → ∃ b', f' a' = .ok b' ∧ S b b')
    {l : List α} {l' : List α'} (h : List.Forall₂ R l l') {r : List β} (answer : l.mapM f = .ok r) :
    ∃ r', l'.mapM f' = .ok r' ∧ List.Forall₂ S r r' := by
  induction h generalizing r with
  | nil =>
    cases answer
    exact ⟨[], rfl, .nil⟩
  | cons first _ ih =>
    cases mapMIff.1 answer with
    | cons head tail =>
      obtain ⟨b', head', related⟩ := step first head
      obtain ⟨r', tail', rest⟩ := ih (mapMIff.2 tail)
      exact ⟨b' :: r', mapMIff.2 (.cons head' (mapMIff.1 tail')), .cons related rest⟩

theorem forallZipIdx {α β : Type} {R : α → β → Prop} {l : List α} {r : List β} (h : List.Forall₂ R l r) :
    ∀ n, List.Forall₂ (fun a b => R a.1 b.1 ∧ a.2 = b.2) (l.zipIdx n) (r.zipIdx n) := by
  induction h with
  | nil => exact fun _ => .nil
  | cons first _ ih =>
    intro n
    rw [List.zipIdx_cons, List.zipIdx_cons]
    exact .cons ⟨first, rfl⟩ (ih (n + 1))

theorem bindIff {α β ε : Type} {x : Except ε α} {f : α → Except ε β} {b : β} :
    x >>= f = .ok b ↔ ∃ a, x = .ok a ∧ f a = .ok b := by
  cases x <;> simp [bind, Except.bind]

theorem refuseIff {α β ε : Type} {c : Prop} [Decidable c] {e : ε} {next : α → Except ε β} {rest : Except ε β}
    {b : β} : (if c then Except.error e >>= next else rest) = .ok b ↔ ¬ c ∧ rest = .ok b := by
  by_cases h : c <;> simp [h, bind, Except.bind]

theorem bindPureIff {α β ε : Type} {x : Except ε α} {f : α → β} {b : β} :
    (do let a ← x; pure (f a)) = (.ok b : Except ε β) ↔ ∃ a, x = .ok a ∧ f a = b := by
  cases x <;> simp [bind, Except.bind, pure, Except.pure]

theorem okOfIsOk {α ε : Type} {x : Except ε α} (h : x.isOk = true) : ∃ a, x = .ok a := by
  cases x with
  | ok a => exact ⟨a, rfl⟩
  | error e => cases h

theorem okOfAny {α ε : Type} {x : Except ε α} {f : α → Bool} (h : x.toOption.any f = true) :
    ∃ a, x = .ok a ∧ f a = true := by
  cases x with
  | ok a => exact ⟨a, rfl, h⟩
  | error e => cases h

theorem prefixAt {α : Type} {l l' : List α} (start : l <+: l') {i : Nat} {a : α} (found : l[i]? = some a) :
    l'[i]? = some a := by
  obtain ⟨rest, rfl⟩ := start
  rw [List.getElem?_append_left (List.getElem?_eq_some_iff.1 found).1, found]

theorem flatMapLength {α β : Type} {l : List α} {f : α → List β} (count : Nat)
    (h : ∀ a ∈ l, (f a).length = count) : (l.flatMap f).length = l.length * count := by
  rw [List.length_flatMap, List.map_congr_left h, List.map_const', List.sum_replicate_nat]

theorem foldlIncludes {α β γ : Type} {step : α → β → α} {facts : α → List γ}
    (grows : ∀ a b, facts a ⊆ facts (step a b)) (l : List β) (a : α) :
    facts a ⊆ facts (l.foldl step a) ∧
      ∀ b ∈ l, ∃ a', facts a ⊆ facts a' ∧ facts (step a' b) ⊆ facts (l.foldl step a) := by
  induction l generalizing a with
  | nil => exact ⟨List.Subset.refl _, nofun⟩
  | cons first l ih =>
    obtain ⟨included, each⟩ := ih (step a first)
    refine ⟨List.Subset.trans (grows a first) included, ?_⟩
    intro b inside
    rcases List.mem_cons.1 inside with rfl | inside
    · exact ⟨a, List.Subset.refl _, included⟩
    · obtain ⟨a', before, after⟩ := each b inside
      exact ⟨a', List.Subset.trans (grows a first) before, after⟩

theorem foldlFixed {α β γ : Type} {step : α → β → α} {facts : α → List γ}
    (determined : ∀ a b, (∀ f, f ∈ facts a ↔ f ∈ facts b) → a = b)
    (grows : ∀ a b, facts a ⊆ facts (step a b)) {l : List β} {a : α} (fixed : l.foldl step a = a) :
    ∀ b ∈ l, step a b = a := by
  intro b inside
  obtain ⟨a', before, after⟩ := (foldlIncludes grows l a).2 b inside
  rw [fixed] at after
  have same : a' = a := determined _ _ fun f => ⟨fun h => after (grows a' b h), fun h => before h⟩
  subst same
  exact determined _ _ fun f => ⟨fun h => after h, fun h => grows a' b h⟩

end ForkingLR
