import ForkingLR.Artifact.Cache
import ForkingLR.Proofs.Artifact.Portability

/-! The table cache can not be seen. Whatever tables were saved under its path before, and however the times
of the files change, a call answers what building answers, and leaves a table that loads. -/
namespace ForkingLR

namespace Store
variable {s : Store} {p q : Place} {path text : String} {time : Nat}

theorem lookupErase (entries : List (Place × Entry)) (different : q ≠ p) :
    (entries.filter fun e => decide (e.1 ≠ p)).lookup q = entries.lookup q := by
  induction entries with
  | nil => rfl
  | cons e entries ih =>
    obtain ⟨place, entry⟩ := e
    by_cases same : place = p
    · subst same
      rw [List.filter_cons_of_neg (by simp), ih, List.lookup_cons, beq_eq_false_iff_ne.2 different]
    · rw [List.filter_cons_of_pos (by simpa using same), List.lookup_cons, List.lookup_cons, ih]

theorem atPut (s : Store) (p q : Place) (entry : Entry) :
    (s.put p entry).at? q = if q = p then some entry else s.at? q := by
  unfold at? put
  by_cases same : q = p
  · subst same
    rw [List.lookup_cons_self, if_pos rfl]
  · rw [List.lookup_cons, beq_eq_false_iff_ne.2 same, if_neg same]
    simp only [erase, lookupErase s.entries same]

theorem walkPut (open' : s.isDirectory p = false) (text : String) (time : Nat) (steps : List String) :
    ∀ q, (s.put p (.file text time)).walk? q steps = s.walk? q steps := by
  have directories (q : Place) : (s.put p (.file text time)).isDirectory q = s.isDirectory q := by
    unfold isDirectory at open' ⊢
    rw [atPut]
    by_cases same : q = p
    · subst same
      simp [open']
    · rw [if_neg same]
  induction steps with
  | nil => exact fun _ => rfl
  | cons name steps ih =>
    intro q
    simp only [walk?, directories, ih]

def textAt? (s : Store) (path : String) : Option String :=
  match s.find? path with
  | some (.file text _) => some text
  | _ => none

def Writable (s : Store) (path : String) : Prop := ∃ p, s.resolve? path = some p ∧ s.isDirectory p = false

theorem writeReads (writable : s.Writable path) (text : String) (time : Nat) :
    ∃ s', s.writeText path text time = .ok s' ∧ s'.textAt? path = some text ∧ s'.Writable path := by
  obtain ⟨p, resolved, open'⟩ := writable
  have stays : (s.put p (.file text time)).resolve? path = some p := by
    unfold resolve? at resolved ⊢
    simp only [walkPut open', resolved]
  have there : (s.put p (.file text time)).at? p = some (.file text time) := by rw [atPut, if_pos rfl]
  refine ⟨s.put p (.file text time), ?_, ?_, p, stays, ?_⟩
  · simp [writeText, resolved, open']
  · simp [textAt?, find?, stays, there]
  · simp [isDirectory, there]

end Store

namespace Automaton
variable {cache : TableCache} {s s' : Store} {g h : Grammar} {config : TableConfig} {a b : Automaton}
  {time : Nat}

theorem loadText {path text : String} (stored : s.textAt? path = some text) (g : Grammar) :
    load s path g = read text g := by
  unfold Store.textAt? at stored
  unfold load Store.readText
  split at stored
  · rename_i found
    cases stored
    rw [found]
    rfl
  · cases stored

theorem loadAbsent {path : String} (stored : s.textAt? path = none) (g : Grammar) :
    ∃ e, load s path g = .error e := by
  unfold Store.textAt? at stored
  unfold load Store.readText
  split at stored
  · cases stored
  · cases found : s.find? path with
    | none => exact ⟨_, rfl⟩
    | some entry =>
      cases entry with
      | file text modified => simp_all
      | directory => exact ⟨_, rfl⟩

/-- What may have happened to a store in which nothing but calls and saved builds write under the path of
the cache. Anything else may change, the times of that file included, as long as it can be written. -/
inductive CacheHistory (cache : TableCache) : Store → Prop
  | start {s : Store} (absent : s.find? cache.path = none) (writable : s.Writable cache.path) :
      CacheHistory cache s
  | change {s s' : Store} (before : CacheHistory cache s) (same : s'.textAt? cache.path = s.textAt? cache.path)
      (writable : s'.Writable cache.path) : CacheHistory cache s'
  | call {s : Store} (before : CacheHistory cache s) {g : Grammar} (drafted : g.Drafted) (config : TableConfig)
      (time : Nat) : CacheHistory cache (loadOrBuild g config cache s time).2
  | save {s s' : Store} (before : CacheHistory cache s) {g : Grammar} (drafted : g.Drafted)
      {config : TableConfig} {a : Automaton} (table : build g config = .ok a) {time : Nat}
      (saved : a.save s cache.path time = .ok s') : CacheHistory cache s'

def KeepsBuilt (s : Store) (path : String) : Prop :=
  s.textAt? path = none ∨ ∃ g config a, g.Drafted ∧ build g config = .ok a ∧ s.textAt? path = some a.write

theorem reuseSource (reused : reuse? g config cache s = some a) :
    load s cache.path g = .ok a ∧ a.config = config := by
  unfold reuse? at reused
  split at reused
  · split at reused
    · cases reused
    · rename_i loaded
      split at reused
      · rename_i fit
        cases reused
        exact ⟨loaded, fit.1⟩
      · cases reused
  · cases reused

theorem reuseBuilt (keeps : KeepsBuilt s cache.path) (drafted : g.Drafted)
    (reused : reuse? g config cache s = some a) : build g config = .ok a := by
  obtain ⟨loaded, rfl⟩ := reuseSource reused
  rcases keeps with absent | ⟨g₀, config₀, a₀, drafted₀, table, stored⟩
  · obtain ⟨e, failed⟩ := loadAbsent absent g
    rw [failed] at loaded
    cases loaded
  · have portable := portableBuild drafted₀ table
    rw [loadText stored, portable.readWrite] at loaded
    split at loaded
    · have again := ((loadBuilt drafted₀ drafted table).1 loaded).2
      rwa [(buildIff.1 again).2.1]
    · cases loaded

theorem answersBuild (keeps : KeepsBuilt s cache.path) (writable : s.Writable cache.path)
    (drafted : g.Drafted) (config : TableConfig) (time : Nat) :
    (∃ e, build g config = .error e ∧ loadOrBuild g config cache s time = (.error e, s)) ∨
      ∃ a s', build g config = .ok a ∧ loadOrBuild g config cache s time = (.ok a, s') ∧
        (s' = s ∧ load s cache.path g = .ok a ∨
          s'.textAt? cache.path = some a.write ∧ s'.Writable cache.path) := by
  unfold loadOrBuild
  cases reused : reuse? g config cache s with
  | some a => exact .inr ⟨a, s, reuseBuilt keeps drafted reused, rfl, .inl ⟨rfl, (reuseSource reused).1⟩⟩
  | none =>
    cases table : build g config with
    | error e => exact .inl ⟨e, rfl, rfl⟩
    | ok a =>
      obtain ⟨s', written, stored, writable'⟩ := Store.writeReads writable a.write time
      refine .inr ⟨a, s', rfl, ?_, .inr ⟨stored, writable'⟩⟩
      simp only [save, written]

theorem CacheHistory.keeps (history : CacheHistory cache s) :
    KeepsBuilt s cache.path ∧ s.Writable cache.path := by
  induction history with
  | start absent writable => exact ⟨.inl (by simp [Store.textAt?, absent]), writable⟩
  | change _ same writable ih =>
    refine ⟨?_, writable⟩
    rw [KeepsBuilt, same]
    exact ih.1
  | @call s _ g drafted config time ih =>
    rcases answersBuild ih.1 ih.2 drafted config time with ⟨e, _, answers⟩ | ⟨a, s', table, answers, after⟩
    · rw [answers]
      exact ih
    · rw [answers]
      rcases after with ⟨rfl, _⟩ | ⟨stored, writable⟩
      · exact ih
      · exact ⟨.inr ⟨g, config, a, drafted, table, stored⟩, writable⟩
  | @save s s' _ g drafted config a table time saved ih =>
    obtain ⟨s'', written, stored, writable⟩ := Store.writeReads ih.2 a.write time
    rw [Automaton.save, written] at saved
    cases saved
    exact ⟨.inr ⟨g, config, a, drafted, table, stored⟩, writable⟩

theorem cacheTransparent (history : CacheHistory cache s) (drafted : g.Drafted) (config : TableConfig)
    (time : Nat) :
    (loadOrBuild g config cache s time).1 = build g config ∧
      (∀ e, (loadOrBuild g config cache s time).1 = .error e → (loadOrBuild g config cache s time).2 = s) ∧
      ∀ a, (loadOrBuild g config cache s time).1 = .ok a → a.toArtifact.fits = true →
        load (loadOrBuild g config cache s time).2 cache.path g = .ok a := by
  obtain ⟨keeps, writable⟩ := history.keeps
  rcases answersBuild keeps writable drafted config time with ⟨e, failed, answers⟩ | ⟨a, s', table, answers, after⟩
  · rw [answers, failed]
    exact ⟨rfl, fun _ _ => rfl, nofun⟩
  · rw [answers, table]
    refine ⟨rfl, nofun, ?_⟩
    intro a' same fits
    obtain rfl : a = a' := Except.ok.inj same
    rcases after with ⟨rfl, loaded⟩ | ⟨stored, _⟩
    · exact loaded
    · have portable := portableBuild drafted table
      obtain ⟨rfl, _⟩ := buildIff.1 table
      rw [loadText stored, portable.readWrite, if_pos fits, portable.loadOwn]

theorem cachedSums : ∃ g h b, g.Drafted ∧ h.Drafted ∧ g.symbols ≠ h.symbols ∧ build h {} = .ok b ∧
    (loadOrBuild h {} ⟨"tables", none⟩ (loadOrBuild g {} ⟨"tables", none⟩ {} 1).2 2).1 = .ok b ∧
    load (loadOrBuild h {} ⟨"tables", none⟩ (loadOrBuild g {} ⟨"tables", none⟩ {} 1).2 2).2 "tables" h = .ok b := by
  have facts : (Draft.ofCalls Draft.leftSumCalls).build.toOption.any (fun g =>
      (Draft.ofCalls Draft.leftSumAgainCalls).build.toOption.any fun h => decide (g.symbols ≠ h.symbols) &&
        (build h {}).toOption.any fun b => b.toArtifact.fits) = true := by decide +kernel
  obtain ⟨g, built, facts⟩ := okOfAny facts
  obtain ⟨h, built', facts⟩ := okOfAny facts
  obtain ⟨different, facts⟩ := Bool.and_eq_true_iff.1 facts
  obtain ⟨b, table, fits⟩ := okOfAny facts
  have drafted : g.Drafted := ⟨_, Draft.ownsNames (by decide) _, built⟩
  have drafted' : h.Drafted := ⟨_, Draft.ownsNames (by decide) _, built'⟩
  have fresh : CacheHistory ⟨"tables", none⟩ {} :=
    .start (by decide +kernel) ⟨⟨.store 0, ["tables"]⟩, by decide +kernel, by decide +kernel⟩
  have transparent := cacheTransparent (.call fresh drafted {} 1) drafted' {} 2
  have answer := transparent.1.trans table
  exact ⟨g, h, b, drafted, drafted', of_decide_eq_true different, table, answer, transparent.2.2 b answer fits⟩

end Automaton
end ForkingLR
