import ForkingLR.Proofs.Artifact.Loading
import ForkingLR.Proofs.Artifact.Text

/-! Portable tables. A table that was built or read can be written and read again, for its own grammar and
for every grammar that agrees with it and knows the names that its states mention. -/
namespace ForkingLR

namespace Grammar

theorem Agrees.refl (g : Grammar) : Agrees g g := ⟨rfl, fun _ => rfl, fun _ => rfl⟩

theorem Drafted.alikeIff {g h : Grammar} (drafted : g.Drafted) (drafted' : h.Drafted) :
    Alike (SameName g h) g h ↔ g.Agrees h :=
  Grammar.alikeIff drafted.built.wellFormed drafted'.built.wellFormed drafted.named drafted'.named

end Grammar

namespace State

theorem alikeSelf {g : Grammar} {s : State} (known : ∀ x, s.Mentions x → g.symbols.Knows x) :
    Alike (Grammar.SameName g g) s s := by
  have same {x y : Symbol} (related : Grammar.SameName g g x y) : x = y :=
    Option.some.inj (related.known.symm.trans ((Grammar.sameNameIff related.known).1 related))
  refine ⟨rfl, fun related => by rw [same related], fun related => by rw [same related], ?_, ?_⟩
  · exact fun mentions => ⟨_, (Grammar.sameNameIff (known _ mentions)).2 (known _ mentions)⟩
  · exact fun mentions => ⟨_, (Grammar.sameNameIff (known _ mentions)).2 (known _ mentions)⟩

def moveUnder? (g : Grammar) (s : State) (name : String) : Option Nat :=
  (g.symbols.lookup? name).bind s.transitions.get?

def actionsUnder (g : Grammar) (s : State) (name : String) : List Action :=
  ((g.symbols.lookup? name).map s.actionsOn).getD []

structure Same (g h : Grammar) (s t : State) : Prop where
  items : s.items = t.items
  moves : ∀ name, moveUnder? g s name = moveUnder? h t name
  actions : ∀ name, actionsUnder g s name = actionsUnder h t name

theorem Alike.unmentioned {g h : Grammar} {s t : State} (alike : Alike (Grammar.SameName g h) s t)
    {name : String} {x : Symbol} (found : g.symbols.lookup? name = some x)
    (missing : h.symbols.lookup? name = none) : ¬ s.Mentions x := by
  intro mentions
  obtain ⟨y, related⟩ := alike.named mentions
  have there := (Grammar.sameNameIff related.known).1 related
  rw [show g.name x = name from SymbolTable.nameOfLookup found, missing] at there
  cases there

theorem Alike.flip {g h : Grammar} {s t : State} (alike : Alike (Grammar.SameName g h) s t) :
    Alike (Grammar.SameName h g) t s := by
  have swapped := alike.symm
  rwa [Grammar.sameNameSwap] at swapped

theorem Alike.same {g h : Grammar} {s t : State} (alike : Alike (Grammar.SameName g h) s t) : Same g h s t := by
  have cases (name : String) : (∃ x y, g.symbols.lookup? name = some x ∧ h.symbols.lookup? name = some y) ∨
      moveUnder? g s name = none ∧ actionsUnder g s name = [] ∧ moveUnder? h t name = none ∧
        actionsUnder h t name = [] := by
    cases here : g.symbols.lookup? name with
    | none =>
      cases there : h.symbols.lookup? name with
      | none => simp [moveUnder?, actionsUnder, here, there]
      | some y =>
        have silent := alike.flip.unmentioned there here
        simp only [Mentions, not_or, not_not] at silent
        simp [moveUnder?, actionsUnder, here, there, silent]
    | some x =>
      cases there : h.symbols.lookup? name with
      | none =>
        have silent := alike.unmentioned here there
        simp only [Mentions, not_or, not_not] at silent
        simp [moveUnder?, actionsUnder, here, there, silent]
      | some y => simp
  refine ⟨alike.items, fun name => ?_, fun name => ?_⟩
  · rcases cases name with ⟨x, y, here, there⟩ | ⟨move, _, move', _⟩
    · simpa [moveUnder?, here, there] using alike.moves ⟨name, here, there⟩
    · rw [move, move']
  · rcases cases name with ⟨x, y, here, there⟩ | ⟨_, acts, _, acts'⟩
    · simpa [actionsUnder, here, there] using alike.actions ⟨name, here, there⟩
    · rw [acts, acts']

end State

namespace Automaton
open Grammar (SameName renamingSameName)
variable {a b : Automaton} {g h : Grammar} {config : TableConfig}

theorem portableBuild (drafted : g.Drafted) (table : build g config = .ok a) : a.Portable := by
  obtain ⟨rfl, _⟩ := buildIff.1 table
  obtain ⟨b, table', same⟩ := buildAlike ((drafted.alikeIff drafted).2 (.refl _)) table
  refine ⟨drafted.built.wellFormed, drafted.named, tidyBuild table, ?_⟩
  intro s inside x mentions
  obtain ⟨t, _, alike⟩ := (forallMem same).1 s inside
  obtain ⟨y, related⟩ := alike.named mentions
  exact related.known

theorem portableLoad {saved : Artifact} (drafted : g.Drafted) (loaded : saved.toAutomaton g = .ok a) :
    a.Portable := by
  obtain ⟨_, ys, resolved, _, _, _, _, states, same⟩ := Artifact.toAutomatonIff.1 loaded
  have own : a.grammar = g := by rw [same]
  subst own
  refine ⟨drafted.built.wellFormed, drafted.named, ?_, ?_⟩
  · intro t inside
    obtain ⟨_, _, loaded⟩ := (forallMem (mapMIff.1 states)).2 t inside
    exact Artifact.tidyStateOf loaded
  · intro t inside x mentions
    obtain ⟨_, _, loaded⟩ := (forallMem (mapMIff.1 states)).2 t inside
    obtain ⟨name, _, found⟩ := (forallMem (mapMIff.1 resolved)).2 x (Artifact.mentionsLoaded loaded mentions)
    split at found
    · rename_i known
      cases found
      exact SymbolTable.knowsLookup known
    · cases found

theorem Portable.readWrite (portable : a.Portable) (h : Grammar) :
    read a.write h = if a.toArtifact.fits then a.toArtifact.toAutomaton h else .error .malformed := by
  have names : ∀ s ∈ a.toArtifact.symbols, (SymbolKind.ofName? s).isSome := by
    intro s listed
    obtain ⟨x, used, rfl⟩ := List.mem_map.1 listed
    show (SymbolKind.ofName? (a.grammar.symbols.name x)).isSome
    rw [(SymbolTable.lookupIff.1 (portable.usedKnown x used)).2]
    rfl
  rw [read, write, Artifact.textReadBack names]
  cases a.toArtifact.fits <;> rfl

theorem Portable.loadOwn (portable : a.Portable) : a.toArtifact.toAutomaton a.grammar = .ok a := by
  have agrees :=
    (Grammar.alikeIff portable.wellFormed portable.wellFormed portable.named portable.named).2 (.refl _)
  refine (portable.loadIff portable.wellFormed).2 ⟨agrees, rfl, rfl, ?_, portable.tidy⟩
  refine List.forall₂_same.2 fun s inside => ?_
  exact State.alikeSelf (portable.known s inside)

theorem loadBuilt (drafted : g.Drafted) (drafted' : h.Drafted) (table : build g config = .ok a) :
    a.toArtifact.toAutomaton h = .ok b ↔ g.Agrees h ∧ build h config = .ok b := by
  have portable := portableBuild drafted table
  obtain ⟨rfl, rfl, _⟩ := buildIff.1 table
  have loads (agrees : a.grammar.Agrees h) :
      ∃ b, build h a.config = .ok b ∧ a.toArtifact.toAutomaton h = .ok b := by
    have alike := (drafted.alikeIff drafted').2 agrees
    obtain ⟨b, table', states⟩ := buildAlike alike table
    obtain ⟨own, same, _⟩ := buildIff.1 table'
    exact ⟨b, table',
      (portable.loadIff drafted'.built.wellFormed).2 ⟨alike, own, same, states, tidyBuild table'⟩⟩
  constructor
  · intro loaded
    have alike := ((portable.loadIff drafted'.built.wellFormed).1 loaded).1
    have agrees := (drafted.alikeIff drafted').1 alike
    obtain ⟨b', table', loaded'⟩ := loads agrees
    rw [Except.ok.inj (loaded.symm.trans loaded')]
    exact ⟨agrees, table'⟩
  · rintro ⟨agrees, table'⟩
    obtain ⟨b', table'', loaded⟩ := loads agrees
    rwa [Except.ok.inj (table'.symm.trans table'')]

def ObtainedFor (a : Automaton) (g : Grammar) : Prop :=
  (∃ config, build g config = .ok a) ∨ ∃ text, read text g = .ok a

theorem ObtainedFor.portable (obtained : a.ObtainedFor g) (drafted : g.Drafted) :
    a.Portable ∧ a.grammar = g := by
  rcases obtained with ⟨config, table⟩ | ⟨text, answer⟩
  · exact ⟨portableBuild drafted table, (buildIff.1 table).1⟩
  · unfold read at answer
    split at answer
    · obtain ⟨_, _, _, _, _, _, _, _, same⟩ := Artifact.toAutomatonIff.1 answer
      exact ⟨portableLoad drafted answer, by rw [same]⟩
    · cases answer

structure SameTable (a b : Automaton) : Prop where
  config : a.config = b.config
  states : List.Forall₂ (State.Same a.grammar b.grammar) a.states b.states

def NamesKnownTo (a : Automaton) (h : Grammar) : Prop :=
  ∀ s ∈ a.states, ∀ x, s.Mentions x → (h.symbols.lookup? (a.name x)).isSome

theorem Portable.loadsIff (portable : a.Portable) (drafted : a.grammar.Drafted) (drafted' : h.Drafted) :
    (∃ b, a.toArtifact.toAutomaton h = .ok b) ↔ a.grammar.Agrees h ∧ a.NamesKnownTo h := by
  have wf := drafted'.built.wellFormed
  constructor
  · rintro ⟨b, loaded⟩
    obtain ⟨alike, _, _, states, _⟩ := (portable.loadIff wf).1 loaded
    refine ⟨(drafted.alikeIff drafted').1 alike, fun s inside x mentions => ?_⟩
    obtain ⟨t, _, same⟩ := (forallMem states).1 s inside
    obtain ⟨y, related⟩ := same.named mentions
    exact Option.isSome_iff_exists.2 ⟨y, (Grammar.sameNameIff related.known).1 related⟩
  · rintro ⟨agrees, names⟩
    obtain ⟨states, both⟩ : ∃ states, List.Forall₂ (fun s t =>
        State.Alike (SameName a.grammar h) s t ∧ t.Tidy) a.states states := by
      refine forallExists fun s inside => ?_
      have partner (x : Symbol) (mentions : s.Mentions x) : ∃ y, SameName a.grammar h x y := by
        obtain ⟨y, found⟩ := Option.isSome_iff_exists.1 (names s inside x mentions)
        exact ⟨y, (Grammar.sameNameIff (portable.known s inside x mentions)).2 found⟩
      obtain ⟨_, _, _, _, alike⟩ :=
        Artifact.rebuild (renamingSameName a.grammar h) (portable.tidy s inside) partner
      exact ⟨_, alike, Artifact.tidyRebuilt _ _ _⟩
    refine ⟨⟨h, states, a.config⟩, (portable.loadIff wf).2 ⟨(drafted.alikeIff drafted').2 agrees, rfl, rfl,
      both.imp fun _ _ both => both.1, ?_⟩⟩
    intro t inside
    obtain ⟨_, _, both⟩ := (forallMem both).2 t inside
    exact both.2

theorem writtenReads (drafted : g.Drafted) (drafted' : h.Drafted) (obtained : a.ObtainedFor g)
    (fits : a.toArtifact.fits = true) :
    ((∃ b, read a.write h = .ok b) ↔ g.Agrees h ∧ a.NamesKnownTo h) ∧
      (∀ b, read a.write h = .ok b → b.grammar = h ∧ SameTable a b) ∧
      ∀ config, build g config = .ok a →
        ((∃ b, read a.write h = .ok b) ↔ g.Agrees h) ∧
          ∀ b, read a.write h = .ok b → build h config = .ok b := by
  obtain ⟨portable, rfl⟩ := obtained.portable drafted
  have text : read a.write h = a.toArtifact.toAutomaton h := by rw [portable.readWrite, if_pos fits]
  rw [text]
  refine ⟨portable.loadsIff drafted drafted', ?_, ?_⟩
  · intro b loaded
    obtain ⟨_, own, config, states, _⟩ := (portable.loadIff drafted'.built.wellFormed).1 loaded
    subst own
    exact ⟨rfl, config.symm, states.imp fun _ _ alike => alike.same⟩
  · intro config table
    refine ⟨?_, fun b loaded => ((loadBuilt drafted drafted' table).1 loaded).2⟩
    constructor
    · rintro ⟨b, loaded⟩
      exact ((loadBuilt drafted drafted' table).1 loaded).1
    · intro agrees
      obtain ⟨b, table', _⟩ := buildAlike ((drafted.alikeIff drafted').2 agrees) table
      exact ⟨b, (loadBuilt drafted drafted' table).2 ⟨agrees, table'⟩⟩

end Automaton

theorem Draft.ownsNames {calls : List DraftCall} (names : ∀ call ∈ calls, call.symbols = []) (d : Draft) :
    d.Owns calls := by
  induction calls generalizing d with
  | nil => trivial
  | cons call calls ih =>
    obtain ⟨first, rest⟩ := List.forall_mem_cons.1 names
    exact ⟨by simp [first], ih rest _⟩

def Draft.leftSumCalls : List DraftCall :=
  [.declarePrecedence .left ["PLUS"], .declare "e" ["e", "PLUS", "e"], .declare "e" ["N"]]

def Draft.leftSumAgainCalls : List DraftCall := .intern "SPARE" :: .intern "N" :: leftSumCalls

namespace Automaton

theorem leftSumsPortable : ∃ g h a b, g.Drafted ∧ h.Drafted ∧ g.symbols ≠ h.symbols ∧ build g {} = .ok a ∧
    a.toArtifact.fits = true ∧ g.Agrees h ∧ read a.write h = .ok b ∧ SameTable a b ∧ build h {} = .ok b := by
  have facts : (Draft.ofCalls Draft.leftSumCalls).build.toOption.any (fun g =>
      (Draft.ofCalls Draft.leftSumAgainCalls).build.toOption.any fun h => decide (g.symbols ≠ h.symbols) &&
        (build g {}).toOption.any fun a => a.toArtifact.fits && (a.toArtifact.toAutomaton h).isOk) = true := by
    decide +kernel
  obtain ⟨g, built, facts⟩ := okOfAny facts
  obtain ⟨h, built', facts⟩ := okOfAny facts
  obtain ⟨different, facts⟩ := Bool.and_eq_true_iff.1 facts
  obtain ⟨a, table, facts⟩ := okOfAny facts
  obtain ⟨fits, loads⟩ := Bool.and_eq_true_iff.1 facts
  have drafted : g.Drafted := ⟨_, Draft.ownsNames (by decide) _, built⟩
  have drafted' : h.Drafted := ⟨_, Draft.ownsNames (by decide) _, built'⟩
  obtain ⟨b, loaded⟩ := okOfIsOk loads
  have text : read a.write h = .ok b := by
    rw [(portableBuild drafted table).readWrite, if_pos fits, loaded]
  obtain ⟨_, same, again⟩ := writtenReads drafted drafted' (.inl ⟨{}, table⟩) fits
  obtain ⟨exactly, rebuilt⟩ := again {} table
  exact ⟨g, h, a, b, drafted, drafted', of_decide_eq_true different, table, fits, exactly.1 ⟨b, text⟩, text,
    (same b text).2, rebuilt b text⟩

end Automaton

def Draft.strayCalls : List DraftCall := [.intern "FOO", .declare "a" ["X"]]

def Draft.oneRuleCalls : List DraftCall := [.declare "a" ["X"]]

namespace Automaton

/-- A table nobody builds but that can be read: its only state moves under a symbol no production uses. -/
def strayTable (g : Grammar) : Automaton :=
  ⟨g, [{ items := [], transitions := SortedMap.ofList [(⟨3, .terminal⟩, 0)] }], {}⟩

theorem strayPortable {g : Grammar} (drafted : g.Drafted) (known : g.symbols.Knows ⟨3, .terminal⟩) :
    (strayTable g).Portable := by
  refine ⟨drafted.built.wellFormed, drafted.named, ?_, ?_⟩
  · intro s inside
    rw [List.mem_singleton.1 inside]
    exact nofun
  · intro s inside x mentions
    rw [List.mem_singleton.1 inside] at mentions
    rcases mentions with move | acts
    · have listed := SortedMap.keysOfList move
      rw [List.map_singleton, List.mem_singleton] at listed
      exact listed ▸ known
    · exact absurd rfl acts

theorem strayNameRefused : ∃ g h, (Draft.ofCalls Draft.strayCalls).build = .ok g ∧
    (Draft.ofCalls Draft.oneRuleCalls).build = .ok h ∧ g.Drafted ∧ h.Drafted ∧
    (∃ text, read text g = .ok (strayTable g)) ∧ (strayTable g).toArtifact.fits = true ∧ g.Agrees h ∧
    ¬ ∃ b, read (strayTable g).write h = .ok b := by
  have facts : (Draft.ofCalls Draft.strayCalls).build.toOption.any (fun g =>
      (Draft.ofCalls Draft.oneRuleCalls).build.toOption.any fun h =>
        ((build g {}).toOption.any fun a => (a.toArtifact.toAutomaton h).isOk) &&
          decide ((strayTable g).toArtifact.fits = true ∧ g.symbols.Knows ⟨3, .terminal⟩ ∧
            h.symbols.lookup? (g.name ⟨3, .terminal⟩) = none)) = true := by decide +kernel
  obtain ⟨g, built, facts⟩ := okOfAny facts
  obtain ⟨h, built', facts⟩ := okOfAny facts
  obtain ⟨moves, facts⟩ := Bool.and_eq_true_iff.1 facts
  obtain ⟨fits, known, unknown⟩ := of_decide_eq_true facts
  obtain ⟨a, table, loads⟩ := okOfAny moves
  obtain ⟨_, loaded⟩ := okOfIsOk loads
  have drafted : g.Drafted := ⟨_, Draft.ownsNames (by decide) _, built⟩
  have drafted' : h.Drafted := ⟨_, Draft.ownsNames (by decide) _, built'⟩
  have portable := strayPortable drafted known
  have text (h : Grammar) : read (strayTable g).write h = (strayTable g).toArtifact.toAutomaton h := by
    rw [portable.readWrite, if_pos fits]
  refine ⟨g, h, built, built', drafted, drafted', ⟨_, (text g).trans portable.loadOwn⟩, fits,
    ((loadBuilt drafted drafted' table).1 loaded).1, ?_⟩
  rintro ⟨b, answer⟩
  obtain ⟨_, names⟩ := (portable.loadsIff drafted drafted').1 ⟨b, (text h).symm.trans answer⟩
  have found := names _ (List.mem_singleton_self _) ⟨3, .terminal⟩ (.inl (by decide))
  rw [show (strayTable g).name ⟨3, .terminal⟩ = g.name ⟨3, .terminal⟩ from rfl, unknown] at found
  cases found

end Automaton
end ForkingLR
