import ForkingLR.Proofs.Grammar.Tracing

/-! Helpers are shared. Whatever happens between two requests, equal ones have one answer and different ones
have different answers; a helper takes a name that was free, and always has its two rules. -/
namespace ForkingLR

namespace Draft
open Edit (answersBind asksThen)
variable {d d' : Draft} {x : Symbol}

def operated (terms : List Rhs.Term) (symbols : List Symbol) : List Symbol :=
  (terms.zip symbols).flatMap fun t => (t.1.op.map fun _ => t.2).toList

theorem answersOfOk {a : Ask} (h : a.request.edit a.draft = .ok x d) : a.Answers x := by
  rw [Ask.Answers, Ask.left, Edit.leftOk h]
  exact h

theorem termHands {term : Rhs.Term} (h : expandTerm term d = .ok x d') :
    List.Forall₂ Ask.Answers (termAsks term d) (term.op.map fun _ => x).toList := by
  obtain ⟨base, mid, interned, h⟩ := answersBind.1 h
  rw [termAsks, Edit.asksThenOk interned]
  cases op : term.op with
  | none => exact .nil
  | some op' =>
    rw [op] at h
    refine .cons (answersOfOk (d := d') ?_) .nil
    cases op' with
    | optional => exact h
    | list => exact h
    | nonemptyList => exact h

theorem termsHand {terms : List Rhs.Term} {xs : List Symbol} (h : terms.mapM expandTerm d = .ok xs d') :
    List.Forall₂ Ask.Answers (termsAsks terms d) (operated terms xs) := by
  induction terms generalizing d xs with
  | nil =>
    cases h
    exact .nil
  | cons term terms ih =>
    rw [List.mapM_cons] at h
    obtain ⟨x, mid, first, h⟩ := answersBind.1 h
    obtain ⟨rest, last, others, h⟩ := answersBind.1 h
    cases h
    rw [termsAsks, Edit.asksThenOk first]
    exact List.rel_append (termHands first) (ih others)

section
open Edit (Names)

theorem namedThen {α : Type} {edit : Edit α} {answer : α → List Symbol} {next : α → Draft → List Ask}
    (names : Names [] edit answer) (h : ∀ a {d}, d.Named → ∀ ask ∈ next a d, ask.draft.Named) (named : d.Named) :
    ∀ ask ∈ asksThen edit next d, ask.draft.Named := by
  have kept := names d named (List.forall_mem_nil _)
  cases result : edit d with
  | ok a mid =>
    rw [result] at kept
    rw [Edit.asksThenOk result]
    exact h a kept.1.1
  | error e mid =>
    rw [Edit.asksThenError result]
    exact List.forall_mem_nil _

theorem namedTerms (terms : List Rhs.Term) (named : d.Named) : ∀ ask ∈ termsAsks terms d, ask.draft.Named := by
  induction terms generalizing d with
  | nil => exact List.forall_mem_nil _
  | cons term terms ih =>
    refine List.forall_mem_append.2 ⟨?_, namedThen (namesExpandTerm term) (fun _ _ named => ih named) named⟩
    refine namedThen (namesIntern term.name) (fun base d named ask made => ?_) named
    obtain ⟨op, _, rfl⟩ := Option.map_eq_some_iff.1 (Option.mem_toList.1 made)
    exact named

theorem namedExpand (expression : String) (named : d.Named) :
    ∀ ask ∈ expandAsks expression d, ask.draft.Named := by
  unfold expandAsks
  cases Rhs.parse expression with
  | error e => exact List.forall_mem_nil _
  | ok terms => exact namedTerms terms named

theorem namedAsks (call : DraftCall) (named : d.Named) : ∀ ask ∈ call.asks d, ask.draft.Named := by
  have one {request : HelperRequest} {d : Draft} (named : d.Named) : ∀ ask ∈ [Ask.mk request d], ask.draft.Named :=
    fun ask made => List.mem_singleton.1 made ▸ named
  cases call with
  | optional base => exact one named
  | list base separator => exact one named
  | nonemptyList base separator => exact one named
  | expand expression => exact namedExpand expression named
  | declareRule lhs expression =>
    exact namedThen (namesInternNonterminal lhs) (fun _ _ named => namedExpand expression named) named
  | defineList name base separator =>
    refine namedThen (namesFreshDefinition name) (fun _ _ named => ?_) named
    refine namedThen (namesIntern base) (fun _ _ named => ?_) named
    exact namedThen (namesInternSeparator separator) (fun _ _ named => one named) named
  | _ => exact List.forall_mem_nil _

theorem namedAsked {calls : List DraftCall} (named : d.Named) (owns : d.Owns calls) :
    ∀ ask ∈ d.asked calls, ask.draft.Named := by
  induction calls generalizing d with
  | nil => exact List.forall_mem_nil _
  | cons call calls ih =>
    exact List.forall_mem_append.2 ⟨namedAsks call named, ih (namedPerform named owns.1) owns.2⟩

end

theorem namePlaced {t : SymbolTable} (below : x.key < t.size) : t.names.entries[x.key]? = some (t.name x) := by
  rw [SymbolTable.name, Interner.resolve?, List.getElem?_eq_getElem below]
  rfl

theorem addedName {t t' : SymbolTable} (within : t.Within t') (above : t.size ≤ x.key) (below : x.key < t'.size) :
    t'.name x ∉ t.names.entries ∧ t'.name x ≠ "" := by
  obtain ⟨rest, shape⟩ := within
  constructor
  · intro listed
    obtain ⟨i, here⟩ := List.mem_iff_getElem?.1 listed
    have bound := (List.getElem?_eq_some_iff.1 here).1
    have earlier : t'.names.entries[i]? = some (t'.name x) := by
      rw [← here, ← shape, List.getElem?_append_left bound]
    have same := (List.getElem?_inj below t'.names.nodup).1 ((namePlaced below).trans earlier.symm)
    exact absurd bound (Nat.not_lt.2 (same ▸ above))
  · intro empty
    rcases t'.nameSpelled x with ⟨unknown, _⟩ | ⟨_, spelled⟩
    · exact absurd below (Nat.not_lt.2 unknown)
    · rw [empty] at spelled
      cases spelled

theorem nameListed (t : SymbolTable) (x : Symbol) : t.name x ∈ t.names.entries ∨ t.name x = "" := by
  rw [SymbolTable.name, Interner.resolve?]
  cases found : t.names.entries[x.key]? with
  | none => exact .inr rfl
  | some name => exact .inl (List.mem_of_getElem? found)

structure Memoizes (calls : List DraftCall) : Prop where
  injective : ∀ a ∈ asked .empty calls, ∀ b ∈ asked .empty calls, ∀ x y, a.Answers x → b.Answers y →
    (x = y ↔ a.request = b.request)
  repeated : (asked .empty calls).Pairwise fun a b => ∀ x, a.Answers x → b.request = a.request →
    b.request.edit b.draft = .ok x b.draft
  created : ∀ e ∈ (ofCalls calls).helpers, ∃ a ∈ asked .empty calls, e ∈ a.left.helpers ∧ e ∉ a.draft.helpers
  /-- The name of a new helper was free, so nothing mentions it; its symbol, too, is not mentioned,
  unless the author makes up symbols. -/
  fresh : ∀ a ∈ asked .empty calls, ∀ e ∈ a.left.helpers, e ∉ a.draft.helpers →
    a.left.name e.2 ∉ a.draft.symbols.names.entries ∧
      ∀ p ∈ a.draft.productions, ∀ y ∈ p.lhs :: p.rhs, a.draft.name y ≠ a.left.name e.2 ∧
        (Owns .empty calls → y ≠ e.2)
  distinct : ((ofCalls calls).helpers.map fun e => (ofCalls calls).name e.2).Nodup
  search : ∀ a ∈ asked .empty calls, ∃ n ≤ a.draft.symbols.size,
    candidate (a.draft.stem a.request.key) n ∉ a.draft.symbols.names.entries ∧
      (∀ k < n, candidate (a.draft.stem a.request.key) k ∈ a.draft.symbols.names.entries) ∧
      ∀ x, a.Answers x → a.draft.helpers.lookup a.request.key = none →
        a.left.name x = candidate (a.draft.stem a.request.key) n
  defined : ∀ e ∈ (ofCalls calls).helpers, (ofCalls calls).Holds e.1 e.2
  expanded : ∀ {terms d xs d'}, terms.mapM expandTerm d = .ok xs d' →
    List.Forall₂ Ask.Answers (termsAsks terms d) (operated terms xs)
  listed : ∀ {name base separator d x d'}, defineList name base separator d = .ok x d' →
    ∃ a inner, DraftCall.asks (.defineList name base separator) d = [a] ∧ a.Answers inner ∧
      d'.rules = a.left.rules ++ (HelperKey.mk .list inner none).rules x inner

theorem listHands {name base : String} {separator : Option String}
    (h : defineList name base separator d = .ok x d') :
    ∃ a inner, DraftCall.asks (.defineList name base separator) d = [a] ∧ a.Answers inner ∧
      d'.rules = a.left.rules ++ (HelperKey.mk .list inner none).rules x inner := by
  obtain ⟨lhs, _, fresh, h⟩ := answersBind.1 h
  obtain ⟨base', _, first, h⟩ := answersBind.1 h
  obtain ⟨separator', mid, second, h⟩ := answersBind.1 h
  obtain ⟨inner, last, nested, h⟩ := answersBind.1 h
  obtain ⟨_, _, pushed, h⟩ := answersBind.1 h
  cases pushTwo.symm.trans pushed
  cases h
  refine ⟨⟨.nonemptyList base' separator', mid⟩, inner, ?_, answersOfOk nested, ?_⟩
  · rw [DraftCall.asks, Edit.asksThenOk fresh, Edit.asksThenOk first, Edit.asksThenOk second]
  · have left : Ask.left ⟨.nonemptyList base' separator', mid⟩ = last := Edit.leftOk nested
    rw [left]
    rfl

section
variable {calls : List DraftCall} {a b : Ask} {y : Symbol}

theorem helperCreated {e : HelperKey × Symbol} (listed : e ∈ (ofCalls calls).helpers) :
    ∃ a ∈ asked .empty calls, e ∈ a.left.helpers ∧ e ∉ a.draft.helpers :=
  ((historyTrace calls).created listed).resolve_left List.not_mem_nil

theorem askedFiled (made : a ∈ asked .empty calls) : a.draft.Filed [] :=
  ((historyTrace calls).around made).1.filed

theorem askedRecords (made : a ∈ asked .empty calls) (answers : a.Answers x) :
    (a.request.key, x) ∈ (ofCalls calls).helpers := by
  obtain ⟨before, behind⟩ := (historyTrace calls).around made
  exact behind.grows.helpers.subset (requestAnswers before.filed answers).2.recorded

theorem askedFresh (made : a ∈ asked .empty calls) {e : HelperKey × Symbol} (listed : e ∈ a.left.helpers)
    (new : e ∉ a.draft.helpers) :
    a.draft.symbols.size ≤ e.2.key ∧ a.left.name e.2 ∉ a.draft.symbols.names.entries ∧ a.left.name e.2 ≠ "" := by
  obtain ⟨filed, grows⟩ := evolvesAsk (askedFiled made)
  have above := (grows.fresh e listed).resolve_left new
  exact ⟨above, addedName grows.within above (filed.named e listed)⟩

theorem askedNamed (owns : Owns .empty calls) (made : a ∈ asked .empty calls) {p : Production Symbol}
    (listed : p ∈ a.draft.productions) (inside : y ∈ p.lhs :: p.rhs) : y.key < a.draft.symbols.size := by
  have named := namedAsked namedEmpty owns a made
  have mentioned : y ∈ a.draft.mentioned :=
    List.mem_append_left _ (List.mem_append_left _ (List.mem_flatMap.2 ⟨p, listed, inside⟩))
  exact (List.getElem?_eq_some_iff.1 (SymbolTable.lookupKey (named y mentioned))).1

end

theorem requestsMemoized (calls : List DraftCall) : Memoizes calls where
  injective := by
    intro a made b made' x y answers answers'
    have filed := filedOfCalls calls
    have first := askedRecords made answers
    have second := askedRecords made' answers'
    constructor
    · rintro rfl
      have same := List.inj_on_of_nodup_map filed.symbols first second rfl
      exact HelperRequest.keyInjective (congrArg Prod.fst same)
    · intro same
      rw [same] at first
      exact Option.some.inj ((filed.lookup first).symm.trans (filed.lookup second))
  repeated := by
    refine (historyTrace calls).ordered.imp_of_mem fun made _ grows x answers same => ?_
    obtain ⟨filed, after⟩ := requestAnswers (askedFiled made) answers
    exact requestKnown (same ▸ grows.lookup (filed.lookup after.recorded))
  created := fun _ => helperCreated
  fresh := by
    intro a made e listed new
    obtain ⟨above, free, some⟩ := askedFresh made listed new
    refine ⟨free, fun p inside y mentioned => ⟨?_, ?_⟩⟩
    · intro same
      rcases nameListed a.draft.symbols y with known | empty
      · exact free (same ▸ known)
      · exact some (same.symm.trans empty)
    · rintro owns rfl
      exact absurd (askedNamed owns made inside mentioned) (Nat.not_lt.2 above)
  distinct := by
    have filed := filedOfCalls calls
    refine List.pairwise_map.2 ((List.pairwise_map.1 filed.symbols).imp_of_mem ?_)
    intro e f here there different same
    have first := namePlaced (filed.named e here)
    have second := namePlaced (filed.named f there)
    have placed := first.trans ((congrArg some same).trans second.symm)
    exact different ((List.getElem?_inj (filed.named e here) (ofCalls calls).symbols.names.nodup).1 placed)
  search := by
    intro a made
    obtain ⟨n, bound, same, free, taken⟩ := freshNameSource a.draft (a.draft.stem a.request.key)
    refine ⟨n, bound, free, taken, fun x answers missing => ?_⟩
    have stands := (requestAnswers (askedFiled made) answers).2.spelled missing
    exact stands.spelled.trans same
  defined := fun e listed => (filedOfCalls calls).defined e listed List.not_mem_nil
  expanded := termsHand
  listed := listHands

example : (asked .empty [.declareRule "s" "WORD? WORD*", .expand "WORD?"]).map (fun a => a.left.helpers.length) =
    [1, 3, 3] := by decide +kernel

end Draft
end ForkingLR
