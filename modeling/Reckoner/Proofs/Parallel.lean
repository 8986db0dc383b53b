import Mathlib.Data.List.Forall2
import Reckoner.Proofs.Comparison
import Reckoner.Proofs.Moment
import Reckoner.Routine

/-!
Streams of one shape. Two streams that differ in nothing but their numbers go in parallel: what is
looked up, how many values are there, what is due and which function is called are the same at every
step, and a call that gives a number whatever it is called on gives one on both sides. The machines
hold different numbers all the while, and nothing else that they hold differs. Joining alone asks what
a number is, so there must not be any.
-/

namespace Reckoner

variable {ι : Type}

/-- Called on the table, every implementation gives a number that has a double, and leaves the table
as it is. -/
def FunctionTable.IsSteady (table : FunctionTable ι) (invoke : Invocation ι) : Prop :=
  ∀ d ∈ table.toList, ∀ arguments : List Float, arguments.length = d.arity →
    (invoke d.implementation arguments table).state = table ∧
    ∃ v x, (invoke d.implementation arguments table).result = .ok v ∧ v.asResult d.name = .ok x

namespace Event

/-- Two events that differ in nothing but numbers: a call is one of the same function, with what its
implementation did on the one side and on the other. -/
inductive Parallel (invoke : Invocation ι) (table : FunctionTable ι) : Event → Event → Prop where
  | taken : Parallel invoke table .taken .taken
  | reduced {n : Nat} {k : Kind} {arguments arguments' : List Float}
    (h : arguments.length = arguments'.length) :
    Parallel invoke table (.reduced n k arguments) (.reduced n k arguments')
  | called {name : String} {d : Definition ι} {arguments arguments' : List Float}
    (hget : table.get name = .ok d) (harity : arguments.length = d.arity)
    (harity' : arguments'.length = d.arity) :
    Parallel invoke table
      (.called name arguments (invoke d.implementation arguments table).trace)
      (.called name arguments' (invoke d.implementation arguments' table).trace)
  | logged (record : Record) : Parallel invoke table (.logged record) (.logged record)

variable {invoke : Invocation ι} {table : FunctionTable ι}

theorem Parallel.callName {e e' : Event} (h : Parallel invoke table e e') :
    e.callName? = e'.callName? := by
  cases h <;> rfl

end Event

/-- Started on the table, two computations leave it alone and do parallel things. -/
def Comparison.parallel (invoke : Invocation ι) (table : FunctionTable ι) :
    Comparison (FunctionTable ι) (FunctionTable ι) where
  states one two := one = table ∧ two = table
  traces := List.Forall₂ (Event.Parallel invoke table)
  excuses _ := False
  astray _ := False
  nil := .nil
  append h h' := List.rel_append h h'

namespace Run

variable {α β : Type} {invoke : Invocation ι} {table : FunctionTable ι}

instance (R : α → β → Prop) : Covers (.parallel invoke table) R :=
  ⟨fun _ => Or.inr fun _ hastray => hastray⟩

/-- Started on the table, two computations go in parallel. -/
abbrev Parallel (invoke : Invocation ι) (table : FunctionTable ι) (R : α → β → Prop)
    (x : Run (FunctionTable ι) α) (y : Run (FunctionTable ι) β) : Prop :=
  Related (.parallel invoke table) R x y

/-- All that matters is what the two do on the table. -/
theorem parallel_iff {R : α → β → Prop} {x : Run (FunctionTable ι) α} {y : Run (FunctionTable ι) β} :
    Parallel invoke table R x y ↔ Ended R (x table).result (y table).result ∧
      ((x table).state = table ∧ (y table).state = table) ∧
      List.Forall₂ (Event.Parallel invoke table) (x table).trace (y table).trace := by
  constructor
  · intro h
    rcases h.alike table table ⟨rfl, rfl⟩ with
      (hastray | ⟨_, _, hexcused⟩) | ⟨hended, hstates, htraces⟩
    · exact hastray.elim
    · exact hexcused.elim
    · exact ⟨hended, hstates, htraces⟩
  · rintro ⟨hended, hstates, htraces⟩
    refine ⟨fun _ hastray => hastray.elim, fun one two hboth => ?_⟩
    obtain ⟨rfl, rfl⟩ : one = table ∧ two = table := hboth
    exact Or.inr ⟨hended, hstates, htraces⟩

theorem parallel_note {e e' : Event} (h : e.Parallel invoke table e') :
    Parallel invoke table Eq (note e) (note e') := related_note (.cons h .nil)

/-- What is looked up on the table is the same on both sides. -/
theorem Parallel.readOperators_bind {R : α → β → Prop}
    {f : FunctionTable ι → Run (FunctionTable ι) α} {g : FunctionTable ι → Run (FunctionTable ι) β}
    (h : Parallel invoke table R (f table) (g table)) :
    Parallel invoke table R (readOperators >>= f) (readOperators >>= g) := by
  rw [parallel_iff, Run.readOperators_bind, Run.readOperators_bind]
  exact parallel_iff.1 h

end Run

/-- A pending operator that the table has and that is no join. -/
structure Pending.Fits (options : Options) (table : FunctionTable ι) (p : Pending) : Prop where
  lookup : p.kind.lookup options table = .ok p.operator
  ne_join : p.kind ≠ .control .join

namespace Machine

open Run

variable {invoke : Invocation ι} {options : Options} {table : FunctionTable ι}

/-- Calls with as many values as the function takes go in parallel. -/
theorem parallel_call (hsteady : table.IsSteady invoke) {name : String} {d : Definition ι}
    (hget : table.get name = .ok d) {arguments arguments' : List Float}
    (harity : arguments.length = d.arity) (harity' : arguments'.length = d.arity) :
    Parallel invoke table (fun _ _ => True) (call invoke name arguments)
      (call invoke name arguments') := by
  obtain ⟨htable, v, x, hresult, hx⟩ := hsteady d (FunctionTable.mem_of_get hget) arguments harity
  obtain ⟨htable', v', x', hresult', hx'⟩ :=
    hsteady d (FunctionTable.mem_of_get hget) arguments' harity'
  rw [FunctionTable.name_of_get hget] at hx hx'
  rw [parallel_iff, call_of_get invoke hget rfl, call_of_get invoke hget rfl, hresult, hresult',
    judged, judged, hx, hx']
  exact ⟨.ok trivial, ⟨htable, htable'⟩, .cons (.called hget harity harity') .nil⟩

/-- An operator that is no join gives a value on both sides or on neither. -/
theorem parallel_apply (hsteady : table.IsSteady invoke) {k : Kind} {op : Operator}
    (hlookup : k.lookup options table = .ok op) (hjoin : k ≠ .control .join)
    {arguments arguments' : List Float} (harity : arguments.length = op.arity)
    (harity' : arguments'.length = op.arity) :
    Parallel invoke table (fun given given' => given.toList.length = given'.toList.length)
      (apply invoke arguments k) (apply invoke arguments' k) := by
  cases k with
  | arithmetic op' =>
      obtain rfl : op'.operator = op := Except.ok.inj hlookup
      obtain ⟨x, hx⟩ := op'.exists_apply harity
      obtain ⟨x', hx'⟩ := op'.exists_apply harity'
      rw [apply, apply, hx, hx']
      exact related_pure rfl
  | control marker =>
      cases marker with
      | join => exact absurd rfl hjoin
      | _ => exact related_pure rfl
  | callStart name =>
      obtain ⟨d, hget, hop⟩ := Kind.arity_of_lookup_callStart hlookup
      exact (parallel_call hsteady hget (hop ▸ harity) (hop ▸ harity')).bind
        fun _ _ _ => related_pure rfl
  | callEnd => exact related_pure rfl
  | comma => exact related_pure rfl

theorem parallel_reduce (hsteady : table.IsSteady invoke) {p : Pending}
    (hp : p.Fits options table) {values values' : List Float}
    (h : values.length = values'.length) :
    Parallel invoke table (fun vs vs' => vs.length = vs'.length) (reduce invoke values p)
      (reduce invoke values' p) := by
  rcases Nat.lt_or_ge values.length p.operator.arity with hlt | hle
  · rw [reduce, reduce, if_pos hlt, if_pos (h ▸ hlt), h]
    exact related_fail _
  · have harity := length_arguments hle
    have harity' := length_arguments (h ▸ hle)
    rw [reduce, reduce, if_neg (Nat.not_lt.2 hle), if_neg (Nat.not_lt.2 (h ▸ hle))]
    refine (parallel_note (.reduced (harity.trans harity'.symm))).bind fun _ _ _ =>
      (parallel_apply hsteady hp.lookup hp.ne_join harity harity').bind fun given given' hgiven =>
        related_pure ?_
    rw [List.length_append, List.length_append, List.length_drop, List.length_drop, hgiven, h]

/-- Two machines that differ in nothing but the numbers that they hold. -/
structure Parallel (options : Options) (table : FunctionTable ι) (m m' : Machine) : Prop where
  values : m.values.length = m'.values.length
  pending : m.pending = m'.pending
  operatorsRead : m.operatorsRead = m'.operatorsRead
  fits : ∀ p ∈ m.pending, p.Fits options table

theorem parallel_readOperator (hsteady : table.IsSteady invoke) {m m' : Machine}
    (h : m.Parallel options table m') {k : Kind} (hjoin : k ≠ .control .join) :
    Run.Parallel invoke table (Parallel options table) (m.readOperator invoke options k)
      (m'.readOperator invoke options k) := by
  obtain ⟨hvalues, hpending, hread, hfits⟩ := h
  rw [readOperator, readOperator, ← hpending, ← hread]
  refine Parallel.readOperators_bind ?_
  cases hlookup : k.lookup options table with
  | error fault => exact related_fail fault
  | ok op =>
      have hdue : Run.Parallel invoke table (fun vs vs' => vs.length = vs'.length)
          ((due op m.pending).foldlM (reduce invoke) m.values)
          ((due op m.pending).foldlM (reduce invoke) m'.values) := by
        have hsame : List.Forall₂ (fun p q : Pending => p = q ∧ p.Fits options table)
            (due op m.pending) (due op m.pending) :=
          List.forall₂_same.2 fun p hp => ⟨rfl, hfits p (List.takeWhile_subset _ hp)⟩
        refine related_foldlM (fun vs vs' p q hpq hlength => ?_) hsame hvalues
        obtain ⟨rfl, hp⟩ := hpq
        exact parallel_reduce hsteady hp hlength
      rw [ofExcept_ok, pure_bind, pure_bind]
      refine hdue.bind fun vs vs' hlength => related_pure ⟨hlength, rfl, rfl, fun p hp => ?_⟩
      rcases List.mem_cons.1 hp with rfl | hp
      · exact ⟨hlookup, hjoin⟩
      · exact hfits p (List.dropWhile_subset _ hp)

theorem parallel_readToken (hsteady : table.IsSteady invoke) {m m' : Machine}
    (h : m.Parallel options table m') {t t' : Token} (hkind : t.kind? = t'.kind?)
    (hjoin : t.kind? ≠ some (.control .join)) :
    Run.Parallel invoke table (Parallel options table) (m.readToken invoke options t)
      (m'.readToken invoke options t') := by
  cases t with
  | number x =>
      cases t' with
      | number x' =>
          exact related_pure ⟨congrArg Nat.succ h.values, h.pending, h.operatorsRead, h.fits⟩
      | operator k' => cases hkind
  | operator k =>
      cases t' with
      | number x' => cases hkind
      | operator k' =>
          obtain rfl : k = k' := Option.some.inj hkind
          exact parallel_readOperator hsteady h fun hk => hjoin (congrArg some hk)

/-- Streams of one shape are read in parallel. -/
theorem parallel_reads (hsteady : table.IsSteady invoke) {ts ts' : List Token}
    (hkinds : List.Forall₂
      (fun t t' => t.kind? ≠ some (.control .join) ∧ t.kind? = t'.kind?) ts ts')
    {m m' : Machine} (h : m.Parallel options table m') :
    Run.Parallel invoke table (Parallel options table) (m.reads invoke options ts)
      (m'.reads invoke options ts') :=
  related_foldlM (fun _ _ _ _ hkind hm => (parallel_note .taken).bind fun _ _ _ =>
    parallel_readToken hsteady hm hkind.2 hkind.1) hkinds h

/-- What a machine comes to depends on how many values it holds. -/
theorem ended_result {m m' : Machine} (h : m.values.length = m'.values.length) :
    Ended (fun _ _ => True) m.result m'.result := by
  obtain ⟨values, _, _⟩ := m
  obtain ⟨values', _, _⟩ := m'
  match values, values', h with
  | [], [], _ => exact .error _
  | [_], [_], _ => exact .ok trivial
  | x :: y :: vs, x' :: y' :: vs', h =>
      have hfault : Fault.unreduced (x :: y :: vs).length = .unreduced (x' :: y' :: vs').length :=
        congrArg Fault.unreduced h
      change Ended _ (.error (.unreduced (x :: y :: vs).length)) (.error _)
      rw [hfault]
      exact .error _

end Machine

namespace Event

variable {invoke : Invocation ι} {table : FunctionTable ι} {trace trace' : List Event}

theorem callNames_of_parallel (h : List.Forall₂ (Parallel invoke table) trace trace') :
    trace.filterMap callName? = trace'.filterMap callName? := by
  induction h with
  | nil => rfl
  | cons he _ ih => rw [List.filterMap_cons, List.filterMap_cons, he.callName, ih]

/-- Where no implementation lets its arguments choose what it calls, even nested calls are those of
the same functions. -/
theorem calls_of_parallel
    (hnested : ∀ d ∈ table.toList, ∀ arguments arguments' : List Float,
      arguments.length = d.arity → arguments'.length = d.arity →
      (callsIn (invoke d.implementation arguments table).trace).map Prod.fst =
        (callsIn (invoke d.implementation arguments' table).trace).map Prod.fst)
    (h : List.Forall₂ (Parallel invoke table) trace trace') :
    (callsIn trace).map Prod.fst = (callsIn trace').map Prod.fst := by
  induction h with
  | nil => rfl
  | cons he _ ih =>
      rw [callsIn, callsIn, List.map_append, List.map_append, ih]
      congr 1
      cases he with
      | called hget harity harity' =>
          rw [calls, calls, List.map_cons, List.map_cons,
            hnested _ (FunctionTable.mem_of_get hget) _ _ harity harity']
      | _ => rfl

end Event

/-- **Whether a stream is rejected, and how, depends on its shape alone.** On a table where every
implementation gives a number whatever it is called on, two streams that differ in nothing but their
numbers both have a value or both fail, with the same fault and after calls of the same functions.
What the implementations call in turn is theirs to choose, and the same functions, too, unless they
choose by their arguments. -/
theorem evaluate_parallel (invoke : Invocation ι) (options : Options) {table : FunctionTable ι}
    (hsteady : table.IsSteady invoke) {ts ts' : List Token}
    (hshape : ts.map Token.kind? = ts'.map Token.kind?)
    (hjoin : .operator (.control .join) ∉ ts) :
    let outcome := evaluate invoke options (some (Token.source ts)) table
    let outcome' := evaluate invoke options (some (Token.source ts')) table
    ((∃ x x', outcome.result = .ok x ∧ outcome'.result = .ok x') ∨
      ∃ fault, outcome.result = .error fault ∧ outcome'.result = .error fault) ∧
    outcome.trace.filterMap Event.callName? = outcome'.trace.filterMap Event.callName? ∧
    ((∀ d ∈ table.toList, ∀ arguments arguments' : List Float,
        arguments.length = d.arity → arguments'.length = d.arity →
        (Event.callsIn (invoke d.implementation arguments table).trace).map Prod.fst =
          (Event.callsIn (invoke d.implementation arguments' table).trace).map Prod.fst) →
      (Event.callsIn outcome.trace).map Prod.fst = (Event.callsIn outcome'.trace).map Prod.fst) := by
  intro outcome outcome'
  have hkinds : List.Forall₂
      (fun t t' : Token => t.kind? ≠ some (.control .join) ∧ t.kind? = t'.kind?) ts ts' := by
    refine (List.forall₂_and_left _ _).2 ⟨fun t ht hkind => hjoin ?_, ?_⟩
    · cases t with
      | number x => cases hkind
      | operator k =>
          obtain rfl := Option.some.inj hkind
          exact ht
    · have hsame : List.Forall₂ Eq (ts.map Token.kind?) (ts'.map Token.kind?) := by
        rw [hshape, List.forall₂_eq_eq_eq]
      exact List.forall₂_map_left_iff.1 (List.forall₂_map_right_iff.1 hsame)
  have hparallel : Run.Parallel invoke table (fun _ _ => True)
      (evaluate invoke options (some (Token.source ts)))
      (evaluate invoke options (some (Token.source ts'))) := by
    have hinitial : Machine.Parallel options table .initial .initial :=
      ⟨rfl, rfl, rfl, fun _ hp => absurd hp List.not_mem_nil⟩
    rw [Machine.evaluate_source, Machine.evaluate_source]
    refine Run.related_reportingRejection
      ((Machine.parallel_reads hsteady hkinds hinitial).bind fun m m' hm =>
        Run.related_ofExcept (Machine.ended_result hm.values)) fun fault => ?_
    exact List.Forall₂.cons (.logged _) .nil
  obtain ⟨hended, _, htraces⟩ := Run.parallel_iff.1 hparallel
  refine ⟨?_, Event.callNames_of_parallel htraces, fun hnested =>
    Event.calls_of_parallel hnested htraces⟩
  generalize outcome.result = r, outcome'.result = r' at hended
  cases hended with
  | ok h => exact Or.inl ⟨_, _, rfl, rfl⟩
  | error fault => exact Or.inr ⟨fault, rfl, rfl⟩

/-- A sum that is called and left beside another number: both streams are rejected for their two
values, whatever these are. -/
theorem evaluate_parallel_sum :
    let invoke := Routine.invoke ⟨false⟩ Routine.nestingLimit
    let table : FunctionTable Routine := ⟨[⟨"f", 2, .sum⟩]⟩
    let call (x y z : Float) : List Token := [.operator (.callStart "f"), .number x, .number y,
      .operator .callEnd, .operator (.control .closeBracket), .number z, .number 0,
      .operator (.arithmetic .div), .operator (.control .endExpr)]
    let outcome := evaluate invoke ⟨false⟩ (some (Token.source (call 1 2 3))) table
    let outcome' := evaluate invoke ⟨false⟩ (some (Token.source (call Binary64.nan 0 (-1)))) table
    outcome.result = .error (.unreduced 2) ∧ outcome'.result = .error (.unreduced 2) ∧
    outcome.trace.filterMap Event.callName? = ["f"] ∧
    outcome'.trace.filterMap Event.callName? = ["f"] := by
  intro invoke table call outcome outcome'
  have hsteady : table.IsSteady invoke := by
    intro d hd arguments _
    obtain rfl := List.mem_singleton.1 hd
    exact ⟨rfl, .float _, _, rfl, rfl⟩
  have hjoin : Token.operator (.control .join) ∉ call 1 2 3 := by
    intro h
    simp [call] at h
  have hshape : (call 1 2 3).map Token.kind? = (call Binary64.nan 0 (-1)).map Token.kind? := rfl
  obtain ⟨hsame, hnames, _⟩ := evaluate_parallel invoke ⟨false⟩ hsteady hshape hjoin
  have hresult : outcome.result = .error (.unreduced 2) := by
    rfl
  have hcalls : outcome.trace.filterMap Event.callName? = ["f"] := by
    decide +kernel
  refine ⟨hresult, ?_, hcalls, hnames ▸ hcalls⟩
  rcases hsame with ⟨x, _, hx, _⟩ | ⟨fault, hfault, hfault'⟩
  · rw [hresult] at hx
    cases hx
  · rw [hresult] at hfault
    rw [Except.error.inj hfault]
    exact hfault'

end Reckoner
