import Reckoner.Proofs.Reduction

/-!
The moments of a run. From one moment to the next a run does one thing: it takes a step of its
source, reduces the topmost pending operator, or lets the operator that it has looked up join the
pending ones. To go on from a moment is to do the next thing and go on from there (`finish_next`),
and every run has a last moment, with nothing left to do or with a fault (`Reached.exists_last`). So
what an evaluation does is what it does at one of the moments that it reaches, and an invariant of
`Moment.next` holds at all of them.
-/

namespace Reckoner

variable {ι : Type}

/-- A run between two things that it does: its machine, the operator that is looked up and has not joined
the pending ones yet, and what the source will still do. -/
structure Moment (ι : Type) where
  machine : Machine
  incoming : Option (Kind × Operator)
  rest : List (Step ι)

/-- The items that cannot be read on a table, each with the fault that it has for it: a payload without a
double, an operation that wraps no kind, what is no token, a call of a function that the table does not
have, and joining while it is switched off. -/
inductive Item.Refused (options : Options) (table : FunctionTable ι) : Item → Fault → Prop where
  | payload {v : Value} {fault : Fault} (h : v.operand = .error fault) :
    Refused options table (.number v) fault
  | subject {subject : Item} (h : ∀ k, subject ≠ .kind k) :
    Refused options table (.operation subject) (.ofSubject subject)
  | kind (k : Kind) : Refused options table (.kind k) (.ofItem (.kind k))
  | value (v : Value) : Refused options table (.value v) (.ofItem (.value v))
  | unknown {name : String} (h : table.find? name = none) :
    Refused options table (.operation (.kind (.callStart name))) (.unknownFunction name)
  | join (h : options.joinEnabled = false) :
    Refused options table (.operation (.kind (.control .join))) .joinDisabled

theorem Item.refused_of_token {options : Options} {table : FunctionTable ι} {item : Item}
    {fault : Fault} (h : item.token = .error fault) : item.Refused options table fault := by
  cases item with
  | number payload =>
      cases hoperand : payload.operand with
      | error fault' =>
          rw [token, hoperand] at h
          obtain rfl := Except.error.inj h
          exact .payload hoperand
      | ok x =>
          rw [token, hoperand] at h
          cases h
  | operation subject =>
      cases subject with
      | kind k => cases h
      | _ =>
          obtain rfl := Except.error.inj h
          exact .subject fun k hk => by cases hk
  | kind k =>
      obtain rfl := Except.error.inj h
      exact .kind k
  | value v =>
      obtain rfl := Except.error.inj h
      exact .value v

theorem Item.eq_of_token {item : Item} {k : Kind} (h : item.token = .ok (.operator k)) :
    item = .operation (.kind k) := by
  cases item with
  | number payload =>
      rw [token] at h
      cases hoperand : payload.operand with
      | error fault => rw [hoperand] at h; cases h
      | ok x => rw [hoperand] at h; cases h
  | operation subject =>
      cases subject with
      | kind l =>
          cases h
          rfl
      | _ => cases h
  | _ => cases h

theorem Item.refused_of_lookup {options : Options} {table : FunctionTable ι} {k : Kind}
    {fault : Fault} (h : k.lookup options table = .error fault) :
    (Item.operation (.kind k)).Refused options table fault := by
  cases k with
  | control marker =>
      cases marker with
      | join =>
          rw [Kind.lookup] at h
          split at h
          · cases h
          · rename_i hoff
            obtain rfl := Except.error.inj h
            exact .join (Bool.eq_false_iff.2 hoff)
      | _ => cases h
  | callStart name =>
      cases hget : table.get name with
      | ok d =>
          rw [Kind.lookup, hget] at h
          cases h
      | error fault' =>
          obtain ⟨hnone, hfault⟩ := FunctionTable.get_eq_error hget
          rw [Kind.lookup, hget] at h
          obtain rfl : fault' = fault := Except.error.inj h
          rw [hfault]
          exact .unknown hnone
  | _ => cases h

def Definition.record (d : Definition ι) (table : FunctionTable ι) : Record :=
  if table.contains d.name then .replaced d.name d.arity else .registered d.name d.arity

theorem Run.register_of_ok {r : Registration ι} {d : Definition ι} (h : r.definition = .ok d)
    (table : FunctionTable ι) :
    Run.register r table = ⟨.ok (), table.insert d, [.logged (d.record table)]⟩ := by
  rw [register, h]
  rfl

theorem Run.register_of_error {r : Registration ι} {fault : Fault}
    (h : r.definition = .error fault) (table : FunctionTable ι) :
    Run.register r table = ⟨.error fault, table, []⟩ := by
  rw [register, h]
  rfl

namespace Moment

variable (invoke : Invocation ι) (options : Options)

def start (source : List (Step ι)) : Moment ι := ⟨.initial, none, source⟩

/-- The next thing that a run does. At the end of its source it stays where it is. -/
def next : Moment ι → Run (FunctionTable ι) (Moment ι)
  | ⟨m, none, []⟩ => return ⟨m, none, []⟩
  | ⟨m, none, .yield item :: rest⟩ => do
    Run.note .taken
    let token ← Run.ofExcept item.token
    match token with
    | .number x => return ⟨{ m with values := x :: m.values }, none, rest⟩
    | .operator k => do
      let table ← Run.readOperators
      let operator ← Run.ofExcept (k.lookup options table)
      return ⟨m, some (k, operator), rest⟩
  | ⟨m, none, .register r :: rest⟩ => do
    Run.register r
    return ⟨m, none, rest⟩
  | ⟨m, none, .clear :: rest⟩ => do
    Run.clear
    return ⟨m, none, rest⟩
  | ⟨⟨values, [], n⟩, some (k, op), rest⟩ => return ⟨⟨values, [⟨n, k, op⟩], n + 1⟩, none, rest⟩
  | ⟨⟨values, p :: pending, n⟩, some (k, op), rest⟩ =>
    if op.unwinds p.operator then do
      let values' ← Machine.reduce invoke values p
      return ⟨⟨values', pending, n⟩, some (k, op), rest⟩
    else return ⟨⟨values, ⟨n, k, op⟩ :: p :: pending, n + 1⟩, none, rest⟩

/-- All that a run does from a moment on, up to the machine at the end of its source. -/
def finish : Moment ι → Run (FunctionTable ι) Machine
  | ⟨m, none, rest⟩ => m.steps invoke options rest
  | ⟨m, some (k, op), rest⟩ => do
    let values ← (Machine.due op m.pending).foldlM (Machine.reduce invoke) m.values
    Machine.steps invoke options
      ⟨values, ⟨m.operatorsRead, k, op⟩ :: Machine.kept op m.pending, m.operatorsRead + 1⟩ rest

/-- A run goes on by doing the next thing and going on from there. -/
theorem finish_next (c : Moment ι) :
    c.finish invoke options = c.next invoke options >>= finish invoke options := by
  fun_cases next invoke options c with
  | case1 m => rfl
  | case2 m item rest =>
      rw [finish, Machine.steps, List.foldlM_cons, Machine.step]
      simp only [bind_assoc]
      apply bind_congr
      intro _
      apply bind_congr
      intro token
      cases token with
      | number x => rfl
      | operator k =>
          simp only [Machine.readToken, Machine.readOperator, bind_assoc, pure_bind]
          rfl
  | case3 m r rest =>
      rw [finish, Machine.steps, List.foldlM_cons, Machine.step]
      simp only [bind_assoc, pure_bind]
      rfl
  | case4 m rest =>
      rw [finish, Machine.steps, List.foldlM_cons, Machine.step]
      simp only [bind_assoc, pure_bind]
      rfl
  | case5 values n k op rest =>
      rw [pure_bind]
      rfl
  | case6 values p pending n k op rest h =>
      have hdue : Machine.due op (p :: pending) = p :: Machine.due op pending := by
        simp [Machine.due, h]
      have hkept : Machine.kept op (p :: pending) = Machine.kept op pending := by
        simp [Machine.kept, h]
      rw [finish, hdue, hkept, List.foldlM_cons, bind_assoc, bind_assoc]
      rfl
  | case7 values p pending n k op rest h =>
      have hdue : Machine.due op (p :: pending) = [] := by simp [Machine.due, h]
      have hkept : Machine.kept op (p :: pending) = p :: pending := by simp [Machine.kept, h]
      rw [finish, hdue, hkept, List.foldlM_nil, pure_bind]
      rfl

def after : Nat → Moment ι → Run (FunctionTable ι) (Moment ι)
  | 0, c => pure c
  | n + 1, c => after n c >>= next invoke options

theorem finish_after (n : Nat) (c : Moment ι) :
    c.finish invoke options = c.after invoke options n >>= finish invoke options := by
  induction n with
  | zero => rfl
  | succ n ih =>
      rw [ih, after, bind_assoc]
      exact bind_congr fun c' => finish_next invoke options c'

/-! ### What a run is about to do -/

/-- The next item is an operator of this kind. -/
def Reads (c : Moment ι) (k : Kind) : Prop :=
  c.incoming = none ∧ ∃ rest, c.rest = .yield (.operation (.kind k)) :: rest

/-- The topmost pending operator is due. -/
def Reduces (c : Moment ι) (p : Pending) : Prop :=
  ∃ w, c.incoming = some w ∧ w.2.unwinds p.operator = true ∧ c.machine.pending.head? = some p

def IsFinal (c : Moment ι) : Prop := c.incoming = none ∧ c.rest = []

theorem IsFinal.finish_eq {c : Moment ι} (h : c.IsFinal) :
    c.finish invoke options = pure c.machine := by
  obtain ⟨m, incoming, rest⟩ := c
  obtain ⟨rfl, rfl⟩ := h
  rfl

/-- The operators that a run holds: the pending ones, and the one that is to join them. -/
def held (c : Moment ι) : List Pending :=
  (c.incoming.map fun w => ⟨c.machine.operatorsRead, w.1, w.2⟩).toList ++ c.machine.pending

theorem Reduces.mem_held {c : Moment ι} {p : Pending} (h : c.Reduces p) : p ∈ c.held := by
  obtain ⟨_, _, _, hhead⟩ := h
  exact List.mem_append_right _ (List.mem_of_head? hhead)

/-- The moment after the topmost pending operator has been reduced to these values. -/
def reduced (c : Moment ι) (values : List Float) : Moment ι :=
  { c with machine := ⟨values, c.machine.pending.tail, c.machine.operatorsRead⟩ }

variable {invoke options}

theorem Reduces.next_eq {c : Moment ι} {p : Pending} (h : c.Reduces p) :
    c.next invoke options = Machine.reduce invoke c.machine.values p >>= fun values =>
      pure (c.reduced values) := by
  obtain ⟨⟨values, pending, n⟩, incoming, rest⟩ := c
  obtain ⟨⟨k, op⟩, hincoming, hunwinds, hhead⟩ := h
  obtain rfl : incoming = some (k, op) := hincoming
  cases pending with
  | nil => cases hhead
  | cons q pending =>
      obtain rfl : q = p := Option.some.inj hhead
      rw [next, if_pos hunwinds]
      rfl

/-! ### What a run may do -/

variable (invoke options)

/-- The things that a run may do at a moment, each with all that comes of it. -/
inductive Deed (table : FunctionTable ι) : Moment ι → Outcome (FunctionTable ι) (Moment ι) → Prop where
  | rests (m : Machine) : Deed table ⟨m, none, []⟩ ⟨.ok ⟨m, none, []⟩, table, []⟩
  | number {m : Machine} {item : Item} {rest : List (Step ι)} {x : Float}
    (h : item.token = .ok (.number x)) :
    Deed table ⟨m, none, .yield item :: rest⟩
      ⟨.ok ⟨{ m with values := x :: m.values }, none, rest⟩, table, [.taken]⟩
  | operator {m : Machine} {k : Kind} {op : Operator} {rest : List (Step ι)}
    (h : k.lookup options table = .ok op) :
    Deed table ⟨m, none, .yield (.operation (.kind k)) :: rest⟩
      ⟨.ok ⟨m, some (k, op), rest⟩, table, [.taken]⟩
  | refuses {m : Machine} {item : Item} {rest : List (Step ι)} {fault : Fault}
    (h : item.Refused options table fault) :
    Deed table ⟨m, none, .yield item :: rest⟩ ⟨.error fault, table, [.taken]⟩
  | registers {m : Machine} {r : Registration ι} {d : Definition ι} {rest : List (Step ι)}
    (h : r.definition = .ok d) :
    Deed table ⟨m, none, .register r :: rest⟩
      ⟨.ok ⟨m, none, rest⟩, table.insert d, [.logged (d.record table)]⟩
  | refusesRegistration {m : Machine} {r : Registration ι} {fault : Fault} {rest : List (Step ι)}
    (h : r.definition = .error fault) :
    Deed table ⟨m, none, .register r :: rest⟩ ⟨.error fault, table, []⟩
  | clears {m : Machine} {rest : List (Step ι)} :
    Deed table ⟨m, none, .clear :: rest⟩ ⟨.ok ⟨m, none, rest⟩, .empty, []⟩
  | joins {m : Machine} {k : Kind} {op : Operator} {rest : List (Step ι)}
    (h : ∀ p ∈ m.pending.head?, op.unwinds p.operator = false) :
    Deed table ⟨m, some (k, op), rest⟩
      ⟨.ok ⟨⟨m.values, ⟨m.operatorsRead, k, op⟩ :: m.pending, m.operatorsRead + 1⟩, none, rest⟩,
        table, []⟩
  | reduces {c : Moment ι} {p : Pending} {reduction : Outcome (FunctionTable ι) (List Float)}
    (h : c.Reduces p) (hreduction : Machine.reduce invoke c.machine.values p table = reduction) :
    Deed table c ⟨reduction.result.map c.reduced, reduction.state, reduction.trace⟩

theorem deed_next (c : Moment ι) (table : FunctionTable ι) :
    Deed invoke options table c (c.next invoke options table) := by
  fun_cases next invoke options c with
  | case1 m => exact .rests m
  | case2 m item rest =>
      rw [Run.bind_of_ok (a := ()) rfl]
      cases htoken : item.token with
      | error fault => exact .refuses (Item.refused_of_token htoken)
      | ok token =>
          cases token with
          | number x => exact .number htoken
          | operator k =>
              obtain rfl := Item.eq_of_token htoken
              simp only [Run.ofExcept_ok, pure_bind, Run.readOperators_bind, Run.bind_pure_apply,
                Run.ofExcept_result, Run.ofExcept_state, Run.ofExcept_trace]
              cases hlookup : k.lookup options (Run.note .taken table).state with
              | error fault => exact .refuses (Item.refused_of_lookup hlookup)
              | ok op => exact .operator hlookup
  | case3 m r rest =>
      cases h : r.definition with
      | error fault =>
          have hregister := Run.register_of_error h table
          rw [Run.bind_of_error (congrArg Outcome.result hregister), hregister]
          exact .refusesRegistration h
      | ok d =>
          have hregister := Run.register_of_ok h table
          rw [Run.bind_of_ok (congrArg Outcome.result hregister), hregister]
          exact .registers h
  | case4 m rest => exact .clears
  | case5 values n k op rest => exact .joins fun p hp => by cases hp
  | case6 values p pending n k op rest hunwinds =>
      rw [Run.bind_pure_apply]
      have hreduces : Reduces (⟨⟨values, p :: pending, n⟩, some (k, op), rest⟩ : Moment ι) p :=
        ⟨(k, op), rfl, hunwinds, rfl⟩
      exact .reduces hreduces rfl
  | case7 values p pending n k op rest hunwinds =>
      refine .joins fun q hq => ?_
      obtain rfl : p = q := Option.some.inj hq
      exact Bool.eq_false_iff.2 hunwinds

variable {invoke options}

/-- What fails next is an item, a registration or a reduction. -/
theorem error_of_next {c : Moment ι} {table : FunctionTable ι} {fault : Fault}
    (h : (c.next invoke options table).result = .error fault) :
    (∃ item, c.rest.head? = some (.yield item) ∧ item.Refused options table fault) ∨
    (∃ r, c.rest.head? = some (.register r) ∧ r.definition = .error fault) ∨
    ∃ p, c.Reduces p ∧ (Machine.reduce invoke c.machine.values p table).result = .error fault := by
  have hdeed := deed_next invoke options c table
  generalize c.next invoke options table = outcome at h hdeed ⊢
  cases hdeed with
  | refuses hrefused =>
      rw [← Except.error.inj h]
      exact Or.inl ⟨_, rfl, hrefused⟩
  | refusesRegistration hrefused =>
      rw [← Except.error.inj h]
      exact Or.inr (Or.inl ⟨_, rfl, hrefused⟩)
  | reduces hreduces hreduction =>
      rw [← hreduction] at h
      exact Or.inr (Or.inr ⟨_, hreduces, Run.map_eq_error h⟩)
  | _ => cases h

/-- What a run holds next it held before, or it has just looked it up for the item that it read. -/
theorem mem_held_next {c c' : Moment ι} {table : FunctionTable ι}
    (h : (c.next invoke options table).result = .ok c') {p : Pending} (hp : p ∈ c'.held) :
    p ∈ c.held ∨ c.Reads p.kind ∧ c.machine.operatorsRead = p.position ∧
      p.kind.lookup options table = .ok p.operator := by
  have hdeed := deed_next invoke options c table
  generalize c.next invoke options table = outcome at h hdeed
  cases hdeed with
  | refuses hrefused => cases h
  | refusesRegistration hrefused => cases h
  | @operator m k op rest hop =>
      obtain rfl := Except.ok.inj h
      rcases List.mem_cons.1 hp with rfl | hp
      · exact Or.inr ⟨⟨rfl, rest, rfl⟩, rfl, hop⟩
      · exact Or.inl hp
  | reduces hreduces hreduction =>
      obtain ⟨values, _, rfl⟩ := Run.map_eq_ok h
      rcases List.mem_append.1 hp with hp | hp
      · exact Or.inl (List.mem_append_left _ hp)
      · exact Or.inl (List.mem_append_right _ (List.mem_of_mem_tail hp))
  | _ =>
      obtain rfl := Except.ok.inj h
      exact Or.inl hp

theorem rest_next {c c' : Moment ι} {table : FunctionTable ι}
    (h : (c.next invoke options table).result = .ok c') : c'.rest <:+ c.rest := by
  have hdeed := deed_next invoke options c table
  generalize c.next invoke options table = outcome at h hdeed
  cases hdeed with
  | refuses hrefused => cases h
  | refusesRegistration hrefused => cases h
  | rests m =>
      obtain rfl := Except.ok.inj h
      exact List.suffix_refl _
  | joins hjoins =>
      obtain rfl := Except.ok.inj h
      exact List.suffix_refl _
  | reduces hreduces hreduction =>
      obtain ⟨values, _, rfl⟩ := Run.map_eq_ok h
      exact List.suffix_refl _
  | _ =>
      obtain rfl := Except.ok.inj h
      exact List.suffix_cons _ _

/-- How many operators have been looked up. -/
def seen (c : Moment ι) : Nat := c.machine.operatorsRead + c.incoming.toList.length

theorem seen_next {c c' : Moment ι} {table : FunctionTable ι}
    (h : (c.next invoke options table).result = .ok c') :
    c.seen ≤ c'.seen ∧ ∀ k, c.Reads k → c.seen < c'.seen := by
  have hdeed := deed_next invoke options c table
  generalize c.next invoke options table = outcome at h hdeed
  cases hdeed with
  | refuses hrefused => cases h
  | refusesRegistration hrefused => cases h
  | operator hop =>
      obtain rfl := Except.ok.inj h
      exact ⟨Nat.le_succ _, fun k _ => Nat.lt_succ_self _⟩
  | number hnumber =>
      obtain rfl := Except.ok.inj h
      refine ⟨Nat.le_refl _, fun k hk => ?_⟩
      obtain ⟨_, rest, hrest⟩ := hk
      obtain rfl := Step.yield.inj (List.cons.inj hrest).1
      cases hnumber
  | reduces hreduces hreduction =>
      obtain ⟨values, _, rfl⟩ := Run.map_eq_ok h
      obtain ⟨w, hincoming, _⟩ := hreduces
      exact ⟨Nat.le_refl _, fun k hk => by rw [hk.1] at hincoming; cases hincoming⟩
  | joins hjoins =>
      obtain rfl := Except.ok.inj h
      exact ⟨Nat.le_refl _, fun k hk => by cases hk.1⟩
  | _ =>
      obtain rfl := Except.ok.inj h
      exact ⟨Nat.le_refl _, fun k hk => by obtain ⟨_, rest, hrest⟩ := hk; cases hrest⟩

/-- How much is left to do at most. -/
def remaining (c : Moment ι) : Nat :=
  3 * c.rest.length + 2 * c.incoming.toList.length + c.machine.pending.length

theorem remaining_next {c c' : Moment ι} {table : FunctionTable ι}
    (h : (c.next invoke options table).result = .ok c') (hfinal : ¬c.IsFinal) :
    c'.remaining < c.remaining := by
  have hdeed := deed_next invoke options c table
  generalize c.next invoke options table = outcome at h hdeed
  cases hdeed with
  | refuses hrefused => cases h
  | refusesRegistration hrefused => cases h
  | rests m => exact absurd ⟨rfl, rfl⟩ hfinal
  | reduces hreduces hreduction =>
      obtain ⟨values, _, rfl⟩ := Run.map_eq_ok h
      obtain ⟨_, _, _, hhead⟩ := hreduces
      have hpos : 0 < c.machine.pending.length :=
        List.length_pos_of_mem (List.mem_of_head? hhead)
      simp only [remaining, reduced, List.length_tail]
      omega
  | _ =>
      obtain rfl := Except.ok.inj h
      simp only [remaining, List.length_cons, Option.toList_none, Option.toList_some,
        List.length_nil]
      omega

end Moment

/-! ### Reports -/

def Fault.report (fault : Fault) : List Event :=
  if fault.rejectsStream then [.logged (.rejected fault)] else []

/-- What an evaluation reports of its end. -/
def report {α : Type} : Except Fault α → List Event
  | .ok _ => []
  | .error fault => fault.report

theorem exists_of_mem_report {α : Type} {result : Except Fault α} {e : Event}
    (h : e ∈ report result) : ∃ fault, e = .logged (.rejected fault) := by
  cases result with
  | ok a => cases h
  | error fault =>
      rw [report, Fault.report] at h
      split at h
      · exact ⟨fault, List.mem_singleton.1 h⟩
      · cases h

theorem report_logged {α : Type} {result : Except Fault α} {e : Event} (h : e ∈ report result) :
    ∃ record, e = .logged record := by
  obtain ⟨fault, he⟩ := exists_of_mem_report h
  exact ⟨.rejected fault, he⟩

/-- A report tells of no call. -/
theorem callsIn_report {α : Type} (result : Except Fault α) :
    Event.callsIn (report result) = [] := by
  cases result with
  | ok a => rfl
  | error fault =>
      rw [report, Fault.report]
      split <;> rfl

theorem Run.reportingRejection_eq {α : Type} (x : Run (FunctionTable ι) α) (table : FunctionTable ι) :
    reportingRejection x table =
      ⟨(x table).result, (x table).state, (x table).trace ++ report (x table).result⟩ := by
  cases h : (x table).result with
  | ok a =>
      rw [reportingRejection_of_ok h, report, List.append_nil, ← h]
  | error fault =>
      cases hrejects : fault.rejectsStream with
      | true => simp [reportingRejection, report, Fault.report, h, hrejects]
      | false =>
          simp only [reportingRejection, report, Fault.report, h, hrejects, Bool.false_eq_true,
            if_false, List.append_nil]
          rw [← h]

theorem evaluate_of_steps {invoke : Invocation ι} {options : Options} {source : List (Step ι)}
    {table : FunctionTable ι} {read : Outcome (FunctionTable ι) Machine}
    (h : Machine.initial.steps invoke options source table = read) :
    evaluate invoke options (some source) table =
      ⟨read.result >>= Machine.result, read.state,
        read.trace ++ report (read.result >>= Machine.result)⟩ := by
  rw [evaluate, evaluateSteps, Run.reportingRejection_eq]
  cases hresult : read.result with
  | error fault =>
      rw [Run.bind_of_error (h ▸ hresult), h]
      rfl
  | ok m =>
      rw [Run.bind_of_ok (h ▸ hresult), h, Run.ofExcept_result, Run.ofExcept_state,
        Run.ofExcept_trace, List.append_nil]
      rfl

/-! ### The moments that a run reaches -/

/-- A moment of the run of a source on a table: how many things the run has done, the table that it
has left so far, and its trace. -/
structure Reached (invoke : Invocation ι) (options : Options) (source : List (Step ι))
    (table : FunctionTable ι) where
  time : Nat
  moment : Moment ι
  present : FunctionTable ι
  trace : List Event
  arrives : (Moment.start source).after invoke options time table = ⟨.ok moment, present, trace⟩

namespace Reached

variable {invoke : Invocation ι} {options : Options} {source : List (Step ι)}
  {table : FunctionTable ι}

def next (now : Reached invoke options source table) : Outcome (FunctionTable ι) (Moment ι) :=
  now.moment.next invoke options now.present

def start : Reached invoke options source table := ⟨0, .start source, table, [], rfl⟩

def advance (now : Reached invoke options source table) (c : Moment ι)
    (h : now.next.result = .ok c) : Reached invoke options source table where
  time := now.time + 1
  moment := c
  present := now.next.state
  trace := now.trace ++ now.next.trace
  arrives := by
    have harrives := now.arrives
    rw [Moment.after, Run.bind_of_ok (congrArg Outcome.result harrives), harrives]
    change (⟨now.next.result, now.next.state, now.trace ++ now.next.trace⟩ : Outcome (FunctionTable ι) _) = _
    rw [h]

/-- Every moment but the start comes from one before it. -/
theorem eq_start_or_advance (now : Reached invoke options source table) :
    now = start ∨ ∃ earlier c h, earlier.time < now.time ∧ now = advance earlier c h := by
  obtain ⟨time, moment, present, trace, arrives⟩ := now
  cases time with
  | zero =>
      have hresult := congrArg Outcome.result arrives
      have htable := congrArg Outcome.state arrives
      have htrace := congrArg Outcome.trace arrives
      obtain rfl : Moment.start source = moment := Except.ok.inj hresult
      obtain rfl : table = present := htable
      obtain rfl : [] = trace := htrace
      exact Or.inl rfl
  | succ n =>
      obtain ⟨c, hc, hnext⟩ := Run.bind_result_eq_ok.1 (congrArg Outcome.result arrives)
      generalize hearlier : Moment.after invoke options n (.start source) table = before at hc hnext
      obtain ⟨_, present', trace'⟩ := before
      obtain rfl := hc
      let earlier : Reached invoke options source table := ⟨n, c, present', trace', hearlier⟩
      have hresult : earlier.next.result = .ok moment := hnext
      have hsame : (⟨earlier.next.result, earlier.next.state, earlier.trace ++ earlier.next.trace⟩ :
          Outcome (FunctionTable ι) (Moment ι)) = ⟨.ok moment, present, trace⟩ := by
        rw [← arrives, Moment.after, Run.bind_of_ok (congrArg Outcome.result hearlier), hearlier]
        rfl
      obtain rfl : earlier.next.state = present := congrArg Outcome.state hsame
      obtain rfl : earlier.trace ++ earlier.next.trace = trace := congrArg Outcome.trace hsame
      exact Or.inr ⟨earlier, moment, hresult, Nat.lt_succ_self n, rfl⟩

/-- What holds at the start and is kept by whatever is done next holds at every moment. The induction is
on the time: a moment is the start, or is reached by one thing from an earlier one. -/
theorem invariant {good : Reached invoke options source table → Prop} (hstart : good start)
    (hnext : ∀ earlier c h, good earlier → good (advance earlier c h))
    (now : Reached invoke options source table) : good now := by
  induction htime : now.time using Nat.strongRecOn generalizing now with
  | ind n ih =>
      rcases now.eq_start_or_advance with rfl | ⟨earlier, c, h, hlt, rfl⟩
      · exact hstart
      · exact hnext earlier c h (ih earlier.time (htime ▸ hlt) earlier rfl)

theorem eq_of_time {a b : Reached invoke options source table} (h : a.time = b.time) : a = b := by
  obtain ⟨time, moment, present, trace, harrives⟩ := a
  obtain ⟨_, moment', present', trace', harrives'⟩ := b
  obtain rfl : time = _ := h
  have hsame := harrives.symm.trans harrives'
  obtain rfl : moment = moment' := Except.ok.inj (congrArg Outcome.result hsame)
  obtain rfl : present = present' := congrArg Outcome.state hsame
  obtain rfl : trace = trace' := congrArg Outcome.trace hsame
  rfl

theorem seen_lt {earlier : Reached invoke options source table} {k : Kind}
    (h : earlier.moment.Reads k) (now : Reached invoke options source table) :
    earlier.time < now.time → earlier.moment.seen < now.moment.seen := by
  induction now using invariant with
  | hstart => exact fun hlt => absurd hlt (Nat.not_lt_zero _)
  | hnext before c hc ih =>
      intro hlt
      obtain ⟨hle, hread⟩ := Moment.seen_next hc
      rcases Nat.lt_or_eq_of_le (Nat.le_of_lt_succ hlt) with hlt | heq
      · exact Nat.lt_of_lt_of_le (ih hlt) hle
      · obtain rfl := eq_of_time heq
        exact hread k h

/-- Every operator is read at one moment only: of two moments that read an operator, the later one has
seen the one that the earlier one reads. -/
theorem eq_of_reads {a b : Reached invoke options source table} {k l : Kind}
    (ha : a.moment.Reads k) (hb : b.moment.Reads l)
    (h : a.moment.machine.operatorsRead = b.moment.machine.operatorsRead) : a = b := by
  have hseen : a.moment.seen = b.moment.seen := by
    rw [Moment.seen, Moment.seen, ha.1, hb.1, h]
  rcases Nat.lt_trichotomy a.time b.time with hlt | heq | hlt
  · exact absurd hseen (Nat.ne_of_lt (seen_lt ha b hlt))
  · exact eq_of_time heq
  · exact absurd hseen (Nat.ne_of_gt (seen_lt hb a hlt))

/-- An operator that a run holds has been read before, and looked up on the table of that time. -/
theorem exists_read (now : Reached invoke options source table) :
    ∀ p ∈ now.moment.held, ∃ earlier : Reached invoke options source table,
      earlier.time < now.time ∧ earlier.moment.Reads p.kind ∧
        earlier.moment.machine.operatorsRead = p.position ∧
        p.kind.lookup options earlier.present = .ok p.operator := by
  induction now using invariant with
  | hstart => exact fun p hp => absurd hp List.not_mem_nil
  | hnext before c h ih =>
      intro p hp
      rcases Moment.mem_held_next h hp with hp | ⟨hreads, hposition, hlookup⟩
      · obtain ⟨earlier, hlt, hearlier⟩ := ih p hp
        exact ⟨earlier, Nat.lt_succ_of_lt hlt, hearlier⟩
      · exact ⟨before, Nat.lt_succ_self _, hreads, hposition, hlookup⟩

theorem suits_of_held (now : Reached invoke options source table) {p : Pending}
    (hp : p ∈ now.moment.held) : p.kind.Suits p.operator := by
  obtain ⟨_, _, _, _, hlookup⟩ := now.exists_read p hp
  exact Kind.suits_of_lookup hlookup

theorem exists_of_mem_trace (now : Reached invoke options source table) :
    ∀ e ∈ now.trace, ∃ earlier : Reached invoke options source table, e ∈ earlier.next.trace := by
  induction now using invariant with
  | hstart => exact fun e he => absurd he List.not_mem_nil
  | hnext before c h ih =>
      intro e he
      rcases List.mem_append.1 he with he | he
      · exact ih e he
      · exact ⟨before, he⟩

theorem rest_suffix (now : Reached invoke options source table) : now.moment.rest <:+ source := by
  induction now using invariant with
  | hstart => exact List.suffix_refl _
  | hnext before c h ih => exact (Moment.rest_next h).trans ih

/-- A run that has come to a moment does what it does from there on. -/
theorem steps_of_finish {now : Reached invoke options source table}
    {further : Outcome (FunctionTable ι) Machine}
    (h : now.moment.finish invoke options now.present = further) :
    Machine.initial.steps invoke options source table =
      ⟨further.result, further.state, now.trace ++ further.trace⟩ := by
  have harrives := now.arrives
  have hsteps : Machine.initial.steps invoke options source =
      (Moment.start source).finish invoke options := rfl
  rw [hsteps, Moment.finish_after invoke options now.time (.start source),
    Run.bind_of_ok (congrArg Outcome.result harrives), harrives, h]

theorem steps_of_error {now : Reached invoke options source table} {fault : Fault}
    (h : now.next.result = .error fault) :
    Machine.initial.steps invoke options source table =
      ⟨.error fault, now.next.state, now.trace ++ now.next.trace⟩ := by
  have hfinish : now.moment.finish invoke options now.present =
      ⟨.error fault, now.next.state, now.next.trace⟩ := by
    rw [Moment.finish_next, Run.bind_of_error h]
    rfl
  exact steps_of_finish hfinish

theorem steps_of_final {now : Reached invoke options source table} (h : now.moment.IsFinal) :
    Machine.initial.steps invoke options source table =
      ⟨.ok now.moment.machine, now.present, now.trace⟩ := by
  have hfinish : now.moment.finish invoke options now.present =
      ⟨.ok now.moment.machine, now.present, []⟩ := by
    rw [h.finish_eq]
    rfl
  rw [steps_of_finish hfinish, List.append_nil]

/-- Every run has a last moment: nothing is left to do, or the next thing fails. What is left to do gets
less with everything that is done. -/
theorem exists_last (now : Reached invoke options source table) :
    ∃ last : Reached invoke options source table, last.moment.IsFinal ∨
      ∃ fault, last.next.result = .error fault := by
  induction hremaining : now.moment.remaining using Nat.strongRecOn generalizing now with
  | ind n ih =>
      by_cases hfinal : now.moment.IsFinal
      · exact ⟨now, Or.inl hfinal⟩
      · cases hnext : now.next.result with
        | error fault => exact ⟨now, Or.inr ⟨fault, hnext⟩⟩
        | ok c =>
            have hlt := Moment.remaining_next hnext hfinal
            exact ih c.remaining (hremaining ▸ hlt) (now.advance c hnext) rfl

theorem evaluate_of_error {now : Reached invoke options source table} {fault : Fault}
    (h : now.next.result = .error fault) :
    evaluate invoke options (some source) table =
      ⟨.error fault, now.next.state, now.trace ++ (now.next.trace ++ fault.report)⟩ := by
  rw [evaluate_of_steps (steps_of_error h), ← List.append_assoc]
  rfl

theorem evaluate_of_final {now : Reached invoke options source table} (h : now.moment.IsFinal) :
    evaluate invoke options (some source) table =
      ⟨now.moment.machine.result, now.present, now.trace ++ report now.moment.machine.result⟩ :=
  evaluate_of_steps (steps_of_final h)

theorem trace_begins (now : Reached invoke options source table) :
    now.trace <+: (evaluate invoke options (some source) table).trace := by
  have hfinish : now.moment.finish invoke options now.present =
      now.moment.finish invoke options now.present := rfl
  rw [evaluate_of_steps (steps_of_finish hfinish), List.append_assoc]
  exact List.prefix_append _ _

/-- What a run has done and does next stands at the beginning of the trace of the evaluation. -/
theorem next_begins (now : Reached invoke options source table) :
    now.trace ++ now.next.trace <+: (evaluate invoke options (some source) table).trace := by
  cases h : now.next.result with
  | error fault =>
      rw [evaluate_of_error h, ← List.append_assoc]
      exact List.prefix_append _ _
  | ok c => exact (now.advance c h).trace_begins

/-- Whatever an evaluation traces it did at some moment, its report apart. -/
theorem exists_of_mem_evaluate {e : Event}
    (h : e ∈ (evaluate invoke options (some source) table).trace)
    (hreport : ∀ fault, e ≠ .logged (.rejected fault)) :
    ∃ now : Reached invoke options source table, e ∈ now.next.trace := by
  obtain ⟨last, hfinal | ⟨fault, hfault⟩⟩ :=
    exists_last (start : Reached invoke options source table)
  · rw [evaluate_of_final hfinal] at h
    rcases List.mem_append.1 h with h | h
    · exact last.exists_of_mem_trace e h
    · obtain ⟨fault, he⟩ := exists_of_mem_report h
      exact absurd he (hreport fault)
  · rw [evaluate_of_error hfault] at h
    rcases List.mem_append.1 h with h | h
    · exact last.exists_of_mem_trace e h
    · rcases List.mem_append.1 h with h | h
      · exact ⟨last, h⟩
      · have hfault : e ∈ report (.error fault : Except Fault Float) := h
        obtain ⟨fault, he⟩ := exists_of_mem_report hfault
        exact absurd he (hreport fault)

end Reached

end Reckoner
