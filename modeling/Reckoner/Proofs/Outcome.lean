import Reckoner.Run

/-!
Laws of computations on a state. A computation that goes on after another one ends as the second one
ends on the state that the first one left, and its trace is one trace after the other; after a fault
nothing goes on. What a run shows outside is its result, its table and the calls and records of its
trace; `Run.observed` keeps just these, and it respects every way of building runs, so that two runs
that take and reduce differently can be compared by equations. `Outcome.shown` is what one outcome
shows, and what comes before it goes in front.
-/

namespace Reckoner

namespace Run

section Laws

variable {σ α β γ : Type}

@[simp, grind =] theorem pure_apply (a : α) (s : σ) : (pure a : Run σ α) s = ⟨.ok a, s, []⟩ := rfl

@[simp, grind =] theorem fail_apply (fault : Fault) (s : σ) :
    (fail fault : Run σ α) s = ⟨.error fault, s, []⟩ := rfl

@[simp, grind =] theorem note_apply (event : Event) (s : σ) :
    (note event : Run σ Unit) s = ⟨.ok (), s, [event]⟩ := rfl

@[simp] theorem log_apply (record : Record) (s : σ) :
    (log record : Run σ Unit) s = ⟨.ok (), s, [.logged record]⟩ := rfl

@[simp, grind =] theorem asCall_apply (name : String) (arguments : List Float) (body : Run σ α) (s : σ) :
    asCall name arguments body s =
      ⟨.ok (body s).result, (body s).state, [.called name arguments (body s).trace]⟩ := rfl

/-- How a computation goes on depends on how the one before it ended. -/
@[grind =] theorem bind_apply (x : Run σ α) (f : α → Run σ β) (s : σ) :
    (x >>= f) s =
      match (x s).result with
      | .error fault => ⟨.error fault, (x s).state, (x s).trace⟩
      | .ok a => ⟨(f a (x s).state).result, (f a (x s).state).state,
          (x s).trace ++ (f a (x s).state).trace⟩ := rfl

theorem bind_of_ok {x : Run σ α} {s : σ} {a : α} (h : (x s).result = .ok a) (f : α → Run σ β) :
    (x >>= f) s = ⟨(f a (x s).state).result, (f a (x s).state).state,
      (x s).trace ++ (f a (x s).state).trace⟩ := by
  rw [bind_apply, h]

theorem bind_of_error {x : Run σ α} {s : σ} {fault : Fault} (h : (x s).result = .error fault)
    (f : α → Run σ β) : (x >>= f) s = ⟨.error fault, (x s).state, (x s).trace⟩ := by
  rw [bind_apply, h]

instance : LawfulMonad (Run σ) :=
  LawfulMonad.mk' (Run σ)
    (by
      intro α x
      funext s
      change andThen x (fun a => done a) s = x s
      cases h : (x s).result with
      | error fault => simp only [andThen, h]; rw [← h]
      | ok a => simp only [andThen, h, done, List.append_nil]; rw [← h])
    (by intro α β a f; rfl)
    (by
      intro α β γ x f g
      funext s
      change andThen (andThen x f) g s = andThen x (fun a => andThen (f a) g) s
      cases h : (x s).result with
      | error fault => simp only [andThen, h]
      | ok a =>
          cases h' : (f a (x s).state).result with
          | error fault => simp only [andThen, h, h']
          | ok b => simp only [andThen, h, h', List.append_assoc])

theorem bind_result_eq_ok {x : Run σ α} {f : α → Run σ β} {s : σ} {b : β} :
    ((x >>= f) s).result = .ok b ↔
      ∃ a, (x s).result = .ok a ∧ (f a (x s).state).result = .ok b := by
  cases h : (x s).result with
  | error fault => simp [bind_of_error h]
  | ok a => simp [bind_of_ok h]

@[simp] theorem ofExcept_ok (a : α) : (ofExcept (.ok a) : Run σ α) = pure a := rfl

@[simp] theorem ofExcept_error (fault : Fault) :
    (ofExcept (.error fault) : Run σ α) = fail fault := rfl

theorem ofExcept_bind (r : Except Fault α) (f : α → Except Fault β) :
    (ofExcept (r >>= f) : Run σ β) = ofExcept r >>= fun a => ofExcept (f a) := by
  cases r with
  | error fault => rfl
  | ok a => exact (pure_bind a fun a => (ofExcept (f a) : Run σ β)).symm

theorem ofExcept_map (r : Except Fault α) (f : α → β) :
    (ofExcept (r.map f) : Run σ β) = ofExcept r >>= fun a => pure (f a) := by
  cases r with
  | error fault => rfl
  | ok a => exact (pure_bind a fun a => (pure (f a) : Run σ β)).symm

@[simp, grind =] theorem ofExcept_state (r : Except Fault α) (s : σ) : (ofExcept r s).state = s := by
  cases r <;> rfl

@[simp, grind =] theorem ofExcept_result (r : Except Fault α) (s : σ) : (ofExcept r s).result = r := by
  cases r <;> rfl

@[simp, grind =] theorem ofExcept_trace (r : Except Fault α) (s : σ) : (ofExcept r s).trace = [] := by
  cases r <;> rfl

@[simp] theorem reportingRejection_result (x : Run σ α) (s : σ) :
    (reportingRejection x s).result = (x s).result := by
  cases h : (x s).result with
  | ok a => simp only [reportingRejection, h]
  | error fault => cases hr : fault.rejectsStream <;> simp [reportingRejection, h, hr]

@[simp] theorem reportingRejection_state (x : Run σ α) (s : σ) :
    (reportingRejection x s).state = (x s).state := by
  cases h : (x s).result with
  | ok a => simp only [reportingRejection, h]
  | error fault => cases hr : fault.rejectsStream <;> simp [reportingRejection, h, hr]

theorem reportingRejection_congr {x y : Run σ α} {s : σ} (h : x s = y s) :
    reportingRejection x s = reportingRejection y s := by
  rw [reportingRejection, reportingRejection, h]

theorem reportingRejection_of_ok {x : Run σ α} {s : σ} {a : α} (h : (x s).result = .ok a) :
    reportingRejection x s = x s := by
  simp only [reportingRejection, h]

theorem reportingRejection_of_error {x : Run σ α} {s : σ} {fault : Fault}
    (h : (x s).result = .error fault) :
    reportingRejection x s =
      if fault.rejectsStream then
        ⟨.error fault, (x s).state, (x s).trace ++ [.logged (.rejected fault)]⟩
      else ⟨.error fault, (x s).state, (x s).trace⟩ := by
  simp only [reportingRejection, h]
  split <;> rw [← h]

/-- What comes before a computation and does not fail has no part in the report of its fault. -/
theorem reportingRejection_bind_of_ok {x : Run σ α} {s : σ} {a : α} (h : (x s).result = .ok a)
    (f : α → Run σ β) :
    reportingRejection (x >>= f) s =
      { reportingRejection (f a) (x s).state with
        trace := (x s).trace ++ (reportingRejection (f a) (x s).state).trace } := by
  cases hf : (f a (x s).state).result with
  | ok b => simp only [reportingRejection, bind_of_ok h, hf]
  | error fault =>
      cases hr : fault.rejectsStream <;>
        simp [reportingRejection, bind_of_ok h, hf, hr, List.append_assoc]

/-- Reporting adds at most one record, at the end. -/
theorem reportingRejection_trace (x : Run σ α) (s : σ) :
    (reportingRejection x s).trace = (x s).trace ∨
      ∃ fault, (x s).result = .error fault ∧
        (reportingRejection x s).trace = (x s).trace ++ [.logged (.rejected fault)] := by
  cases h : (x s).result with
  | ok a => exact Or.inl (by simp only [reportingRejection, h])
  | error fault =>
      cases hr : fault.rejectsStream with
      | false => exact Or.inl (by simp [reportingRejection, h, hr])
      | true => exact Or.inr ⟨fault, rfl, by simp [reportingRejection, h, hr]⟩

theorem ok_of_toOption {r : Except Fault α} {a : α} (h : r.toOption = some a) : r = .ok a := by
  cases r with
  | error fault => cases h
  | ok b => exact congrArg Except.ok (Option.some.inj h)

/-! ### What results ensure -/

/-- Whatever the state is, a result of the computation is a good one. -/
def Ensures (good : α → Prop) (x : Run σ α) : Prop :=
  ∀ s a, (x s).result = .ok a → good a

theorem ensures_pure {good : α → Prop} {a : α} (h : good a) : Ensures good (pure a : Run σ α) := by
  intro s b hb
  rw [← Except.ok.inj hb]
  exact h

theorem ensures_ofExcept (r : Except Fault α) :
    Ensures (fun a => r = .ok a) (ofExcept r : Run σ α) := by
  intro s a ha
  rw [ofExcept_result] at ha
  exact ha

theorem ensures_true (x : Run σ α) : Ensures (fun _ => True) x := fun _ _ _ => trivial

theorem Ensures.bind {x : Run σ α} {f : α → Run σ β} {good : α → Prop} {good' : β → Prop}
    (hx : Ensures good x) (hf : ∀ a, good a → Ensures good' (f a)) : Ensures good' (x >>= f) := by
  intro s b hb
  obtain ⟨a, ha, hfa⟩ := bind_result_eq_ok.1 hb
  exact hf a (hx s a ha) _ b hfa

/-- What follows a computation matters only on the results that it can have. -/
theorem Ensures.bind_congr {x : Run σ α} {f g : α → Run σ β} {good : α → Prop}
    (hx : Ensures good x) (h : ∀ a, good a → f a = g a) : x >>= f = x >>= g := by
  funext s
  cases hresult : (x s).result with
  | error fault => rw [bind_of_error hresult, bind_of_error hresult]
  | ok a => rw [bind_of_ok hresult, bind_of_ok hresult, h a (hx s a hresult)]

end Laws

/-! ### A single table -/

section Tables

variable {ι α : Type}

@[simp, grind =] theorem readTable_bind (f : FunctionTable ι → Run (FunctionTable ι) α)
    (table : FunctionTable ι) : (readTable >>= f) table = f table table := by
  rw [bind_of_ok (a := table) rfl]
  rfl

@[simp, grind =] theorem readOperators_bind (f : FunctionTable ι → Run (FunctionTable ι) α)
    (table : FunctionTable ι) : (readOperators >>= f) table = f table table := by
  rw [bind_of_ok (a := table) rfl]
  rfl

end Tables

end Run

/-! ### What a run shows outside -/

/-- Calls and records show outside; what is taken and reduced does not. -/
def Event.isObserved : Event → Bool
  | called _ _ _ => true
  | logged _ => true
  | _ => false

namespace Event

theorem callsIn_append (earlier later : List Event) :
    callsIn (earlier ++ later) = callsIn earlier ++ callsIn later := by
  induction earlier with
  | nil => rfl
  | cons e earlier ih => rw [List.cons_append, callsIn, callsIn, ih, List.append_assoc]

theorem recordsIn_append (earlier later : List Event) :
    recordsIn (earlier ++ later) = recordsIn earlier ++ recordsIn later := by
  induction earlier with
  | nil => rfl
  | cons e earlier ih => rw [List.cons_append, recordsIn, recordsIn, ih, List.append_assoc]

/-- Leaving out what is taken and reduced loses no call. -/
theorem callsIn_filter_isObserved (trace : List Event) :
    callsIn (trace.filter isObserved) = callsIn trace := by
  induction trace with
  | nil => rfl
  | cons e trace ih =>
      cases e with
      | taken => exact ih
      | reduced position kind arguments => exact ih
      | called name arguments inner => rw [List.filter_cons_of_pos rfl, callsIn, callsIn, ih]
      | logged record => rw [List.filter_cons_of_pos rfl, callsIn, callsIn, ih]

theorem recordsIn_filter_isObserved (trace : List Event) :
    recordsIn (trace.filter isObserved) = recordsIn trace := by
  induction trace with
  | nil => rfl
  | cons e trace ih =>
      cases e with
      | taken => exact ih
      | reduced position kind arguments => exact ih
      | called name arguments inner => rw [List.filter_cons_of_pos rfl, recordsIn, recordsIn, ih]
      | logged record => rw [List.filter_cons_of_pos rfl, recordsIn, recordsIn, ih]

end Event

namespace Run

variable {σ α β γ : Type}

/-- A computation without the events of taking and reducing. -/
def observed (x : Run σ α) : Run σ α := fun s =>
  { x s with trace := (x s).trace.filter Event.isObserved }

@[simp] theorem observed_result (x : Run σ α) (s : σ) :
    (x.observed s).result = (x s).result := rfl

@[simp] theorem observed_state (x : Run σ α) (s : σ) : (x.observed s).state = (x s).state := rfl

theorem reportingRejection_calls (x : Run σ α) (s : σ) :
    Event.callsIn (reportingRejection x s).trace = Event.callsIn (x s).trace := by
  rcases reportingRejection_trace x s with h | ⟨fault, _, h⟩
  · rw [h]
  · rw [h, Event.callsIn_append]
    exact List.append_nil _

theorem observed_calls (x : Run σ α) (s : σ) :
    Event.callsIn (x.observed s).trace = Event.callsIn (x s).trace :=
  Event.callsIn_filter_isObserved _

@[simp] theorem observed_pure (a : α) : (pure a : Run σ α).observed = pure a := rfl

@[simp] theorem observed_fail (fault : Fault) : (fail fault : Run σ α).observed = fail fault := rfl

@[simp] theorem observed_ofExcept (r : Except Fault α) :
    (ofExcept r : Run σ α).observed = ofExcept r := by
  cases r <;> rfl

theorem observed_bind (x : Run σ α) (f : α → Run σ β) :
    (x >>= f).observed = x.observed >>= fun a => (f a).observed := by
  funext s
  cases h : (x s).result with
  | error fault =>
      have hx : (x.observed s).result = .error fault := h
      rw [bind_of_error hx, observed, bind_of_error h]
      rfl
  | ok a =>
      have hx : (x.observed s).result = .ok a := h
      rw [bind_of_ok hx, observed, bind_of_ok h]
      simp only [observed, List.filter_append]

theorem observed_bind_self {x : Run σ α} {f : α → Run σ β} (hx : x.observed = x)
    (hf : ∀ a, (f a).observed = f a) : (x >>= f).observed = x >>= f := by
  rw [observed_bind, hx]
  exact bind_congr hf

theorem observed_foldlM (f : γ → α → Run σ γ) (xs : List α) (c : γ) :
    (xs.foldlM f c).observed = xs.foldlM (fun c a => (f c a).observed) c := by
  induction xs generalizing c with
  | nil => rfl
  | cons x xs ih =>
      rw [List.foldlM_cons, List.foldlM_cons, observed_bind]
      exact bind_congr ih

theorem observed_note_of_not {event : Event} (h : event.isObserved = false) :
    (note event : Run σ Unit).observed = pure () := by
  funext s
  simp [observed, h]

theorem observed_taken : (note .taken : Run σ Unit).observed = pure () := observed_note_of_not rfl

theorem observed_log (record : Record) : (log record : Run σ Unit).observed = log record := rfl

theorem observed_asCall (name : String) (arguments : List Float) (body : Run σ α) :
    (asCall name arguments body).observed = asCall name arguments body := rfl

theorem observed_definition {ι : Type} [Store σ ι] (name : String) :
    (definition name : Run σ (Definition ι)).observed = definition name :=
  observed_bind_self rfl fun table => observed_ofExcept (table.get name)

theorem observed_reportingRejection (x : Run σ α) :
    (reportingRejection x).observed = reportingRejection x.observed := by
  funext s
  cases h : (x s).result with
  | ok a => simp only [observed, reportingRejection, h]
  | error fault =>
      cases hr : fault.rejectsStream <;>
        simp [observed, reportingRejection, h, hr, Event.isObserved]

end Run

/-- What an outcome shows outside: how it ended, the table that it left, and all calls and records
in their order, those inside calls included. -/
structure Shown (ι α : Type) where
  result : Except Fault α
  table : FunctionTable ι
  calls : List (String × List Float)
  records : List Record

variable {ι α β : Type}

def Outcome.shown (outcome : Outcome (FunctionTable ι) α) : Shown ι α :=
  ⟨outcome.result, outcome.state, Event.callsIn outcome.trace, Event.recordsIn outcome.trace⟩

/-- The same, with the calls and the records of a trace in front. -/
def Shown.after (shown : Shown ι α) (earlier : List Event) : Shown ι α :=
  { shown with
    calls := Event.callsIn earlier ++ shown.calls
    records := Event.recordsIn earlier ++ shown.records }

theorem Outcome.shown_pure_after {outcome : Outcome (FunctionTable ι) α} {a : α}
    (h : outcome.result = .ok a) :
    ((pure a : Run (FunctionTable ι) α) outcome.state).shown.after outcome.trace =
      outcome.shown := by
  rw [Run.pure_apply, shown, shown, Shown.after, h]
  simp only [Event.callsIn, Event.recordsIn, List.append_nil]

theorem Shown.after_filter (shown : Shown ι α) (earlier : List Event) :
    shown.after (earlier.filter Event.isObserved) = shown.after earlier := by
  rw [after, after, Event.callsIn_filter_isObserved, Event.recordsIn_filter_isObserved]

namespace Run

theorem shown_observed (x : Run (FunctionTable ι) α) (table : FunctionTable ι) :
    (x.observed table).shown = (x table).shown := by
  simp only [Outcome.shown, observed, Event.callsIn_filter_isObserved,
    Event.recordsIn_filter_isObserved]

theorem shown_congr {x y : Run (FunctionTable ι) α} (h : x.observed = y.observed)
    (table : FunctionTable ι) : (x table).shown = (y table).shown := by
  rw [← shown_observed, h, shown_observed]

theorem shown_reportingRejection_bind {x : Run (FunctionTable ι) α} {table : FunctionTable ι} {a : α}
    (h : (x table).result = .ok a) (f : α → Run (FunctionTable ι) β) :
    (reportingRejection (x >>= f) table).shown =
      (reportingRejection (f a) (x table).state).shown.after (x table).trace := by
  rw [reportingRejection_bind_of_ok h]
  simp only [Outcome.shown, Shown.after, Event.callsIn_append, Event.recordsIn_append]

end Run

end Reckoner
