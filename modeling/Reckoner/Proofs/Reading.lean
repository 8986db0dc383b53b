import Reckoner.Evaluation
import Reckoner.Proofs.Outcome

/-!
Reading a stream of valid tokens. Such a stream is a source that yields a float or a kind at every
step and leaves the table alone, so evaluating it is reading token after token and taking the value
that is left. What one token does is stated here once: a number joins the values, and an operator
reduces what is due and joins the pending ones. What is shown follows from the shape of what is
pending, not from when it was read.
-/

namespace Reckoner

/-- The source that yields tokens and does nothing else. -/
def Token.source {ι : Type} (ts : List Token) : List (Step ι) := ts.map fun t => .yield (.ofToken t)

def Token.kind? : Token → Option Kind
  | .number _ => none
  | .operator k => some k

/-- The operator of a kind is the same on every table. -/
def Kind.HasOperator (ι : Type) (options : Options) (k : Kind) (op : Operator) : Prop :=
  ∀ table : FunctionTable ι, k.lookup options table = .ok op

namespace Kind

variable (ι : Type) (options : Options)

theorem hasOperator_arithmetic (op : Arithmetic) :
    HasOperator ι options (.arithmetic op) op.operator := fun _ => rfl

theorem hasOperator_control {marker : Control} (h : marker = .join → options.joinEnabled = true) :
    HasOperator ι options (.control marker) marker.operator := by
  intro table
  cases marker with
  | join => exact if_pos (h rfl)
  | endExpr => rfl
  | openBracket => rfl
  | closeBracket => rfl

theorem hasOperator_endExpr :
    HasOperator ι options (.control .endExpr) Control.endExpr.operator := fun _ => rfl

end Kind

/-- The implementation computes on its arguments and does nothing else. -/
def Invocation.IsPure {ι : Type} (invoke : Invocation ι) (implementation : ι) : Prop :=
  ∃ meaning : List Float → Except Fault Value,
    ∀ arguments, invoke implementation arguments = Run.ofExcept (meaning arguments)

namespace Machine

variable {ι : Type} (invoke : Invocation ι) (options : Options)

def reads (m : Machine) (ts : List Token) : Run (FunctionTable ι) Machine :=
  ts.foldlM (fun m t => Run.note .taken >>= fun _ => m.readToken invoke options t) m

theorem steps_source (m : Machine) (ts : List Token) :
    m.steps invoke options (Token.source ts) = m.reads invoke options ts := by
  rw [steps, Token.source, List.foldlM_map, reads]
  congr 1
  funext m t
  cases t <;> rfl

theorem reads_nil (m : Machine) : m.reads invoke options [] = pure m := rfl

theorem reads_cons (m : Machine) (t : Token) (ts : List Token) :
    m.reads invoke options (t :: ts) =
      Run.note .taken >>= fun _ => m.readToken invoke options t >>= fun m' =>
        m'.reads invoke options ts := by
  rw [reads, List.foldlM_cons, bind_assoc]
  rfl

theorem reads_append (m : Machine) (ts us : List Token) :
    m.reads invoke options (ts ++ us) =
      m.reads invoke options ts >>= fun m' => m'.reads invoke options us := by
  rw [reads, List.foldlM_append]
  rfl

/-- Evaluating a stream is reading it and taking the value that is left. -/
theorem evaluate_source (ts : List Token) :
    evaluate invoke options (some (Token.source ts)) =
      Run.reportingRejection (initial.reads invoke options ts >>= fun m =>
        Run.ofExcept m.result) := by
  rw [evaluate, evaluateSteps, steps_source]

/-- A machine has a result only if it is the only value. -/
theorem values_of_result {m : Machine} {v : Float} (h : m.result = .ok v) : m.values = [v] := by
  rw [result] at h
  split at h
  · rename_i x hx
    rw [hx, Except.ok.inj h]
  · cases h

/-! ### What reducing shows -/

theorem observed_call (name : String) (arguments : List Float) :
    (call invoke name arguments).observed = call invoke name arguments := by
  apply Run.observed_bind_self (Run.observed_definition name)
  intro d
  apply Run.observed_bind_self (Run.observed_asCall name arguments _)
  intro ended
  cases ended with
  | ok value => exact Run.observed_ofExcept _
  | error cause =>
      by_cases hstop : cause.isStop = true
      · simp only [hstop, if_true, Run.observed_fail]
      · simp only [hstop]
        exact Run.observed_bind_self (Run.observed_log _) fun _ => Run.observed_fail _

theorem observed_apply (arguments : List Float) (k : Kind) :
    (apply invoke arguments k).observed = apply invoke arguments k := by
  cases k with
  | arithmetic op => exact Run.observed_ofExcept _
  | control marker => exact Run.observed_ofExcept _
  | callStart name =>
      exact Run.observed_bind_self (observed_call invoke name arguments) fun _ => rfl
  | callEnd => rfl
  | comma => rfl

theorem observed_reduce {values : List Float} {p : Pending}
    (h : p.operator.arity ≤ values.length) :
    (reduce invoke values p).observed =
      apply invoke (values.take p.operator.arity).reverse p.kind >>= fun given =>
        pure (given.toList ++ values.drop p.operator.arity) := by
  rw [reduce, if_neg (Nat.not_lt.2 h), Run.observed_bind, Run.observed_note_of_not rfl, pure_bind,
    Run.observed_bind, observed_apply]
  rfl

/-! ### Reading one token -/

theorem observed_reads_number (m : Machine) (x : Float) (ts : List Token) :
    (m.reads invoke options (.number x :: ts)).observed =
      (reads invoke options { m with values := x :: m.values } ts).observed := by
  rw [reads_cons, Run.observed_bind, Run.observed_taken, pure_bind]
  rfl

/-- An operator that is the same on every table reduces what is due and joins the pending ones. -/
theorem readOperator_of_hasOperator {k : Kind} {op : Operator} (hk : k.HasOperator ι options op)
    (m : Machine) :
    m.readOperator invoke options k =
      (due op m.pending).foldlM (reduce invoke) m.values >>= fun values =>
        pure ⟨values, ⟨m.operatorsRead, k, op⟩ :: kept op m.pending, m.operatorsRead + 1⟩ := by
  funext table
  rw [readOperator, Run.readOperators_bind, hk table]
  rfl

theorem observed_reads_operator {k : Kind} {op : Operator} (hk : k.HasOperator ι options op)
    (m : Machine) (ts : List Token) :
    (m.reads invoke options (.operator k :: ts)).observed =
      ((due op m.pending).foldlM (reduce invoke) m.values).observed >>= fun values =>
        (reads invoke options
          ⟨values, ⟨m.operatorsRead, k, op⟩ :: kept op m.pending, m.operatorsRead + 1⟩
          ts).observed := by
  rw [reads_cons, Run.observed_bind, Run.observed_taken, pure_bind, readToken,
    readOperator_of_hasOperator invoke options hk, bind_assoc, Run.observed_bind]
  rfl

theorem observed_reads_push {k : Kind} {op : Operator} (hk : k.HasOperator ι options op)
    {pending : List Pending} (hstop : ∀ p ∈ pending.head?, op.unwinds p.operator = false)
    (values : List Float) (n : Nat) (ts : List Token) :
    (reads invoke options ⟨values, pending, n⟩ (.operator k :: ts)).observed =
      (reads invoke options ⟨values, ⟨n, k, op⟩ :: pending, n + 1⟩ ts).observed := by
  have hdue : due op pending = [] ∧ kept op pending = pending := by
    cases pending with
    | nil => exact ⟨rfl, rfl⟩
    | cons p ps =>
        have hp := hstop p rfl
        simp [due, kept, hp]
  rw [observed_reads_operator invoke options hk, hdue.1, hdue.2]
  exact pure_bind _ _

/-- The topmost pending operator is due: it is reduced, and the operator is read on what is left. -/
theorem observed_reads_unwind {k : Kind} {op : Operator} (hk : k.HasOperator ι options op)
    {p : Pending} (hp : op.unwinds p.operator = true) (pending : List Pending)
    (values : List Float) (n : Nat) (ts : List Token) :
    (reads invoke options ⟨values, p :: pending, n⟩ (.operator k :: ts)).observed =
      (reduce invoke values p).observed >>= fun values' =>
        (reads invoke options ⟨values', pending, n⟩ (.operator k :: ts)).observed := by
  have hdue : due op (p :: pending) = p :: due op pending ∧
      kept op (p :: pending) = kept op pending := by
    simp [due, kept, hp]
  rw [observed_reads_operator invoke options hk, hdue.1, hdue.2, List.foldlM_cons,
    Run.observed_bind, bind_assoc]
  apply bind_congr
  intro values'
  rw [observed_reads_operator invoke options hk]

/-! ### When operators were read -/

/-- What a reduction shows does not depend on when its operator was read. -/
theorem observed_reduce_position (values : List Float) (n n' : Nat) (k : Kind) (op : Operator) :
    (reduce invoke values ⟨n, k, op⟩).observed = (reduce invoke values ⟨n', k, op⟩).observed := by
  by_cases h : op.arity ≤ values.length
  · rw [observed_reduce invoke h, observed_reduce invoke h]
  · rw [reduce, reduce, if_pos (Nat.not_le.1 h), if_pos (Nat.not_le.1 h)]

/-- The pending operators without the times at which they were read. -/
def shape (pending : List Pending) : List (Kind × Operator) :=
  pending.map fun p => (p.kind, p.operator)

theorem shape_due (op : Operator) (pending : List Pending) :
    shape (due op pending) = (shape pending).takeWhile fun s => op.unwinds s.2 := by
  rw [shape, due, shape, List.takeWhile_map]
  rfl

theorem shape_kept (op : Operator) (pending : List Pending) :
    shape (kept op pending) = (shape pending).dropWhile fun s => op.unwinds s.2 := by
  rw [shape, kept, shape, List.dropWhile_map]
  rfl

/-- The shape after an operator has been read. -/
theorem shape_read (n : Nat) (k : Kind) (op : Operator) (pending : List Pending) :
    shape (⟨n, k, op⟩ :: kept op pending) =
      (k, op) :: (shape pending).dropWhile fun s => op.unwinds s.2 := by
  rw [← shape_kept]
  rfl

theorem observed_reduceAll_shape (pending : List Pending) (values : List Float) :
    (pending.foldlM (reduce invoke) values).observed =
      (shape pending).foldlM (fun values s => (reduce invoke values ⟨0, s.1, s.2⟩).observed)
        values := by
  rw [Run.observed_foldlM, shape, List.foldlM_map]
  congr 1
  funext values p
  exact observed_reduce_position invoke values p.position 0 p.kind p.operator

def finish (m : Machine) (ts : List Token) : Run (FunctionTable ι) Float :=
  m.reads invoke options ts >>= fun m' => Run.ofExcept m'.result

theorem observed_finish_number (m : Machine) (x : Float) (ts : List Token) :
    (finish invoke options m (.number x :: ts)).observed =
      (finish invoke options { m with values := x :: m.values } ts).observed := by
  rw [finish, finish, Run.observed_bind, Run.observed_bind, observed_reads_number]

/-- What an operator shows follows from the shape of what is pending. -/
theorem observed_finish_operator (values : List Float) (pending : List Pending) (n : Nat) (k : Kind)
    (ts : List Token) :
    (finish invoke options ⟨values, pending, n⟩ (.operator k :: ts)).observed =
      Run.readOperators >>= fun table => Run.ofExcept (k.lookup options table) >>= fun op =>
        ((shape pending).takeWhile fun s => op.unwinds s.2).foldlM
            (fun values s => (reduce invoke values ⟨0, s.1, s.2⟩).observed) values >>= fun values' =>
          (finish invoke options ⟨values', ⟨n, k, op⟩ :: kept op pending, n + 1⟩ ts).observed := by
  rw [finish, reads_cons]
  simp only [bind_assoc, Run.observed_bind, Run.observed_taken, pure_bind, readToken, readOperator,
    Run.observed_ofExcept, observed_reduceAll_shape, shape_due, finish]
  rfl

/-- What a stream shows does not depend on when the pending operators were read. -/
theorem observed_finish_shape (ts : List Token) :
    ∀ (values : List Float) (pending pending' : List Pending) (n n' : Nat),
      shape pending = shape pending' →
        (finish invoke options ⟨values, pending, n⟩ ts).observed =
          (finish invoke options ⟨values, pending', n'⟩ ts).observed := by
  induction ts with
  | nil => intro values pending pending' n n' _; rfl
  | cons t ts ih =>
      intro values pending pending' n n' h
      cases t with
      | number x =>
          rw [observed_finish_number, observed_finish_number]
          exact ih (x :: values) pending pending' n n' h
      | operator k =>
          rw [observed_finish_operator, observed_finish_operator, h]
          apply bind_congr
          intro table
          apply bind_congr
          intro op
          apply bind_congr
          intro values'
          apply ih
          rw [shape_read, shape_read, h]

end Machine

end Reckoner
