import Reckoner.Proofs.Binding
import Reckoner.Proofs.Comparison
import Reckoner.Proofs.Reading

/-!
The machine without its markers. Commas, ends of calls, brackets and ends of expressions take no
values and give none; all that they do is to let other operators reduce. The bare machine keeps the
values and the operators that give one: a barrier is nothing to it, and a flush makes it reduce all
that it keeps. The machine and the bare machine show the same on every source, whatever the source
does to the table and whatever the implementations do.
-/

namespace Reckoner

variable {ι : Type}

def Step.kind? : Step ι → Option Kind
  | .yield (.operation (.kind k)) => some k
  | _ => none

/-- The values, and the pending operators that give one; both with the latest one first. -/
structure Bare where
  values : List Float
  working : List (Kind × Operator)

theorem Step.eq_of_kind {s : Step ι} {k : Kind} (h : s.kind? = some k) :
    s = .yield (.operation (.kind k)) := by
  rw [kind?.eq_def] at h
  split at h
  · rw [Option.some.inj h]
  · cases h

theorem Step.kind_of_token {item : Item} {t : Token} (h : item.token = .ok t) :
    (Step.yield item : Step ι).kind? = t.kind? := by
  cases item with
  | number payload =>
      rw [Item.token] at h
      cases hoperand : payload.operand with
      | error fault => rw [hoperand] at h; cases h
      | ok x =>
          rw [hoperand] at h
          cases h
          rfl
  | operation subject =>
      cases subject with
      | kind l =>
          cases h
          rfl
      | _ => cases h
  | _ => cases h

namespace Bare

variable (invoke : Invocation ι) (options : Options)

def initial : Bare := ⟨[], []⟩

def reduceAll (working : List (Kind × Operator)) (values : List Float) : Run (FunctionTable ι) (List Float) :=
  working.foldlM (fun values w => Machine.reduce invoke values ⟨0, w.1, w.2⟩) values

/-- Reads an operator. Only one that gives a value is kept. -/
def readOperator (b : Bare) (k : Kind) : Run (FunctionTable ι) Bare :=
  if k.isBarrier then return b
  else if k.isFlush then do
    let values ← reduceAll invoke b.working b.values
    return ⟨values, []⟩
  else do
    let table ← Run.readOperators
    let operator ← Run.ofExcept (k.lookup options table)
    let values ← reduceAll invoke (b.working.takeWhile fun w => operator.unwinds w.2) b.values
    return ⟨values, (k, operator) :: b.working.dropWhile fun w => operator.unwinds w.2⟩

def readToken (b : Bare) : Token → Run (FunctionTable ι) Bare
  | .number x => return { b with values := x :: b.values }
  | .operator k => b.readOperator invoke options k

def step (b : Bare) : Step ι → Run (FunctionTable ι) Bare
  | .yield item => do
    let token ← Run.ofExcept item.token
    b.readToken invoke options token
  | .register r => do
    Run.register r
    return b
  | .clear => do
    Run.clear
    return b

def steps (b : Bare) (source : List (Step ι)) : Run (FunctionTable ι) Bare :=
  source.foldlM (step invoke options) b

/-- Takes all steps of a source to the one value that is left. -/
def conclude (b : Bare) (source : List (Step ι)) : Run (FunctionTable ι) Float := do
  let b' ← b.steps invoke options source
  Run.ofExcept (Machine.result ⟨b'.values, [], 0⟩)

end Bare

/-! ### Operators in order -/

/-- Operators that are looked up, none of which unwinds one below it. -/
structure Tidy (ws : List (Kind × Operator)) : Prop where
  suited : ∀ w ∈ ws, w.1.Suits w.2
  ordered : ws.Pairwise fun upper lower => upper.1.unwinds lower.1 = false

namespace Tidy

variable {ws : List (Kind × Operator)} {k : Kind} {op : Operator}

theorem nil : Tidy [] := ⟨fun _ hw => absurd hw List.not_mem_nil, .nil⟩

theorem sublist {vs : List (Kind × Operator)} (h : Tidy ws) (hsub : vs.Sublist ws) : Tidy vs :=
  ⟨fun w hw => h.suited w (hsub.subset hw), h.ordered.sublist hsub⟩

/-- In a tidy list, what an operator unwinds from the top is all that its kind unwinds. -/
theorem unwound (h : Tidy ws) (hop : k.Suits op) :
    ws.takeWhile (fun w => op.unwinds w.2) = ws.filter (fun w => k.unwinds w.1) ∧
    ws.dropWhile (fun w => op.unwinds w.2) = ws.filter (fun w => !k.unwinds w.1) := by
  have hsame : ∀ w ∈ ws, op.unwinds w.2 = k.unwinds w.1 := fun w hw => hop.unwinds (h.suited w hw)
  have hpairwise : ws.Pairwise fun upper lower =>
      op.unwinds lower.2 = true → op.unwinds upper.2 = true := by
    refine h.ordered.imp_of_mem fun {upper lower} hupper hlower hnot => ?_
    rw [hsame upper hupper, hsame lower hlower]
    exact Kind.unwinds_of_not_unwinds hnot
  obtain ⟨htake, hdrop⟩ := takeWhile_eq_filter hpairwise
  refine ⟨htake.trans (List.filter_congr hsame), hdrop.trans (List.filter_congr ?_)⟩
  intro w hw
  rw [hsame w hw]

theorem read (h : Tidy ws) (hop : k.Suits op) :
    Tidy ((k, op) :: ws.dropWhile fun w => op.unwinds w.2) := by
  have hkept := h.sublist (List.dropWhile_sublist fun w => op.unwinds w.2)
  refine ⟨fun w hw => ?_, List.pairwise_cons.2 ⟨fun w hw => ?_, hkept.ordered⟩⟩
  · rcases List.mem_cons.1 hw with rfl | hw
    · exact hop
    · exact hkept.suited w hw
  · rw [(h.unwound hop).2] at hw
    simpa using (List.mem_filter.1 hw).2

end Tidy

namespace Machine

/-- The pending operators that give a value. -/
def working (pending : List Pending) : List (Kind × Operator) :=
  (shape pending).filter fun w => !w.1.isMarker

/-- The machine without its markers. -/
def bare (m : Machine) : Bare := ⟨m.values, working m.pending⟩

variable (invoke : Invocation ι) (options : Options)

theorem observed_reduce_marker {k : Kind} {op : Operator} (hop : k.Suits op)
    (hk : k.isMarker = true) (values : List Float) (n : Nat) :
    (reduce invoke values ⟨n, k, op⟩).observed = pure values := by
  have harity := hop.arity 0 (Kind.arity_of_isMarker hk)
  rw [observed_reduce invoke (by rw [harity]; exact Nat.zero_le _)]
  simp only [harity, List.take_zero, List.drop_zero, List.reverse_nil]
  cases k with
  | control marker =>
      cases marker with
      | join => cases hk
      | _ => rfl
  | callEnd => rfl
  | comma => rfl
  | _ => cases hk

theorem observed_reduceAll_filter {ws : List (Kind × Operator)} (h : ∀ w ∈ ws, w.1.Suits w.2)
    (values : List Float) :
    (Bare.reduceAll invoke ws values).observed =
      (Bare.reduceAll invoke (ws.filter fun w => !w.1.isMarker) values).observed := by
  induction ws generalizing values with
  | nil => rfl
  | cons w ws ih =>
      have hrest := fun values => ih (fun w hw => h w (List.mem_cons_of_mem _ hw)) values
      rw [Bare.reduceAll, List.foldlM_cons, Run.observed_bind]
      cases hw : w.1.isMarker with
      | true =>
          rw [observed_reduce_marker invoke (h w List.mem_cons_self) hw, pure_bind,
            List.filter_cons_of_neg (by simp [hw])]
          exact hrest values
      | false =>
          rw [List.filter_cons_of_pos (by simp [hw]), Bare.reduceAll, List.foldlM_cons,
            Run.observed_bind]
          exact bind_congr hrest

theorem observed_reduce_due {m : Machine} (h : Tidy (shape m.pending)) {k : Kind} {op : Operator}
    (hop : k.Suits op) :
    ((due op m.pending).foldlM (reduce invoke) m.values).observed =
      (Bare.reduceAll invoke ((working m.pending).filter fun w => k.unwinds w.1)
        m.values).observed := by
  have hdue : shape (due op m.pending) = (shape m.pending).filter fun w => k.unwinds w.1 := by
    rw [shape_due, (h.unwound hop).1]
  have hsuited : ∀ w ∈ shape (due op m.pending), w.1.Suits w.2 := by
    rw [hdue]
    exact fun w hw => h.suited w (List.mem_filter.1 hw).1
  rw [observed_reduceAll_shape, ← Run.observed_foldlM]
  change (Bare.reduceAll invoke (shape (due op m.pending)) m.values).observed = _
  rw [observed_reduceAll_filter invoke hsuited, hdue, working, List.filter_filter,
    List.filter_filter]
  simp only [Bool.and_comm]

theorem working_read {pending : List Pending} (h : Tidy (shape pending)) {k : Kind} {op : Operator}
    (hop : k.Suits op) (n : Nat) :
    working (⟨n, k, op⟩ :: kept op pending) =
      (if k.isMarker then [] else [(k, op)]) ++
        (working pending).filter fun w => !k.unwinds w.1 := by
  have hkept : ((shape pending).dropWhile fun w => op.unwinds w.2).filter (fun w => !w.1.isMarker) =
      (working pending).filter fun w => !k.unwinds w.1 := by
    rw [(h.unwound hop).2, working, List.filter_filter, List.filter_filter]
    simp only [Bool.and_comm]
  rw [working, shape_read]
  cases hk : k.isMarker with
  | true => rw [List.filter_cons_of_neg (by simp [hk]), hkept]; rfl
  | false => rw [List.filter_cons_of_pos (by simp [hk]), hkept]; rfl

/-- The bare machine is the machine without its markers, whose operators are in order. -/
structure Strips (m : Machine) (b : Bare) : Prop where
  tidy : Tidy (shape m.pending)
  bare : m.bare = b

/-- A look-up has found the operator: reading goes on alike. -/
theorem agree_read {m : Machine} (h : Tidy (shape m.pending)) {k : Kind} {op : Operator}
    (hop : k.Suits op) :
    Run.Agree Strips
      ((due op m.pending).foldlM (reduce invoke) m.values >>= fun values =>
        pure ⟨values, ⟨m.operatorsRead, k, op⟩ :: kept op m.pending, m.operatorsRead + 1⟩)
      (Bare.reduceAll invoke ((working m.pending).filter fun w => k.unwinds w.1) m.values >>=
        fun values => pure ⟨values, (if k.isMarker then [] else [(k, op)]) ++
          (working m.pending).filter fun w => !k.unwinds w.1⟩) := by
  refine (Run.agree_eq_iff.2 (observed_reduce_due invoke h hop)).bind fun values values' hvalues =>
    Run.related_pure ⟨?_, ?_⟩
  · rw [shape_read]
    exact h.read hop
  · rw [bare, working_read h hop, hvalues]

theorem exists_hasOperator_of_isMarker {k : Kind} (hk : k.isMarker = true) :
    ∃ op, k.HasOperator ι options op := by
  cases k with
  | control marker =>
      cases marker with
      | join => cases hk
      | _ => exact ⟨_, fun _ => rfl⟩
  | callEnd => exact ⟨_, fun _ => rfl⟩
  | comma => exact ⟨_, fun _ => rfl⟩
  | _ => cases hk

theorem isMarker_eq_false_of_mem_working {pending : List Pending} {w : Kind × Operator}
    (hw : w ∈ working pending) : w.1.isMarker = false := by
  simpa using (List.mem_filter.1 hw).2

theorem working_eq_nil_iff {pending : List Pending} :
    working pending = [] ↔ ∀ p ∈ pending, p.kind.isMarker = true := by
  simp [working, shape, List.filter_eq_nil_iff]

theorem agree_readMarker {m : Machine} (h : Tidy (shape m.pending)) {k : Kind}
    (hk : k.isMarker = true) :
    Run.Agree Strips (m.readOperator invoke options k)
      (Bare.reduceAll invoke ((working m.pending).filter fun w => k.unwinds w.1) m.values >>=
        fun values => pure ⟨values, (working m.pending).filter fun w => !k.unwinds w.1⟩) := by
  obtain ⟨op, hop⟩ := exists_hasOperator_of_isMarker (ι := ι) options hk
  have hagree := agree_read invoke h (Kind.suits_of_lookup (hop .empty))
  rw [← readOperator_of_hasOperator invoke options hop, hk] at hagree
  exact hagree

/-- Reading an operator reduces on both sides what its kind unwinds. A barrier binds tighter than all that
gives a value and makes none of it reduce; a flush binds as loosely as a call or more loosely and makes
all of it reduce; any other operator is looked up in a table that is the same on both sides, and unwinds
the same from the top, with the markers in between and without. -/
theorem agree_readOperator {m : Machine} {b : Bare} (h : Strips m b) (k : Kind) :
    Run.Agree Strips (m.readOperator invoke options k) (b.readOperator invoke options k) := by
  obtain ⟨htidy, rfl⟩ := h
  rw [Bare.readOperator]
  cases hbarrier : k.isBarrier with
  | true =>
      have hk : k.isMarker = true := by rw [Kind.isMarker, hbarrier, Bool.true_or]
      have hnone : ∀ w ∈ working m.pending, k.unwinds w.1 = false := by
        intro w hw
        have hw := isMarker_eq_false_of_mem_working hw
        rw [Kind.isMarker, Bool.or_eq_false_iff] at hw
        exact Kind.unwinds_eq_false_of_isBarrier hbarrier hw.1
      have hagree := agree_readMarker invoke options htidy hk
      rw [List.filter_eq_nil_iff.2 fun w hw => by simp [hnone w hw],
        List.filter_eq_self.2 fun w hw => by simp [hnone w hw]] at hagree
      exact hagree
  | false =>
      cases hflush : k.isFlush with
      | true =>
          have hk : k.isMarker = true := by rw [Kind.isMarker, hflush, Bool.or_true]
          have hall : ∀ w ∈ working m.pending, k.unwinds w.1 = true := fun w hw =>
            Kind.unwinds_of_precedence_le (Kind.precedence_le_of_isFlush hflush)
              (isMarker_eq_false_of_mem_working hw)
          have hagree := agree_readMarker invoke options htidy hk
          rw [List.filter_eq_self.2 hall,
            List.filter_eq_nil_iff.2 fun w hw => by simp [hall w hw]] at hagree
          exact hagree
      | false =>
          have hk : k.isMarker = false := by rw [Kind.isMarker, hbarrier, hflush, Bool.or_false]
          rw [readOperator]
          refine (Run.agree_refl Run.readOperators).bind fun table table' htable => ?_
          rw [htable]
          refine (Run.related_ofExcept (Run.ended_self _)).bind fun op op' hop => ?_
          obtain ⟨rfl, hlookup⟩ := hop
          have hsuits := Kind.suits_of_lookup hlookup
          have hworking : Tidy (working m.pending) := htidy.sublist List.filter_sublist
          have hagree := agree_read invoke htidy hsuits
          rw [← (hworking.unwound hsuits).1, ← (hworking.unwound hsuits).2, hk] at hagree
          exact hagree

/-! ### Whole sources -/

theorem agree_step {m : Machine} {b : Bare} (h : Strips m b) (s : Step ι) :
    Run.Agree Strips (m.step invoke options s) (b.step invoke options s) := by
  cases s with
  | yield item =>
      have htaken : Run.Agree Eq (Run.note .taken : Run (FunctionTable ι) Unit) (pure ()) :=
        Run.agree_eq_iff.2 Run.observed_taken
      rw [← pure_bind () fun _ => b.step invoke options (.yield item)]
      refine htaken.bind fun _ _ _ => (Run.agree_refl (Run.ofExcept item.token)).bind
        fun t t' ht => ?_
      rw [ht]
      cases t' with
      | number x =>
          obtain ⟨htidy, rfl⟩ := h
          exact Run.related_pure ⟨htidy, rfl⟩
      | operator k => exact agree_readOperator invoke options h k
  | register r => exact (Run.agree_refl (Run.register r)).bind fun _ _ _ => Run.related_pure h
  | clear => exact (Run.agree_refl Run.clear).bind fun _ _ _ => Run.related_pure h

/-- **The machine and the bare machine agree** on every source. -/
theorem agree_steps {m : Machine} {b : Bare} (h : Strips m b) (source : List (Step ι)) :
    Run.Agree Strips (m.steps invoke options source) (b.steps invoke options source) :=
  Run.related_foldlM_self (fun _ _ s h => agree_step invoke options h s) source h

theorem strips_initial : Strips initial Bare.initial := ⟨Tidy.nil, rfl⟩

/-- An evaluation shows what the bare machine shows. -/
theorem observed_evaluate (source : List (Step ι)) :
    (evaluate invoke options (some source)).observed =
      (Run.reportingRejection (Bare.initial.conclude invoke options source)).observed := by
  have hagree : Run.Agree Eq
      (initial.steps invoke options source >>= fun m => Run.ofExcept m.result)
      (Bare.initial.conclude invoke options source) := by
    refine (agree_steps invoke options strips_initial source).bind fun m b h => ?_
    obtain ⟨_, rfl⟩ := h
    exact Run.agree_refl _
  rw [evaluate, evaluateSteps, Run.observed_reportingRejection, Run.agree_eq_iff.1 hagree,
    ← Run.observed_reportingRejection]

end Machine

namespace Bare

variable {invoke : Invocation ι} {options : Options}

theorem step_of_kind {s : Step ι} {k : Kind} (h : s.kind? = some k) (b : Bare) :
    b.step invoke options s = b.readOperator invoke options k := by
  rw [Step.eq_of_kind h]
  exact pure_bind _ _

theorem steps_cons (b : Bare) (s : Step ι) (source : List (Step ι)) :
    b.steps invoke options (s :: source) =
      b.step invoke options s >>= fun b' => b'.steps invoke options source :=
  List.foldlM_cons

theorem steps_append (b : Bare) (before after : List (Step ι)) :
    b.steps invoke options (before ++ after) =
      b.steps invoke options before >>= fun b' => b'.steps invoke options after :=
  List.foldlM_append

end Bare

end Reckoner
