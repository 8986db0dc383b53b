import Mathlib.Data.List.Basic
import Reckoner.Proofs.Bare
import Reckoner.Routine

/-!
Ends of expressions and brackets. To the bare machine each of these three is the same order, to
reduce all that it keeps; so they may stand for each other, and one that finds nothing to reduce may
be left out. After such a flush the machine is idle: it holds values and nothing else, so that what
comes next goes on as it would from these values alone.
-/

namespace Reckoner

variable {ι : Type}

namespace Step

def isFlush (s : Step ι) : Bool := s.kind?.any Kind.isFlush

/-- The step yields no operator that gives a value. -/
def isQuiet (s : Step ι) : Bool := s.kind?.all Kind.isMarker

/-- One step in both places, or a flush in each. -/
def Interchangeable (s s' : Step ι) : Prop := s = s' ∨ s.isFlush = true ∧ s'.isFlush = true

end Step

namespace Bare

variable (invoke : Invocation ι) (options : Options)

def Idle (b : Bare) : Prop := b.working = []

theorem readOperator_flush {k : Kind} (h : k.isFlush = true) (b : Bare) :
    b.readOperator invoke options k =
      reduceAll invoke b.working b.values >>= fun values => pure ⟨values, []⟩ := by
  have hbarrier : ¬k.isBarrier = true := by
    cases k with
    | control marker => exact Bool.false_ne_true
    | _ => cases h
  rw [readOperator, if_neg hbarrier, if_pos h]

theorem step_flush {s : Step ι} (h : s.isFlush = true) (b : Bare) :
    b.step invoke options s =
      reduceAll invoke b.working b.values >>= fun values => pure ⟨values, []⟩ := by
  obtain ⟨k, hk, hflush⟩ := (Option.any_eq_true _ _).1 h
  rw [step_of_kind hk, readOperator_flush invoke options hflush]

/-! ### Flushes stand for each other -/

theorem step_interchangeable {s s' : Step ι} (h : s.Interchangeable s') (b : Bare) :
    b.step invoke options s = b.step invoke options s' := by
  rcases h with rfl | ⟨hs, hs'⟩
  · rfl
  · rw [step_flush invoke options hs, step_flush invoke options hs']

theorem steps_interchangeable {source source' : List (Step ι)}
    (h : List.Forall₂ Step.Interchangeable source source') (b : Bare) :
    b.steps invoke options source = b.steps invoke options source' := by
  induction h generalizing b with
  | nil => rfl
  | cons hs _ ih =>
      rw [steps_cons, steps_cons, step_interchangeable invoke options hs]
      exact bind_congr ih

/-! ### An idle machine -/

theorem ensures_step_flush {s : Step ι} (h : s.isFlush = true) (b : Bare) :
    Run.Ensures Idle (b.step invoke options s) := by
  rw [step_flush invoke options h]
  exact (Run.ensures_true _).bind fun _ _ => Run.ensures_pure rfl

theorem step_flush_of_idle {s : Step ι} (h : s.isFlush = true) {b : Bare} (hb : b.Idle) :
    b.step invoke options s = pure b := by
  obtain ⟨values, working⟩ := b
  have hworking : working = [] := hb
  rw [step_flush invoke options h, hworking]
  exact pure_bind _ _

/-- The machine is idle at the start of a source and behind every flush. -/
theorem ensures_steps_of_getLast {source : List (Step ι)}
    (h : ∀ s ∈ source.getLast?, s.isFlush = true) :
    Run.Ensures Idle (initial.steps invoke options source) := by
  rcases List.eq_nil_or_concat' source with rfl | ⟨earlier, s, rfl⟩
  · exact Run.ensures_pure rfl
  · rw [steps_append]
    refine (Run.ensures_true _).bind fun b _ => ?_
    rw [steps_cons]
    refine (ensures_step_flush invoke options (h s (by simp)) b).bind fun b' hb' => ?_
    exact Run.ensures_pure hb'

/-- An idle machine stays idle while no operator comes that gives a value. -/
theorem ensures_step_quiet {s : Step ι} (h : s.isQuiet = true) {b : Bare} (hb : b.Idle) :
    Run.Ensures Idle (b.step invoke options s) := by
  cases s with
  | yield item =>
      refine (Run.ensures_ofExcept item.token).bind fun t ht => ?_
      cases t with
      | number x => exact Run.ensures_pure hb
      | operator k =>
          rw [Step.isQuiet, Step.kind_of_token ht] at h
          have hk : k.isBarrier = true ∨ k.isFlush = true := Bool.or_eq_true_iff.1 h
          rcases hk with hbarrier | hflush
          · rw [readToken, readOperator, if_pos hbarrier]
            exact Run.ensures_pure hb
          · rw [readToken, readOperator_flush invoke options hflush]
            exact (Run.ensures_true _).bind fun _ _ => Run.ensures_pure rfl
  | register r => exact (Run.ensures_true _).bind fun _ _ => Run.ensures_pure hb
  | clear => exact (Run.ensures_true _).bind fun _ _ => Run.ensures_pure hb

theorem ensures_steps_quiet {quiet : List (Step ι)} (h : ∀ s ∈ quiet, s.isQuiet = true) {b : Bare}
    (hb : b.Idle) : Run.Ensures Idle (b.steps invoke options quiet) := by
  induction quiet generalizing b with
  | nil => exact Run.ensures_pure hb
  | cons s quiet ih =>
      rw [steps_cons]
      exact (ensures_step_quiet invoke options (h s List.mem_cons_self) hb).bind fun b' hb' =>
        ih (fun s hs => h s (List.mem_cons_of_mem _ hs)) hb'

theorem steps_redundant {before quiet after : List (Step ι)} {flush : Step ι}
    (hbefore : ∀ s ∈ before.getLast?, s.isFlush = true) (hquiet : ∀ s ∈ quiet, s.isQuiet = true)
    (hflush : flush.isFlush = true) :
    initial.steps invoke options (before ++ quiet ++ flush :: after) =
      initial.steps invoke options (before ++ quiet ++ after) := by
  have hidle : Run.Ensures Idle (initial.steps invoke options (before ++ quiet)) := by
    rw [steps_append]
    exact (ensures_steps_of_getLast invoke options hbefore).bind fun b hb =>
      ensures_steps_quiet invoke options hquiet hb
  rw [steps_append, steps_append initial (before ++ quiet) after]
  apply hidle.bind_congr
  intro b hb
  rw [steps_cons, step_flush_of_idle invoke options hflush hb, pure_bind]

end Bare

/-- **Flushes are interchangeable.** A source shows the same result, table, calls and records if
flushes in it are replaced by flushes, position by position, and if a flush is left out before which,
back to the flush before it or to the start, no operator stands that gives a value. -/
theorem shown_evaluate_flush (invoke : Invocation ι) (options : Options) (table : FunctionTable ι) :
    (∀ source source' : List (Step ι), List.Forall₂ Step.Interchangeable source source' →
      (evaluate invoke options (some source) table).shown =
        (evaluate invoke options (some source') table).shown) ∧
    ∀ (before quiet after : List (Step ι)) (flush : Step ι),
      (∀ s ∈ before.getLast?, s.isFlush = true) → (∀ s ∈ quiet, s.isQuiet = true) →
      flush.isFlush = true →
        (evaluate invoke options (some (before ++ quiet ++ flush :: after)) table).shown =
          (evaluate invoke options (some (before ++ quiet ++ after)) table).shown := by
  constructor
  · intro source source' h
    apply Run.shown_congr
    rw [Machine.observed_evaluate, Machine.observed_evaluate, Bare.conclude, Bare.conclude,
      Bare.steps_interchangeable invoke options h]
  · intro before quiet after flush hbefore hquiet hflush
    apply Run.shown_congr
    rw [Machine.observed_evaluate, Machine.observed_evaluate, Bare.conclude, Bare.conclude,
      Bare.steps_redundant invoke options hbefore hquiet hflush]

/-- `(1 + 2) * 3` is 9, and shows the same with other flushes for the brackets and the end, and
without the bracket that opens it. -/
theorem shown_evaluate_flush_group :
    let invoke := Routine.invoke ⟨false⟩ Routine.nestingLimit
    let sum : List Token := [.number 1, .operator (.arithmetic .add), .number 2]
    let product (first second third : Control) : List (Step Routine) :=
      Token.source (.operator (.control first) :: (sum ++ [.operator (.control second),
        .operator (.arithmetic .mul), .number 3, .operator (.control third)]))
    let shown (source : List (Step Routine)) :=
      (evaluate invoke ⟨false⟩ (some source) .empty).shown
    (shown (product .openBracket .closeBracket .endExpr)).result.toOption = some 9 ∧
    shown (product .openBracket .closeBracket .endExpr) =
      shown (product .endExpr .openBracket .closeBracket) ∧
    shown (product .openBracket .closeBracket .endExpr) =
      shown (product .openBracket .closeBracket .endExpr).tail := by
  intro invoke sum product shown
  have hinterchange : List.Forall₂ Step.Interchangeable
      (product .openBracket .closeBracket .endExpr)
      (product .endExpr .openBracket .closeBracket) :=
    .cons (Or.inr ⟨rfl, rfl⟩) (.cons (Or.inl rfl) (.cons (Or.inl rfl) (.cons (Or.inl rfl)
      (.cons (Or.inr ⟨rfl, rfl⟩) (.cons (Or.inl rfl) (.cons (Or.inl rfl)
        (.cons (Or.inr ⟨rfl, rfl⟩) .nil)))))))
  refine ⟨by decide +kernel, ?_, ?_⟩
  · exact (shown_evaluate_flush invoke ⟨false⟩ .empty).1 _ _ hinterchange
  · exact (shown_evaluate_flush invoke ⟨false⟩ .empty).2 [] []
      (product .openBracket .closeBracket .endExpr).tail _ (fun _ hs => by cases hs)
      (fun _ hs => by cases hs) rfl

end Reckoner
