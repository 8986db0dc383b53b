import Reckoner.Proofs.Bare

/-!
Commas and ends of calls are inert. Such a barrier reduces nothing that has values, and whatever
comes next removes it and then finds what it would have found without it: to the bare machine a
barrier is no step at all. So a source shows the same with its barriers and without.
-/

namespace Reckoner

variable {ι : Type}

def Token.isBarrier : Token → Bool
  | .number _ => false
  | .operator k => k.isBarrier

def Step.isBarrier (s : Step ι) : Bool := s.kind?.any Kind.isBarrier

namespace Bare

variable (invoke : Invocation ι) (options : Options)

theorem step_barrier {s : Step ι} (h : s.isBarrier = true) (b : Bare) :
    b.step invoke options s = pure b := by
  obtain ⟨k, hk, hbarrier⟩ := (Option.any_eq_true _ _).1 h
  rw [step_of_kind hk, readOperator, if_pos hbarrier]

theorem steps_filter (source : List (Step ι)) (b : Bare) :
    b.steps invoke options (source.filter fun s => !s.isBarrier) =
      b.steps invoke options source := by
  induction source generalizing b with
  | nil => rfl
  | cons s source ih =>
      cases hs : s.isBarrier with
      | true =>
          rw [List.filter_cons_of_neg (by simp [hs]), steps_cons, step_barrier invoke options hs,
            pure_bind]
          exact ih b
      | false =>
          rw [List.filter_cons_of_pos (by simp [hs]), steps_cons, steps_cons]
          exact bind_congr ih

end Bare

variable (invoke : Invocation ι) (options : Options)

theorem observed_evaluate_filter_steps (source : List (Step ι)) :
    (evaluate invoke options (some source)).observed =
      (evaluate invoke options (some (source.filter fun s => !s.isBarrier))).observed := by
  rw [Machine.observed_evaluate, Machine.observed_evaluate, Bare.conclude, Bare.conclude,
    Bare.steps_filter]

/-- A stream shows the same as the stream without its commas and ends of calls. -/
theorem Machine.observed_evaluate_filter (ts : List Token) :
    (evaluate invoke options (some (Token.source ts))).observed =
      (evaluate invoke options
        (some (Token.source (ts.filter fun t => !t.isBarrier)))).observed := by
  have hfilter : (Token.source ts : List (Step ι)).filter (fun s => !s.isBarrier) =
      Token.source (ts.filter fun t => !t.isBarrier) := by
    rw [Token.source, Token.source, List.filter_map]
    congr 1
    apply List.filter_congr
    intro t _
    cases t <;> rfl
  rw [observed_evaluate_filter_steps, hfilter]

/-- **Barriers are inert.** Whatever a source yields and does, whatever the implementations and the
table are: with and without its commas and ends of calls it shows the same result, table, calls and
records. -/
theorem shown_evaluate_filter (source : List (Step ι)) (table : FunctionTable ι) :
    (evaluate invoke options (some source) table).shown =
      (evaluate invoke options (some (source.filter fun s => !s.isBarrier)) table).shown :=
  Run.shown_congr (observed_evaluate_filter_steps invoke options source) table

end Reckoner
