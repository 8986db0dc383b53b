import Reckoner.Proofs.Flush

/-!
Cutting a source at a flush. A flush leaves an idle machine, and an idle machine is its values: what
comes after the flush ends as it would behind number tokens for these values, on the table that the
first part left. A flush that nobody fails on thus closes a part of a source, and a group in brackets
is its value.
-/

namespace Reckoner

variable {ι : Type} (invoke : Invocation ι) (options : Options)

namespace Bare

theorem steps_numbers (xs : List Float) (b : Bare) :
    b.steps invoke options (Token.source (xs.map .number)) =
      pure ⟨xs.reverse ++ b.values, b.working⟩ := by
  induction xs generalizing b with
  | nil => rfl
  | cons x xs ih =>
      have hstep : b.step invoke options (.yield (.ofToken (.number x))) =
          pure { b with values := x :: b.values } := pure_bind _ _
      rw [List.map_cons, Token.source, List.map_cons, steps_cons, hstep, pure_bind]
      refine (ih _).trans ?_
      rw [List.reverse_cons, List.append_assoc]
      rfl

/-- A source goes on from an idle machine as from number tokens for its values. -/
theorem conclude_idle {b : Bare} (hb : b.Idle) (source : List (Step ι)) :
    b.conclude invoke options source =
      initial.conclude invoke options (Token.source (b.values.reverse.map .number) ++ source) := by
  obtain ⟨values, working⟩ := b
  have hworking : working = [] := hb
  rw [conclude, conclude, steps_append, steps_numbers, pure_bind, List.reverse_reverse, hworking]
  simp only [initial, List.append_nil]

/-- Brackets around the start of a source close it like the end of an expression: the one that opens finds
nothing to reduce, and the one that closes is a flush. -/
theorem conclude_group (before after : List (Step ι)) :
    initial.conclude invoke options (Token.source [.operator (.control .openBracket)] ++ before ++
        Token.source [.operator (.control .closeBracket)] ++ after) =
      initial.conclude invoke options
        (before ++ Token.source [.operator (.control .endExpr)] ++ after) := by
  have hopen : ∀ source : List (Step ι), initial.steps invoke options
      (Token.source [.operator (.control .openBracket)] ++ source) =
        initial.steps invoke options source := fun source =>
    @steps_redundant ι invoke options [] [] source _ (fun _ hs => by cases hs)
      (fun _ hs => by cases hs) rfl
  have hclose : ∀ b : Bare, b.steps invoke options
      (Token.source [.operator (.control .closeBracket)]) =
        b.steps invoke options (Token.source [.operator (.control .endExpr)]) := fun b =>
    steps_interchangeable invoke options (.cons (Or.inr ⟨rfl, rfl⟩) .nil) b
  have hsteps : ∀ marker : Control, initial.steps invoke options
      (before ++ Token.source [.operator (.control marker)] ++ after) =
        initial.steps invoke options before >>= fun b =>
          b.steps invoke options (Token.source [.operator (.control marker)]) >>= fun b' =>
            b'.steps invoke options after := by
    intro marker
    rw [steps_append, steps_append, bind_assoc]
  rw [conclude, conclude, List.append_assoc, List.append_assoc, hopen, ← List.append_assoc, hsteps,
    hsteps]
  simp only [hclose]

end Bare

namespace Machine

variable {invoke options}

/-- Where a source has been read up to a flush without a fault, the machine is idle. -/
theorem idle_of_getLast {source : List (Step ι)} (hflush : ∀ s ∈ source.getLast?, s.isFlush = true)
    {table : FunctionTable ι} {m : Machine}
    (h : (initial.steps invoke options source table).result = .ok m) : m.bare.Idle := by
  obtain ⟨b, hb, ⟨_, rfl⟩, _⟩ := (agree_steps invoke options strips_initial source).of_ok h
  exact Bare.ensures_steps_of_getLast invoke options hflush table _ hb

/-- What comes after a part that is read without a fault shows what the bare machine makes of it. -/
theorem shown_evaluate_append {before : List (Step ι)} {table : FunctionTable ι} {m : Machine}
    (h : (initial.steps invoke options before table).result = .ok m) (after : List (Step ι)) :
    (evaluate invoke options (some (before ++ after)) table).shown =
      (Run.reportingRejection (m.bare.conclude invoke options after)
        (initial.steps invoke options before table).state).shown.after
          (initial.steps invoke options before table).trace := by
  obtain ⟨b, hb, ⟨_, rfl⟩, htable, htrace⟩ :=
    (agree_steps invoke options strips_initial before).of_ok h
  have hshown : ∀ shown : Shown ι Float,
      shown.after (Bare.initial.steps invoke options before table).trace =
        shown.after (initial.steps invoke options before table).trace := by
    intro shown
    rw [← Shown.after_filter]
    exact (congrArg shown.after htrace).trans (Shown.after_filter _ _)
  rw [Run.shown_congr (observed_evaluate invoke options _), Bare.conclude, Bare.steps_append,
    bind_assoc, Run.shown_reportingRejection_bind hb, hshown, htable]
  rfl

/-- What comes after an idle machine shows what it shows behind numbers for the values. -/
theorem shown_evaluate_append_of_idle {before : List (Step ι)} {table : FunctionTable ι}
    {m : Machine} (h : (initial.steps invoke options before table).result = .ok m)
    (hidle : m.bare.Idle) (after : List (Step ι)) :
    (evaluate invoke options (some (before ++ after)) table).shown =
      (evaluate invoke options (some (Token.source (m.values.reverse.map .number) ++ after))
        (initial.steps invoke options before table).state).shown.after
          (initial.steps invoke options before table).trace := by
  rw [shown_evaluate_append h, Bare.conclude_idle invoke options hidle,
    ← Run.shown_congr (observed_evaluate invoke options _)]
  rfl

/-- The value of a source is the only one that is left when it has been read. -/
theorem steps_of_evaluate {source : List (Step ι)} {table : FunctionTable ι} {v : Float}
    (h : (evaluate invoke options (some source) table).result = .ok v) :
    ∃ m, initial.steps invoke options source table =
        ⟨.ok m, (evaluate invoke options (some source) table).state,
          (evaluate invoke options (some source) table).trace⟩ ∧ m.values = [v] := by
  rw [evaluate, evaluateSteps] at h ⊢
  rw [Run.reportingRejection_result] at h
  rw [Run.reportingRejection_of_ok h]
  obtain ⟨m, hm, hv⟩ := Run.bind_result_eq_ok.1 h
  rw [Run.ofExcept_result] at hv
  refine ⟨m, ?_, values_of_result hv⟩
  rw [Run.bind_of_ok hm, Run.ofExcept_state, Run.ofExcept_trace, List.append_nil, ← hm]

end Machine

open Machine in
/-- **A completed part is its values.** Where a source is read up to a flush without a fault, the
rest shows what it shows behind number tokens for the values that are left, on the table that is
left; if the part alone has a result, this is the only value. So a group in brackets is the value of
what stands in it. -/
theorem shown_evaluate_resume (invoke : Invocation ι) (options : Options)
    (before after : List (Step ι)) (table : FunctionTable ι) :
    (∀ (flush : Step ι) (m : Machine), flush.isFlush = true →
      let first := initial.steps invoke options (before ++ [flush]) table
      first.result = .ok m →
        (evaluate invoke options (some (before ++ flush :: after)) table).shown =
          (evaluate invoke options (some (Token.source (m.values.reverse.map .number) ++ after))
            first.state).shown.after first.trace ∧
        ∀ v, (evaluate invoke options (some (before ++ [flush])) table).result = .ok v →
          m.values = [v]) ∧
    ∀ v : Float,
      let first := evaluate invoke options
        (some (before ++ Token.source [.operator (.control .endExpr)])) table
      first.result = .ok v →
        (evaluate invoke options (some (Token.source [.operator (.control .openBracket)] ++ before ++
          Token.source [.operator (.control .closeBracket)] ++ after)) table).shown =
            (evaluate invoke options (some (Token.source [.number v] ++ after))
              first.state).shown.after first.trace := by
  have hlast : ∀ flush : Step ι, flush.isFlush = true →
      ∀ s ∈ (before ++ [flush]).getLast?, s.isFlush = true := by
    intro flush hflush s hs
    rw [List.getLast?_concat] at hs
    rw [← Option.some.inj hs]
    exact hflush
  constructor
  · intro flush m hflush first hm
    constructor
    · have hshown := shown_evaluate_append_of_idle hm (idle_of_getLast (hlast flush hflush) hm) after
      rw [List.append_assoc] at hshown
      exact hshown
    · intro v hv
      obtain ⟨m', hm', hvalues⟩ := steps_of_evaluate hv
      have hsame : first.result = .ok m' := congrArg Outcome.result hm'
      rw [hm] at hsame
      rw [Except.ok.inj hsame]
      exact hvalues
  · intro v first hv
    obtain ⟨m, hm, hvalues⟩ := steps_of_evaluate hv
    have hresult : (initial.steps invoke options (before ++ Token.source
        [.operator (.control .endExpr)]) table).result = .ok m := congrArg Outcome.result hm
    have hshown :=
      shown_evaluate_append_of_idle hresult (idle_of_getLast (hlast _ rfl) hresult) after
    rw [hm, hvalues] at hshown
    rw [Run.shown_congr (observed_evaluate invoke options _), Bare.conclude_group,
      ← Run.shown_congr (observed_evaluate invoke options _)]
    exact hshown

open Machine in
/-- After `1 + 2` and its end, `* 3` goes on from 3; and `(1 + 2) * 3` is `3 * 3`. -/
theorem shown_evaluate_resume_product :
    let invoke := Routine.invoke ⟨false⟩ Routine.nestingLimit
    let sum : List (Step Routine) :=
      Token.source [.number 1, .operator (.arithmetic .add), .number 2]
    let marker (control : Control) : List (Step Routine) := Token.source [.operator (.control control)]
    let rest : List (Step Routine) :=
      Token.source [.operator (.arithmetic .mul), .number 3, .operator (.control .endExpr)]
    let first := evaluate invoke ⟨false⟩ (some (sum ++ marker .endExpr)) .empty
    let resumed := evaluate invoke ⟨false⟩ (some (Token.source [.number 3] ++ rest)) first.state
    first.result = .ok 3 ∧ resumed.result.toOption = some 9 ∧
    (evaluate invoke ⟨false⟩ (some (sum ++ marker .endExpr ++ rest)) .empty).shown =
      resumed.shown.after first.trace ∧
    (evaluate invoke ⟨false⟩ (some (marker .openBracket ++ sum ++ marker .closeBracket ++ rest))
      .empty).shown = resumed.shown.after first.trace := by
  intro invoke sum marker rest first resumed
  have hfirst : first.result = .ok 3 := Run.ok_of_toOption (by decide +kernel)
  obtain ⟨m, hm, hvalues⟩ := steps_of_evaluate hfirst
  obtain ⟨hresume, hgroup⟩ := shown_evaluate_resume invoke ⟨false⟩ sum rest .empty
  refine ⟨hfirst, by decide +kernel, ?_, hgroup 3 hfirst⟩
  have hflush : sum ++ marker .endExpr ++ rest =
      sum ++ .yield (.ofToken (.operator (.control .endExpr))) :: rest := rfl
  have hvalue : (Token.source (m.values.reverse.map .number) : List (Step Routine)) =
      Token.source [.number 3] := by rw [hvalues]; rfl
  have hsteps : initial.steps invoke ⟨false⟩
      (sum ++ [.yield (.ofToken (.operator (.control .endExpr)))]) .empty =
        ⟨.ok m, first.state, first.trace⟩ := hm
  rw [hflush, (hresume _ m rfl (congrArg Outcome.result hsteps)).1, hvalue, hsteps]

end Reckoner
