import Reckoner.Proofs.Resumption
import Reckoner.Proofs.Schedule
import Reckoner.Routine

/-!
Values of sources that do not end. At the end of a source only the values are counted, so that a
value may be returned while operators still wait. Which ones wait is read off the kinds of the
source: those that give a value and have no trigger. If there are none, the end of the expression
changes nothing. Otherwise it makes of the value what `closing` says: signs are taken, a call is
made, or an operator that takes two values finds one.
-/

namespace Reckoner

namespace Kind

/-- The kinds that give a value and that nothing triggers, the latest first. -/
def unsettled (ks : List Kind) : List Kind :=
  ((waiting ks).filterMap fun i => ks[i]?).filter fun k => !k.isMarker

end Kind

variable {ι : Type} {invoke : Invocation ι} {options : Options}

namespace Machine

/-! ### What waits is read off the kinds -/

theorem ensures_step_waits {ks : List Kind} {m : Machine} (h : Waits ks m) (s : Step ι) :
    Run.Ensures (Waits (ks ++ s.kind?.toList)) (m.step invoke options s) := by
  cases s with
  | yield item =>
      refine (Run.ensures_true _).bind fun _ _ => (Run.ensures_ofExcept item.token).bind
        fun t ht => ?_
      rw [Step.kind_of_token ht]
      cases t with
      | number x =>
          refine Run.ensures_pure ?_
          rw [Token.kind?, Option.toList_none, List.append_nil]
          exact h.number x
      | operator k => exact (follows_readOperator invoke options h k []).ensures
  | register r =>
      refine (Run.ensures_true _).bind fun _ _ => Run.ensures_pure ?_
      exact (List.append_nil ks).symm ▸ h
  | clear =>
      refine (Run.ensures_true _).bind fun _ _ => Run.ensures_pure ?_
      exact (List.append_nil ks).symm ▸ h

theorem ensures_steps_waits {ks : List Kind} {m : Machine} (h : Waits ks m)
    (source : List (Step ι)) :
    Run.Ensures (Waits (ks ++ source.filterMap Step.kind?)) (m.steps invoke options source) := by
  induction source generalizing ks m with
  | nil =>
      rw [List.filterMap_nil, List.append_nil]
      exact Run.ensures_pure h
  | cons s source ih =>
      have hsplit : ks ++ (s :: source).filterMap Step.kind? =
          (ks ++ s.kind?.toList) ++ source.filterMap Step.kind? := by
        rw [List.append_assoc, List.filterMap_cons]
        cases s.kind? <;> rfl
      rw [hsplit]
      exact (ensures_step_waits h s).bind fun m' hm' => ih hm'

/-- Among waiting operators, those that give a value are of the unsettled kinds. -/
theorem Waits.working_kinds {ks : List Kind} {m : Machine} (h : Waits ks m) :
    (working m.pending).map Prod.fst = Kind.unsettled ks := by
  have hkinds : m.pending.map Pending.kind = (Kind.waiting ks).filterMap fun i => ks[i]? := by
    rw [← h.positions, List.filterMap_map, ← List.filterMap_eq_map]
    apply List.filterMap_congr
    intro p hp
    exact (h.kinds p hp).symm
  rw [Kind.unsettled, ← hkinds, working, shape, List.filter_map, List.filter_map, List.map_map]
  rfl

end Machine

namespace Bare

variable (invoke)

/-- What the end of an expression makes of the only value under the operators that wait. -/
def closing : List (Kind × Operator) → Float → Run (FunctionTable ι) Float
  | [], x => return x
  | (.arithmetic .negate, _) :: rest, x => closing rest (-x)
  | (.callStart name, op) :: _, x =>
    if op.arity = 0 then do
      let _ ← Machine.call invoke name []
      Run.fail (.unreduced 2)
    else if op.arity = 1 then Machine.call invoke name [x]
    else Run.fail (.tooFewValues (.callStart name) op.arity 1)
  | (k, op) :: _, _ => Run.fail (.tooFewValues k op.arity 1)

def outcome (values : List Float) : Run (FunctionTable ι) Float :=
  Run.ofExcept (Machine.result ⟨values, [], 0⟩)

variable {invoke}

theorem reduceAll_cons_outcome (k : Kind) (op : Operator) (ws : List (Kind × Operator))
    (values : List Float) :
    (reduceAll invoke ((k, op) :: ws) values >>= outcome).observed =
      (Machine.reduce invoke values ⟨0, k, op⟩).observed >>= fun values' =>
        (reduceAll invoke ws values' >>= outcome).observed := by
  rw [reduceAll, List.foldlM_cons, bind_assoc, Run.observed_bind]
  rfl

/-- An operator of two or more values finds only one. -/
theorem reduceAll_tooFew (k : Kind) {op : Operator} (h : 1 < op.arity)
    (ws : List (Kind × Operator)) (x : Float) :
    (reduceAll invoke ((k, op) :: ws) [x] >>= outcome).observed =
      Run.fail (.tooFewValues k op.arity 1) := by
  have hfew : [x].length < op.arity := h
  rw [reduceAll_cons_outcome, Machine.reduce, if_pos hfew]
  rfl

theorem reduceAll_call (name : String) (op : Operator) (x : Float) :
    (reduceAll invoke [(.callStart name, op)] [x] >>= outcome).observed =
      (closing invoke [(.callStart name, op)] x).observed := by
  rw [closing]
  rcases Nat.lt_or_ge 1 op.arity with htwo | hle
  · rw [reduceAll_tooFew _ htwo, if_neg (by omega), if_neg (by omega)]
    rfl
  · have hlen : op.arity ≤ [x].length := hle
    rw [reduceAll_cons_outcome, Machine.observed_reduce invoke hlen]
    rcases Nat.le_one_iff_eq_zero_or_eq_one.1 hle with hzero | hone
    · rw [if_pos hzero, Run.observed_bind, Machine.observed_call]
      simp only [hzero, Machine.apply, bind_assoc, pure_bind]
      rfl
    · rw [if_neg (by omega), if_pos hone, Machine.observed_call]
      simp only [hone, Machine.apply, bind_assoc, pure_bind]
      exact bind_pure _

/-- At the end of an expression a single value ends as its closing says. A call can wait at the bottom
only, because it leaves nothing below that gives a value. -/
theorem observed_reduceAll_outcome {ws : List (Kind × Operator)} (h : Tidy ws)
    (hworking : ∀ w ∈ ws, w.1.isMarker = false) (x : Float) :
    (reduceAll invoke ws [x] >>= outcome).observed = (closing invoke ws x).observed := by
  induction ws generalizing x with
  | nil => rfl
  | cons w ws ih =>
      obtain ⟨k, op⟩ := w
      have hsuits : k.Suits op := h.suited (k, op) List.mem_cons_self
      have hrest : Tidy ws := h.sublist (List.sublist_cons_self _ _)
      have hmarker : k.isMarker = false := hworking (k, op) List.mem_cons_self
      have hworking' : ∀ w ∈ ws, w.1.isMarker = false := fun w hw =>
        hworking w (List.mem_cons_of_mem _ hw)
      cases k with
      | arithmetic op' =>
          have harity : op.arity = op'.operator.arity := hsuits.arity _ rfl
          cases op' with
          | negate =>
              have hone : op.arity = 1 := harity
              rw [reduceAll_cons_outcome,
                Machine.observed_reduce invoke (by rw [hone]; exact Nat.le_refl _)]
              simp only [hone]
              exact ih hrest hworking' (-x)
          | _ =>
              rw [reduceAll_tooFew _ (by rw [harity]; decide)]
              rfl
      | control marker =>
          cases marker with
          | join =>
              rw [reduceAll_tooFew _ (by rw [hsuits.arity 2 rfl]; decide)]
              rfl
          | _ => cases hmarker
      | callStart name =>
          have hnil : ws = [] := by
            rw [List.eq_nil_iff_forall_not_mem]
            intro w hw
            have hnot := (List.pairwise_cons.1 h.ordered).1 w hw
            have hloose : (Kind.callStart name).precedence ≤ 1 := Nat.le_refl 1
            rw [Kind.unwinds_of_precedence_le hloose (hworking' w hw)] at hnot
            cases hnot
          rw [hnil]
          exact reduceAll_call name op x
      | callEnd => cases hmarker
      | comma => cases hmarker

theorem conclude_end (b : Bare) :
    b.conclude invoke options (Token.source [.operator (.control .endExpr)]) =
      reduceAll invoke b.working b.values >>= outcome := by
  have hflush : (Step.yield (.ofToken (.operator (.control .endExpr))) : Step ι).isFlush = true :=
    rfl
  rw [conclude, Token.source, List.map_cons, List.map_nil, steps_cons,
    step_flush invoke options hflush, bind_assoc]
  simp only [steps, List.foldlM_nil, bind_assoc, pure_bind]
  rfl

end Bare

open Machine in
/-- **The end of an expression under a value.** When a source has a value, then those operators wait
that give a value and have no trigger in it. If there are none, the source shows the same with the
end of an expression behind it. Otherwise the end makes of the value what the waiting operators say.
-/
theorem shown_evaluate_terminated {source : List (Step ι)} {table : FunctionTable ι} {v : Float}
    (h : (evaluate invoke options (some source) table).result = .ok v) :
    let first := evaluate invoke options (some source) table
    let ended := evaluate invoke options
      (some (source ++ Token.source [.operator (.control .endExpr)])) table
    let unsettled := Kind.unsettled (source.filterMap Step.kind?)
    ∃ m, (initial.steps invoke options source table).result = .ok m ∧ m.values = [v] ∧
      m.bare.working.map Prod.fst = unsettled ∧
      (unsettled = [] ↔ ∀ p ∈ m.pending, p.kind.isMarker = true) ∧
      (unsettled = [] → ended.shown = first.shown) ∧
      ended.shown = (Run.reportingRejection (Bare.closing invoke m.bare.working v)
        first.state).shown.after first.trace := by
  intro first ended unsettled
  obtain ⟨m, hm, hvalues⟩ := steps_of_evaluate h
  have hresult : (initial.steps invoke options source table).result = .ok m :=
    congrArg Outcome.result hm
  have hkinds : m.bare.working.map Prod.fst = unsettled :=
    (ensures_steps_waits waits_initial source table m hresult).working_kinds
  obtain ⟨b, _, ⟨htidy, rfl⟩, _⟩ := (agree_steps invoke options strips_initial source).of_ok hresult
  have hworking : Tidy m.bare.working := htidy.sublist List.filter_sublist
  have hended : ended.shown = (Run.reportingRejection (Bare.closing invoke m.bare.working v)
      first.state).shown.after first.trace := by
    have hclosing : (m.bare.conclude invoke options
        (Token.source [.operator (.control .endExpr)])).observed =
          (Bare.closing invoke m.bare.working v).observed := by
      rw [Bare.conclude_end, ← Bare.observed_reduceAll_outcome hworking
        fun w hw => isMarker_eq_false_of_mem_working hw, ← hvalues]
      rfl
    have hreported := congrArg Run.reportingRejection hclosing
    rw [← Run.observed_reportingRejection, ← Run.observed_reportingRejection] at hreported
    have hshown := shown_evaluate_append hresult (Token.source [.operator (.control .endExpr)])
    rw [Run.shown_congr hreported, hm] at hshown
    exact hshown
  refine ⟨m, hresult, hvalues, hkinds, ?_, ?_, hended⟩
  · rw [← hkinds, List.map_eq_nil_iff]
    change working m.pending = [] ↔ _
    rw [working, List.filter_eq_nil_iff, shape]
    simp
  · intro hnone
    rw [← hkinds, List.map_eq_nil_iff] at hnone
    have hclosing : Bare.closing invoke m.bare.working v = pure v := by
      rw [hnone]
      rfl
    rw [hended, hclosing, Run.reportingRejection_of_ok rfl]
    exact Outcome.shown_pure_after h

/-- The sign in `-2` waits for an end. -/
theorem shown_evaluate_terminated_sign :
    let invoke := Routine.invoke ⟨false⟩ Routine.nestingLimit
    let source : List (Step Routine) :=
      Token.source [.operator (.arithmetic .negate), .number 2]
    (evaluate invoke ⟨false⟩ (some source) .empty).result = .ok 2 ∧
    ∃ m, (Machine.initial.steps invoke ⟨false⟩ source .empty).result = .ok m ∧
      m.bare.working.map Prod.fst = [.arithmetic .negate] ∧
      (evaluate invoke ⟨false⟩ (some (source ++ Token.source [.operator (.control .endExpr)]))
        .empty).shown =
          (Run.reportingRejection (Bare.closing invoke m.bare.working 2)
            (evaluate invoke ⟨false⟩ (some source) .empty).state).shown.after
              (evaluate invoke ⟨false⟩ (some source) .empty).trace := by
  intro invoke source
  have hresult : (evaluate invoke ⟨false⟩ (some source) .empty).result = .ok 2 :=
    Run.ok_of_toOption (by decide +kernel)
  obtain ⟨m, hm, -, hkinds, -, -, hended⟩ := shown_evaluate_terminated hresult
  have hunsettled : Kind.unsettled (source.filterMap Step.kind?) = [.arithmetic .negate] := by
    decide
  exact ⟨hresult, m, hm, hkinds.trans hunsettled, hended⟩

/-- Without its end, `-2` is 2: the sign still waits when the value is returned, and the end would
have made it -2. -/
theorem evaluate_sign_unreduced :
    let invoke := Routine.invoke ⟨false⟩ Routine.nestingLimit
    let source : List (Step Routine) :=
      Token.source [.operator (.arithmetic .negate), .number 2]
    (evaluate invoke ⟨false⟩ (some source) FunctionTable.empty).result.toOption = some 2 ∧
    (Machine.initial.steps invoke ⟨false⟩ source FunctionTable.empty).result.toOption.map
      (fun m => m.pending.map Pending.kind) = some [.arithmetic .negate] ∧
    (evaluate invoke ⟨false⟩ (some (source ++ Token.source [.operator (.control .endExpr)]))
      FunctionTable.empty).result.toOption = some (-2) := by
  decide +kernel

end Reckoner
