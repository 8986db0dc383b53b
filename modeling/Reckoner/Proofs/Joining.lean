import Reckoner.Proofs.FirstFault
import Reckoner.Routine

/-!
What joining refuses. Joining judges the lesser one of its two values. Of two numbers the lesser one
is below zero if and only if one of them is, and a NaN on the right is never the lesser one. A NaN on
the left always is, since nothing is less than it; so it hides a negative number on its right, which
is joined as if it were none. All runs that come to a join do as these two values say, and no other
pair of values makes a run end in the fault of joining.
-/

namespace Reckoner

open Float.Model (UnpackedFloat)

namespace Binary64

/-! ### Doubles below zero -/

theorem lt_iff_compare (a b : Float) :
    a < b ↔ a.toModel.unpack.compare b.toModel.unpack = some .lt := by
  change decide (a.toModel < b.toModel) = true ↔ _
  rw [decide_eq_true_eq]
  exact beq_iff_eq

theorem lt_zero_iff_compare (a : Float) :
    a < 0 ↔ a.toModel.unpack.compare (.zero .positive) = some .lt := lt_iff_compare a 0

theorem isNaN_iff (a : Float) : a.isNaN = true ↔ a.toModel.unpack = .notANumber := by
  change a.toModel.unpack.isNaN = true ↔ _
  cases a.toModel.unpack with
  | notANumber => exact iff_of_true rfl rfl
  | _ => exact iff_of_false Bool.false_ne_true fun h => by cases h

/-- Below zero are the negative infinity and the finite numbers with a negative sign. -/
theorem compare_zero_eq_lt_iff (u : UnpackedFloat) :
    u.compare (.zero .positive) = some .lt ↔
      u = .infinity .negative ∨ ∃ m e h, u = .finite .negative m e h := by
  constructor
  · intro hlt
    cases u with
    | infinity sign =>
        cases sign with
        | negative => exact Or.inl rfl
        | positive => cases hlt
    | finite sign m e h =>
        cases sign with
        | negative => exact Or.inr ⟨m, e, h, rfl⟩
        | positive => cases hlt
    | notANumber => cases hlt
    | zero sign => cases hlt
  · rintro (rfl | ⟨m, e, h, rfl⟩) <;> rfl

theorem not_lt_of_isNaN {a : Float} (h : a.isNaN = true) (b : Float) : ¬a < b ∧ ¬b < a := by
  rw [lt_iff_compare, lt_iff_compare, (isNaN_iff a).1 h]
  cases b.toModel.unpack with
  | _ =>
      constructor
      · exact fun hlt => by cases hlt
      · exact fun hlt => by cases hlt

/-- What is less than a number below zero is below zero. -/
theorem lt_zero_of_lt {a b : Float} (hlt : b < a) (ha : a < 0) : b < 0 := by
  rw [lt_iff_compare] at hlt
  rw [lt_zero_iff_compare, compare_zero_eq_lt_iff] at ha ⊢
  generalize a.toModel.unpack = u, b.toModel.unpack = v at hlt ha
  cases v with
  | infinity sign =>
      cases sign with
      | negative => exact Or.inl rfl
      | positive => obtain rfl | ⟨m, e, h, rfl⟩ := ha <;> cases hlt
  | finite sign m e h =>
      cases sign with
      | negative => exact Or.inr ⟨m, e, h, rfl⟩
      | positive => obtain rfl | ⟨m', e', h', rfl⟩ := ha <;> cases hlt
  | zero sign => obtain rfl | ⟨m, e, h, rfl⟩ := ha <;> cases hlt
  | notANumber => cases hlt

/-- A number is below zero if it is not above another one that is. -/
theorem lt_zero_of_not_lt {a b : Float} (hle : ¬b < a) (ha : a.isNaN = false) (hb : b < 0) :
    a < 0 := by
  have hnumber : a.toModel.unpack ≠ .notANumber := fun h => by
    rw [(isNaN_iff a).2 h] at ha
    cases ha
  rw [lt_iff_compare] at hle
  rw [lt_zero_iff_compare, compare_zero_eq_lt_iff] at hb ⊢
  generalize a.toModel.unpack = u, b.toModel.unpack = v at hle hb hnumber
  cases u with
  | infinity sign =>
      cases sign with
      | negative => exact Or.inl rfl
      | positive => obtain rfl | ⟨m, e, h, rfl⟩ := hb <;> exact absurd rfl hle
  | finite sign m e h =>
      cases sign with
      | negative => exact Or.inr ⟨m, e, h, rfl⟩
      | positive => obtain rfl | ⟨m', e', h', rfl⟩ := hb <;> exact absurd rfl hle
  | zero sign => obtain rfl | ⟨m, e, h, rfl⟩ := hb <;> exact absurd rfl hle
  | notANumber => exact absurd rfl hnumber

end Binary64

/-! ### The lesser of two doubles -/

/-- The lesser of two doubles is below zero if and only if one of them is, unless the left one is
NaN. -/
theorem lesser_lt_zero_iff (a b : Float) :
    lesser a b < 0 ↔ a.isNaN = false ∧ (a < 0 ∨ b < 0) := by
  rw [lesser]
  cases ha : a.isNaN with
  | true =>
      rw [if_neg (Binary64.not_lt_of_isNaN ha b).2]
      exact iff_of_false (Binary64.not_lt_of_isNaN ha 0).1 fun h => Bool.noConfusion h.1
  | false =>
      by_cases hlt : b < a
      · rw [if_pos hlt]
        refine ⟨fun hb => ⟨rfl, Or.inr hb⟩, ?_⟩
        rintro ⟨_, ha | hb⟩
        · exact Binary64.lt_zero_of_lt hlt ha
        · exact hb
      · rw [if_neg hlt]
        refine ⟨fun ha => ⟨rfl, Or.inl ha⟩, ?_⟩
        rintro ⟨_, ha | hb⟩
        · exact ha
        · exact Binary64.lt_zero_of_not_lt hlt ‹_› hb

/-- Joining refuses the two values: one of them is below zero, and the left one is a number. -/
def JoinRefuses (a b : Float) : Prop := a.isNaN = false ∧ (a < 0 ∨ b < 0)

instance (a b : Float) : Decidable (JoinRefuses a b) := inferInstanceAs (Decidable (_ ∧ _))

theorem joined_eq (a b : Float) :
    joined a b = if JoinRefuses a b then .error (.negativeJoin a b) else .ok (a * 10 + b) :=
  if_congr (lesser_lt_zero_iff a b) rfl rfl

/-! ### Joins of a run -/

variable {ι : Type}

/-- A join takes two values, whatever it was looked up on. -/
theorem Machine.reduce_join {invoke : Invocation ι} {p : Pending} (hkind : p.kind = .control .join)
    (hsuits : p.kind.Suits p.operator) (a b : Float) (below : List Float)
    (table : FunctionTable ι) :
    reduce invoke (b :: a :: below) p table =
      ⟨(joined a b).map fun x => x :: below, table, [.reduced p.position (.control .join) [a, b]]⟩ := by
  have harity : p.operator.arity = 2 := hsuits.arity 2 (by rw [hkind]; rfl)
  have hle : p.operator.arity ≤ (b :: a :: below).length := by
    rw [harity]
    exact Nat.le_add_left 2 _
  have htake : ((b :: a :: below).take p.operator.arity).reverse = [a, b] := by
    rw [harity]
    rfl
  rw [reduce_of_le hle rfl, htake, hkind, apply, Run.ofExcept_result, Run.ofExcept_state,
    Run.ofExcept_trace, harity]
  have hgiven : Control.apply .join [a, b] = (joined a b).map some := rfl
  rw [hgiven]
  cases joined a b <;> rfl

namespace Reached

variable {invoke : Invocation ι} {options : Options} {source : List (Step ι)}
  {table : FunctionTable ι}

/-- The reduction of a join. -/
theorem next_of_join {now : Reached invoke options source table} {p : Pending} {a b : Float}
    {below : List Float} (hreduces : now.moment.Reduces p) (hkind : p.kind = .control .join)
    (hvalues : now.moment.machine.values = b :: a :: below) :
    now.next = ⟨(joined a b).map fun x => now.moment.reduced (x :: below), now.present,
      [.reduced p.position (.control .join) [a, b]]⟩ := by
  rw [next, hreduces.next_eq, Run.bind_pure_apply, hvalues,
    Machine.reduce_join hkind (now.suits_of_held hreduces.mem_held)]
  cases joined a b <;> rfl

/-- Whoever ends in the fault of joining has come to a join of these two values. -/
theorem exists_join_of_evaluate {a b : Float}
    (h : (evaluate invoke options (some source) table).result = .error (.negativeJoin a b)) :
    ∃ (now : Reached invoke options source table) (p : Pending) (below : List Float),
      now.moment.Reduces p ∧ p.kind = .control .join ∧
        now.moment.machine.values = b :: a :: below ∧ JoinRefuses a b := by
  obtain ⟨now, p, hreduces, hfault⟩ :=
    exists_reduces_of_report h (List.cons_ne_nil _ _) fun n => Fault.noConfusion
  have hsuits := now.suits_of_held hreduces.mem_held
  refine ⟨now, p, ?_⟩
  rcases Machine.error_of_reduce hsuits hfault with
    ⟨_, hother⟩ | ⟨hkind, _⟩ | ⟨name, _, ⟨_, hother⟩ | ⟨d, _, hjudged⟩⟩
  · cases hother
  · have harity : p.operator.arity = 2 := hsuits.arity 2 (by rw [hkind]; rfl)
    match hvalues : now.moment.machine.values with
    | [] =>
        rw [hvalues, Machine.reduce_of_lt (by rw [harity]; exact Nat.le_add_left 1 _)] at hfault
        cases hfault
    | [_] =>
        rw [hvalues, Machine.reduce_of_lt (by rw [harity]; exact Nat.le_refl 2)] at hfault
        cases hfault
    | y :: x :: below =>
        rw [hvalues, Machine.reduce_join hkind hsuits] at hfault
        have hjoined := Run.map_eq_error hfault
        rw [joined_eq] at hjoined
        split at hjoined
        · rename_i hrefuses
          cases hjoined
          exact ⟨below, hreduces, hkind, rfl, hrefuses⟩
        · cases hjoined
  · cases hother
  · exact absurd (Machine.isOfCall_of_judged hjudged) Bool.false_ne_true

/-- **A join is refused for a value below zero, unless the left one is NaN.** Whatever has led to
its two values, and whatever these are: if one of them is below zero and the left one is a number,
the run ends there, in the fault that names the two; otherwise ten times the left one plus the right
one takes their place, and the run goes on. No run ends in this fault in any other way. -/
theorem joins_of_reached (invoke : Invocation ι) (options : Options) (source : List (Step ι))
    (table : FunctionTable ι) :
    let outcome := evaluate invoke options (some source) table
    (∀ (now : Reached invoke options source table) (p : Pending) (a b : Float) (below : List Float),
      now.moment.Reduces p → p.kind = .control .join →
      now.moment.machine.values = b :: a :: below →
        let fault := Fault.negativeJoin a b
        let reduction := Event.reduced p.position (.control .join) [a, b]
        options.joinEnabled = true ∧
        (outcome.result = .error fault ↔ JoinRefuses a b) ∧
        (JoinRefuses a b → outcome =
          ⟨.error fault, now.present, now.trace ++ [reduction, .logged (.rejected fault)]⟩) ∧
        (¬JoinRefuses a b → ∃ later : Reached invoke options source table,
          later.time = now.time + 1 ∧ later.present = now.present ∧
          later.trace = now.trace ++ [reduction] ∧
          later.moment.machine.values = (a * 10 + b) :: below)) ∧
    ∀ a b, outcome.result = .error (.negativeJoin a b) →
      ∃ (now : Reached invoke options source table) (p : Pending) (below : List Float),
        now.moment.Reduces p ∧ p.kind = .control .join ∧
          now.moment.machine.values = b :: a :: below ∧ JoinRefuses a b := by
  intro outcome
  refine ⟨fun now p a b below hreduces hkind hvalues => ?_, fun a b => exists_join_of_evaluate⟩
  intro fault reduction
  have hnext := next_of_join hreduces hkind hvalues
  have hrefused : JoinRefuses a b → outcome =
      ⟨.error fault, now.present, now.trace ++ [reduction, .logged (.rejected fault)]⟩ := by
    intro hrefuses
    rw [joined_eq, if_pos hrefuses] at hnext
    have hevaluate := evaluate_of_error (congrArg Outcome.result hnext)
    rw [hnext] at hevaluate
    exact hevaluate
  obtain ⟨_, _, _, _, hlookup⟩ := now.exists_read p hreduces.mem_held
  refine ⟨Kind.joinEnabled_of_lookup (hkind ▸ hlookup), ⟨fun hfault => ?_, fun hrefuses => ?_⟩,
    hrefused, fun hjoins => ?_⟩
  · obtain ⟨_, _, _, _, _, _, hrefuses⟩ := exists_join_of_evaluate hfault
    exact hrefuses
  · exact congrArg Outcome.result (hrefused hrefuses)
  · rw [joined_eq, if_neg hjoins] at hnext
    exact ⟨now.advance _ (congrArg Outcome.result hnext), rfl, congrArg Outcome.state hnext,
      congrArg (now.trace ++ ·) (congrArg Outcome.trace hnext), rfl⟩

/-- A digit with a sign is refused before a NaN, with this fault and nothing joined. -/
theorem joins_of_reached_negative :
    let invoke := Routine.invoke ⟨true⟩ Routine.nestingLimit
    let source : List (Step Routine) := Token.source [.number (-1), .operator (.control .join),
      .number Binary64.nan, .operator (.control .endExpr)]
    let fault := Fault.negativeJoin (-1) Binary64.nan
    let outcome := evaluate invoke ⟨true⟩ (some source) .empty
    outcome.result = .error fault ∧
    outcome.trace = [.taken, .taken, .taken, .taken,
      .reduced 0 (.control .join) [-1, Binary64.nan], .logged (.rejected fault)] ∧
    ∃ (now : Reached invoke ⟨true⟩ source .empty) (p : Pending) (below : List Float),
      now.moment.Reduces p ∧ p.kind = .control .join ∧
      now.moment.machine.values = Binary64.nan :: -1 :: below ∧ JoinRefuses (-1) Binary64.nan := by
  intro invoke source fault outcome
  have harrives : (Moment.start source).after invoke ⟨true⟩ 5 .empty =
      ⟨.ok ⟨⟨[Binary64.nan, -1], [⟨0, .control .join, Control.join.operator⟩], 1⟩,
        some (.control .endExpr, Control.endExpr.operator), []⟩, .empty,
        [.taken, .taken, .taken, .taken]⟩ := by
    rfl
  let now : Reached invoke ⟨true⟩ source .empty := ⟨5, _, _, _, harrives⟩
  have hreduces : now.moment.Reduces ⟨0, .control .join, Control.join.operator⟩ :=
    ⟨(.control .endExpr, Control.endExpr.operator), rfl, rfl, rfl⟩
  have hrefuses : JoinRefuses (-1) Binary64.nan := by decide +kernel
  obtain ⟨hjoin, hfrom⟩ := joins_of_reached invoke ⟨true⟩ source .empty
  obtain ⟨_, _, hrefused, _⟩ := hjoin now _ (-1) Binary64.nan [] hreduces rfl rfl
  have houtcome : outcome = _ := hrefused hrefuses
  have hresult : outcome.result = .error fault := congrArg Outcome.result houtcome
  exact ⟨hresult, congrArg Outcome.trace houtcome, hfrom _ _ hresult⟩

/-- The other way round the two are joined, though one of them is below zero. -/
theorem exists_join_unrefused :
    let invoke := Routine.invoke ⟨true⟩ Routine.nestingLimit
    let source : List (Step Routine) := Token.source [.number Binary64.nan,
      .operator (.control .join), .number (-1), .operator (.control .endExpr)]
    let outcome := evaluate invoke ⟨true⟩ (some source) .empty
    ∃ (now : Reached invoke ⟨true⟩ source .empty) (p : Pending),
      now.moment.Reduces p ∧ p.kind = .control .join ∧
      now.moment.machine.values = [-1, Binary64.nan] ∧ (-1 : Float) < 0 ∧
      outcome.result ≠ .error (.negativeJoin Binary64.nan (-1)) ∧
      outcome.result.toOption.map Float.isNaN = some true := by
  intro invoke source outcome
  have harrives : (Moment.start source).after invoke ⟨true⟩ 5 .empty =
      ⟨.ok ⟨⟨[-1, Binary64.nan], [⟨0, .control .join, Control.join.operator⟩], 1⟩,
        some (.control .endExpr, Control.endExpr.operator), []⟩, .empty,
        [.taken, .taken, .taken, .taken]⟩ := by
    rfl
  have hresult : outcome.result.toOption.map Float.isNaN = some true := by decide +kernel
  refine ⟨⟨5, _, _, _, harrives⟩, ⟨0, .control .join, Control.join.operator⟩,
    ⟨(.control .endExpr, Control.endExpr.operator), rfl, rfl, rfl⟩, rfl, rfl, by decide +kernel,
    fun hfault => ?_, hresult⟩
  rw [hfault] at hresult
  cases hresult

end Reached

end Reckoner
