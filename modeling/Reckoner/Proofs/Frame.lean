import Reckoner.Proofs.Comparison
import Reckoner.Proofs.FirstFault

/-!
Values that stand below. A reduction takes its values from the top and puts back what it gives, so
whatever lies under the values that it takes stays there, and nothing of it is seen: not by the
operator, not by the function that is called. Only the count of all values can tell, and it is asked
when there may be too few, and once at the end. So a source does the same behind any numbers, up to
its first fault or its end, unless it lacks values when it stands alone.
-/

namespace Reckoner

variable {ι : Type}

def Fault.IsLack (fault : Fault) : Prop :=
  ∃ k required available, fault = .tooFewValues k required available

/-! ### A computation in a frame -/

/-- The second computation does all that the first one does, unless this one lacks values. -/
def Comparison.framing : Comparison (FunctionTable ι) (FunctionTable ι) where
  states table table' := table = table'
  traces trace trace' := trace = trace'
  excuses := Fault.IsLack
  astray _ := False
  nil := rfl
  append h h' := by rw [h, h']

namespace Run

variable {α β : Type}

/-- Unless the first computation lacks values, the second one does all that it does and ends with
the framed result. -/
abbrev Frames (frame : α → β) (x : Run (FunctionTable ι) α) (y : Run (FunctionTable ι) β) : Prop :=
  Related Comparison.framing (fun a b => frame a = b) x y

instance (R : α → β → Prop) : Covers (Comparison.framing (ι := ι)) R :=
  ⟨fun _ => Or.inr fun _ hastray => hastray⟩

theorem frames_pure (frame : α → β) (a : α) :
    Frames (ι := ι) frame (pure a) (pure (frame a)) := related_pure rfl

theorem frames_self (x : Run (FunctionTable ι) α) : Related Comparison.framing Eq x x :=
  related_self (fun _ _ => Iff.rfl) (fun _ => rfl) (fun _ hastray => hastray) x

/-- The outcome in a frame. -/
theorem Frames.outcome_eq {frame : α → β} {x : Run (FunctionTable ι) α} {y : Run (FunctionTable ι) β}
    (h : Frames frame x y) (table : FunctionTable ι) :
    (∃ fault, (x table).result = .error fault ∧ fault.IsLack) ∨
      y table = ⟨(x table).result.map frame, (x table).state, (x table).trace⟩ := by
  rcases h.alike table table rfl with (hastray | hexcused) | ⟨hended, hstates, htraces⟩
  · exact hastray.elim
  · exact Or.inl hexcused
  refine Or.inr ?_
  have hstate : (x table).state = (y table).state := hstates
  have htrace : (x table).trace = (y table).trace := htraces
  rw [hstate, htrace]
  generalize y table = outcome, (x table).result = r at hended ⊢
  obtain ⟨r', state, trace⟩ := outcome
  cases hended with
  | ok h => rw [← h]; rfl
  | error fault => rfl

end Run

/-! ### The machine on top of other values -/

namespace Machine

open Run

variable (invoke : Invocation ι) (options : Options) (below : List Float)

/-- The machine with other values under its own. -/
def onTop (m : Machine) : Machine := { m with values := m.values ++ below }

theorem frames_reduce (values : List Float) (p : Pending) :
    Frames (· ++ below) (reduce invoke values p) (reduce invoke (values ++ below) p) := by
  rcases Nat.lt_or_ge values.length p.operator.arity with hlt | hle
  · exact ⟨fun _ hastray => hastray.elim, fun table _ _ =>
      Or.inl (Or.inr ⟨_, congrArg Outcome.result (reduce_of_lt hlt table), _, _, _, rfl⟩)⟩
  · have hle' : p.operator.arity ≤ (values ++ below).length := by
      rw [List.length_append]
      exact Nat.le_add_right_of_le hle
    rw [reduce, reduce, if_neg (Nat.not_lt.2 hle), if_neg (Nat.not_lt.2 hle'),
      List.take_append_of_le_length hle, List.drop_append_of_le_length hle]
    refine (frames_self _).bind fun _ _ _ => (frames_self _).bind fun given given' hgiven => ?_
    rw [← hgiven, ← List.append_assoc]
    exact frames_pure _ _

theorem frames_readOperator (m : Machine) (k : Kind) :
    Frames (onTop below) (m.readOperator invoke options k)
      ((m.onTop below).readOperator invoke options k) := by
  rw [readOperator, readOperator]
  refine (frames_self _).bind fun table table' htable => ?_
  rw [← htable]
  refine (frames_self _).bind fun op op' hop => ?_
  rw [← hop]
  have hdue : Frames (· ++ below) ((due op m.pending).foldlM (reduce invoke) m.values)
      ((due op m.pending).foldlM (reduce invoke) (m.values ++ below)) :=
    related_foldlM_self (fun values _ p h => h ▸ frames_reduce invoke below values p) _ rfl
  refine hdue.bind fun values values' hvalues => ?_
  rw [← hvalues]
  exact frames_pure _ _

theorem frames_step (m : Machine) (s : Step ι) :
    Frames (onTop below) (m.step invoke options s) ((m.onTop below).step invoke options s) := by
  cases s with
  | yield item =>
      refine (frames_self _).bind fun _ _ _ => (frames_self _).bind fun token token' htoken => ?_
      rw [← htoken]
      cases token with
      | number x => exact frames_pure _ _
      | operator k => exact frames_readOperator invoke options below m k
  | register r => exact (frames_self _).bind fun _ _ _ => frames_pure _ _
  | clear => exact (frames_self _).bind fun _ _ _ => frames_pure _ _

/-- **A source does on top of other values what it does alone**, unless it lacks values alone. -/
theorem frames_steps (m : Machine) (source : List (Step ι)) :
    Frames (onTop below) (m.steps invoke options source)
      ((m.onTop below).steps invoke options source) :=
  related_foldlM_self (fun m _ s h => h ▸ frames_step invoke options below m s) source rfl

/-- Reading numbers puts them on top. -/
theorem steps_numbers (us : List Float) (m : Machine) (table : FunctionTable ι) :
    m.steps invoke options (Token.source (us.map .number)) table =
      ⟨.ok { m with values := us.reverse ++ m.values }, table,
        List.replicate us.length .taken⟩ := by
  induction us generalizing m with
  | nil => rfl
  | cons u us ih =>
      have hstep : m.step invoke options (.yield (.ofToken (.number u))) table =
          ⟨.ok { m with values := u :: m.values }, table, [.taken]⟩ := rfl
      have hrest := ih { m with values := u :: m.values }
      rw [steps, List.map_cons, Token.source, List.map_cons, List.foldlM_cons,
        bind_of_ok (congrArg Outcome.result hstep), hstep]
      rw [steps, Token.source] at hrest
      rw [hrest, List.reverse_cons, List.append_assoc]
      rfl

/-- At the end, the values below are counted with those on top. -/
theorem result_onTop {m : Machine} {us : List Float}
    (h : us.length + m.values.length ≠ 1) :
    (m.onTop us.reverse).result = .error (.unreduced (us.length + m.values.length)) := by
  have hlength : (m.onTop us.reverse).values.length = us.length + m.values.length := by
    rw [onTop, List.length_append, List.length_reverse, Nat.add_comm]
  rw [result_of_ne (hlength ▸ h), hlength]

end Machine

/-- **Values below are never touched.** A source that does not lack values alone does the same behind
any numbers: it takes them, and from there on its trace is the one that it has alone, with the same
reductions and the same calls on the same arguments. A fault before its end is the fault that it has
alone. At its end the numbers are there as they were, below the values that are there alone, so that
there are too many or too few unless just one number or value is left. -/
theorem evaluate_numbers_append (invoke : Invocation ι) (options : Options) (us : List Float)
    (source : List (Step ι)) (table : FunctionTable ι)
    (hlack : ∀ fault, (evaluate invoke options (some source) table).result = .error fault →
      ¬fault.IsLack) :
    let alone := evaluate invoke options (some source) table
    let behind : List (Step ι) := Token.source (us.map .number) ++ source
    let above := evaluate invoke options (some behind) table
    above.trace.filterMap Event.reduction? = alone.trace.filterMap Event.reduction? ∧
    Event.callsIn above.trace = Event.callsIn alone.trace ∧
    (∃ trace, alone.trace = trace ++ report alone.result ∧
      above.trace = List.replicate us.length .taken ++ (trace ++ report above.result)) ∧
    above.state = alone.state ∧
    (∀ fault, (Machine.initial.steps invoke options source table).result = .error fault →
      alone.result = .error fault ∧ above.result = .error fault) ∧
    ∀ m, (Machine.initial.steps invoke options source table).result = .ok m →
      ∃ m', (Machine.initial.steps invoke options behind table).result = .ok m' ∧
        m'.values.reverse = us ++ m.values.reverse ∧ m'.pending = m.pending ∧
        alone.result = m.result ∧ above.result = m'.result ∧
        (us.length + m.values.length ≠ 1 →
          above.result = .error (.unreduced (us.length + m.values.length))) := by
  intro alone behind above
  generalize hread : Machine.initial.steps invoke options source table = read
  have halone : alone = ⟨read.result >>= Machine.result, read.state,
      read.trace ++ report (read.result >>= Machine.result)⟩ := evaluate_of_steps hread
  have hbehind : Machine.initial.steps invoke options behind table =
      ⟨read.result.map (Machine.onTop us.reverse), read.state,
        List.replicate us.length .taken ++ read.trace⟩ := by
    have hnumbers := Machine.steps_numbers invoke options us Machine.initial table
    have hframe :=
      (Machine.frames_steps invoke options us.reverse Machine.initial source).outcome_eq table
    rw [hread] at hframe
    rw [Machine.steps_append, Run.bind_of_ok (congrArg Outcome.result hnumbers), hnumbers]
    rcases hframe with ⟨fault, hfault, hlacks⟩ | hframe
    · rw [hfault] at halone
      exact absurd hlacks (hlack fault (congrArg Outcome.result halone))
    · have htop : Machine.initial.onTop us.reverse =
          { Machine.initial with values := us.reverse ++ Machine.initial.values } := by
        rw [Machine.onTop, Machine.initial, List.append_nil, List.nil_append]
      rw [← htop, hframe]
  have habove : above = _ := evaluate_of_steps hbehind
  rw [List.append_assoc] at habove
  have hreductions : (List.replicate us.length Event.taken).filterMap Event.reduction? = [] :=
    List.filterMap_replicate_of_none rfl
  have hcalls : Event.callsIn (List.replicate us.length .taken) = [] := by
    rw [← Event.callsIn_filter_isObserved, List.filter_replicate_of_neg Bool.false_ne_true]
    rfl
  rw [halone, habove]
  refine ⟨?_, ?_, ⟨read.trace, rfl, rfl⟩, rfl, fun fault hfault => ?_, fun m hm => ?_⟩
  · have hreport : ∀ result : Except Fault Float,
        (report result).filterMap Event.reduction? = [] := fun _ =>
      Event.filterMap_of_logged (fun _ => rfl) fun _ => report_logged
    simp only [List.filterMap_append, hreductions, hreport, List.nil_append]
  · simp only [Event.callsIn_append, hcalls, callsIn_report, List.nil_append]
  · rw [hfault]
    exact ⟨rfl, rfl⟩
  · rw [hm]
    refine ⟨m.onTop us.reverse, by rw [hbehind, hm]; rfl, ?_, rfl, rfl, rfl, Machine.result_onTop⟩
    rw [Machine.onTop, List.reverse_append, List.reverse_reverse]

/-- Behind 7, a call of `f` gets the two numbers that it gets alone, and 7 is still there at the end.
-/
theorem evaluate_numbers_append_call :
    let invoke := Routine.invoke ⟨false⟩ Routine.nestingLimit
    let table : FunctionTable Routine := ⟨[⟨"f", 2, .sum⟩]⟩
    let source : List (Step Routine) := Token.source [.operator (.callStart "f"), .number 2,
      .number 3, .operator .callEnd, .operator (.control .endExpr)]
    let alone := evaluate invoke ⟨false⟩ (some source) table
    let above := evaluate invoke ⟨false⟩ (some (Token.source ([7].map .number) ++ source)) table
    alone.result.toOption = some 5 ∧ above.result = .error (.unreduced 2) ∧
    Event.callsIn alone.trace = [("f", [2, 3])] ∧ Event.callsIn above.trace = [("f", [2, 3])] := by
  intro invoke table source alone above
  have halone : alone.result.toOption = some 5 := by decide +kernel
  have hcalls : Event.callsIn alone.trace = [("f", [2, 3])] := by decide +kernel
  have hlack : ∀ fault, alone.result = .error fault → ¬fault.IsLack := by
    intro fault hfault
    rw [hfault] at halone
    cases halone
  obtain ⟨m, hm, hlength⟩ : ∃ m, (Machine.initial.steps invoke ⟨false⟩ source table).result =
      .ok m ∧ m.values.length = 1 := ⟨_, rfl, rfl⟩
  obtain ⟨_, hsame, _, _, _, hend⟩ :=
    evaluate_numbers_append invoke ⟨false⟩ [7] source table hlack
  obtain ⟨_, _, _, _, _, _, hmany⟩ := hend m hm
  rw [hlength] at hmany
  exact ⟨halone, hmany (by decide), hcalls, hsame.trans hcalls⟩

end Reckoner
