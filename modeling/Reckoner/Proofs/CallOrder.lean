import Reckoner.Proofs.FirstFault
import Reckoner.Proofs.Resumption
import Reckoner.Routine

/-!
The order of calls. A call binds as loosely as a bracket and to the left, so the start of a call makes
the pending call reduce before it joins the pending operators: there is never a second one. What a
run has called, what it holds and what its source will still open are therefore, one after the other,
the calls that the source opens; whatever a run does next moves the boundaries between these three
and changes nothing else.
-/

namespace Reckoner

variable {ι : Type}

/-! ### Calls with their numbers -/

/-- The call that a kind opens, with the number of its operator. -/
def Kind.opening? (n : Nat) : Kind → Option (Nat × String)
  | callStart f => some (n, f)
  | _ => none

/-- The calls that a source opens, in their order, behind `n` other operators. -/
def opened (n : Nat) (source : List (Step ι)) : List (Nat × String) :=
  ((source.filterMap Step.kind?).zipIdx n).filterMap fun w => w.1.opening? w.2

def callsReduced (trace : List Event) : List (Nat × String) :=
  (trace.filterMap Event.reduction?).filterMap fun r => r.kind.opening? r.position

def callsHeld (ps : List Pending) : List (Nat × String) :=
  ps.filterMap fun p => p.kind.opening? p.position

def calledNames (trace : List Event) : List String := trace.filterMap Event.callName?

theorem Kind.opening_eq_some {n : Nat} {k : Kind} {w : Nat × String} (h : k.opening? n = some w) :
    ∃ f, k = .callStart f ∧ w = (n, f) := by
  cases k with
  | callStart f => exact ⟨f, rfl, (Option.some.inj h).symm⟩
  | _ => cases h

theorem Kind.opening_eq_none {k : Kind} (h : ∀ f, k ≠ .callStart f) (n : Nat) :
    k.opening? n = none := by
  cases k with
  | callStart f => exact absurd rfl (h f)
  | _ => rfl

theorem opened_cons_of_none {s : Step ι} (h : s.kind? = none) (n : Nat) (rest : List (Step ι)) :
    opened n (s :: rest) = opened n rest := by
  rw [opened, List.filterMap_cons_none h, opened]

theorem opened_cons_of_some {s : Step ι} {k : Kind} (h : s.kind? = some k) (n : Nat)
    (rest : List (Step ι)) :
    opened n (s :: rest) = (k.opening? n).toList ++ opened (n + 1) rest := by
  rw [opened, List.filterMap_cons_some h, List.zipIdx_cons, List.filterMap_cons, opened]
  cases k.opening? n <;> rfl

theorem callsReduced_append (earlier later : List Event) :
    callsReduced (earlier ++ later) = callsReduced earlier ++ callsReduced later := by
  rw [callsReduced, List.filterMap_append, List.filterMap_append]
  rfl

theorem calledNames_append (earlier later : List Event) :
    calledNames (earlier ++ later) = calledNames earlier ++ calledNames later :=
  List.filterMap_append

theorem callsHeld_cons (p : Pending) (ps : List Pending) :
    callsHeld (p :: ps) = (p.kind.opening? p.position).toList ++ callsHeld ps := by
  rw [callsHeld, List.filterMap_cons, callsHeld]
  cases p.kind.opening? p.position <;> rfl

theorem callsHeld_eq_nil {ps : List Pending} (h : ∀ p ∈ ps, ∀ f, p.kind ≠ .callStart f) :
    callsHeld ps = [] :=
  List.filterMap_eq_nil_iff.2 fun p hp => Kind.opening_eq_none (h p hp) _

/-- Records tell of no reduction and of no call. -/
theorem calls_of_logged {trace : List Event} (h : ∀ e ∈ trace, ∃ record, e = .logged record) :
    callsReduced trace = [] ∧ calledNames trace = [] := by
  rw [callsReduced, calledNames, Event.filterMap_of_logged (fun _ => rfl) h,
    Event.filterMap_of_logged (fun _ => rfl) h]
  exact ⟨rfl, rfl⟩

theorem calls_report {α : Type} (result : Except Fault α) :
    callsReduced (report result) = [] ∧ calledNames (report result) = [] :=
  calls_of_logged fun _ => report_logged

/-! ### At most one call is pending -/

namespace Tidy

variable {ws : List (Kind × Operator)} {k : Kind} {op : Operator}

/-- An operator that reduces nothing joins tidy ones. -/
theorem push {pending : List Pending} (h : Tidy (Machine.shape pending)) (hop : k.Suits op)
    (hhead : ∀ p ∈ pending.head?, op.unwinds p.operator = false) :
    Tidy ((k, op) :: Machine.shape pending) := by
  have hread := h.read hop
  have hdrop : (Machine.shape pending).dropWhile (fun w => op.unwinds w.2) =
      Machine.shape pending := by
    cases pending with
    | nil => rfl
    | cons p pending => exact List.dropWhile_cons_of_neg (by simp [hhead p rfl])
  rw [hdrop] at hread
  exact hread

/-- Below a call there is no other one. -/
theorem ne_callStart {f : String} (h : Tidy ((.callStart f, op) :: ws)) :
    ∀ w ∈ ws, ∀ g, w.1 ≠ .callStart g := by
  intro w hw g hg
  have hkeeps := (List.pairwise_cons.1 h.ordered).1 w hw
  have hunwinds : (Kind.callStart f).unwinds w.1 = true := by
    rw [hg]
    rfl
  rw [hunwinds] at hkeeps
  cases hkeeps

end Tidy

theorem callsHeld_eq_nil_of_tidy {f : String} {op : Operator} {ps : List Pending}
    (h : Tidy ((.callStart f, op) :: Machine.shape ps)) : callsHeld ps = [] :=
  callsHeld_eq_nil fun _ hp => h.ne_callStart _ (List.mem_map_of_mem hp)

theorem length_callsHeld {ps : List Pending} (h : Tidy (Machine.shape ps)) :
    (callsHeld ps).length ≤ 1 := by
  induction ps with
  | nil => exact Nat.zero_le 1
  | cons p ps ih =>
      have hps : Tidy (Machine.shape ps) := h.sublist (List.sublist_cons_self _ _)
      rw [callsHeld_cons]
      cases hopening : p.kind.opening? p.position with
      | none => exact ih hps
      | some w =>
          obtain ⟨f, hkind, _⟩ := Kind.opening_eq_some hopening
          have hcall : Tidy ((.callStart f, p.operator) :: Machine.shape ps) := hkind ▸ h
          rw [callsHeld_eq_nil_of_tidy hcall]
          exact Nat.le_refl 1

/-! ### What one reduction calls -/

namespace Machine

variable {invoke : Invocation ι} {values : List Float} {p : Pending} {table : FunctionTable ι}

theorem callsReduced_reduce (h : p.operator.arity ≤ values.length) :
    callsReduced (reduce invoke values p table).trace =
      (p.kind.opening? p.position).toList := by
  rw [callsReduced, reductions_reduce h, List.filterMap_cons]
  cases p.kind.opening? p.position <;> rfl

/-- A reduction that fails may have called nothing; one that succeeds has called what it is to call.
-/
theorem calledNames_reduce :
    calledNames (reduce invoke values p table).trace <+:
      (callsReduced (reduce invoke values p table).trace).map Prod.snd ∧
    ∀ values', (reduce invoke values p table).result = .ok values' →
      calledNames (reduce invoke values p table).trace =
        (callsReduced (reduce invoke values p table).trace).map Prod.snd := by
  have hreduction := reduction_reduce invoke values p table
  have hreduced := @callsReduced_reduce ι invoke values p table
  generalize reduce invoke values p table = outcome at hreduction hreduced ⊢
  cases hreduction with
  | tooFew hlt => exact ⟨⟨_, rfl⟩, fun _ h => by cases h⟩
  | plain hle harguments hkind =>
      rw [hreduced hle, Kind.opening_eq_none hkind]
      exact ⟨⟨_, rfl⟩, fun _ _ => rfl⟩
  | unknown hle harguments hkind hnone => exact ⟨⟨_, rfl⟩, fun _ h => by cases h⟩
  | @calls name d arguments called hle harguments hkind hget hcalled =>
      have hwarnings : calledNames (warnings name called.result) = [] :=
        (calls_of_logged fun _ => warnings_logged).2
      have hsame : calledNames (.reduced p.position p.kind arguments ::
          .called name arguments called.trace :: warnings name called.result) =
            (p.kind.opening? p.position).toList.map Prod.snd := by
        change name :: calledNames (warnings name called.result) = _
        rw [hwarnings, hkind]
        rfl
      rw [hreduced hle]
      exact ⟨hsame ▸ List.prefix_refl _, fun _ _ => hsame⟩

end Machine

/-! ### What a run is still to call -/

namespace Moment

variable {invoke : Invocation ι} {options : Options} {c c' : Moment ι} {table : FunctionTable ι}

/-- The operator that is looked up joins the pending ones next. -/
def Joins (c : Moment ι) (k : Kind) : Prop :=
  ∃ op, c.incoming = some (k, op) ∧ ∀ p ∈ c.machine.pending.head?, op.unwinds p.operator = false

/-- The calls that are held, the earliest first, and those that the source will open. -/
def outstanding (c : Moment ι) : List (Nat × String) :=
  (callsHeld c.held).reverse ++ opened c.seen c.rest

theorem tidy_next (htidy : Tidy (Machine.shape c.machine.pending))
    (hsuits : ∀ p ∈ c.held, p.kind.Suits p.operator)
    (h : (c.next invoke options table).result = .ok c') :
    Tidy (Machine.shape c'.machine.pending) := by
  have hdeed := deed_next invoke options c table
  generalize c.next invoke options table = outcome at h hdeed
  cases hdeed with
  | refuses hrefused => cases h
  | refusesRegistration hrefused => cases h
  | @joins m k op rest hjoins =>
      obtain rfl := Except.ok.inj h
      exact htidy.push (hsuits ⟨m.operatorsRead, k, op⟩ List.mem_cons_self) hjoins
  | reduces hreduces hreduction =>
      obtain ⟨values, _, rfl⟩ := Run.map_eq_ok h
      exact htidy.sublist ((List.tail_sublist _).map _)
  | _ =>
      obtain rfl := Except.ok.inj h
      exact htidy

/-- A reduced call was the first one that was outstanding. -/
theorem outstanding_reduced {p : Pending} (htidy : Tidy (Machine.shape c.machine.pending))
    (h : c.Reduces p) (values : List Float) :
    c.outstanding = (p.kind.opening? p.position).toList ++ (c.reduced values).outstanding := by
  obtain ⟨⟨vs, pending, n⟩, incoming, rest⟩ := c
  obtain ⟨_, _, _, hhead⟩ := h
  cases pending with
  | nil => cases hhead
  | cons q pending =>
      obtain rfl : q = p := Option.some.inj hhead
      cases hopening : q.kind.opening? q.position with
      | none => simp [outstanding, held, callsHeld, reduced, hopening, seen]
      | some w =>
          obtain ⟨f, hkind, _⟩ := Kind.opening_eq_some hopening
          have hcall : Tidy ((.callStart f, q.operator) :: Machine.shape pending) := hkind ▸ htidy
          have hbelow := callsHeld_eq_nil_of_tidy hcall
          rw [callsHeld] at hbelow
          simp [outstanding, held, callsHeld, reduced, hopening, hbelow, seen]

theorem outstanding_next (htidy : Tidy (Machine.shape c.machine.pending))
    (h : (c.next invoke options table).result = .ok c') :
    callsReduced (c.next invoke options table).trace ++ c'.outstanding = c.outstanding := by
  have hdeed := deed_next invoke options c table
  generalize c.next invoke options table = outcome at h hdeed ⊢
  cases hdeed with
  | refuses hrefused => cases h
  | refusesRegistration hrefused => cases h
  | rests m =>
      obtain rfl := Except.ok.inj h
      rfl
  | joins hjoins =>
      obtain rfl := Except.ok.inj h
      rfl
  | @number m item rest x hnumber =>
      obtain rfl := Except.ok.inj h
      have hkind : (Step.yield item : Step ι).kind? = none := Step.kind_of_token hnumber
      rw [outstanding, outstanding, opened_cons_of_none hkind]
      rfl
  | @operator m k op rest hoperator =>
      obtain rfl := Except.ok.inj h
      have hkind : (Step.yield (.operation (.kind k)) : Step ι).kind? = some k := rfl
      rw [outstanding, outstanding, opened_cons_of_some hkind]
      cases hopening : k.opening? m.operatorsRead <;>
        simp [held, callsHeld, callsReduced, Event.reduction?, hopening, seen]
  | registers hregisters =>
      obtain rfl := Except.ok.inj h
      rw [outstanding, outstanding, opened_cons_of_none rfl]
      rfl
  | clears =>
      obtain rfl := Except.ok.inj h
      rw [outstanding, outstanding, opened_cons_of_none rfl]
      rfl
  | @reduces _ p _ hreduces hreduction =>
      obtain ⟨values, hvalues, rfl⟩ := Run.map_eq_ok h
      rw [← hreduction] at hvalues ⊢
      rw [Machine.callsReduced_reduce (Machine.arity_le_of_reduce hvalues),
        outstanding_reduced htidy hreduces values]

/-- What is reduced next is outstanding, whatever comes of it. -/
theorem callsReduced_next (htidy : Tidy (Machine.shape c.machine.pending)) :
    callsReduced (c.next invoke options table).trace <+: c.outstanding := by
  have hdeed := deed_next invoke options c table
  generalize c.next invoke options table = outcome at hdeed ⊢
  cases hdeed with
  | @reduces _ p _ hreduces hreduction =>
      rw [← hreduction, outstanding_reduced htidy hreduces []]
      rcases Nat.lt_or_ge c.machine.values.length p.operator.arity with hlt | hle
      · rw [Machine.reduce_of_lt hlt]
        exact List.nil_prefix
      · rw [Machine.callsReduced_reduce hle]
        exact List.prefix_append _ _
  | _ => exact List.nil_prefix

theorem calledNames_next :
    calledNames (c.next invoke options table).trace <+:
      (callsReduced (c.next invoke options table).trace).map Prod.snd ∧
    ∀ c', (c.next invoke options table).result = .ok c' →
      calledNames (c.next invoke options table).trace =
        (callsReduced (c.next invoke options table).trace).map Prod.snd := by
  have hdeed := deed_next invoke options c table
  generalize c.next invoke options table = outcome at hdeed ⊢
  cases hdeed with
  | reduces hreduces hreduction =>
      rw [← hreduction]
      obtain ⟨hbegins, hsame⟩ := Machine.calledNames_reduce
      refine ⟨hbegins, fun c' h => ?_⟩
      obtain ⟨values, hvalues, _⟩ := Run.map_eq_ok h
      exact hsame values hvalues
  | _ => exact ⟨⟨_, rfl⟩, fun _ _ => rfl⟩

/-- When a call joins the pending operators, it is the only one that is held. -/
theorem callsHeld_of_joins {f : String} (htidy : Tidy (Machine.shape c.machine.pending))
    (hsuits : ∀ p ∈ c.held, p.kind.Suits p.operator) (h : c.Joins (.callStart f)) :
    callsHeld c.machine.pending = [] ∧ callsHeld c.held = [(c.machine.operatorsRead, f)] := by
  obtain ⟨m, incoming, rest⟩ := c
  obtain ⟨op, hincoming, hhead⟩ := h
  obtain rfl : incoming = some (.callStart f, op) := hincoming
  have hnone := callsHeld_eq_nil_of_tidy
    (htidy.push (hsuits ⟨m.operatorsRead, .callStart f, op⟩ List.mem_cons_self) hhead)
  refine ⟨hnone, ?_⟩
  change callsHeld (⟨m.operatorsRead, .callStart f, op⟩ :: m.pending) = _
  rw [callsHeld_cons, hnone]
  rfl

end Moment

/-! ### Whole runs -/

namespace Reached

variable {invoke : Invocation ι} {options : Options} {source : List (Step ι)}
  {table : FunctionTable ι}

theorem tidy (now : Reached invoke options source table) :
    Tidy (Machine.shape now.moment.machine.pending) := by
  induction now using invariant with
  | hstart => exact Tidy.nil
  | hnext before c h ih => exact Moment.tidy_next ih (fun _ => before.suits_of_held) h

/-- What has been called, what is held and what will be opened is all that the source opens. -/
theorem callsReduced_outstanding (now : Reached invoke options source table) :
    callsReduced now.trace ++ now.moment.outstanding = opened 0 source := by
  induction now using invariant with
  | hstart => rfl
  | hnext before c h ih =>
      have hnext := Moment.outstanding_next before.tidy h
      change callsReduced (before.trace ++ before.next.trace) ++ c.outstanding = _
      rw [callsReduced_append, List.append_assoc, ← ih, ← hnext]
      rfl

theorem calledNames_trace (now : Reached invoke options source table) :
    calledNames now.trace = (callsReduced now.trace).map Prod.snd := by
  induction now using invariant with
  | hstart => rfl
  | hnext before c h ih =>
      have hnext := Moment.calledNames_next.2 c h
      change calledNames (before.trace ++ before.next.trace) =
        (callsReduced (before.trace ++ before.next.trace)).map Prod.snd
      rw [calledNames_append, callsReduced_append, List.map_append, ih]
      exact congrArg _ hnext

/-- A run that reads its source up to a flush has called all that the source opens: a call gives a value,
and a flush leaves no operator pending that does. -/
theorem callsReduced_of_final {last : Reached invoke options source table}
    (hfinal : last.moment.IsFinal) (hflush : ∀ s ∈ source.getLast?, s.isFlush = true) :
    callsReduced last.trace = opened 0 source := by
  have hmarkers := Machine.working_eq_nil_iff.1
    (Machine.idle_of_getLast hflush (congrArg Outcome.result (steps_of_final hfinal)))
  have hnone : callsHeld last.moment.held = [] := by
    rw [Moment.held, hfinal.1]
    refine callsHeld_eq_nil fun p hp f hkind => ?_
    have hmarker := hmarkers p hp
    rw [hkind] at hmarker
    cases hmarker
  have hall := last.callsReduced_outstanding
  rw [Moment.outstanding, hnone, hfinal.2] at hall
  rw [← hall]
  exact (List.append_nil _).symm

/-- An evaluation reduces the first calls that its source opens, and calls the first of these. -/
theorem callsReduced_evaluate :
    let trace := (evaluate invoke options (some source) table).trace
    callsReduced trace <+: opened 0 source ∧
      calledNames trace <+: (callsReduced trace).map Prod.snd := by
  intro trace
  obtain ⟨last, hfinal | ⟨fault, hfault⟩⟩ :=
    exists_last (start : Reached invoke options source table)
  · have htrace : trace = _ := congrArg Outcome.trace (evaluate_of_final hfinal)
    rw [htrace, callsReduced_append, calledNames_append, (calls_report _).1, (calls_report _).2,
      List.append_nil, List.append_nil, last.calledNames_trace]
    exact ⟨⟨_, last.callsReduced_outstanding⟩, List.prefix_refl _⟩
  · have htrace : trace =
        last.trace ++ (last.next.trace ++ report (.error fault : Except Fault Float)) :=
      congrArg Outcome.trace (evaluate_of_error hfault)
    have hreduced : callsReduced last.next.trace <+: last.moment.outstanding :=
      Moment.callsReduced_next last.tidy
    have hnames : calledNames last.next.trace <+: (callsReduced last.next.trace).map Prod.snd :=
      Moment.calledNames_next.1
    rw [htrace, callsReduced_append, callsReduced_append, calledNames_append, calledNames_append,
      (calls_report _).1, (calls_report _).2, List.append_nil, List.append_nil, List.map_append,
      last.calledNames_trace, ← last.callsReduced_outstanding]
    exact ⟨(List.prefix_append_right_inj _).2 hreduced, (List.prefix_append_right_inj _).2 hnames⟩

/-- **Functions are called once each, in the order of their starts.** Whatever source,
implementations and table are: the functions that a run calls itself are the first ones that its
source opens. There is at most one pending call, and when the start of a call joins the pending
operators there is none, all calls before it having been made. Where the source is read to its end
and this is the end of an expression, all calls that the source opens have been made, each once. -/
theorem calls_in_order (invoke : Invocation ι) (options : Options) (source : List (Step ι))
    (table : FunctionTable ι) :
    let outcome := evaluate invoke options (some source) table
    let starts := opened 0 source
    calledNames outcome.trace <+: starts.map Prod.snd ∧
    callsReduced outcome.trace <+: starts ∧
    (∀ now : Reached invoke options source table,
      calledNames now.trace = (callsReduced now.trace).map Prod.snd ∧
      (callsHeld now.moment.machine.pending).length ≤ 1 ∧
      ∀ f, now.moment.Joins (.callStart f) →
        callsHeld now.moment.machine.pending = [] ∧
        callsReduced now.trace ++ [(now.moment.machine.operatorsRead, f)] <+: starts) ∧
    (source.getLast? = some (.yield (.operation (.kind (.control .endExpr)))) →
      (∀ fault, outcome.result = .error fault → ∃ n, fault = .unreduced n) →
        calledNames outcome.trace = starts.map Prod.snd ∧ callsReduced outcome.trace = starts) := by
  intro outcome starts
  obtain ⟨hreduced, hnames⟩ := @callsReduced_evaluate ι invoke options source table
  refine ⟨hnames.trans (hreduced.map Prod.snd), hreduced, fun now => ?_, fun hend hread => ?_⟩
  · refine ⟨now.calledNames_trace, length_callsHeld now.tidy, fun f hjoins => ?_⟩
    obtain ⟨hnone, hheld⟩ := Moment.callsHeld_of_joins now.tidy (fun _ => now.suits_of_held) hjoins
    refine ⟨hnone, ?_⟩
    have hall := now.callsReduced_outstanding
    rw [Moment.outstanding, hheld, ← List.append_assoc] at hall
    exact ⟨_, hall⟩
  · obtain ⟨last, hfinal⟩ := exists_final hread
    have hflush : ∀ s ∈ source.getLast?, s.isFlush = true := by
      intro s hs
      rw [hend] at hs
      rw [← Option.some.inj hs]
      rfl
    have hall := callsReduced_of_final hfinal hflush
    have hevaluate : outcome = _ := evaluate_of_final hfinal
    rw [hevaluate, callsReduced_append, calledNames_append, (calls_report _).1, (calls_report _).2,
      List.append_nil, List.append_nil, last.calledNames_trace, hall]
    exact ⟨rfl, rfl⟩

/-- The start of the call of `g` sets off the call of `f`, and joins when this one has been made; the
addition that comes after it takes what `f` has given. -/
theorem calls_in_order_sum :
    let invoke := Routine.invoke ⟨false⟩ Routine.nestingLimit
    let table : FunctionTable Routine := ⟨[⟨"f", 1, .sum⟩, ⟨"g", 1, .sum⟩]⟩
    let source : List (Step Routine) := Token.source [.operator (.callStart "f"), .number 1,
      .operator (.callStart "g"), .number 2, .operator (.arithmetic .add),
      .operator (.control .endExpr)]
    let outcome := evaluate invoke ⟨false⟩ (some source) table
    outcome.result.toOption = some 3 ∧
    calledNames outcome.trace = ["f", "g"] ∧ callsReduced outcome.trace = [(0, "f"), (1, "g")] ∧
    ∃ now : Reached invoke ⟨false⟩ source table, now.moment.Joins (.callStart "g") ∧
      callsHeld now.moment.machine.pending = [] ∧
      callsReduced now.trace ++ [(now.moment.machine.operatorsRead, "g")] <+:
        [(0, "f"), (1, "g")] := by
  intro invoke table source outcome
  have hresult : outcome.result.toOption = some 3 := by decide +kernel
  have hread : ∀ fault, outcome.result = .error fault → ∃ n, fault = .unreduced n := by
    intro fault hfault
    rw [hfault] at hresult
    cases hresult
  obtain ⟨now, hjoins⟩ : ∃ now : Reached invoke ⟨false⟩ source table,
      now.moment.Joins (.callStart "g") := ⟨⟨5, _, _, _, rfl⟩, .call 1, rfl, fun p hp => by cases hp⟩
  obtain ⟨_, _, hmoments, hend⟩ := calls_in_order invoke ⟨false⟩ source table
  obtain ⟨hnames, hreduced⟩ := hend rfl hread
  obtain ⟨_, _, hjoined⟩ := hmoments now
  exact ⟨hresult, hnames, hreduced, now, hjoins, hjoined "g" hjoins⟩

end Reached

end Reckoner
