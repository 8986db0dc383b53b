import Mathlib.Algebra.Ring.Int.Defs
import Reckoner.Proofs.CallTime
import Reckoner.Proofs.FirstFault
import Reckoner.Proofs.Resumption
import Reckoner.Routine

/-!
The account of values. A number brings one value; an operator that gives a value spends as many as it
takes but one, and a marker spends none. What a run has read it has brought and what it has reduced it
has spent, so the values that are there can be counted off its trace at every moment. On a table that
does not change, the end of an expression leaves nothing to spend, and the count is that of the
stream.
-/

namespace Reckoner

variable {ι : Type}

/-! ### What kinds spend -/

/-- How many values a call of the function takes. -/
def FunctionTable.arity (table : FunctionTable ι) (f : String) : Nat :=
  ((table.find? f).map Definition.arity).getD 0

namespace Kind

def arityOn (table : FunctionTable ι) : Kind → Nat
  | callStart f => table.arity f
  | k => k.arity?.getD 0

/-- The operators that make one value of two. -/
def isBinary : Kind → Bool
  | arithmetic .negate => false
  | arithmetic _ => true
  | control .join => true
  | _ => false

/-- How many values more a call takes than it gives. -/
def callCost (table : FunctionTable ι) : Kind → Int
  | callStart f => table.arity f - 1
  | _ => 0

theorem arity_of_lookup {options : Options} {table : FunctionTable ι} {k : Kind} {op : Operator}
    (h : k.lookup options table = .ok op) : op.arity = k.arityOn table := by
  cases k with
  | callStart f =>
      obtain ⟨d, hget, harity⟩ := arity_of_lookup_callStart h
      rw [harity, arityOn, FunctionTable.arity, FunctionTable.find_of_get hget]
      rfl
  | _ => exact (suits_of_lookup h).arity _ rfl

theorem arityOn_of_isMarker (table : FunctionTable ι) {k : Kind} (h : k.isMarker = true) :
    k.arityOn table = 0 := by
  have harity := arity_of_isMarker h
  cases k with
  | callStart f => cases harity
  | _ => exact congrArg (Option.getD · 0) harity

end Kind

/-- What operators of these kinds spend: one value each that makes one of two, and what calls take
more than they give. -/
def spent (table : FunctionTable ι) (ks : List Kind) : Int :=
  ks.countP Kind.isBinary + (ks.map (Kind.callCost table)).sum

theorem spent_append (table : FunctionTable ι) (ks ls : List Kind) :
    spent table (ks ++ ls) = spent table ks + spent table ls := by
  simp only [spent, List.countP_append, List.map_append, List.sum_append]
  omega

/-- An operator spends what it takes, less the value that it gives unless it is a marker. -/
theorem spent_singleton (table : FunctionTable ι) (k : Kind) :
    spent table [k] = k.arityOn table - if k.isMarker then 0 else 1 := by
  cases k with
  | arithmetic op => cases op <;> rfl
  | control marker => cases marker <;> rfl
  | callStart f =>
      simp [spent, Kind.isBinary, Kind.callCost, Kind.arityOn, Kind.isMarker, Kind.isBarrier,
        Kind.isFlush]
  | callEnd => rfl
  | comma => rfl

theorem spent_cons (table : FunctionTable ι) (k : Kind) (ks : List Kind) :
    spent table (k :: ks) = spent table [k] + spent table ks := spent_append table [k] ks

theorem spent_markers (table : FunctionTable ι) {ks : List Kind}
    (h : ∀ k ∈ ks, k.isMarker = true) : spent table ks = 0 := by
  induction ks with
  | nil => rfl
  | cons k ks ih =>
      have hk := h k List.mem_cons_self
      rw [spent_cons, spent_singleton, k.arityOn_of_isMarker table hk, hk,
        ih fun l hl => h l (List.mem_cons_of_mem _ hl)]
      rfl

/-! ### What traces and streams hold -/

def kindsReduced (trace : List Event) : List Kind :=
  (trace.filterMap Event.reduction?).map ReductionRecord.kind

theorem kindsReduced_append (earlier later : List Event) :
    kindsReduced (earlier ++ later) = kindsReduced earlier ++ kindsReduced later := by
  rw [kindsReduced, List.filterMap_append, List.map_append]
  rfl

def Token.isNumber : Token → Bool
  | .number _ => true
  | .operator _ => false

def Step.isNumber : Step ι → Bool
  | .yield (.number _) => true
  | _ => false

theorem Step.isNumber_of_token {item : Item} {t : Token} (h : item.token = .ok t) :
    (Step.yield item : Step ι).isNumber = t.isNumber := by
  cases item with
  | number payload =>
      rw [Item.token] at h
      obtain ⟨x, _, rfl⟩ := Run.map_eq_ok h
      rfl
  | operation subject =>
      cases subject with
      | kind l =>
          obtain rfl := Except.ok.inj h
          rfl
      | _ => cases h
  | _ => cases h

namespace Token

theorem source_drop (n : Nat) (ts : List Token) :
    (source (ts.drop n) : List (Step ι)) = (source ts).drop n := List.map_drop

theorem countP_source (ts : List Token) :
    (source ts : List (Step ι)).countP Step.isNumber = ts.countP isNumber := by
  rw [source, List.countP_map]
  congr 1
  funext t
  cases t <;> rfl

theorem kinds_source (ts : List Token) :
    (source ts : List (Step ι)).filterMap Step.kind? = ts.filterMap kind? := by
  rw [source, List.filterMap_map]
  congr 1
  funext t
  cases t <;> rfl

theorem countP_isYield_source (ts : List Token) :
    (source ts : List (Step ι)).countP Step.isYield = ts.length := by
  rw [source, List.countP_map]
  exact List.countP_eq_length.2 fun t _ => rfl

end Token

/-! ### What one reduction spends -/

namespace Machine

variable {invoke : Invocation ι} {values values' : List Float} {p : Pending}
  {table present : FunctionTable ι}

/-- Markers give no value, and all other kinds give one. -/
theorem isSome_of_apply {arguments : List Float} {k : Kind} {given : Option Float}
    (h : (apply invoke arguments k present).result = .ok given) : given.isSome = !k.isMarker := by
  cases k with
  | arithmetic op =>
      rw [apply, Run.ofExcept_result] at h
      obtain ⟨x, _, rfl⟩ := Run.map_eq_ok h
      rfl
  | control marker =>
      rw [apply, Run.ofExcept_result] at h
      cases marker with
      | join =>
          obtain ⟨x, _, rfl⟩ := Run.map_eq_ok h
          rfl
      | _ =>
          obtain rfl := Except.ok.inj h
          rfl
  | callStart f =>
      rw [apply_callStart rfl] at h
      obtain ⟨x, _, rfl⟩ := Run.map_eq_ok h
      rfl
  | callEnd =>
      obtain rfl := Except.ok.inj h
      rfl
  | comma =>
      obtain rfl := Except.ok.inj h
      rfl

/-- What a reduction takes it takes off the top, and what it gives it puts there. -/
theorem values_of_reduce (h : (reduce invoke values p present).result = .ok values') :
    ∃ given : Option Float, values' = given.toList ++ values.drop p.operator.arity ∧
      given.isSome = !p.kind.isMarker := by
  rw [reduce_of_le (arity_le_of_reduce h) rfl] at h
  obtain ⟨given, hgiven, hvalues⟩ := Run.map_eq_ok h
  exact ⟨given, hvalues.symm, isSome_of_apply hgiven⟩

/-- A reduction leaves the table alone if all implementations do. -/
theorem table_reduce (hleave : ∀ d ∈ table.toList, ∀ arguments,
    (invoke d.implementation arguments table).state = table) :
    (reduce invoke values p table).state = table := by
  have hreduction := reduction_reduce invoke values p table
  generalize reduce invoke values p table = outcome at hreduction
  cases hreduction with
  | calls hle harguments hkind hget hcalled =>
      rw [← hcalled]
      exact hleave _ (FunctionTable.mem_of_get hget) _
  | _ => rfl

theorem kindsReduced_reduce (h : p.operator.arity ≤ values.length) :
    kindsReduced (reduce invoke values p present).trace = [p.kind] := by
  rw [kindsReduced, reductions_reduce h]
  rfl

theorem length_of_reduce (harity : p.operator.arity = p.kind.arityOn table)
    (h : (reduce invoke values p present).result = .ok values') :
    (values'.length : Int) + spent table [p.kind] = values.length := by
  have hle := arity_le_of_reduce h
  obtain ⟨given, rfl, hgiven⟩ := values_of_reduce h
  have hlength : given.toList.length = if p.kind.isMarker then 0 else 1 := by
    cases given with
    | none =>
        have hmarker : p.kind.isMarker = true := by simpa using hgiven
        rw [hmarker]
        rfl
    | some x =>
        have hmarker : p.kind.isMarker = false := by simpa using hgiven
        rw [hmarker]
        rfl
  rw [spent_singleton, ← harity, List.length_append, List.length_drop, hlength]
  split <;> omega

end Machine

/-! ### What a run has spent -/

namespace Moment

variable {invoke : Invocation ι} {options : Options} {c c' : Moment ι}
  {table present : FunctionTable ι}

/-- The numbers that a source yields become values, and values are spent on what is reduced. -/
theorem length_values_next (harity : ∀ p ∈ c.held, p.operator.arity = p.kind.arityOn table)
    (h : (c.next invoke options present).result = .ok c') :
    (c'.machine.values.length : Int) + c'.rest.countP Step.isNumber +
        spent table (kindsReduced (c.next invoke options present).trace) =
      c.machine.values.length + c.rest.countP Step.isNumber := by
  have hdeed := deed_next invoke options c present
  generalize c.next invoke options present = outcome at h hdeed ⊢
  cases hdeed with
  | refuses hrefused => cases h
  | refusesRegistration hrefused => cases h
  | @number m item rest x hnumber =>
      obtain rfl := Except.ok.inj h
      have hstep : (Step.yield item : Step ι).isNumber = true := Step.isNumber_of_token hnumber
      rw [List.countP_cons_of_pos hstep]
      change ((x :: m.values).length : Int) + _ + 0 = _
      rw [List.length_cons]
      push_cast
      omega
  | @reduces _ p _ hreduces hreduction =>
      obtain ⟨values, hvalues, rfl⟩ := Run.map_eq_ok h
      rw [← hreduction] at hvalues ⊢
      have hlength := Machine.length_of_reduce (harity p hreduces.mem_held) hvalues
      rw [Machine.kindsReduced_reduce (Machine.arity_le_of_reduce hvalues)]
      change (values.length : Int) + c.rest.countP Step.isNumber + _ = _
      omega
  | _ =>
      obtain rfl := Except.ok.inj h
      rfl

theorem spent_held_reduced {p : Pending} (h : c.Reduces p) (values : List Float) :
    spent table (c.held.map Pending.kind) =
      spent table [p.kind] + spent table ((c.reduced values).held.map Pending.kind) := by
  obtain ⟨⟨vs, pending, n⟩, incoming, rest⟩ := c
  obtain ⟨_, _, _, hhead⟩ := h
  cases pending with
  | nil => cases hhead
  | cons q pending =>
      obtain rfl : q = p := Option.some.inj hhead
      have htail := spent_cons table q.kind (pending.map Pending.kind)
      simp only [held, reduced, List.tail_cons, List.map_append, List.map_cons, spent_append]
      omega

/-- Operators are read, held and reduced, and none of them gets lost. -/
theorem spent_next (h : (c.next invoke options present).result = .ok c') :
    spent table (kindsReduced (c.next invoke options present).trace) +
        spent table (c'.held.map Pending.kind) + spent table (c'.rest.filterMap Step.kind?) =
      spent table (c.held.map Pending.kind) + spent table (c.rest.filterMap Step.kind?) := by
  have hdeed := deed_next invoke options c present
  generalize c.next invoke options present = outcome at h hdeed ⊢
  cases hdeed with
  | refuses hrefused => cases h
  | refusesRegistration hrefused => cases h
  | @number m item rest x hnumber =>
      obtain rfl := Except.ok.inj h
      have hstep : (Step.yield item : Step ι).kind? = none := Step.kind_of_token hnumber
      rw [List.filterMap_cons_none hstep]
      exact congrArg (· + _) (Int.zero_add _)
  | @operator m k op rest hoperator =>
      obtain rfl := Except.ok.inj h
      have hstep : (Step.yield (.operation (.kind k)) : Step ι).kind? = some k := rfl
      have hheld := spent_cons table k (m.pending.map Pending.kind)
      have hrest := spent_cons table k (rest.filterMap Step.kind?)
      rw [List.filterMap_cons_some hstep, hrest]
      change 0 + spent table (k :: m.pending.map Pending.kind) + spent table _ =
        spent table (m.pending.map Pending.kind) + _
      rw [hheld]
      change _ + spent table (rest.filterMap Step.kind?) = _
      omega
  | @reduces _ p _ hreduces hreduction =>
      obtain ⟨values, hvalues, rfl⟩ := Run.map_eq_ok h
      rw [← hreduction] at hvalues ⊢
      rw [Machine.kindsReduced_reduce (Machine.arity_le_of_reduce hvalues),
        spent_held_reduced hreduces values]
      rfl
  | _ =>
      obtain rfl := Except.ok.inj h
      exact congrArg (· + _) (Int.zero_add _)

/-- A run of tokens leaves the table alone if all implementations do. -/
theorem table_next {ts : List Token} (hrest : ∀ s ∈ c.rest, s ∈ Token.source ts)
    (hleave : ∀ d ∈ table.toList, ∀ arguments,
      (invoke d.implementation arguments table).state = table) :
    (c.next invoke options table).state = table := by
  have hdeed := deed_next invoke options c table
  generalize c.next invoke options table = outcome at hdeed
  cases hdeed with
  | registers hregisters =>
      obtain ⟨t, _, hstep⟩ := Token.exists_of_mem_source (hrest _ List.mem_cons_self)
      cases hstep
  | clears =>
      obtain ⟨t, _, hstep⟩ := Token.exists_of_mem_source (hrest _ List.mem_cons_self)
      cases hstep
  | reduces hreduces hreduction =>
      rw [← hreduction]
      exact Machine.table_reduce hleave
  | _ => rfl

/-- The arguments of a reduction are as many as its operator takes. -/
theorem reduced_of_mem_next {n : Nat} {k : Kind} {arguments : List Float}
    (h : .reduced n k arguments ∈ (c.next invoke options present).trace) :
    ∃ p, c.Reduces p ∧ p.kind = k ∧ arguments.length = p.operator.arity := by
  have hdeed := deed_next invoke options c present
  generalize c.next invoke options present = outcome at h hdeed
  cases hdeed with
  | @reduces _ p _ hreduces hreduction =>
      rw [← hreduction] at h
      obtain ⟨hle, h | ⟨_, _, _, _, h⟩ | ⟨_, h⟩⟩ := Machine.mem_reduce h
      · obtain ⟨_, hkind, harguments⟩ := Event.reduced.inj h
        exact ⟨p, hreduces, hkind.symm, harguments ▸ Machine.length_arguments hle⟩
      · cases h
      · cases h
  | _ => simp at h

end Moment

/-! ### The account of a run -/

namespace Reached

variable {invoke : Invocation ι} {options : Options} {ts : List Token} {table : FunctionTable ι}

/-- What a run of tokens has not taken yet is the rest of its source. -/
theorem rest_eq (now : Reached invoke options (Token.source ts) table) :
    now.moment.rest = Token.source (ts.drop (Event.takenIn now.trace)) := by
  obtain ⟨before, hsplit⟩ := now.rest_suffix
  have htaken := now.takenIn_trace
  have hall : ∀ s ∈ now.moment.rest, Step.isYield s = true := by
    intro s hs
    obtain ⟨t, _, rfl⟩ := Token.exists_of_mem_source (now.rest_suffix.subset hs)
    rfl
  have hlength := congrArg List.length hsplit
  rw [List.length_append, ← List.countP_eq_length.2 hall] at hlength
  rw [Token.countP_isYield_source] at htaken
  have hsource : (Token.source ts : List (Step ι)).length = ts.length := List.length_map _
  have hbefore : before.length = Event.takenIn now.trace := by omega
  have hdrop := congrArg (List.drop before.length) hsplit
  rw [List.drop_left, hbefore] at hdrop
  rw [Token.source_drop]
  exact hdrop

theorem present_eq (hleave : ∀ d ∈ table.toList, ∀ arguments,
      (invoke d.implementation arguments table).state = table)
    (now : Reached invoke options (Token.source ts) table) : now.present = table := by
  induction now using invariant with
  | hstart => rfl
  | hnext before c h ih =>
      have hnext : (before.moment.next invoke options table).state = table :=
        Moment.table_next (fun s hs => before.rest_suffix.subset hs) hleave
      change (before.moment.next invoke options before.present).state = table
      rw [ih, hnext]

/-- On a table that stays as it is, operators take what their kinds take there. -/
theorem arity_of_held (hsteady : ∀ now : Reached invoke options (Token.source ts) table,
      now.present = table) (now : Reached invoke options (Token.source ts) table) :
    ∀ p ∈ now.moment.held, p.operator.arity = p.kind.arityOn table := by
  intro p hp
  obtain ⟨earlier, _, _, _, hlookup⟩ := now.exists_read p hp
  rw [hsteady earlier] at hlookup
  exact Kind.arity_of_lookup hlookup

/-- **The account is right at every moment.** What the numbers that were taken have brought is there,
or it has been spent on what was reduced. -/
theorem length_values (hsteady : ∀ now : Reached invoke options (Token.source ts) table,
      now.present = table) (now : Reached invoke options (Token.source ts) table) :
    (now.moment.machine.values.length : Int) =
      (ts.take (Event.takenIn now.trace)).countP Token.isNumber -
        spent table (kindsReduced now.trace) := by
  have haccount : (now.moment.machine.values.length : Int) +
      now.moment.rest.countP Step.isNumber + spent table (kindsReduced now.trace) =
        ts.countP Token.isNumber := by
    induction now using invariant with
    | hstart =>
        change (0 : Int) + (Token.source ts : List (Step ι)).countP Step.isNumber + 0 = _
        rw [Token.countP_source]
        omega
    | hnext before c h ih =>
        have hnext : (c.machine.values.length : Int) + c.rest.countP Step.isNumber +
            spent table (kindsReduced before.next.trace) = _ :=
          Moment.length_values_next (arity_of_held hsteady before) h
        change (c.machine.values.length : Int) + c.rest.countP Step.isNumber +
          spent table (kindsReduced (before.trace ++ before.next.trace)) = _
        rw [kindsReduced_append, spent_append]
        omega
  have hsplit := congrArg (List.countP Token.isNumber)
    (List.take_append_drop (Event.takenIn now.trace) ts)
  rw [List.countP_append] at hsplit
  rw [now.rest_eq, Token.countP_source] at haccount
  omega

/-- What a stream is to spend has been spent, or it is held or not read yet. -/
theorem spent_trace (now : Reached invoke options (Token.source ts) table) :
    spent table (kindsReduced now.trace) + spent table (now.moment.held.map Pending.kind) +
      spent table (now.moment.rest.filterMap Step.kind?) =
        spent table (ts.filterMap Token.kind?) := by
  induction now using invariant with
  | hstart =>
      change 0 + 0 + spent table ((Token.source ts : List (Step ι)).filterMap Step.kind?) = _
      rw [Token.kinds_source]
      omega
  | hnext before c h ih =>
      have hnext : spent table (kindsReduced before.next.trace) +
          spent table (c.held.map Pending.kind) + spent table (c.rest.filterMap Step.kind?) = _ :=
        Moment.spent_next h
      change spent table (kindsReduced (before.trace ++ before.next.trace)) +
        spent table (c.held.map Pending.kind) + spent table (c.rest.filterMap Step.kind?) = _
      rw [kindsReduced_append, spent_append]
      omega

/-- The end of an expression leaves nothing to spend. -/
theorem spent_of_final {last : Reached invoke options (Token.source ts) table}
    (hfinal : last.moment.IsFinal)
    (hend : ts.getLast? = some (.operator (.control .endExpr))) :
    spent table (kindsReduced last.trace) = spent table (ts.filterMap Token.kind?) := by
  have hflush : ∀ s ∈ (Token.source ts : List (Step ι)).getLast?, s.isFlush = true := by
    intro s hs
    rw [Token.source, List.getLast?_map, hend] at hs
    obtain rfl := Option.some.inj hs
    rfl
  have hmarkers := Machine.working_eq_nil_iff.1
    (Machine.idle_of_getLast hflush (congrArg Outcome.result (steps_of_final hfinal)))
  have hheld : spent table (last.moment.held.map Pending.kind) = 0 := by
    refine spent_markers table fun k hk => ?_
    rw [Moment.held, hfinal.1] at hk
    obtain ⟨p, hp, rfl⟩ := List.mem_map.1 hk
    exact hmarkers p hp
  have hall : _ + spent table (last.moment.held.map Pending.kind) +
      spent table (last.moment.rest.filterMap Step.kind?) = _ := last.spent_trace
  rw [hheld, hfinal.2] at hall
  rw [← hall, Int.add_zero]
  exact (Int.add_zero _).symm

/-- A stream that is read to the end of an expression leaves what its kinds make of its numbers. -/
theorem length_values_of_steps (hsteady : ∀ now : Reached invoke options (Token.source ts) table,
      now.present = table) (hend : ts.getLast? = some (.operator (.control .endExpr)))
    {m : Machine}
    (h : (Machine.initial.steps invoke options (Token.source ts) table).result = .ok m) :
    (m.values.length : Int) = ts.countP Token.isNumber - spent table (ts.filterMap Token.kind?) := by
  obtain ⟨last, hfinal | ⟨fault, hfault⟩⟩ :=
    exists_last (start : Reached invoke options (Token.source ts) table)
  · rw [steps_of_final hfinal] at h
    obtain rfl := Except.ok.inj h
    have htaken : ts.length = Event.takenIn last.trace := by
      have hall := last.takenIn_trace
      rw [hfinal.2, Token.countP_isYield_source] at hall
      exact hall.symm
    rw [last.length_values hsteady, spent_of_final hfinal hend, ← htaken, List.take_length]
  · rw [steps_of_error hfault] at h
    cases h

/-- Too few values are found by a reduction, and what it finds is what the account says. -/
theorem exists_reduces_of_tooFew
    (hsteady : ∀ now : Reached invoke options (Token.source ts) table, now.present = table)
    {k : Kind} {required available : Nat}
    (h : (evaluate invoke options (some (Token.source ts)) table).result =
      .error (.tooFewValues k required available)) :
    ∃ (now : Reached invoke options (Token.source ts) table) (p : Pending),
      now.moment.Reduces p ∧ p.kind = k ∧ now.moment.machine.values.length = available ∧
      required = k.arityOn table ∧ available < required ∧
      (evaluate invoke options (some (Token.source ts)) table).trace =
        now.trace ++ [.logged (.rejected (.tooFewValues k required available))] := by
  obtain ⟨now, p, hreduces, hfault⟩ :=
    exists_reduces_of_report h (List.cons_ne_nil _ _) fun n => Fault.noConfusion
  have hsuits := now.suits_of_held hreduces.mem_held
  have harity := arity_of_held hsteady now p hreduces.mem_held
  refine ⟨now, p, hreduces, ?_⟩
  rcases Machine.error_of_reduce hsuits hfault with
    ⟨hlt, hsame⟩ | ⟨_, _, _, _, hother⟩ | ⟨name, _, ⟨_, hother⟩ | ⟨d, _, hjudged⟩⟩
  · obtain ⟨rfl, rfl, rfl⟩ := Fault.tooFewValues.inj hsame
    exact ⟨rfl, rfl, harity, hlt, congrArg Outcome.trace (evaluate_of_few hreduces hlt)⟩
  · cases hother
  · cases hother
  · exact absurd (Machine.isOfCall_of_judged hjudged) Bool.false_ne_true

/-- **The values of a run are accounted for.** On a table that does not change, the end of an
expression leaves what the numbers of the stream have brought, less what its kinds spend, and this is
the value if there is just one, and otherwise the number that the fault of the end gives. An operator
that finds too few values is the one that is being reduced, it takes what its kind takes, which is
not nothing, and it finds what the numbers that were taken have brought, less what the kinds that
were reduced have spent. And what is reduced takes as many values as its kind takes off the top, never
less and never more. -/
theorem values_of_evaluate (invoke : Invocation ι) (options : Options) (ts : List Token)
    (table : FunctionTable ι)
    (hsteady : ∀ now : Reached invoke options (Token.source ts) table, now.present = table) :
    let outcome := evaluate invoke options (some (Token.source ts)) table
    (∀ m, ts.getLast? = some (.operator (.control .endExpr)) →
      (Machine.initial.steps invoke options (Token.source ts) table).result = .ok m →
        let left : Int := ts.countP Token.isNumber - spent table (ts.filterMap Token.kind?)
        (m.values.length : Int) = left ∧
        ((∃ v, outcome.result = .ok v) ↔ left = 1) ∧
        (left ≠ 1 → outcome.result = .error (.unreduced m.values.length))) ∧
    (∀ k required available, outcome.result = .error (.tooFewValues k required available) →
      (∃ (now : Reached invoke options (Token.source ts) table) (p : Pending),
        now.moment.Reduces p ∧ p.kind = k ∧ now.moment.machine.values.length = available) ∧
      required = k.arityOn table ∧ 1 ≤ required ∧ available < required ∧
      (available : Int) = (ts.take (Event.takenIn outcome.trace)).countP Token.isNumber -
        spent table (kindsReduced outcome.trace)) ∧
    (∀ (now : Reached invoke options (Token.source ts) table) (p : Pending) (values : List Float),
      now.moment.Reduces p →
      (Machine.reduce invoke now.moment.machine.values p now.present).result = .ok values →
        p.kind.arityOn table ≤ now.moment.machine.values.length ∧
        ∃ given : Option Float, given.isSome = !p.kind.isMarker ∧
          values = given.toList ++ now.moment.machine.values.drop (p.kind.arityOn table)) ∧
    ∀ n k arguments, .reduced n k arguments ∈ outcome.trace →
      arguments.length = k.arityOn table := by
  intro outcome
  refine ⟨fun m hend hm => ?_, fun k required available hfew => ?_,
    fun now p values hreduces hvalues => ?_, fun n k arguments hmem => ?_⟩
  · intro left
    have hlength : (m.values.length : Int) = left := length_values_of_steps hsteady hend hm
    have hresult : outcome.result = m.result := by
      have hevaluate : outcome = _ := evaluate_of_steps rfl
      rw [hevaluate, hm]
      rfl
    rw [hresult]
    refine ⟨hlength, ⟨fun hv => ?_, fun hone => ?_⟩, fun hne => ?_⟩
    · obtain ⟨v, hv⟩ := hv
      rw [Machine.values_of_result hv] at hlength
      exact hlength.symm
    · obtain ⟨v, hv⟩ := List.length_eq_one_iff.1 (by omega : m.values.length = 1)
      exact ⟨v, by rw [Machine.result, hv]⟩
    · exact Machine.result_of_ne (by omega)
  · obtain ⟨now, p, hreduces, hkind, havailable, hrequired, hlt, htrace⟩ :=
      exists_reduces_of_tooFew hsteady hfew
    have htrace : outcome.trace = _ := htrace
    have htaken : Event.takenIn outcome.trace = Event.takenIn now.trace := by
      rw [htrace, Event.takenIn, List.countP_append]
      rfl
    have hreduced : kindsReduced outcome.trace = kindsReduced now.trace := by
      rw [htrace, kindsReduced_append]
      exact List.append_nil _
    refine ⟨⟨now, p, hreduces, hkind, havailable⟩, hrequired, by omega, hlt, ?_⟩
    rw [htaken, hreduced, ← havailable]
    exact now.length_values hsteady
  · have harity := arity_of_held hsteady now p hreduces.mem_held
    obtain ⟨given, hsame, hgiven⟩ := Machine.values_of_reduce hvalues
    rw [harity] at hsame
    exact ⟨harity ▸ Machine.arity_le_of_reduce hvalues, given, hgiven, hsame⟩
  · obtain ⟨now, hnow⟩ := exists_of_mem_evaluate hmem fun fault h => by cases h
    obtain ⟨p, hreduces, rfl, hlength⟩ := Moment.reduced_of_mem_next hnow
    exact hlength.trans (arity_of_held hsteady now p hreduces.mem_held)

/-- A call of `f` on two numbers and one of `g` on nothing leave two values; and an addition that
finds one number finds the only one that was taken. -/
theorem values_of_evaluate_calls :
    let invoke := Routine.invoke ⟨false⟩ Routine.nestingLimit
    let table : FunctionTable Routine := ⟨[⟨"f", 2, .sum⟩, ⟨"g", 0, .sum⟩]⟩
    let calls : List Token := [.operator (.callStart "f"), .number 2, .number 3,
      .operator (.callStart "g"), .operator (.control .endExpr)]
    let sum : List Token := [.number 1, .operator (.arithmetic .add), .operator (.control .endExpr)]
    let outcome (ts : List Token) := evaluate invoke ⟨false⟩ (some (Token.source ts)) table
    (calls.countP Token.isNumber : Int) - spent table (calls.filterMap Token.kind?) = 2 ∧
    (outcome calls).result = .error (.unreduced 2) ∧
    (∀ n k arguments, .reduced n k arguments ∈ (outcome calls).trace →
      arguments.length = k.arityOn table) ∧
    (outcome sum).result = .error (.tooFewValues (.arithmetic .add) 2 1) ∧
    1 = ((sum.take (Event.takenIn (outcome sum).trace)).countP Token.isNumber : Int) -
      spent table (kindsReduced (outcome sum).trace) := by
  intro invoke table calls sum outcome
  have hleave : ∀ d ∈ table.toList, ∀ arguments,
      (invoke d.implementation arguments table).state = table := by
    intro d hd arguments
    simp only [table, List.mem_cons, List.not_mem_nil, or_false] at hd
    obtain rfl | rfl := hd <;> rfl
  have hleft : (calls.countP Token.isNumber : Int) -
      spent table (calls.filterMap Token.kind?) = 2 := by decide +kernel
  obtain ⟨m, hm⟩ : ∃ m, (Machine.initial.steps invoke ⟨false⟩ (Token.source calls) table).result =
      .ok m := ⟨_, rfl⟩
  obtain ⟨hend, _, _, hreduced⟩ := values_of_evaluate invoke ⟨false⟩ calls table (present_eq hleave)
  obtain ⟨hlength, _, hmany⟩ := hend m rfl hm
  rw [hleft] at hlength hmany
  have hresult := hmany (by decide)
  rw [(by omega : m.values.length = 2)] at hresult
  have hfew : (outcome sum).result = .error (.tooFewValues (.arithmetic .add) 2 1) := rfl
  obtain ⟨_, htooFew, _⟩ := values_of_evaluate invoke ⟨false⟩ sum table (present_eq hleave)
  obtain ⟨_, _, _, _, havailable⟩ := htooFew _ _ _ hfew
  exact ⟨hleft, hresult, hreduced, hfew, havailable⟩

end Reached

end Reckoner
