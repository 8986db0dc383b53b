import Mathlib.Data.List.Nodup
import Reckoner.Proofs.Binding
import Reckoner.Proofs.Reading

/-!
The schedule of reductions. An operator is reduced while the first later operator is read that binds
no tighter, or looser if the operator associates to the right; this first operator is its trigger,
and whoever has none is never reduced. The schedule says this of the kinds in a stream alone,
without a machine. A run follows the schedule whatever the implementations do: one that reads the
whole stream makes exactly the scheduled reductions, and one that fails makes the first of them.
-/

namespace Reckoner

/-- What a trace shows of a schedule: tokens that are taken and operators that are reduced. -/
inductive Mark where
  | taken
  | reduced (position : Nat) (kind : Kind)
  deriving DecidableEq, Repr

def Event.mark? : Event → Option Mark
  | taken => some .taken
  | reduced position kind _ => some (.reduced position kind)
  | _ => none

def Mark.position? : Mark → Option Nat
  | taken => none
  | reduced position _ => some position

def marks (trace : List Event) : List Mark := trace.filterMap Event.mark?

theorem marks_append (earlier later : List Event) :
    marks (earlier ++ later) = marks earlier ++ marks later := by
  rw [marks, List.filterMap_append]
  rfl

namespace Kind

/-- Number `j` of the kinds unwinds number `i`. -/
def unwindsAt (ks : List Kind) (j i : Nat) : Bool :=
  (ks[j]?).any fun incoming => (ks[i]?).any incoming.unwinds

/-- Number `j` is the first after number `i` that unwinds it. -/
def Triggers (ks : List Kind) (i j : Nat) : Prop :=
  i < j ∧ unwindsAt ks j i = true ∧ ∀ m < j, i < m → unwindsAt ks m i = false

instance (ks : List Kind) (i j : Nat) : Decidable (Triggers ks i j) :=
  inferInstanceAs (Decidable (_ ∧ _ ∧ _))

/-- All that number `j` triggers, the latest first. -/
def triggeredBy (ks : List Kind) (j : Nat) : List Nat :=
  (List.range j).reverse.filter fun i => Triggers ks i j

/-- All that nothing triggers, the latest first. -/
def waiting (ks : List Kind) : List Nat :=
  (List.range ks.length).reverse.filter fun i => ∀ m < ks.length, i < m → unwindsAt ks m i = false

def reduction (ks : List Kind) (i : Nat) : Option Mark := (ks[i]?).map (Mark.reduced i)

/-- The marks of reading tokens of which the first operator is number `j`. -/
def scheduleFrom (ks : List Kind) : Nat → List Token → List Mark
  | _, [] => []
  | j, .number _ :: ts => .taken :: scheduleFrom ks j ts
  | j, .operator _ :: ts =>
    .taken :: ((triggeredBy ks j).filterMap (reduction ks) ++ scheduleFrom ks (j + 1) ts)

/-- The schedule of a stream: every operator, once it is taken, reduces all that it triggers. -/
def schedule (ts : List Token) : List Mark := scheduleFrom (ts.filterMap Token.kind?) 0 ts

/-! ### Triggers -/

theorem unwindsAt_append {ks : List Kind} {j i : Nat} (hij : i < j) (hj : j < ks.length)
    (more : List Kind) : unwindsAt (ks ++ more) j i = unwindsAt ks j i := by
  rw [unwindsAt, unwindsAt, List.getElem?_append_left hj,
    List.getElem?_append_left (Nat.lt_trans hij hj)]

theorem unwindsAt_length {ks : List Kind} {i : Nat} (hi : i < ks.length) (k : Kind)
    (more : List Kind) :
    unwindsAt (ks ++ k :: more) ks.length i = (ks[i]?).any k.unwinds := by
  rw [unwindsAt, List.getElem?_append_left hi, List.getElem?_append_right (Nat.le_refl _),
    Nat.sub_self]
  rfl

theorem mem_triggeredBy {ks : List Kind} {i j : Nat} : i ∈ triggeredBy ks j ↔ Triggers ks i j := by
  simp only [triggeredBy, List.mem_filter, List.mem_reverse, List.mem_range, decide_eq_true_eq]
  exact ⟨fun h => h.2, fun h => ⟨h.1, h⟩⟩

theorem mem_waiting {ks : List Kind} {i : Nat} :
    i ∈ waiting ks ↔ i < ks.length ∧ ∀ m < ks.length, i < m → unwindsAt ks m i = false := by
  simp only [waiting, List.mem_filter, List.mem_reverse, List.mem_range, decide_eq_true_eq]

/-- An operator has at most one trigger. -/
theorem Triggers.unique {ks : List Kind} {i j j' : Nat} (h : Triggers ks i j)
    (h' : Triggers ks i j') : j = j' := by
  rcases Nat.lt_trichotomy j j' with hlt | heq | hlt
  · have hnot := h'.2.2 j hlt h.1
    rw [h.2.1] at hnot
    cases hnot
  · exact heq
  · have hnot := h.2.2 j' hlt h'.1
    rw [h'.2.1] at hnot
    cases hnot

theorem triggeredBy_length (ks : List Kind) (k : Kind) (more : List Kind) :
    triggeredBy (ks ++ k :: more) ks.length =
      (waiting ks).filter fun i => (ks[i]?).any k.unwinds := by
  rw [triggeredBy, waiting, List.filter_filter]
  apply List.filter_congr
  intro i hi
  have hi : i < ks.length := List.mem_range.1 (List.mem_reverse.1 hi)
  rw [Bool.eq_iff_iff, Bool.and_eq_true, decide_eq_true_eq, decide_eq_true_eq, Triggers,
    unwindsAt_length hi]
  constructor
  · rintro ⟨_, hunwinds, hbefore⟩
    refine ⟨hunwinds, fun m hm him => ?_⟩
    rw [← unwindsAt_append him hm]
    exact hbefore m hm him
  · rintro ⟨hunwinds, hbefore⟩
    refine ⟨hi, hunwinds, fun m hm him => ?_⟩
    rw [unwindsAt_append him hm]
    exact hbefore m hm him

/-- The next operator waits, on top of those that it does not unwind. -/
theorem waiting_snoc (ks : List Kind) (k : Kind) :
    waiting (ks ++ [k]) =
      ks.length :: (waiting ks).filter fun i => !(ks[i]?).any k.unwinds := by
  have hlen : (ks ++ [k]).length = ks.length + 1 := by simp
  rw [waiting, hlen, List.range_succ, List.reverse_append, List.reverse_singleton,
    List.singleton_append, List.filter_cons_of_pos]
  · congr 1
    rw [waiting, List.filter_filter]
    apply List.filter_congr
    intro i hi
    have hi : i < ks.length := List.mem_range.1 (List.mem_reverse.1 hi)
    rw [Bool.eq_iff_iff, Bool.and_eq_true, decide_eq_true_eq, decide_eq_true_eq, Bool.not_eq_true']
    constructor
    · intro h
      refine ⟨?_, fun m hm him => ?_⟩
      · rw [← unwindsAt_length hi k []]
        exact h ks.length (Nat.lt_succ_self _) hi
      · rw [← unwindsAt_append him hm [k]]
        exact h m (Nat.lt_succ_of_lt hm) him
    · rintro ⟨hnew, hold⟩ m hm him
      rcases Nat.lt_or_eq_of_le (Nat.le_of_lt_succ hm) with hm | rfl
      · rw [unwindsAt_append him hm]
        exact hold m hm him
      · rw [unwindsAt_length hi]
        exact hnew
  · rw [decide_eq_true_eq]
    intro m hm hlt
    omega

/-- Whatever waits binds tighter than what waits below it, or equally tight and to the right: what
unwinds the lower one unwinds the upper one. -/
theorem pairwise_waiting (ks : List Kind) (k : Kind) :
    (waiting ks).Pairwise fun upper lower =>
      (ks[lower]?).any k.unwinds = true → (ks[upper]?).any k.unwinds = true := by
  have hdescending : (waiting ks).Pairwise fun upper lower => lower < upper :=
    (List.pairwise_reverse.2 List.pairwise_lt_range).filter _
  refine hdescending.imp_of_mem fun {upper lower} hupper hlower hlt hunwinds => ?_
  obtain ⟨hlen, _⟩ := mem_waiting.1 hupper
  have hnot := (mem_waiting.1 hlower).2 upper hlen hlt
  simp only [unwindsAt] at hnot
  rw [List.getElem?_eq_getElem hlen] at hnot ⊢
  rw [List.getElem?_eq_getElem (Nat.lt_trans hlt hlen)] at hnot hunwinds
  exact unwinds_of_not_unwinds hnot hunwinds

theorem mem_scheduleFrom {ks : List Kind} {i : Nat} {k : Kind} (ts : List Token) :
    ∀ {j : Nat}, Mark.reduced i k ∈ scheduleFrom ks j ts →
      ks[i]? = some k ∧ ∃ j', j ≤ j' ∧ Triggers ks i j' := by
  induction ts with
  | nil => intro j h; cases h
  | cons t ts ih =>
      intro j h
      cases t with
      | number x =>
          rcases List.mem_cons.1 h with h | h
          · cases h
          · exact ih h
      | operator l =>
          rcases List.mem_cons.1 h with h | h
          · cases h
          · rcases List.mem_append.1 h with h | h
            · obtain ⟨i', hi', hreduction⟩ := List.mem_filterMap.1 h
              obtain ⟨k', hk', hmark⟩ := Option.map_eq_some_iff.1 hreduction
              obtain ⟨rfl, rfl⟩ := Mark.reduced.inj hmark
              exact ⟨hk', j, Nat.le_refl _, mem_triggeredBy.1 hi'⟩
            · obtain ⟨hk, j', hj', htriggers⟩ := ih h
              exact ⟨hk, j', Nat.le_of_succ_le hj', htriggers⟩

theorem nodup_scheduleFrom (ks : List Kind) (ts : List Token) (j : Nat) :
    ((scheduleFrom ks j ts).filterMap Mark.position?).Nodup := by
  induction ts generalizing j with
  | nil => exact List.nodup_nil
  | cons t ts ih =>
      cases t with
      | number x => exact ih j
      | operator l =>
          have hmem : ∀ i, i ∈ ((triggeredBy ks j).filterMap (reduction ks)).filterMap
              Mark.position? → Triggers ks i j := by
            intro i hi
            obtain ⟨mark, hmark, hi⟩ := List.mem_filterMap.1 hi
            obtain ⟨i', hi', hreduction⟩ := List.mem_filterMap.1 hmark
            obtain ⟨k', _, rfl⟩ := Option.map_eq_some_iff.1 hreduction
            rw [← Option.some.inj hi]
            exact mem_triggeredBy.1 hi'
          have hnodup : (((triggeredBy ks j).filterMap (reduction ks)).filterMap
              Mark.position?).Nodup := by
            rw [List.filterMap_filterMap]
            refine List.Nodup.filterMap ?_ ((List.nodup_reverse.2 List.nodup_range).filter _)
            intro a a' b hb hb'
            have hsame : ∀ c : Nat, b ∈ (reduction ks c).bind Mark.position? → b = c := by
              intro c hc
              obtain ⟨mark, hmark, hpos⟩ := Option.bind_eq_some_iff.1 hc
              obtain ⟨k', _, rfl⟩ := Option.map_eq_some_iff.1 hmark
              exact (Option.some.inj hpos).symm
            rw [← hsame a hb, ← hsame a' hb']
          rw [scheduleFrom, List.filterMap_cons_none rfl, List.filterMap_append]
          refine List.nodup_append.2 ⟨hnodup, ih (j + 1), ?_⟩
          rintro i hi _ hi' rfl
          obtain ⟨mark, hmark, hpos⟩ := List.mem_filterMap.1 hi'
          cases mark with
          | taken => cases hpos
          | reduced position k =>
              obtain ⟨_, j', hj', htriggers⟩ := mem_scheduleFrom ts hmark
              rw [Option.some.inj hpos] at htriggers
              have heq := (hmem i hi).unique htriggers
              omega

end Kind

/-! ### Runs that follow marks -/

namespace Run

variable {ι α β σ : Type}

/-- A run leaves a beginning of the marks, and if it does not fail all of them and a good value. -/
def Follows (expected : List Mark) (good : α → Prop) (x : Run (FunctionTable ι) α) : Prop :=
  ∀ table, marks (x table).trace <+: expected ∧
    ∀ a, (x table).result = .ok a → marks (x table).trace = expected ∧ good a

theorem follows_pure {good : α → Prop} {a : α} (h : good a) :
    Follows [] good (pure a : Run (FunctionTable ι) α) := by
  intro table
  refine ⟨List.nil_prefix, fun b hb => ⟨rfl, ?_⟩⟩
  rw [← Except.ok.inj hb]
  exact h

theorem follows_ofExcept {good : α → Prop} {r : Except Fault α} (h : ∀ a, r = .ok a → good a) :
    Follows [] good (ofExcept r : Run (FunctionTable ι) α) := by
  intro table
  rw [ofExcept_trace, ofExcept_result]
  exact ⟨List.nil_prefix, fun a ha => ⟨rfl, h a ha⟩⟩

theorem Follows.bind {x : Run (FunctionTable ι) α} {f : α → Run (FunctionTable ι) β}
    {first second : List Mark} {good : α → Prop} {good' : β → Prop}
    (hx : Follows first good x) (hf : ∀ a, good a → Follows second good' (f a)) :
    Follows (first ++ second) good' (x >>= f) := by
  intro table
  obtain ⟨hbegins, hok⟩ := hx table
  cases hresult : (x table).result with
  | error fault =>
      rw [bind_of_error hresult]
      exact ⟨hbegins.trans (List.prefix_append first second), fun b hb => by cases hb⟩
  | ok a =>
      obtain ⟨hfirst, ha⟩ := hok a hresult
      obtain ⟨hbegins', hok'⟩ := hf a ha (x table).state
      rw [bind_of_ok hresult, marks_append, hfirst]
      refine ⟨(List.prefix_append_right_inj first).2 hbegins', fun b hb => ?_⟩
      obtain ⟨hsecond, hb⟩ := hok' b hb
      exact ⟨by rw [hsecond], hb⟩

theorem Follows.ensures {x : Run (FunctionTable ι) α} {expected : List Mark} {good : α → Prop}
    (h : Follows expected good x) : Ensures good x := fun table a ha => ((h table).2 a ha).2

theorem follows_note {event : Event} {mark : Mark} (h : event.mark? = some mark) :
    Follows [mark] (fun _ => True) (note event : Run (FunctionTable ι) Unit) := by
  intro table
  have hmarks : marks (note event table : Outcome (FunctionTable ι) Unit).trace = [mark] := by
    simp [note, marks, h]
  rw [hmarks]
  exact ⟨List.prefix_refl _, fun _ _ => ⟨rfl, trivial⟩⟩

/-- What shows outside leaves no marks. -/
theorem follows_of_observed {x : Run (FunctionTable ι) α} (h : x.observed = x) :
    Follows [] (fun _ => True) x := by
  intro table
  have hmarks : marks (x table).trace = [] := by
    rw [← h, marks, observed, List.filterMap_eq_nil_iff]
    intro event hevent
    have hobserved := (List.mem_filter.1 hevent).2
    cases event with
    | taken => cases hobserved
    | reduced position kind arguments => cases hobserved
    | called name arguments inner => rfl
    | logged record => rfl
  rw [hmarks]
  exact ⟨List.prefix_refl _, fun _ _ => ⟨rfl, trivial⟩⟩

theorem marks_reportingRejection (x : Run (FunctionTable ι) α) (table : FunctionTable ι) :
    marks (reportingRejection x table).trace = marks (x table).trace := by
  rcases reportingRejection_trace x table with h | ⟨fault, _, h⟩
  · rw [h]
  · rw [h, marks_append]
    exact List.append_nil _

end Run

/-! ### The machine follows the schedule -/

namespace Machine

open Kind

variable {ι : Type} (invoke : Invocation ι) (options : Options)

theorem follows_reduce (values : List Float) (p : Pending) :
    Run.Follows [.reduced p.position p.kind] (fun _ => True) (reduce invoke values p) := by
  rw [reduce]
  split
  · intro table
    exact ⟨List.nil_prefix, fun a ha => by cases ha⟩
  · have happly := Run.follows_of_observed (observed_apply invoke
      (values.take p.operator.arity).reverse p.kind)
    exact (Run.follows_note rfl).bind fun _ _ => happly.bind fun _ _ => Run.follows_pure trivial

theorem follows_reduceAll (pending : List Pending) (values : List Float) :
    Run.Follows (pending.map fun p => .reduced p.position p.kind) (fun _ => True)
      (pending.foldlM (reduce invoke) values) := by
  induction pending generalizing values with
  | nil => exact Run.follows_pure trivial
  | cons p ps ih =>
      rw [List.foldlM_cons, List.map_cons]
      exact (follows_reduce invoke values p).bind fun values' _ => ih values'

/-- The machine has read operators of these kinds, and those that wait are pending. -/
structure Waits (ks : List Kind) (m : Machine) : Prop where
  read : m.operatorsRead = ks.length
  positions : m.pending.map Pending.position = waiting ks
  kinds : ∀ p ∈ m.pending, ks[p.position]? = some p.kind
  binding : ∀ p ∈ m.pending, p.operator.precedence = p.kind.precedence ∧
    p.operator.associativity = p.kind.associativity

theorem waits_initial : Waits [] initial :=
  ⟨rfl, rfl, fun _ hp => absurd hp List.not_mem_nil, fun _ hp => absurd hp List.not_mem_nil⟩

/-- Among waiting operators, what an operator makes reduce is what its kind unwinds. -/
theorem Waits.due_eq_filter {ks : List Kind} {m : Machine} (h : Waits ks m) {k : Kind}
    {op : Operator} (hop : op.precedence = k.precedence) :
    due op m.pending = m.pending.filter (fun p => (ks[p.position]?).any k.unwinds) ∧
    kept op m.pending = m.pending.filter (fun p => !(ks[p.position]?).any k.unwinds) := by
  have hsame : ∀ p ∈ m.pending, op.unwinds p.operator = (ks[p.position]?).any k.unwinds := by
    intro p hp
    rw [h.kinds p hp, operator_unwinds hop (h.binding p hp)]
    rfl
  have hpairwise : m.pending.Pairwise fun upper lower =>
      op.unwinds lower.operator = true → op.unwinds upper.operator = true := by
    have hpositions := pairwise_waiting ks k
    rw [← h.positions, List.pairwise_map] at hpositions
    refine hpositions.imp_of_mem fun {upper lower} hupper hlower himp => ?_
    rw [hsame upper hupper, hsame lower hlower]
    exact himp
  obtain ⟨htake, hdrop⟩ := takeWhile_eq_filter hpairwise
  refine ⟨htake.trans (List.filter_congr hsame), hdrop.trans (List.filter_congr ?_)⟩
  intro p hp
  rw [hsame p hp]

theorem Waits.number {ks : List Kind} {m : Machine} (h : Waits ks m) (x : Float) :
    Waits ks { m with values := x :: m.values } := ⟨h.read, h.positions, h.kinds, h.binding⟩

theorem Waits.operator {ks : List Kind} {m : Machine} (h : Waits ks m) {k : Kind} {op : Operator}
    (hop : op.precedence = k.precedence ∧ op.associativity = k.associativity)
    (values : List Float) :
    Waits (ks ++ [k])
      ⟨values, ⟨m.operatorsRead, k, op⟩ :: kept op m.pending, m.operatorsRead + 1⟩ := by
  have hkept : ∀ p ∈ kept op m.pending, p ∈ m.pending := fun p hp => List.dropWhile_subset _ hp
  constructor
  · rw [h.read, List.length_append, List.length_singleton]
  · rw [List.map_cons, (h.due_eq_filter hop.1).2, waiting_snoc, ← h.positions, List.filter_map,
      h.read]
    rfl
  · intro p hp
    rcases List.mem_cons.1 hp with rfl | hp
    · rw [h.read, List.getElem?_append_right (Nat.le_refl _), Nat.sub_self]
      rfl
    · have hkind := h.kinds p (hkept p hp)
      obtain ⟨hlen, _⟩ := List.getElem?_eq_some_iff.1 hkind
      rw [List.getElem?_append_left hlen]
      exact hkind
  · intro p hp
    rcases List.mem_cons.1 hp with rfl | hp
    · exact hop
    · exact h.binding p (hkept p hp)

theorem Waits.marks_due {ks : List Kind} {m : Machine} (h : Waits ks m) {k : Kind} {op : Operator}
    (hop : op.precedence = k.precedence) (more : List Kind) :
    (due op m.pending).map (fun p => Mark.reduced p.position p.kind) =
      (triggeredBy (ks ++ k :: more) ks.length).filterMap (reduction (ks ++ k :: more)) := by
  rw [triggeredBy_length, ← h.positions, List.filter_map, List.filterMap_map,
    (h.due_eq_filter hop).1, ← List.filterMap_eq_map]
  apply List.filterMap_congr
  intro p hp
  have hkind := h.kinds p (List.mem_filter.1 hp).1
  obtain ⟨hlen, _⟩ := List.getElem?_eq_some_iff.1 hkind
  rw [Function.comp_apply, Function.comp_apply, reduction, List.getElem?_append_left hlen, hkind]
  rfl

theorem follows_readOperator {ks : List Kind} {m : Machine} (h : Waits ks m) (k : Kind)
    (more : List Kind) :
    Run.Follows ((triggeredBy (ks ++ k :: more) ks.length).filterMap (reduction (ks ++ k :: more)))
      (Waits (ks ++ [k])) (m.readOperator invoke options k) := by
  have hread : Run.Follows [] (fun _ => True) (Run.readOperators : Run (FunctionTable ι) (FunctionTable ι)) :=
    Run.follows_of_observed rfl
  rw [← List.nil_append (List.filterMap _ _), ← List.nil_append (List.filterMap _ _)]
  refine hread.bind fun table _ => (Run.follows_ofExcept fun op hop =>
    Kind.binding_of_lookup hop).bind fun op hop => ?_
  rw [← List.append_nil (List.filterMap _ _), ← h.marks_due hop.1]
  exact (follows_reduceAll invoke _ _).bind fun values _ => Run.follows_pure (h.operator hop values)

/-- Reading follows the schedule of what is read, whatever was read before. -/
theorem follows_reads {ks : List Kind} {m : Machine} (h : Waits ks m) (ts : List Token) :
    Run.Follows (scheduleFrom (ks ++ ts.filterMap Token.kind?) ks.length ts)
      (Waits (ks ++ ts.filterMap Token.kind?)) (m.reads invoke options ts) := by
  induction ts generalizing ks m with
  | nil =>
      rw [List.filterMap_nil, List.append_nil]
      exact Run.follows_pure h
  | cons t ts ih =>
      rw [reads_cons]
      cases t with
      | number x =>
          have hread : Run.Follows [] (Waits ks) (m.readToken invoke options (.number x)) :=
            Run.follows_pure (h.number x)
          exact (Run.follows_note rfl).bind fun _ _ => hread.bind fun m' hm' => ih hm'
      | operator k =>
          have hsplit : ks ++ (Token.operator k :: ts).filterMap Token.kind? =
              (ks ++ [k]) ++ ts.filterMap Token.kind? := by
            rw [List.append_assoc]
            rfl
          refine (Run.follows_note rfl).bind fun _ _ =>
            (follows_readOperator invoke options h k (ts.filterMap Token.kind?)).bind
              fun m' hm' => ?_
          have hrest := ih hm'
          rw [List.length_append, List.length_singleton, ← hsplit] at hrest
          exact hrest

end Machine

open Machine in
/-- **Runs follow the schedule.** Whatever the implementations and the table are, a run leaves a
beginning of the schedule of its stream, and all of it if it reads the whole stream; then those
operators are pending that have no trigger. No operator is reduced twice, and none without a trigger
in the stream. -/
theorem marks_evaluate {ι : Type} (invoke : Invocation ι) (options : Options) (ts : List Token)
    (table : FunctionTable ι) :
    let ks := ts.filterMap Token.kind?
    let trace := (evaluate invoke options (some (Token.source ts)) table).trace
    marks trace <+: Kind.schedule ts ∧
    (∀ m, (initial.steps invoke options (Token.source ts) table).result = .ok m →
      marks trace = Kind.schedule ts ∧ m.pending.map Pending.position = Kind.waiting ks) ∧
    ((marks trace).filterMap Mark.position?).Nodup ∧
    ∀ i k, Mark.reduced i k ∈ marks trace → ks[i]? = some k ∧ ∃ j, Kind.Triggers ks i j := by
  intro ks trace
  have htrace : marks trace = marks (initial.reads invoke options ts table).trace := by
    have hquiet : ∀ m : Machine, Run.Follows [] (fun _ => True)
        (Run.ofExcept m.result : Run (FunctionTable ι) Float) :=
      fun m => Run.follows_ofExcept fun _ _ => trivial
    simp only [trace, evaluate_source, Run.marks_reportingRejection]
    cases hresult : (initial.reads invoke options ts table).result with
    | error fault => rw [Run.bind_of_error hresult]
    | ok m => rw [Run.bind_of_ok hresult, Run.ofExcept_trace, List.append_nil]
  obtain ⟨hbegins, hok⟩ := follows_reads invoke options waits_initial ts table
  rw [← htrace] at hbegins
  change marks trace <+: Kind.schedule ts at hbegins
  refine ⟨hbegins, fun m hm => ?_, ?_, fun i k hmark => ?_⟩
  · rw [steps_source] at hm
    obtain ⟨hmarks, hwaits⟩ := hok m hm
    rw [htrace]
    exact ⟨hmarks, hwaits.positions⟩
  · obtain ⟨rest, hrest⟩ := hbegins
    have hnodup : ((Kind.schedule ts).filterMap Mark.position?).Nodup :=
      Kind.nodup_scheduleFrom ks ts 0
    rw [← hrest, List.filterMap_append] at hnodup
    exact (List.nodup_append.1 hnodup).1
  · obtain ⟨hk, j, _, htriggers⟩ := Kind.mem_scheduleFrom ts (hbegins.subset hmark)
    exact ⟨hk, j, htriggers⟩

end Reckoner
