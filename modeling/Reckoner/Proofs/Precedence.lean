import Mathlib.Data.List.TakeWhile
import Reckoner.Proofs.Expression
import Reckoner.Proofs.Reading
import Reckoner.Routine

/-!
The machine reads expressions by their grammar. On top of whatever binds looser, an expression and
the operator that closes it come to the same as the value of the expression and that operator
(`Pushes`): every operator inside reduces on the values of its own operands before the closing one
joins. From this a whole derived stream has the outcome of its tree.
-/

namespace Reckoner

namespace Operator

theorem unwinds_eq_false_of_le {a b pending : Operator} (hab : a.precedence ≤ b.precedence)
    (h : a.unwinds pending = false) : b.unwinds pending = false := by
  simp only [unwinds, Bool.or_eq_false_iff, Bool.and_eq_false_iff, decide_eq_false_iff_not,
    beq_eq_false_iff_ne] at h ⊢
  obtain ⟨hlt, hties⟩ := h
  refine ⟨by omega, ?_⟩
  rcases hties with hne | hright
  · exact Or.inl (by omega)
  · exact Or.inr hright

theorem unwinds_of_lt {incoming a b : Operator} (hab : a.precedence < b.precedence)
    (h : incoming.unwinds a = true) : incoming.unwinds b = true := by
  simp only [unwinds, Bool.or_eq_true, Bool.and_eq_true, decide_eq_true_eq, beq_iff_eq] at h ⊢
  omega

end Operator

namespace Machine

open Expression

variable {ι : Type} (invoke : Invocation ι) (options : Options)

/-- Operators of the rank leave what is pending alone. -/
def Awaits (rank : Rank) (pending : List Pending) : Prop :=
  ∀ p ∈ pending.head?, rank.operator.unwinds p.operator = false

theorem Awaits.of_le {looser tighter : Rank} {pending : List Pending}
    (hle : looser.operator.precedence ≤ tighter.operator.precedence)
    (h : Awaits looser pending) : Awaits tighter pending :=
  fun p hp => Operator.unwinds_eq_false_of_le hle (h p hp)

theorem awaits_cons {rank : Rank} {op : Operator} (h : rank.operator.unwinds op = false) (n : Nat)
    (k : Kind) (pending : List Pending) : Awaits rank (⟨n, k, op⟩ :: pending) := by
  intro p hp
  rw [← Option.some.inj hp]
  exact h

def Bracketed (pending : List Pending) : Prop :=
  ∀ p ∈ pending, p.operator = Control.openBracket.operator ∧
    ∃ marker, p.kind = .control marker ∧ marker ≠ .join

theorem Bracketed.awaits {pending : List Pending} (h : Bracketed pending) (rank : Rank) :
    Awaits rank pending := by
  intro p hp
  rw [(h p (List.mem_of_mem_head? hp)).1]
  cases rank <;> rfl

theorem bracketed_nil : Bracketed [] := fun _ hp => absurd hp List.not_mem_nil

theorem bracketed_singleton {marker : Control}
    (hop : marker.operator = Control.openBracket.operator) (hmarker : marker ≠ .join) (n : Nat) :
    Bracketed [⟨n, .control marker, marker.operator⟩] := by
  intro p hp
  rw [List.mem_singleton.1 hp]
  exact ⟨hop, marker, rfl, hmarker⟩

/-- Reducing a bracket does nothing. -/
theorem observed_reduce_bracketed {pending : List Pending} (h : Bracketed pending)
    (values : List Float) :
    (pending.foldlM (reduce invoke) values).observed = pure values := by
  induction pending with
  | nil => rfl
  | cons p ps ih =>
      obtain ⟨hop, marker, hkind, hmarker⟩ := h p List.mem_cons_self
      have hp : (reduce invoke values p).observed = pure values := by
        rw [observed_reduce invoke (by rw [hop]; exact Nat.zero_le _), hkind, hop]
        cases marker with
        | join => exact absurd rfl hmarker
        | _ => rfl
      rw [List.foldlM_cons, Run.observed_bind, hp, pure_bind]
      exact ih fun q hq => h q (List.mem_cons_of_mem p hq)

/-- Whatever binds no tighter than a bracket finds no operator among brackets and leaves none. -/
theorem observed_reads_bracketed {k : Kind} {op : Operator} (hk : k.HasOperator ι options op)
    (hop : op.unwinds Control.openBracket.operator = true) {pending : List Pending}
    (h : Bracketed pending) (values : List Float) (n : Nat) (ts : List Token) :
    (reads invoke options ⟨values, pending, n⟩ (.operator k :: ts)).observed =
      (reads invoke options ⟨values, [⟨n, k, op⟩], n + 1⟩ ts).observed := by
  have hall : ∀ p ∈ pending, op.unwinds p.operator = true := fun p hp => by rw [(h p hp).1, hop]
  have hdue : due op pending = pending := List.takeWhile_eq_self_iff.2 hall
  have hkept : kept op pending = [] := List.dropWhile_eq_nil_iff.2 hall
  rw [observed_reads_operator invoke options hk, hdue, hkept, observed_reduce_bracketed invoke h,
    pure_bind]

/-- Read on top of `pending`, the tokens and a closing operator come to the same as the value and
that operator, with `pending'` below. -/
def Pushes (rank : Rank) (ts : List Token) (value : Except Fault Float) (pending : List Pending)
    (n : Nat) (pending' : List Pending) (n' : Nat) : Prop :=
  ∀ (values : List Float) (k : Kind) (op : Operator) (rest : List Token),
    k.HasOperator ι options op → op.unwinds rank.operator = true →
    (reads invoke options ⟨values, pending, n⟩ (ts ++ .operator k :: rest)).observed =
      Run.ofExcept value >>= fun v =>
        (reads invoke options ⟨v :: values, pending', n'⟩ (.operator k :: rest)).observed

variable {invoke options}

/-- An expression of a tighter rank is one of a looser rank. -/
theorem Pushes.of_lt {looser tighter : Rank} {ts : List Token} {value : Except Fault Float}
    {pending pending' : List Pending} {n n' : Nat}
    (hlt : looser.operator.precedence < tighter.operator.precedence)
    (h : Pushes invoke options tighter ts value pending n pending' n') :
    Pushes invoke options looser ts value pending n pending' n' :=
  fun values k op rest hk hop => h values k op rest hk (Operator.unwinds_of_lt hlt hop)

theorem Pushes.between {rank left right : Rank} {k : Kind} {op : Operator}
    (hk : k.HasOperator ι options op) {f : Float → Float → Except Fault Float}
    (harity : op.arity = 2)
    (happly : ∀ a b, apply invoke [a, b] k = Run.ofExcept ((f a b).map some))
    (hrank : ∀ o : Operator, o.unwinds rank.operator = true → o.unwinds op = true)
    (hright : ∀ o : Operator, o.unwinds rank.operator = true → o.unwinds right.operator = true)
    (hclose : op.unwinds left.operator = true)
    {ls rs : List Token} {l r : Except Fault Float} {pending pending' : List Pending}
    {n n₁ n₂ : Nat}
    (hstop : ∀ p ∈ pending'.head?, op.unwinds p.operator = false)
    (hl : Pushes invoke options left ls l pending n pending' n₁)
    (hr : Pushes invoke options right rs r (⟨n₁, k, op⟩ :: pending') (n₁ + 1)
      (⟨n₁, k, op⟩ :: pending') n₂) :
    Pushes invoke options rank (ls ++ .operator k :: rs) (l >>= fun a => r >>= fun b => f a b)
      pending n pending' n₂ := by
  intro values k' op' rest hk' hop'
  rw [List.append_assoc, List.cons_append, hl values k op _ hk hclose]
  simp only [Run.ofExcept_bind, bind_assoc]
  apply bind_congr
  intro a
  rw [observed_reads_push invoke options hk hstop,
    hr (a :: values) k' op' rest hk' (hright op' hop')]
  apply bind_congr
  intro b
  have hreduce : (reduce invoke (b :: a :: values) ⟨n₁, k, op⟩).observed =
      Run.ofExcept (f a b) >>= fun x => pure (x :: values) := by
    rw [observed_reduce invoke (by simp [harity])]
    simp only [harity, List.take_succ_cons, List.take_zero, List.reverse_cons, List.reverse_nil,
      List.nil_append, List.singleton_append, happly, Run.ofExcept_map, bind_assoc, pure_bind]
    rfl
  rw [observed_reads_unwind invoke options hk' (hrank op' hop'), hreduce, bind_assoc]
  simp only [pure_bind]

theorem Pushes.number (rank : Rank) (x : Float) (pending : List Pending) (n : Nat) :
    Pushes invoke options rank [.number x] (.ok x) pending n pending n := by
  intro values k op rest _ _
  rw [Run.ofExcept_ok, pure_bind]
  exact observed_reads_number invoke options _ x _

theorem Pushes.negation {ts : List Token} {value : Except Fault Float} {pending : List Pending}
    {n n' : Nat} (hawaits : Awaits .unary pending)
    (h : Pushes invoke options .unary ts value
      (⟨n, .arithmetic .negate, Arithmetic.negate.operator⟩ :: pending) (n + 1)
      (⟨n, .arithmetic .negate, Arithmetic.negate.operator⟩ :: pending) n') :
    Pushes invoke options .unary (.operator (.arithmetic .negate) :: ts)
      (value >>= fun a => Arithmetic.negate.apply [a]) pending n pending n' := by
  intro values k op rest hk hop
  rw [List.cons_append, observed_reads_push invoke options
    (Kind.hasOperator_arithmetic ι options .negate) hawaits, h values k op rest hk hop,
    Run.ofExcept_bind, bind_assoc]
  apply bind_congr
  intro a
  rw [observed_reads_unwind invoke options hk hop,
    observed_reduce invoke (Nat.succ_le_succ (Nat.zero_le _))]
  rfl

/-! ### Reading a derived expression -/

/-- What is pending before and after an expression: nothing changes below it, unless it starts the
stream, where brackets may give way to brackets. -/
structure Keeps (leading : Bool) (pending pending' : List Pending) : Prop where
  same : leading = false → pending' = pending
  bracketed : leading = true → Bracketed pending'

theorem Keeps.awaits {leading : Bool} {pending pending' : List Pending}
    (h : Keeps leading pending pending') {rank : Rank} (hawaits : Awaits rank pending) :
    Awaits rank pending' := by
  cases leading with
  | false => rwa [h.same rfl]
  | true => exact (h.bracketed rfl).awaits rank

variable (invoke options)

/-- The tokens push their value wherever operators of the rank may stand. -/
def Readable (leading : Bool) (rank : Rank) (ts : List Token) (value : Except Fault Float) : Prop :=
  ∀ (pending : List Pending) (n : Nat), Awaits rank pending →
    (leading = true → Bracketed pending) →
    ∃ pending' n', Keeps leading pending pending' ∧
      Pushes invoke options rank ts value pending n pending' n'

/-- The tokens push their value on top of an operator that has just joined the pending ones. -/
def ReadableAfter (k : Kind) (op : Operator) (rank : Rank) (ts : List Token)
    (value : Except Fault Float) : Prop :=
  ∀ (pending : List Pending) (n : Nat), ∃ n', Pushes invoke options rank ts value
    (⟨n, k, op⟩ :: pending) (n + 1) (⟨n, k, op⟩ :: pending) n'

variable {invoke options}

theorem Readable.of_lt {leading : Bool} {looser tighter : Rank} {ts : List Token}
    {value : Except Fault Float}
    (hlt : looser.operator.precedence < tighter.operator.precedence)
    (h : Readable invoke options leading tighter ts value) :
    Readable invoke options leading looser ts value := by
  intro pending n hawaits hbracketed
  obtain ⟨pending', n', hkeeps, hpushes⟩ :=
    h pending n (hawaits.of_le (Nat.le_of_lt hlt)) hbracketed
  exact ⟨pending', n', hkeeps, hpushes.of_lt hlt⟩

theorem Readable.after {rank : Rank} {ts : List Token} {value : Except Fault Float}
    (h : Readable invoke options false rank ts value) {k : Kind} {op : Operator}
    (hopen : rank.operator.unwinds op = false) :
    ReadableAfter invoke options k op rank ts value := by
  intro pending n
  obtain ⟨_, n', hsame, hpushes⟩ := h _ (n + 1) (awaits_cons hopen n k pending)
    (fun h => Bool.noConfusion h)
  rw [hsame.same rfl] at hpushes
  exact ⟨n', hpushes⟩

/-- Operands at their ranks and an operator between them. The left operand is closed by the
operator, and the right one stands on top of it. -/
theorem Readable.between {leading : Bool} {rank left right : Rank} {k : Kind} {op : Operator}
    (hk : k.HasOperator ι options op) {f : Float → Float → Except Fault Float}
    (harity : op.arity = 2)
    (happly : ∀ a b, apply invoke [a, b] k = Run.ofExcept ((f a b).map some))
    (hprec : op.precedence = rank.operator.precedence)
    (hassoc : op.associativity = rank.operator.associativity)
    (hleft : left = rank ∨ rank.operator.precedence < left.operator.precedence)
    (hright : right = rank ∨ rank.operator.precedence < right.operator.precedence)
    (hclose : op.unwinds left.operator = true)
    {ls rs : List Token} {l r : Except Fault Float}
    (hl : Readable invoke options leading left ls l)
    (hr : ReadableAfter invoke options k op right rs r) :
    Readable invoke options leading rank (ls ++ .operator k :: rs)
      (l >>= fun a => r >>= fun b => f a b) := by
  intro pending n hawaits hbracketed
  have hlawaits : Awaits left pending := by
    rcases hleft with rfl | hlt
    · exact hawaits
    · exact hawaits.of_le (Nat.le_of_lt hlt)
  obtain ⟨pending', n₁, hkeeps, hlpushes⟩ := hl pending n hlawaits hbracketed
  have hstop : ∀ p ∈ pending'.head?, op.unwinds p.operator = false := by
    intro p hp
    have h := hkeeps.awaits hawaits p hp
    simp only [Operator.unwinds, hprec] at h ⊢
    exact h
  obtain ⟨n₂, hrpushes⟩ := hr pending' n₁
  refine ⟨pending', n₂, hkeeps, hlpushes.between hk harity happly ?_ ?_ hclose hstop hrpushes⟩
  · intro o ho
    simp only [Operator.unwinds, hprec, hassoc] at ho ⊢
    exact ho
  · intro o ho
    rcases hright with rfl | hlt
    · exact ho
    · exact Operator.unwinds_of_lt hlt ho

theorem Readable.number (leading : Bool) (rank : Rank) (x : Float) :
    Readable invoke options leading rank [.number x] (.ok x) :=
  fun pending n _ hbracketed =>
    ⟨pending, n, ⟨fun _ => rfl, hbracketed⟩, Pushes.number rank x pending n⟩

theorem Readable.negation {leading : Bool} {ts : List Token} {value : Except Fault Float}
    (h : Readable invoke options false .unary ts value) :
    Readable invoke options leading .unary (.operator (.arithmetic .negate) :: ts)
      (value >>= fun a => Arithmetic.negate.apply [a]) := by
  intro pending n hawaits hbracketed
  have hafter : ReadableAfter invoke options (.arithmetic .negate) Arithmetic.negate.operator .unary
      ts value := h.after rfl
  obtain ⟨n', hpushes⟩ := hafter pending n
  exact ⟨pending, n', ⟨fun _ => rfl, hbracketed⟩, Pushes.negation hawaits hpushes⟩

/-- A group among brackets: the first bracket removes what is pending, the second one reduces
everything inside. -/
theorem Readable.group {rank : Rank} {ts : List Token} {value : Except Fault Float}
    (h : Readable invoke options true .sum ts value) :
    Readable invoke options true rank (.operator (.control .openBracket) ::
      (ts ++ [.operator (.control .closeBracket)])) value := by
  intro pending n _ hbracketed
  have hopens : Kind.HasOperator ι options (.control .openBracket) Control.openBracket.operator :=
    fun _ => rfl
  have hcloses : Kind.HasOperator ι options (.control .closeBracket)
      Control.closeBracket.operator := fun _ => rfl
  have hinside : Bracketed [⟨n, .control .openBracket, Control.openBracket.operator⟩] :=
    bracketed_singleton rfl (by decide) n
  obtain ⟨pending₁, n₁, hkeeps, hpushes⟩ := h _ (n + 1) (hinside.awaits .sum) (fun _ => hinside)
  have houtside : Bracketed [⟨n₁, .control .closeBracket, Control.closeBracket.operator⟩] := by
    apply bracketed_singleton
    · rfl
    · decide
  refine ⟨_, n₁ + 1, ⟨fun h => Bool.noConfusion h, fun _ => houtside⟩, ?_⟩
  intro values k op rest hk hop
  rw [List.cons_append, List.append_assoc, List.singleton_append,
    observed_reads_bracketed invoke options hopens rfl (hbracketed rfl),
    hpushes values _ _ _ hcloses rfl]
  apply bind_congr
  intro v
  exact observed_reads_bracketed invoke options hcloses rfl (hkeeps.bracketed rfl) _ _ _

variable (invoke options)

/-- Every derived expression is read as its value, if joining is on wherever it is needed. -/
theorem readable_of_derives {leading : Bool} {rank : Rank} {e : Expression}
    (h : Derives leading rank e) (hjoin : ∀ q ∈ e.joins, options.joinEnabled = true) :
    Readable invoke options leading rank e.flatten e.value := by
  induction h with
  | sum hop _ _ hl hr =>
      have hl := hl fun q hq => hjoin q (List.mem_append_left _ hq)
      have hr := hr fun q hq => hjoin q (List.mem_append_right _ hq)
      rcases hop with rfl | rfl <;>
        exact hl.between (Kind.hasOperator_arithmetic ι options _) rfl (fun _ _ => rfl) rfl rfl
          (Or.inl rfl) (Or.inr (by decide)) rfl (hr.after rfl)
  | product hop _ _ hl hr =>
      have hl := hl fun q hq => hjoin q (List.mem_append_left _ hq)
      have hr := hr fun q hq => hjoin q (List.mem_append_right _ hq)
      rcases hop with rfl | rfl <;>
        exact hl.between (Kind.hasOperator_arithmetic ι options _) rfl (fun _ _ => rfl) rfl rfl
          (Or.inl rfl) (Or.inr (by decide)) rfl (hr.after rfl)
  | power _ _ hl hr =>
      have hl := hl fun q hq => hjoin q (List.mem_append_left _ hq)
      have hr := hr fun q hq => hjoin q (List.mem_append_right _ hq)
      exact hl.between (Kind.hasOperator_arithmetic ι options _) rfl (fun _ _ => rfl) rfl rfl
        (Or.inr (by decide)) (Or.inl rfl) rfl (hr.after rfl)
  | @join _ l x _ hl =>
      have hl := hl fun q hq => hjoin q (List.mem_append_left _ (List.mem_append_left _ hq))
      have hon : options.joinEnabled = true := hjoin (l, .number x) (by simp [joins])
      exact hl.between (Kind.hasOperator_control ι options fun _ => hon) rfl (fun _ _ => rfl) rfl
        rfl (Or.inl rfl) (Or.inl rfl) rfl fun _ n => ⟨n + 1, Pushes.number .joined x _ _⟩
  | negation _ h => exact (h hjoin).negation
  | number x => exact Readable.number _ _ x
  | group _ h => exact (h hjoin).group
  | ofProduct _ h => exact (h hjoin).of_lt (by decide)
  | ofPower _ h => exact (h hjoin).of_lt (by decide)
  | ofUnary _ h => exact (h hjoin).of_lt (by decide)
  | ofJoined _ h => exact (h hjoin).of_lt (by decide)

/-- A derived stream with its terminator shows nothing but its value or its fault. -/
theorem observed_evaluate_flatten {e : Expression} (h : Derives true .sum e)
    (hjoin : ∀ q ∈ e.joins, options.joinEnabled = true) :
    (evaluate invoke options (some (Token.source
      (e.flatten ++ [.operator (.control .endExpr)])))).observed =
      Run.reportingRejection (Run.ofExcept e.value) := by
  have hend := Kind.hasOperator_endExpr ι options
  obtain ⟨pending, n, hkeeps, hpushes⟩ := readable_of_derives invoke options h hjoin [] 0
    (fun _ hp => by cases hp) fun _ => bracketed_nil
  rw [evaluate_source, Run.observed_reportingRejection, Run.observed_bind, initial,
    hpushes [] _ _ [] hend rfl, bind_assoc]
  have hvalue : ∀ v, ((reads invoke options ⟨[v], pending, n⟩
      [.operator (.control .endExpr)]).observed >>= fun m =>
        (Run.ofExcept m.result).observed) = pure v := by
    intro v
    rw [observed_reads_bracketed invoke options hend rfl (hkeeps.bracketed rfl), reads_nil]
    rfl
  simp only [hvalue, bind_pure]

end Machine

open Machine in
/-- **Every derived stream has the outcome of its tree.** With joining switched on, evaluating the
stream of an expression ends in the value of the tree, or in the fault of the first joining in
post-order that fails; nothing is called, and the table stays. -/
theorem evaluate_flatten {ι : Type} (invoke : Invocation ι) {e : Expression}
    (h : Expression.Derives true .sum e) (table : FunctionTable ι) :
    let outcome := evaluate invoke ⟨true⟩ (some (Token.source
      (e.flatten ++ [.operator (.control .endExpr)]))) table
    outcome.result = e.value ∧ outcome.state = table ∧ Event.callsIn outcome.trace = [] ∧
      ((∃ x, e.value = .ok x ∧ ∀ q ∈ e.joins, Expression.JoinSucceeds q) ∨
        ∃ fault, e.value = .error fault ∧ Expression.FirstJoinFailure e fault) := by
  have hobserved := congrFun (observed_evaluate_flatten invoke ⟨true⟩ h fun _ _ => rfl) table
  refine ⟨?_, ?_, ?_, h.decided⟩
  · rw [← Run.observed_result, hobserved, Run.reportingRejection_result, Run.ofExcept_result]
  · rw [← Run.observed_state, hobserved, Run.reportingRejection_state, Run.ofExcept_state]
  · rw [← Run.observed_calls, hobserved, Run.reportingRejection_calls, Run.ofExcept_trace]
    rfl

open Expression in
/-- A leading group with a joining inside, signs, and operators of three ranks:
`(4 join 3) + -2 / 0.5 * 2 - 1` is 34. -/
theorem evaluate_flatten_mixed :
    let e : Expression := .binary .sub (.binary .add (.group (.join (.number 4) (.number 3)))
      (.binary .mul (.binary .div (.negation (.number 2)) (.number 0.5)) (.number 2))) (.number 1)
    Derives true .sum e ∧ (Routine.evaluateSource ⟨true⟩ (some (Token.source
      (e.flatten ++ [.operator (.control .endExpr)]))) FunctionTable.empty).result.toOption = some 34 := by
  intro e
  have atom : ∀ {leading : Bool} (x : Float), Derives leading .power (.number x) :=
    fun x => .ofUnary (.ofJoined (.number x))
  have hgroup : Derives true .sum (.group (.join (.number 4) (.number 3))) :=
    .ofProduct (.ofPower (.ofUnary (.ofJoined (.group
      (.ofProduct (.ofPower (.ofUnary (.ofJoined (.join 3 (.number 4))))))))))
  have hproduct : Derives false .product
      (.binary .mul (.binary .div (.negation (.number 2)) (.number 0.5)) (.number 2)) :=
    .product (Or.inl rfl) (.product (Or.inr rfl)
      (.ofPower (.ofUnary (.negation (.ofJoined (.number 2))))) (atom 0.5)) (atom 2)
  have hderives : Derives true .sum e :=
    .sum (Or.inr rfl) (.sum (Or.inl rfl) hgroup hproduct) (.ofPower (atom 1))
  refine ⟨hderives, ?_⟩
  rw [Routine.evaluateSource, (evaluate_flatten _ hderives FunctionTable.empty).1]
  decide +kernel

end Reckoner
