import Reckoner.Proofs.Expression

/-!
Expressions one after the other without a separator. The operators of an expression that still wait
for their right operand take the next expression along: the left operand of the first of them is
left over, and each of them gets the left operand of the one after it. `regroup` says which
expressions arise in this way. They are derived ones again, and they are the original ones exactly
if all but the last of these are numbers.
-/

namespace Reckoner

namespace Expression

/-- An argument of a call: an expression without groups and joinings. -/
def IsArgument (e : Expression) : Prop := Derives false .sum e ∧ e.joins = []

/-- Puts `wrap` in front of the part of an expression that an operator in front of it binds. -/
def inFront (op : Operator) (wrap : Expression → Expression) : Expression → Expression
  | binary op' l r =>
    if op'.operator.unwinds op then binary op' (inFront op wrap l) r else wrap (binary op' l r)
  | e => wrap e

/-- The part of an expression that is left over when its operators take the next one along. -/
def settled : Expression → Expression
  | binary _ l _ => l
  | negation e => e.settled
  | e => e

/-- The next expression with the waiting operators of an expression in front. -/
def carry : Expression → Expression → Expression
  | binary op _ r, next => inFront op.operator (binary op r.settled) (r.carry next)
  | negation e, next => inFront Arithmetic.negate.operator negation (e.carry next)
  | _, next => next

/-- An expression and the ones after it, as they are read without separators. -/
def regroupFrom (e : Expression) : List Expression → List Expression
  | [] => [e]
  | next :: rest => e.settled :: regroupFrom (e.carry next) rest

/-- Expressions as they are read without separators. -/
def regroup : List Expression → List Expression
  | [] => []
  | e :: rest => regroupFrom e rest

theorem flatten_inFront {op : Operator} {wrap : Expression → Expression} {front : List Token}
    (hwrap : ∀ e, (wrap e).flatten = front ++ e.flatten) (e : Expression) :
    (inFront op wrap e).flatten = front ++ e.flatten := by
  induction e with
  | binary op' l r hl _ =>
      rw [inFront]
      split
      · rw [flatten, hl, flatten, List.append_assoc]
      · exact hwrap _
  | _ => exact hwrap _

theorem joins_inFront {op : Operator} {wrap : Expression → Expression}
    (hwrap : ∀ e, e.joins = [] → (wrap e).joins = []) {e : Expression} (h : e.joins = []) :
    (inFront op wrap e).joins = [] := by
  induction e with
  | binary op' l r hl _ =>
      rw [inFront]
      split
      · obtain ⟨hlj, hrj⟩ := List.append_eq_nil_iff.1 h
        rw [joins, hl hlj, hrj, List.append_nil]
      · exact hwrap _ h
  | _ => exact hwrap _ h

/-! ### Ranks of operands -/

namespace Rank

/-- The rank of what stands before an operator of a rank. -/
def left : Rank → Rank
  | power => unary
  | rank => rank

/-- The rank of what stands behind an operator of a rank. -/
def right : Rank → Rank
  | sum => product
  | product => power
  | rank => rank

/-- Exactly what may stand behind an operator leaves it waiting. -/
theorem unwinds_eq_false_iff {rank : Rank} (h : rank ≠ joined) (inside : Rank) :
    inside.operator.unwinds rank.operator = false ↔
      rank.right.operator.precedence ≤ inside.operator.precedence := by
  cases rank with
  | joined => exact absurd rfl h
  | _ => cases inside <;> decide

theorem unwinds_left {rank : Rank} (h : rank ≠ unary) :
    rank.operator.unwinds rank.left.operator = true := by
  cases rank with
  | unary => exact absurd rfl h
  | _ => rfl

theorem right_le_unary {rank : Rank} (h : rank ≠ joined) :
    rank.right.operator.precedence ≤ unary.operator.precedence := by
  cases rank with
  | joined => exact absurd rfl h
  | _ => decide

theorem le_left (rank : Rank) : rank.operator.precedence ≤ rank.left.operator.precedence := by
  cases rank <;> decide

end Rank

theorem Derives.of_le {leading : Bool} {looser tighter : Rank} {e : Expression}
    (h : Derives leading tighter e)
    (hle : looser.operator.precedence ≤ tighter.operator.precedence) :
    Derives leading looser e := by
  have hunary : tighter = .joined ∨ tighter = .unary → Derives leading .unary e := by
    rintro (rfl | rfl)
    · exact .ofJoined h
    · exact h
  have hpower : tighter = .joined ∨ tighter = .unary ∨ tighter = .power →
      Derives leading .power e := by
    rintro (htight | htight | rfl)
    · exact .ofUnary (hunary (Or.inl htight))
    · exact .ofUnary (hunary (Or.inr htight))
    · exact h
  have hproduct : tighter ≠ .sum → Derives leading .product e := by
    intro hsum
    cases tighter with
    | sum => exact absurd rfl hsum
    | product => exact h
    | _ => exact .ofPower (hpower (by decide))
  cases looser with
  | sum =>
      by_cases hsum : tighter = .sum
      · exact hsum ▸ h
      · exact .ofProduct (hproduct hsum)
  | product =>
      refine hproduct ?_
      rintro rfl
      exact absurd hle (by decide)
  | power => cases tighter <;> first | exact absurd hle (by decide) | exact hpower (by decide)
  | unary => cases tighter <;> first | exact absurd hle (by decide) | exact hunary (by decide)
  | joined => cases tighter <;> first | exact absurd hle (by decide) | exact h

theorem Derives.leading {rank : Rank} {e : Expression} (h : Derives false rank e) :
    Derives true rank e := by
  generalize hleading : false = leading at h
  induction h with
  | sum hop _ hr hl _ => exact .sum hop (hl hleading) hr
  | product hop _ hr hl _ => exact .product hop (hl hleading) hr
  | power _ hr hl _ => exact .power (hl hleading) hr
  | negation h _ => exact .negation h
  | join x _ hl => exact .join x (hl hleading)
  | number x => exact .number x
  | group _ _ => cases hleading
  | ofProduct _ h => exact .ofProduct (h hleading)
  | ofPower _ h => exact .ofPower (h hleading)
  | ofUnary _ h => exact .ofUnary (h hleading)
  | ofJoined _ h => exact .ofJoined (h hleading)

/-- An operator with its operands stands at one rank, with operands of the ranks for its sides. -/
theorem Derives.of_binary {rank : Rank} {op : Arithmetic} {l r : Expression}
    (h : Derives false rank (.binary op l r)) :
    ∃ own : Rank, own ≠ .unary ∧ own ≠ .joined ∧ op.operator = own.operator ∧
      rank.operator.precedence ≤ own.operator.precedence ∧ Derives false own.left l ∧
      Derives false own.right r ∧ ∀ {l' r' : Expression}, Derives false own.left l' →
        Derives false own.right r' → Derives false own (.binary op l' r') := by
  generalize he : Expression.binary op l r = e at h
  generalize hleading : false = leading at h
  induction h with
  | sum hop hl hr _ _ =>
      obtain ⟨rfl, rfl, rfl⟩ := Expression.binary.inj he
      subst hleading
      refine ⟨.sum, by decide, by decide, ?_, Nat.le_refl _, hl, hr,
        fun hl' hr' => .sum hop hl' hr'⟩
      rcases hop with rfl | rfl <;> rfl
  | product hop hl hr _ _ =>
      obtain ⟨rfl, rfl, rfl⟩ := Expression.binary.inj he
      subst hleading
      refine ⟨.product, by decide, by decide, ?_, Nat.le_refl _, hl, hr,
        fun hl' hr' => .product hop hl' hr'⟩
      rcases hop with rfl | rfl <;> rfl
  | power hl hr _ _ =>
      obtain ⟨rfl, rfl, rfl⟩ := Expression.binary.inj he
      subst hleading
      exact ⟨.power, by decide, by decide, rfl, Nat.le_refl _, hl, hr,
        fun hl' hr' => .power hl' hr'⟩
  | ofProduct _ h =>
      obtain ⟨own, hsign, hown, hop, hle, hrest⟩ := h he hleading
      exact ⟨own, hsign, hown, hop, Nat.le_trans (by decide) hle, hrest⟩
  | ofPower _ h =>
      obtain ⟨own, hsign, hown, hop, hle, hrest⟩ := h he hleading
      exact ⟨own, hsign, hown, hop, Nat.le_trans (by decide) hle, hrest⟩
  | ofUnary _ h =>
      obtain ⟨own, hsign, hown, hop, hle, hrest⟩ := h he hleading
      exact ⟨own, hsign, hown, hop, Nat.le_trans (by decide) hle, hrest⟩
  | ofJoined _ h =>
      obtain ⟨own, hsign, hown, hop, hle, hrest⟩ := h he hleading
      exact ⟨own, hsign, hown, hop, Nat.le_trans (by decide) hle, hrest⟩
  | _ => cases he

theorem Derives.of_negation {leading : Bool} {rank : Rank} {e : Expression}
    (h : Derives leading rank (.negation e)) :
    rank.operator.precedence ≤ Rank.unary.operator.precedence ∧ Derives false .unary e := by
  generalize he : Expression.negation e = e' at h
  induction h with
  | negation h _ =>
      rw [Expression.negation.inj he]
      exact ⟨Nat.le_refl _, h⟩
  | ofProduct _ h => exact ⟨by decide, (h he).2⟩
  | ofPower _ h => exact ⟨by decide, (h he).2⟩
  | ofUnary _ h => exact ⟨by decide, (h he).2⟩
  | ofJoined _ h => exact ⟨by decide, (h he).2⟩
  | _ => cases he

/-- Whatever is no operator between operands binds as tight as a sign. -/
theorem Derives.unary_of_not_binary {rank : Rank} {e : Expression} (h : Derives false rank e)
    (hne : ∀ op l r, e ≠ .binary op l r) : Derives false .unary e := by
  generalize hleading : false = leading at h
  induction h with
  | sum => exact absurd rfl (hne _ _ _)
  | product => exact absurd rfl (hne _ _ _)
  | power => exact absurd rfl (hne _ _ _)
  | negation h _ => exact .negation h
  | join x hl _ => exact .ofJoined (.join x (hleading ▸ hl))
  | number x => exact .ofJoined (.number x)
  | group _ _ => cases hleading
  | ofProduct _ h => exact h hne hleading
  | ofPower _ h => exact h hne hleading
  | ofUnary _ h => exact h hne hleading
  | ofJoined _ h => exact h hne hleading

theorem not_derives_group (rank : Rank) (e : Expression) : ¬ Derives false rank (.group e) := by
  intro h
  have hunary := h.unary_of_not_binary fun _ _ _ he => by cases he
  cases hunary with
  | ofJoined h => cases h

/-! ### Regrouped expressions are derived -/

theorem Derives.settled {rank : Rank} {e : Expression} (h : Derives false rank e) :
    Derives false rank e.settled := by
  induction e generalizing rank with
  | binary op l r _ _ =>
      obtain ⟨own, _, _, _, hle, hl, _, _⟩ := h.of_binary
      exact hl.of_le (Nat.le_trans hle own.le_left)
  | negation e ih =>
      obtain ⟨hle, he⟩ := h.of_negation
      exact (ih he).of_le hle
  | _ => exact h

theorem Derives.settled_left {rank : Rank} {e : Expression} (h : Derives false rank.right e) :
    Derives false rank.left e.settled := by
  cases rank with
  | sum => exact h.settled.of_le (by decide)
  | product => exact h.settled.of_le (by decide)
  | power =>
      cases h with
      | power hl _ => exact hl
      | ofUnary h => exact h.settled
  | unary => exact h.settled
  | joined => exact h.settled

/-- An operator in front either goes on into the left operand, or all that is there may stand behind it. -/
theorem Derives.inFront {own : Rank} (hown : own ≠ .joined) {wrap : Expression → Expression}
    (hwrap : ∀ {e : Expression}, Derives false own.right e → Derives false own (wrap e))
    {rank : Rank} {e : Expression} (h : Derives false rank e) {looser : Rank}
    (hrank : looser.operator.precedence ≤ rank.operator.precedence)
    (hle : looser.operator.precedence ≤ own.operator.precedence) :
    Derives false looser (inFront own.operator wrap e) := by
  induction e generalizing rank looser with
  | binary op l r hl _ =>
      obtain ⟨inside, _, _, hop, hinside, hleft, hright, hbinary⟩ := h.of_binary
      rw [Expression.inFront, hop]
      split
      · rename_i hunwinds
        have hbelow : inside.left.operator.precedence ≤ own.operator.precedence := by
          revert hunwinds
          cases inside <;> cases own <;> decide
        exact (hbinary (hl hleft (Nat.le_refl _) hbelow) hright).of_le (Nat.le_trans hrank hinside)
      · rename_i hunwinds
        rw [Bool.not_eq_true, Rank.unwinds_eq_false_iff hown] at hunwinds
        exact (hwrap ((hbinary hleft hright).of_le hunwinds)).of_le hle
  | _ =>
      have hunary := h.unary_of_not_binary fun _ _ _ he => by cases he
      exact (hwrap (hunary.of_le (Rank.right_le_unary hown))).of_le hle

theorem Derives.carry {rank : Rank} {e next : Expression} (h : Derives false rank e)
    (hnext : Derives false .sum next) : Derives false .sum (e.carry next) := by
  induction e generalizing rank with
  | binary op l r _ hr =>
      obtain ⟨own, _, hown, hop, _, _, hright, hbinary⟩ := h.of_binary
      rw [Expression.carry, hop]
      exact (hr hright).inFront hown (fun he => hbinary hright.settled_left he) (Nat.le_refl _)
        (by cases own <;> decide)
  | negation e ih =>
      obtain ⟨_, he⟩ := h.of_negation
      have hunary : Rank.unary ≠ .joined := by decide
      exact (ih he).inFront hunary .negation (Nat.le_refl _) (by decide)
  | _ => exact hnext

theorem joins_settled {e : Expression} (h : e.joins = []) : e.settled.joins = [] := by
  induction e with
  | binary op l r _ _ => exact (List.append_eq_nil_iff.1 h).1
  | negation e ih => exact ih h
  | _ => exact h

theorem joins_carry {e next : Expression} (h : e.joins = []) (hnext : next.joins = []) :
    (e.carry next).joins = [] := by
  induction e with
  | binary op l r _ hr =>
      obtain ⟨_, hrj⟩ := List.append_eq_nil_iff.1 h
      refine joins_inFront (fun e he => ?_) (hr hrj)
      rw [joins, joins_settled hrj, he, List.append_nil]
  | negation e ih =>
      have hwrap : ∀ e : Expression, e.joins = [] → (negation e).joins = [] := fun _ he => he
      exact joins_inFront hwrap (ih h)
  | _ => exact hnext

theorem Derives.value_of_joins {leading : Bool} {rank : Rank} {e : Expression}
    (h : Derives leading rank e) (hjoins : e.joins = []) : ∃ x, e.value = .ok x := by
  rcases h.decided with ⟨x, hx, _⟩ | ⟨fault, _, before, q, after, hsplit, _, _⟩
  · exact ⟨x, hx⟩
  · rw [hjoins] at hsplit
    exact absurd hsplit.symm (List.append_ne_nil_of_right_ne_nil _ (List.cons_ne_nil _ _))

theorem IsArgument.carry {e next : Expression} (h : e.IsArgument) (hnext : next.IsArgument) :
    (e.carry next).IsArgument :=
  ⟨h.1.carry hnext.1, joins_carry h.2 hnext.2⟩

theorem length_regroupFrom (e : Expression) (rest : List Expression) :
    (regroupFrom e rest).length = rest.length + 1 := by
  induction rest generalizing e with
  | nil => rfl
  | cons next rest ih => rw [regroupFrom, List.length_cons, ih, List.length_cons]

/-! ### Where regrouping changes nothing -/

theorem sizeOf_settled_le (e : Expression) : sizeOf e.settled ≤ sizeOf e := by
  induction e with
  | binary op l r _ _ => simp only [settled, binary.sizeOf_spec]; omega
  | negation e ih => simp only [settled, negation.sizeOf_spec]; omega
  | _ => exact Nat.le_refl _

theorem IsArgument.settled_eq_iff {e : Expression} (h : e.IsArgument) :
    e.settled = e ↔ ∃ x, e = .number x := by
  constructor
  · intro hsettled
    cases e with
    | number x => exact ⟨x, rfl⟩
    | group e => exact absurd h.1 (not_derives_group _ e)
    | negation e =>
        have hsize := congrArg sizeOf hsettled
        have hle := sizeOf_settled_le e
        simp only [Expression.settled, negation.sizeOf_spec] at hsize
        omega
    | binary op l r =>
        have hsize := congrArg sizeOf hsettled
        simp only [Expression.settled, binary.sizeOf_spec] at hsize
        omega
    | join l r => exact absurd h.2 (by simp [joins])
  · rintro ⟨x, rfl⟩
    rfl

theorem regroup_eq_self_iff {es : List Expression} (h : ∀ e ∈ es, e.IsArgument) :
    regroup es = es ↔ ∀ e ∈ es.dropLast, ∃ x, e = .number x := by
  cases es with
  | nil => simp [regroup]
  | cons e rest =>
      rw [regroup]
      induction rest generalizing e with
      | nil => simp [regroupFrom]
      | cons next rest ih =>
          have he := h e List.mem_cons_self
          have hrest : ∀ e ∈ next :: rest, e.IsArgument :=
            fun e he => h e (List.mem_cons_of_mem _ he)
          rw [regroupFrom, List.cons_eq_cons, he.settled_eq_iff, List.dropLast_cons_of_ne_nil
            (List.cons_ne_nil _ _), List.forall_mem_cons, ← ih next hrest]
          constructor
          · rintro ⟨⟨x, rfl⟩, hregroup⟩
            exact ⟨⟨x, rfl⟩, hregroup⟩
          · rintro ⟨⟨x, rfl⟩, hregroup⟩
            exact ⟨⟨x, rfl⟩, hregroup⟩

end Expression

end Reckoner
