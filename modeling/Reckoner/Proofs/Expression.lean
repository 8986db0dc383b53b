import Reckoner.Operator
import Reckoner.Arithmetic

/-!
Expressions and their precedence grammar. An expression is a tree over doubles; `flatten` writes it
as a token stream without a terminator and `value` evaluates it bottom-up, left to right. The grammar
has five binding ranks: sums and products to the left, powers to the right, negation in front, and
joining of a number to the left. A group stands only where the first number of a whole expression
could stand. A derived expression has a value unless one of its joinings fails, and then its fault
is that of the first failing joining in post-order.
-/

namespace Reckoner

inductive Expression where
  | number (x : Float)
  | group (inner : Expression)
  | negation (operand : Expression)
  | binary (op : Arithmetic) (left right : Expression)
  | join (left right : Expression)

namespace Expression

def flatten : Expression → List Token
  | number x => [.number x]
  | group e =>
    .operator (.control .openBracket) :: (e.flatten ++ [.operator (.control .closeBracket)])
  | negation e => .operator (.arithmetic .negate) :: e.flatten
  | binary op l r => l.flatten ++ .operator (.arithmetic op) :: r.flatten
  | join l r => l.flatten ++ .operator (.control .join) :: r.flatten

/-- The value of an expression: operands first, the left one before the right one. -/
def value : Expression → Except Fault Float
  | number x => .ok x
  | group e => e.value
  | negation e => e.value >>= fun a => Arithmetic.negate.apply [a]
  | binary op l r => l.value >>= fun a => r.value >>= fun b => op.apply [a, b]
  | join l r => l.value >>= fun a => r.value >>= fun b => joined a b

/-- The operands of the joinings of an expression, in post-order. -/
def joins : Expression → List (Expression × Expression)
  | number _ => []
  | group e => e.joins
  | negation e => e.joins
  | binary _ l r => l.joins ++ r.joins
  | join l r => l.joins ++ r.joins ++ [(l, r)]

/-- The binding ranks of the grammar, the loosest first. -/
inductive Rank where
  | sum
  | product
  | power
  | unary
  | joined
  deriving DecidableEq, Repr

/-- An operator of a rank; all operators of one rank bind alike. -/
def Rank.operator : Rank → Operator
  | sum => Arithmetic.add.operator
  | product => Arithmetic.mul.operator
  | power => Arithmetic.pow.operator
  | unary => Arithmetic.negate.operator
  | joined => Control.join.operator

/-- The expressions of a rank. Those that are `leading` start a whole expression, so that a group
may stand for their first number. -/
inductive Derives : (leading : Bool) → Rank → Expression → Prop where
  | sum {leading : Bool} {op : Arithmetic} {l r : Expression} (hop : op = .add ∨ op = .sub)
      (hl : Derives leading .sum l) (hr : Derives false .product r) :
      Derives leading .sum (.binary op l r)
  | ofProduct {leading : Bool} {e : Expression} (h : Derives leading .product e) :
      Derives leading .sum e
  | product {leading : Bool} {op : Arithmetic} {l r : Expression} (hop : op = .mul ∨ op = .div)
      (hl : Derives leading .product l) (hr : Derives false .power r) :
      Derives leading .product (.binary op l r)
  | ofPower {leading : Bool} {e : Expression} (h : Derives leading .power e) :
      Derives leading .product e
  | power {leading : Bool} {l r : Expression} (hl : Derives leading .unary l)
      (hr : Derives false .power r) : Derives leading .power (.binary .pow l r)
  | ofUnary {leading : Bool} {e : Expression} (h : Derives leading .unary e) :
      Derives leading .power e
  | negation {leading : Bool} {e : Expression} (h : Derives false .unary e) :
      Derives leading .unary (.negation e)
  | ofJoined {leading : Bool} {e : Expression} (h : Derives leading .joined e) :
      Derives leading .unary e
  | join {leading : Bool} {l : Expression} (x : Float) (hl : Derives leading .joined l) :
      Derives leading .joined (.join l (.number x))
  | number {leading : Bool} (x : Float) : Derives leading .joined (.number x)
  | group {e : Expression} (h : Derives true .sum e) : Derives true .joined (.group e)

/-! ### Values and failures -/

def JoinSucceeds (operands : Expression × Expression) : Prop :=
  ∃ x, (join operands.1 operands.2).value = .ok x

/-- Both operands have a value, but one of the two is negative. -/
def JoinFails (operands : Expression × Expression) (fault : Fault) : Prop :=
  ∃ a b, operands.1.value = .ok a ∧ operands.2.value = .ok b ∧ lesser a b < 0 ∧
    fault = .negativeJoin a b

/-- The fault is that of the first joining in post-order that fails. -/
def FirstJoinFailure (e : Expression) (fault : Fault) : Prop :=
  ∃ before operands after, e.joins = before ++ operands :: after ∧
    (∀ q ∈ before, JoinSucceeds q) ∧ JoinFails operands fault

/-- An expression has a value and all its joinings succeed, or it has the fault of the first one that
fails. -/
def Decided (e : Expression) : Prop :=
  (∃ x, e.value = .ok x ∧ ∀ q ∈ e.joins, JoinSucceeds q) ∨
    ∃ fault, e.value = .error fault ∧ FirstJoinFailure e fault

theorem apply_pair {op : Arithmetic} (h : op ≠ .negate) (a b : Float) :
    ∃ x, op.apply [a, b] = .ok x := by
  cases op with
  | negate => exact absurd rfl h
  | _ => exact ⟨_, rfl⟩

/-- The first failure among the joinings of a left and then a right operand. -/
theorem decided_operands {l r : Expression} (hl : Decided l) (hr : Decided r) :
    (∃ a b, l.value = .ok a ∧ r.value = .ok b ∧ ∀ q ∈ l.joins ++ r.joins, JoinSucceeds q) ∨
    ∃ fault, (∀ f : Float → Float → Except Fault Float,
        (l.value >>= fun a => r.value >>= fun b => f a b) = .error fault) ∧
      ∃ before operands after, l.joins ++ r.joins = before ++ operands :: after ∧
        (∀ q ∈ before, JoinSucceeds q) ∧ JoinFails operands fault := by
  rcases hl with ⟨a, hla, hlj⟩ | ⟨fault, hle, before, q, after, hjoins, hbefore, hfails⟩
  · rcases hr with ⟨b, hrb, hrj⟩ | ⟨fault, hre, before, q, after, hjoins, hbefore, hfails⟩
    · refine Or.inl ⟨a, b, hla, hrb, fun q hq => ?_⟩
      rcases List.mem_append.1 hq with hq | hq
      · exact hlj q hq
      · exact hrj q hq
    · refine Or.inr ⟨fault, fun f => by rw [hla, hre]; rfl, l.joins ++ before, q, after, ?_, ?_,
        hfails⟩
      · rw [hjoins, List.append_assoc]
      · intro p hp
        rcases List.mem_append.1 hp with hp | hp
        · exact hlj p hp
        · exact hbefore p hp
  · refine Or.inr ⟨fault, fun f => by rw [hle]; rfl, before, q, after ++ r.joins, ?_, hbefore,
      hfails⟩
    rw [hjoins, List.append_assoc, List.cons_append]

theorem decided_binary {op : Arithmetic} (h : op ≠ .negate) {l r : Expression} (hl : Decided l)
    (hr : Decided r) : Decided (.binary op l r) := by
  rcases decided_operands hl hr with ⟨a, b, hla, hrb, hjoins⟩ | ⟨fault, hfault, hfirst⟩
  · obtain ⟨x, hx⟩ := apply_pair h a b
    refine Or.inl ⟨x, ?_, hjoins⟩
    rw [value, hla, hrb]
    exact hx
  · exact Or.inr ⟨fault, hfault fun a b => op.apply [a, b], hfirst⟩

theorem decided_join {l r : Expression} (hl : Decided l) (hr : Decided r) :
    Decided (.join l r) := by
  rcases decided_operands hl hr with ⟨a, b, hla, hrb, hjoins⟩ | ⟨fault, hfault, hfirst⟩
  · have hvalue : (join l r).value = joined a b := by rw [value, hla, hrb]; rfl
    by_cases hneg : lesser a b < 0
    · rw [joined, if_pos hneg] at hvalue
      exact Or.inr ⟨_, hvalue, l.joins ++ r.joins, (l, r), [], rfl, hjoins, a, b, hla, hrb, hneg,
        rfl⟩
    · rw [joined, if_neg hneg] at hvalue
      refine Or.inl ⟨_, hvalue, fun q hq => ?_⟩
      rcases List.mem_append.1 hq with hq | hq
      · exact hjoins q hq
      · rw [List.mem_singleton.1 hq]
        exact ⟨_, hvalue⟩
  · obtain ⟨before, q, after, hsplit, hbefore, hfails⟩ := hfirst
    refine Or.inr ⟨fault, hfault joined, before, q, after ++ [(l, r)], ?_, hbefore, hfails⟩
    rw [joins, hsplit, List.append_assoc, List.cons_append]

theorem decided_negation {e : Expression} (h : Decided e) : Decided (.negation e) := by
  rcases h with ⟨x, hx, hjoins⟩ | ⟨fault, hfault, hfirst⟩
  · exact Or.inl ⟨-x, by rw [value, hx]; rfl, hjoins⟩
  · exact Or.inr ⟨fault, by rw [value, hfault]; rfl, hfirst⟩

/-- Only a joining can keep a derived expression from having a value. -/
theorem Derives.decided {leading : Bool} {rank : Rank} {e : Expression}
    (h : Derives leading rank e) : Decided e := by
  induction h with
  | sum hop _ _ hl hr => exact decided_binary (by rcases hop with rfl | rfl <;> decide) hl hr
  | product hop _ _ hl hr => exact decided_binary (by rcases hop with rfl | rfl <;> decide) hl hr
  | power _ _ hl hr => exact decided_binary (by decide) hl hr
  | negation _ h => exact decided_negation h
  | join x _ hl => exact decided_join hl (Or.inl ⟨x, rfl, fun _ hq => absurd hq List.not_mem_nil⟩)
  | number x => exact Or.inl ⟨x, rfl, fun _ hq => absurd hq List.not_mem_nil⟩
  | group _ h => exact h
  | ofProduct _ h => exact h
  | ofPower _ h => exact h
  | ofUnary _ h => exact h
  | ofJoined _ h => exact h

end Expression

end Reckoner
