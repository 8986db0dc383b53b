import Reckoner.Registry

/-!
How tight a kind binds. Only the arity of a call is looked up in the table: precedence and
associativity belong to the kind, so whether an operator read later makes a pending one reduce is
decided by the two kinds alone. An operator leaves below itself only what it does not unwind; so
what a later one takes from the top is all that it unwinds (`takeWhile_eq_filter`).
-/

namespace Reckoner

namespace Kind

def precedence : Kind → Nat
  | arithmetic op => op.operator.precedence
  | control marker => marker.operator.precedence
  | callStart _ => 1
  | callEnd => 7
  | comma => 7

def associativity : Kind → Associativity
  | arithmetic op => op.operator.associativity
  | control marker => marker.operator.associativity
  | _ => .left

/-- The pending kind is weaker than nothing that comes: it binds tighter than the incoming one, or
equally tight and to the left. -/
def unwinds (incoming pending : Kind) : Bool :=
  incoming.precedence < pending.precedence ||
    incoming.precedence == pending.precedence && pending.associativity == .left

/-- Markers that only stand between operators: the comma and the end of a call. -/
def isBarrier : Kind → Bool
  | callEnd => true
  | comma => true
  | _ => false

/-- Markers that make all pending operators reduce that give a value: the end of an expression and
the brackets. -/
def isFlush : Kind → Bool
  | control .join => false
  | control _ => true
  | _ => false

/-- Barriers and flushes, the kinds that give no value. -/
def isMarker (k : Kind) : Bool := k.isBarrier || k.isFlush

theorem precedence_lt {k : Kind} (h : k.isBarrier = false) : k.precedence < 7 := by
  cases k with
  | arithmetic op => cases op <;> decide
  | control marker => cases marker <;> decide
  | callStart name => exact (by decide : 1 < 7)
  | callEnd => cases h
  | comma => cases h

/-- Whoever leaves a pending operator below itself is unwound by all that unwinds the lower one: on a tie
the lower one associates to the left, and the upper one binds tighter because it left it pending. -/
theorem unwinds_of_not_unwinds {k upper lower : Kind} (h : upper.unwinds lower = false)
    (hk : k.unwinds lower = true) : k.unwinds upper = true := by
  simp only [unwinds, Bool.or_eq_true, Bool.and_eq_true, decide_eq_true_eq, beq_iff_eq,
    Bool.or_eq_false_iff, Bool.and_eq_false_iff, decide_eq_false_iff_not,
    beq_eq_false_iff_ne] at h hk ⊢
  obtain ⟨hle, hties⟩ := h
  rcases hk with hlt | ⟨heq, hleft⟩
  · exact Or.inl (by omega)
  · rcases hties with hne | hright
    · exact Or.inl (by omega)
    · exact absurd hleft hright

/-- What binds no tighter than a call unwinds all that gives a value. -/
theorem unwinds_of_precedence_le {k l : Kind} (hk : k.precedence ≤ 1) (hl : l.isMarker = false) :
    k.unwinds l = true := by
  have htight : 1 < l.precedence ∨ l.precedence = 1 ∧ l.associativity = .left := by
    cases l with
    | arithmetic op => cases op <;> decide
    | control marker =>
        cases marker with
        | join => decide
        | _ => cases hl
    | callStart name => exact Or.inr ⟨rfl, rfl⟩
    | callEnd => cases hl
    | comma => cases hl
  simp only [unwinds, Bool.or_eq_true, Bool.and_eq_true, decide_eq_true_eq, beq_iff_eq]
  rcases htight with hlt | ⟨heq, hleft⟩
  · exact Or.inl (by omega)
  · rcases Nat.lt_or_eq_of_le hk with hlt | hone
    · exact Or.inl (by omega)
    · exact Or.inr ⟨by omega, hleft⟩

theorem precedence_le_of_isFlush {k : Kind} (h : k.isFlush = true) : k.precedence ≤ 1 := by
  cases k with
  | control marker =>
      cases marker with
      | join => cases h
      | _ => decide
  | _ => cases h

theorem unwinds_eq_false_of_isBarrier {k l : Kind} (hk : k.isBarrier = true)
    (hl : l.isBarrier = false) : k.unwinds l = false := by
  have hlt := precedence_lt hl
  have hprec : k.precedence = 7 := by
    cases k with
    | callEnd => rfl
    | comma => rfl
    | _ => cases hk
  simp only [unwinds, Bool.or_eq_false_iff, Bool.and_eq_false_iff, decide_eq_false_iff_not,
    beq_eq_false_iff_ne]
  omega

variable {ι : Type} {options : Options} {table : FunctionTable ι}

theorem operator_unwinds {k l : Kind} {op pending : Operator}
    (hop : op.precedence = k.precedence)
    (hpending : pending.precedence = l.precedence ∧ pending.associativity = l.associativity) :
    op.unwinds pending = k.unwinds l := by
  rw [Operator.unwinds, unwinds, hop, hpending.1, hpending.2]

/-- How many values a kind takes, unless it depends on the table. -/
def arity? : Kind → Option Nat
  | arithmetic op => some op.operator.arity
  | control marker => some marker.operator.arity
  | callStart _ => none
  | callEnd => some 0
  | comma => some 0

theorem arity_of_isMarker {k : Kind} (h : k.isMarker = true) : k.arity? = some 0 := by
  cases k with
  | control marker =>
      cases marker with
      | join => cases h
      | _ => rfl
  | callEnd => rfl
  | comma => rfl
  | _ => cases h

/-- An operator that a look-up of the kind may find. -/
structure Suits (k : Kind) (op : Operator) : Prop where
  precedence : op.precedence = k.precedence
  associativity : op.associativity = k.associativity
  arity : ∀ n, k.arity? = some n → op.arity = n

/-- Looking a kind up finds an operator that suits it. -/
theorem suits_of_lookup {k : Kind} {op : Operator} (h : k.lookup options table = .ok op) :
    k.Suits op := by
  cases k with
  | arithmetic op' =>
      rw [← Except.ok.inj h]
      exact ⟨rfl, rfl, fun n hn => Option.some.inj hn⟩
  | control marker =>
      cases marker with
      | join =>
          rw [lookup] at h
          split at h
          · rw [← Except.ok.inj h]
            exact ⟨rfl, rfl, fun n hn => Option.some.inj hn⟩
          · cases h
      | _ =>
          rw [← Except.ok.inj h]
          exact ⟨rfl, rfl, fun n hn => Option.some.inj hn⟩
  | callStart name =>
      rw [lookup] at h
      cases hget : table.get name with
      | error fault => rw [hget] at h; cases h
      | ok d =>
          rw [hget] at h
          rw [← Except.ok.inj h]
          exact ⟨rfl, rfl, fun n hn => by cases hn⟩
  | callEnd =>
      rw [← Except.ok.inj h]
      exact ⟨rfl, rfl, fun n hn => Option.some.inj hn⟩
  | comma =>
      rw [← Except.ok.inj h]
      exact ⟨rfl, rfl, fun n hn => Option.some.inj hn⟩

theorem binding_of_lookup {k : Kind} {op : Operator} (h : k.lookup options table = .ok op) :
    op.precedence = k.precedence ∧ op.associativity = k.associativity :=
  ⟨(suits_of_lookup h).precedence, (suits_of_lookup h).associativity⟩

theorem Suits.unwinds {k l : Kind} {op pending : Operator} (h : k.Suits op) (hl : l.Suits pending) :
    op.unwinds pending = k.unwinds l :=
  operator_unwinds h.precedence ⟨hl.precedence, hl.associativity⟩

end Kind

namespace FunctionTable

variable {ι : Type} {table : FunctionTable ι} {name : String} {d : Definition ι}

theorem get_of_find_none (h : table.find? name = none) :
    table.get name = .error (.unknownFunction name) := by
  rw [get, h]

theorem get_eq_error {fault : Fault} (h : table.get name = .error fault) :
    table.find? name = none ∧ fault = .unknownFunction name := by
  cases hfind : table.find? name with
  | none =>
      rw [get_of_find_none hfind] at h
      exact ⟨rfl, (Except.error.inj h).symm⟩
  | some d =>
      rw [get, hfind] at h
      cases h

theorem find_of_get (h : table.get name = .ok d) : table.find? name = some d := by
  rw [get] at h
  split at h
  · rename_i hfind
    rw [hfind, Except.ok.inj h]
  · cases h

/-- What a table finds is in it. -/
theorem mem_of_get (h : table.get name = .ok d) : d ∈ table.toList :=
  List.mem_of_find?_eq_some (find_of_get h)

theorem name_of_get (h : table.get name = .ok d) : d.name = name := by
  have hname : (d.name == name) = true :=
    List.find?_some (p := fun d : Definition ι => d.name == name) (find_of_get h)
  exact beq_iff_eq.1 hname

end FunctionTable

/-- In a list where what satisfies `p` is followed up by all before it, taking while `p` holds is
choosing what satisfies it. -/
theorem takeWhile_eq_filter {α : Type} {p : α → Bool} {xs : List α}
    (h : xs.Pairwise fun upper lower => p lower = true → p upper = true) :
    xs.takeWhile p = xs.filter p ∧ xs.dropWhile p = xs.filter fun x => !p x := by
  induction xs with
  | nil => exact ⟨rfl, rfl⟩
  | cons x xs ih =>
      obtain ⟨hx, hxs⟩ := List.pairwise_cons.1 h
      obtain ⟨htake, hdrop⟩ := ih hxs
      cases hp : p x with
      | true => simp [hp, htake, hdrop]
      | false =>
          have hnone : ∀ y ∈ xs, p y = false := by
            intro y hy
            rw [← Bool.not_eq_true]
            intro hpy
            rw [hx y hy hpy] at hp
            cases hp
          have hall : xs.filter (fun y => !p y) = xs :=
            List.filter_eq_self.2 fun y hy => by rw [hnone y hy]; rfl
          have hnil : xs.filter p = [] := List.filter_eq_nil_iff.2 fun y hy => by simp [hnone y hy]
          simp [hp, hall, hnil]

end Reckoner
