import Reckoner.Proofs.CallOrder
import Reckoner.Proofs.Unterminated

/-!
The tiers of what is pending. An operator joins the pending ones when it unwinds none of them, so
that from the bottom up precedences never fall, and stay the same only where the lower operator
associates to the right. Of all precedences only those of powers and of negations do. Pending
operators therefore lie in eight tiers (`Tiers`), of which six hold one operator at most, and the
end of an expression, which unwinds whatever is there, lies alone.
-/

namespace Reckoner

/-! ### Kinds by their precedence -/

namespace Kind

/-- A bracket or the start of a call. -/
def IsOpening (k : Kind) : Prop :=
  k = .control .openBracket ∨ k = .control .closeBracket ∨ ∃ name, k = .callStart name

def IsSum (k : Kind) : Prop := k = .arithmetic .add ∨ k = .arithmetic .sub

def IsProduct (k : Kind) : Prop := k = .arithmetic .mul ∨ k = .arithmetic .div

/-- The end of a call or a comma. -/
def IsSeparator (k : Kind) : Prop := k = .callEnd ∨ k = .comma

/-- What the kinds of a precedence are. -/
def OfPrecedence (k : Kind) : Nat → Prop
  | 0 => k = .control .endExpr
  | 1 => k.IsOpening
  | 2 => k.IsSum
  | 3 => k.IsProduct
  | 4 => k = .arithmetic .pow
  | 5 => k = .arithmetic .negate
  | 6 => k = .control .join
  | 7 => k.IsSeparator
  | _ => False

theorem ofPrecedence (k : Kind) : k.OfPrecedence k.precedence := by
  cases k with
  | arithmetic op =>
      cases op with
      | add => exact Or.inl rfl
      | sub => exact Or.inr rfl
      | mul => exact Or.inl rfl
      | div => exact Or.inr rfl
      | pow => rfl
      | negate => rfl
  | control marker =>
      cases marker with
      | endExpr => rfl
      | openBracket => exact Or.inl rfl
      | closeBracket => exact Or.inr (Or.inl rfl)
      | join => rfl
  | callStart name => exact Or.inr (Or.inr ⟨name, rfl⟩)
  | callEnd => exact Or.inl rfl
  | comma => exact Or.inr rfl

theorem precedence_lt_eight (k : Kind) : k.precedence < 8 := by
  cases hbarrier : k.isBarrier with
  | false => exact Nat.lt_succ_of_lt (precedence_lt hbarrier)
  | true =>
      cases k with
      | callEnd => exact Nat.lt_succ_self 7
      | comma => exact Nat.lt_succ_self 7
      | _ => cases hbarrier

/-- Only powers and negations associate to the right. -/
theorem precedence_of_right {k : Kind} (h : k.associativity = .right) :
    k.precedence = 4 ∨ k.precedence = 5 := by
  cases k with
  | arithmetic op =>
      cases op with
      | pow => exact Or.inl rfl
      | negate => exact Or.inr rfl
      | _ => cases h
  | control marker => cases marker <;> cases h
  | _ => cases h

/-- The end of an expression unwinds whatever is pending. -/
theorem endExpr_unwinds (k : Kind) : (control .endExpr).unwinds k = true := by
  cases k with
  | arithmetic op => cases op <;> rfl
  | control marker => cases marker <;> rfl
  | _ => rfl

/-- Leaving a pending operator alone is binding tighter, or equally tight where the pending one
associates to the right. -/
theorem unwinds_eq_false_iff {upper lower : Kind} :
    upper.unwinds lower = false ↔ lower.precedence ≤ upper.precedence ∧
      (lower.precedence = upper.precedence → lower.associativity = .right) := by
  have hside : lower.associativity ≠ .left ↔ lower.associativity = .right := by
    cases lower.associativity <;> simp
  rw [← hside]
  simp only [unwinds, Bool.or_eq_false_iff, Bool.and_eq_false_iff, decide_eq_false_iff_not,
    beq_eq_false_iff_ne, Nat.not_lt, ne_eq]
  constructor
  · rintro ⟨hle, hties⟩
    exact ⟨hle, fun heq => hties.resolve_left fun hne => hne heq.symm⟩
  · rintro ⟨hle, hties⟩
    refine ⟨hle, ?_⟩
    by_cases heq : upper.precedence = lower.precedence
    · exact Or.inr (hties heq.symm)
    · exact Or.inl heq

end Kind

/-! ### Tiers -/

/-- Pending kinds in their tiers, from the bottom up. -/
structure Tiers where
  ending : Option {k : Kind // k = .control .endExpr}
  opening : Option {k : Kind // k.IsOpening}
  sum : Option {k : Kind // k.IsSum}
  product : Option {k : Kind // k.IsProduct}
  powers : Nat
  negations : Nat
  joining : Option {k : Kind // k = .control .join}
  separator : Option {k : Kind // k.IsSeparator}

namespace Tiers

/-- The kind in a tier that holds one at most. -/
def single {P : Kind → Prop} (tier : Option {k : Kind // P k}) : List Kind :=
  tier.toList.map Subtype.val

def kinds (tiers : Tiers) : List Kind :=
  single tiers.ending ++ single tiers.opening ++ single tiers.sum ++ single tiers.product ++
    List.replicate tiers.powers (.arithmetic .pow) ++
    List.replicate tiers.negations (.arithmetic .negate) ++
    single tiers.joining ++ single tiers.separator

theorem length_single_le {P : Kind → Prop} (tier : Option {k : Kind // P k}) :
    (single tier).length ≤ 1 := by
  cases tier with
  | none => exact Nat.zero_le 1
  | some k => exact Nat.le_refl 1

theorem exists_single {P : Kind → Prop} {ks : List Kind} (hlen : ks.length ≤ 1)
    (hks : ∀ k ∈ ks, P k) : ∃ tier : Option {k : Kind // P k}, single tier = ks := by
  match ks with
  | [] => exact ⟨none, rfl⟩
  | [k] => exact ⟨some ⟨k, hks k List.mem_cons_self⟩, rfl⟩
  | _ :: _ :: _ => simp at hlen

/-- Six tiers hold one operator at most. -/
theorem length_kinds_le (tiers : Tiers) :
    tiers.kinds.length ≤ tiers.powers + tiers.negations + 6 := by
  have hending := length_single_le tiers.ending
  have hopening := length_single_le tiers.opening
  have hsum := length_single_le tiers.sum
  have hproduct := length_single_le tiers.product
  have hjoining := length_single_le tiers.joining
  have hseparator := length_single_le tiers.separator
  simp only [kinds, List.length_append, List.length_replicate]
  omega

end Tiers

/-- A kind of which any number may be pending. -/
def Kind.stacks (k : Kind) : Bool := k == .arithmetic .pow || k == .arithmetic .negate

theorem Tiers.le_countP_kinds (tiers : Tiers) :
    tiers.powers + tiers.negations ≤ tiers.kinds.countP Kind.stacks := by
  have hpowers : (List.replicate tiers.powers (.arithmetic .pow)).countP Kind.stacks =
      tiers.powers := by
    rw [List.countP_replicate]
    rfl
  have hnegations : (List.replicate tiers.negations (.arithmetic .negate)).countP Kind.stacks =
      tiers.negations := by
    rw [List.countP_replicate]
    rfl
  simp only [kinds, List.countP_append, hpowers, hnegations]
  omega

/-- What is in the order of a measure below `n` lies in `n` tiers, one for each value of it. -/
theorem flatMap_filter_eq {α : Type} {f : α → Nat} {xs : List α} {n : Nat}
    (hsorted : xs.Pairwise fun a b => f a ≤ f b) (hlt : ∀ x ∈ xs, f x < n) :
    ((List.range n).flatMap fun i => xs.filter fun x => f x == i) = xs := by
  induction n generalizing xs with
  | zero => exact (List.eq_nil_iff_forall_not_mem.2 fun x hx => Nat.not_lt_zero _ (hlt x hx)).symm
  | succ n ih =>
      have hcut : xs.Pairwise fun a b => decide (f b < n) = true → decide (f a < n) = true :=
        hsorted.imp fun hle hlow => by
          rw [decide_eq_true_eq] at hlow ⊢
          exact Nat.lt_of_le_of_lt hle hlow
      obtain ⟨htake, hdrop⟩ := takeWhile_eq_filter hcut
      have hlow := ih (hsorted.filter fun x => decide (f x < n)) fun x hx =>
        of_decide_eq_true (List.mem_filter.1 hx).2
      have hbelow : ∀ i ∈ List.range n, (xs.filter fun x => decide (f x < n)).filter
          (fun x => f x == i) = xs.filter fun x => f x == i := by
        intro i hi
        have hi := List.mem_range.1 hi
        rw [List.filter_filter]
        refine List.filter_congr fun x _ => ?_
        rw [Bool.eq_iff_iff, Bool.and_eq_true, beq_iff_eq, decide_eq_true_eq]
        exact ⟨fun h => h.1, fun h => ⟨h, h ▸ hi⟩⟩
      have htop : xs.filter (fun x => f x == n) = xs.filter fun x => !decide (f x < n) := by
        refine List.filter_congr fun x hx => ?_
        have hx := hlt x hx
        rw [Bool.eq_iff_iff, beq_iff_eq, Bool.not_eq_true', decide_eq_false_iff_not]
        omega
      rw [List.range_succ, List.flatMap_append, List.flatMap_singleton, htop,
        List.flatMap_congr hbelow |>.symm, hlow, ← htake, ← hdrop, List.takeWhile_append_dropWhile]

/-! ### What is pending lies in tiers -/

namespace Kind

def tier (ks : List Kind) (i : Nat) : List Kind := ks.filter fun k => k.precedence == i

theorem precedence_of_mem_tier {ks : List Kind} {i : Nat} {k : Kind} (h : k ∈ tier ks i) :
    k.precedence = i := beq_iff_eq.1 (List.mem_filter.1 h).2

theorem ofPrecedence_of_mem_tier {ks : List Kind} {i : Nat} {k : Kind} (h : k ∈ tier ks i) :
    k.OfPrecedence i := precedence_of_mem_tier h ▸ k.ofPrecedence

/-- Where operators do not associate to the right, there is one at most. -/
theorem length_tier_le {ks : List Kind}
    (h : ks.Pairwise fun lower upper => upper.unwinds lower = false) {i : Nat}
    (hi : i ≠ 4 ∧ i ≠ 5) : (tier ks i).length ≤ 1 := by
  have htier : (tier ks i).Pairwise fun lower upper => upper.unwinds lower = false := h.filter _
  have hmem : ∀ k ∈ tier ks i, k.precedence = i := fun k => precedence_of_mem_tier
  match tier ks i, htier, hmem with
  | [], _, _ => exact Nat.zero_le 1
  | [k], _, _ => exact Nat.le_refl 1
  | lower :: upper :: rest, htier, hmem =>
      have hlower := hmem lower List.mem_cons_self
      have hupper := hmem upper (List.mem_cons_of_mem _ List.mem_cons_self)
      have hnot := (List.pairwise_cons.1 htier).1 upper List.mem_cons_self
      have hright := (unwinds_eq_false_iff.1 hnot).2 (hlower.trans hupper.symm)
      rcases precedence_of_right hright with hfour | hfive
      · exact absurd (hlower.symm.trans hfour) hi.1
      · exact absurd (hlower.symm.trans hfive) hi.2

end Kind

namespace Tiers

variable {ks : List Kind} (h : ks.Pairwise fun lower upper => upper.unwinds lower = false)

include h in
theorem exists_single_tier {P : Kind → Prop} {i : Nat} (hi : i ≠ 4 ∧ i ≠ 5)
    (hP : ∀ k : Kind, k.OfPrecedence i → P k) :
    ∃ tier : Option {k : Kind // P k}, single tier = Kind.tier ks i :=
  exists_single (Kind.length_tier_le h hi) fun k hk => hP k (Kind.ofPrecedence_of_mem_tier hk)

include h in
/-- Kinds of which none unwinds one below it lie in tiers. -/
theorem exists_kinds : ∃ tiers : Tiers, tiers.kinds = ks := by
  have hpowers : Kind.tier ks 4 = List.replicate (Kind.tier ks 4).length (.arithmetic .pow) :=
    List.eq_replicate_of_mem fun k => Kind.ofPrecedence_of_mem_tier
  have hnegations : Kind.tier ks 5 = List.replicate (Kind.tier ks 5).length (.arithmetic .negate) :=
    List.eq_replicate_of_mem fun k => Kind.ofPrecedence_of_mem_tier
  obtain ⟨ending, hending⟩ := exists_single_tier h (P := (· = .control .endExpr)) (i := 0)
    (by decide) fun _ => id
  obtain ⟨opening, hopening⟩ := exists_single_tier h (P := Kind.IsOpening) (i := 1)
    (by decide) fun _ => id
  obtain ⟨sum, hsum⟩ := exists_single_tier h (P := Kind.IsSum) (i := 2) (by decide) fun _ => id
  obtain ⟨product, hproduct⟩ := exists_single_tier h (P := Kind.IsProduct) (i := 3)
    (by decide) fun _ => id
  obtain ⟨joining, hjoining⟩ := exists_single_tier h (P := (· = .control .join)) (i := 6)
    (by decide) fun _ => id
  obtain ⟨separator, hseparator⟩ := exists_single_tier h (P := Kind.IsSeparator) (i := 7)
    (by decide) fun _ => id
  have hsorted : ks.Pairwise fun lower upper => lower.precedence ≤ upper.precedence :=
    h.imp fun hnot => (Kind.unwinds_eq_false_iff.1 hnot).1
  refine ⟨⟨ending, opening, sum, product, (Kind.tier ks 4).length, (Kind.tier ks 5).length, joining,
    separator⟩, ?_⟩
  calc
    _ = Kind.tier ks 0 ++ Kind.tier ks 1 ++ Kind.tier ks 2 ++ Kind.tier ks 3 ++ Kind.tier ks 4 ++
          Kind.tier ks 5 ++ Kind.tier ks 6 ++ Kind.tier ks 7 := by
        rw [kinds, hending, hopening, hsum, hproduct, hjoining, hseparator, ← hpowers, ← hnegations]
    _ = (List.range 8).flatMap (Kind.tier ks) := by simp [List.range_succ]
    _ = ks := flatMap_filter_eq hsorted fun k _ => k.precedence_lt_eight

end Tiers

/-- Of what waits, the end of an expression that is read last leaves nothing but itself. -/
theorem Machine.Waits.pending_of_endExpr {ks : List Kind} {m : Machine}
    (h : Waits (ks ++ [.control .endExpr]) m) :
    m.pending.map Pending.kind = [.control .endExpr] := by
  have hnone : (Kind.waiting ks).filter (fun i => !(ks[i]?).any (Kind.control .endExpr).unwinds) =
      [] := by
    refine List.filter_eq_nil_iff.2 fun i hi => ?_
    rw [List.getElem?_eq_getElem (Kind.mem_waiting.1 hi).1]
    simp [Kind.endExpr_unwinds]
  have hpositions := h.positions
  rw [Kind.waiting_snoc, hnone] at hpositions
  obtain ⟨p, hp, hposition⟩ := List.map_eq_singleton_iff.1 hpositions
  have hkind := h.kinds p (hp ▸ List.mem_singleton_self p)
  rw [hposition, List.getElem?_concat_length] at hkind
  rw [hp, List.map_singleton, Option.some.inj hkind]

namespace Reached

variable {ι : Type} {invoke : Invocation ι} {options : Options} {source : List (Step ι)}
  {table : FunctionTable ι}

/-- No pending operator unwinds one below it. -/
theorem pairwise_pending (now : Reached invoke options source table) :
    (now.moment.machine.pending.reverse.map Pending.kind).Pairwise fun lower upper =>
      upper.unwinds lower = false := by
  have hordered := now.tidy.ordered
  rw [Machine.shape, List.pairwise_map] at hordered
  rw [List.pairwise_map, List.pairwise_reverse]
  exact hordered

/-- Nothing is pending where the end of an expression joins. -/
theorem pending_of_joins_endExpr {now : Reached invoke options source table}
    (h : now.moment.Joins (.control .endExpr)) : now.moment.machine.pending = [] := by
  obtain ⟨op, hincoming, hhead⟩ := h
  have hheld : (⟨now.moment.machine.operatorsRead, .control .endExpr, op⟩ : Pending) ∈
      now.moment.held := by
    rw [Moment.held, hincoming]
    exact List.mem_cons_self
  cases hpending : now.moment.machine.pending with
  | nil => rfl
  | cons p pending =>
      rw [hpending] at hhead
      have hp : p ∈ now.moment.held := List.mem_append_right _ (hpending ▸ List.mem_cons_self)
      have hunwinds := (now.suits_of_held hheld).unwinds (now.suits_of_held hp)
      rw [hhead p rfl, Kind.endExpr_unwinds] at hunwinds
      cases hunwinds

/-- The end of an expression joins, and is all that is pending then. -/
theorem exists_joined_endExpr {now : Reached invoke options source table}
    (h : now.moment.Joins (.control .endExpr)) :
    ∃ later : Reached invoke options source table, later.time = now.time + 1 ∧
      later.moment.machine.pending.map Pending.kind = [.control .endExpr] := by
  have hnone := pending_of_joins_endExpr h
  obtain ⟨time, ⟨⟨values, pending, n⟩, incoming, rest⟩, present, trace, harrives⟩ := now
  obtain ⟨op, hincoming, _⟩ := h
  obtain rfl : pending = [] := hnone
  obtain rfl : incoming = some (.control .endExpr, op) := hincoming
  exact ⟨advance ⟨time, _, present, trace, harrives⟩ _ rfl, rfl, rfl⟩

/-- From the bottom up precedences never fall, and stay the same only where the lower operator
associates to the right. -/
theorem isChain_pending (now : Reached invoke options source table) :
    now.moment.machine.pending.reverse.IsChain fun lower upper =>
      lower.operator.precedence ≤ upper.operator.precedence ∧
      (lower.operator.precedence = upper.operator.precedence →
        lower.operator.associativity = .right) := by
  have hpairwise := now.pairwise_pending
  rw [List.pairwise_map] at hpairwise
  refine (hpairwise.imp_of_mem fun {lower upper} hlower hupper hnot => ?_).isChain
  have hsuits : ∀ p ∈ now.moment.machine.pending.reverse, p.kind.Suits p.operator := fun p hp =>
    now.suits_of_held (List.mem_append_right _ (List.mem_reverse.1 hp))
  rw [(hsuits lower hlower).precedence, (hsuits upper hupper).precedence,
    (hsuits lower hlower).associativity]
  exact Kind.unwinds_eq_false_iff.1 hnot

/-- **What is pending lies in tiers.** At every moment of a run, whatever source, implementations
and table are, precedences never fall from the bottom of the pending operators up, and two
neighbours have the same one only if the lower one associates to the right. So there lie, in this
order, at most one end of an expression, at most one bracket or start of a call, at most one sum, at
most one product, any number of powers, any number of negations, at most one join, and at most one
comma or end of a call: at most six operators besides the powers and the negations. Where the end of
an expression joins nothing is pending, and it is all that is pending then. -/
theorem pending_in_tiers (invoke : Invocation ι) (options : Options) (source : List (Step ι))
    (table : FunctionTable ι) :
    (∀ now : Reached invoke options source table,
      let pending := now.moment.machine.pending
      pending.reverse.IsChain (fun lower upper =>
        lower.operator.precedence ≤ upper.operator.precedence ∧
        (lower.operator.precedence = upper.operator.precedence →
          lower.operator.associativity = .right)) ∧
      (∃ tiers : Tiers, pending.reverse.map Pending.kind = tiers.kinds) ∧
      pending.length ≤ pending.countP (fun p => p.kind.stacks) + 6 ∧
      (now.moment.Joins (.control .endExpr) → pending = [] ∧
        ∃ later : Reached invoke options source table, later.time = now.time + 1 ∧
          later.moment.machine.pending.map Pending.kind = [.control .endExpr])) ∧
    ∀ m, (Machine.initial.steps invoke options source table).result = .ok m →
      source.getLast? = some (.yield (.operation (.kind (.control .endExpr)))) →
        m.pending.map Pending.kind = [.control .endExpr] := by
  refine ⟨fun now => ?_, fun m hm hend => ?_⟩
  · intro pending
    obtain ⟨tiers, htiers⟩ := Tiers.exists_kinds now.pairwise_pending
    refine ⟨now.isChain_pending, ⟨tiers, htiers.symm⟩, ?_, fun hjoins => ?_⟩
    · have hlength : pending.length = tiers.kinds.length := by
        rw [htiers, List.length_map, List.length_reverse]
      have hcount : pending.countP (fun p => p.kind.stacks) = tiers.kinds.countP Kind.stacks := by
        rw [htiers, List.countP_map, List.countP_reverse]
        rfl
      have hle := tiers.length_kinds_le
      have hstacked := tiers.le_countP_kinds
      omega
    · exact ⟨pending_of_joins_endExpr hjoins, exists_joined_endExpr hjoins⟩
  · obtain ⟨before, rfl⟩ := List.getLast?_eq_some_iff.1 hend
    have hwaits := Machine.ensures_steps_waits Machine.waits_initial _ table m hm
    rw [List.nil_append, List.filterMap_append] at hwaits
    exact hwaits.pending_of_endExpr

/-- Six operators and a negation are pending where all tiers but that of powers are taken, and the
end of the expression finds none of them when it joins. -/
theorem pending_in_tiers_full :
    let invoke := Routine.invoke ⟨true⟩ Routine.nestingLimit
    let source : List (Step Routine) := Token.source [.operator (.control .endExpr),
      .operator (.control .openBracket), .number 1, .operator (.arithmetic .add), .number 2,
      .operator (.arithmetic .mul), .operator (.arithmetic .negate), .number 3,
      .operator (.control .join), .number 4, .operator .comma, .operator (.control .endExpr)]
    (∃ full : Reached invoke ⟨true⟩ source .empty,
      full.moment.machine.pending.length = 7 ∧
      full.moment.machine.pending.countP (fun p => p.kind.stacks) = 1) ∧
    (∃ now : Reached invoke ⟨true⟩ source .empty, now.moment.Joins (.control .endExpr) ∧
      now.moment.machine.pending = []) ∧
    ∃ m, (Machine.initial.steps invoke ⟨true⟩ source .empty).result = .ok m ∧
      m.pending.map Pending.kind = [.control .endExpr] := by
  intro invoke source
  let now : Reached invoke ⟨true⟩ source .empty := ⟨26, _, _, _, rfl⟩
  have hjoins : now.moment.Joins (.control .endExpr) := ⟨_, rfl, fun p hp => by cases hp⟩
  obtain ⟨hmoments, hend⟩ := pending_in_tiers invoke ⟨true⟩ source .empty
  obtain ⟨_, _, _, hjoined⟩ := hmoments now
  refine ⟨⟨⟨18, _, _, _, rfl⟩, rfl, rfl⟩, ⟨now, hjoins, (hjoined hjoins).1⟩, ?_⟩
  let last : Reached invoke ⟨true⟩ source .empty := ⟨27, _, _, _, rfl⟩
  have hread : Machine.initial.steps invoke ⟨true⟩ source .empty =
      ⟨.ok last.moment.machine, last.present, last.trace⟩ := steps_of_final ⟨rfl, rfl⟩
  exact ⟨_, congrArg Outcome.result hread, hend _ (congrArg Outcome.result hread) rfl⟩

end Reached

end Reckoner
