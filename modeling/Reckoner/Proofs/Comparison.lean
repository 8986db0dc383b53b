import Mathlib.Data.List.Forall2
import Reckoner.Proofs.Outcome

/-!
Two computations side by side. A comparison says when two states are alike and when two traces are, which
faults of the first computation excuse the second one from everything, and which states are astray, where
the second one need not follow. Two computations are related if, from states that are alike, they leave
such states and such traces and end in related results or in one fault. This goes through sequences and
loops, so that two machines can be compared step by step. What two computations show outside is compared
by `Comparison.observing`.
-/

namespace Reckoner

/-- What is compared of two computations. -/
structure Comparison (σ τ : Type) where
  states : σ → τ → Prop
  traces : List Event → List Event → Prop
  excuses : Fault → Prop
  astray : σ → Prop
  nil : traces [] []
  append : ∀ {earlier earlier' later later' : List Event}, traces earlier earlier' →
    traces later later' → traces (earlier ++ later) (earlier' ++ later')

namespace Run

section Related

variable {σ τ α β γ δ ρ ρ' κ κ' : Type} {C : Comparison σ τ}

/-- Two endings: related results, or one fault. -/
inductive Ended (R : α → β → Prop) : Except Fault α → Except Fault β → Prop where
  | ok {a : α} {b : β} (h : R a b) : Ended R (.ok a) (.ok b)
  | error (fault : Fault) : Ended R (.error fault) (.error fault)

theorem ended_eq_iff {r r' : Except Fault α} : Ended Eq r r' ↔ r = r' := by
  constructor
  · rintro (rfl | fault) <;> rfl
  · rintro rfl
    cases r with
    | error fault => exact .error fault
    | ok a => exact .ok rfl

theorem ended_self (r : Except Fault α) : Ended (fun a b => a = b ∧ r = .ok a) r r := by
  cases r with
  | error fault => exact .error fault
  | ok a => exact .ok ⟨rfl, rfl⟩

/-- Two outcomes that are alike. -/
structure Alike (C : Comparison σ τ) (R : α → β → Prop) (one : Outcome σ α) (two : Outcome τ β) :
    Prop where
  ended : Ended R one.result two.result
  states : C.states one.state two.state
  traces : C.traces one.trace two.trace

/-- The outcome of the first computation excuses the second one from everything. -/
def Excused (C : Comparison σ τ) (one : Outcome σ α) : Prop :=
  C.astray one.state ∨ ∃ fault, one.result = .error fault ∧ C.excuses fault

/-- From states that are alike, two computations have outcomes that are, unless that of the first one
excuses the second one. Whoever is astray stays so. -/
structure Related (C : Comparison σ τ) (R : α → β → Prop) (x : Run σ α) (y : Run τ β) : Prop where
  stays : ∀ s, C.astray s → C.astray (x s).state
  alike : ∀ s t, C.states s t → Excused C (x s) ∨ Alike C R (x s) (y t)

/-- Some result is related to every result of the first computation, or nobody goes astray. -/
class Covers (C : Comparison σ τ) (R : α → β → Prop) : Prop where
  covers : ∀ a, (∃ b, R a b) ∨ ∀ s, ¬C.astray s

instance : Covers C (Eq : α → α → Prop) := ⟨fun a => Or.inl ⟨a, rfl⟩⟩

instance {R : α → β → Prop} [Covers C R] : Covers C (Ended R) where
  covers
    | .error fault => Or.inl ⟨.error fault, .error fault⟩
    | .ok a => (Covers.covers (C := C) (R := R) a).imp_left fun ⟨b, h⟩ => ⟨.ok b, .ok h⟩

theorem related_pure {R : α → β → Prop} {a : α} {b : β} (h : R a b) :
    Related C R (pure a) (pure b) :=
  ⟨fun _ hastray => hastray, fun _ _ hst => Or.inr ⟨.ok h, hst, C.nil⟩⟩

theorem related_fail {R : α → β → Prop} (fault : Fault) : Related C R (fail fault) (fail fault) :=
  ⟨fun _ hastray => hastray, fun _ _ hst => Or.inr ⟨.error fault, hst, C.nil⟩⟩

theorem related_ofExcept {R : α → β → Prop} {r : Except Fault α} {r' : Except Fault β}
    (h : Ended R r r') : Related C R (ofExcept r) (ofExcept r') := by
  cases h with
  | ok h => exact related_pure h
  | error fault => exact related_fail fault

theorem related_note {e e' : Event} (h : C.traces [e] [e']) : Related C Eq (note e) (note e') :=
  ⟨fun _ hastray => hastray, fun _ _ hst => Or.inr ⟨.ok rfl, hst, h⟩⟩

section Bind

variable {R : α → β → Prop} [Covers C R] {S : γ → δ → Prop} {x : Run σ α} {y : Run τ β}
  {f : α → Run σ γ} {g : β → Run τ δ} (hfg : ∀ a b, R a b → Related C S (f a) (g b))

include hfg in
theorem astray_bind {s : σ} (h : C.astray (x s).state) : C.astray ((x >>= f) s).state := by
  cases hx : (x s).result with
  | error fault =>
      rw [bind_of_error hx]
      exact h
  | ok a =>
      rw [bind_of_ok hx]
      rcases Covers.covers (C := C) (R := R) a with ⟨b, hab⟩ | hnever
      · exact (hfg a b hab).stays _ h
      · exact absurd h (hnever _)

include hfg in
/-- What is alike so far is alike if what follows is related. -/
theorem alike_bind {s : σ} {t : τ} (hxy : Excused C (x s) ∨ Alike C R (x s) (y t)) :
    Excused C ((x >>= f) s) ∨ Alike C S ((x >>= f) s) ((y >>= g) t) := by
  rcases hxy with (hastray | ⟨fault, hfault, hexcused⟩) | ⟨hended, hstates, htraces⟩
  · exact Or.inl (Or.inl (astray_bind hfg hastray))
  · exact Or.inl (Or.inr ⟨fault, congrArg Outcome.result (bind_of_error hfault f), hexcused⟩)
  · generalize hx : (x s).result = r, hy : (y t).result = r' at hended
    cases hended with
    | error fault =>
        rw [bind_of_error hx, bind_of_error hy]
        exact Or.inr ⟨.error fault, hstates, htraces⟩
    | @ok a b h =>
        rw [bind_of_ok hx, bind_of_ok hy]
        refine ((hfg a b h).alike _ _ hstates).imp_right fun hrest => ?_
        exact ⟨hrest.ended, hrest.states, C.append htraces hrest.traces⟩

include hfg in
theorem Related.bind (hxy : Related C R x y) : Related C S (x >>= f) (y >>= g) :=
  ⟨fun s hastray => astray_bind hfg (hxy.stays s hastray),
    fun s t hst => alike_bind hfg (hxy.alike s t hst)⟩

end Bind

/-- A loop over two lists side by side keeps what one pass of it keeps. -/
theorem related_foldlM {P : ρ → ρ' → Prop} {R : κ → κ' → Prop} [Covers C R] {f : κ → ρ → Run σ κ}
    {g : κ' → ρ' → Run τ κ'} (hfg : ∀ k k' a b, P a b → R k k' → Related C R (f k a) (g k' b))
    {xs : List ρ} {ys : List ρ'} (hxs : List.Forall₂ P xs ys) {k : κ} {k' : κ'} (h : R k k') :
    Related C R (xs.foldlM f k) (ys.foldlM g k') := by
  induction hxs generalizing k k' with
  | nil => exact related_pure h
  | cons hab _ ih =>
      rw [List.foldlM_cons, List.foldlM_cons]
      exact (hfg k k' _ _ hab h).bind fun l l' h' => ih h'

/-- A loop over one list is one over two lists that are the same. -/
theorem related_foldlM_self {R : κ → κ' → Prop} [Covers C R] {f : κ → ρ → Run σ κ} {g : κ' → ρ → Run τ κ'}
    (hfg : ∀ k k' a, R k k' → Related C R (f k a) (g k' a)) (xs : List ρ) {k : κ} {k' : κ'}
    (h : R k k') : Related C R (xs.foldlM f k) (xs.foldlM g k') := by
  have hsame : List.Forall₂ (fun a b : ρ => a = b) xs xs := List.forall₂_same.2 fun _ _ => rfl
  refine related_foldlM (fun l l' a b hab hl => ?_) hsame h
  rw [← hab]
  exact hfg l l' a hl

/-- What is called stands inside one event on both sides. -/
theorem related_asCall {R : α → β → Prop} {name : String} {arguments : List Float} {x : Run σ α}
    {y : Run τ β} (h : Related C R x y) (hexcuses : ∀ fault, ¬C.excuses fault)
    (hcalled : ∀ inner inner', C.traces inner inner' →
      C.traces [.called name arguments inner] [.called name arguments inner']) :
    Related C (Ended R) (asCall name arguments x) (asCall name arguments y) := by
  refine ⟨h.stays, fun s t hst => ?_⟩
  rcases h.alike s t hst with (hastray | ⟨fault, _, hexcused⟩) | ⟨hended, hstates, htraces⟩
  · exact Or.inl (Or.inl hastray)
  · exact absurd hexcused (hexcuses fault)
  · exact Or.inr ⟨.ok hended, hstates, hcalled _ _ htraces⟩

theorem related_reportingRejection {R : α → β → Prop} {x : Run σ α} {y : Run τ β}
    (h : Related C R x y)
    (hlogged : ∀ fault, C.traces [.logged (.rejected fault)] [.logged (.rejected fault)]) :
    Related C R (reportingRejection x) (reportingRejection y) := by
  refine ⟨fun s hastray => (reportingRejection_state x s).symm ▸ h.stays s hastray,
    fun s t hst => ?_⟩
  rcases h.alike s t hst with (hastray | ⟨fault, hfault, hexcused⟩) | ⟨hended, hstates, htraces⟩
  · exact Or.inl (Or.inl ((reportingRejection_state x s).symm ▸ hastray))
  · exact Or.inl (Or.inr ⟨fault, (reportingRejection_result x s).trans hfault, hexcused⟩)
  · refine Or.inr ?_
    generalize hx : (x s).result = r, hy : (y t).result = r' at hended
    cases hended with
    | ok h =>
        rw [reportingRejection_of_ok hx, reportingRejection_of_ok hy]
        exact ⟨hx ▸ hy ▸ .ok h, hstates, htraces⟩
    | error fault =>
        rw [reportingRejection_of_error hx, reportingRejection_of_error hy]
        split
        · exact ⟨.error fault, hstates, C.append htraces (hlogged fault)⟩
        · exact ⟨.error fault, hstates, htraces⟩

/-- Where traces and states are compared by equality, a computation is related to itself. -/
theorem related_self {C : Comparison σ σ} (hstates : ∀ s t, C.states s t ↔ s = t)
    (htraces : ∀ trace, C.traces trace trace) (hnever : ∀ s, ¬C.astray s) (x : Run σ α) :
    Related C Eq x x := by
  refine ⟨fun s hastray => absurd hastray (hnever s), fun s t hst => ?_⟩
  obtain rfl := (hstates s t).1 hst
  exact Or.inr ⟨ended_eq_iff.2 rfl, (hstates _ _).2 rfl, htraces _⟩

end Related

end Run

/-! ### What shows outside -/

variable {σ α β : Type}

/-- Two computations leave the same state and show the same calls and records. -/
def Comparison.observing : Comparison σ σ where
  states s t := s = t
  traces trace trace' := trace.filter Event.isObserved = trace'.filter Event.isObserved
  excuses _ := False
  astray _ := False
  nil := rfl
  append h h' := by rw [List.filter_append, List.filter_append, h, h']

namespace Run

instance (R : α → β → Prop) : Covers (Comparison.observing : Comparison σ σ) R :=
  ⟨fun _ => Or.inr fun _ hastray => hastray⟩

/-- On every state two computations show the same and end alike. -/
abbrev Agree (R : α → β → Prop) (x : Run σ α) (y : Run σ β) : Prop :=
  Related Comparison.observing R x y

theorem Agree.outcomes {R : α → β → Prop} {x : Run σ α} {y : Run σ β} (h : Agree R x y) (s : σ) :
    Alike Comparison.observing R (x s) (y s) :=
  (h.alike s s rfl).resolve_left fun hexcused => hexcused.elim id fun ⟨_, _, hfalse⟩ => hfalse

/-- Two computations show the same exactly if they agree with equal results. -/
theorem agree_eq_iff {x y : Run σ α} : Agree Eq x y ↔ x.observed = y.observed := by
  constructor
  · intro h
    funext s
    obtain ⟨hended, hstates, htraces⟩ := Agree.outcomes h s
    have hstate : (x s).state = (y s).state := hstates
    have htrace : (x s).trace.filter Event.isObserved = (y s).trace.filter Event.isObserved := htraces
    calc
      x.observed s = ⟨(x s).result, (x s).state, (x s).trace.filter Event.isObserved⟩ := rfl
      _ = ⟨(y s).result, (y s).state, (y s).trace.filter Event.isObserved⟩ := by
        rw [ended_eq_iff.1 hended, hstate, htrace]
  · refine fun h => ⟨fun _ hastray => hastray.elim, ?_⟩
    rintro s t rfl
    have hresult : (x.observed s).result = (y.observed s).result := by rw [h]
    have hstate : (x.observed s).state = (y.observed s).state := by rw [h]
    have htrace : (x.observed s).trace = (y.observed s).trace := by rw [h]
    exact Or.inr ⟨ended_eq_iff.2 hresult, hstate, htrace⟩

theorem agree_refl (x : Run σ α) : Agree Eq x x := agree_eq_iff.2 rfl

/-- Where one of two computations that agree has a result, the other one has a related result. -/
theorem Agree.of_ok {R : α → β → Prop} {x : Run σ α} {y : Run σ β} (h : Agree R x y) {s : σ} {a : α}
    (ha : (x s).result = .ok a) :
    ∃ b, (y s).result = .ok b ∧ R a b ∧ (y s).state = (x s).state ∧
      (y.observed s).trace = (x.observed s).trace := by
  obtain ⟨hended, hstates, htraces⟩ := Agree.outcomes h s
  rw [ha] at hended
  generalize (y s).result = r at hended ⊢
  cases hended with
  | ok h => exact ⟨_, rfl, h, Eq.symm hstates, Eq.symm htraces⟩

end Run

end Reckoner
