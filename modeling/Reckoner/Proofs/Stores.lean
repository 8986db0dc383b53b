import Mathlib.Logic.Relation
import Reckoner.Proofs.Comparison
import Reckoner.Workspace

/-!
Evaluations and requests on any kind of state. An evaluation finds functions and operators in its state
and changes it by the registrations of its source, by clearing, and by calling implementations. So it does
the same on two states that hold the same and stay alike through all this (`related_evaluate`), and the
state that it leaves is reached from the first one by such deeds alone (`leads_evaluate`). The other
requests are of the same kind.
-/

namespace Reckoner

variable {ι σ τ α β γ : Type}

/-! ### Two states -/

/-- Events are the same, but for what records say about whether a name was there already. -/
inductive Event.Alike : Event → Event → Prop where
  | same (e : Event) : Alike e e
  | arrives (name : String) (arity : Nat) :
    Alike (.logged (.registered name arity)) (.logged (.replaced name arity))
  | returns (name : String) (arity : Nat) :
    Alike (.logged (.replaced name arity)) (.logged (.registered name arity))
  | called (name : String) (arguments : List Float) {inner inner' : List Event}
    (h : List.Forall₂ Alike inner inner') :
    Alike (.called name arguments inner) (.called name arguments inner')

/-- Records of one registration are alike, whatever tables they are about. -/
theorem Event.alike_registered (name : String) (arity : Nat) (b b' : Bool) :
    Alike (.logged (if b then .replaced name arity else .registered name arity))
      (.logged (if b' then .replaced name arity else .registered name arity)) := by
  cases b <;> cases b'
  exacts [.same _, .arrives name arity, .returns name arity, .same _]

/-- States are compared in any way. Traces are alike, and just the same where this is asked for. -/
def Comparison.holding (exact : Prop) (states : σ → τ → Prop) (astray : σ → Prop) : Comparison σ τ where
  states := states
  traces trace trace' := List.Forall₂ Event.Alike trace trace' ∧ (exact → trace = trace')
  excuses _ := False
  astray := astray
  nil := ⟨.nil, fun _ => rfl⟩
  append h h' := ⟨List.rel_append h.1 h'.1, fun hexact => by rw [h.2 hexact, h'.2 hexact]⟩

theorem Comparison.holding_traces (exact : Prop) (states : σ → τ → Prop) (astray : σ → Prop)
    (trace : List Event) : (holding exact states astray).traces trace trace :=
  ⟨List.forall₂_same.2 fun e _ => .same e, fun _ => rfl⟩

/-- States that are alike hold the same functions and operators, also after a change of both. -/
structure Comparison.Suits [Store σ ι] [Store τ ι] (C : Comparison σ τ) : Prop where
  functions : ∀ s t, C.states s t → Store.functions s = Store.functions t
  operators : ∀ s t, C.states s t → Store.operators s = Store.operators t
  change : ∀ c s t, C.states s t → C.states (Store.change c s) (Store.change c t)
  stays : ∀ c s, C.astray s → C.astray (Store.change c s)

namespace Run

variable [Store σ ι] [Store τ ι] {exact : Prop} {states : σ → τ → Prop} {astray : σ → Prop}

theorem related_readTable (h : (Comparison.holding exact states astray).Suits) :
    Related (.holding exact states astray) Eq readTable readTable :=
  ⟨fun _ hastray => hastray, fun s t hst => Or.inr ⟨.ok (h.functions s t hst), hst, Comparison.nil _⟩⟩

theorem related_readOperators (h : (Comparison.holding exact states astray).Suits) :
    Related (.holding exact states astray) Eq readOperators readOperators :=
  ⟨fun _ hastray => hastray, fun s t hst => Or.inr ⟨.ok (h.operators s t hst), hst, Comparison.nil _⟩⟩

theorem related_change (h : (Comparison.holding exact states astray).Suits) (c : Change ι) :
    Related (.holding exact states astray) Eq (change c) (change c) :=
  ⟨h.stays c, fun s t hst => Or.inr ⟨.ok rfl, h.change c s t hst, Comparison.nil _⟩⟩

theorem related_except (r : Except Fault α) :
    Related (.holding exact states astray) Eq (ofExcept r) (ofExcept r) :=
  related_ofExcept (ended_eq_iff.2 rfl)

theorem related_register (h : (Comparison.holding exact states astray).Suits) (r : Registration ι) :
    Related (.holding exact states astray) Eq (register r) (register r) := by
  refine (related_except _).bind fun d _ hd => (related_readTable h).bind fun table _ htable => ?_
  rw [← hd, ← htable]
  exact (related_note (Comparison.holding_traces _ _ _ _)).bind fun _ _ _ => related_change h (.insert d)

theorem related_definition (h : (Comparison.holding exact states astray).Suits) (name : String) :
    Related (.holding exact states astray) Eq (definition name) (definition name) := by
  refine (related_readTable h).bind fun table _ htable => ?_
  rw [← htable]
  exact related_except _

end Run

/-! ### Evaluations on two states -/

section Evaluations

open Run

variable [Store σ ι] [Store τ ι] {exact : Prop} {states : σ → τ → Prop} {astray : σ → Prop}
  (hsuits : (Comparison.holding exact states astray).Suits) {invoke : Invocation ι σ}
  {invoke' : Invocation ι τ} (hinvoke : ∀ implementation arguments,
    Related (.holding exact states astray) Eq (invoke implementation arguments)
      (invoke' implementation arguments)) (options : Options)

namespace Machine

include hsuits hinvoke in
theorem related_call (name : String) (arguments : List Float) :
    Related (.holding exact states astray) Eq (call invoke name arguments) (call invoke' name arguments) := by
  refine (related_definition hsuits name).bind fun d _ hd => ?_
  rw [← hd]
  have hcalled : Related (.holding exact states astray) (Ended Eq)
      ((invoke d.implementation arguments).asCall name arguments)
      ((invoke' d.implementation arguments).asCall name arguments) :=
    related_asCall (hinvoke d.implementation arguments) (fun _ => id) fun inner inner' hinner =>
      ⟨.cons (.called name arguments hinner.1) .nil, fun hexact => by rw [hinner.2 hexact]⟩
  refine hcalled.bind fun result result' hresult => ?_
  obtain rfl := ended_eq_iff.1 hresult
  cases result with
  | ok value => exact related_except _
  | error cause =>
      by_cases hstop : cause.isStop = true
      · simp only [hstop, if_true]
        exact related_fail _
      · simp only [hstop]
        exact (related_note (Comparison.holding_traces _ _ _ _)).bind fun _ _ _ => related_fail _

include hsuits hinvoke in
theorem related_apply (arguments : List Float) (k : Kind) :
    Related (.holding exact states astray) Eq (apply invoke arguments k) (apply invoke' arguments k) := by
  cases k with
  | callStart name =>
      refine (related_call hsuits hinvoke name arguments).bind fun x _ hx => ?_
      rw [← hx]
      exact related_pure rfl
  | arithmetic op => exact related_except _
  | control marker => exact related_except _
  | callEnd => exact related_pure rfl
  | comma => exact related_pure rfl

include hsuits hinvoke in
theorem related_reduce (values : List Float) (p : Pending) :
    Related (.holding exact states astray) Eq (reduce invoke values p) (reduce invoke' values p) := by
  rw [reduce, reduce]
  by_cases hlt : values.length < p.operator.arity
  · rw [if_pos hlt, if_pos hlt]
    exact related_fail _
  · rw [if_neg hlt, if_neg hlt]
    refine (related_note (Comparison.holding_traces _ _ _ _)).bind fun _ _ _ =>
      (related_apply hsuits hinvoke _ p.kind).bind fun given _ hgiven => ?_
    rw [← hgiven]
    exact related_pure rfl

include hsuits hinvoke in
theorem related_readOperator (m : Machine) (k : Kind) :
    Related (.holding exact states astray) Eq (m.readOperator invoke options k)
      (m.readOperator invoke' options k) := by
  refine (related_readOperators hsuits).bind fun table _ htable => ?_
  rw [← htable]
  refine (related_except _).bind fun op _ hop => ?_
  rw [← hop]
  have hdue : Related (.holding exact states astray) Eq ((due op m.pending).foldlM (reduce invoke) m.values)
      ((due op m.pending).foldlM (reduce invoke') m.values) :=
    related_foldlM_self (fun values _ p h => h ▸ related_reduce hsuits hinvoke values p) _ rfl
  refine hdue.bind fun values _ hvalues => ?_
  rw [← hvalues]
  exact related_pure rfl

include hsuits hinvoke in
theorem related_step (m : Machine) (s : Step ι) :
    Related (.holding exact states astray) Eq (m.step invoke options s) (m.step invoke' options s) := by
  cases s with
  | yield item =>
      refine (related_note (Comparison.holding_traces _ _ _ _)).bind fun _ _ _ =>
        (related_except _).bind fun token _ htoken => ?_
      rw [← htoken]
      cases token with
      | number x => exact related_pure rfl
      | operator k => exact related_readOperator hsuits hinvoke options m k
  | register r => exact (related_register hsuits r).bind fun _ _ _ => related_pure rfl
  | clear => exact (related_change hsuits .clear).bind fun _ _ _ => related_pure rfl

end Machine

include hsuits hinvoke in
/-- Evaluations do the same on states that hold the same. -/
theorem related_evaluate (source : Option (List (Step ι))) :
    Related (.holding exact states astray) Eq (evaluate invoke options source)
      (evaluate invoke' options source) := by
  cases source with
  | none => exact related_fail _
  | some source =>
      refine related_reportingRejection ?_ fun fault => Comparison.holding_traces _ _ _ _
      have hread : Related (.holding exact states astray) Eq (Machine.initial.steps invoke options source)
          (Machine.initial.steps invoke' options source) :=
        related_foldlM_self (fun m _ s h => h ▸ Machine.related_step hsuits hinvoke options m s)
          source rfl
      refine hread.bind fun m _ hm => ?_
      rw [← hm]
      exact related_except _

include hsuits in
theorem Request.related_run {evaluating : Option (List (Step ι)) → Run σ Float}
    {evaluating' : Option (List (Step ι)) → Run τ Float}
    (hevaluating : ∀ source, Related (.holding exact states astray) Eq (evaluating source)
      (evaluating' source)) (options' : Options) (request : Request ι) :
    Related (.holding exact states astray) Eq (request.run evaluating options options')
      (request.run evaluating' options options') := by
  have hread : ∀ f : FunctionTable ι → Answer, Related (.holding exact states astray) Eq
      (readTable >>= fun table => pure (f table)) (readTable >>= fun table => pure (f table)) := by
    refine fun f => (related_readTable hsuits).bind fun table _ htable => ?_
    rw [← htable]
    exact related_pure rfl
  cases request with
  | register r => exact (related_register hsuits r).bind fun _ _ _ => related_pure rfl
  | clear => exact (related_change hsuits .clear).bind fun _ _ _ => related_pure rfl
  | definition name =>
      refine (related_definition hsuits name).bind fun d _ hd => ?_
      rw [← hd]
      exact related_pure rfl
  | contains name => exact hread fun table => .truth (table.contains name)
  | size => exact hread fun table => .number table.size
  | listing => exact hread fun table => .listing (table.toList.map fun d => (d.name, d.arity))
  | lookup kind =>
      refine (related_readOperators hsuits).bind fun table _ htable => ?_
      rw [← htable]
      refine (related_except _).bind fun op _ hop => ?_
      rw [← hop]
      exact related_pure rfl
  | joinEnabled => exact related_pure rfl
  | evaluate source =>
      refine (hevaluating source).bind fun x _ hx => ?_
      rw [← hx]
      exact related_pure rfl

end Evaluations

/-! ### From one state to the next -/

/-- What changes the state of an evaluation: a registration or a clearing by its source, or the call of an
implementation that is there. -/
inductive Deed [Store σ ι] (invoke : Invocation ι σ) (source : List (Step ι)) : σ → σ → Prop where
  | register {r : Registration ι} {d : Definition ι} (hsource : .register r ∈ source)
    (hd : r.definition = .ok d) (s : σ) : Deed invoke source s (Store.change (.insert d) s)
  | clear (hsource : .clear ∈ source) (s : σ) : Deed invoke source s (Store.change .clear s)
  | call {s : σ} {name : String} {d : Definition ι} (hget : (Store.functions s).get name = .ok d)
    (arguments : List Float) : Deed invoke source s (invoke d.implementation arguments s).state

namespace Run

/-- Every state is led to one that is reached from it. -/
def Leads (R : σ → σ → Prop) (x : Run σ α) : Prop := ∀ s, Relation.ReflTransGen R s (x s).state

variable {R : σ → σ → Prop}

theorem leads_of_state {x : Run σ α} (h : ∀ s, (x s).state = s) : Leads R x := by
  intro s
  rw [h s]

theorem Leads.bind {x : Run σ α} {f : α → Run σ β} (hx : Leads R x) (hf : ∀ a, Leads R (f a)) :
    Leads R (x >>= f) := by
  intro s
  cases hresult : (x s).result with
  | error fault =>
      rw [bind_of_error hresult]
      exact hx s
  | ok a =>
      rw [bind_of_ok hresult]
      exact (hx s).trans (hf a _)

theorem leads_foldlM {f : γ → α → Run σ γ} {xs : List α} (h : ∀ c, ∀ a ∈ xs, Leads R (f c a)) (c : γ) :
    Leads R (xs.foldlM f c) := by
  induction xs generalizing c with
  | nil => exact leads_of_state fun _ => rfl
  | cons a xs ih =>
      rw [List.foldlM_cons]
      exact (h c a List.mem_cons_self).bind fun c' =>
        ih (fun c a ha => h c a (List.mem_cons_of_mem _ ha)) c'

end Run

section Deeds

open Run

variable [Store σ ι] (invoke : Invocation ι σ) (options : Options) (source : List (Step ι))

theorem leads_register {R : σ → σ → Prop} {r : Registration ι}
    (h : ∀ d, r.definition = .ok d → ∀ s, R s (Store.change (.insert d) s)) :
    Leads R (register r : Run σ Unit) := by
  rw [register]
  cases hd : r.definition with
  | error fault => exact leads_of_state fun _ => rfl
  | ok d => exact fun s => .single (h d hd s)

theorem Request.leads_run {R : σ → σ → Prop} (hchange : ∀ c s, R s (Store.change c s))
    {evaluating : Option (List (Step ι)) → Run σ Float}
    (hevaluating : ∀ source, Leads R (evaluating source)) (options' : Options) (request : Request ι) :
    Leads R (request.run evaluating options options') := by
  cases request with
  | register r =>
      exact (leads_register fun d _ => hchange (.insert d)).bind fun _ => leads_of_state fun _ => rfl
  | clear =>
      have hclear : Leads R (Run.clear : Run σ Unit) := fun s => .single (hchange .clear s)
      exact hclear.bind fun _ => leads_of_state fun _ => rfl
  | definition name =>
      exact ((leads_of_state fun _ => rfl).bind fun _ =>
        leads_of_state fun _ => ofExcept_state _ _).bind fun _ => leads_of_state fun _ => rfl
  | lookup kind =>
      exact (leads_of_state fun _ => rfl).bind fun _ =>
        (leads_of_state fun _ => ofExcept_state _ _).bind fun _ => leads_of_state fun _ => rfl
  | evaluate source => exact (hevaluating source).bind fun _ => leads_of_state fun _ => rfl
  | _ => exact leads_of_state fun _ => rfl

theorem Machine.leads_call (name : String) (arguments : List Float) :
    Leads (Deed invoke source) (call invoke name arguments) := by
  intro s
  cases hget : (Store.functions s).get name with
  | error fault =>
      have hnone : (Run.definition name s : Outcome σ (Definition ι)) = ⟨.error fault, s, []⟩ := by
        rw [Run.definition, bind_of_ok (a := Store.functions s) rfl, hget]
        rfl
      rw [call, bind_of_error (congrArg Outcome.result hnone), hnone]
  | ok d =>
      have hfound : (Run.definition name s : Outcome σ (Definition ι)) = ⟨.ok d, s, []⟩ := by
        rw [Run.definition, bind_of_ok (a := Store.functions s) rfl, hget]
        rfl
      have hcall : (call invoke name arguments s).state = (invoke d.implementation arguments s).state := by
        rw [call, bind_of_ok (congrArg Outcome.result hfound), hfound, bind_of_ok (by rfl)]
        cases (invoke d.implementation arguments s).result with
        | ok value => exact ofExcept_state _ _
        | error cause => by_cases hstop : cause.isStop = true <;> simp [hstop, bind_apply]
      rw [hcall]
      exact .single (.call hget arguments)

theorem Machine.leads_reduce (values : List Float) (p : Pending) :
    Leads (Deed invoke source) (reduce invoke values p) := by
  rw [reduce]
  split
  · exact leads_of_state fun _ => rfl
  · refine (leads_of_state fun _ => rfl).bind fun _ => Leads.bind ?_ fun _ => leads_of_state fun _ => rfl
    cases p.kind with
    | callStart name =>
        exact (leads_call invoke source name _).bind fun _ => leads_of_state fun _ => rfl
    | arithmetic op => exact leads_of_state fun _ => ofExcept_state _ _
    | control marker => exact leads_of_state fun _ => ofExcept_state _ _
    | callEnd => exact leads_of_state fun _ => rfl
    | comma => exact leads_of_state fun _ => rfl

variable {source}

theorem Machine.leads_step (m : Machine) {s : Step ι} (hs : s ∈ source) :
    Leads (Deed invoke source) (m.step invoke options s) := by
  cases s with
  | yield item =>
      refine (leads_of_state fun _ => rfl).bind fun _ =>
        (leads_of_state fun _ => ofExcept_state _ _).bind fun token => ?_
      cases token with
      | number x => exact leads_of_state fun _ => rfl
      | operator k =>
          exact (leads_of_state fun _ => rfl).bind fun _ =>
            (leads_of_state fun _ => ofExcept_state _ _).bind fun _ =>
              (leads_foldlM (fun values p _ => leads_reduce invoke source values p) _).bind fun _ =>
                leads_of_state fun _ => rfl
  | register r =>
      exact (leads_register fun d hd => .register hs hd).bind fun _ => leads_of_state fun _ => rfl
  | clear => exact fun state => .single (.clear hs state)

/-- The state that an evaluation leaves is reached by its deeds. -/
theorem leads_evaluate (s : σ) : Relation.ReflTransGen (Deed invoke source) s
    (evaluate invoke options (some source) s).state := by
  have hread : Leads (Deed invoke source) (Machine.initial.steps invoke options source) :=
    leads_foldlM (fun m _ hs => Machine.leads_step invoke options m hs) _
  rw [evaluate, evaluateSteps, reportingRejection_state]
  exact (hread.bind fun _ => leads_of_state fun _ => ofExcept_state _ _) s

end Deeds

end Reckoner
