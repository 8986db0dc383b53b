import Mathlib.Data.Option.Basic
import Reckoner.Proofs.Session

/-!
What an evaluation depends on. Two workspaces match if they have the same objects, and places that
correspond hold the same tables: those of two evaluators, and the places that are known, each of which
corresponds to itself. Plans do the same in workspaces that match, as long as they look at known places
only: changes on one side are made on the other side at the place that corresponds, and nobody asks what
is at any other place (`Plan.related_evaluators`). A session takes down all references, so that the places
that have to be known can be read off its end.
-/

namespace Reckoner

variable {ι : Type} {exact : Prop} {known : Nat → Prop} {p q : Nat}

/-- Places that correspond: those of two evaluators, and each known place to itself. -/
inductive Pairing (known : Nat → Prop) (p q : Nat) : Nat → Nat → Prop where
  | atHand : Pairing known p q p q
  | itself {place : Nat} (h : known place) : Pairing known p q place place

/-- The places of two evaluators are the same, or neither is known. -/
def Pairing.Apart (known : Nat → Prop) (p q : Nat) : Prop := p = q ∨ ¬known p ∧ ¬known q

/-- A reference that does not tell two workspaces apart. It looks at places that correspond to themselves;
it changes neither of two different places, and only places that correspond to themselves if traces have
to be the same. -/
def Reference.Allowed (exact : Prop) (known : Nat → Prop) (p q : Nat) : Reference → Prop
  | looks place => Pairing known p q place place
  | changes place => (p = q ∨ place ≠ p ∧ place ≠ q) ∧ (exact → Pairing known p q place place)

theorem Pairing.eq_iff (hapart : Apart known p q) {a b a' b' : Nat} (h : Pairing known p q a b)
    (h' : Pairing known p q a' b') : a = a' ↔ b = b' := by
  rcases hapart with rfl | ⟨hp, hq⟩
  · have hsame : ∀ {c d}, Pairing known p p c d → c = d := by
      rintro c d (_ | _) <;> rfl
    rw [hsame h, hsame h']
  · cases h with
    | atHand =>
        cases h' with
        | atHand => exact ⟨fun _ => rfl, fun _ => rfl⟩
        | itself hknown =>
            exact ⟨fun hsame => absurd (hsame ▸ hknown) hp, fun hsame => absurd (hsame ▸ hknown) hq⟩
    | itself hknown =>
        cases h' with
        | atHand =>
            exact ⟨fun hsame => absurd (hsame ▸ hknown) hp, fun hsame => absurd (hsame ▸ hknown) hq⟩
        | itself hknown' => exact Iff.rfl

theorem Pairing.same_iff {place : Nat} (hplace : p = q ∨ place ≠ p ∧ place ≠ q) {a b : Nat}
    (h : Pairing known p q a b) : place = a ↔ place = b := by
  cases h with
  | itself hknown => rfl
  | atHand =>
      rcases hplace with rfl | ⟨hp, hq⟩
      · rfl
      · exact iff_of_false hp hq

/-! ### Workspaces that match -/

namespace Workspace

/-- Two workspaces with the same objects and with the same tables at places that correspond. -/
structure Matches (pairs : Nat → Nat → Prop) (w v : Workspace ι) : Prop where
  tableNames : w.tableNames = v.tableNames
  evaluators : w.evaluators = v.evaluators
  registries : w.registries = v.registries
  length : w.tables.length = v.tables.length
  range : ∀ a b, pairs a b → a = b ∨ a < w.tables.length ∧ b < v.tables.length
  tableAt : ∀ a b, pairs a b → w.tableAt a = v.tableAt b

variable {pairs : Nat → Nat → Prop} {w v : Workspace ι}

theorem Matches.lt_iff (h : w.Matches pairs v) {a b : Nat} (hab : pairs a b) :
    a < w.tables.length ↔ b < v.tables.length := by
  rcases h.range a b hab with rfl | ⟨ha, hb⟩
  · rw [h.length]
  · exact ⟨fun _ => hb, fun _ => ha⟩

/-- A change on both sides, so that one place of a pair is changed exactly if the other one is. -/
theorem Matches.changeAt (h : w.Matches pairs v) {a b : Nat}
    (hiff : ∀ a' b', pairs a' b' → (a = a' ↔ b = b')) (c : Change ι) :
    (w.changeAt a c).Matches pairs (v.changeAt b c) := by
  refine ⟨h.tableNames, h.evaluators, h.registries, ?_, fun a' b' h' => ?_, fun a' b' h' => ?_⟩
  · rw [length_changeAt, length_changeAt, h.length]
  · rw [length_changeAt, length_changeAt]
    exact h.range a' b' h'
  · rw [tableAt_changeAt, tableAt_changeAt, h.tableAt a' b' h']
    exact if_congr (and_congr (hiff a' b' h') (h.lt_iff h')) rfl rfl

theorem Matches.addTable (h : w.Matches pairs v) : w.addTable.2.Matches pairs v.addTable.2 := by
  refine ⟨h.tableNames, h.evaluators, h.registries, ?_, fun a b hab => ?_, fun a b hab => ?_⟩
  · rw [length_addTable, length_addTable, h.length]
  · rw [length_addTable, length_addTable]
    exact (h.range a b hab).imp_right fun ⟨ha, hb⟩ => ⟨Nat.lt_succ_of_lt ha, Nat.lt_succ_of_lt hb⟩
  · rw [tableAt_addTable, tableAt_addTable, h.tableAt a b hab]

theorem Matches.place?_eq (h : w.Matches pairs v) (name : TableName) : w.place? name = v.place? name := by
  cases name with
  | named id => rw [place?, place?, h.tableNames]
  | ofEvaluator id => rw [place?, place?, h.evaluators]
  | placed place => rw [place?, place?, h.length]

/-- Two places and what the workspaces are then. -/
abbrev SamePlace (pairs : Nat → Nat → Prop) {α : Type} (one two : α × Workspace ι) : Prop :=
  one.1 = two.1 ∧ one.2.Matches pairs two.2

theorem Matches.placeForNew (h : w.Matches pairs v) (name : Option TableName) :
    Option.Rel (SamePlace pairs) (w.placeForNew name) (v.placeForNew name) := by
  cases name with
  | none => exact .some ⟨h.length, h.addTable⟩
  | some name =>
      rw [Workspace.placeForNew, Workspace.placeForNew, h.place?_eq]
      cases v.place? name with
      | none => exact .none
      | some place => exact .some ⟨rfl, h⟩

/-- Whoever deals with a request is the same on both sides. -/
theorem Matches.resolve (h : w.Matches pairs v) (target : Target) :
    Option.Rel (SamePlace pairs) (w.resolve target) (v.resolve target) := by
  cases target with
  | table name =>
      rw [Workspace.resolve, Workspace.resolve, h.place?_eq]
      cases v.place? name with
      | none => exact .none
      | some place => exact .some ⟨rfl, h⟩
  | evaluator id =>
      rw [Workspace.resolve, Workspace.resolve, h.evaluators]
      cases v.evaluators.lookup id with
      | none => exact .none
      | some e => exact .some ⟨rfl, h⟩
  | registry id =>
      rw [Workspace.resolve, Workspace.resolve, h.registries]
      cases v.registries.lookup id with
      | none => exact .none
      | some r => exact .some ⟨rfl, h⟩
  | passing name options =>
      have hplaces := h.placeForNew name
      rw [Workspace.resolve, Workspace.resolve]
      generalize w.placeForNew name = one, v.placeForNew name = two at hplaces
      cases hplaces with
      | none => exact .none
      | some hsame => exact .some ⟨congrArg (EvaluatorObject.new · options) hsame.1, hsame.2⟩

end Workspace

/-! ### A session and a workspace -/

/-- The workspace of a session matches another one, until a reference tells them apart. -/
abbrev Comparison.matching (exact : Prop) (known : Nat → Prop) (p q : Nat) :
    Comparison (Session ι) (Workspace ι) :=
  .holding exact (fun s w => s.workspace.Matches (Pairing known p q) w)
    fun s => ∃ reference ∈ s.references, ¬reference.Allowed exact known p q

/-- Two evaluators with the same options, whose tables correspond. -/
structure EvaluatorObject.Corresponds (pairs : Nat → Nat → Prop) (e e' : EvaluatorObject) : Prop where
  place : pairs e.place e'.place
  registryPlace : pairs e.registry.place e'.registry.place
  options : e.options = e'.options
  registryOptions : e.registry.options = e'.registry.options

section Matching

open Run Session Workspace

variable {e e' : EvaluatorObject} (hapart : Pairing.Apart known p q)

include hapart in
theorem EvaluatorObject.suits (he : e.Corresponds (Pairing known p q) e') :
    @Comparison.Suits ι (Session ι) (Workspace ι) e.store e'.store (.matching exact known p q) :=
  @Comparison.Suits.mk ι _ _ e.store e'.store _
    (fun _ _ hmatch => hmatch.tableAt _ _ he.place)
    (fun _ _ hmatch => hmatch.tableAt _ _ he.registryPlace)
    (fun c _ _ hmatch => hmatch.changeAt (fun _ _ => Pairing.eq_iff hapart he.place) c)
    (fun _ _ hastray => hastray)

theorem Session.stays_of_leads {α : Type} {x : Run (Session ι) α} {size : Nat} (h : Leads (Reaches size) x)
    {allowed : Reference → Prop} (s : Session ι) : (∃ reference ∈ s.references, ¬allowed reference) →
      ∃ reference ∈ (x s).state.references, ¬allowed reference :=
  fun ⟨reference, hmem, hnot⟩ => ⟨reference, (h.reaches s).references hmem, hnot⟩

theorem Run.related_attempt {α : Type} {x : Run (Session ι) α} {y : Run (Workspace ι) α}
    (h : Related (.matching exact known p q) Eq x y) :
    Related (.matching exact known p q) Eq x.attempt y.attempt := by
  refine ⟨h.stays, fun s w hmatch => ?_⟩
  rcases h.alike s w hmatch with (hastray | ⟨_, _, hexcused⟩) | ⟨hended, hstates, htraces⟩
  · exact Or.inl (Or.inl hastray)
  · exact hexcused.elim
  · exact Or.inr ⟨.ok (ended_eq_iff.1 hended), hstates, htraces⟩

/-- After taking down references it matters only how it goes on if they are allowed. -/
theorem Workspace.related_refer {α : Type} {references : Workspace ι → List Reference}
    {x : Run (Session ι) α} {y : Run (Workspace ι) α} {size : Nat} (hleads : Leads (Reaches size) x)
    (halike : ∀ s w, s.workspace.Matches (Pairing known p q) w →
      (∀ reference ∈ references s.workspace, reference.Allowed exact known p q) →
        Excused (.matching exact known p q) (x s) ∨ Alike (.matching exact known p q) Eq (x s) (y w)) :
    Related (.matching exact known p q) Eq (refer references >>= fun _ => x)
      (refer references >>= fun _ => y) := by
  refine ⟨fun s ⟨reference, hmem, hnot⟩ => ?_, fun s w hmatch => ?_⟩
  · exact stays_of_leads hleads _ ⟨reference, List.mem_append_left _ hmem, hnot⟩
  · by_cases hallowed :
      ∀ reference ∈ references s.workspace, reference.Allowed exact known p q
    · exact halike _ w hmatch hallowed
    · push Not at hallowed
      obtain ⟨reference, hmem, hnot⟩ := hallowed
      exact Or.inl (Or.inl
        (stays_of_leads hleads _ ⟨reference, List.mem_append_right _ hmem, hnot⟩))

theorem Workspace.related_make {object : Workspace ι → Option (Workspace ι)}
    (h : ∀ w v, w.Matches (Pairing known p q) v →
      Option.Rel (Matches (Pairing known p q)) (object w) (object v)) :
    Related (.matching exact known p q) Eq (make object) (make object) := by
  refine ⟨fun s hastray => ?_, fun s w hmatch => Or.inr ?_⟩
  · cases hone : object s.workspace with
    | none => rwa [make_of_none (s := s) hone]
    | some v =>
        rw [make_of_some (s := s) hone]
        exact hastray
  · have hobjects := h s.workspace w hmatch
    generalize hone : object s.workspace = one, htwo : object w = two at hobjects
    cases hobjects with
    | none =>
        rw [make_of_none (s := s) hone, make_of_none (s := w) htwo]
        exact ⟨.ok rfl, hmatch, Comparison.nil _⟩
    | some hsame =>
        rw [make_of_some (s := s) hone, make_of_some (s := w) htwo]
        exact ⟨.ok rfl, hsame, Comparison.nil _⟩

variable {evaluators : Evaluators ι (Session ι)} {evaluators' : Evaluators ι}
  (hleads : ∀ e source, Leads (Reaches (e.place + 1)) (evaluators e source))
  (hevaluators : ∀ e e' : EvaluatorObject, e.Corresponds (Pairing known p q) e' → ∀ source,
    Related (.matching exact known p q) Eq (evaluators e source) (evaluators' e' source))

include hapart hevaluators in
theorem EvaluatorObject.related_run (he : e.Corresponds (Pairing known p q) e')
    (request : Request ι) : Related (.matching exact known p q) Eq (e.run evaluators request)
      (e'.run evaluators' request) := by
  rw [run, run, he.options, he.registryOptions]
  exact @Request.related_run _ _ _ e.store e'.store _ _ _ (EvaluatorObject.suits hapart he)
    e'.options _ _ (hevaluators e e' he) e'.registry.options request

/-- A table that is not looked at can be changed on both sides. -/
theorem EvaluatorObject.alike_change {request : Request ι}
    (hrequest : (∃ r, request = .register r) ∨ request = .clear) (e : EvaluatorObject) {s : Session ι}
    {w : Workspace ι} (hmatch : s.workspace.Matches (Pairing known p q) w)
    (hallowed : (Reference.changes e.place).Allowed exact known p q) :
    Alike (.matching exact known p q) Eq (e.run evaluators request s) (e.run evaluators' request w) := by
  have hchange : ∀ c : Change ι, (s.workspace.changeAt e.place c).Matches (Pairing known p q)
      (w.changeAt e.place c) := hmatch.changeAt fun _ _ => Pairing.same_iff hallowed.1
  rcases hrequest with ⟨r, rfl⟩ | rfl
  · cases hd : r.definition with
    | error fault =>
        simp only [run, Request.run, Run.register, hd]
        exact ⟨.error fault, hmatch, Comparison.nil _⟩
    | ok d =>
        simp only [run, Request.run, Run.register, hd]
        refine ⟨.ok rfl, hchange (.insert d), .cons (Event.alike_registered _ _ _ _) .nil, fun hexact => ?_⟩
        have htable : s.workspace.tableAt e.place = w.tableAt e.place :=
          hmatch.tableAt _ _ (hallowed.2 hexact)
        exact congrArg (fun table : FunctionTable ι => [Event.logged
          (if table.contains d.name then .replaced d.name d.arity else .registered d.name d.arity)]) htable
  · exact ⟨.ok rfl, hchange .clear, Comparison.nil _⟩

include hapart hevaluators in
/-- A request whose references are allowed does the same on both sides. -/
theorem EvaluatorObject.alike_run {e : EvaluatorObject} {request : Request ι} {s : Session ι}
    {w : Workspace ι} (hmatch : s.workspace.Matches (Pairing known p q) w)
    (hallowed : ∀ reference ∈ e.references request, reference.Allowed exact known p q) :
    Excused (.matching exact known p q) (e.run evaluators request s) ∨
      Alike (.matching exact known p q) Eq (e.run evaluators request s) (e.run evaluators' request w) := by
  have hlooking (hrefers : e.references request = [.looks e.place, .looks e.registry.place]) :
      Related (.matching exact known p q) Eq (e.run evaluators request) (e.run evaluators' request) := by
    simp only [hrefers, List.forall_mem_cons] at hallowed
    exact e.related_run hapart hevaluators ⟨hallowed.1, hallowed.2.1, rfl, rfl⟩ request
  cases request with
  | register r => exact Or.inr (e.alike_change (Or.inl ⟨r, rfl⟩) hmatch (hallowed _ List.mem_cons_self))
  | clear => exact Or.inr (e.alike_change (Or.inr rfl) hmatch (hallowed _ List.mem_cons_self))
  | _ => exact (hlooking rfl).alike s w hmatch

include hapart hevaluators in
/-- A command whose references are allowed does the same on both sides. -/
theorem Workspace.alike_performWith (command : Command ι) {s : Session ι} {w : Workspace ι}
    (hmatch : s.workspace.Matches (Pairing known p q) w)
    (hallowed : ∀ reference ∈ s.workspace.references command,
      reference.Allowed exact known p q) :
    Excused (.matching exact known p q) (performWith evaluators command s) ∨
      Alike (.matching exact known p q) Eq (performWith evaluators command s)
        (performWith evaluators' command w) := by
  cases command with
  | newTable id =>
      refine (related_make fun w v h => ?_).alike s w hmatch
      have hadded := h.addTable
      refine .some ⟨?_, hadded.evaluators, hadded.registries, hadded.length, hadded.range, hadded.tableAt⟩
      change (id, w.tables.length) :: w.tableNames = (id, v.tables.length) :: v.tableNames
      rw [h.length, h.tableNames]
  | newEvaluator id table options =>
      refine (related_make fun w v h => ?_).alike s w hmatch
      have hplaces := h.placeForNew table
      generalize w.placeForNew table = one, v.placeForNew table = two at hplaces
      cases hplaces with
      | none => exact .none
      | @some one two hsame =>
          obtain ⟨hplace, hsame⟩ := hsame
          refine .some ⟨hsame.tableNames, ?_, hsame.registries, hsame.length, hsame.range, hsame.tableAt⟩
          change (id, EvaluatorObject.new one.1 options) :: one.2.evaluators =
            (id, EvaluatorObject.new two.1 options) :: two.2.evaluators
          rw [hplace, hsame.evaluators]
  | newRegistry id table options =>
      refine (related_make fun w v h => ?_).alike s w hmatch
      rw [h.place?_eq]
      cases v.place? table with
      | none => exact .none
      | some place =>
          exact .some ⟨h.tableNames, h.evaluators, congrArg ((id, ⟨place, options⟩) :: ·) h.registries,
            h.length, h.range, h.tableAt⟩
  | ask target request =>
      have hresolve := hmatch.resolve target
      cases hone : s.workspace.resolve target with
      | none =>
          rw [hone] at hresolve
          generalize htwo : w.resolve target = two at hresolve
          cases hresolve
          rw [performWith_of_resolve_none hone, performWith_of_resolve_none htwo]
          exact Or.inr ⟨.ok rfl, hmatch, Comparison.nil _⟩
      | some found =>
          rw [hone] at hresolve
          generalize htwo : w.resolve target = two at hresolve
          cases hresolve with
          | @some _ found' hsame =>
              obtain ⟨other, u⟩ := found
              obtain ⟨other', v⟩ := found'
              obtain ⟨hother, huv⟩ := hsame
              obtain rfl : other = other' := hother
              have hrefers : ∀ reference ∈ other.references request,
                  reference.Allowed exact known p q := by
                simpa only [references, hone] using hallowed
              have hrequest := other.alike_run hapart hevaluators (s := Host.put u s) (w := v) huv hrefers
              rw [performWith_of_resolve hone, performWith_of_resolve htwo]
              rcases hrequest with (hastray | ⟨_, _, hexcused⟩) | ⟨hended, hstates, htraces⟩
              · exact Or.inl (Or.inl hastray)
              · exact hexcused.elim
              · refine Or.inr ⟨ended_eq_iff.2 ?_, hstates, htraces⟩
                exact congrArg (·.map some) (ended_eq_iff.1 hended)

include hapart hleads hevaluators in
theorem Plan.related_run (he : e.Corresponds (Pairing known p q) e') (plan : Plan ι) :
    Related (.matching exact known p q) Eq (plan.run evaluators e) (plan.run evaluators' e') := by
  induction plan with
  | ends result => exact related_except _
  | reads next ih =>
      have hread := @related_readTable ι _ _ e.store e'.store exact _ _ (EvaluatorObject.suits hapart he)
      refine hread.bind fun table _ htable => ?_
      rw [← htable]
      exact ih table
  | asks request next ih =>
      refine (related_attempt (e.related_run hapart hevaluators he request)).bind
        fun answer _ hanswer => ?_
      rw [← hanswer]
      exact ih answer
  | looks name next ih =>
      have hlook : Leads (Reaches (e.place + 1)) (look name : Run (Session ι) (Option (FunctionTable ι))) :=
        leads_of_state fun _ => rfl
      refine related_refer (hlook.bind fun table => leads_run hleads e (next table))
        fun s w hmatch hallowed => ?_
      have hsame : (s.workspace.place? name).map s.workspace.tableAt =
          (w.place? name).map w.tableAt := by
        rw [← hmatch.place?_eq]
        cases hplace : s.workspace.place? name with
        | none => rfl
        | some place =>
            rw [hplace] at hallowed
            exact congrArg some (hmatch.tableAt place place (hallowed _ List.mem_cons_self))
      refine alike_bind (R := Eq) (fun table _ htable => ?_)
        (Or.inr ⟨.ok hsame, hmatch, Comparison.nil _⟩)
      rw [← htable]
      exact ih table
  | performs command next ih =>
      have hperform : Leads (Reaches (e.place + 1)) (performWith evaluators command) :=
        leads_performWith hleads command
      refine related_refer ((leads_attempt hperform).bind fun answer => leads_run hleads e (next answer))
        fun s w hmatch hallowed => ?_
      refine alike_bind (R := Eq) (fun answer _ hanswer => ?_) ?_
      · rw [← hanswer]
        exact ih answer
      · rcases alike_performWith hapart hevaluators command hmatch hallowed with
          (hastray | ⟨_, _, hexcused⟩) | ⟨hended, hstates, htraces⟩
        · exact Or.inl (Or.inl hastray)
        · exact hexcused.elim
        · exact Or.inr ⟨.ok (ended_eq_iff.1 hended), hstates, htraces⟩

include hapart in
/-- Evaluators with the same options do the same on tables with the same contents, as long as their
implementations look at known places only. -/
theorem Plan.related_evaluators (plan : ι → List Float → Plan ι) (depth : Nat) :
    ∀ e e' : EvaluatorObject, e.Corresponds (Pairing known p q) e' → ∀ source,
      Related (.matching exact known p q) Eq (Plan.evaluators plan depth e source)
        (Plan.evaluators plan depth e' source) := by
  induction depth with
  | zero => exact fun e e' he source => related_fail _
  | succ depth ih =>
      intro e e' he source
      simp only [Plan.evaluators, he.registryOptions]
      exact @related_evaluate _ _ _ e.store e'.store _ _ _ (EvaluatorObject.suits hapart he) _ _
        (fun implementation arguments =>
          related_run hapart (leads_evaluators plan depth) ih he (plan implementation arguments)) _ source

end Matching

/-! ### Plans that look at what is at hand -/

/-- How implementations refer to tables while an evaluator carries out a request. -/
def Plan.references (plan : ι → List Float → Plan ι) (depth : Nat) (e : EvaluatorObject)
    (request : Request ι) (w : Workspace ι) : List Reference :=
  (e.run (evaluators plan depth) request (Session.of w)).state.references

/-- A plan that looks at nothing but what is at hand. It may change any table. -/
inductive Plan.AtHand : Plan ι → Prop where
  | ends (result : Except Fault Value) : AtHand (.ends result)
  | reads {next : FunctionTable ι → Plan ι} (h : ∀ table, AtHand (next table)) : AtHand (.reads next)
  | asks {request : Request ι} {next : Except Fault Answer → Plan ι} (h : ∀ answer, AtHand (next answer)) :
    AtHand (.asks request next)
  | registers (target : Target) (r : Registration ι) {next : Except Fault (Option Answer) → Plan ι}
    (h : ∀ answer, AtHand (next answer)) : AtHand (.performs (.ask target (.register r)) next)
  | clears (target : Target) {next : Except Fault (Option Answer) → Plan ι}
    (h : ∀ answer, AtHand (next answer)) : AtHand (.performs (.ask target .clear) next)

section AtHand

open Run

/-- Nothing more has been looked at. -/
def Session.Quiet (s s' : Session ι) : Prop :=
  ∀ place, Reference.looks place ∈ s'.references → Reference.looks place ∈ s.references

theorem Session.quiet_of_eq {s s' : Session ι} (h : s'.references = s.references) : s.Quiet s' := by
  intro place hmem
  rwa [h] at hmem

theorem Run.Leads.quiet {α : Type} {x : Run (Session ι) α} (h : Leads Session.Quiet x) (s : Session ι) :
    s.Quiet (x s).state := by
  have hquiet := h s
  generalize (x s).state = s' at hquiet
  induction hquiet with
  | refl => exact fun _ => id
  | tail _ hlast ih => exact fun place hmem => ih place (hlast place hmem)

section Evaluators

variable {evaluators : Workspace.Evaluators ι (Session ι)} {e : EvaluatorObject}
  (h : ∀ (e : EvaluatorObject) source, Leads Session.Quiet (evaluators e source))

include h

theorem EvaluatorObject.quiet_run (request : Request ι) :
    Leads Session.Quiet (e.run evaluators request) :=
  @Request.leads_run _ _ e.store e.options _ (fun _ _ => Session.quiet_of_eq rfl) _ (h e)
    e.registry.options request

/-- Whoever only changes a table does not look at it. -/
theorem Workspace.quiet_change {target : Target} {request : Request ι}
    (hrequest : ∀ e : EvaluatorObject, e.references request = [.changes e.place]) {α : Type}
    {next : Except Fault (Option Answer) → Run (Session ι) α}
    (hnext : ∀ answer, Leads Session.Quiet (next answer)) :
    Leads Session.Quiet (do
      refer fun w => w.references (.ask target request)
      let answer ← (performWith evaluators (.ask target request)).attempt
      next answer) := by
  refine Leads.bind (fun s => .single fun place hmem => ?_) fun _ =>
    Leads.bind (leads_attempt fun s => ?_) hnext
  · rcases List.mem_append.1 hmem with hbefore | hadded
    · exact hbefore
    · exfalso
      revert hadded
      simp only [references]
      split
      · simp [hrequest]
      · simp
  · cases hresolve : s.workspace.resolve target with
    | none => rw [performWith_of_resolve_none hresolve]
    | some found =>
        obtain ⟨other, w⟩ := found
        rw [performWith_of_resolve hresolve]
        exact .single ((other.quiet_run h request).quiet (Host.put w s))

theorem Plan.AtHand.quiet_run {plan : Plan ι} (hplan : plan.AtHand) :
    Leads Session.Quiet (plan.run evaluators e) := by
  induction hplan with
  | ends result => exact leads_of_state fun _ => ofExcept_state _ _
  | reads _ ih => exact (leads_of_state fun _ => rfl).bind ih
  | asks _ ih => exact (leads_attempt (e.quiet_run h _)).bind ih
  | registers target r _ ih => exact Workspace.quiet_change h (fun _ => rfl) ih
  | clears target _ ih => exact Workspace.quiet_change h (fun _ => rfl) ih

end Evaluators

variable {plan : ι → List Float → Plan ι}
  (hplan : ∀ implementation arguments, (plan implementation arguments).AtHand)

include hplan in
theorem Plan.quiet_evaluators (depth : Nat) (e : EvaluatorObject) (source : Option (List (Step ι))) :
    Leads Session.Quiet (evaluators plan depth e source : Run (Session ι) Float) := by
  induction depth generalizing e source with
  | zero => exact leads_of_state fun _ => rfl
  | succ depth ih =>
      cases source with
      | none => exact leads_of_state fun _ => rfl
      | some source =>
          intro s
          refine Relation.ReflTransGen.mono (fun before later hdeed => ?_) _ _
            (deeds_evaluators plan depth e source s)
          cases hdeed with
          | register hsource hd => exact Session.quiet_of_eq rfl
          | clear hsource => exact Session.quiet_of_eq rfl
          | call hget arguments => exact ((hplan _ arguments).quiet_run ih).quiet before

include hplan in
/-- Implementations that look at what is at hand only look at no other table. -/
theorem Plan.looks_notMem (depth : Nat) (e : EvaluatorObject) (request : Request ι) (w : Workspace ι)
    (place : Nat) : Reference.looks place ∉ Plan.references plan depth e request w := by
  intro hmem
  have hbefore := (e.quiet_run (quiet_evaluators hplan depth) request).quiet (Session.of w) place hmem
  exact absurd hbefore List.not_mem_nil

end AtHand

theorem Routine.atHand_plan : ∀ (routine : Routine) (arguments : List Float),
    (plan routine arguments).AtHand
  | constant _, _ => .ends _
  | argument _, _ => .ends _
  | count, _ => .ends _
  | sum, _ => .ends _
  | digits, _ => .ends _
  | divide, _ => .ends _
  | scale _, _ => .ends _
  | arithmetic _, _ => .ends _
  | join, _ => .ends _
  | list, _ => .ends _
  | raise _ _, _ => .ends _
  | mutate next, arguments => atHand_plan next (mutated arguments)
  | evaluate _, _ => .asks fun answer => by cases answer <;> exact .ends _
  | register _ next, arguments => .asks fun answer => by
      cases answer with
      | error fault => exact .ends _
      | ok answer => exact atHand_plan next arguments
  | clear next, arguments => .asks fun answer => by
      cases answer with
      | error fault => exact .ends _
      | ok answer => exact atHand_plan next arguments

/-- Routines look at no other table. -/
theorem Routine.looks_notMem (depth : Nat) (e : EvaluatorObject) (request : Request Routine)
    (w : Workspace Routine) (place : Nat) :
    Reference.looks place ∉ Plan.references plan depth e request w :=
  Plan.looks_notMem atHand_plan depth e request w place

end Reckoner
