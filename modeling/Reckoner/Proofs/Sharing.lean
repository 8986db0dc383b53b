import Reckoner.Proofs.Isolation

/-!
Who shares a table with whom, and what else remains of what has been done. Commands may be given to any
table, evaluator or registry of a workspace, and implementations may give commands as well. The history of
a session says what has been done to which table; from it everybody who refers to a table can tell what
they see (`Session.Sees`). Histories grow by what is asked for, and by the deeds of evaluations
(`Session.Records`). New objects refer to the table that they are given, or to one that nobody else refers
to (`Workspace.Gives`). What comes of a request depends on the table at hand and on those that
implementations look at themselves (`Workspace.Isolates`).
-/

namespace Reckoner

variable {ι : Type} {exact : Prop} {known : Nat → Prop} {p q : Nat}

/-! ### Sequences of commands -/

namespace Workspace

/-- The state after commands, some of which may fail. -/
def after {ω : Type} [Host ω ι] (evaluators : Evaluators ι ω) (commands : List (Command ι)) (s : ω) : ω :=
  commands.foldl (fun s command => (performWith evaluators command s).state) s

theorem matches_self (known : Nat → Prop) (place : Nat) (w : Workspace ι) :
    w.Matches (Pairing known place place) w := by
  have hsame : ∀ a b, Pairing known place place a b → a = b := by
    rintro a b (_ | _) <;> rfl
  exact ⟨rfl, rfl, rfl, rfl, fun a b hab => Or.inl (hsame a b hab),
    fun a b hab => by rw [hsame a b hab]⟩

/-- Where every place is known, workspaces that match are the same. -/
theorem Matches.eq {w v : Workspace ι} (h : w.Matches (Pairing (fun _ => True) 0 0) v) : w = v := by
  have htables : w.tables = v.tables := by
    refine List.ext_getElem h.length fun place hw hv => ?_
    have hplace := h.tableAt place place (.itself trivial)
    rw [Workspace.tableAt, Workspace.tableAt, List.getElem?_eq_getElem hw,
      List.getElem?_eq_getElem hv] at hplace
    exact hplace
  obtain ⟨tables, tableNames, evaluators, registries⟩ := w
  obtain ⟨tables', tableNames', evaluators', registries'⟩ := v
  obtain rfl : tables = tables' := htables
  obtain rfl : tableNames = tableNames' := h.tableNames
  obtain rfl : evaluators = evaluators' := h.evaluators
  obtain rfl : registries = registries' := h.registries
  rfl

end Workspace

def Outcome.forget {α : Type} (outcome : Outcome (Session ι) α) : Outcome (Workspace ι) α :=
  ⟨outcome.result, outcome.state.workspace, outcome.trace⟩

section Forget

open Workspace

variable (plan : ι → List Float → Plan ι) (depth : Nat)

theorem Reference.allowed_of_known : ∀ reference : Reference,
    reference.Allowed exact (fun _ => True) p p
  | looks _ => .itself trivial
  | changes _ => ⟨Or.inl rfl, fun _ => .itself trivial⟩

theorem Run.forget_eq {α : Type} {x : Run (Session ι) α} {y : Run (Workspace ι) α} {s : Session ι}
    (h : Excused (.matching True (fun _ => True) 0 0) (x s) ∨
      Alike (.matching True (fun _ => True) 0 0) Eq (x s) (y s.workspace)) :
    y s.workspace = (x s).forget := by
  rcases h with (⟨reference, _, hnot⟩ | ⟨_, _, hexcused⟩) | ⟨hended, hstates, htraces⟩
  · exact absurd reference.allowed_of_known hnot
  · exact hexcused.elim
  · rw [Outcome.forget, ended_eq_iff.1 hended, Matches.eq hstates, htraces.2 trivial]

/-- Nobody notices that a history is written. -/
theorem Workspace.forget_performWith (command : Command ι) (s : Session ι) :
    performWith (Plan.evaluators plan depth) command s.workspace =
      (performWith (Plan.evaluators plan depth) command s).forget :=
  Run.forget_eq (alike_performWith (Or.inl rfl) (Plan.related_evaluators (Or.inl rfl) plan depth) command
    (matches_self _ 0 _) fun reference _ => reference.allowed_of_known)

theorem EvaluatorObject.forget_run (e : EvaluatorObject) (request : Request ι) (s : Session ι) :
    e.run (Plan.evaluators plan depth) request s.workspace =
      (e.run (Plan.evaluators plan depth) request s).forget :=
  Run.forget_eq ((e.related_run (Or.inl rfl) (Plan.related_evaluators (Or.inl rfl) plan depth)
    ⟨.itself trivial, .itself trivial, rfl, rfl⟩ request).alike s _ (matches_self _ 0 _))

theorem Workspace.forget_after (commands : List (Command ι)) (s : Session ι) :
    (after (Plan.evaluators plan depth) commands s).workspace =
      after (Plan.evaluators plan depth) commands s.workspace := by
  induction commands generalizing s with
  | nil => rfl
  | cons command commands ih =>
      have hfirst := congrArg Outcome.state (forget_performWith plan depth command s)
      rw [after, after, List.foldl_cons, List.foldl_cons, hfirst]
      exact ih _

theorem Workspace.sound_after (commands : List (Command ι)) {s : Session ι} (h : s.Sound) :
    (after (Plan.evaluators plan depth) commands s).Sound := by
  induction commands generalizing s with
  | nil => exact h
  | cons command commands ih =>
      have hreaches : Session.Reaches 0 s (performWith (Plan.evaluators plan depth) command s).state :=
        (leads_performWith (Plan.leads_evaluators plan depth) command).reaches s
      exact ih (hreaches.sound h (Nat.zero_le _))

end Forget

/-! ### Who sees what -/

/-- Everybody sees what the history of their table leaves of it. -/
structure Session.Sees (s : Session ι) (w : Workspace ι) : Prop where
  workspace : s.workspace = w
  lists : ∀ place table,
    table.Lists (Operation.accepted (s.operationsAt place)) ↔ w.tableAt place = table
  refers : ∀ target e v, w.resolve target = some (e, v) →
    e = .new e.place e.options ∧ ∀ place, v.tableAt place = w.tableAt place

theorem Session.Sound.sees {s : Session ι} (h : s.Sound) : s.Sees s.workspace :=
  ⟨rfl, fun place _ => ⟨(h.lists place).table_eq, fun hsame => hsame ▸ h.lists place⟩,
    fun _ _ _ hresolve =>
      ⟨(h.workspace.resolve hresolve).2.2, (Workspace.grows_resolve hresolve).tableAt⟩⟩

/-- New objects refer to the table that they are given, whatever is in it, or to one of their own. -/
structure Workspace.Gives (evaluators : Workspace.Evaluators ι) (w : Workspace ι) : Prop where
  evaluator : ∀ id name options place, w.place? name = some place →
    let v := (performWith evaluators (.newEvaluator id (some name) options) w).state
    v.resolve (.evaluator id) = some (.new place options, v) ∧ v.tables = w.tables
  registry : ∀ id name options place, w.place? name = some place →
    let v := (performWith evaluators (.newRegistry id name options) w).state
    v.resolve (.registry id) = some (.new place options, v) ∧ v.tables = w.tables
  own : ∀ id options,
    let v := (performWith evaluators (.newEvaluator id none options) w).state
    v.resolve (.evaluator id) = some (.new w.tables.length options, v) ∧
      v.tables = w.tables ++ [.empty]
  table : ∀ id,
    let v := (performWith evaluators (.newTable id) w).state
    v.place? (.named id) = some w.tables.length ∧ v.tables = w.tables ++ [.empty]
  apart : ∀ target e, w.resolve target = some (e, w) → e.place < w.tables.length

theorem Workspace.Sound.gives {w : Workspace ι} (h : w.Sound) (evaluators : Evaluators ι) :
    w.Gives evaluators := by
  refine ⟨fun id name options place hplace => ?_, fun id name options place hplace => ?_,
    fun id options => ?_, fun id => ?_, fun target e hresolve => (h.resolve hresolve).2.1⟩
  · simp [performWith, make, Host.workspace, Host.put, Workspace.placeForNew, hplace, Workspace.resolve]
  · simp [performWith, make, Host.workspace, Host.put, hplace, Workspace.resolve, EvaluatorObject.new]
  · simp [performWith, make, Host.workspace, Host.put, Workspace.placeForNew, Workspace.addTable,
      Workspace.resolve]
  · simp [performWith, make, Host.workspace, Host.put, Workspace.addTable, place?]

/-! ### What histories record -/

/-- A history grows by what is registered and cleared, and by the deeds of evaluations: those of the source
and of the implementations that are called. Whatever a command does, it passes sound sessions only. -/
structure Session.Records (plan : ι → List Float → Plan ι) (depth : Nat) (s : Session ι) : Prop where
  registers : ∀ target e v r d, s.workspace.resolve target = some (e, v) → r.definition = .ok d →
    let outcome := Workspace.performWith (Plan.evaluators plan (depth + 1)) (.ask target (.register r)) s
    outcome.result = .ok (some .nothing) ∧
      outcome.state.changes = s.changes ++ [(e.place, .insert d)]
  refuses : ∀ target e v r fault, s.workspace.resolve target = some (e, v) →
    r.definition = .error fault →
    let outcome := Workspace.performWith (Plan.evaluators plan (depth + 1)) (.ask target (.register r)) s
    outcome.result = .error fault ∧ outcome.state.changes = s.changes
  clears : ∀ target e v, s.workspace.resolve target = some (e, v) →
    let outcome := Workspace.performWith (Plan.evaluators plan (depth + 1)) (.ask target .clear) s
    outcome.result = .ok (some .nothing) ∧ outcome.state.changes = s.changes ++ [(e.place, .clear)]
  evaluates : ∀ target e v source, s.workspace.resolve target = some (e, v) →
    Relation.ReflTransGen (@Deed ι (Session ι) e.store
      (fun implementation arguments =>
        (plan implementation arguments).run (Plan.evaluators plan depth) e) source)
      (Host.put v s) (Workspace.performWith (Plan.evaluators plan (depth + 1))
        (.ask target (.evaluate (some source))) s).state
  looks : ∀ command, (∀ target r, command ≠ .ask target (.register r)) →
    (∀ target, command ≠ .ask target .clear) →
    (∀ target source, command ≠ .ask target (.evaluate (some source))) →
    (Workspace.performWith (Plan.evaluators plan (depth + 1)) command s).state.changes = s.changes
  passes : ∀ command,
    s.Passes (Workspace.performWith (Plan.evaluators plan (depth + 1)) command s).state

/-- What is looked up is found in the table that the operators refer to. -/
theorem EvaluatorObject.run_lookup {ω : Type} [Host ω ι] (evaluators : Workspace.Evaluators ι ω)
    (e : EvaluatorObject) (item : Item) (s : ω) :
    e.run evaluators (.lookup item) s =
      ⟨(item.lookup e.registry.options ((Host.workspace s).tableAt e.registry.place)).map .operator,
        s, []⟩ := by
  have hlookup : e.run evaluators (.lookup item) s =
      (Run.ofExcept (item.lookup e.registry.options ((Host.workspace s).tableAt e.registry.place)) >>=
        fun op => pure (.operator op)) s := rfl
  rw [hlookup, Run.bind_pure_apply, Run.ofExcept_result, Run.ofExcept_state, Run.ofExcept_trace]

/-- Looking changes nothing. -/
theorem EvaluatorObject.state_run_of_look {ω : Type} [Host ω ι] {evaluators : Workspace.Evaluators ι ω}
    {e : EvaluatorObject} {request : Request ι} {s : ω} (hregister : ∀ r, request ≠ .register r)
    (hclear : request ≠ .clear) (hevaluate : ∀ source, request ≠ .evaluate source) :
    (e.run evaluators request s).state = s := by
  cases request with
  | register r => exact absurd rfl (hregister r)
  | clear => exact absurd rfl hclear
  | evaluate source => exact absurd rfl (hevaluate source)
  | definition name =>
      simp only [run, Request.run, Run.bind_pure_apply, Run.definition]
      exact Run.ofExcept_state _ s
  | lookup item => rw [e.run_lookup]
  | _ => rfl

/-- No implementation runs but in evaluations. -/
theorem EvaluatorObject.references_run_of_ne {evaluators : Workspace.Evaluators ι (Session ι)}
    {e : EvaluatorObject} {request : Request ι} (h : ∀ source, request ≠ .evaluate source)
    (s : Session ι) : (e.run evaluators request s).state.references = s.references := by
  cases request with
  | evaluate source => exact absurd rfl (h source)
  | register r =>
      cases hd : r.definition <;> simp only [run, Request.run, Run.register, hd] <;> rfl
  | clear => rfl
  | _ =>
      refine congrArg Session.references (e.state_run_of_look (fun r hr => ?_) (fun hr => ?_) h)
      all_goals cases hr

section Records

open Workspace

variable {plan : ι → List Float → Plan ι} {depth : Nat}

theorem Session.Sound.records {s : Session ι} (h : s.Sound) : s.Records plan depth := by
  refine ⟨fun target e v r d hresolve hd => ?_, fun target e v r fault hresolve hrefused => ?_,
    fun target e v hresolve => ?_, fun target e v source hresolve => ?_,
    fun command hregister hclear hevaluate => ?_, fun command => ?_⟩
  · rw [performWith_of_resolve hresolve]
    simp only [EvaluatorObject.run, Request.run, Run.register, hd]
    exact ⟨rfl, rfl⟩
  · rw [performWith_of_resolve hresolve]
    simp only [EvaluatorObject.run, Request.run, Run.register, hrefused]
    exact ⟨rfl, rfl⟩
  · rw [performWith_of_resolve hresolve]
    exact ⟨rfl, rfl⟩
  · have hevaluated : (performWith (Plan.evaluators plan (depth + 1))
        (.ask target (.evaluate (some source))) s).state =
          (Plan.evaluators plan (depth + 1) e (some source) (Host.put v s)).state := by
      rw [performWith_of_resolve hresolve]
      simp only [EvaluatorObject.run, Request.run, Run.bind_pure_apply]
    rw [hevaluated]
    exact Plan.deeds_evaluators plan depth e source _
  · have hmake : ∀ object : Workspace ι → Option (Workspace ι),
        (make object s).state.changes = s.changes := by
      intro object
      unfold make
      split <;> rfl
    cases command with
    | newTable id => exact hmake _
    | newEvaluator id table options => exact hmake _
    | newRegistry id table options => exact hmake _
    | ask target request =>
        cases hresolve : s.workspace.resolve target with
        | none => rw [performWith_of_resolve_none hresolve]
        | some found =>
            obtain ⟨e, v⟩ := found
            have hlook : (e.run (Plan.evaluators plan (depth + 1)) request (Host.put v s)).state =
                Host.put v s := by
              by_cases hnone : request = .evaluate none
              · rw [hnone]
                rfl
              · refine e.state_run_of_look (fun r hr => hregister target r (congrArg _ hr))
                  (fun hr => hclear target (congrArg _ hr)) fun source hr => ?_
                cases source with
                | none => exact hnone hr
                | some source => exact hevaluate target source (congrArg _ hr)
            rw [performWith_of_resolve hresolve]
            change (e.run (Plan.evaluators plan (depth + 1)) request (Host.put v s)).state.changes = _
            rw [hlook]
            rfl
  · have hleads : Run.Leads (Session.Reaches 0)
        (performWith (Plan.evaluators plan (depth + 1)) command) :=
      leads_performWith (Plan.leads_evaluators plan (depth + 1)) command
    exact (hleads.reaches s).passes h (Nat.zero_le _)

end Records

/-! ### What comes of requests -/

/-- Two outcomes that are the same, as far as places correspond. Traces may tell of different tables
unless they have to be the same. -/
structure Outcome.Same {α : Type} (exact : Prop) (pairs : Nat → Nat → Prop)
    (one two : Outcome (Workspace ι) α) : Prop where
  result : one.result = two.result
  trace : List.Forall₂ Event.Alike one.trace two.trace
  exactly : exact → one.trace = two.trace
  state : one.state.Matches pairs two.state

/-- What comes of a request depends on the objects, the table at hand and the tables that implementations
look at. So nobody notices a change of any other table, and a new evaluator would do the same on the same
table, or on another one with the same contents that nobody refers to. -/
structure Workspace.Isolates (plan : ι → List Float → Plan ι) (depth : Nat) (w : Workspace ι) : Prop where
  congr : ∀ (e e' : EvaluatorObject) (request : Request ι) (v : Workspace ι) (exact : Prop)
    (known : Nat → Prop), e = .new e.place e.options → e' = .new e'.place e.options →
      Pairing.Apart known e.place e'.place →
      (∀ reference ∈ Plan.references plan depth e request w,
        reference.Allowed exact known e.place e'.place) →
      w.Matches (Pairing known e.place e'.place) v →
    (e.run (Plan.evaluators plan depth) request w).Same exact (Pairing known e.place e'.place)
      (e'.run (Plan.evaluators plan depth) request v)
  others : ∀ (e : EvaluatorObject) (request : Request ι) (place : Nat) (c : Change ι),
    let references := Plan.references plan depth e request w
    e = .new e.place e.options → place ≠ e.place → .looks place ∉ references →
    (e.run (Plan.evaluators plan depth) request w).Same (.changes place ∉ references)
      (Pairing (· ≠ place) e.place e.place)
      (e.run (Plan.evaluators plan depth) request (w.changeAt place c))
  again : ∀ (id : String) (e : EvaluatorObject) (name : TableName) (request : Request ι),
    w.evaluators.lookup id = some e → w.place? name = some e.place →
    performWith (Plan.evaluators plan depth) (.ask (.evaluator id) request) w =
      performWith (Plan.evaluators plan depth) (.ask (.passing (some name) e.options) request) w
  anew : ∀ (id : String) (e : EvaluatorObject) (name : TableName) (place : Nat) (request : Request ι),
    let references := Plan.references plan depth e request w
    w.evaluators.lookup id = some e → w.place? name = some place →
      w.tableAt e.place = w.tableAt place →
      (∀ other, other = e.place ∨ other = place →
        .looks other ∉ references ∧ .changes other ∉ references) →
    (performWith (Plan.evaluators plan depth) (.ask (.evaluator id) request) w).Same True
      (Pairing (fun other => other ≠ e.place ∧ other ≠ place) e.place place)
      (performWith (Plan.evaluators plan depth) (.ask (.passing (some name) e.options) request) w)
  atHand : (∀ implementation arguments, (plan implementation arguments).AtHand) →
    ∀ (e : EvaluatorObject) (request : Request ι) (place : Nat),
      .looks place ∉ Plan.references plan depth e request w
  alone : ∀ (e : EvaluatorObject) (request : Request ι), (∀ source, request ≠ .evaluate source) →
    Plan.references plan depth e request w = []

section Isolates

open Run Workspace

variable {plan : ι → List Float → Plan ι} {depth : Nat}

theorem Workspace.outcome_congr {e e' : EvaluatorObject} {request : Request ι} {w v : Workspace ι}
    (he : e = .new e.place e.options) (he' : e' = .new e'.place e.options)
    (hapart : Pairing.Apart known e.place e'.place)
    (hallowed : ∀ reference ∈ Plan.references plan depth e request w,
      reference.Allowed exact known e.place e'.place)
    (hmatch : w.Matches (Pairing known e.place e'.place) v) :
    (e.run (Plan.evaluators plan depth) request w).Same exact (Pairing known e.place e'.place)
      (e'.run (Plan.evaluators plan depth) request v) := by
  have hforget : e.run (Plan.evaluators plan depth) request w =
      (e.run (Plan.evaluators plan depth) request (Session.of w)).forget :=
    e.forget_run plan depth request (Session.of w)
  have hcorresponds : e.Corresponds (Pairing known e.place e'.place) e' := by
    refine ⟨.atHand, ?_, ?_, ?_⟩ <;> rw [he, he']
    · exact .atHand
    · rfl
    · rfl
  have hrelated : Related (.matching exact known e.place e'.place) Eq
      (e.run (Plan.evaluators plan depth) request) (e'.run (Plan.evaluators plan depth) request) :=
    e.related_run hapart (Plan.related_evaluators hapart plan depth) hcorresponds request
  rw [hforget]
  rcases hrelated.alike (Session.of w) v hmatch with
    (⟨reference, hmem, hnot⟩ | ⟨_, _, hexcused⟩) | ⟨hended, hstates, htraces⟩
  · exact absurd (hallowed reference hmem) hnot
  · exact hexcused.elim
  · exact ⟨ended_eq_iff.1 hended, htraces.1, htraces.2, hstates⟩

/-- A workspace matches itself with another place instead of one that has the same contents. -/
theorem Workspace.matches_of_tableAt {w : Workspace ι} (hp : p < w.tables.length)
    (hq : q < w.tables.length) (h : w.tableAt p = w.tableAt q) :
    w.Matches (Pairing known p q) w := by
  refine ⟨rfl, rfl, rfl, rfl, fun a b hab => ?_, fun a b hab => ?_⟩
  · cases hab with
    | atHand => exact Or.inr ⟨hp, hq⟩
    | itself hknown => exact Or.inl rfl
  · cases hab with
    | atHand => exact h
    | itself hknown => rfl

/-- A workspace matches itself with a change of a table that is neither at hand nor known. -/
theorem Workspace.matches_changeAt {place : Nat} (hne : place ≠ p) (w : Workspace ι) (c : Change ι) :
    w.Matches (Pairing (· ≠ place) p p) (w.changeAt place c) := by
  have hself := matches_self (· ≠ place) p w
  refine ⟨rfl, rfl, rfl, (w.length_changeAt place c).symm, fun a b hab => ?_, fun a b hab => ?_⟩
  · rw [w.length_changeAt]
    exact hself.range a b hab
  · have hother : place ≠ b := by
      cases hab with
      | atHand => exact hne
      | itself hknown => exact hknown.symm
    rw [tableAt_changeAt, if_neg fun hboth => hother hboth.1]
    exact hself.tableAt a b hab

theorem Workspace.resolve_evaluator {w : Workspace ι} {id : String} {e : EvaluatorObject}
    (h : w.evaluators.lookup id = some e) : w.resolve (.evaluator id) = some (e, w) := by
  rw [Workspace.resolve, h]
  rfl

theorem Workspace.resolve_passing {w : Workspace ι} {name : TableName} {place : Nat}
    (h : w.place? name = some place) (options : Options) :
    w.resolve (.passing (some name) options) = some (.new place options, w) := by
  rw [Workspace.resolve, Workspace.placeForNew, h]
  rfl

theorem Workspace.Sound.isolates {w : Workspace ι} (h : w.Sound) : w.Isolates plan depth := by
  refine ⟨fun e e' request v exact known he he' => outcome_congr he he', ?_,
    fun id e name request hid hname => ?_, ?_,
    fun hplan e request place => Plan.looks_notMem hplan depth e request w place,
    fun e request hlook => e.references_run_of_ne hlook _⟩
  · intro e request place c references he hne hlooks
    refine outcome_congr he he (Or.inl rfl) (fun reference hmem => ?_) (matches_changeAt hne w c)
    cases reference with
    | looks other => exact .itself fun hsame => hlooks (hsame ▸ hmem)
    | changes other => exact ⟨Or.inl rfl, fun hnever => .itself fun hsame => hnever (hsame ▸ hmem)⟩
  · have he := (h.evaluators id e hid).2
    rw [performWith_of_resolve (resolve_evaluator hid), performWith_of_resolve (resolve_passing hname _),
      ← he]
    rfl
  · intro id e name place request references hid hname htable hnever
    obtain ⟨hlt, he⟩ := h.evaluators id e hid
    have hother : ∀ other, (.looks other ∈ references ∨ .changes other ∈ references) →
        other ≠ e.place ∧ other ≠ place := by
      intro other hmem
      refine not_or.1 fun hsame => ?_
      obtain ⟨hlooks, hchanges⟩ := hnever other hsame
      exact hmem.elim hlooks hchanges
    have hallowed : ∀ reference ∈ references,
        reference.Allowed True (fun other => other ≠ e.place ∧ other ≠ place) e.place place := by
      intro reference hmem
      cases reference with
      | looks other => exact .itself (hother other (Or.inl hmem))
      | changes other =>
          have hdiffers := hother other (Or.inr hmem)
          exact ⟨Or.inr hdiffers, fun _ => .itself hdiffers⟩
    have hrefers : EvaluatorObject.new place e.options = .new place e.options := rfl
    have hsame := outcome_congr he hrefers (Or.inr ⟨fun hboth => hboth.1 rfl, fun hboth => hboth.2 rfl⟩)
      hallowed (matches_of_tableAt hlt (h.place_lt hname) htable)
    rw [performWith_of_resolve (resolve_evaluator hid), performWith_of_resolve (resolve_passing hname _)]
    exact ⟨congrArg (·.map some) hsame.result, hsame.trace, hsame.exactly, hsame.state⟩

end Isolates

/-! ### After any commands -/

namespace Workspace

theorem result_ask {evaluators : Evaluators ι} {w v : Workspace ι} {target : Target}
    {e : EvaluatorObject} (h : w.resolve target = some (e, v)) (request : Request ι) :
    (performWith evaluators (.ask target request) w).result =
      (e.run evaluators request v).result.map some := by
  rw [performWith_of_resolve h]
  rfl

/-- **Tables are shared by those who refer to them, and nothing else is kept.** Whatever commands have been
given, and whatever implementations do in the workspace: every table is the one that lists the
registrations that it has accepted since it was cleared last, by whatever route they came, and whoever
refers to it sees just this, an evaluator by both of its references. A table takes what is asked of it, and
an evaluation does to tables what its source and the implementations that it calls do, however it ends; the
tables list what they have accepted at every moment on the way, too. New objects refer to the table that
they are given, even if it is empty, or to one that nobody else refers to. No change of a table is noticed
by those who refer to another one, unless their own implementations look at it; and nothing remains of an
evaluation but the tables, so that a new evaluator on the same table, or on one with the same contents,
goes on in the same way. -/
theorem shared_after (plan : ι → List Float → Plan ι) (depth : Nat) (commands : List (Command ι)) :
    let s := after (Plan.evaluators plan (depth + 1)) commands (Session.of .empty)
    let w := after (Plan.evaluators plan (depth + 1)) commands .empty
    s.Sees w ∧ s.Records plan depth ∧ w.Gives (Plan.evaluators plan (depth + 1)) ∧
      w.Isolates plan (depth + 1) := by
  intro s w
  have hw : s.workspace = w := forget_after plan (depth + 1) commands (Session.of .empty)
  have hsound : s.Sound := sound_after plan (depth + 1) commands Session.sound_empty
  rw [← hw]
  exact ⟨hsound.sees, hsound.records, hsound.workspace.gives _, hsound.workspace.isolates⟩

/-- One plan registers a function at hand, one registers a function with another evaluator, and any other
one returns a number. -/
def lending : Nat → List Float → Plan Nat
  | 0, _ => .asks (.register ⟨"g", 1, 2⟩) fun _ => .ends (.ok (.float 1))
  | 1, _ => .performs (.ask (.evaluator "a") (.register ⟨"k", 0, 2⟩)) fun _ => .ends (.ok (.float 2))
  | _, _ => .ends (.ok (.float 3))

def calling (name : String) : Request Nat :=
  .evaluate (some (Token.source [.operator (.callStart name), .operator (.control .endExpr)]))

/-- Two evaluators and a registry on one table, and an evaluator on another one. -/
def aliased : List (Command Nat) :=
  [.newTable "t", .newEvaluator "a" (some (.named "t")) ⟨false⟩,
    .newEvaluator "b" (some (.ofEvaluator "a")) ⟨false⟩, .newRegistry "r" (.named "t") ⟨false⟩,
    .newEvaluator "c" none ⟨false⟩, .ask (.evaluator "a") (.register ⟨"f", 0, 0⟩),
    .ask (.evaluator "c") (.register ⟨"h", 0, 1⟩), .ask (.evaluator "b") (calling "f"),
    .ask (.evaluator "c") (calling "h")]

/-- What the second evaluator calls registers a function, and what the third one calls registers another
one with the first evaluator. All who refer to the first table see both, be it by the functions or by the
operators. What the third evaluator calls does not change when that table is cleared, and a new evaluator
on it does what the first one does. -/
theorem shared_after_aliased :
    let s : Session Nat := after (Plan.evaluators lending 1) aliased (.of .empty)
    let w : Workspace Nat := after (Plan.evaluators lending 1) aliased .empty
    let performed (command : Command Nat) := performWith (Plan.evaluators lending 1) command w
    (w.tableAt 0).Lists (Operation.accepted (s.operationsAt 0)) ∧
    (Operation.accepted (s.operationsAt 0)).map (fun r => (r.name, r.arity)) =
      [("f", 0), ("g", 1), ("k", 0)] ∧
    (∀ target ∈ [.table (.named "t"), .evaluator "a", .evaluator "b"],
      (performed (.ask target .listing)).result =
        .ok (some (.listing [("f", 0), ("g", 1), ("k", 0)]))) ∧
    (∀ target ∈ [.evaluator "a", .evaluator "b", .registry "r"],
      (performed (.ask target (.lookup (.kind (.callStart "g"))))).result =
        .ok (some (.operator (.call 1)))) ∧
    (performed (.ask (.evaluator "c") .listing)).result = .ok (some (.listing [("h", 0)])) ∧
    (performWith (Plan.evaluators lending 1) (.ask (.evaluator "c") (calling "h"))
      (w.changeAt 0 .clear)).result = (performed (.ask (.evaluator "c") (calling "h"))).result ∧
    performed (.ask (.evaluator "a") (calling "f")) =
      performed (.ask (.passing (some (.named "t")) ⟨false⟩) (calling "f")) := by
  intro s w performed
  obtain ⟨hsees, _, _, hisolates⟩ := shared_after lending 0 aliased
  have ha : w.evaluators.lookup "a" = some (.new 0 ⟨false⟩) := by decide +kernel
  have hb : w.evaluators.lookup "b" = some (.new 0 ⟨false⟩) := by decide +kernel
  have hc : w.evaluators.lookup "c" = some (.new 1 ⟨false⟩) := by decide +kernel
  have ht : w.place? (.named "t") = some 0 := by decide +kernel
  have hr : w.registries.lookup "r" = some ⟨0, ⟨false⟩⟩ := by decide +kernel
  have hfirst : (w.tableAt 0).toList.map (fun d => (d.name, d.arity)) =
      [("f", 0), ("g", 1), ("k", 0)] := by decide +kernel
  have hcall : (Kind.callStart "g").lookup ⟨false⟩ (w.tableAt 0) = .ok (.call 1) :=
    Run.ok_of_toOption (by decide +kernel)
  have hsecond : (w.tableAt 1).toList.map (fun d => (d.name, d.arity)) = [("h", 0)] := by decide +kernel
  have hrefers : Plan.references lending 1 (.new 1 ⟨false⟩) (calling "h") w = [.changes 0] := by
    decide +kernel
  have hlisting : ∀ target e, w.resolve target = some (e, w) → e.place = 0 →
      (performed (.ask target .listing)).result =
        .ok (some (.listing [("f", 0), ("g", 1), ("k", 0)])) := by
    intro target e hresolve hplace
    rw [result_ask hresolve, ← hfirst, ← hplace]
    rfl
  have hlookup : ∀ target e, w.resolve target = some (e, w) → e.registry = ⟨0, ⟨false⟩⟩ →
      (performed (.ask target (.lookup (.kind (.callStart "g"))))).result =
        .ok (some (.operator (.call 1))) := by
    intro target e hresolve hregistry
    have hfound : (Kind.callStart "g").lookup e.registry.options (w.tableAt e.registry.place) =
        .ok (.call 1) := by
      rw [hregistry]
      exact hcall
    rw [result_ask hresolve, e.run_lookup]
    exact congrArg (fun r => (r.map Answer.operator).map some) hfound
  refine ⟨(hsees.lists 0 _).2 rfl, by decide +kernel, ?_, ?_, ?_, ?_, ?_⟩
  · simp only [List.forall_mem_cons, List.not_mem_nil, false_implies, implies_true, and_true]
    refine ⟨hlisting _ (.new 0 .standard) ?_ rfl, hlisting _ _ (resolve_evaluator ha) rfl,
      hlisting _ _ (resolve_evaluator hb) rfl⟩
    rw [Workspace.resolve, ht]
    rfl
  · simp only [List.forall_mem_cons, List.not_mem_nil, false_implies, implies_true, and_true]
    refine ⟨hlookup _ _ (resolve_evaluator ha) rfl, hlookup _ _ (resolve_evaluator hb) rfl,
      hlookup _ ⟨0, ⟨false⟩, ⟨0, ⟨false⟩⟩⟩ ?_ rfl⟩
    rw [Workspace.resolve, hr]
    rfl
  · rw [result_ask (resolve_evaluator hc), ← hsecond]
    rfl
  · have hlooks : .looks 0 ∉ Plan.references lending 1 (.new 1 ⟨false⟩) (calling "h") w := by
      rw [hrefers]
      decide
    have hsame := hisolates.others (.new 1 ⟨false⟩) (calling "h") 0 .clear rfl (by decide) hlooks
    rw [result_ask (resolve_evaluator hc), result_ask (resolve_evaluator (w := w.changeAt 0 .clear) hc),
      hsame.result]
  · exact hisolates.again "a" (.new 0 ⟨false⟩) (.named "t") (calling "f") ha ht

end Workspace

end Reckoner
