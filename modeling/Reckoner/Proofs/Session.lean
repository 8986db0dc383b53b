import Reckoner.Proofs.Arrival
import Reckoner.Proofs.Plan

/-!
Workspaces with their history. A session is a workspace that remembers every change of a table, by its
place, and how implementations have referred to tables. In a session that is sound the places of all
objects are those of tables that have been made, an evaluator and its registry refer to the same one, and
every table lists what its history leaves of it. One change keeps that, and making objects keeps it. Plans
and evaluations at any depth do one such thing after the other (`Plan.leads_evaluators`), and so do
commands (`Workspace.leads_performWith`), so that a sound session stays so all the time.
-/

namespace Reckoner

variable {ι : Type}

/-! ### Tables of a workspace -/

namespace Workspace

variable {w v : Workspace ι}

theorem tableAt_changeAt (w : Workspace ι) (place : Nat) (c : Change ι) (other : Nat) :
    (w.changeAt place c).tableAt other =
      if place = other ∧ other < w.tables.length then (w.tableAt other).change c
      else w.tableAt other := by
  change (w.tables.modify place (·.change c))[other]?.getD .empty = _
  rw [List.getElem?_modify]
  rcases Nat.lt_or_ge other w.tables.length with hlt | hle
  · by_cases hplace : place = other
    · simp [tableAt, hplace, hlt]
    · simp [tableAt, hplace]
  · have hnot : ¬(place = other ∧ other < w.tables.length) := fun h => absurd h.2 (Nat.not_lt.2 hle)
    rw [if_neg hnot, tableAt, List.getElem?_eq_none hle]
    rfl

theorem tableAt_addTable (w : Workspace ι) (place : Nat) :
    w.addTable.2.tableAt place = w.tableAt place := by
  change (w.tables ++ [.empty])[place]?.getD .empty = w.tables[place]?.getD .empty
  rcases Nat.lt_or_ge place w.tables.length with hlt | hle
  · rw [List.getElem?_append_left hlt]
  · rw [List.getElem?_append_right hle, List.getElem?_eq_none hle]
    cases place - w.tables.length <;> rfl

theorem length_addTable (w : Workspace ι) : w.addTable.2.tables.length = w.tables.length + 1 := by
  simp [addTable]

theorem length_changeAt (w : Workspace ι) (place : Nat) (c : Change ι) :
    (w.changeAt place c).tables.length = w.tables.length := by
  simp [changeAt]

/-- A new evaluator gets the table that it is given, or a new one. -/
theorem placeForNew_eq {name : Option TableName} {place : Nat}
    (h : w.placeForNew name = some (place, v)) :
    (∃ given, name = some given ∧ w.place? given = some place ∧ v = w) ∨
      name = none ∧ place = w.tables.length ∧ v = w.addTable.2 := by
  cases name with
  | some given =>
      obtain ⟨_, hplace, hsame⟩ := Option.map_eq_some_iff.1 h
      cases hsame
      exact Or.inl ⟨given, rfl, hplace, rfl⟩
  | none =>
      cases h
      exact Or.inr ⟨rfl, rfl, rfl⟩

/-- All references are to tables that have been made, and an evaluator refers to the same one as its
registry does. -/
structure Sound (w : Workspace ι) : Prop where
  tableNames : ∀ id place, w.tableNames.lookup id = some place → place < w.tables.length
  evaluators : ∀ id e, w.evaluators.lookup id = some e →
    e.place < w.tables.length ∧ e = .new e.place e.options
  registries : ∀ id r, w.registries.lookup id = some r → r.place < w.tables.length

theorem sound_empty : (empty : Workspace ι).Sound := by
  constructor <;> exact fun _ _ h => nomatch h

theorem Sound.place_lt (h : w.Sound) {name : TableName} {place : Nat}
    (hplace : w.place? name = some place) : place < w.tables.length := by
  cases name with
  | named id => exact h.tableNames id place hplace
  | ofEvaluator id =>
      obtain ⟨e, he, rfl⟩ := Option.map_eq_some_iff.1 hplace
      exact (h.evaluators id e he).1
  | placed other =>
      simp only [place?, Option.ite_none_right_eq_some] at hplace
      obtain ⟨hlt, hsame⟩ := hplace
      rw [← Option.some.inj hsame]
      exact hlt

theorem lookup_cons_of {α : Type} {good : α → Prop} {entries : List (String × α)} {id : String}
    {a : α} (hfirst : good a) (hrest : ∀ id a, entries.lookup id = some a → good a) :
    ∀ id' a', ((id, a) :: entries).lookup id' = some a' → good a' := by
  intro id' a' h
  rw [List.lookup_cons] at h
  split at h
  · rw [← Option.some.inj h]
    exact hfirst
  · exact hrest id' a' h

theorem Sound.addTable (h : w.Sound) : w.addTable.2.Sound := by
  have hlt : ∀ place, place < w.tables.length → place < w.addTable.2.tables.length := by
    intro place hplace
    rw [length_addTable]
    omega
  exact ⟨fun id place hplace => hlt place (h.tableNames id place hplace),
    fun id e he => (h.evaluators id e he).imp_left (hlt e.place),
    fun id r hr => hlt r.place (h.registries id r hr)⟩

theorem Sound.changeAt (h : w.Sound) (place : Nat) (c : Change ι) : (w.changeAt place c).Sound := by
  constructor <;> rw [length_changeAt]
  exacts [h.tableNames, h.evaluators, h.registries]

theorem Sound.placeForNew (h : w.Sound) {name : Option TableName} {place : Nat}
    (hnew : w.placeForNew name = some (place, v)) : v.Sound ∧ place < v.tables.length := by
  obtain ⟨_, _, hgiven, rfl⟩ | ⟨_, rfl, rfl⟩ := placeForNew_eq hnew
  · exact ⟨h, h.place_lt hgiven⟩
  · rw [length_addTable]
    exact ⟨h.addTable, Nat.lt_succ_self _⟩

/-- Whoever deals with requests refers to one table, which has been made. -/
theorem Sound.resolve (h : w.Sound) {target : Target} {e : EvaluatorObject}
    (hresolve : w.resolve target = some (e, v)) :
    v.Sound ∧ e.place < v.tables.length ∧ e = .new e.place e.options := by
  cases target with
  | table name =>
      obtain ⟨place, hplace, hsame⟩ := Option.map_eq_some_iff.1 hresolve
      cases hsame
      exact ⟨h, h.place_lt hplace, rfl⟩
  | evaluator id =>
      obtain ⟨_, he, hsame⟩ := Option.map_eq_some_iff.1 hresolve
      cases hsame
      exact ⟨h, h.evaluators id e he⟩
  | registry id =>
      obtain ⟨r, hr, hsame⟩ := Option.map_eq_some_iff.1 hresolve
      cases hsame
      exact ⟨h, h.registries id r hr, rfl⟩
  | passing name options =>
      obtain ⟨⟨place, _⟩, hnew, hsame⟩ := Option.map_eq_some_iff.1 hresolve
      cases hsame
      obtain ⟨hsound, hlt⟩ := h.placeForNew hnew
      exact ⟨hsound, hlt, rfl⟩

/-- Names and tables may be added, and tables keep their contents. -/
structure Grows (w v : Workspace ι) : Prop where
  sound : w.Sound → v.Sound
  length : w.tables.length ≤ v.tables.length
  tableAt : ∀ place, v.tableAt place = w.tableAt place

theorem Grows.refl (w : Workspace ι) : w.Grows w := ⟨id, Nat.le_refl _, fun _ => rfl⟩

theorem grows_addTable (w : Workspace ι) : w.Grows w.addTable.2 :=
  ⟨Sound.addTable, by rw [length_addTable]; exact Nat.le_succ _, w.tableAt_addTable⟩

theorem grows_placeForNew {name : Option TableName} {place : Nat}
    (h : w.placeForNew name = some (place, v)) : w.Grows v := by
  obtain ⟨_, _, _, rfl⟩ | ⟨_, _, rfl⟩ := placeForNew_eq h
  · exact .refl _
  · exact w.grows_addTable

theorem grows_resolve {target : Target} {e : EvaluatorObject} (h : w.resolve target = some (e, v)) :
    w.Grows v := by
  cases target with
  | passing name options =>
      obtain ⟨_, hnew, hsame⟩ := Option.map_eq_some_iff.1 h
      cases hsame
      exact grows_placeForNew hnew
  | _ =>
      obtain ⟨_, _, hsame⟩ := Option.map_eq_some_iff.1 h
      cases hsame
      exact .refl _

end Workspace

/-! ### Sessions -/

/-- A workspace with its history: the changes of tables, each with the place of its table, and how
implementations have referred to tables. -/
structure Session (ι : Type) where
  workspace : Workspace ι
  changes : List (Nat × Change ι)
  references : List Reference

instance : Watched (Session ι) ι where
  workspace s := s.workspace
  put w s := { s with workspace := w }
  change place c s :=
    { s with workspace := s.workspace.changeAt place c, changes := s.changes ++ [(place, c)] }
  refer references s := { s with references := s.references ++ references }

def Change.operation : Change ι → Operation ι
  | insert d => .register d.registration
  | clear => .clear

/-- A table that has taken a change lists one more operation. -/
theorem FunctionTable.Lists.change {table : FunctionTable ι} {ops : List (Operation ι)}
    (h : table.Lists (Operation.accepted ops)) (c : Change ι) :
    (table.change c).Lists (Operation.accepted (ops ++ [c.operation])) := by
  rw [Operation.accepted_append]
  cases c with
  | clear => exact lists_empty
  | insert d =>
      have harity : ¬d.registration.arity < 0 := Int.not_lt.2 (Int.natCast_nonneg d.arity)
      simp only [Change.operation, if_neg harity]
      exact h.insert d

namespace Session

def of (w : Workspace ι) : Session ι := ⟨w, [], []⟩

/-- What has been done to the table of a place. -/
def operationsAt (s : Session ι) (place : Nat) : List (Operation ι) :=
  (s.changes.filter (·.1 == place)).map (·.2.operation)

/-- References are sound, and every table lists what its history leaves of it. -/
structure Sound (s : Session ι) : Prop where
  workspace : s.workspace.Sound
  lists : ∀ place, (s.workspace.tableAt place).Lists (Operation.accepted (s.operationsAt place))

theorem sound_empty : (of .empty : Session ι).Sound :=
  ⟨Workspace.sound_empty, fun _ => FunctionTable.lists_empty⟩

theorem Sound.put {s : Session ι} {w : Workspace ι} (h : s.Sound) (hgrows : s.workspace.Grows w) :
    (Host.put w s).Sound :=
  ⟨hgrows.sound h.workspace, fun place => (hgrows.tableAt place).symm ▸ h.lists place⟩

theorem operationsAt_change (place : Nat) (c : Change ι) (s : Session ι) (other : Nat) :
    (Host.change place c s : Session ι).operationsAt other =
      s.operationsAt other ++ if place = other then [c.operation] else [] := by
  have happend : (Host.change place c s : Session ι).operationsAt other =
      s.operationsAt other ++ (([(place, c)].filter (·.1 == other)).map (·.2.operation)) := by
    rw [operationsAt, operationsAt, ← List.map_append, ← List.filter_append]
    rfl
  rw [happend]
  by_cases hsame : place = other <;> simp [hsame]

theorem Sound.change {s : Session ι} {place : Nat} (h : s.Sound)
    (hplace : place < s.workspace.tables.length) (c : Change ι) : (Host.change place c s).Sound := by
  refine ⟨h.workspace.changeAt place c, fun other => ?_⟩
  have htable : (Host.change place c s : Session ι).workspace.tableAt other =
      if place = other ∧ other < s.workspace.tables.length then (s.workspace.tableAt other).change c
      else s.workspace.tableAt other := s.workspace.tableAt_changeAt place c other
  rw [htable, operationsAt_change]
  by_cases hsame : place = other
  · subst hsame
    rw [if_pos ⟨rfl, hplace⟩, if_pos rfl]
    exact (h.lists place).change c
  · rw [if_neg fun hboth => hsame hboth.1, if_neg hsame, List.append_nil]
    exact h.lists other

/-! ### From one state of a session to the next -/

/-- One thing that happens in a session: a table is changed, objects are added, or references are taken
down. -/
inductive Happens : Session ι → Session ι → Prop where
  | changes (place : Nat) (c : Change ι) (s : Session ι) : Happens s (Host.change place c s)
  | adds {s : Session ι} {w : Workspace ι} (h : s.workspace.Grows w) : Happens s (Host.put w s)
  | refers (references : List Reference) (s : Session ι) : Happens s (Watched.refer references s)

/-- One thing happens after the other, and the session stays sound all the time. -/
def Passes : Session ι → Session ι → Prop :=
  Relation.ReflTransGen fun before later => before.Happens later ∧ later.Sound

variable {size : Nat} {s s' s'' : Session ι}

theorem Sound.passes (h : s.Sound) (hpasses : s.Passes s') : s'.Sound := by
  cases hpasses with
  | refl => exact h
  | tail _ hlast => exact hlast.2

/-- One state of a session comes later than another one. A sound session that has a number of tables
passes from the one to the other. -/
structure Reaches (size : Nat) (s s' : Session ι) : Prop where
  references : s.references ⊆ s'.references
  changes : s.changes <+: s'.changes
  length : s.workspace.tables.length ≤ s'.workspace.tables.length
  passes : s.Sound → size ≤ s.workspace.tables.length → s.Passes s'

theorem Reaches.refl (size : Nat) (s : Session ι) : Reaches size s s :=
  ⟨List.Subset.refl _, List.prefix_rfl, Nat.le_refl _, fun _ _ => .refl⟩

theorem Reaches.sound (h : Reaches size s s') (hsound : s.Sound)
    (hsize : size ≤ s.workspace.tables.length) : s'.Sound := hsound.passes (h.passes hsound hsize)

theorem Reaches.trans (h : Reaches size s s') (h' : Reaches size s' s'') : Reaches size s s'' :=
  ⟨List.Subset.trans h.references h'.references, h.changes.trans h'.changes,
    Nat.le_trans h.length h'.length, fun hsound hsize => (h.passes hsound hsize).trans
      (h'.passes (h.sound hsound hsize) (Nat.le_trans hsize h.length))⟩

theorem reaches_change (place : Nat) (c : Change ι) (s : Session ι) :
    Reaches (place + 1) s (Host.change place c s) :=
  ⟨List.Subset.refl _, List.prefix_append _ _, Nat.le_of_eq (Workspace.length_changeAt _ _ _).symm,
    fun hsound hplace => .single ⟨.changes place c s, hsound.change hplace c⟩⟩

theorem reaches_put {w : Workspace ι} (size : Nat) (h : s.workspace.Grows w) :
    Reaches size s (Host.put w s) :=
  ⟨List.Subset.refl _, List.prefix_rfl, h.length, fun hsound _ => .single ⟨.adds h, hsound.put h⟩⟩

theorem reaches_refer (size : Nat) (references : List Reference) (s : Session ι) :
    Reaches size s (Watched.refer references s) :=
  ⟨List.subset_append_left _ _, List.prefix_rfl, Nat.le_refl _, fun hsound _ =>
    .single ⟨.refers references s, hsound.workspace, hsound.lists⟩⟩

end Session

/-! ### What is done in sessions -/

section Leads

open Run Session

variable {size : Nat}

theorem Run.Leads.reaches {α : Type} {x : Run (Session ι) α} (h : Leads (Reaches size) x)
    (s : Session ι) : Reaches size s (x s).state := by
  have hreached := h s
  generalize (x s).state = s' at hreached
  induction hreached with
  | refl => exact .refl size s
  | tail _ hlast ih => exact ih.trans hlast

/-- A deed of an evaluator leads to a later session, if its implementations do. -/
theorem EvaluatorObject.reaches_of_deed {e : EvaluatorObject} {invoke : Invocation ι (Session ι)}
    (hinvoke : ∀ implementation arguments, Leads (Reaches (e.place + 1)) (invoke implementation arguments))
    {source : List (Step ι)} {s s' : Session ι}
    (h : @Deed ι (Session ι) e.store invoke source s s') : Reaches (e.place + 1) s s' := by
  cases h with
  | register hsource hd => exact reaches_change e.place _ s
  | clear hsource => exact reaches_change e.place _ s
  | call hget arguments => exact (hinvoke _ arguments).reaches s

theorem Run.leads_attempt {σ α : Type} {R : σ → σ → Prop} {x : Run σ α} (h : Leads R x) :
    Leads R x.attempt := h

theorem Workspace.leads_make (size : Nat) {object : Workspace ι → Option (Workspace ι)}
    (h : ∀ w v, object w = some v → w.Grows v) : Leads (Reaches size) (make object) := by
  intro s
  cases hobject : object s.workspace with
  | none => rw [make_of_none hobject]
  | some w =>
      rw [make_of_some hobject]
      exact .single (reaches_put size (h _ _ hobject))

section Evaluators

variable {evaluators : Workspace.Evaluators ι (Session ι)}
  (hevaluators : ∀ e source, Leads (Reaches (e.place + 1)) (evaluators e source))

include hevaluators

theorem EvaluatorObject.leads_run (e : EvaluatorObject) (request : Request ι) :
    Leads (Reaches (e.place + 1)) (e.run evaluators request) :=
  @Request.leads_run _ _ e.store e.options _ (reaches_change e.place) _ (hevaluators e)
    e.registry.options request

/-- What is asked for is done by whoever deals with the request. -/
theorem Workspace.leads_ask (target : Target) (request : Request ι) :
    Leads (Reaches size) (performWith evaluators (.ask target request)) := by
  intro s
  cases hresolve : s.workspace.resolve target with
  | none => rw [performWith_of_resolve_none hresolve]
  | some found =>
      obtain ⟨e, w⟩ := found
      have hgrows : s.workspace.Grows w := grows_resolve hresolve
      have hput : Reaches 0 s (Host.put w s) := reaches_put 0 hgrows
      have hlater := (e.leads_run hevaluators request).reaches (Host.put w s)
      rw [performWith_of_resolve hresolve]
      refine .single ⟨List.Subset.trans hput.references hlater.references, hput.changes.trans hlater.changes,
        Nat.le_trans hput.length hlater.length, fun hsound _ => ?_⟩
      exact (hput.passes hsound (Nat.zero_le _)).trans
        (hlater.passes (hsound.put hgrows) (hsound.workspace.resolve hresolve).2.1)

theorem Workspace.leads_performWith (command : Command ι) :
    Leads (Reaches size) (performWith evaluators command) := by
  cases command with
  | newTable id =>
      refine leads_make size fun w v hmade => ?_
      cases hmade
      have hgrows := w.grows_addTable
      refine ⟨fun hsound => ?_, hgrows.length, hgrows.tableAt⟩
      have hadded := hsound.addTable
      refine ⟨lookup_cons_of ?_ hadded.tableNames, hadded.evaluators, hadded.registries⟩
      exact w.length_addTable ▸ Nat.lt_succ_self _
  | newEvaluator id table options =>
      refine leads_make size fun w v hmade => ?_
      obtain ⟨⟨place, u⟩, hnew, rfl⟩ := Option.map_eq_some_iff.1 hmade
      have hgrows := grows_placeForNew hnew
      refine ⟨fun hsound => ?_, hgrows.length, hgrows.tableAt⟩
      obtain ⟨hadded, hlt⟩ := hsound.placeForNew hnew
      exact ⟨hadded.tableNames, lookup_cons_of ⟨hlt, rfl⟩ hadded.evaluators, hadded.registries⟩
  | newRegistry id table options =>
      refine leads_make size fun w v hmade => ?_
      obtain ⟨place, hplace, rfl⟩ := Option.map_eq_some_iff.1 hmade
      refine ⟨fun hsound => ?_, Nat.le_refl _, fun _ => rfl⟩
      exact ⟨hsound.tableNames, hsound.evaluators,
        lookup_cons_of (hsound.place_lt hplace) hsound.registries⟩
  | ask target request => exact leads_ask hevaluators target request

theorem Plan.leads_run (e : EvaluatorObject) (plan : Plan ι) :
    Leads (Reaches (e.place + 1)) (plan.run evaluators e) := by
  have hrefer : ∀ references : Workspace ι → List Reference,
      Leads (Reaches (e.place + 1)) (Workspace.refer references : Run (Session ι) Unit) :=
    fun references s => .single (reaches_refer (e.place + 1) _ s)
  induction plan with
  | ends result => exact leads_of_state fun _ => ofExcept_state _ _
  | reads next ih => exact (leads_of_state fun _ => rfl).bind ih
  | asks request next ih => exact (leads_attempt (e.leads_run hevaluators request)).bind ih
  | looks name next ih => exact (hrefer _).bind fun _ => (leads_of_state fun _ => rfl).bind ih
  | performs command next ih =>
      exact (hrefer _).bind fun _ =>
        (leads_attempt (Workspace.leads_performWith hevaluators command)).bind ih

end Evaluators

/-- What an evaluation whose implementations follow plans does to a session, it does by its deeds. -/
theorem Plan.deeds_evaluators (plan : ι → List Float → Plan ι) (depth : Nat) (e : EvaluatorObject)
    (source : List (Step ι)) (s : Session ι) :
    Relation.ReflTransGen (@Deed ι (Session ι) e.store
      (fun implementation arguments =>
        (plan implementation arguments).run (evaluators plan depth) e) source)
      s (evaluators plan (depth + 1) e (some source) s).state :=
  @leads_evaluate _ _ e.store _ _ source s

/-- Whatever evaluators do whose implementations follow plans, sound sessions stay sound. -/
theorem Plan.leads_evaluators (plan : ι → List Float → Plan ι) (depth : Nat) (e : EvaluatorObject)
    (source : Option (List (Step ι))) :
    Leads (Reaches (e.place + 1)) (evaluators plan depth e source : Run (Session ι) Float) := by
  induction depth generalizing e source with
  | zero => exact leads_of_state fun _ => rfl
  | succ depth ih =>
      cases source with
      | none => exact leads_of_state fun _ => rfl
      | some source =>
          intro s
          exact Relation.ReflTransGen.mono
            (fun _ _ hdeed => e.reaches_of_deed (fun _ _ => leads_run ih e _) hdeed) _ _
            (deeds_evaluators plan depth e source s)

end Leads

end Reckoner
