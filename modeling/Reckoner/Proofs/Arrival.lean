import Mathlib.Data.List.Induction
import Mathlib.Data.List.Nodup
import Reckoner.Proofs.Moment

/-!
What a table holds after any operations. Of the registrations that have been accepted since the last
clearing, a table lists the latest of every name, in the order in which the names first arrived
(`FunctionTable.Lists`). One operation keeps that: a name that is there keeps its place when it is
registered again, a new one goes to the end, and a refused registration changes nothing. All
look-ups answer from this list, so that they agree with each other.
-/

namespace Reckoner

variable {ι : Type}

inductive Operation (ι : Type) where
  | register (r : Registration ι)
  | clear

namespace Operation

def run : Operation ι → Run (FunctionTable ι) Unit
  | register r => Run.register r
  | clear => Run.clear

/-- The table after operations, of which some may be refused. -/
def performed (table : FunctionTable ι) (ops : List (Operation ι)) : FunctionTable ι :=
  ops.foldl (fun table o => (o.run table).state) table

/-- The registrations since the last clearing, without the refused ones. -/
def accepted (ops : List (Operation ι)) : List (Registration ι) :=
  ops.foldl (fun rs o =>
    match o with
    | register r => if r.arity < 0 then rs else rs ++ [r]
    | clear => []) []

end Operation

/-! ### Definitions and registrations -/

def Definition.registration (d : Definition ι) : Registration ι := ⟨d.name, d.arity, d.implementation⟩

theorem Registration.definition_eq_ok_iff {r : Registration ι} {d : Definition ι} :
    r.definition = .ok d ↔ d.registration = r := by
  constructor
  · intro h
    rw [definition] at h
    split at h
    · cases h
    · rename_i harity
      obtain rfl := Except.ok.inj h
      rw [Definition.registration, Int.toNat_of_nonneg (by omega)]
  · rintro rfl
    exact if_neg (Int.not_lt.2 (Int.natCast_nonneg d.arity))

theorem Registration.exists_definition {r : Registration ι} (h : 0 ≤ r.arity) :
    ∃ d, r.definition = .ok d := ⟨_, if_neg (by omega)⟩

theorem Registration.definition_of_neg {r : Registration ι} (h : r.arity < 0) :
    r.definition = .error (.negativeArity r.name r.arity) := if_pos h

/-- A registration is refused for its arity only. -/
theorem Registration.eq_negativeArity {r : Registration ι} {fault : Fault}
    (h : r.definition = .error fault) : fault = .negativeArity r.name r.arity := by
  rw [definition] at h
  split at h
  · exact (Except.error.inj h).symm
  · cases h

theorem Definition.message_record (d : Definition ι) (table : FunctionTable ι) :
    (d.record table).message =
      (if table.contains d.name then "Replacing function " else "Registered function ") ++
        s!"{d.name} (arity {d.registration.arity})" := by
  have harity : toString d.registration.arity = toString d.arity := rfl
  rw [harity, record]
  split
  · change s!"Replacing function {d.name} (arity {d.arity})" = _
    simp only [String.append_assoc]
    rfl
  · change s!"Registered function {d.name} (arity {d.arity})" = _
    simp only [String.append_assoc]
    rfl

theorem Definition.level_record (d : Definition ι) (table : FunctionTable ι) :
    (d.record table).level = .debug ∧ (d.record table).channel = .functions := by
  rw [record]
  split <;> exact ⟨rfl, rfl⟩

/-! ### Putting a definition into a list -/

namespace FunctionTable

/-- A name that is there keeps its place, and a new one goes to the end. -/
theorem names_place (d : Definition ι) (ds : List (Definition ι)) :
    (place d ds).map (·.name) =
      if d.name ∈ ds.map (·.name) then ds.map (·.name) else ds.map (·.name) ++ [d.name] := by
  induction ds with
  | nil => simp [place]
  | cons e ds ih =>
      by_cases hname : e.name = d.name
      · simp [place, hname]
      · have hne : d.name ≠ e.name := Ne.symm hname
        by_cases hmem : d.name ∈ ds.map (·.name)
        · simp only [place, if_neg hname, List.map_cons, ih, if_pos hmem,
            if_pos (List.mem_cons_of_mem _ hmem)]
        · have hmem' : d.name ∉ e.name :: ds.map (·.name) := by
            rw [List.mem_cons]
            exact not_or_intro hne hmem
          simp only [place, if_neg hname, List.map_cons, ih, if_neg hmem, if_neg hmem',
            List.cons_append]

/-- The definition that is put in takes the place of all others of its name. -/
theorem mem_place {d e : Definition ι} {ds : List (Definition ι)} (h : (ds.map (·.name)).Nodup) :
    e ∈ place d ds ↔ e = d ∨ e ∈ ds ∧ e.name ≠ d.name := by
  induction ds with
  | nil => simp [place]
  | cons f ds ih =>
      rw [List.map_cons, List.nodup_cons] at h
      obtain ⟨hfirst, hrest⟩ := h
      by_cases hname : f.name = d.name
      · have hothers : ∀ g ∈ ds, g.name ≠ d.name := by
          intro g hg hsame
          exact hfirst (List.mem_map.2 ⟨g, hg, hsame.trans hname.symm⟩)
        simp only [place, if_pos hname, List.mem_cons]
        constructor
        · rintro (rfl | he)
          · exact Or.inl rfl
          · exact Or.inr ⟨Or.inr he, hothers e he⟩
        · rintro (rfl | ⟨rfl | he, hne⟩)
          · exact Or.inl rfl
          · exact absurd hname hne
          · exact Or.inr he
      · simp only [place, if_neg hname, List.mem_cons, ih hrest]
        constructor
        · rintro (rfl | rfl | ⟨he, hne⟩)
          · exact Or.inr ⟨Or.inl rfl, hname⟩
          · exact Or.inl rfl
          · exact Or.inr ⟨Or.inr he, hne⟩
        · rintro (rfl | ⟨rfl | he, hne⟩)
          · exact Or.inr (Or.inl rfl)
          · exact Or.inl rfl
          · exact Or.inr (Or.inr ⟨he, hne⟩)

/-! ### Looking names up -/

variable {table : FunctionTable ι} {name : String}

theorem contains_iff : table.contains name = true ↔ ∃ d ∈ table.toList, d.name = name := by
  simp [contains]

theorem get_eq_ok_iff (h : (table.toList.map (·.name)).Nodup) {d : Definition ι} :
    table.get name = .ok d ↔ d ∈ table.toList ∧ d.name = name := by
  constructor
  · exact fun hget => ⟨mem_of_get hget, name_of_get hget⟩
  · rintro ⟨hd, hname⟩
    cases hget : table.get name with
    | error fault =>
        have hnone := List.find?_eq_none.1 (get_eq_error hget).1 d hd
        exact absurd (beq_iff_eq.2 hname) hnone
    | ok e =>
        have hsame : e = d := List.inj_on_of_nodup_map h (mem_of_get hget) hd
          ((name_of_get hget).trans hname.symm)
        rw [hsame]

theorem get_eq_error_iff :
    table.get name = .error (.unknownFunction name) ↔ ∀ d ∈ table.toList, d.name ≠ name := by
  constructor
  · intro hget d hd hname
    exact List.find?_eq_none.1 (get_eq_error hget).1 d hd (beq_iff_eq.2 hname)
  · intro hnone
    refine get_of_find_none (List.find?_eq_none.2 fun d hd => ?_)
    rw [beq_iff_eq]
    exact hnone d hd

/-! ### What a table lists -/

/-- A table lists registrations, none of which it would refuse: the latest of every name, in the
order in which the names first arrived. -/
structure Lists (table : FunctionTable ι) (rs : List (Registration ι)) : Prop where
  valid : ∀ r ∈ rs, 0 ≤ r.arity
  ordered : (table.toList.map (·.name)).Pairwise fun a b =>
    (rs.map (·.name)).idxOf a < (rs.map (·.name)).idxOf b
  latest : ∀ d, d ∈ table.toList ↔ rs.reverse.find? (·.name == d.name) = some d.registration

theorem lists_empty : (empty : FunctionTable ι).Lists [] := by
  refine ⟨fun r hr => absurd hr List.not_mem_nil, List.Pairwise.nil, fun d => ?_⟩
  simp [empty]

namespace Lists

variable {rs : List (Registration ι)}

theorem nodup (h : table.Lists rs) : (table.toList.map (·.name)).Nodup :=
  h.ordered.imp fun hlt hsame => absurd (hsame ▸ hlt) (Nat.lt_irrefl _)

/-- The names of a table are those of its registrations. -/
theorem mem_names_iff (h : table.Lists rs) :
    name ∈ table.toList.map (·.name) ↔ name ∈ rs.map (·.name) := by
  constructor
  · intro hname
    obtain ⟨d, hd, rfl⟩ := List.mem_map.1 hname
    have hmem : d.registration ∈ rs :=
      List.mem_reverse.1 (List.mem_of_find?_eq_some ((h.latest d).1 hd))
    exact List.mem_map.2 ⟨d.registration, hmem, rfl⟩
  · intro hname
    obtain ⟨r, hr, rfl⟩ := List.mem_map.1 hname
    cases hfind : rs.reverse.find? (·.name == r.name) with
    | none => exact absurd BEq.rfl (List.find?_eq_none.1 hfind r (List.mem_reverse.2 hr))
    | some latest =>
        have hlatest : latest.name = r.name :=
          beq_iff_eq.1 (List.find?_some (p := fun s : Registration ι => s.name == r.name) hfind)
        have hvalid := h.valid latest (List.mem_reverse.1 (List.mem_of_find?_eq_some hfind))
        obtain ⟨d, hd⟩ := Registration.exists_definition hvalid
        obtain rfl := Registration.definition_eq_ok_iff.1 hd
        have hname : d.name = r.name := hlatest
        refine List.mem_map.2 ⟨d, (h.latest d).2 ?_, hname⟩
        rw [hname]
        exact hfind

/-- There is one table only that lists given registrations. -/
theorem table_eq {other : FunctionTable ι} (h : table.Lists rs) (h' : other.Lists rs) :
    table = other := by
  have hperm : table.toList.Perm other.toList :=
    (List.perm_ext_iff_of_nodup h.nodup.of_map h'.nodup.of_map).2 fun d =>
      (h.latest d).trans (h'.latest d).symm
  have hordered := List.pairwise_map.1 h.ordered
  have hordered' := List.pairwise_map.1 h'.ordered
  have hsame : table.toList = other.toList :=
    hperm.eq_of_pairwise (fun a b _ _ hlt hlt' => absurd hlt (Nat.lt_asymm hlt')) hordered hordered'
  exact congrArg FunctionTable.mk hsame

/-- One more registration that is accepted is put into its place. -/
theorem insert (h : table.Lists rs) (d : Definition ι) :
    (table.insert d).Lists (rs ++ [d.registration]) := by
  have hmem : d.name ∈ table.toList.map (·.name) ↔ d.name ∈ rs.map (·.name) := h.mem_names_iff
  have hkeeps : (table.toList.map (·.name)).Pairwise fun a b =>
      (rs.map (·.name) ++ [d.name]).idxOf a < (rs.map (·.name) ++ [d.name]).idxOf b := by
    refine h.ordered.imp_of_mem fun ha hb hlt => ?_
    rw [List.idxOf_append_of_mem (h.mem_names_iff.1 ha), List.idxOf_append_of_mem (h.mem_names_iff.1 hb)]
    exact hlt
  constructor
  · intro r hr
    rcases List.mem_append.1 hr with hr | hr
    · exact h.valid r hr
    · rw [List.mem_singleton.1 hr]
      exact Int.natCast_nonneg d.arity
  · simp only [FunctionTable.insert, List.map_append, List.map_cons, List.map_nil, names_place]
    by_cases hname : d.name ∈ table.toList.map (·.name)
    · rw [if_pos hname]
      exact hkeeps
    · rw [if_neg hname, List.pairwise_append]
      refine ⟨hkeeps, List.pairwise_singleton _ _, fun a ha b hb => ?_⟩
      obtain rfl := List.mem_singleton.1 hb
      have ha' := h.mem_names_iff.1 ha
      have hb' := hname ∘ hmem.2
      have hlt : (rs.map (·.name)).idxOf a < (rs.map (·.name)).length := List.idxOf_lt_length_iff.2 ha'
      rw [List.idxOf_append_of_mem ha', List.idxOf_append_of_notMem hb']
      omega
  · intro e
    simp only [FunctionTable.insert, mem_place h.nodup, h.latest, List.reverse_append,
      List.reverse_singleton, List.singleton_append]
    by_cases hname : d.name = e.name
    · have hfind : (d.registration :: rs.reverse).find? (·.name == e.name) = some d.registration :=
        List.find?_cons_of_pos (beq_iff_eq.2 hname)
      rw [hfind]
      constructor
      · rintro (rfl | ⟨_, hne⟩)
        · rfl
        · exact absurd hname.symm hne
      · intro hsame
        have hok := Registration.definition_eq_ok_iff.2 (Option.some.inj hsame).symm
        rw [Registration.definition_eq_ok_iff.2 rfl] at hok
        exact Or.inl (Except.ok.inj hok).symm
    · have hfind : (d.registration :: rs.reverse).find? (·.name == e.name) =
          rs.reverse.find? (·.name == e.name) :=
        List.find?_cons_of_neg (by simpa [Definition.registration] using hname)
      rw [hfind]
      constructor
      · rintro (rfl | ⟨he, _⟩)
        · exact absurd rfl hname
        · exact he
      · exact fun he => Or.inr ⟨he, Ne.symm hname⟩

end Lists

end FunctionTable

namespace Operation

/-- What one more operation makes of the registrations that are accepted. -/
theorem accepted_append (ops : List (Operation ι)) (o : Operation ι) :
    accepted (ops ++ [o]) =
      match o with
      | register r => if r.arity < 0 then accepted ops else accepted ops ++ [r]
      | clear => [] := by
  rw [accepted, List.foldl_append]
  rfl

theorem performed_append (table : FunctionTable ι) (ops more : List (Operation ι)) :
    performed table (ops ++ more) = performed (performed table ops) more := List.foldl_append

/-- After any operations a table lists the registrations that have been accepted. -/
theorem lists_performed (ops : List (Operation ι)) : (performed .empty ops).Lists (accepted ops) := by
  induction ops using List.reverseRecOn with
  | nil => exact FunctionTable.lists_empty
  | append_singleton ops o ih =>
      rw [performed_append, accepted_append]
      cases o with
      | clear => exact FunctionTable.lists_empty
      | register r =>
          by_cases hneg : r.arity < 0
          · have hrefused := Run.register_of_error (Registration.definition_of_neg hneg)
              (performed .empty ops)
            have htable : performed (performed .empty ops) [register r] = performed .empty ops :=
              congrArg Outcome.state hrefused
            simp only [htable, if_pos hneg]
            exact ih
          · obtain ⟨d, hd⟩ := Registration.exists_definition (Int.not_lt.1 hneg)
            have htable : performed (performed .empty ops) [register r] =
                (performed .empty ops).insert d :=
              congrArg Outcome.state (Run.register_of_ok hd (performed .empty ops))
            obtain rfl := Registration.definition_eq_ok_iff.1 hd
            simp only [htable, if_neg hneg]
            exact ih.insert d

/-- **A table is a map that keeps its names in the order of their arrival.** After any operations it
lists one definition for each name that has been accepted since the last clearing: the latest one, at
the place of the first one. All look-ups agree with this list. A negative arity is refused and leaves
everything as it is; any other registration logs one record, which says whether the name is there
already. -/
theorem listing_performed (ops : List (Operation ι)) :
    let table := performed .empty ops
    let names := table.toList.map (·.name)
    let rs := accepted ops
    let arrivals := rs.map (·.name)
    (names.Nodup ∧ names.Pairwise (fun a b => arrivals.idxOf a < arrivals.idxOf b) ∧
      (∀ name, name ∈ names ↔ name ∈ arrivals) ∧
      ∀ d ∈ table.toList, rs.reverse.find? (·.name == d.name) = some d.registration ∧
        0 ≤ d.registration.arity ∧ table.get d.name = .ok d) ∧
    table.size = table.toList.length ∧
    (∀ name, (table.contains name = true ↔ name ∈ names) ∧
      (∀ d, table.get name = .ok d ↔ d ∈ table.toList ∧ d.name = name) ∧
      (name ∉ names → table.get name = .error (.unknownFunction name))) ∧
    ∀ r : Registration ι,
      (r.arity < 0 → ∃ fault, fault.label = "ValueError" ∧
        (register r).run table = ⟨.error fault, table, []⟩) ∧
      (0 ≤ r.arity → ∃ record, record.level = .debug ∧ record.channel = .functions ∧
        record.message = (if r.name ∈ names then "Replacing function " else "Registered function ") ++
          s!"{r.name} (arity {r.arity})" ∧
        (register r).run table =
          ⟨.ok (), performed .empty (ops ++ [register r]), [.logged record]⟩) := by
  intro table names rs arrivals
  have hlists : table.Lists rs := lists_performed ops
  have hcontains : ∀ name, table.contains name = true ↔ name ∈ names := fun name =>
    FunctionTable.contains_iff.trans List.mem_map.symm
  refine ⟨⟨hlists.nodup, hlists.ordered, fun name => hlists.mem_names_iff, fun d hd => ?_⟩, rfl,
    fun name => ⟨hcontains name, fun d => FunctionTable.get_eq_ok_iff hlists.nodup, fun hname => ?_⟩,
    fun r => ⟨fun hneg => ?_, fun harity => ?_⟩⟩
  · exact ⟨(hlists.latest d).1 hd, Int.natCast_nonneg d.arity,
      (FunctionTable.get_eq_ok_iff hlists.nodup).2 ⟨hd, rfl⟩⟩
  · exact FunctionTable.get_eq_error_iff.2 fun d hd hsame => hname (List.mem_map.2 ⟨d, hd, hsame⟩)
  · exact ⟨.negativeArity r.name r.arity, rfl,
      Run.register_of_error (Registration.definition_of_neg hneg) table⟩
  · obtain ⟨d, hd⟩ := Registration.exists_definition harity
    have hregister := Run.register_of_ok hd table
    obtain rfl := Registration.definition_eq_ok_iff.1 hd
    refine ⟨d.record table, (d.level_record table).1, (d.level_record table).2, ?_, ?_⟩
    · rw [Definition.message_record]
      congr 1
      exact if_congr (hcontains d.name) rfl rfl
    · rw [performed_append]
      exact hregister

/-- A function that is registered again keeps its place, and one of negative arity is refused. -/
theorem listing_performed_again :
    let count (name : String) (arity : Int) : Operation Unit := register ⟨name, arity, ()⟩
    let table := performed .empty [count "f" 2, count "g" 1, count "f" 0, count "h" (-1)]
    table.toList = [⟨"f", 0, ()⟩, ⟨"g", 1, ()⟩] ∧
    table.get "f" = .ok ⟨"f", 0, ()⟩ ∧ table.get "h" = .error (.unknownFunction "h") ∧
    (∃ fault, fault.label = "ValueError" ∧ (count "g" (-3)).run table = ⟨.error fault, table, []⟩) ∧
    ∃ record more, record.message = "Replacing function g (arity 3)" ∧
      (count "g" 3).run table = ⟨.ok (), more, [.logged record]⟩ := by
  intro count table
  obtain ⟨⟨_, _, _, hlisted⟩, _, hlookup, hregister⟩ :=
    listing_performed [count "f" 2, count "g" 1, count "f" 0, count "h" (-1)]
  have hf := (hlisted ⟨"f", 0, ()⟩ List.mem_cons_self).2.2
  have hh := (hlookup "h").2.2 (by decide)
  obtain ⟨record, _, _, hmessage, hrun⟩ := (hregister ⟨"g", 3, ()⟩).2 (by decide)
  exact ⟨rfl, hf, hh, (hregister ⟨"g", -3, ()⟩).1 (by decide), record, _, hmessage, hrun⟩

end Operation

end Reckoner
