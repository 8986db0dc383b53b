import Mathlib.Data.List.TakeWhile
import Reckoner.Proofs.Binding
import Reckoner.Proofs.Reading
import Reckoner.Routine

/-!
The tree behind a result. Every value of the machine is that of a tree whose leaves are numbers of
the stream and whose inner nodes are operators of the stream with as many children as they take.
Together, the trees of all values hold the numbers in reading order, and with the pending operators
they hold every operator that gives a value once (`Carries`). At the end of a stream one tree is
left over, so that nothing is lost, doubled or moved on the way to a result.
-/

namespace Reckoner

/-- An operator that gives a value. -/
inductive Symbol where
  | arithmetic (op : Arithmetic)
  | join
  | call (name : String)
  deriving DecidableEq, Repr

def Symbol.kind : Symbol → Kind
  | arithmetic op => .arithmetic op
  | join => .control .join
  | call name => .callStart name

def Kind.symbol? : Kind → Option Symbol
  | arithmetic op => some (.arithmetic op)
  | control .join => some .join
  | callStart name => some (.call name)
  | _ => none

theorem Kind.kind_of_symbol {k : Kind} {s : Symbol} (h : k.symbol? = some s) : s.kind = k := by
  cases k with
  | control marker =>
      cases marker with
      | join => cases h; rfl
      | _ => cases h
  | callEnd => cases h
  | comma => cases h
  | _ => cases h; rfl

theorem Kind.isMarker_of_symbol_none {k : Kind} (h : k.symbol? = none) : k.isMarker = true := by
  cases k with
  | control marker =>
      cases marker with
      | join => cases h
      | _ => rfl
  | callEnd => rfl
  | comma => rfl
  | _ => cases h

theorem Kind.end_unwinds {ι : Type} {options : Options} {table : FunctionTable ι} {k : Kind}
    {op : Operator} (h : k.lookup options table = .ok op) :
    Control.endExpr.operator.unwinds op = true := by
  have hkind : (Kind.control .endExpr).unwinds k = true := by
    cases k with
    | arithmetic op => cases op <;> rfl
    | control marker => cases marker <;> rfl
    | _ => rfl
  rw [← hkind]
  exact Kind.operator_unwinds rfl (Kind.binding_of_lookup h)

/-- The symbols among tokens with their places among the operators, of which `n` come before. -/
def symbolsFrom : Nat → List Token → List (Nat × Symbol)
  | _, [] => []
  | n, .number _ :: ts => symbolsFrom n ts
  | n, .operator k :: ts => (k.symbol?.map fun s => (n, s)).toList ++ symbolsFrom (n + 1) ts

def Token.number? : Token → Option Float
  | .number x => some x
  | .operator _ => none

/-- A tree of numbers and operators; an operator stands with its place among the operators. -/
inductive Tree where
  | number (x : Float)
  | node (position : Nat) (symbol : Symbol) (children : List Tree)

/-- What a node of a tree says of itself, with the number of its children. -/
structure Node where
  position : Nat
  symbol : Symbol
  degree : Nat

def Node.token (node : Node) : Nat × Symbol := (node.position, node.symbol)

/-- The node has as many children as its operator takes. -/
def Node.Fits {ι : Type} (options : Options) (table : FunctionTable ι) (node : Node) : Prop :=
  ∃ op, node.symbol.kind.lookup options table = .ok op ∧ node.degree = op.arity

variable {ι : Type} (invoke : Invocation ι) (table : FunctionTable ι)

/-- What a symbol makes of the values of its children. -/
def Symbol.meaning : Symbol → List Float → Except Fault Float
  | arithmetic op, arguments => op.apply arguments
  | join, arguments => onTwo joined arguments
  | call name, arguments => do
    let d ← table.get name
    let v ← (invoke d.implementation arguments table).result
    v.asResult name

namespace Tree

mutual

/-- The numbers of a tree, from left to right. -/
def leaves : Tree → List Float
  | number x => [x]
  | node _ _ children => leavesOf children

def leavesOf : List Tree → List Float
  | [] => []
  | t :: ts => t.leaves ++ leavesOf ts

end

mutual

/-- The nodes of a tree, a node before what stands below it. -/
def nodes : Tree → List Node
  | number _ => []
  | node position symbol children => ⟨position, symbol, children.length⟩ :: nodesOf children

def nodesOf : List Tree → List Node
  | [] => []
  | t :: ts => t.nodes ++ nodesOf ts

end

mutual

/-- The value of a tree: children first, from left to right. -/
def value : Tree → Except Fault Float
  | number x => .ok x
  | node _ symbol children => valuesOf children >>= symbol.meaning invoke table

def valuesOf : List Tree → Except Fault (List Float)
  | [] => .ok []
  | t :: ts => t.value >>= fun x => valuesOf ts >>= fun xs => .ok (x :: xs)

end

theorem leavesOf_eq_flatMap (ts : List Tree) : leavesOf ts = ts.flatMap leaves := by
  induction ts with
  | nil => rfl
  | cons t ts ih => rw [leavesOf, ih, List.flatMap_cons]

theorem nodesOf_eq_flatMap (ts : List Tree) : nodesOf ts = ts.flatMap nodes := by
  induction ts with
  | nil => rfl
  | cons t ts ih => rw [nodesOf, ih, List.flatMap_cons]

theorem valuesOf_eq_ok {ts : List Tree} {xs : List Float}
    (h : ts.map (value invoke table) = xs.map Except.ok) : valuesOf invoke table ts = .ok xs := by
  induction ts generalizing xs with
  | nil =>
      rw [List.map_nil, eq_comm, List.map_eq_nil_iff] at h
      rw [h]
      rfl
  | cons t ts ih =>
      cases xs with
      | nil => cases h
      | cons x xs =>
          obtain ⟨hx, hxs⟩ := List.cons.inj h
          rw [valuesOf, hx, ih hxs]
          rfl

/-- Some last trees of a forest become the children of a node. -/
def collect (position : Nat) (symbol : Symbol) (degree : Nat) (forest : List Tree) : List Tree :=
  .node position symbol (forest.take degree).reverse :: forest.drop degree

theorem leaves_collect (position : Nat) (symbol : Symbol) (degree : Nat) (forest : List Tree) :
    (collect position symbol degree forest).reverse.flatMap leaves =
      forest.reverse.flatMap leaves := by
  have hsplit : forest.reverse = (forest.drop degree).reverse ++ (forest.take degree).reverse := by
    rw [← List.reverse_append, List.take_append_drop]
  rw [collect, List.reverse_cons, List.flatMap_append, List.flatMap_singleton, leaves,
    leavesOf_eq_flatMap, ← List.flatMap_append, ← hsplit]

theorem nodes_collect (position : Nat) (symbol : Symbol) {degree : Nat} {forest : List Tree}
    (h : degree ≤ forest.length) :
    ((collect position symbol degree forest).flatMap nodes).Perm
      (⟨position, symbol, degree⟩ :: forest.flatMap nodes) := by
  have hlen : (forest.take degree).reverse.length = degree := by
    rw [List.length_reverse, List.length_take, Nat.min_eq_left h]
  have hchildren : ((forest.take degree).reverse.flatMap nodes).Perm
      ((forest.take degree).flatMap nodes) := (List.reverse_perm _).flatMap_right nodes
  have hsplit : (forest.take degree).flatMap nodes ++ (forest.drop degree).flatMap nodes =
      forest.flatMap nodes := by
    rw [← List.flatMap_append, List.take_append_drop]
  rw [collect, List.flatMap_cons, nodes, hlen, nodesOf_eq_flatMap, List.cons_append, ← hsplit]
  exact (hchildren.append_right _).cons _

theorem map_value_collect {position : Nat} {symbol : Symbol} {degree : Nat} {forest : List Tree}
    {values : List Float} {x : Float} (h : forest.map (value invoke table) = values.map Except.ok)
    (hx : symbol.meaning invoke table (values.take degree).reverse = .ok x) :
    (collect position symbol degree forest).map (value invoke table) =
      (x :: values.drop degree).map Except.ok := by
  have hchildren : (forest.take degree).reverse.map (value invoke table) =
      (values.take degree).reverse.map Except.ok := by
    rw [List.map_reverse, List.map_take, h, ← List.map_take, ← List.map_reverse]
  rw [collect, List.map_cons, List.map_cons, value, valuesOf_eq_ok invoke table hchildren,
    List.map_drop, h, ← List.map_drop]
  exact congrArg (· :: _) hx

end Tree

/-! ### Runs that leave the table -/

namespace Run

variable {α β : Type} {table : FunctionTable ι}

/-- On the table, a run that does not fail leaves the table alone and gives a good value. -/
def Stays (table : FunctionTable ι) (good : α → Prop) (x : Run (FunctionTable ι) α) : Prop :=
  ∀ a, (x table).result = .ok a → (x table).state = table ∧ good a

theorem stays_pure {good : α → Prop} {a : α} (h : good a) :
    Stays table good (pure a : Run (FunctionTable ι) α) := by
  intro b hb
  rw [← Except.ok.inj hb]
  exact ⟨rfl, h⟩

theorem stays_ofExcept {good : α → Prop} {r : Except Fault α} (h : ∀ a, r = .ok a → good a) :
    Stays table good (ofExcept r : Run (FunctionTable ι) α) := by
  intro a ha
  rw [ofExcept_result] at ha
  exact ⟨ofExcept_state r table, h a ha⟩

theorem stays_note (event : Event) :
    Stays table (fun _ => True) (note event : Run (FunctionTable ι) Unit) := fun _ _ => ⟨rfl, trivial⟩

theorem Stays.bind {x : Run (FunctionTable ι) α} {f : α → Run (FunctionTable ι) β}
    {good : α → Prop} {good' : β → Prop} (hx : Stays table good x)
    (hf : ∀ a, good a → Stays table good' (f a)) :
    Stays table good' (x >>= f) := by
  intro b hb
  obtain ⟨a, ha, hfa⟩ := bind_result_eq_ok.1 hb
  obtain ⟨htable, hgood⟩ := hx a ha
  rw [htable] at hfa
  rw [bind_of_ok ha, htable]
  exact hf a hgood b hfa

end Run

/-! ### Reductions build nodes -/

/-- The token of a pending operator that will give a value. -/
def Pending.token? (p : Pending) : Option (Nat × Symbol) :=
  p.kind.symbol?.map fun s => (p.position, s)

/-- The trees are those of the values, the latest first. They hold the numbers in reading order, and
with the pending operators all symbols, and each of their nodes fits its operator. -/
structure Carries (options : Options) (forest : List Tree) (values : List Float)
    (pending : List Pending) (numbers : List Float) (symbols : List (Nat × Symbol)) : Prop where
  values : forest.map (Tree.value invoke table) = values.map Except.ok
  leaves : forest.reverse.flatMap Tree.leaves = numbers
  symbols : ((forest.flatMap Tree.nodes).map Node.token ++ pending.filterMap Pending.token?).Perm
    symbols
  fits : ∀ node ∈ forest.flatMap Tree.nodes, node.Fits options table
  pending : ∀ p ∈ pending, p.kind.lookup options table = .ok p.operator

namespace Machine

variable {options : Options} {invoke table}

section Pure

variable (hpure : ∀ d ∈ table.toList, invoke.IsPure d.implementation)

include hpure

theorem stays_call (name : String) (arguments : List Float) :
    Run.Stays table (fun x => (Symbol.call name).meaning invoke table arguments = .ok x)
      (call invoke name arguments) := by
  have hdefinition : Run.Stays table (fun d => table.get name = .ok d) (Run.definition name) := by
    intro d hd
    rw [Run.definition, Run.readTable_bind] at hd ⊢
    rw [Run.ofExcept_result] at hd
    exact ⟨Run.ofExcept_state _ _, hd⟩
  refine hdefinition.bind fun d hd => ?_
  obtain ⟨meaning, hmeaning⟩ := hpure d (FunctionTable.mem_of_get hd)
  have hcalled : Run.Stays table (fun ended => ended = meaning arguments)
      ((invoke d.implementation arguments).asCall name arguments) := by
    intro ended hended
    rw [hmeaning] at hended ⊢
    have hresult : (Run.ofExcept (meaning arguments) table).result = ended := Except.ok.inj hended
    rw [Run.ofExcept_result] at hresult
    exact ⟨Run.ofExcept_state (meaning arguments) table, hresult.symm⟩
  refine hcalled.bind fun ended hended => ?_
  cases ended with
  | error cause =>
      intro x hx
      by_cases hstop : cause.isStop = true
      · simp only [hstop, if_true] at hx
        cases hx
      · simp only [hstop] at hx
        cases hx
  | ok v =>
      refine Run.stays_ofExcept fun x hx => ?_
      have hresult : (invoke d.implementation arguments table).result = .ok v := by
        rw [hmeaning, Run.ofExcept_result, hended]
      simp only [Symbol.meaning, hd, bind, Except.bind, hresult]
      exact hx

theorem stays_apply (arguments : List Float) (k : Kind) :
    Run.Stays table (fun given => given.map Except.ok =
      k.symbol?.map fun s => s.meaning invoke table arguments) (apply invoke arguments k) := by
  cases k with
  | arithmetic op =>
      refine Run.stays_ofExcept fun given hgiven => ?_
      cases hx : op.apply arguments with
      | error fault => rw [hx] at hgiven; cases hgiven
      | ok x =>
          rw [hx] at hgiven
          rw [← Except.ok.inj hgiven]
          exact congrArg some hx.symm
  | control marker =>
      refine Run.stays_ofExcept fun given hgiven => ?_
      cases marker with
      | join =>
          cases hx : onTwo joined arguments with
          | error fault => rw [Control.apply, hx] at hgiven; cases hgiven
          | ok x =>
              rw [Control.apply, hx] at hgiven
              rw [← Except.ok.inj hgiven]
              exact congrArg some hx.symm
      | _ =>
          rw [← Except.ok.inj hgiven]
          rfl
  | callStart name =>
      refine (stays_call hpure name arguments).bind fun x hx => Run.stays_pure ?_
      exact congrArg some hx.symm
  | callEnd => exact Run.stays_pure rfl
  | comma => exact Run.stays_pure rfl

/-- A marker leaves the forest as it is; an operator that gives a value collects the last trees. -/
theorem Carries.reduce {forest : List Tree} {values : List Float} {p : Pending}
    {pending : List Pending} {numbers : List Float} {symbols : List (Nat × Symbol)}
    (h : Carries invoke table options forest values (p :: pending) numbers symbols) :
    Run.Stays table
      (fun values' => ∃ forest',
        Carries invoke table options forest' values' pending numbers symbols)
      (reduce invoke values p) := by
  have hlookup := h.pending p List.mem_cons_self
  have hrest : ∀ q ∈ pending, q.kind.lookup options table = .ok q.operator :=
    fun q hq => h.pending q (List.mem_cons_of_mem p hq)
  rw [Machine.reduce]
  split
  · intro values' hvalues'
    cases hvalues'
  · rename_i hlen
    refine (Run.stays_note _).bind fun _ _ => (stays_apply hpure _ p.kind).bind fun given hgiven =>
      Run.stays_pure ?_
    cases hsymbol : p.kind.symbol? with
    | none =>
        rw [hsymbol, Option.map_none, Option.map_eq_none_iff] at hgiven
        have harity := (Kind.suits_of_lookup hlookup).arity 0
          (Kind.arity_of_isMarker (Kind.isMarker_of_symbol_none hsymbol))
        have hsymbols := h.symbols
        rw [List.filterMap_cons_none (by rw [Pending.token?, hsymbol]; rfl)] at hsymbols
        rw [hgiven, harity]
        exact ⟨forest, h.values, h.leaves, hsymbols, h.fits, hrest⟩
    | some s =>
        obtain ⟨x, rfl, hx⟩ : ∃ x, given = some x ∧ s.meaning invoke table
            (values.take p.operator.arity).reverse = .ok x := by
          rw [hsymbol] at hgiven
          cases given with
          | none => cases hgiven
          | some x => exact ⟨x, rfl, (Option.some.inj hgiven).symm⟩
        have hle : p.operator.arity ≤ forest.length := by
          rw [← List.length_map (f := Tree.value invoke table), h.values, List.length_map]
          exact Nat.le_of_not_lt hlen
        have hnodes := Tree.nodes_collect p.position s hle
        refine ⟨Tree.collect p.position s p.operator.arity forest,
          Tree.map_value_collect invoke table h.values hx, ?_, ?_, ?_, hrest⟩
        · rw [Tree.leaves_collect]
          exact h.leaves
        · have hsymbols := h.symbols
          rw [List.filterMap_cons_some (b := (p.position, s))
            (by rw [Pending.token?, hsymbol]; rfl)] at hsymbols
          refine ((hnodes.map Node.token).append_right _).trans (List.Perm.trans ?_ hsymbols)
          exact List.perm_middle.symm
        · intro node hnode
          rcases List.mem_cons.1 (hnodes.mem_iff.1 hnode) with rfl | hnode
          · exact ⟨p.operator, by rw [Kind.kind_of_symbol hsymbol]; exact hlookup, rfl⟩
          · exact h.fits node hnode

theorem Carries.reduceAll {above pending : List Pending} {forest : List Tree} {values : List Float}
    {numbers : List Float} {symbols : List (Nat × Symbol)}
    (h : Carries invoke table options forest values (above ++ pending) numbers symbols) :
    Run.Stays table
      (fun values' => ∃ forest',
        Carries invoke table options forest' values' pending numbers symbols)
      (above.foldlM (Machine.reduce invoke) values) := by
  induction above generalizing forest values with
  | nil => exact Run.stays_pure ⟨forest, h⟩
  | cons p above ih =>
      rw [List.foldlM_cons]
      refine (Carries.reduce hpure h).bind fun values' hvalues' => ?_
      obtain ⟨forest', hforest'⟩ := hvalues'
      exact ih hforest'

/-- The machine carries what it has read so far. -/
def Grown (invoke : Invocation ι) (table : FunctionTable ι) (options : Options)
    (numbers : List Float) (symbols : List (Nat × Symbol)) (m : Machine) : Prop :=
  ∃ forest, Carries invoke table options forest m.values m.pending numbers symbols

theorem Grown.readOperator {numbers : List Float} {symbols : List (Nat × Symbol)} {m : Machine}
    (h : Grown invoke table options numbers symbols m) (k : Kind) :
    Run.Stays table (fun m' => m'.operatorsRead = m.operatorsRead + 1 ∧
      (∃ op, k.lookup options table = .ok op ∧
        m'.pending = ⟨m.operatorsRead, k, op⟩ :: kept op m.pending) ∧
      Grown invoke table options numbers
        (symbols ++ (k.symbol?.map fun s => (m.operatorsRead, s)).toList) m')
      (m.readOperator invoke options k) := by
  obtain ⟨forest, hforest⟩ := h
  have hread : Run.Stays table (fun t => t = table)
      (Run.readOperators : Run (FunctionTable ι) (FunctionTable ι)) :=
    fun t ht => ⟨rfl, (Except.ok.inj ht).symm⟩
  refine hread.bind fun t ht => ?_
  subst ht
  refine (Run.stays_ofExcept fun op hop => hop).bind fun op hop => ?_
  rw [← List.takeWhile_append_dropWhile (p := fun p => op.unwinds p.operator) (l := m.pending)]
    at hforest
  refine (Carries.reduceAll hpure hforest).bind fun values' hvalues' => Run.stays_pure ?_
  obtain ⟨forest', hforest'⟩ := hvalues'
  refine ⟨rfl, ⟨op, hop, rfl⟩, forest', hforest'.values, hforest'.leaves, ?_, hforest'.fits, ?_⟩
  · cases hsymbol : k.symbol? with
    | none =>
        rw [List.filterMap_cons_none (by rw [Pending.token?, hsymbol]; rfl)]
        rw [Option.map_none, Option.toList_none, List.append_nil]
        exact hforest'.symbols
    | some s =>
        rw [List.filterMap_cons_some (b := (m.operatorsRead, s))
          (by rw [Pending.token?, hsymbol]; rfl)]
        refine List.perm_middle.trans ?_
        exact (hforest'.symbols.cons _).trans (List.perm_append_singleton _ _).symm
  · intro p hp
    rcases List.mem_cons.1 hp with rfl | hp
    · exact hop
    · exact hforest'.pending p hp

/-- Reading grows the trees over what is read. -/
theorem Grown.reads {numbers : List Float} {symbols : List (Nat × Symbol)} {m : Machine}
    (h : Grown invoke table options numbers symbols m) (ts : List Token) :
    Run.Stays table (Grown invoke table options (numbers ++ ts.filterMap Token.number?)
      (symbols ++ symbolsFrom m.operatorsRead ts)) (m.reads invoke options ts) := by
  induction ts generalizing numbers symbols m with
  | nil =>
      refine Run.stays_pure ?_
      rw [List.filterMap_nil, symbolsFrom, List.append_nil, List.append_nil]
      exact h
  | cons t ts ih =>
      rw [reads_cons]
      refine (Run.stays_note _).bind fun _ _ => ?_
      cases t with
      | number x =>
          obtain ⟨forest, hforest⟩ := h
          have hgrown : Grown invoke table options (numbers ++ [x]) symbols
              { m with values := x :: m.values } := by
            refine ⟨.number x :: forest, ?_, ?_, hforest.symbols, hforest.fits, hforest.pending⟩
            · rw [List.map_cons, List.map_cons, hforest.values, Tree.value]
            · rw [List.reverse_cons, List.flatMap_append, hforest.leaves]
              rfl
          have hread : Run.Stays table (fun m' => m' = { m with values := x :: m.values })
              (m.readToken invoke options (.number x)) := Run.stays_pure rfl
          refine hread.bind fun m' hm' => ?_
          rw [hm']
          have hrest := ih hgrown
          rw [List.append_assoc] at hrest
          exact hrest
      | operator k =>
          refine (Grown.readOperator hpure h k).bind fun m' hm' => ?_
          obtain ⟨hcount, _, hgrown⟩ := hm'
          have hrest := ih hgrown
          rw [hcount, List.append_assoc] at hrest
          exact hrest

/-- The end of an expression reduces everything, so that the trees hold all symbols. -/
theorem Grown.readEnd {numbers : List Float} {symbols : List (Nat × Symbol)} {m : Machine}
    (h : Grown invoke table options numbers symbols m) :
    Run.Stays table (fun m' => Grown invoke table options numbers symbols m' ∧
      m'.pending.filterMap Pending.token? = [])
      (m.readOperator invoke options (.control .endExpr)) := by
  have hkept : kept Control.endExpr.operator m.pending = [] := by
    obtain ⟨forest, hforest⟩ := h
    refine List.dropWhile_eq_nil_iff.2 fun p hp => ?_
    exact Kind.end_unwinds (hforest.pending p hp)
  intro m' hm'
  obtain ⟨htable, _, ⟨op, hop, hpending⟩, hgrown⟩ := Grown.readOperator hpure h _ m' hm'
  have hsymbol : (Kind.control .endExpr).symbol? = none := rfl
  rw [hsymbol, Option.map_none, Option.toList_none, List.append_nil] at hgrown
  rw [← Except.ok.inj hop, hkept] at hpending
  exact ⟨htable, hgrown, by rw [hpending]; rfl⟩

end Pure

end Machine

open Machine in
/-- **A result is the value of one tree over the whole stream.** If the implementations do nothing
but compute and the stream ends an expression, then behind a result there is a tree: its leaves are
the numbers of the stream in their order, its nodes are the operators of the stream that give
values, each one once and with as many children as it takes, and its value is the result. -/
theorem exists_tree_of_evaluate {ι : Type} (invoke : Invocation ι) (options : Options)
    {table : FunctionTable ι} (hpure : ∀ d ∈ table.toList, invoke.IsPure d.implementation)
    {ts : List Token} {v : Float}
    (h : (evaluate invoke options (some (Token.source (ts ++ [.operator (.control .endExpr)])))
      table).result = .ok v) :
    ∃ tree : Tree, tree.leaves = ts.filterMap Token.number? ∧
      (tree.nodes.map Node.token).Perm (symbolsFrom 0 ts) ∧
      (∀ node ∈ tree.nodes, node.Fits options table) ∧ tree.value invoke table = .ok v := by
  have hinitial : Grown invoke table options [] [] initial :=
    ⟨[], rfl, rfl, List.Perm.refl _, fun _ hn => absurd hn List.not_mem_nil,
      fun _ hp => absurd hp List.not_mem_nil⟩
  have hread : Run.Stays table (fun m => Grown invoke table options (ts.filterMap Token.number?)
      (symbolsFrom 0 ts) m ∧ m.pending.filterMap Pending.token? = [])
      (initial.reads invoke options (ts ++ [.operator (.control .endExpr)])) := by
    rw [reads_append]
    refine (Grown.reads hpure hinitial ts).bind fun m hm => ?_
    rw [reads_cons]
    exact (Run.stays_note _).bind fun _ _ => (Grown.readEnd hpure hm).bind fun m' hm' =>
      Run.stays_pure hm'
  rw [evaluate_source, Run.reportingRejection_result] at h
  obtain ⟨m, hm, hv⟩ := Run.bind_result_eq_ok.1 h
  obtain ⟨_, ⟨forest, hforest⟩, hpending⟩ := hread m hm
  rw [Run.ofExcept_result] at hv
  have hforestValues := hforest.values
  rw [values_of_result hv, List.map_singleton, List.map_eq_singleton_iff] at hforestValues
  obtain ⟨tree, rfl, hvalue⟩ := hforestValues
  have hleaves := hforest.leaves
  have hsymbols := hforest.symbols
  have hfits := hforest.fits
  rw [List.flatMap_singleton] at hsymbols hfits
  rw [List.reverse_singleton, List.flatMap_singleton] at hleaves
  rw [hpending, List.append_nil] at hsymbols
  exact ⟨tree, hleaves, hsymbols, hfits, hvalue⟩

/-- The call `f(1 + 2, 3)`, which joins 1 and 2 + 3 as digits. -/
theorem exists_tree_of_evaluate_digits :
    let table : FunctionTable Routine := ⟨[⟨"f", 2, .digits⟩]⟩
    let ts : List Token := [.operator (.callStart "f"), .number 1, .operator (.arithmetic .add),
      .number 2, .operator .comma, .number 3, .operator .callEnd]
    (Routine.evaluateSource ⟨false⟩
      (some (Token.source (ts ++ [.operator (.control .endExpr)]))) table).result = .ok 15 ∧
    ∃ tree : Tree, tree.leaves = [1, 2, 3] ∧
      (tree.nodes.map Node.token).Perm [(0, .call "f"), (1, .arithmetic .add)] ∧
      tree.value (Routine.invoke ⟨false⟩ Routine.nestingLimit) table = .ok 15 := by
  intro table ts
  have hresult : (Routine.evaluateSource ⟨false⟩
      (some (Token.source (ts ++ [.operator (.control .endExpr)]))) table).result = .ok 15 := by
    have hoption : (Routine.evaluateSource ⟨false⟩ (some (Token.source
        (ts ++ [.operator (.control .endExpr)]))) table).result.toOption = some 15 := by
      decide +kernel
    generalize (Routine.evaluateSource ⟨false⟩ _ table).result = result at hoption ⊢
    cases result with
    | error fault => cases hoption
    | ok x => exact congrArg Except.ok (Option.some.inj hoption)
  have hpure : ∀ d ∈ table.toList,
      Invocation.IsPure (Routine.invoke ⟨false⟩ Routine.nestingLimit) d.implementation := by
    intro d hd
    rw [List.mem_singleton.1 hd]
    exact ⟨fun arguments => .ok (.float (arguments.foldl (fun acc a => acc * 10 + a) 0)),
      fun _ => rfl⟩
  obtain ⟨tree, hleaves, hsymbols, -, hvalue⟩ := exists_tree_of_evaluate _ ⟨false⟩ hpure hresult
  exact ⟨hresult, tree, hleaves, hsymbols, hvalue⟩

end Reckoner
