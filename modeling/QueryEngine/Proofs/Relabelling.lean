import QueryEngine.Proofs.Digest
import QueryEngine.Query.Planner

/-!
# Group numbers in digests

A relabelling gives the groups of a plan new numbers, at the nodes and in the sub-query bindings
alike, and the slots new declared types. The bytes behind a digest keep their length, and they stay
the same exactly if the groups that sub-query bindings name keep their numbers. The groups of nodes
and what is in the slots do not matter.
-/

set_option autoImplicit false

namespace QueryEngine

/-! ## Relabelled plans -/

/-- New numbers for groups and new declared types for slots. -/
structure Relabelling where
  group : GroupId → GroupId
  type : Nat → Option ColumnType → Option ColumnType

variable (r : Relabelling)

namespace Binding

mutual

def relabel : Binding → Binding
  | literal slot type => literal slot (r.type slot type)
  | column c => column c
  | call f arguments => call f (relabelAll arguments)
  | subquery group c => subquery (r.group group) c

def relabelAll : List Binding → List Binding
  | [] => []
  | b :: rest => b.relabel :: relabelAll rest

end

end Binding

namespace Comparison

def relabel : Comparison → Comparison
  | relation s left right => relation s (left.relabel r) (right.relabel r)
  | between value lower upper => between (value.relabel r) (lower.relabel r) (upper.relabel r)
  | oneOf value list => oneOf (value.relabel r) (list.map (Binding.relabel r))
  | isNull value => isNull (value.relabel r)
  | like value pattern => like (value.relabel r) (pattern.relabel r)

theorem name_relabel (c : Comparison) : (c.relabel r).name = c.name := by
  cases c <;> rfl

theorem bindings_relabel (c : Comparison) :
    (c.relabel r).bindings = c.bindings.map (Binding.relabel r) := by
  cases c <;> rfl

end Comparison

namespace Predicate

def relabel : Predicate → Predicate
  | literal value => literal value
  | atom c negated => atom (c.relabel r) negated
  | both left right => both left.relabel right.relabel
  | either left right => either left.relabel right.relabel

end Predicate

namespace LogicalOperator

def relabelValues (values : Assignments) : Assignments := values.map fun v => (v.1, v.2.relabel r)

def relabel : LogicalOperator → LogicalOperator
  | filter p => filter (p.relabel r)
  | subselect p => subselect (p.relabel r)
  | function f arguments out => function f (arguments.map (Binding.relabel r)) out
  | insert t values => insert t (relabelValues r values)
  | update t values => update t (relabelValues r values)
  | op => op

/-- The groups of the sub-queries that an operator reads. -/
def namedGroups (op : LogicalOperator) : List GroupId := op.implement.bindings.flatMap Binding.groups

end LogicalOperator

namespace LogicalPlan

def relabel : LogicalPlan → LogicalPlan :=
  PlanTree.fold fun g op _ below => .node (r.group g) (op.relabel r) below

theorem relabel_node (g : GroupId) (op : LogicalOperator) (inputs : List LogicalPlan) :
    relabel r (.node g op inputs) = .node (r.group g) (op.relabel r) (inputs.map (relabel r)) := by
  rw [relabel, PlanTree.fold_node]

/-- The groups that the sub-query bindings of a plan name. -/
def namedGroups : LogicalPlan → List GroupId :=
  PlanTree.fold fun _ op _ below => op.namedGroups ++ below.flatten

theorem namedGroups_node (g : GroupId) (op : LogicalOperator) (inputs : List LogicalPlan) :
    namedGroups (.node g op inputs) = op.namedGroups ++ inputs.flatMap namedGroups := by
  rw [namedGroups, PlanTree.fold_node, List.flatMap_def]

end LogicalPlan

/-! ## Bytes before and after -/

variable {r}

/-- Bytes after and before a relabelling. They have one length, and they are the same exactly if the
given groups keep their numbers. -/
structure Relabels (r : Relabelling) (gs : List GroupId) (new old : List UInt8) : Prop where
  length_eq : new.length = old.length
  eq_iff : new = old ↔ ∀ g ∈ gs, r.group g = g

namespace Relabels

variable {gs gs' : List GroupId} {new new' old old' : List UInt8}

theorem refl (bytes : List UInt8) : Relabels r [] bytes bytes where
  length_eq := rfl
  eq_iff := iff_of_true rfl fun _ h => nomatch h

theorem append (h : Relabels r gs new old) (h' : Relabels r gs' new' old') :
    Relabels r (gs ++ gs') (new ++ new') (old ++ old') where
  length_eq := by rw [List.length_append, List.length_append, h.length_eq, h'.length_eq]
  eq_iff := by
    rw [List.forall_mem_append, ← h.eq_iff, ← h'.eq_iff]
    constructor
    · intro heq
      exact List.append_inj heq h.length_eq
    · rintro ⟨rfl, rfl⟩
      rfl

theorem behind (bytes : List UInt8) (h : Relabels r gs new old) :
    Relabels r gs (bytes ++ new) (bytes ++ old) := (refl bytes).append h

theorem before (bytes : List UInt8) (h : Relabels r gs new old) :
    Relabels r gs (new ++ bytes) (old ++ bytes) := by
  have happend := h.append (refl bytes)
  rwa [List.append_nil] at happend

theorem flatMap {α β : Type} {groups : α → List GroupId} {code : β → List UInt8}
    {code' : α → List UInt8} {f : α → β} {as : List α}
    (h : ∀ a ∈ as, Relabels r (groups a) (code (f a)) (code' a)) :
    Relabels r (as.flatMap groups) ((as.map f).flatMap code) (as.flatMap code') := by
  induction as with
  | nil => exact refl []
  | cons a rest ih =>
    rw [List.map_cons, List.flatMap_cons, List.flatMap_cons, List.flatMap_cons]
    exact (h a List.mem_cons_self).append (ih fun b hb => h b (List.mem_cons_of_mem _ hb))

end Relabels

namespace Binding

mutual

theorem digestBytes_relabel :
    ∀ b : Binding, Relabels r b.groups (b.relabel r).digestBytes b.digestBytes
  | literal slot type => .refl _
  | column c => .refl _
  | call f arguments => by
    rw [relabel, digestBytes, digestBytes, groups]
    have hbytes := (digestBytesOfAll_relabelAll arguments).behind [f.isVectorised.toUInt8]
    exact hbytes.behind (2 :: utf8Bytes f.signature.display)
  | subquery group c => by
    rw [relabel, digestBytes, digestBytes, groups]
    refine ⟨by simp [bytes32, littleEndian_length], ?_⟩
    rw [List.forall_mem_singleton]
    constructor
    · intro heq
      exact (bytes32_append_inj (List.cons.inj heq).2).1
    · intro hkept
      rw [hkept]

theorem digestBytesOfAll_relabelAll :
    ∀ bs : List Binding, Relabels r (groupsOfAll bs) (digestBytesOfAll (relabelAll r bs))
      (digestBytesOfAll bs)
  | [] => .refl []
  | b :: rest => (digestBytes_relabel b).append (digestBytesOfAll_relabelAll rest)

end

/-- The bytes of several bindings one after another. -/
theorem flatMap_digestBytes_relabel (bs : List Binding) :
    Relabels r (bs.flatMap groups) ((bs.map (relabel r)).flatMap digestBytes)
      (bs.flatMap digestBytes) :=
  .flatMap fun b _ => b.digestBytes_relabel

end Binding

theorem Comparison.digestBytes_relabel (c : Comparison) :
    Relabels r (c.bindings.flatMap Binding.groups) (c.relabel r).digestBytes c.digestBytes := by
  rw [digestBytes, digestBytes, name_relabel, bindings_relabel, List.length_map]
  exact (Binding.flatMap_digestBytes_relabel c.bindings).behind _

theorem Predicate.digestBytes_relabel (p : Predicate) :
    Relabels r (p.bindings.flatMap Binding.groups) (p.relabel r).digestBytes p.digestBytes := by
  induction p with
  | literal value => exact .refl _
  | atom c negated =>
    have hbindings : (atom c negated).bindings = c.bindings := List.append_nil _
    rw [hbindings]
    exact c.digestBytes_relabel.behind [1, negated.toUInt8]
  | both left right ihl ihr =>
    have hbindings : (both left right).bindings = left.bindings ++ right.bindings :=
      List.flatMap_append
    rw [hbindings, List.flatMap_append]
    exact (ihl.append ihr).behind [2]
  | either left right ihl ihr =>
    have hbindings : (either left right).bindings = left.bindings ++ right.bindings :=
      List.flatMap_append
    rw [hbindings, List.flatMap_append]
    exact (ihl.append ihr).behind [3]

namespace LogicalOperator

theorem assignmentsBytes_relabel (values : Assignments) :
    Relabels r ((values.map (·.2)).flatMap Binding.groups)
      (Operator.assignmentsBytes (relabelValues r values)) (Operator.assignmentsBytes values) := by
  rw [List.flatMap_map]
  exact .flatMap fun v _ => v.2.digestBytes_relabel.behind _

theorem digestBytes_relabel (op : LogicalOperator) :
    Relabels r op.namedGroups (op.relabel r).implement.digestBytes op.implement.digestBytes := by
  cases op with
  | filter p => exact p.digestBytes_relabel.behind _
  | subselect p => exact p.digestBytes_relabel.behind _
  | function f arguments out =>
    have hbytes : Relabels r (arguments.flatMap Binding.groups) _ _ :=
      (Binding.flatMap_digestBytes_relabel arguments).behind [f.isVectorised.toUInt8]
    exact ((hbytes.behind (sizedBytes f.signature.display)).before (sizedBytes out.name)).behind _
  | insert t values => exact ((assignmentsBytes_relabel values).behind _).behind _
  | update t values => exact ((assignmentsBytes_relabel values).behind _).behind _
  | _ => exact .refl _

end LogicalOperator

/-! ## Digests -/

namespace LogicalPlan

/-- The bytes of inputs, one after another. -/
theorem inputs_relabel {bytes : LogicalPlan → List UInt8} {inputs : List LogicalPlan}
    (h : ∀ t ∈ inputs, Relabels r t.namedGroups (bytes (t.relabel r)) (bytes t)) :
    Relabels r (inputs.flatMap namedGroups) ((inputs.map (relabel r)).map bytes).flatten
      (inputs.map bytes).flatten := by
  rw [← List.flatMap_def, ← List.flatMap_def]
  exact .flatMap h

theorem digestBytes_relabel (t : LogicalPlan) :
    Relabels r t.namedGroups (t.relabel r).digestBytes t.digestBytes := by
  induction t using PlanTree.induct with
  | node g op inputs ih =>
    rw [relabel_node, namedGroups_node]
    rw [digestBytes_node, digestBytes_node, List.length_map]
    exact ((op.digestBytes_relabel.behind _).before _).append (inputs_relabel ih)

theorem implement_digestBytes_relabel (t : LogicalPlan) :
    Relabels r t.namedGroups (t.relabel r).implement.digestBytes t.implement.digestBytes := by
  induction t using PlanTree.induct with
  | node g op inputs ih =>
    rw [relabel_node, namedGroups_node]
    have hbytes (g : GroupId) (op : LogicalOperator) (inputs : List LogicalPlan) :
        (implement (.node g op inputs)).digestBytes = op.implement.digestBytes ++
          littleEndian 8 inputs.length ++ (inputs.map fun u => u.implement.digestBytes).flatten := by
      rw [implement_node, PhysicalPlan.digestBytes_node, List.length_map, List.map_map]
      rfl
    rw [hbytes, hbytes, List.length_map]
    exact (op.digestBytes_relabel.before _).append (inputs_relabel ih)

/-- Plans keep their digests under new numbers for groups and new contents of slots if the groups
that sub-query bindings name keep theirs; if not, other bytes are digested. -/
theorem relabelled_digests (r : Relabelling) (t : LogicalPlan) :
    ((t.relabel r).digestBytes = t.digestBytes ↔ ∀ g ∈ t.namedGroups, r.group g = g) ∧
    ((t.relabel r).implement.digestBytes = t.implement.digestBytes ↔
      ∀ g ∈ t.namedGroups, r.group g = g) ∧
    ((∀ g ∈ t.namedGroups, r.group g = g) →
      (t.relabel r).digest = t.digest ∧ (t.relabel r).implement.digest = t.implement.digest ∧
      ∀ (q : QueryContext) (b : Bindings) (maxWorkers : Nat),
        Planner.cacheKey (t.relabel r) { q with bindings := b } maxWorkers =
          Planner.cacheKey t q maxWorkers) := by
  have hlogical := (t.digestBytes_relabel (r := r)).eq_iff
  have hphysical := (t.implement_digestBytes_relabel (r := r)).eq_iff
  refine ⟨hlogical, hphysical, ?_⟩
  intro hkept
  have hdigest : (t.relabel r).digest = t.digest := congrArg XXH64.hash (hlogical.2 hkept)
  refine ⟨hdigest, congrArg XXH64.hash (hphysical.2 hkept), ?_⟩
  intro q b maxWorkers
  rw [Planner.cacheKey, hdigest, Planner.cacheKey]

/-! ### A sub-query under other numbers -/

namespace Renumbered

def column : Column := ⟨"t.x", .long, false⟩

def table : TableHandle := ⟨0, "t", [column], .none⟩

/-- The rows of a table that a sub-query finds in the same table, and those that equal a slot. -/
def among (outer inner : GroupId) (type : Option ColumnType) : LogicalPlan :=
  .node outer
    (.subselect (.atom (.oneOf (.column column) [.subquery inner column, .literal 0 type]) false))
    [.node outer (.scan table [column]) [], .node inner (.scan table [column]) []]

/-- The outer group gets another number and the slot loses its type. -/
def swap : Relabelling := ⟨fun g => if g = 0 then 2 else if g = 2 then 0 else g, fun _ _ => none⟩

/-- The numbers of groups that are taken from the same query later. -/
def shift : Relabelling := ⟨fun g => g + 2, fun _ type => type⟩

end Renumbered

open Renumbered in
theorem relabelled_digests_swap :
    (among 0 1 (some .long)).relabel swap = among 2 1 none ∧
    (among 2 1 none).digest = (among 0 1 (some .long)).digest ∧
    (among 2 1 none).implement.digest = (among 0 1 (some .long)).implement.digest := by
  have hkept : ∀ g ∈ (among 0 1 (some .long)).namedGroups, swap.group g = g :=
    List.forall_mem_singleton.2 rfl
  obtain ⟨-, -, hsame⟩ := relabelled_digests swap (among 0 1 (some .long))
  obtain ⟨hlogical, hphysical, -⟩ := hsame hkept
  exact ⟨rfl, hlogical, hphysical⟩

open Renumbered in
/-- Digests tell apart plans that differ in the numbers of their groups only. -/
theorem renumbered_digests_apart :
    Function.Injective shift.group ∧
    (among 0 1 (some .long)).validate = .ok () ∧
    (among 0 1 (some .long)).relabel shift = among 2 3 (some .long) ∧
    (among 2 3 (some .long)).digest ≠ (among 0 1 (some .long)).digest ∧
    (among 2 3 (some .long)).implement.digest ≠ (among 0 1 (some .long)).implement.digest := by
  refine ⟨?_, by decide, rfl, by decide +kernel, by decide +kernel⟩
  intro g h heq
  exact (UInt32.add_left_inj 2).1 heq

end LogicalPlan

end QueryEngine
