import QueryEngine.Proofs.Digest
import QueryEngine.Proofs.Settling

/-!
# Going down and going up

Going down, a sort is compared with the memory budget over the input it was given; going up, over
what its input has become. The two orders come to the same plan but for the sorts that exceed the
budget only before their inputs are rewritten: these spill going down and stay in memory going up.
A limit directly above a sort takes it in before either order asks for its size.
-/

set_option autoImplicit false

namespace QueryEngine

/-! ## Plans with more sorts that spill -/

/-- The second plan is the first one with some sorts spilled. -/
inductive MoreSpilled : PhysicalPlan → PhysicalPlan → Prop
  | node (group : GroupId) (op : Operator) {inputs inputs' : List PhysicalPlan}
      (h : List.Forall₂ MoreSpilled inputs inputs') :
      MoreSpilled (.node group op inputs) (.node group op inputs')
  | spill (group : GroupId) (order : SortOrder) (chunk : Nat) {inputs inputs' : List PhysicalPlan}
      (h : List.Forall₂ MoreSpilled inputs inputs') :
      MoreSpilled (.node group (.sort order) inputs) (.node group (.externalSort order chunk) inputs')

/-- The bytes of a digest tell whether a sort has spilled. -/
theorem MoreSpilled.digestBytes_append_inj {t u : PhysicalPlan} {r r' : List UInt8}
    (h : MoreSpilled t u) (heq : t.digestBytes ++ r = u.digestBytes ++ r') : t = u ∧ r = r' := by
  induction t using PlanTree.induct generalizing u r r' with
  | node group op inputs ih =>
    cases h with
    | @node _ _ _ inputs' hinputs =>
      simp only [PhysicalPlan.digestBytes_node, List.append_assoc, hinputs.length_eq,
        List.append_cancel_left_eq] at heq
      suffices hsame : inputs = inputs' ∧ r = r' from ⟨by rw [hsame.1], hsame.2⟩
      induction hinputs with
      | nil => exact ⟨rfl, heq⟩
      | @cons c d rest rest' hc _ ihrest =>
        simp only [List.map_cons, List.flatten_cons, List.append_assoc] at heq
        obtain ⟨rfl, hbehind⟩ := ih c List.mem_cons_self hc heq
        obtain ⟨rfl, hends⟩ := ihrest (fun v hv => ih v (List.mem_cons_of_mem _ hv)) hbehind
        exact ⟨rfl, hends⟩
    | spill group order chunk hinputs =>
      -- The sizes of the names differ.
      exfalso
      have hsort : "Sort".utf8ByteSize = 4 := by decide
      have hexternal : "ExternalSort".utf8ByteSize = 12 := by decide
      simp only [PhysicalPlan.digestBytes_node, Operator.digestBytes, Operator.name, sizedBytes,
        hsort, hexternal, List.append_assoc] at heq
      have hsizes := (littleEndian_append_inj (by decide) (by decide) heq).1
      cases hsizes

def Operator.isLimit : Operator → Bool
  | limit _ => true
  | _ => false

namespace PhysicalPlan

variable {group : GroupId} {op : Operator} {inputs : List PhysicalPlan} {t u : PhysicalPlan}

/-- The subtrees below the root that are not directly below a limit. -/
def unlimitedBelow (t : PhysicalPlan) : List PhysicalPlan :=
  t.subtrees.flatMap fun u => if u.op.isLimit then [] else u.inputs

/-- The subtrees that are not directly below a limit. -/
def unlimited (t : PhysicalPlan) : List PhysicalPlan := t :: t.unlimitedBelow

theorem mem_unlimitedBelow_node : u ∈ unlimitedBelow (.node group op inputs) ↔
    op.isLimit = false ∧ u ∈ inputs ∨ ∃ c ∈ inputs, u ∈ c.unlimitedBelow := by
  unfold unlimitedBelow
  rw [PlanTree.subtrees, PlanTree.fold_node, List.flatMap_cons, List.mem_append]
  refine or_congr ?_ ?_
  · cases hop : op.isLimit <;> simp [PlanTree.op, PlanTree.inputs, hop]
  · simp only [List.mem_flatMap, List.mem_flatten, List.mem_map]
    constructor
    · rintro ⟨v, ⟨_, ⟨c, hc, rfl⟩, hv⟩, hu⟩
      exact ⟨c, hc, v, hv, hu⟩
    · rintro ⟨c, hc, v, hv, hu⟩
      exact ⟨v, ⟨_, ⟨c, hc, rfl⟩, hv⟩, hu⟩

theorem unlimited_subtrees (h : u ∈ t.unlimited) : u ∈ t.subtrees := by
  rcases List.mem_cons.1 h with rfl | h
  · exact mem_subtrees_self u
  · obtain ⟨⟨g, op, inputs⟩, hv, hu⟩ := List.mem_flatMap.1 h
    split at hu
    · cases hu
    · exact subtrees_subset hv u (mem_subtrees_of_mem hu (mem_subtrees_self u))

end PhysicalPlan

/-! ## Where the orders part -/

open Rule (Exceeds Replacement Sorts isProduct)
open PhysicalPlan (Every Rests every_node rests_node scan_valid validate_node)
open Rewritten (bottomUp)

section

variable {scope : RewriteScope} {t u : PhysicalPlan}

/-- A sort that exceeds the budget over the input it is given, but not over what becomes of it. -/
def SpillsEarly (scope : RewriteScope) (t : PhysicalPlan) : Prop :=
  ∃ group order input w, t = .node group (.sort order) [input] ∧
    bottomUp scope Rule.all input = .ok w ∧ Exceeds scope t ∧
    ¬ Exceeds scope (.node group (.sort order) [w.plan])

theorem SpillsEarly.op_eq (h : SpillsEarly scope t) : ∃ order, t.op = .sort order := by
  obtain ⟨_, order, _, _, rfl, _⟩ := h
  exact ⟨order, rfl⟩

theorem SpillsEarly.not_product (h : SpillsEarly scope t) : isProduct t.op = false := by
  obtain ⟨order, hop⟩ := h.op_eq
  rw [hop]
  rfl

/-- Whether no sort that a limit leaves in place spills early. -/
def Level (scope : RewriteScope) (t : PhysicalPlan) : Prop :=
  ∀ u ∈ t.unlimited, ¬ SpillsEarly scope u

/-- The same of the sorts below the root. -/
def LevelBelow (scope : RewriteScope) (t : PhysicalPlan) : Prop :=
  ∀ u ∈ t.unlimitedBelow, ¬ SpillsEarly scope u

section

variable {group : GroupId} {op : Operator} {inputs : List PhysicalPlan}

theorem level_iff : Level scope t ↔ ¬ SpillsEarly scope t ∧ LevelBelow scope t :=
  List.forall_mem_cons

theorem levelBelow_node : LevelBelow scope (.node group op inputs) ↔
    (op.isLimit = false → ∀ c ∈ inputs, ¬ SpillsEarly scope c) ∧
      ∀ c ∈ inputs, LevelBelow scope c := by
  simp only [LevelBelow, PhysicalPlan.mem_unlimitedBelow_node]
  constructor
  · intro h
    exact ⟨fun hop u hu => h u (.inl ⟨hop, hu⟩), fun c hc u hu => h u (.inr ⟨c, hc, hu⟩)⟩
  · rintro ⟨hinputs, hbelow⟩ u (⟨hop, hu⟩ | ⟨c, hc, hu⟩)
    · exact hinputs hop u hu
    · exact hbelow c hc u hu

/-- Below what takes no sort in, all sorts count. -/
theorem levelBelow_inputs (h : op.isLimit = true → ∀ c ∈ inputs, ¬ SpillsEarly scope c) :
    LevelBelow scope (.node group op inputs) ↔ ∀ c ∈ inputs, Level scope c := by
  have hlevel : (∀ c ∈ inputs, Level scope c) ↔
      (∀ c ∈ inputs, ¬ SpillsEarly scope c) ∧ ∀ c ∈ inputs, LevelBelow scope c := by
    simp only [level_iff, imp_and, forall_and]
  rw [levelBelow_node, hlevel]
  refine and_congr_left fun _ => ⟨fun hother => ?_, fun hall _ => hall⟩
  cases hop : op.isLimit with
  | true => exact h hop
  | false => exact hother hop

theorem level_node (h : op.isLimit = true → ∀ c ∈ inputs, ¬ SpillsEarly scope c) :
    Level scope (.node group op inputs) ↔
      ¬ SpillsEarly scope (.node group op inputs) ∧ ∀ c ∈ inputs, Level scope c := by
  rw [level_iff, levelBelow_inputs h]

theorem level_of_products (ht : t.Every (isProduct · = true)) : Level scope t := by
  intro u hu hearly
  have hproduct : isProduct u.op = true := ht u (PhysicalPlan.unlimited_subtrees hu)
  rw [hearly.not_product] at hproduct
  cases hproduct

theorem level_scan (g : GroupId) (table : TableHandle) (cs : List Column) (i n : Nat) :
    Level scope (.node g (.scan table cs i n) []) := by
  refine level_iff.2 ⟨fun hearly => ?_, ?_⟩
  · obtain ⟨order, hop⟩ := hearly.op_eq
    cases hop
  · exact (levelBelow_inputs fun hlimit => by cases hlimit).2 (List.forall_mem_nil _)

/-- Where a rule fires that does not depend on estimates, the sorts that count are below what it
puts in place. -/
theorem level_fires {r : Rule} (hr : r ∈ Rewritten.steadyRules) (ht : t.validate = .ok ())
    (h : r.apply scope t = .ok (some (.node group op inputs))) :
    Level scope t ↔ ∀ c ∈ inputs, Level scope c := by
  have hat := Rule.at?_of_apply h
  have hnot : ¬ SpillsEarly scope t := by
    intro hearly
    obtain ⟨order, hop⟩ := hearly.op_eq
    rw [hop] at hat
    cases hat
    exact absurd hr (by decide)
  rw [level_iff, iff_true_intro hnot, true_and]
  generalize hu : PlanTree.node group op inputs = u at h
  cases Rule.replacement_of_apply h with
  | count group g table cs i below =>
    obtain ⟨rfl, _⟩ := scan_valid ((validate_node.1 ht).2 _ (List.mem_singleton_self _))
    cases hu
    refine iff_of_true ?_ (List.forall_mem_nil _)
    exact (levelBelow_inputs fun hlimit => by cases hlimit).2
      (List.forall_mem_singleton.2 (level_scan g table cs i 1))
  | lookUp group g table cs i p below hx hp =>
    obtain ⟨rfl, _⟩ := scan_valid ((validate_node.1 ht).2 _ (List.mem_singleton_self _))
    have hproducts := Rule.every_product_indexPlan group table cs p
    refine iff_of_true ?_ ?_
    · exact (levelBelow_inputs fun hlimit => by cases hlimit).2
        (List.forall_mem_singleton.2 (level_scan g table cs i 1))
    · intro c hc
      exact level_of_products ((every_node.1 (hu ▸ hproducts _)).2 c hc)
  | @fuse group g order bounds op' hop below =>
    cases hu
    have hsort : LevelBelow scope (.node g op' inputs) ↔ ∀ c ∈ inputs, Level scope c :=
      levelBelow_inputs fun hlimit => by cases hop <;> cases hlimit
    rw [levelBelow_node, ← hsort]
    constructor
    · rintro ⟨_, hbelow⟩
      exact hbelow _ (List.mem_singleton_self _)
    · intro hbelow
      exact ⟨fun hlimit => (by cases hlimit), List.forall_mem_singleton.2 hbelow⟩
  | spill group order chunk input others =>
    cases hat
    exact absurd hr (by decide)
  | vectorise group hf arguments out below =>
    cases hu
    exact levelBelow_inputs fun hlimit => by cases hlimit

end

/-- Going down, whatever has been visited. -/
def Course.downward (scope : RewriteScope) : Course :=
  { Course.down scope with visits := fun _ _ => True }

/-- What a plan comes to going down is what it comes to going up, with the sorts spilled that spill
early. -/
def Parts (scope : RewriteScope) (t u : PhysicalPlan) : Prop :=
  t.validate = .ok () → ∀ d, Settled scope (.downward scope) t d → d.Rests scope Rule.all →
    MoreSpilled u d ∧ (u = d ↔ Level scope t)

/-- The inputs of a node come to the same exactly if all of them do. -/
theorem parts_inputs {inputs ups downs : List PhysicalPlan} (hvalid : ∀ c ∈ inputs, c.validate = .ok ())
    (hparts : List.Forall₂ (Parts scope) inputs ups)
    (hdowns : List.Forall₂ (Settled scope (.downward scope)) inputs downs)
    (hrests : ∀ d ∈ downs, Rests scope Rule.all d) :
    List.Forall₂ MoreSpilled ups downs ∧ (ups = downs ↔ ∀ c ∈ inputs, Level scope c) := by
  induction hparts generalizing downs with
  | nil =>
    cases hdowns
    exact ⟨.nil, iff_of_true rfl (List.forall_mem_nil _)⟩
  | cons hc _ ih =>
    cases hdowns with
    | cons hd hdowns =>
      obtain ⟨hfirst, hvalid⟩ := List.forall_mem_cons.1 hvalid
      obtain ⟨hrest, hrests⟩ := List.forall_mem_cons.1 hrests
      obtain ⟨hmore, hsame⟩ := hc hfirst _ hd hrest
      obtain ⟨hmores, hsames⟩ := ih hvalid hdowns hrests
      refine ⟨.cons hmore hmores, ?_⟩
      rw [List.cons.injEq, List.forall_mem_cons, hsame, hsames]

theorem node_eq_iff {group : GroupId} {op : Operator} {ups downs : List PhysicalPlan} :
    PlanTree.node group op ups = .node group op downs ↔ ups = downs := by
  simp only [PlanTree.node.injEq, true_and]

theorem settled_parts (h : Settled scope (.up scope) t u) : Parts scope t u := by
  refine Settled.induct ?_ ?_ ?_ h
  · intro r t group op inputs ups hr happly _ _ ih ht d hd hrests
    cases hd with
    | @fires r' t group' op' inputs' downs hr' happly' hdowns _ =>
      have hrule : r = r' :=
        Option.some.inj ((Rule.at?_of_apply happly).symm.trans (Rule.at?_of_apply happly'))
      rw [hrule, happly'] at happly
      cases happly
      have hconforms := (Rule.replacement_of_apply happly').conforms ht
      obtain ⟨hmore, hsame⟩ := parts_inputs (validate_node.1 hconforms.valid).2 ih hdowns
        (rests_node.1 hrests).2
      exact ⟨.node group op hmore, node_eq_iff.trans (hsame.trans (level_fires hr' ht happly').symm)⟩
    | spilled _ _ _ =>
      cases Rule.at?_of_apply happly
      exact absurd hr (by decide)
    | kept hnone _ _ _ =>
      rw [hnone r hr] at happly
      cases happly
  · intro group order inputs ups hups hvisits hexceeds ih ht d hd hrests
    have hvalid := (validate_node.1 ht).2
    have hroot : ¬ SpillsEarly scope (.node group (.sort order) inputs) := by
      rintro ⟨g, order', input, w, heq, hw, _, hnot⟩
      cases heq
      obtain ⟨c, rest, ⟨w', hw', hc⟩, hrest, rfl⟩ := List.forall₂_cons_left_iff.1 hvisits
      cases hrest
      rw [hw] at hw'
      cases hw'
      exact hnot (hc ▸ hexceeds)
    cases hd with
    | fires hr happly _ _ =>
      cases Rule.at?_of_apply happly
      exact absurd hr (by decide)
    | spilled hdowns _ _ =>
      obtain ⟨hmore, hsame⟩ := parts_inputs hvalid ih hdowns (rests_node.1 hrests).2
      refine ⟨.node group _ hmore, node_eq_iff.trans (hsame.trans ?_)⟩
      rw [level_node fun hlimit => by cases hlimit]
      exact (and_iff_right hroot).symm
    | kept _ hdowns _ _ =>
      -- The sort over the same estimates would spill.
      exact absurd (Rewritten.exceeds_settled hups hdowns hexceeds)
        (Rewritten.not_exceeds (rests_node.1 hrests).1)
  · intro group op inputs ups hnone hups hvisits hstays ih ht d hd hrests
    have hvalid := (validate_node.1 ht).2
    cases hd with
    | fires hr happly _ _ =>
      rw [hnone _ hr] at happly
      cases happly
    | @spilled group order inputs downs hdowns _ hspills =>
      obtain ⟨hmore, _⟩ := parts_inputs hvalid ih hdowns (rests_node.1 hrests).2
      refine ⟨.spill group order _ hmore, iff_of_false (fun heq => ?_) fun hlevel => ?_⟩
      · cases (PlanTree.node.inj heq).2.1
      · obtain ⟨input, rfl⟩ := Rule.eq_single (validate_node.1 ht).1 rfl
        obtain ⟨up, rest, ⟨w, hw, rfl⟩, hrest, rfl⟩ := List.forall₂_cons_left_iff.1 hvisits
        cases hrest
        have hlate := hstays order rfl
        refine (level_iff.1 hlevel).1 ⟨group, order, input, w, rfl, hw, ?_, hlate⟩
        rcases hspills with hearly | hspills
        · exact hearly
        · exact absurd (Rewritten.exceeds_settled hdowns hups hspills) hlate
    | kept _ hdowns _ hstays' =>
      obtain ⟨hmore, hsame⟩ := parts_inputs hvalid ih hdowns (rests_node.1 hrests).2
      refine ⟨.node group op hmore, node_eq_iff.trans (hsame.trans ?_)⟩
      have hroot : ¬ SpillsEarly scope (.node group op inputs) := by
        rintro ⟨g, order, input, w, heq, _, hearly, _⟩
        obtain ⟨_, hop, _⟩ := PlanTree.node.inj heq
        exact hstays' order hop hearly
      have htaken : op.isLimit = true → ∀ c ∈ inputs, ¬ SpillsEarly scope c := by
        intro hop c hc hearly
        obtain ⟨g, order, below, _, rfl, _⟩ := hearly
        cases op with
        | limit bounds =>
          obtain ⟨input, rfl⟩ := Rule.eq_single (validate_node.1 ht).1 rfl
          cases List.mem_singleton.1 hc
          cases hnone .limitingSortMerge (by decide)
        | _ => cases hop
      rw [level_node htaken]
      exact (and_iff_right hroot).symm

end

/-! ## Both orders -/

/-- The same scope with another order of visits. -/
def RewriteScope.inOrder (scope : RewriteScope) (order : MatchOrder) : RewriteScope :=
  { scope with config := { scope.config with matchOrder := order } }

section

variable (scope : RewriteScope) (order order' : MatchOrder)

theorem Rule.cheapest_inOrder (present : Cost) (candidates : List PhysicalPlan)
    (best : Option (Binary32 × PhysicalPlan)) :
    cheapest (scope.inOrder order) present best candidates =
      cheapest scope present best candidates := by
  induction candidates generalizing best with
  | nil => rfl
  | cons t rest ih =>
    simp only [cheapest, ih]
    rfl

theorem Rule.apply_inOrder (r : Rule) (t : PhysicalPlan) :
    r.apply (scope.inOrder order) t = r.apply scope t := by
  cases r with
  | booleanIndexScan =>
    simp only [apply, useIndex, cheapest_inOrder]
    rfl
  | _ => rfl

theorem Rewritten.step_inOrder (rules : List Rule) (t : PhysicalPlan) :
    step (scope.inOrder order) t rules = step scope t rules := by
  induction rules with
  | nil => rfl
  | cons r rest ih =>
    unfold step
    rw [ih]
    have hsame := r.apply_inOrder scope order t
    split <;> split <;> simp_all

theorem Rewritten.bottomUp_inOrder (rules : List Rule) (t : PhysicalPlan) :
    bottomUp (scope.inOrder order) rules t = bottomUp scope rules t := by
  simp only [bottomUp, step_inOrder]

end

/-- What has become of a plan in one order may have become of it in any order. -/
theorem Settled.ofOrder {scope : RewriteScope} {order : MatchOrder} {course course' : Course}
    {t u : PhysicalPlan} (h : Settled (scope.inOrder order) course t u)
    (hvisits : ∀ c d, course.visits c d → course'.visits c d)
    (hspills : ∀ c d, course.spills c d → course'.spills c d)
    (hstays : ∀ c d, course.stays c d → course'.stays c d) : Settled scope course' t u := by
  refine Settled.induct (fun hr h _ hvisited ih => ?_) (fun _ hvisited h ih => ?_)
    (fun hnone _ hvisited h ih => ?_) h
  · exact .fires hr ((Rule.apply_inOrder ..).symm.trans h) ih (hvisited.imp hvisits)
  · exact .spilled ih (hvisited.imp hvisits) (hspills _ _ h)
  · exact .kept (fun r hr => (Rule.apply_inOrder ..).symm.trans (hnone r hr)) ih
      (hvisited.imp hvisits) fun order hop => hstays _ _ (h order hop)

namespace RewriteOutcome

/-- For a valid plan the two orders come to plans that differ in spilled sorts at most. The plans, and
the bytes of their digests, are the same exactly if no sort spills early that a limit leaves in
place. -/
theorem orders_agree_iff {scope : RewriteScope} {t : PhysicalPlan} (ht : t.validate = .ok ())
    {down up : RewriteOutcome} (hdown : rewrite (scope.inOrder .topDown) Rule.all t = pure down)
    (hup : rewrite (scope.inOrder .bottomUp) Rule.all t = pure up) :
    MoreSpilled up.plan down.plan ∧
    (down.plan.digestBytes = up.plan.digestBytes ↔ ∀ u ∈ t.unlimited, ¬ SpillsEarly scope u) ∧
    ((∀ u ∈ t.unlimited, ¬ SpillsEarly scope u) →
      down.plan = up.plan ∧ down.plan.digest = up.plan.digest) := by
  obtain ⟨hdowns, hrests⟩ := rewrite_settled ht hdown
  obtain ⟨hups, _⟩ := rewrite_settled ht hup
  replace hdowns : Settled (scope.inOrder .topDown) (.down (scope.inOrder .topDown)) t down.plan :=
    hdowns
  replace hups : Settled (scope.inOrder .bottomUp) (.up (scope.inOrder .bottomUp)) t up.plan := hups
  have hsettled : Settled scope (.downward scope) t down.plan :=
    hdowns.ofOrder (fun _ _ _ => trivial) (fun _ _ h => h) fun _ _ h => h
  have hsettled' : Settled scope (.up scope) t up.plan :=
    hups.ofOrder (fun c d ⟨w, hw, hd⟩ => ⟨w, (Rewritten.bottomUp_inOrder ..).symm.trans hw, hd⟩)
      (fun _ _ h => h) fun _ _ h => h
  have hfinal : down.plan.Rests scope Rule.all := fun v hv r hr =>
    (Rule.apply_inOrder ..).symm.trans (hrests v hv r hr)
  obtain ⟨hmore, hsame⟩ := settled_parts hsettled' ht down.plan hsettled hfinal
  refine ⟨hmore, ?_, fun hlevel => ?_⟩
  · rw [← Level, ← hsame]
    constructor
    · intro heq
      exact (hmore.digestBytes_append_inj (congrArg (· ++ []) heq.symm)).1
    · intro heq
      rw [heq]
  · rw [hsame.2 hlevel]
    exact ⟨rfl, rfl⟩

/-- One pass to a plan in which nothing fires is all it takes. -/
theorem rewrite_of_rests {scope : RewriteScope} {rules : List Rule} {t : PhysicalPlan} {w : Rewritten}
    (hpass : Rewritten.pass scope rules t = .ok w) (hrests : w.plan.Rests scope rules)
    (hpasses : 2 ≤ scope.config.maxPasses) :
    ∃ out, rewrite scope rules t = pure out ∧ out.plan = w.plan := by
  obtain ⟨left, hleft⟩ := Nat.exists_eq_add_of_le' hpasses
  rw [rewrite, hleft, proceed_succ hpass]
  split
  · exact ⟨_, rfl, rfl⟩
  · exact ⟨⟨w.plan, 2, w.fired⟩, proceed_succ (w := ⟨w.plan, w.fired⟩)
      (Rewritten.pass_of_rests hrests), rfl⟩

end RewriteOutcome

/-! ### A look-up of repeated values -/

namespace Repeats

def column : Column := ⟨"t.x", .long, false⟩

/-- Two of five rows hold the value looked up, and the values are three. -/
def table : Table :=
  ⟨"t", [column],
    [(0, [.long 1]), (1, [.long 2]), (2, [.long 3]), (3, [.long 1]), (4, [.long 2])], 5,
    [⟨"t.idx_x", column, [(.long 1, [0, 3]), (.long 2, [1, 4]), (.long 3, [2])], 5⟩], 0⟩

def store : Store := ⟨[table]⟩

def handle : TableHandle := store.handle 0

def index : IndexHandle := ⟨0, 0, "t.idx_x", column⟩

/-- Memory for one tuple. -/
def scope : RewriteScope :=
  ⟨store, ⟨[some (.long 1)], []⟩, .standard, { PlannerConfig.standard with memoryBudget := 8 }, .none⟩

def sought : Predicate :=
  .atom (.relation .equal (.column column) (.literal 0 (some .long))) false

def filtered : PhysicalPlan := .node 0 (.filter sought) [.node 0 (.scan handle [column] 0 1) []]

def order : SortOrder := [(column, .ascending)]

def sorted (input : PhysicalPlan) : PhysicalPlan := .node 0 (.sort order) [input]

def spilled (input : PhysicalPlan) : PhysicalPlan := .node 0 (.externalSort order 1) [input]

def found : PhysicalPlan := Rule.lookupPlan 0 handle sought index

section

variable (visits : MatchOrder)

theorem useIndex_filtered :
    Rule.booleanIndexScan.apply (scope.inOrder visits) filtered = .ok (some found) := by
  rw [Rule.apply_inOrder]
  obtain ⟨u, hu⟩ := SortedFilter.eq_some_of_isSome (r := Rule.useIndex scope filtered)
    (by decide +kernel)
  obtain ⟨x, hx, _, rfl⟩ := Rule.useIndex_cases hu
  have hindex : handle.indexes scope.store = [index] := by decide
  rw [hindex, List.mem_singleton] at hx
  subst hx
  exact hu

/-- A third of five rows are two in memory for one. -/
theorem spillSort_filtered :
    Rule.externalSort.apply (scope.inOrder visits) (sorted filtered) =
      .ok (some (spilled filtered)) := by
  rw [Rule.apply_inOrder]
  rfl

/-- The index says one. -/
theorem spillSort_found :
    Rule.externalSort.apply (scope.inOrder visits) (sorted found) = .ok none := by
  rw [Rule.apply_inOrder]
  exact SortedFilter.eq_none_of_isSome (by decide +kernel)

theorem found_rests : found.Rests (scope.inOrder visits) Rule.all :=
  rests_node.2 ⟨fun r _ => by cases r <;> rfl, List.forall_mem_nil _⟩

end

theorem rewrite_down : ∃ out,
    RewriteOutcome.rewrite (scope.inOrder .topDown) Rule.all (sorted filtered) = pure out ∧
      out.plan = spilled found := by
  have hfiltered : Rewritten.topDown (scope.inOrder .topDown) Rule.all filtered =
      .ok ⟨found, [.booleanIndexScan]⟩ :=
    Rewritten.topDown_of_fires [.countPushdown] .booleanIndexScan
      [.limitingSortMerge, .externalSort, .functionVectorisation] (List.forall_mem_singleton.2 rfl)
      (useIndex_filtered _) .nil
  have hpass : Rewritten.pass (scope.inOrder .topDown) Rule.all (sorted filtered) =
      .ok ⟨spilled found, [.externalSort, .booleanIndexScan]⟩ :=
    Rewritten.topDown_of_fires [.countPushdown, .booleanIndexScan, .limitingSortMerge] .externalSort _
      (fun r hr => by
        simp only [List.mem_cons, List.not_mem_nil, or_false] at hr
        rcases hr with rfl | rfl | rfl <;> rfl) (spillSort_filtered _) (.cons hfiltered .nil)
  refine RewriteOutcome.rewrite_of_rests hpass ?_ (by decide)
  exact rests_node.2 ⟨fun r _ => by cases r <;> rfl, List.forall_mem_singleton.2 (found_rests _)⟩

theorem rewrite_up : ∃ out,
    RewriteOutcome.rewrite (scope.inOrder .bottomUp) Rule.all (sorted filtered) = pure out ∧
      out.plan = sorted found := by
  have hscan : bottomUp (scope.inOrder .bottomUp) Rule.all (.node 0 (.scan handle [column] 0 1) []) =
      .ok ⟨.node 0 (.scan handle [column] 0 1) [], []⟩ :=
    Rewritten.bottomUp_of_none .nil fun r _ => by cases r <;> rfl
  have hfiltered : bottomUp (scope.inOrder .bottomUp) Rule.all filtered =
      .ok ⟨found, [.booleanIndexScan]⟩ :=
    Rewritten.bottomUp_of_fires [.countPushdown] .booleanIndexScan
      [.limitingSortMerge, .externalSort, .functionVectorisation] (.cons hscan .nil)
      (List.forall_mem_singleton.2 rfl) (useIndex_filtered _)
  have hsorted : ∀ r ∈ Rule.all, r.apply (scope.inOrder .bottomUp) (sorted found) = .ok none := by
    intro r _
    cases r with
    | externalSort => exact spillSort_found _
    | _ => rfl
  have hpass : Rewritten.pass (scope.inOrder .bottomUp) Rule.all (sorted filtered) =
      .ok ⟨sorted found, [.booleanIndexScan]⟩ :=
    Rewritten.bottomUp_of_none (.cons hfiltered .nil) hsorted
  refine RewriteOutcome.rewrite_of_rests hpass ?_ (by decide)
  exact rests_node.2 ⟨hsorted, List.forall_mem_singleton.2 (found_rests _)⟩

end Repeats

open Repeats in
theorem RewriteOutcome.orders_agree_iff_repeats : (sorted filtered).validate = .ok () ∧
    ∃ down up, rewrite (scope.inOrder .topDown) Rule.all (sorted filtered) = pure down ∧
      rewrite (scope.inOrder .bottomUp) Rule.all (sorted filtered) = pure up ∧
      MoreSpilled up.plan down.plan ∧ ∃ u ∈ (sorted filtered).unlimited, SpillsEarly scope u := by
  have hvalid : (sorted filtered).validate = .ok () := by decide
  obtain ⟨down, hdown, hspilled⟩ := rewrite_down
  obtain ⟨up, hup, hsorted⟩ := rewrite_up
  obtain ⟨hmore, hsame, _⟩ := orders_agree_iff hvalid hdown hup
  refine ⟨hvalid, down, up, hdown, hup, hmore, ?_⟩
  have hapart : ¬ down.plan.digestBytes = up.plan.digestBytes := by
    rw [hspilled, hsorted]
    decide
  simpa only [hsame, not_forall, not_not, exists_prop] using hapart

open Repeats in
/-- Going down the sort spills before the look-up takes the place of the filter below it. -/
theorem RewriteOutcome.orders_differ : (sorted filtered).validate = .ok () ∧
    ∃ down up, rewrite (scope.inOrder .topDown) Rule.all (sorted filtered) = pure down ∧
      rewrite (scope.inOrder .bottomUp) Rule.all (sorted filtered) = pure up ∧
      down.plan.digest ≠ up.plan.digest := by
  obtain ⟨down, hdown, hspilled⟩ := rewrite_down
  obtain ⟨up, hup, hsorted⟩ := rewrite_up
  refine ⟨by decide, down, up, hdown, hup, ?_⟩
  rw [hspilled, hsorted]
  decide +kernel

end QueryEngine
