import QueryEngine.Error

/-!
# Plan trees

A plan is a tree of operators. Every node belongs to a group and may have any number of inputs.
`fold` computes a property from the operator, the inputs and the inputs' properties;
`PlanTree.induct` proves one from the same of all inputs.
-/

set_option autoImplicit false

namespace QueryEngine

universe u

inductive PlanTree (α : Type) where
  | node (group : GroupId) (op : α) (inputs : List (PlanTree α))

namespace PlanTree

variable {α β : Type}

def group : PlanTree α → GroupId
  | node group _ _ => group

def op : PlanTree α → α
  | node _ op _ => op

def inputs : PlanTree α → List (PlanTree α)
  | node _ _ inputs => inputs

/-- The first input. -/
def input? (t : PlanTree α) : Option (PlanTree α) := t.inputs.head?

/-- A node in the group of its only input. -/
def unary (op : α) (input : PlanTree α) : PlanTree α := node input.group op [input]

/-- A node in the group of its first input. -/
def nary (op : α) (inputs : List (PlanTree α)) : PlanTree α :=
  node ((inputs.head?.map group).getD 0) op inputs

/-- The same node over other inputs. -/
def withInputs (t : PlanTree α) (inputs : List (PlanTree α)) : PlanTree α :=
  node t.group t.op inputs

/-- What holds of a node whenever it holds of all its inputs holds of every tree. -/
theorem induct {motive : PlanTree α → Prop}
    (node : ∀ g op inputs, (∀ t ∈ inputs, motive t) → motive (.node g op inputs)) :
    ∀ t, motive t
  | .node g op inputs => node g op inputs (all inputs)
where
  all : ∀ inputs : List (PlanTree α), ∀ t ∈ inputs, motive t
  | [], _, h => nomatch h
  | t :: rest, u, h =>
    match List.mem_cons.1 h with
    | .inl e => e ▸ induct node t
    | .inr h => all rest u h

mutual

/-- Computes a property of a tree from the group, the operator, the inputs and their properties. -/
def fold (f : GroupId → α → List (PlanTree α) → List β → β) : PlanTree α → β
  | node group op inputs => f group op inputs (foldAll f inputs)

def foldAll (f : GroupId → α → List (PlanTree α) → List β → β) : List (PlanTree α) → List β
  | [] => []
  | t :: rest => fold f t :: foldAll f rest

end

theorem foldAll_eq_map (f : GroupId → α → List (PlanTree α) → List β → β)
    (trees : List (PlanTree α)) : foldAll f trees = trees.map (fold f) := by
  induction trees with
  | nil => rfl
  | cons t rest ih => simp [foldAll, ih]

theorem fold_node (f : GroupId → α → List (PlanTree α) → List β → β) (g : GroupId) (op : α)
    (inputs : List (PlanTree α)) :
    fold f (node g op inputs) = f g op inputs (inputs.map (fold f)) := by
  rw [fold, foldAll_eq_map]

/-- The tree with every operator replaced. -/
def map (f : α → β) : PlanTree α → PlanTree β := fold fun group op _ inputs => node group (f op) inputs

/-- All subtrees; a tree comes before its inputs. -/
def subtrees : PlanTree α → List (PlanTree α) :=
  fold fun group op inputs below => node group op inputs :: below.flatten

/-- The groups of a tree in the order in which they first occur. -/
def groups (t : PlanTree α) : List GroupId := (t.subtrees.map group).eraseDups

end PlanTree

end QueryEngine
