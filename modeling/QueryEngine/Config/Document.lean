import QueryEngine.Config.Basic
import QueryEngine.Toml.Reader
import QueryEngine.Toml.Quoted

/-!
# Settings as documents

Settings are read from a document with the tables `planner`, `execution` and `cost`. What is absent
keeps its standard value and what is unknown is left aside.
-/

set_option autoImplicit false

namespace QueryEngine

namespace Toml

/-- The field of a record: by name in a table, by place in an array; a date or time counts as a table
without fields. The outer part is empty when the value is none of these. -/
def recordField? (place : Nat) (name : String) : Toml → Option (Option Toml)
  | table _ entries => some (entries.lookup name)
  | array items => some items[place]?
  | tables items => some items[place]?
  | moment _ => some none
  | _ => none

/-- The value of a field, or the one it has by default. -/
def fieldOr {α : Type} (read : Toml → Option α) (place : Nat) (name : String) (standard : α)
    (t : Toml) : Option α := do
  match ← t.recordField? place name with
  | none => some standard
  | some v => read v

def count? : Toml → Option Nat
  | integer n => if 0 ≤ n then some n.toNat else none
  | _ => none

def single? : Toml → Option Binary32
  | integer n => some (.ofInt n)
  | real x => some x.narrow
  | _ => none

def text? : Toml → Option String
  | text s => some s
  | _ => none

def isEmpty : Toml → Bool
  | table _ entries => entries.isEmpty
  | array items => items.isEmpty
  | tables items => items.isEmpty
  | _ => false

/-- The name of a choice: a text, or a table of one empty entry. -/
def choice? : Toml → Option String
  | text s => some s
  | table _ [(name, v)] => if v.isEmpty then some name else none
  | _ => none

def matchOrder? (t : Toml) : Option MatchOrder := do
  match ← t.choice? with
  | "top_down" => some .topDown
  | "bottom_up" => some .bottomUp
  | _ => none

end Toml

def MatchOrder.name : MatchOrder → String
  | topDown => "top_down"
  | bottomUp => "bottom_up"

def PlannerConfig.ofToml? (t : Toml) : Option PlannerConfig := do
  let standard := PlannerConfig.standard
  return {
    maxPasses := ← t.fieldOr Toml.count? 0 "max_rewrite_passes" standard.maxPasses
    cacheSize := ← t.fieldOr Toml.count? 1 "plan_cache_size" standard.cacheSize
    memoryBudget :=
      ← t.fieldOr (fun v => v.count?.map UInt64.ofNat) 2 "memory_budget_bytes" standard.memoryBudget
    vectorisationThreshold :=
      ← t.fieldOr Toml.count? 3 "vectorisation_threshold" standard.vectorisationThreshold
    matchOrder := ← t.fieldOr Toml.matchOrder? 4 "match_order" standard.matchOrder }

def ExecutionConfig.ofToml? (processors : Nat) (t : Toml) : Option ExecutionConfig := do
  let standard := ExecutionConfig.standard processors
  return {
    maxWorkers := ← t.fieldOr Toml.count? 0 "max_workers" standard.maxWorkers
    channelCapacity := ← t.fieldOr Toml.count? 1 "channel_capacity" standard.channelCapacity
    spillDirectory := ← t.fieldOr (fun v => v.text?.map some) 2 "spill_dir" none }

def CostPolicy.ofToml? (t : Toml) : Option CostPolicy := do
  let standard := CostPolicy.standard
  return {
    io := ← t.fieldOr Toml.single? 0 "wio" standard.io
    cpu := ← t.fieldOr Toml.single? 1 "wcpu" standard.cpu
    memory := ← t.fieldOr Toml.single? 2 "wmemory" standard.memory
    accuracy := ← t.fieldOr Toml.single? 3 "waccuracy" standard.accuracy
    speedupPerWorker := ← t.fieldOr Toml.single? 4 "speedup_per_worker" standard.speedupPerWorker
    sequentialIo := ← t.fieldOr Toml.single? 5 "non_parallelisable_io" standard.sequentialIo }

namespace QueryConfig

def ofToml? (processors : Nat) (t : Toml) : Option QueryConfig := do
  let standard := QueryConfig.standard processors
  return {
    planner := ← t.fieldOr PlannerConfig.ofToml? 0 "planner" standard.planner
    execution :=
      ← t.fieldOr (ExecutionConfig.ofToml? processors) 1 "execution" standard.execution
    cost := ← t.fieldOr CostPolicy.ofToml? 2 "cost" standard.cost }

/-- Reads and checks the settings in a text. -/
def parse (processors : Nat) (s : String) : Except ConfigError QueryConfig :=
  match Toml.parse? s >>= ofToml? processors with
  | none => .error .malformed
  | some c => c.validate.map fun _ => c

/-- Reads and checks the settings in a file, given its content if it can be read. -/
def load (processors : Nat) (content : Option String) : Except ConfigError QueryConfig :=
  match content with
  | none => .error .unreadable
  | some s => parse processors s

/-- The settings in the file that the environment names, or the standard ones if it names none. -/
def ofEnvironment (processors : Nat) (file : Option (Option String)) :
    Except ConfigError QueryConfig :=
  match file with
  | none => .ok (standard processors)
  | some content => load processors content

/-- A table with its header. -/
def tableText (name : String) (entries : List (String × String)) : String :=
  "[" ++ name ++ "]\n" ++ String.join (entries.map fun e => e.1 ++ " = " ++ e.2 ++ "\n")

/-- The document of the settings. -/
def toToml (c : QueryConfig) : String :=
  let p := c.planner
  let e := c.execution
  "\n".intercalate [
    tableText "planner" [
      ("max_rewrite_passes", toString p.maxPasses),
      ("plan_cache_size", toString p.cacheSize),
      ("memory_budget_bytes", toString p.memoryBudget.toNat),
      ("vectorisation_threshold", toString p.vectorisationThreshold),
      ("match_order", Toml.quote p.matchOrder.name)],
    tableText "execution" ([
      ("max_workers", toString e.maxWorkers),
      ("channel_capacity", toString e.channelCapacity)] ++
      (e.spillDirectory.map fun dir => ("spill_dir", Toml.quote dir)).toList),
    tableText "cost" (c.cost.factors.map fun factor =>
      (factor.1, NumberLayout.toml.format factor.2.widen))]

end QueryConfig

end QueryEngine
