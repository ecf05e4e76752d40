import QueryEngine.Cost.Policy

/-!
# Settings

The settings of the planner, of execution, and the cost policy of queries that bring none.
-/

set_option autoImplicit false

namespace QueryEngine

/-- The order in which rewriting visits the nodes of a tree. -/
inductive MatchOrder where
  | topDown
  | bottomUp
deriving DecidableEq

structure PlannerConfig where
  /-- How many passes over a tree rewriting may take. -/
  maxPasses : Nat
  /-- How many plans are kept. -/
  cacheSize : Nat
  /-- How many bytes a sort in memory may hold. -/
  memoryBudget : UInt64
  /-- The width from which operands are worth a vectorised function. -/
  vectorisationThreshold : Nat
  matchOrder : MatchOrder
deriving DecidableEq

def PlannerConfig.standard : PlannerConfig := ⟨100, 100, 64 * 1024 * 1024, 16, .topDown⟩

structure ExecutionConfig where
  /-- How many groups may run at the same time. -/
  maxWorkers : Nat
  /-- How many tuples may wait between a group and its consumer. -/
  channelCapacity : Nat
  /-- Where sorts spill to; the system's choice if absent. -/
  spillDirectory : Option String
deriving DecidableEq

/-- The settings on a machine with the given number of processors. -/
def ExecutionConfig.standard (processors : Nat) : ExecutionConfig := ⟨processors, 64, none⟩

structure QueryConfig where
  planner : PlannerConfig
  execution : ExecutionConfig
  cost : CostPolicy
deriving DecidableEq

/-- Why settings are refused. -/
inductive SettingFault where
  | zeroPasses
  | zeroBudget
  | zeroWorkers
  | zeroCapacity
  | policy (fault : PolicyFault)
deriving DecidableEq

namespace SettingFault

def field : SettingFault → String
  | zeroPasses => "planner.max_rewrite_passes"
  | zeroBudget => "planner.memory_budget_bytes"
  | zeroWorkers => "execution.max_workers"
  | zeroCapacity => "execution.channel_capacity"
  | policy _ => "cost"

def reason : SettingFault → String
  | zeroPasses => "must be at least 1"
  | zeroBudget => "must be positive"
  | zeroWorkers => "must be at least 1"
  | zeroCapacity => "must be at least 1"
  | policy fault => (PlanningError.invalidCostPolicy fault).message

end SettingFault

inductive ConfigError where
  /-- The file cannot be read. -/
  | unreadable
  /-- The text is no document of settings. -/
  | malformed
  | invalid (fault : SettingFault)
deriving DecidableEq

/-- The text of an error; what the system or the document reader says is left out. -/
def ConfigError.message : ConfigError → String
  | unreadable => "failed to read config"
  | malformed => "failed to parse config"
  | invalid fault => s!"invalid config value for {fault.field}: {fault.reason}"

namespace QueryConfig

def standard (processors : Nat) : QueryConfig :=
  ⟨.standard, .standard processors, .standard⟩

/-- The first setting that cannot be used is an error. -/
def validate (c : QueryConfig) : Except ConfigError Unit :=
  if c.planner.maxPasses = 0 then .error (.invalid .zeroPasses)
  else if c.planner.memoryBudget = 0 then .error (.invalid .zeroBudget)
  else if c.execution.maxWorkers = 0 then .error (.invalid .zeroWorkers)
  else if c.execution.channelCapacity = 0 then .error (.invalid .zeroCapacity)
  else c.cost.validate.mapError fun fault => .invalid (.policy fault)

end QueryConfig

end QueryEngine
