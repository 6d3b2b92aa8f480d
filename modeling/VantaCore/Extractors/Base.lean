import VantaCore.Lib.Dict

/-! # Extractors and their executor

`ExtractorDAGExecutor` keeps the extractors of a platform, puts them in an order with Kahn's
algorithm (`resolveDag`) and runs them in that order, skipping an extractor with a dependency that
has not succeeded (`execute`). What a run of an extractor does is a parameter: it returns a value,
a dictionary or not, or raises an `Exception`. The calls of `run` and their ends are recorded in a
trace beside what the source keeps. -/

namespace VantaCore.Extractors.Base

open VantaCore.Lib

/-- A `BaseExtractor`; `ident` is the identity of the object. -/
structure BaseExtractor where
  ident : ℕ
  name : String
  compatiblePlatforms : List String
  dependencies : List String
deriving DecidableEq, Repr

/-- How a call of `run` ends; `returns none` is a value that is not a dictionary. -/
inductive Outcome (ν : Type) where
  | returns (res : Option (Dict String ν))
  | raises

/-- The run returns. -/
def Outcome.Returns {ν : Type} (o : Outcome ν) : Prop := ∃ res, o = .returns res

/-- `platform_name in e.compatible_platforms or "*" in e.compatible_platforms`. -/
def Compatible (platformName : String) (e : BaseExtractor) : Prop :=
  platformName ∈ e.compatiblePlatforms ∨ "*" ∈ e.compatiblePlatforms

instance (platformName : String) (e : BaseExtractor) : Decidable (Compatible platformName e) :=
  inferInstanceAs (Decidable (_ ∨ _))

/-! ### Kahn's algorithm -/

/-- `in_degree` and `dependents`. -/
structure Tables where
  inDegree : Dict String ℤ
  dependents : Dict String (List String)

/-- The tables before the dependencies are read. -/
def initTables (extractors : List BaseExtractor) : Tables where
  inDegree := Dict.ofList (extractors.map fun e => (e.name, 0))
  dependents := Dict.ofList (extractors.map fun e => (e.name, []))

/-- One dependency of an extractor; one that is not in the list is ignored. -/
def addDependency (t : Tables) (name depName : String) : Tables :=
  if depName ∈ t.inDegree.keys then
    { inDegree := t.inDegree.modify name (· + 1)
      dependents := t.dependents.modify depName (· ++ [name]) }
  else t

/-- The tables of a list of extractors. -/
def buildTables (extractors : List BaseExtractor) : Tables :=
  extractors.foldl (fun t e => e.dependencies.foldl (fun t dep => addDependency t e.name dep) t)
    (initTables extractors)

/-- What the loop of Kahn's algorithm changes. -/
structure KahnState where
  inDegree : Dict String ℤ
  queue : List String
  sortedNames : List String

/-- A dependent of the node taken: one dependency less, and into the queue at zero. -/
def relax (s : KahnState) (dep : String) : KahnState :=
  let inDegree := s.inDegree.modify dep (· - 1)
  { s with
    inDegree
    queue := if inDegree.get? dep = some 0 then s.queue ++ [dep] else s.queue }

/-- One round of `while queue`. -/
def kahnStep (dependents : Dict String (List String)) (s : KahnState) : Option KahnState :=
  match s.queue with
  | [] => none
  | node :: queue =>
    some (((dependents.get? node).getD []).foldl relax
      { s with queue, sortedNames := s.sortedNames ++ [node] })

/-- The loop, for a number of rounds. -/
def kahnLoop (dependents : Dict String (List String)) : ℕ → KahnState → KahnState
  | 0, s => s
  | fuel + 1, s =>
    match kahnStep dependents s with
    | none => s
    | some s' => kahnLoop dependents fuel s'

/-- The state in which the loop starts. -/
def kahnInit (t : Tables) : KahnState where
  inDegree := t.inDegree
  queue := (t.inDegree.entries.filter (·.2 = 0)).map Prod.fst
  sortedNames := []

/-- The state in which the loop ends; no name is taken twice, so as many rounds as there are
extractors are enough. -/
def kahn (extractors : List BaseExtractor) : KahnState :=
  let t := buildTables extractors
  kahnLoop t.dependents extractors.length (kahnInit t)

/-- `name_map`: the last extractor of a name. -/
def nameMap (extractors : List BaseExtractor) : Dict String BaseExtractor :=
  Dict.ofList (extractors.map fun e => (e.name, e))

/-! ### The executor -/

/-- The state of the executor. -/
structure ExtractorDAGExecutor where
  extractors : List BaseExtractor
  disabled : List String
  executionOrder : List BaseExtractor
deriving DecidableEq, Repr

/-- `_resolve_dag`: the execution order, and the names it disables. -/
def resolveDag (extractors : List BaseExtractor) : List BaseExtractor × List String :=
  let sortedNames := (kahn extractors).sortedNames
  let cycleNames := (extractors.filter fun e => e.name ∉ sortedNames).map (·.name)
  (sortedNames.filterMap (nameMap extractors).get?,
    if sortedNames.length < extractors.length then cycleNames else [])

/-- `ExtractorDAGExecutor(extractors, platform_name)`. -/
def new (extractors : List BaseExtractor) (platformName : String) : ExtractorDAGExecutor :=
  let compatible := extractors.filter (Compatible platformName)
  let (executionOrder, disabled) := resolveDag compatible
  { extractors := compatible, disabled, executionOrder }

/-- The calls of `run` and how they end. -/
inductive Event where
  | call (e : BaseExtractor)
  | ret (e : BaseExtractor)
  | raise (e : BaseExtractor)
deriving DecidableEq, Repr

/-- What the loop of `execute` changes. -/
structure ExecState (ν : Type) where
  succeeded : List String
  failed : List String
  skipped : List String
  mergedResults : Dict String ν
  succeededSet : Finset String
  trace : List Event

/-- The state in which the loop starts. -/
def execInit (ν : Type) : ExecState ν := ⟨[], [], [], Dict.empty, ∅, []⟩

variable {ν : Type} (run : BaseExtractor → Outcome ν)

/-- One extractor of the execution order. -/
def execStep (s : ExecState ν) (e : BaseExtractor) : ExecState ν :=
  match e.dependencies.find? (· ∉ s.succeededSet) with
  | some _missingDep => { s with skipped := s.skipped ++ [e.name] }
  | none =>
    match run e with
    | .returns res =>
      { s with
        mergedResults := match res with
          | some res => s.mergedResults.update res
          | none => s.mergedResults
        succeeded := s.succeeded ++ [e.name]
        succeededSet := insert e.name s.succeededSet
        trace := s.trace ++ [.call e, .ret e] }
    | .raises =>
      { s with
        failed := s.failed ++ [e.name]
        trace := s.trace ++ [.call e, .raise e] }

/-- The `scan_status` block. -/
structure ScanStatus where
  overall : String
  extractorsSucceeded : List String
  extractorsFailed : List String
  extractorsSkipped : List String
deriving DecidableEq, Repr

/-- A value of the dictionary `execute` returns. -/
inductive Entry (ν : Type) where
  | status (s : ScanStatus)
  | artefact (v : ν)

namespace ExtractorDAGExecutor

variable (x : ExtractorDAGExecutor)

/-- The loop of `execute`. -/
def runAll : ExecState ν := x.executionOrder.foldl (execStep run) (execInit ν)

/-- The status block `execute` computes. -/
def scanStatus : ScanStatus :=
  let s := x.runAll run
  { overall := if s.failed = [] ∧ s.skipped = [] then "COMPLETE" else "PARTIAL"
    extractorsSucceeded := s.succeeded
    extractorsFailed := s.failed
    extractorsSkipped := s.skipped }

/-- `execute`: the status block, and behind it the merged results. -/
def execute : Dict String (Entry ν) :=
  (Dict.ofList [("scan_status", Entry.status (x.scanStatus run))]).update
    ((x.runAll run).mergedResults.mapValues Entry.artefact)

end ExtractorDAGExecutor

end VantaCore.Extractors.Base
