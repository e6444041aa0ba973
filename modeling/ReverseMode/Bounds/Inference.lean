import ReverseMode.Bounds.Interval
import ReverseMode.Program.Graph

/-!
# Bounds inference

For every stage of every function an expression reaches, inference finds the domain over which the
stage is called. Each call contributes one interval for each argument, computed in the domain of the
calling stage; intervals of several calls are merged. A function is entered again whenever its
merged intervals changed. A function that calls itself reads its previous stage.
-/

namespace ReverseMode

/-- A stage of the functions of one name; stage `-1` is the initial definition. -/
structure StageKey where
  name : String
  stage : Int
deriving DecidableEq, Inhabited

abbrev StageTable (α : Type) := List (StageKey × α)

namespace StageTable

def find? {α : Type} (table : StageTable α) (key : StageKey) : Option α := table.lookup key

def insert {α : Type} (table : StageTable α) (key : StageKey) (value : α) : StageTable α :=
  match table with
  | [] => [(key, value)]
  | (k, v) :: rest => if k = key then (k, value) :: rest else (k, v) :: insert rest key value

@[simp] theorem find?_insert {α : Type} (table : StageTable α) (key other : StageKey) (value : α) :
    (table.insert key value).find? other =
      if other = key then some value else table.find? other := by
  have differs {a b : StageKey} (ne : a ≠ b) : (a == b) = false := beq_eq_false_iff_ne.2 ne
  simp only [find?] at *
  induction table with
  | nil => by_cases isKey : other = key <;> simp [insert, List.lookup_cons, isKey, differs]
  | cons entry rest ih =>
      obtain ⟨k, v⟩ := entry
      by_cases replaced : k = key
      · by_cases isKey : other = key <;> simp [insert, List.lookup_cons, replaced, isKey, differs]
      · by_cases isFirst : other = k
        · simp [insert, replaced, isFirst]
        · simp [insert, List.lookup_cons, replaced, isFirst, differs, ih]

end StageTable

/-- The stage that is being walked: its variables and its domain. -/
structure CallContext where
  key : StageKey
  args : List Expr
  domain : Domain

def CallContext.root : CallContext := ⟨⟨"", -1⟩, [], []⟩

def calledStage (caller : StageKey) (callee : Func) : StageKey :=
  if caller.name = callee.name then ⟨callee.name, caller.stage - 1⟩
  else ⟨callee.name, callee.lastStage⟩

structure Inference where
  intervals : StageTable (List Interval) := []
  depth : Nat := 0

abbrev InferenceM := StateT Inference ProgramM

namespace Inference

def setIntervals (key : StageKey) (intervals : List Interval) : InferenceM Unit :=
  modify fun state => { state with intervals := state.intervals.insert key intervals }

def argumentIntervals (ctx : CallContext) (args : List Expr) : ProgramM (List Interval) :=
  args.zipIdx.mapM fun (arg, i) =>
    (arg.interval (ctx.args.map Expr.name) ctx.domain i : BuildM Interval)

def mergeAll (earlier given : List Interval) : ProgramM (List Interval) :=
  (earlier.zip given).mapM fun (a, b) => a.merge b

/-- Records a call; answers whether the callee has to be entered. -/
def recordCall (hash : String → String) (ctx : CallContext) (id : FuncId) (args : List Expr) : InferenceM Bool := do
  let f ← (getFunc id : ProgramM Func)
  let depth := (← getThe Inference).depth
  (report Tracing.details s!"[BoundsInferencer] {depth} Visiting {f.name}" : ProgramM Unit)
  let given ← (argumentIntervals ctx args : ProgramM (List Interval))
  let key := calledStage ctx.key f
  let isSelf := ctx.key.name = f.name
  match (← getThe Inference).intervals.find? key with
  | none =>
      setIntervals key given
      return !isSelf
  | some earlier => do
      if earlier.length ≠ given.length then
        (throw (.callArityChanged f.name given.length earlier.length) : ProgramM Unit)
      let merged ← (mergeAll earlier given : ProgramM (List Interval))
      setIntervals key merged
      let unchanged := (earlier.zip merged).all fun (a, b) => a.equal hash b
      return !isSelf && !unchanged

end Inference

namespace Expr

mutual

def recordCalls (hash : String → String) (enter : FuncId → InferenceM Unit) (ctx : CallContext) :
    Expr → InferenceM Unit
  | node _ (.call (.func id _)) _ operands => do
      if ← Inference.recordCall hash ctx id operands then
        modify fun state => { state with depth := state.depth + 1 }
        enter id
        modify fun state => { state with depth := state.depth - 1 }
  | node _ _ _ operands => recordAllCalls hash enter ctx operands
  | reduction _ _ _ _ _ => pure ()

def recordAllCalls (hash : String → String) (enter : FuncId → InferenceM Unit)
    (ctx : CallContext) : List Expr → InferenceM Unit
  | [] => pure ()
  | e :: rest => do
      recordCalls hash enter ctx e
      recordAllCalls hash enter ctx rest

end

end Expr

namespace Inference

def nestingLimit : Nat := 320

/-- A stage that the next one never reads spans the next one's domain. -/
def stageIntervals (key : StageKey) (later : Option StageKey) : InferenceM (List Interval) := do
  let known := (← getThe Inference).intervals
  match known.find? key with
  | some intervals => return intervals
  | none =>
      match later.bind known.find? with
      | some intervals =>
          setIntervals key intervals
          return intervals
      | none => (throw .unreadStage : ProgramM (List Interval))

def walkStages (walk : CallContext → Expr → InferenceM Unit) (f : Func) (args : List Expr) :
    Option StageKey → List (Int × Definition) → InferenceM Unit
  | _, [] => pure ()
  | later, (stage, definition) :: earlier => do
      let key : StageKey := ⟨f.name, stage⟩
      let intervals ← stageIntervals key later
      let domain ← (toDomain intervals : ProgramM Domain)
      walk ⟨key, args, domain⟩ definition.value
      walkStages walk f args (some key) earlier

def enterFunc (hash : String → String) : Nat → FuncId → InferenceM Unit
  | 0, _ => (throw .nestingTooDeep : ProgramM Unit)
  | depth + 1, id => do
      let f ← (getFunc id : ProgramM Func)
      let args ← (f.args : ProgramM (List Expr))
      walkStages (Expr.recordCalls hash (enterFunc hash depth)) f args none f.stages.reverse

def domains : StageTable (List Interval) → ProgramM (StageTable Domain)
  | [] => return []
  | (key, intervals) :: rest => do
      let domain ← toDomain intervals
      report Tracing.execution
        s!"[BoundsInferencer] Computed bounds for {stageName key.name key.stage}:"
      domain.zipIdx.forM fun ((least, extent), i) =>
        report Tracing.execution s!"  arg{i} ({least}, {extent})"
      let others ← domains rest
      return (key, domain) :: others

end Inference

def inferBoundsWith (hash : String → String) (e : Expr) : ProgramM (StageTable Domain) := do
  let enter := Inference.enterFunc hash Inference.nestingLimit
  let (_, inference) ← (e.recordCalls hash enter CallContext.root).run {}
  Inference.domains inference.intervals

def inferBounds : Expr → ProgramM (StageTable Domain) := inferBoundsWith Sha256.hexDigest

end ReverseMode
