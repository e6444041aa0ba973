import ReverseMode.Expr.Variables
import ReverseMode.Realize.Eval

/-!
# Realizing functions

A function is realized over a box: its initial definition at all points of the box at once, then its
updates one after another, each at the points of the reduction variables it uses, the last variable
running fastest. Functions read on the way are realized over the box of the indices read, and kept;
one that is read outside its region is computed again over the union. While its updates run a
function reads its own partial values.
-/

namespace ReverseMode

namespace Realizer

def keep (id : FuncId) (r : Region) (kept : List (FuncId × Region)) : List (FuncId × Region) :=
  (id, r) :: kept.filter fun entry => entry.1 != id

def drop (id : FuncId) (kept : List (FuncId × Region)) : List (FuncId × Region) :=
  kept.filter fun entry => entry.1 != id

/-- Runs an action while `r` is the partial region of the function; answers the region it leaves.
The region is given up also when the action fails. -/
def whileRunning (id : FuncId) (r : Region) (action : RealizeM Unit) : RealizeM Region := do
  modifyThe Realizer fun state => { state with running := keep id r state.running }
  let finish : RealizeM Region := modifyGetThe Realizer fun state =>
    ((state.running.lookup id).getD r, { state with running := drop id state.running })
  try
    action
  catch fault =>
    let _ ← finish
    throw fault
  finish

/-- The least index and extent of the reduction variables of a definition, by name, in the order in
which they first appear. -/
def reductionRanges (definition : Definition) : List (String × Expr × Expr) :=
  let vars := (definition.args ++ [definition.value]).flatMap Expr.freeVariables
  let note : List (String × Expr × Expr) → Expr → List (String × Expr × Expr) := fun seen v =>
    match v with
    | .reduction _ domain axis least extent =>
        let name := axisName domain axis
        if (seen.lookup name).isSome then seen else seen ++ [(name, least, extent)]
    | _ => seen
  vars.foldl note []

def points : List (List Int) → List (List Int)
  | [] => [[]]
  | values :: rest =>
      let others := points rest
      values.flatMap fun v => others.map (v :: ·)

def integersFrom (least extent : Int) : List Int :=
  (List.range extent.toNat).map fun (i : Nat) => least + i

theorem mem_integersFrom {least extent i : Int} :
    i ∈ integersFrom least extent ↔ least ≤ i ∧ i < least + extent := by
  simp only [integersFrom, List.mem_map, List.mem_range]
  constructor
  · rintro ⟨n, bound, rfl⟩
    omega
  · intro ⟨above, below⟩
    exact ⟨(i - least).toNat, by omega, by omega⟩

theorem length_of_mem_points {ranges : List (List Int)} {point : List Int}
    (chosen : point ∈ points ranges) : point.length = ranges.length := by
  induction ranges generalizing point with
  | nil => simp_all [points]
  | cons values rest ih =>
      simp only [points, List.mem_flatMap, List.mem_map] at chosen
      obtain ⟨i, _, others, chosen, rfl⟩ := chosen
      simp [ih chosen]

def wholeNumber (value : Tensor) : Except Fault Int :=
  match value.entry 0 with
  | .real x =>
      match Decimal.truncate? x with
      | some i => .ok i
      | none => .error (if x.isNaN then .undefinedInteger else .infiniteInteger)
  | e => .ok e.toInt

def concrete (readFunc : FuncReader) (e : Expr) : RealizeM Int := do
  if !e.freeVariables.isEmpty then throw (.notConcrete e.render e.freeNames)
  wholeNumber (← e.evaluate readFunc [])

def concreteRanges (readFunc : FuncReader) :
    List (String × Expr × Expr) → RealizeM (List (String × List Int))
  | [] => return []
  | (name, least, extent) :: rest => do
      let start ← concrete readFunc least
      let count ← concrete readFunc extent
      let others ← concreteRanges readFunc rest
      return (name, integersFrom start count) :: others

def writeUpdate (id : FuncId) (name : String) (stage : Nat) (indices : List Tensor)
    (value : Tensor) : RealizeM Unit := do
  let some r := (← getThe Realizer).running.lookup id | return
  let extents := r.values.shape
  let (shape, arrays) ← Tensor.broadcastAll (indices ++ [value])
  let offsets ← (r.mins.zip arrays).mapM fun (least, coordinates) =>
    (coordinates.offsets least : RealizeM Tensor)
  if let some axis := Region.leavingAxis? offsets extents then
    throw (.writeOutside stage name axis)
  if offsets.any fun offset => offset.type.isReal then throw .fractionalIndex
  let places := Region.positions shape (extents.map fun _ => 0) extents offsets
  let change : FuncId × Region → FuncId × Region := fun (owner, region) =>
    if owner = id then (owner, region.store places value) else (owner, region)
  modifyThe Realizer fun state => { state with running := state.running.map change }

/-- Runs an update at one point of its reduction variables. The value is computed before the
indices. -/
def updateAt (readFunc : FuncReader) (id : FuncId) (name : String) (stage : Nat)
    (definition : Definition) (env : Environment) : RealizeM Unit := do
  let evaluated : EvalM (Tensor × List Tensor) := do
    let value ← definition.value.eval readFunc env
    let indices ← Expr.evalAll readFunc env definition.args
    return (value, indices)
  let ((value, indices), _) ← (evaluated.run {} : RealizeM _)
  writeUpdate id name stage indices value

def runUpdate (readFunc : FuncReader) (id : FuncId) (name : String) (env : Environment)
    (stage : Nat) (definition : Definition) : RealizeM Unit := do
  let ranges ← concreteRanges readFunc (reductionRanges definition)
  let names := ranges.map Prod.fst
  for point in points (ranges.map Prod.snd) do
    let values := point.map fun i => Tensor.scalar .int64 (.int i)
    updateAt readFunc id name stage definition (names.zip values ++ env)

def runUpdates (readFunc : FuncReader) (id : FuncId) (name : String) (env : Environment) :
    List (Definition × Nat) → RealizeM Unit
  | [] => return
  | (definition, stage) :: rest => do
      runUpdate readFunc id name env stage definition
      runUpdates readFunc id name env rest

def compute (readFunc : FuncReader) (id : FuncId) (mins sizes : List Int) : RealizeM Region := do
  let f := (← readThe Realization).program.func id
  let initial ← (f.initial : RealizeM Definition)
  let box : Box := ⟨mins, sizes.map Int.toNat⟩
  if sizes.any (· < 0) then throw .negativeExtent
  let env : Environment := (initial.args.map Expr.name).zip box.coordinates
  let values ← initial.value.evaluate readFunc env
  let type := ElementType.ofDType initial.value.dtype
  let start : Region := ⟨mins, (values.convert type).broadcast box.sizes⟩
  whileRunning id start (runUpdates readFunc id f.name env f.updates.zipIdx)

/-- Answers a read of a function from its partial region, if its updates run, else from a region
that covers the coordinates. -/
def readFrom (realizeBox : FuncId → List Int → List Int → RealizeM Region) : FuncReader :=
  fun id shape coordinates => do
    let f := (← readThe Realization).program.func id
    match (← getThe Realizer).running.lookup id with
    | some partialRegion => do
        let outside : Tensor × Int × Nat → Bool := fun (c, least, extent) => c.leaves least extent
        let axes := partialRegion.mins.zip partialRegion.values.shape
        if let some axis := (coordinates.zip axes).findIdx? outside then
          throw (.selfReadOutside f.name axis)
        return partialRegion.read shape coordinates
    | none =>
        match coordinates.mapM Tensor.range? with
        | none => do
            let dtype ← (f.dtype : RealizeM DType)
            return ⟨.ofDType dtype, shape, #[]⟩
        | some ranges => do
            let mins := ranges.map Prod.fst
            let sizes := ranges.map fun (least, greatest) => greatest - least + 1
            let box := bracketed (mins.map toString) ++ " " ++ bracketed (sizes.map toString)
            RealizeM.reportLine Tracing.details s!"[Realizer._eval_call] {f.name} box {box}"
            let region ← realizeBox id mins sizes
            return region.read shape coordinates

def fresh (readFunc : FuncReader) (id : FuncId) (mins sizes : List Int) : RealizeM Region := do
  let f := (← readThe Realization).program.func id
  let box := s!"mins={bracketed (mins.map toString)} sizes={bracketed (sizes.map toString)}"
  RealizeM.reportLine Tracing.execution s!"[Realizer._realize_box] {f.name} {box}"
  let region ← compute readFunc id mins sizes
  modifyThe Realizer fun state => { state with cache := keep id region state.cache }
  return region

def realizeBox : Nat → FuncId → List Int → List Int → RealizeM Region
  | 0, _, _, _ => throw .nestingTooDeep
  | depth + 1, id, mins, sizes => do
      let known := (← getThe Realizer).cache.lookup id
      let readFunc := readFrom (realizeBox depth)
      match known with
      | some region =>
          if region.covers mins sizes then return region
          let (least, extents) := region.union mins sizes
          fresh readFunc id least extents
      | none => fresh readFunc id mins sizes

/-- Each level either starts updates of a function whose updates do not run yet, or enters an
initial definition, and initial definitions only call functions defined before. -/
def nestingBound (program : Program) : Nat :=
  (program.funcs.size + 1) * (program.funcs.size + 1) + 1

def realize (id : FuncId) (sizes : List Int) (mins? : Option (List Int)) : RealizeM Tensor := do
  let program := (← readThe Realization).program
  let f := program.func id
  let mins := mins?.getD (sizes.map fun _ => 0)
  let dimensions ← (f.dimensions : RealizeM Nat)
  if sizes.length ≠ dimensions ∨ mins.length ≠ dimensions then
    throw (.boxArity f.name dimensions sizes mins)
  let region ← realizeBox (nestingBound program) id mins sizes
  return region.window mins sizes

def concreteValue (e : Expr) : RealizeM Int := do
  let program := (← readThe Realization).program
  concrete (readFrom (realizeBox (nestingBound program))) e

def within {α : Type} (realizer : Realizer) (kernels : Kernels) (action : RealizeM α) :
    StateM Program (Except Fault α × Realizer) := do
  let program ← get
  let (outcome, left) := (action.run ⟨program, kernels⟩).run.run realizer
  set { program with log := program.log ++ left.log }
  return (outcome, { left with log := #[] })

end Realizer

end ReverseMode
