import ReverseMode.Proofs.Bounds.Correspondence

namespace ReverseMode

open Expr

namespace Program

def argumentsOf (program : Program) (root : Expr) (ids : List FuncId) : List Expr :=
  (program.nodesOf root ids).flatMap fun x =>
    match x.callee? with
    | some (.func _ _) => x.operands
    | _ => []

def placesOf (program : Program) (root : Expr) (ids : List FuncId) :
    List (StageKey × List String × Expr) :=
  (CallContext.root.key, [], root) :: ids.flatMap fun f => (program.func f).stages.map fun entry =>
    (⟨(program.func f).name, entry.1⟩, (program.func f).declared, entry.2.value)

section

variable {program : Program} {root : Expr} {ids : List FuncId}

theorem Encloses.mem_argumentsOf (encloses : program.Encloses root ids) {home : Option FuncId}
    {x : Expr} {id : FuncId} {name : String} (isHome : program.Home root home)
    (stands : program.StandsIn root home x) (isCall : x.callee? = some (.func id name)) {arg : Expr}
    (isArg : arg ∈ x.operands) : arg ∈ program.argumentsOf root ids := by
  refine List.mem_flatMap.2 ⟨x, encloses.mem_nodesOf isHome stands, ?_⟩
  rw [isCall]
  exact isArg

theorem Encloses.mem_placesOf (encloses : program.Encloses root ids) {caller : StageKey}
    {declared : List String} {value : Expr} (place : program.Place root caller declared value) :
    (caller, declared, value) ∈ program.placesOf root ids := by
  cases place with
  | root => exact .head _
  | stage isHome isStage =>
      exact .tail _
        (List.mem_flatMap.2 ⟨_, encloses.home isHome _ rfl, List.mem_map_of_mem isStage⟩)

theorem Ordered.indexed (ordered : program.Ordered ids) (fromRoot : program.MeetsAmong ids root)
    (titled : ∀ id ∈ ids, (program.func id).name ≠ "") {r : Registry}
    (held : ∀ arg ∈ program.argumentsOf root ids, r.HoldsIndex arg) : program.Indexed r root where
  toStratified := ordered.stratified fromRoot
  titled id isHome := titled id ((ordered.encloses fromRoot).home isHome id rfl)
  indices _ _ _ _ isHome stands isCall arg isArg :=
    held arg ((ordered.encloses fromRoot).mem_argumentsOf isHome stands isCall isArg)

end

end Program

end ReverseMode
