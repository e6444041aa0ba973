import ReverseMode.Proofs.Realize.Lockstep

namespace ReverseMode

open Expr Realizer

structure Request where
  id : FuncId
  sizes : List Int
  mins? : Option (List Int) := none

namespace Request

def mins (q : Request) : List Int := q.mins?.getD (q.sizes.map fun _ => 0)

def box (q : Request) : Box := requestBox q.mins q.sizes

/-- No index of the request needs more than 64 bits. -/
def IsAddressable (q : Request) : Prop := ReverseMode.IsAddressable q.mins q.sizes

instance (q : Request) : Decidable q.IsAddressable :=
  inferInstanceAs (Decidable (ReverseMode.IsAddressable q.mins q.sizes))

/-- The answer of a realizer, and what the realizer becomes. -/
def serve (setting : Realization) (q : Request) (s : Realizer) : Except Fault Tensor × Realizer :=
  (realize q.id q.sizes q.mins?).outcome setting s

/-- What a new realizer becomes when it serves these requests, whether they fail or not. -/
def serveAll (setting : Realization) (history : List Request) : Realizer :=
  history.foldl (fun s q => (q.serve setting s).2) {}

def answer (setting : Realization) (history : List Request) (q : Request) : Except Fault Tensor :=
  (q.serve setting (serveAll setting history)).1

end Request

theorem Func.dimensions_eq {f : Func} {dimensions : Nat}
    (isDimensions : f.dimensions = .ok dimensions) : dimensions = f.declared.length := by
  unfold Func.dimensions Func.args at isDimensions
  cases isInitial : f.initial with
  | error fault => simp [isInitial, Except.map] at isDimensions
  | ok initial =>
      rw [(Func.initial_eq_ok isInitial).2, List.length_map]
      rw [isInitial] at isDimensions
      exact (Except.ok.inj isDimensions).symm

theorem Consistent.new (setting : Realization) : Consistent setting (some fun _ => none) [] {} := by
  refine ⟨⟨?_, fun kept isFrozen id _ => ?_⟩, rfl⟩
  · exact fun _ _ absurd => nomatch absurd
  · cases isFrozen
    rfl

theorem Clear.new (setting : Realization) (id : FuncId) : Clear setting [] id := ⟨rfl, fun _ _ _ => rfl⟩

section

variable {setting : Realization} {r : Registry} (wellBuilt : setting.program.WellBuilt r)
  {frozen : Option (FuncId → Option Region)} {q : Request}

include wellBuilt in
theorem realize_yields (freezes : frozen.isSome → setting.Definite q.id)
    (addressable : setting.Definite q.id → q.IsAddressable) :
    Yields setting (Consistent setting frozen []) (Consistent setting frozen [])
      (realize q.id q.sizes q.mins?)
      fun t s => Consistent setting frozen [] s ∧ (setting.Definite q.id →
        (∀ size ∈ q.sizes, 0 ≤ size) →
          q.box.Regular ∧ t = (setting.program.fields setting.kernels q.id).onBox q.box) := by
  unfold realize
  refine Yields.bind_read ?_
  dsimp only
  refine Yields.bind_except (fun _ consistent => consistent) fun dimensions isDimensions => ?_
  split
  next => exact fun _ consistent => consistent
  next same =>
    have isArity : dimensions = setting.program.arity q.id := Func.dimensions_eq isDimensions
    have isSizes : q.sizes.length = dimensions := by
      by_contra differs
      exact same (.inl differs)
    have isMins : q.mins.length = dimensions := by
      by_contra differs
      exact same (.inr differs)
    have isRequest : q.mins.length = q.sizes.length := isMins.trans isSizes.symm
    refine (realizeBox_yields wellBuilt _ q.id q.mins q.sizes frozen [] (.new _ _) freezes
      fun definite => ⟨isMins.trans isArity, isRequest, addressable definite⟩).bind_fact
      fun region isRegion => .pure fun s consistent => ⟨consistent, fun definite positive => ?_⟩
    obtain ⟨⟨shows, axes, _⟩, covered⟩ := isRegion definite
    exact ⟨by simpa [Request.box, requestBox, Box.Regular] using isRequest,
      Region.window_eq shows (isMins.trans (isArity.trans axes.symm)) isRequest covered positive⟩

include wellBuilt in
theorem realize_agrees (indefinite : ¬ setting.Definite q.id) :
    Agrees setting (Alike setting []) (realize q.id q.sizes q.mins?) fun _ => Alike setting [] := by
  unfold realize
  refine .bind_read ?_
  dsimp only
  refine .bind_except fun dimensions _ => ?_
  split
  next => exact .throw
  next =>
    exact (realizeBox_agrees wellBuilt _ q.id q.mins q.sizes [] (.new _ _) indefinite).bind
      fun region => .pure fun _ _ after => after

theorem realize_positive :
    Yields setting (fun _ => True) (fun s => s.cache = []) (realize q.id q.sizes q.mins?)
      fun _ _ => ∀ size ∈ q.sizes, 0 ≤ size := by
  unfold realize
  refine Yields.bind_read ?_
  dsimp only
  refine Yields.bind_except (fun _ _ => trivial) fun dimensions _ => ?_
  split
  next => exact fun _ _ => trivial
  unfold nestingBound Realizer.realizeBox
  refine Yields.bind (Q := fun _ _ => ∀ size ∈ q.sizes, 0 ≤ size) ?_ fun region =>
    .pure fun _ positive => positive
  refine Yields.bind_get fun s isEmpty => ?_
  rw [isEmpty]
  dsimp only [List.lookup_nil]
  unfold fresh compute
  refine Yields.bind_read (Yields.bind_report (fun _ _ isEmpty => isEmpty) ?_)
  refine Yields.bind (Q := fun _ _ => ∀ size ∈ q.sizes, 0 ≤ size) (Yields.bind_read ?_) fun region =>
    .bind_modify (M := fun _ => ∀ size ∈ q.sizes, 0 ≤ size) (fun _ positive => positive)
      (.pure fun _ positive => positive)
  refine Yields.bind_except (fun _ _ => trivial) fun initial _ => ?_
  dsimp only
  split
  next => exact fun _ _ => trivial
  next noneNegative => exact .of_fact (by simpa using noneNegative)

end

namespace Request

variable {setting : Realization} {r : Registry} (wellBuilt : setting.program.WellBuilt r)
  {frozen : Option (FuncId → Option Region)} {history : List Request} {q : Request}

include wellBuilt in
theorem serveAll_consistent (freezes : frozen.isSome → ∀ q ∈ history, setting.Definite q.id)
    (addressable : ∀ q ∈ history, setting.Definite q.id → q.IsAddressable) {s : Realizer}
    (consistent : Consistent setting frozen [] s) :
    Consistent setting frozen [] (history.foldl (fun s q => (q.serve setting s).2) s) := by
  induction history generalizing s with
  | nil => exact consistent
  | cons q rest ih =>
      rw [List.foldl_cons]
      refine ih (fun isFrozen q member => freezes isFrozen q (.tail _ member))
        (fun q member => addressable q (.tail _ member)) ?_
      have ends := realize_yields wellBuilt (fun isFrozen => freezes isFrozen q (.head _))
        (addressable q (.head _)) s consistent
      unfold serve
      split at ends
      next run => exact run ▸ ends.1
      next run => exact run ▸ ends

include wellBuilt in
theorem answer_eq (addressable : ∀ q ∈ history, setting.Definite q.id → q.IsAddressable)
    (definite : setting.Definite q.id) (isAddressable : q.IsAddressable)
    (positive : ∀ size ∈ q.sizes, 0 ≤ size) {t : Tensor}
    (answered : answer setting history q = .ok t) :
    q.box.Regular ∧ t = (setting.program.fields setting.kernels q.id).onBox q.box := by
  have consistent : Consistent setting none [] (serveAll setting history) :=
    serveAll_consistent wellBuilt (by simp) addressable (Consistent.new setting).thaw
  have after := (realize_yields wellBuilt (by simp) fun _ => isAddressable).answer consistent answered
  exact after.2 definite positive

include wellBuilt in
/-- Two answers for one definite function agree at every index that their boxes share, also where
different requests were served before, some of which may have failed. -/
theorem answers_agree {history' : List Request}
    (addressable : ∀ q ∈ history ++ history', setting.Definite q.id → q.IsAddressable)
    {q' : Request} (sameFunc : q.id = q'.id) (definite : setting.Definite q.id)
    (isAddressable : q.IsAddressable) (isAddressable' : q'.IsAddressable)
    (positive : ∀ size ∈ q.sizes, 0 ≤ size) (positive' : ∀ size ∈ q'.sizes, 0 ≤ size)
    {t t' : Tensor} (answered : answer setting history q = .ok t)
    (answered' : answer setting history' q' = .ok t') :
    t.type = t'.type ∧ t.shape = q.box.sizes ∧ t'.shape = q'.box.sizes ∧
      ∀ index, q.box.Contains index → q'.box.Contains index →
        t.entry (q.box.position index) = t'.entry (q'.box.position index) := by
  have before : ∀ q ∈ history, setting.Definite q.id → q.IsAddressable := fun q member =>
    addressable q (List.mem_append_left _ member)
  have before' : ∀ q ∈ history', setting.Definite q.id → q.IsAddressable := fun q member =>
    addressable q (List.mem_append_right _ member)
  obtain ⟨regular, rfl⟩ := answer_eq wellBuilt before definite isAddressable positive answered
  obtain ⟨regular', rfl⟩ :=
    answer_eq wellBuilt before' (sameFunc ▸ definite) isAddressable' positive' answered'
  refine ⟨by rw [sameFunc]; rfl, rfl, rfl, fun index inside inside' => ?_⟩
  rw [Field.entry_onBox _ regular inside, Field.entry_onBox _ regular' inside', sameFunc]

end Request

namespace Circular

def x : Expr := .node 0 (.var "x" true) .int32 []

def ten : Expr := .node 1 (.const (.int 10)) .int32 []

def readF : Expr := .node 2 (.call (.func 0 "f")) .int32 [x]

def product : Expr := .node 3 (.binary .mul) .int32 [readF, ten]

def readG : Expr := .node 4 (.call (.func 1 "g")) .int32 [x]

def one : Expr := .node 5 (.const (.int 1)) .int32 []

def sum : Expr := .node 6 (.binary .add) .int32 [readG, one]

def square : Expr := .node 7 (.binary .mul) .int32 [x, x]

def seven : Expr := .node 8 (.const (.int 7)) .int32 []

def readH : Expr := .node 9 (.call (.func 2 "h")) .int32 [x]

def table : Image := ⟨"table", ⟨.int32, [2], #[.int 3, .int 1]⟩⟩

def place : Expr := .node 10 (.call (.image table)) .int32 [one]

/-- The update of `f` reads `g`, which reads `f`; `k` reads `h`, which is updated where `table` says. -/
def program : Program :=
  { funcs := #[{ name := "f", init := some ⟨[x], x⟩, updates := [⟨[x], sum⟩] },
      { name := "g", init := some ⟨[x], product⟩ },
      { name := "h", init := some ⟨[x], square⟩, updates := [⟨[place], seven⟩] },
      { name := "k", init := some ⟨[x], readH⟩ }]
    supply := { nodes := 11 } }

def setting : Realization := ⟨program, .standard⟩

def registry : Registry where
  node id := ([x, ten, readF, product, readG, one, sum, square, seven, readH, place][id]?).getD x
  next := 11
  names := 0

theorem wellBuilt : program.WellBuilt registry := by
  have arity (id : FuncId) (small : id < 4) : program.arity id = 1 := by
    revert id
    decide
  have parts (id : FuncId) : ∀ e ∈ (program.func id).parts,
      e ∈ [x, sum, product, square, seven, place, readH] := by
    match id with
    | 0 =>
        have parts : (program.func 0).parts = [x, sum, x] := rfl
        simp [parts]
    | 1 =>
        have parts : (program.func 1).parts = [product] := rfl
        simp [parts]
    | 2 =>
        have parts : (program.func 2).parts = [square, seven, place] := rfl
        simp [parts]
    | 3 =>
        have parts : (program.func 3).parts = [readH] := rfl
        simp [parts]
    | id + 4 =>
        have parts : (program.func (id + 4)).parts = [] := rfl
        simp [parts]
  refine ⟨fun id e isPart => ?_, fun id e isPart => ?_⟩ <;>
    have known := parts id e isPart <;>
    simp only [List.mem_cons, List.not_mem_nil, or_false] at known <;>
    rcases known with rfl | rfl | rfl | rfl | rfl | rfl | rfl
  all_goals
    simp [CallsFit, Registry.Holds, Registry.IsRegistered, registry, Expr.id, Expr.callee?,
      Expr.operands, arity, x, ten, readF, product, readG, one, sum, square, seven, readH, place]

theorem definite_h : setting.Definite 2 := by
  refine .intro (by decide) (fun update isUpdate => ?_) ?_
  · obtain rfl : update = ⟨[place], seven⟩ := List.mem_singleton.1 isUpdate
    exact ⟨⟨.cons (.inr (by simp [show place.freeNames = [] from rfl])) .nil,
      by simp [show seven.freeNames = [] from rfl]⟩,
      Definition.steady_of_isSteadyIndex (by decide +kernel)⟩
  · rintro callee (⟨initial, isInitial, called⟩ | ⟨update, isUpdate, e, isPart, called, _⟩)
    · cases isInitial
      simp [square, x, calls_node] at called
    · obtain rfl : update = ⟨[place], seven⟩ := List.mem_singleton.1 isUpdate
      have parts : Definition.parts ⟨[place], seven⟩ = [seven, place] := rfl
      rw [parts, List.mem_pair] at isPart
      rcases isPart with rfl | rfl <;> simp [seven, place, one, calls_node] at called

theorem definite_k : setting.Definite 3 := by
  refine .intro (by decide) (fun update isUpdate => nomatch isUpdate) ?_
  rintro callee (⟨initial, isInitial, called⟩ | ⟨update, isUpdate, _⟩)
  · cases isInitial
    obtain rfl : callee = 2 := by simpa [readH, x, calls_node, eq_comm] using called
    exact definite_h
  · cases isUpdate

def history : List Request := [⟨2, [3], some [2]⟩, ⟨3, [-1], none⟩]

def mixed : List Request := history ++ [⟨0, [3], none⟩]

def whole : Request := ⟨3, [3], none⟩

def single : Request := ⟨3, [1], some [1]⟩

theorem addressable : ∀ q ∈ mixed, q.IsAddressable := by decide +kernel

theorem answer_of_isOk (history : List Request) (q : Request)
    (isOk : (q.answer setting history).isOk = true) : ∃ t, q.answer setting history = .ok t := by
  cases answered : q.answer setting history with
  | error fault => rw [answered] at isOk; cases isOk
  | ok t => exact ⟨t, rfl⟩

/-- A used realizer answers at `1` what a new one answers that is asked for this index only. -/
theorem agree_at_one : ∃ t t', whole.answer setting mixed = .ok t ∧
    single.answer setting [] = .ok t' ∧ t.entry 1 = t'.entry 0 := by
  obtain ⟨t, answered⟩ := answer_of_isOk mixed whole (by decide +kernel)
  obtain ⟨t', answered'⟩ := answer_of_isOk [] single (by decide +kernel)
  have before : ∀ q ∈ mixed ++ [], setting.Definite q.id → q.IsAddressable := fun q member _ =>
    addressable q (by simpa using member)
  have agree := Request.answers_agree wellBuilt before (show whole.id = single.id from rfl) definite_k
    (by decide +kernel) (by decide +kernel) (by decide) (by decide) answered answered'
  exact ⟨t, t', answered, answered',
    agree.2.2.2 [1] (.cons ⟨by decide, by decide⟩ .nil) (.cons ⟨by decide, by decide⟩ .nil)⟩

end Circular

namespace Request

variable {setting : Realization} {r : Registry} (wellBuilt : setting.program.WellBuilt r)
  {history : List Request} {q : Request}

include wellBuilt in
/-- A realizer answers what a new one answers, unless both the function that is asked for and one that
was asked for before are not definite. -/
theorem answer_as_new
    (addressable : ∀ q ∈ history, setting.Definite q.id → q.IsAddressable)
    (isAddressable : setting.Definite q.id → q.IsAddressable)
    (apart : setting.Definite q.id ∨ ∀ q ∈ history, setting.Definite q.id)
    {t t' : Tensor} (answered : answer setting history q = .ok t)
    (answered' : answer setting [] q = .ok t') : t = t' := by
  by_cases definite : setting.Definite q.id
  · have positive : ∀ size ∈ q.sizes, 0 ≤ size := realize_positive.answer rfl answered'
    obtain ⟨_, isField⟩ :=
      answer_eq wellBuilt addressable definite (isAddressable definite) positive answered
    obtain ⟨_, isField'⟩ := answer_eq wellBuilt (by simp) definite
      (isAddressable definite) positive answered'
    exact isField.trans isField'.symm
  · have consistent : Consistent setting (some fun _ => none) [] (serveAll setting history) :=
      serveAll_consistent wellBuilt (fun _ => apart.resolve_left definite) addressable (.new setting)
    have alike : Alike setting [] (serveAll setting history) {} := by
      refine ⟨consistent.thaw, (Consistent.new setting).thaw, fun id indefinite => ?_⟩
      exact consistent.1.others _ rfl id indefinite
    exact (realize_agrees wellBuilt definite).same alike answered answered'

end Request

namespace Circular

/-- After requests for `h` and `k` the answer for `g`, which reads itself through `f`, is that of a new
realizer. -/
theorem answer_of_g : ∃ t, Request.answer setting history ⟨1, [3], none⟩ = .ok t ∧
    Request.answer setting [] ⟨1, [3], none⟩ = .ok t := by
  obtain ⟨t, answered⟩ := answer_of_isOk history ⟨1, [3], none⟩ (by decide +kernel)
  obtain ⟨t', answered'⟩ := answer_of_isOk [] ⟨1, [3], none⟩ (by decide +kernel)
  have before : ∀ q ∈ history, setting.Definite q.id → q.IsAddressable := fun q member _ =>
    addressable q (List.mem_append_left _ member)
  have known : ∀ q ∈ history, setting.Definite q.id :=
    List.forall_mem_cons.2 ⟨definite_h, List.forall_mem_singleton.2 definite_k⟩
  obtain rfl := Request.answer_as_new wellBuilt before (fun _ => by decide +kernel) (.inr known)
    answered answered'
  exact ⟨t, answered, answered'⟩

end Circular

end ReverseMode
