import ReverseMode.Proofs.Realize.Position
import ReverseMode.Realize.Eval

namespace ReverseMode

namespace Tensor

def Sound (t : Tensor) : Prop := t.data.size = shapeSize t.shape

/-- The array has the shape of the grid, or one element for all of its positions. -/
structure Fits (grid : List Nat) (t : Tensor) : Prop where
  sound : t.Sound
  shape : t.shape = [] ∨ t.shape = grid

def pick (position : Nat) (t : Tensor) : Tensor := .scalar t.type (t.entry position)

@[simp] theorem entry_scalar (type : ElementType) (e : Element) (position : Nat) :
    (scalar type e).entry position = e := rfl

@[simp] theorem pick_scalar (type : ElementType) (e : Element) (position : Nat) :
    (scalar type e).pick position = scalar type e := rfl

@[simp] theorem type_pick (position : Nat) (t : Tensor) : (t.pick position).type = t.type := rfl

@[simp] theorem shape_pick (position : Nat) (t : Tensor) : (t.pick position).shape = [] := rfl

@[simp] theorem entry_pick (position other : Nat) (t : Tensor) :
    (t.pick position).entry other = t.entry position := rfl

theorem sound_scalar (type : ElementType) (e : Element) : (scalar type e).Sound := rfl

theorem fits_scalar (grid : List Nat) (type : ElementType) (e : Element) :
    (scalar type e).Fits grid := ⟨sound_scalar type e, .inl rfl⟩

theorem fits_pick (grid : List Nat) (position : Nat) (t : Tensor) : (t.pick position).Fits grid :=
  fits_scalar _ _ _

theorem sound_ofFn (type : ElementType) (shape : List Nat) (f : Fin (shapeSize shape) → Element) :
    Sound ⟨type, shape, Array.ofFn f⟩ := Array.size_ofFn

theorem entry_ofFn {shape : List Nat} (type : ElementType) (f : Nat → Element) {position : Nat}
    (within : position < shapeSize shape) (dimensioned : shape ≠ []) :
    entry ⟨type, shape, Array.ofFn fun i : Fin (shapeSize shape) => f i⟩ position = f position := by
  have nonempty : shape.isEmpty = false := by simpa using dimensioned
  simp [entry, nonempty, Array.getD, within]

theorem entry_ofFn_nil (type : ElementType) (f : Nat → Element) (position : Nat) :
    entry ⟨type, [], Array.ofFn fun i : Fin (shapeSize []) => f i⟩ position = f 0 := by
  simp [entry, Array.getD]

section

variable {grid : List Nat} {position : Nat} {a b c t : Tensor}

theorem sound_map (type : ElementType) (f : Element → Element) (sound : t.Sound) :
    (t.map type f).Sound := by
  simpa [Sound, map] using sound

theorem entry_map {type : ElementType} {f : Element → Element} (fits : t.Fits grid)
    (within : position < shapeSize grid) : (t.map type f).entry position = f (t.entry position) := by
  have sound : t.data.size = shapeSize t.shape := fits.sound
  by_cases scalar : t.shape = []
  · rw [scalar, shapeSize_nil] at sound
    simp [entry, map, scalar, Array.getD, sound]
  · have dimensioned : t.shape.isEmpty = false := by simpa using scalar
    rw [fits.shape.resolve_left scalar] at sound
    simp [entry, map, dimensioned, Array.getD, sound, within]

theorem fits_map (type : ElementType) (f : Element → Element) (fits : t.Fits grid) :
    (t.map type f).Fits grid := ⟨sound_map type f fits.sound, fits.shape⟩

theorem pick_map {type : ElementType} {f : Element → Element} (fits : t.Fits grid)
    (within : position < shapeSize grid) : (t.map type f).pick position =
      (t.pick position).map type f := by
  rw [pick, entry_map fits within]
  simp [map, pick, scalar]

theorem fits_convert (type : ElementType) (fits : t.Fits grid) : (t.convert type).Fits grid :=
  fits_map type (Element.convert type) fits

theorem entry_convert {type : ElementType} (fits : t.Fits grid) (within : position < shapeSize grid) :
    (t.convert type).entry position = (t.entry position).convert type := entry_map fits within

theorem pick_convert {type : ElementType} (fits : t.Fits grid) (within : position < shapeSize grid) :
    (t.convert type).pick position = (t.pick position).convert type := pick_map fits within

theorem commonShape_cases {arrays : List Tensor} {shape : List Nat}
    (fits : ∀ a ∈ arrays, a.Fits grid) (common : commonShape arrays = .ok shape) :
    (shape = [] ∧ ∀ a ∈ arrays, a.shape = []) ∨ shape = grid := by
  induction arrays generalizing shape with
  | nil =>
      cases common
      exact .inl ⟨rfl, fun _ absurd => nomatch absurd⟩
  | cons a rest ih =>
      unfold commonShape at common
      cases others : commonShape rest with
      | error fault => rw [others] at common; cases common
      | ok common' =>
          have below := ih (fun b member => fits b (.tail _ member)) others
          rw [others] at common
          change (if a.shape.isEmpty then pure common' else _) = _ at common
          split at common
          next empty =>
            cases common
            refine below.imp_left fun scalars => ⟨scalars.1, ?_⟩
            exact List.forall_mem_cons.2 ⟨List.isEmpty_iff.1 empty, scalars.2⟩
          next dimensioned =>
            have isGrid := (fits a (.head _)).shape.resolve_left (by simpa using dimensioned)
            split at common
            next => cases common; exact .inr isGrid
            next => cases common

theorem commonShape_scalars {arrays : List Tensor} (scalars : ∀ a ∈ arrays, a.shape = []) :
    commonShape arrays = .ok [] := by
  induction arrays with
  | nil => rfl
  | cons a rest ih =>
      have first := scalars a (.head _)
      rw [commonShape, ih fun b member => scalars b (.tail _ member)]
      simp [bind, Except.bind, first]
      rfl

theorem commonShape_pick (position : Nat) (arrays : List Tensor) :
    commonShape (arrays.map (pick position)) = .ok [] := by
  refine commonShape_scalars fun a member => ?_
  obtain ⟨b, _, rfl⟩ := List.mem_map.1 member
  rfl

theorem fits_ofFn {arrays : List Tensor} {shape : List Nat} (type : ElementType)
    (f : Fin (shapeSize shape) → Element) (fits : ∀ a ∈ arrays, a.Fits grid)
    (common : commonShape arrays = .ok shape) : Fits grid ⟨type, shape, Array.ofFn f⟩ :=
  ⟨sound_ofFn type shape f, (commonShape_cases fits common).imp_left And.left⟩

theorem entry_of_scalar (scalar : t.shape = []) (position other : Nat) :
    t.entry position = t.entry other := by
  simp [entry, scalar]

theorem entry_pointwise {arrays : List Tensor} {shape : List Nat} (type : ElementType)
    (f : List Element → Element) (fits : ∀ a ∈ arrays, a.Fits grid)
    (common : commonShape arrays = .ok shape) (within : position < shapeSize grid) :
    entry ⟨type, shape, Array.ofFn fun i : Fin (shapeSize shape) =>
      f (arrays.map fun a => a.entry i)⟩ position = f (arrays.map fun a => a.entry position) := by
  have atZero (scalars : ∀ a ∈ arrays, a.shape = []) :
      arrays.map (fun a => a.entry 0) = arrays.map fun a => a.entry position :=
    List.map_congr_left fun a member => entry_of_scalar (scalars a member) _ _
  rcases commonShape_cases fits common with ⟨rfl, scalars⟩ | rfl
  · rw [entry_ofFn_nil type (fun i => f (arrays.map fun a => a.entry i)), atZero scalars]
  · by_cases dimensioned : shape = []
    · subst dimensioned
      have scalars : ∀ a ∈ arrays, a.shape = [] := fun a member => (fits a member).shape.elim id id
      rw [entry_ofFn_nil type (fun i => f (arrays.map fun a => a.entry i)), atZero scalars]
    · exact entry_ofFn type (fun i => f (arrays.map fun a => a.entry i)) within dimensioned

theorem fits_pair (left : a.Fits grid) (right : b.Fits grid) :
    ∀ x ∈ [a, b], x.Fits grid :=
  List.forall_mem_cons.2 ⟨left, List.forall_mem_cons.2 ⟨right, fun _ absurd => nomatch absurd⟩⟩

/-- What an operation on two arrays answers fits, and at each position it is what the operation
answers for the elements there. -/
def Elementwise (operation : Tensor → Tensor → Except Fault Tensor) : Prop :=
  ∀ ⦃grid : List Nat⦄ ⦃a b t : Tensor⦄, a.Fits grid → b.Fits grid → operation a b = .ok t →
    t.Fits grid ∧ ∀ position < shapeSize grid,
      operation (a.pick position) (b.pick position) = .ok (t.pick position)

theorem elementwise_zipWith (type : ElementType) (f : Element → Element → Element) :
    Elementwise (zipWith type f) := by
  intro grid a b t left right run
  have fits := fits_pair left right
  unfold zipWith at run ⊢
  cases common : commonShape [a, b] with
  | error fault => rw [common] at run; cases run
  | ok shape =>
      rw [common] at run
      cases run
      refine ⟨fits_ofFn _ _ fits common, fun position within => ?_⟩
      have entry := entry_pointwise type (fun entries =>
        f (entries.getD 0 default) (entries.getD 1 default)) fits common within
      rw [show [a.pick position, b.pick position] = [a, b].map (pick position) from rfl,
        commonShape_pick]
      rw [pick]
      exact congrArg Except.ok (congrArg (scalar type) entry.symm)

theorem elementwise_converted {operation : ElementType → Tensor → Tensor → Except Fault Tensor}
    (elementwise : ∀ type, Elementwise (operation type))
    (decide : ElementType → ElementType → ElementType) :
    Elementwise fun a b => operation (decide a.type b.type) (a.convert (decide a.type b.type))
      (b.convert (decide a.type b.type)) := by
  intro grid a b t left right run
  obtain ⟨fits, each⟩ := elementwise _ (fits_convert _ left) (fits_convert _ right) run
  refine ⟨fits, fun position within => ?_⟩
  have here := each position within
  rwa [pick_convert left within, pick_convert right within] at here

theorem elementwise_joined (f : ElementType → Element → Element → Element) :
    Elementwise (joined f) :=
  elementwise_converted (fun type => elementwise_zipWith type (f type)) ElementType.join

theorem elementwise_compared (f : Element → Element → Bool) : Elementwise (compared f) :=
  elementwise_converted (fun _ => elementwise_zipWith .bool fun x y => .bool (f x y))
    ElementType.join

theorem elementwise_connected (f : Bool → Bool → Bool) : Elementwise (connected f) :=
  elementwise_zipWith .bool fun x y => .bool (f x.truth y.truth)

theorem elementwise_floorDivide : Elementwise floorDivide :=
  elementwise_converted (fun type => elementwise_zipWith type (Element.floorDiv type)) fun a b =>
    if a.join b = .bool then .int8 else a.join b

theorem elementwise_trueDivide : Elementwise trueDivide :=
  elementwise_converted (fun type => elementwise_zipWith type (Element.trueDiv type)) fun a b =>
    if (a.join b).isReal then a.join b else .float64

theorem elementwise_subtract : Elementwise subtract := by
  intro grid a b t left right run
  unfold subtract at run ⊢
  split at run
  next => cases run
  next numeric =>
    obtain ⟨fits, each⟩ := elementwise_joined _ left right run
    refine ⟨fits, fun position within => ?_⟩
    rw [type_pick, type_pick, if_neg numeric]
    exact each position within

theorem elementwise_binary (op : BinaryOp) (real : Bool) : Elementwise (binary op real) := by
  cases op with
  | add => exact elementwise_joined _
  | sub => exact elementwise_subtract
  | mul => exact elementwise_joined _
  | div =>
      cases real with
      | true => exact elementwise_trueDivide
      | false => exact elementwise_floorDivide
  | min => exact elementwise_joined fun _ => Element.min
  | max => exact elementwise_joined fun _ => Element.max
  | lt => exact elementwise_compared _
  | le => exact elementwise_compared _
  | gt => exact elementwise_compared fun x y => y.less x
  | ge => exact elementwise_compared fun x y => y.lessOrEqual x
  | eq => exact elementwise_compared _
  | ne => exact elementwise_compared fun x y => !x.equal y
  | and => exact elementwise_connected _
  | or => exact elementwise_connected _

def ElementwiseAll (operation : List Tensor → Except Fault Tensor) : Prop :=
  ∀ ⦃grid : List Nat⦄ ⦃args : List Tensor⦄ ⦃t : Tensor⦄, (∀ a ∈ args, a.Fits grid) →
    operation args = .ok t → t.Fits grid ∧ ∀ position < shapeSize grid,
      operation (args.map (pick position)) = .ok (t.pick position)

theorem choose_elementwise {condition ifTrue ifFalse : Tensor}
    (fits : ∀ a ∈ [condition, ifTrue, ifFalse], a.Fits grid)
    (run : choose condition ifTrue ifFalse = .ok t) :
    t.Fits grid ∧ ∀ position < shapeSize grid,
      choose (condition.pick position) (ifTrue.pick position) (ifFalse.pick position) =
        .ok (t.pick position) := by
  have fitsTrue := fits ifTrue (.tail _ (.head _))
  have fitsFalse := fits ifFalse (.tail _ (.tail _ (.head _)))
  unfold choose at run ⊢
  simp only [type_pick]
  generalize ifTrue.type.join ifFalse.type = type at run ⊢
  cases common : commonShape [condition, ifTrue, ifFalse] with
  | error fault => rw [common] at run; cases run
  | ok shape =>
      rw [common] at run
      cases run
      have fitsAll : ∀ a ∈ [condition, ifTrue.convert type, ifFalse.convert type], a.Fits grid :=
        List.forall_mem_cons.2 ⟨fits condition (.head _),
          fits_pair (fits_convert type fitsTrue) (fits_convert type fitsFalse)⟩
      refine ⟨fits_ofFn _ _ fits common, fun position within => ?_⟩
      have entry := entry_pointwise type (fun entries =>
        if (entries.getD 0 default).truth then entries.getD 1 default else entries.getD 2 default)
        fitsAll common within
      rw [← pick_convert fitsTrue within, ← pick_convert fitsFalse within,
        show [condition.pick position, ifTrue.pick position, ifFalse.pick position] =
        [condition, ifTrue, ifFalse].map (pick position) from rfl, commonShape_pick, pick]
      exact congrArg Except.ok (congrArg (scalar type) entry.symm)

theorem entry_mem (fits : t.Fits grid) (within : position < shapeSize grid) :
    t.entry position ∈ t.data := by
  have sound : t.data.size = shapeSize t.shape := fits.sound
  by_cases scalar : t.shape = []
  · rw [scalar, shapeSize_nil] at sound
    simp [entry, scalar, Array.getD, sound]
  · have dimensioned : t.shape.isEmpty = false := by simpa using scalar
    rw [fits.shape.resolve_left scalar] at sound
    simp [entry, dimensioned, Array.getD, sound, within]

def ElementwiseMap (operation : Tensor → Tensor) : Prop :=
  ∀ ⦃grid : List Nat⦄ ⦃t : Tensor⦄, t.Fits grid → (operation t).Fits grid ∧
    ∀ position < shapeSize grid, (operation t).pick position = operation (t.pick position)

theorem elementwise_counted : ElementwiseMap counted := by
  intro grid t fits
  unfold counted
  by_cases isBool : t.type = .bool
  · simp only [type_pick, isBool, if_true]
    exact ⟨fits_convert _ fits, fun position within => pick_convert fits within⟩
  · simpa [isBool] using fits

theorem elementwise_elementary (f : Float → Float) : ElementwiseMap (elementary f) := by
  intro grid t fits
  refine ⟨fits_map _ _ (fits_convert _ fits), fun position within => ?_⟩
  unfold elementary
  rw [pick_map (fits_convert _ fits) within, pick_convert fits within]
  rfl

theorem elementwise_floor : ElementwiseMap floor := by
  intro grid t fits
  unfold floor
  by_cases isReal : t.type.isReal
  · simp only [type_pick, isReal, if_true]
    exact ⟨fits_map _ _ fits, fun position within => pick_map fits within⟩
  · simpa [isReal] using fits

theorem elementwise_magnitude : ElementwiseMap magnitude := fun _ _ fits =>
  ⟨fits_map _ _ fits, fun _ within => pick_map fits within⟩

theorem negate_elementwise (fits : t.Fits grid) {opposite : Tensor} (run : t.negate = .ok opposite) :
    opposite.Fits grid ∧ ∀ position < shapeSize grid,
      (t.pick position).negate = .ok (opposite.pick position) := by
  unfold negate at run ⊢
  by_cases isBool : t.type = .bool
  · rw [if_pos isBool] at run
    cases run
  · rw [if_neg isBool] at run
    cases run
    refine ⟨fits_map _ _ fits, fun position within => ?_⟩
    have isNumber : (t.pick position).type ≠ .bool := isBool
    rw [if_neg isNumber, pick_map fits within]
    rfl

theorem elementwise_power : Elementwise power := by
  intro grid a b t left right run
  obtain ⟨fitsBase, eachBase⟩ := elementwise_counted left
  obtain ⟨fitsExponent, eachExponent⟩ := elementwise_counted right
  unfold power at run ⊢
  dsimp only at run ⊢
  split at run
  next => cases run
  next allowed =>
    obtain ⟨fits, each⟩ := elementwise_joined _ fitsBase fitsExponent run
    refine ⟨fits, fun position within => ?_⟩
    have stillAllowed : ¬ (!(a.counted.type.join b.counted.type).isReal &&
        (b.pick position).data.any Element.isNegativeInteger) = true := by
      intro refused
      refine allowed ?_
      rw [Bool.and_eq_true] at refused ⊢
      refine ⟨refused.1, Array.any_eq_true'.2 ⟨b.entry position, entry_mem right within, ?_⟩⟩
      simpa [pick, scalar] using refused.2
    rw [← eachBase position within, ← eachExponent position within, type_pick, type_pick,
      if_neg stillAllowed]
    exact each position within

theorem ElementwiseMap.ok {operation : Tensor → Tensor} (elementwise : ElementwiseMap operation)
    (fits : t.Fits grid) {answer : Tensor}
    (run : Except.ok (operation t) = (.ok answer : Except Fault _)) :
    answer.Fits grid ∧ ∀ position < shapeSize grid,
      (.ok (operation (t.pick position)) : Except Fault _) = .ok (answer.pick position) := by
  cases run
  obtain ⟨keeps, each⟩ := elementwise fits
  exact ⟨keeps, fun position within => congrArg Except.ok (each position within).symm⟩

end

theorem elementwise_kernel (kernel : Kernel) : ElementwiseAll kernel.apply := by
  intro grid args t fits run
  unfold Kernel.apply at run ⊢
  split at run
  case h_7 => exact (elementwise_floor.ok (fits _ (.head _)) run)
  case h_8 => exact elementwise_power (fits _ (.head _)) (fits _ (.tail _ (.head _))) run
  case h_9 x =>
    obtain ⟨fitsCounted, each⟩ := elementwise_counted (fits x (.head _))
    obtain ⟨keeps, eachProduct⟩ := elementwise_joined _ fitsCounted fitsCounted run
    refine ⟨keeps, fun position within => ?_⟩
    have here := eachProduct position within
    rwa [each position within] at here
  case h_10 => exact negate_elementwise (fits _ (.head _)) run
  case h_11 => exact (elementwise_magnitude.ok (fits _ (.head _)) run)
  case h_12 => cases run
  all_goals exact (elementwise_elementary _).ok (fits _ (.head _)) run

end Tensor

end ReverseMode
