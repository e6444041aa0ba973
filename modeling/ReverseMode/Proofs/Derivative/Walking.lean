import Mathlib.Data.List.Forall2
import ReverseMode.Derivative.Propagation
import ReverseMode.Proofs.Derivative.Contributions

namespace ReverseMode

/-- Run from the state, the action ends in a state in which `Q` holds of its answer, or fails with a
fault with `E`. -/
def Leaves {α : Type} (settings : Differentiation) (E : Fault → Prop) (action : AdjointM α)
    (s : Accumulation) (Q : α → Accumulation → Prop) : Prop :=
  ∀ program, match (((action.run settings).run s).run.run program).1 with
    | .ok (a, left) => Q a left
    | .error fault => E fault

namespace Leaves

variable {α β : Type} {settings : Differentiation} {E : Fault → Prop} {s : Accumulation}
  {Q Q' : α → Accumulation → Prop} {R : β → Accumulation → Prop}

theorem pure {a : α} (answer : Q a s) : Leaves settings E (Pure.pure a) s Q := fun _ => answer

theorem bind {action : AdjointM α} {rest : α → AdjointM β} (first : Leaves settings E action s Q)
    (second : ∀ a left, Q a left → Leaves settings E (rest a) left R) :
    Leaves settings E (action >>= rest) s R := by
  intro program
  have ends := first program
  rw [ReaderT.run_bind, StateT.run_bind, ExceptT.run_bind, StateT.run_bind]
  cases outcome : ((action.run settings).run s).run.run program with
  | mk result later =>
      rw [outcome] at ends
      cases result with
      | ok answer => exact second answer.1 answer.2 ends later
      | error fault => exact ends

theorem mono {action : AdjointM α} {E' : Fault → Prop} (run : Leaves settings E action s Q)
    (after : ∀ a left, Q a left → Q' a left) (failed : ∀ fault, E fault → E' fault) :
    Leaves settings E' action s Q' := by
  intro program
  have ends := run program
  cases outcome : (((action.run settings).run s).run.run program).1 with
  | ok answer =>
      rw [outcome] at ends
      exact after _ _ ends
  | error fault =>
      rw [outcome] at ends
      exact failed fault ends

theorem after {action : AdjointM α} (run : Leaves settings E action s Q)
    (implies : ∀ a left, Q a left → Q' a left) : Leaves settings E action s Q' :=
  run.mono implies fun _ => id

theorem bind_get {rest : Accumulation → AdjointM β} (second : Leaves settings E (rest s) s R) :
    Leaves settings E (Accumulation.get >>= rest) s R := second

theorem bind_settings {rest : Differentiation → AdjointM β}
    (second : Leaves settings E (rest settings) s R) :
    Leaves settings E (readThe Differentiation >>= rest) s R := second

theorem modify {change : Accumulation → Accumulation} {Q : Unit → Accumulation → Prop}
    (answer : Q () (change s)) : Leaves settings E (Accumulation.modify change) s Q :=
  fun _ => answer

theorem build {action : NodeM α} {P : α → Prop} (built : Produces action P)
    (answer : ∀ a, P a → Q a s) :
    Leaves settings E (liftM (liftM action : ProgramM α) : AdjointM α) s Q := by
  intro program
  exact answer _ (built program.supply)

theorem bind_build {action : NodeM α} {rest : α → AdjointM β} {P : α → Prop}
    (built : Produces action P) (second : ∀ a, P a → Leaves settings E (rest a) s R) :
    Leaves settings E ((liftM (liftM action : ProgramM α) : AdjointM α) >>= rest) s R := by
  intro program
  exact second _ (built program.supply) _

theorem bind_report {reported : Tracing → Bool} {line : String} {rest : Unit → AdjointM β}
    (second : Leaves settings E (rest ()) s R) :
    Leaves settings E ((liftM (report reported line) : AdjointM Unit) >>= rest) s R :=
  fun _ => second _

end Leaves

def Frames {α : Type} (settings : Differentiation) (action : AdjointM α) : Prop :=
  ∀ s, Leaves settings (fun _ => True) action s fun _ left =>
    left.adjoints = s.adjoints ∧ left.bindings = s.bindings

namespace Frames

variable {α β : Type} {settings : Differentiation}

theorem pure {a : α} : Frames settings (Pure.pure a) := fun _ => .pure ⟨rfl, rfl⟩

theorem bind {action : AdjointM α} {rest : α → AdjointM β} (first : Frames settings action)
    (second : ∀ a, Frames settings (rest a)) : Frames settings (action >>= rest) := by
  intro s
  refine (first s).bind fun a left ⟨sameAdjoints, sameBindings⟩ => ?_
  rw [← sameAdjoints, ← sameBindings]
  exact second a left

theorem lift {action : ProgramM α} : Frames settings (liftM action) := by
  intro s program
  have unfolded : ((liftM action : AdjointM α).run settings).run s =
      (action >>= fun a => Pure.pure (a, s)) := rfl
  rw [unfolded, ExceptT.run_bind, StateT.run_bind]
  cases action.run.run program with
  | mk result later =>
      cases result with
      | ok a => exact ⟨rfl, rfl⟩
      | error fault => trivial

theorem throw_bind {fault : Fault} {rest : α → AdjointM β} :
    Frames settings (liftM (MonadExcept.throw fault : ProgramM α) >>= rest) := fun _ _ => trivial

theorem bind_get {rest : Accumulation → AdjointM β} (second : ∀ s, Frames settings (rest s)) :
    Frames settings (Accumulation.get >>= rest) := fun s => second s s

end Frames

section

variable {settings : Differentiation} {E : Fault → Prop} {s : Accumulation}

theorem stageSnapshot_frames {args : List Expr} {name : String} {stage : Int} :
    Frames settings (stageSnapshot args name stage) := by
  have built : Frames settings (stageSnapshot.build args name stage) := by
    unfold stageSnapshot.build
    refine .bind_get fun s => ?_
    split
    next => exact .lift
    next => exact .lift
  unfold stageSnapshot
  refine .bind_get fun s => ?_
  split
  next => exact .pure
  next =>
    refine built.bind fun snapshot => Frames.bind (fun _ => ?_) fun _ => .pure
    exact .modify ⟨rfl, rfl⟩

theorem scatter_frames {ctx : CallContext} {call adjoint : Expr} {id : FuncId} :
    Frames settings (scatter ctx call id adjoint) := by
  unfold scatter
  refine Frames.lift.bind fun callee => .bind_get fun _ => ?_
  dsimp only
  split
  next => exact .throw_bind
  next =>
    split
    next => exact .pure
    next =>
      refine Frames.bind (.bind_get fun _ => .lift) fun closed => ?_
      -- both ways go on with the canonical form of what is contributed
      split
      on_goal 1 => refine stageSnapshot_frames.bind fun snapshot => Frames.lift.bind fun _ => ?_
      on_goal 2 => rw [pure_bind]
      all_goals
        refine Frames.lift.bind fun contribution => Frames.lift.bind fun _ => .bind_get fun _ => ?_
        split
        next => exact .lift
        next => exact .lift

def ScatterFault (settings : Differentiation) (ctx : CallContext) (es : List Expr) (fault : Fault) :
    Prop :=
  ∃ call ∈ es, ∃ id name adjoint s program, call.callee? = some (.func id name) ∧
    ((((scatter ctx call id adjoint).run settings).run s).run.run program).1 = .error fault

theorem scatter_leaves {ctx : CallContext} {call adjoint : Expr} {id : FuncId} {es : List Expr}
    {name : String} (listed : call ∈ es) (calls : call.callee? = some (.func id name)) :
    Leaves settings (ScatterFault settings ctx es) (scatter ctx call id adjoint) s fun _ left =>
      left.adjoints = s.adjoints ∧ left.bindings = s.bindings := by
  intro program
  have frames : Frames settings (scatter ctx call id adjoint) := scatter_frames
  have ends := frames s program
  cases outcome : ((((scatter ctx call id adjoint).run settings).run s).run.run program).1 with
  | ok answer =>
      rw [outcome] at ends
      exact ends
  | error fault => exact ⟨call, listed, id, name, adjoint, s, program, calls, outcome⟩

end

def Accumulation.amount (answers : CallValues ℚ) (env : String → ℚ) (s : Accumulation)
    (id : NodeId) :
    ℚ := (s.adjoints[id]?).elim 0 (Expr.exactIn answers env)

def Accumulation.Floats (s : Accumulation) : Prop :=
  ∀ (id : NodeId) (a : Expr), s.adjoints[id]? = some a → a.dtype = .float32

structure Takes (answers : CallValues ℚ) (env : String → ℚ) (given : List (Expr × ℚ))
    (bound : List (String × Expr)) (s left : Accumulation) : Prop where
  amount : ∀ id, left.amount answers env id = s.amount answers env id +
    (given.map fun (c, w) => if c.id = id then w else 0).sum
  known : ∀ id, (s.adjoints[id]?).isSome ∨ (∃ entry ∈ given, entry.1.id = id) →
    (left.adjoints[id]?).isSome
  floats : s.Floats → left.Floats
  bindings : left.bindings = bound ++ s.bindings

namespace Takes

variable {answers : CallValues ℚ} {env : String → ℚ} {given given' : List (Expr × ℚ)}
  {bound bound' : List (String × Expr)} {s middle left : Accumulation}

theorem nothing (same : left.adjoints = s.adjoints)
    (bindings : left.bindings = bound ++ s.bindings) :
    Takes answers env [] bound s left where
  amount id := by simp [Accumulation.amount, same]
  known id either := by simpa [same] using either
  floats := by simp [Accumulation.Floats, same]
  bindings := bindings

theorem trans (first : Takes answers env given bound s middle)
    (second : Takes answers env given' bound' middle left) :
    Takes answers env (given ++ given') (bound' ++ bound) s left where
  amount id := by
    rw [second.amount, first.amount, List.map_append, List.sum_append, add_assoc]
  known id either := by
    refine second.known id ?_
    rcases either with earlier | ⟨entry, member, same⟩
    · exact .inl (first.known id (.inl earlier))
    · rcases List.mem_append.1 member with inFirst | inSecond
      · exact .inl (first.known id (.inr ⟨entry, inFirst, same⟩))
      · exact .inr ⟨entry, inSecond, same⟩
  floats all := second.floats (first.floats all)
  bindings := by rw [second.bindings, first.bindings, List.append_assoc]

theorem store {target total : Expr} {w : ℚ}
    (exact : total.exactIn answers env = s.amount answers env target.id + w)
    (isFloat : s.Floats → total.dtype = .float32) :
    Takes answers env [(target, w)] [] s
      { s with adjoints := s.adjoints.insert target.id total } where
  amount id := by
    by_cases same : target.id = id
    · subst same
      simp [Accumulation.amount, exact]
    · simp [Accumulation.amount, Std.TreeMap.getElem?_insert, same]
  known id either := by
    by_cases same : target.id = id
    · simp [same]
    · simpa [Std.TreeMap.getElem?_insert, same] using either
  floats all id a found := by
    by_cases same : target.id = id
    · subst same
      rw [Std.TreeMap.getElem?_insert_self] at found
      exact Option.some.inj found ▸ isFloat all
    · have other : compare target.id id ≠ .eq := by simpa using same
      rw [Std.TreeMap.getElem?_insert, if_neg other] at found
      exact all id a found
  bindings := rfl

end Takes

section

variable {settings : Differentiation} {E : Fault → Prop} {s : Accumulation} {answers : CallValues ℚ}
  {env : String → ℚ} {v w : ℚ} {adjoint : Expr}

theorem accumulate_takes {target : Expr} (amounts : Amounts answers env w adjoint) :
    Leaves settings E (accumulate target adjoint) s fun _ left =>
      Takes answers env [(target, w)] [] s left := by
  unfold accumulate
  refine .bind_get ?_
  dsimp only
  split
  next unknown =>
    refine .modify (.store ?_ fun _ => amounts.isFloat)
    simp [Accumulation.amount, unknown, amounts.exact]
  next earlier known =>
    have total : s.amount answers env target.id = earlier.exactIn answers env := by
      simp [Accumulation.amount, known]
    split
    next isZero =>
      refine .modify (.store ?_ fun _ => amounts.isFloat)
      rw [total, Expr.exactIn_of_isZero isZero, zero_add, amounts.exact]
    next =>
      split
      next isZero =>
        refine .modify (.store ?_ fun floats => floats _ _ known)
        rw [total, ← amounts.exact, Expr.exactIn_of_isZero isZero, add_zero]
      next =>
        refine .bind_build (amounts.add earlier) fun sum isSum => ?_
        refine .modify (.store ?_ fun _ => isSum.isFloat)
        rw [total, isSum.exact]

theorem accumulateEach_takes {contributions : List (Expr × Expr)} {given : List (Expr × ℚ)}
    (amounts : List.Forall₂ (fun contribution (c, w) => contribution.1 = c ∧
      Amounts answers env w contribution.2) contributions given) :
    Leaves settings E (accumulateEach contributions) s fun _ left =>
      Takes answers env given [] s left := by
  induction amounts generalizing s with
  | nil => exact .pure (.nothing rfl rfl)
  | @cons contribution entry _ _ here _ ih =>
      obtain ⟨target, adjoint⟩ := contribution
      obtain ⟨_, w⟩ := entry
      obtain ⟨rfl, amounts⟩ := here
      exact (accumulate_takes amounts).bind fun _ _ first =>
        ih.after fun _ _ others => first.trans others

theorem accumulateVariable_takes {name : String} (amounts : Amounts answers env v adjoint)
    (bound : ∀ value, s.bindings.lookup name = some value → env name = value.exactIn answers env) :
    Leaves settings E (accumulateVariable name adjoint) s fun _ left =>
      Takes answers env ((s.bindings.lookup name).toList.map (·, v)) [] s left := by
  unfold accumulateVariable
  refine .bind_get ?_
  split
  next unbound =>
    rw [unbound]
    exact .pure (.nothing rfl rfl)
  next value isBound =>
    rw [isBound]
    split
    next => exact .bind_build (amounts.letIn (bound value isBound)) fun _ => accumulate_takes
    next => exact accumulate_takes amounts

theorem accumulatePrimitive_takes {call : Expr} {name : String} {args : List Expr}
    (ruleless : settings.rules.lookup name = none) (policy : settings.unknownPrimitive = .zero) :
    Leaves settings E (accumulatePrimitive call name args adjoint) s fun _ left =>
      Takes answers env (args.map (·, 0)) [] s left := by
  unfold accumulatePrimitive
  refine .bind_settings ?_
  rw [ruleless, policy]
  refine .bind_report ?_
  refine Leaves.bind (Q := fun _ left => Takes answers env (args.map (·, 0)) [] s left) ?_
    fun _ _ takes => .pure takes
  induction args generalizing s with
  | nil => exact .pure (.nothing rfl rfl)
  | cons arg rest ih =>
      rw [List.forIn_cons, bind_assoc]
      refine .bind_build (Amounts.zero answers env) fun zero isZero => ?_
      rw [bind_assoc]
      refine (accumulate_takes isZero).bind fun _ _ first => ?_
      rw [pure_bind]
      exact ih.after fun _ _ others => first.trans others

def Expr.ownLets : Expr → List (String × Expr)
  | node _ (.letIn name) _ [value, _] => [(name, value)]
  | _ => []

theorem propagateNode_takes {ctx : CallContext} {es : List Expr} {x : Expr}
    {lets : List (String × Expr)} (listed : x ∈ es) (shaped : Expr.Shaped x)
    (isKnown : x.IsKnown) (unmuted : settings.muted = [])
    (policy : ∀ name, x.callee? = some (.primitive name) → settings.unknownPrimitive = .zero)
    (ruleless : ∀ name, x.callee? = some (.primitive name) → settings.rules.lookup name = none)
    (amounts : Amounts answers env v adjoint)
    (known : ∀ name, x.variableName? = some name → s.bindings.lookup name = lets.lookup name)
    (bound : ∀ name value, s.bindings.lookup name = some value →
      env name = value.exactIn answers env) :
    Leaves settings (ScatterFault settings ctx es) (propagateNode ctx x adjoint) s fun _ left =>
      Takes answers env ((Expr.slopes answers env lets x).map fun (c, slope) => (c, slope * v))
        x.ownLets s left := by
  have arity := shaped.here
  unfold propagateNode
  refine .bind_settings ?_
  rw [unmuted]
  have passedOn (name : String) (named : x.variableName? = some name) :
      Leaves settings (ScatterFault settings ctx es) (accumulateVariable name adjoint) s fun _ left =>
        Takes answers env (((lets.lookup name).toList.map (·, (1 : ℚ))).map
          fun (c, slope) => (c, slope * v)) [] s left := by
    have takes : Leaves settings (ScatterFault settings ctx es) (accumulateVariable name adjoint) s
        fun _ left => Takes answers env ((s.bindings.lookup name).toList.map (·, v)) [] s left :=
      accumulateVariable_takes amounts (bound name)
    rw [known name named] at takes
    simpa [Function.comp_def] using takes
  cases x with
  | reduction id domain axis least extent => exact passedOn _ rfl
  | node id head dtype operands =>
      cases head with
      | const c => exact .pure (.nothing rfl rfl)
      | var name index => exact passedOn name rfl
      | cast =>
          obtain ⟨a, rfl⟩ := List.length_eq_one_iff.1 (arity 1 rfl)
          simpa [Expr.slopes, Expr.ownLets] using accumulate_takes amounts
      | binary op =>
          obtain ⟨a, b, rfl⟩ := List.length_eq_two.1 (arity 2 rfl)
          refine .bind_build (binaryContributions_slopes op amounts) fun contributions made => ?_
          refine accumulateEach_takes ?_
          rw [List.forall₂_map_right_iff]
          exact made
      | select =>
          obtain ⟨condition, a, b, rfl⟩ := List.length_eq_three.1 (arity 3 rfl)
          refine .bind_build (amounts.whereHolds condition) fun _ isFirst => ?_
          refine (accumulate_takes isFirst).bind fun _ _ first => ?_
          refine .bind_build (amounts.unlessHolds condition) fun _ isSecond => ?_
          exact (accumulate_takes isSecond).after fun _ _ second => first.trans second
      | letIn name =>
          obtain ⟨value, body, rfl⟩ := shaped.letIn
          refine (accumulate_takes amounts).bind fun _ _ first => ?_
          refine .bind_build (Amounts.zero answers env) fun _ isZero => ?_
          refine (accumulate_takes isZero).bind fun _ left second => ?_
          -- the name is bound after both were given
          refine .modify ?_
          have named : Takes answers env [] [(name, value)] left
              { left with bindings := (name, value) :: left.bindings } := .nothing rfl rfl
          simpa [Expr.slopes, Expr.ownLets] using (first.trans second).trans named
      | call callee =>
          cases callee with
          | func id name =>
              exact (scatter_leaves listed rfl).after fun _ left same => .nothing same.1 same.2
          | image source => exact .pure (.nothing rfl rfl)
          | primitive name =>
              simpa [Expr.slopes, Expr.ownLets, Function.comp_def] using
                accumulatePrimitive_takes (ruleless name rfl) (policy name rfl)
      | other kind => exact absurd rfl (isKnown id kind dtype operands)

end

end ReverseMode
