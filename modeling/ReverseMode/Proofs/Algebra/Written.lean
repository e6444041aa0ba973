import ReverseMode.Proofs.Algebra.Affine
import ReverseMode.Proofs.Nodes.Digest

namespace ReverseMode

open Form Expr

/-- One type and, under every digest, one text. -/
def Expr.SameText (e e' : Expr) : Prop :=
  e.dtype = e'.dtype ∧ ∀ hash, e.textWith hash = e'.textWith hash

/-- Run from any two supplies, the actions have related answers. -/
def Parallel {α β : Type} (first : NodeM α) (second : NodeM β) (R : α → β → Prop) : Prop :=
  ∀ supply supply', R (first.run supply).1 (second.run supply').1

def ParallelOk {α β : Type} (first : WriteM α) (second : WriteM β) (R : α → β → Prop) : Prop :=
  Parallel first.run second.run fun x y => ∃ a b, x = .ok a ∧ y = .ok b ∧ R a b

section

variable {α β γ δ : Type} {R : α → β → Prop} {R' : γ → δ → Prop}

theorem Parallel.bind {first : NodeM α} {second : NodeM β} {rest : α → NodeM γ} {rest' : β → NodeM δ}
    (started : Parallel first second R) (continued : ∀ a b, R a b → Parallel (rest a) (rest' b) R') :
    Parallel (first >>= rest) (second >>= rest') R' :=
  fun supply supply' => continued _ _ (started supply supply') _ _

theorem Parallel.pure {a : α} {b : β} (related : R a b) :
    Parallel (Pure.pure a : NodeM α) (Pure.pure b : NodeM β) R := fun _ _ => related

theorem ParallelOk.pure {a : α} {b : β} (related : R a b) :
    ParallelOk (Pure.pure a : WriteM α) (Pure.pure b : WriteM β) R :=
  fun _ _ => ⟨a, b, rfl, rfl, related⟩

theorem ParallelOk.lift {first : NodeM α} {second : NodeM β} (parallel : Parallel first second R) :
    ParallelOk (liftM first : WriteM α) (liftM second : WriteM β) R :=
  fun supply supply' => ⟨_, _, rfl, rfl, parallel supply supply'⟩

theorem ParallelOk.bind {first : WriteM α} {second : WriteM β} {rest : α → WriteM γ}
    {rest' : β → WriteM δ} (started : ParallelOk first second R)
    (continued : ∀ a b, R a b → ParallelOk (rest a) (rest' b) R') :
    ParallelOk (first >>= rest) (second >>= rest') R' := by
  unfold ParallelOk at started continued ⊢
  rw [ExceptT.run_bind, ExceptT.run_bind]
  refine Parallel.bind started fun x y answered => ?_
  obtain ⟨a, b, rfl, rfl, related⟩ := answered
  exact continued a b related

end

section

variable {a b a' b' : Expr}

theorem parallel_const (c : Constant) : Parallel (Expr.const c) (Expr.const c) SameText :=
  fun _ _ => ⟨rfl, fun _ => rfl⟩

theorem parallel_binary (op : BinaryOp) (left : SameText a a') (right : SameText b b') :
    Parallel (Expr.mkBinary op a b) (Expr.mkBinary op a' b') SameText := by
  intro supply supply'
  refine ⟨?_, fun hash => ?_⟩
  · change (if op.isBoolean then DType.bool else a.dtype.promote b.dtype) = _
    rw [left.1, right.1]
    rfl
  · change nodeText (.binary op) (if op.isBoolean then .bool else a.dtype.promote b.dtype)
      [hash (a.textWith hash), hash (b.textWith hash)] = _
    rw [left.1, right.1, left.2, right.2]
    rfl

theorem parallel_withCoefficient (c : Int) (same : SameText a a') :
    Parallel (withCoefficient c a) (withCoefficient c a') SameText := by
  simp only [withCoefficient]
  split
  · simp only [Expr.neg, same.1]
    split <;> exact Parallel.bind (parallel_const _) fun zero zero' sameZero =>
      parallel_binary .sub sameZero same
  · split
    · exact Parallel.pure same
    · exact Parallel.bind (parallel_const _) fun factor factor' sameFactor =>
        parallel_binary .mul sameFactor same

end

section

variable {symbols symbols' : Symbols} {f t : Form Int} {ts : List (Form Int)}

def AgreeOn (ts : List (Form Int)) (symbols symbols' : Symbols) : Prop :=
  ∀ t ∈ ts, ∀ name, t.symbol? = some name →
    SameText ((symbols.node? name).getD default) ((symbols'.node? name).getD default)

theorem AgreeOn.refl (ts : List (Form Int)) (symbols : Symbols) : AgreeOn ts symbols symbols :=
  fun _ _ _ _ => ⟨rfl, fun _ => rfl⟩

theorem parallel_term (agree : ∀ name, t.symbol? = some name →
      SameText ((symbols.node? name).getD default) ((symbols'.node? name).getD default))
    (term : AffineTerm t) (reversed : Bool) :
    ParallelOk (writeSigned symbols reversed t) (writeSigned symbols' reversed t) SameText := by
  cases term with
  | constant _ =>
      rw [writeSigned, writeSigned]
      split
      · exact .lift (parallel_const _)
      · exact .lift (parallel_const _)
  | bare =>
      rw [writeSigned, writeSigned]
      exact .pure (agree _ rfl)
  | @multiple c name _ _ =>
      have factor (symbols : Symbols) : writeProduct symbols none [(symbol name : Form Int)] =
          pure ((symbols.node? name).getD default) := by
        rw [writeProduct, writeSigned, pure_bind]
        change (pure _ >>= fun next => writeProduct symbols (some next) []) = _
        rw [pure_bind, writeProduct]
      rw [writeSigned, writeSigned, factor, factor, pure_bind, pure_bind]
      exact .lift (parallel_withCoefficient _ (agree name rfl))

theorem parallel_sum {before before' : Expr} (agree : AgreeOn ts symbols symbols')
    (terms : ∀ t ∈ ts, AffineTerm t) (same : SameText before before') :
    ParallelOk (writeSum symbols before ts) (writeSum symbols' before' ts) SameText := by
  induction ts generalizing before before' with
  | nil =>
      rw [writeSum, writeSum]
      exact .pure same
  | cons t rest ih =>
      obtain ⟨first, others⟩ := List.forall_mem_cons.1 terms
      obtain ⟨agreeFirst, agreeRest⟩ := List.forall_mem_cons.1 agree
      rw [writeSum, writeSum]
      refine .bind (parallel_term agreeFirst first _) fun e e' sameTerm => ?_
      exact .bind (.lift (parallel_binary _ same sameTerm)) fun next next' sameNext =>
        ih agreeRest others sameNext

theorem parallel_write (agree : AgreeOn f.terms symbols symbols') (canonical : Canonical f) :
    ParallelOk (f.write symbols) (f.write symbols') SameText := by
  rcases canonical.cases with rfl | term | ⟨ts, rfl, collected⟩
  · exact .lift (parallel_const _)
  · exact parallel_term (agree f (term.terms ▸ .head _)) term false
  · match ts with
    | [] => cases canonical.ordered
    | t :: rest =>
        obtain ⟨first, others⟩ := List.forall_mem_cons.1 collected.terms
        obtain ⟨agreeFirst, agreeRest⟩ := List.forall_mem_cons.1 agree
        rw [write, write, writeSigned, writeSigned]
        exact .bind (parallel_term agreeFirst first false) fun e e' same =>
          parallel_sum agreeRest others same

end

end ReverseMode
