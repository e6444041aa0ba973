import ReverseMode.Proofs.Algebra.Meaning
import ReverseMode.Proofs.Exact.Index
import ReverseMode.Proofs.Nodes.Building

namespace ReverseMode

open Form Expr

/-- What is said of the values of registered expressions; a value depends on an `α`. -/
structure Judgement (α : Type) where
  judges : Registry → (α → Int) → Expr → Prop
  dtype {r : Registry} {v : α → Int} {e : Expr} : judges r v e → e.dtype = .int32
  extend {r later : Registry} {v : α → Int} {e : Expr} :
    judges r v e → r.Extends later → judges later v e
  literal (r : Registry) (c : Int) : Builds (literal c) r fun later e => judges later (fun _ => c) e
  signed {r : Registry} {op : BinaryOp} {v w : α → Int} {a b : Expr} :
    op = .add ∨ op = .sub → judges r v a → judges r w b →
      Builds (Expr.mkBinary op a b) r fun later e =>
        judges later (fun x => integerOf op (v x) (w x)) e
  multiple {r : Registry} {c : Int} {v : α → Int} {e : Expr} : judges r v e →
    Builds (do let factor ← Form.literal c; Expr.mul factor e) r fun later product =>
      judges later (fun x => c * v x) product

namespace Judgement

variable {α : Type} {J : Judgement α} {r : Registry} {v w : α → Int} {e : Expr}

theorem of_eq (judged : J.judges r v e) (same : ∀ x, v x = w x) : J.judges r w e :=
  funext same ▸ judged

theorem withCoefficient (judged : J.judges r v e) (c : Int) :
    Builds (Form.withCoefficient c e) r fun later product =>
      J.judges later (fun x => c * v x) product := by
  simp only [Form.withCoefficient, toNumber_int]
  split
  next minus =>
    have isMinus : c = -1 := by simpa [Number.isMinusOne] using minus
    simp only [Expr.neg, J.dtype judged, DType.isFloat, Bool.false_eq_true, if_false]
    refine Builds.bind (J.literal r 0) fun later zero extended made => ?_
    refine (J.signed (.inr rfl) made (J.extend judged extended)).mono fun _ _ _ done =>
      of_eq done fun x => ?_
    simp [integerOf, isMinus]
  next =>
    split
    next one =>
      have isOne : c = 1 := by simpa [Number.isOne] using one
      exact Builds.pure (of_eq judged fun x => by rw [isOne, one_mul])
    next => exact J.multiple judged

theorem sum {symbols : Symbols} {ts : List (Form Int)} {before : Expr} {total : α → Int}
    {value : α → Form Int → Int}
    (each : ∀ t ∈ ts, ∀ later, r.Extends later →
      BuildsOk (writeSigned symbols t.isNegativeTerm t) later fun last e =>
        J.judges last (fun x => (if t.isNegativeTerm then -1 else 1) * value x t) e)
    (judged : J.judges r total before) :
    BuildsOk (writeSum symbols before ts) r fun later e =>
      J.judges later (fun x => total x + (ts.map (value x)).sum) e := by
  induction ts generalizing r before total with
  | nil =>
      rw [writeSum]
      exact BuildsOk.pure (of_eq judged fun x => by simp)
  | cons t rest ih =>
      obtain ⟨first, others⟩ := List.forall_mem_cons.1 each
      rw [writeSum]
      refine BuildsOk.bind (first r (.refl r)) fun later e extended made => ?_
      have combined : Builds (Expr.mkBinary (if t.isNegativeTerm then .sub else .add) before e) later
          fun last next => J.judges last (fun x => total x + value x t) next := by
        cases negative : t.isNegativeTerm with
        | true =>
            rw [negative] at made
            refine (J.signed (.inr rfl) (J.extend judged extended) made).mono
              fun _ _ _ done => of_eq done fun x => ?_
            simp [integerOf]
        | false =>
            rw [negative] at made
            refine (J.signed (.inl rfl) (J.extend judged extended) made).mono
              fun _ _ _ done => of_eq done fun x => ?_
            simp [integerOf]
      refine BuildsOk.bind (BuildsOk.ofBuilds combined) fun last next extendedAgain made => ?_
      have later (t : Form Int) (member : t ∈ rest) (final : Registry) (more : last.Extends final) :=
        others t member final ((extended.trans extendedAgain).trans more)
      refine (ih later made).mono fun _ _ _ done => of_eq done fun x => ?_
      rw [List.map_cons, List.sum_cons, add_assoc]

end Judgement

end ReverseMode
