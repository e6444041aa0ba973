import Mathlib.Algebra.BigOperators.Group.Finset.Piecewise
import Mathlib.Algebra.BigOperators.Ring.Finset
import Mathlib.Order.Interval.Finset.Basic
import Mathlib.Data.Int.ConditionallyCompleteOrder
import Mathlib.Data.Int.Interval
import Mathlib.Logic.Function.DependsOn
import ReverseMode.Proofs.Exact.Program

namespace ReverseMode

open Finset

/-- The sum over all values of the variables in a scope. -/
noncomputable def sumOver (f : Env → ℚ) : Scope → Env → ℚ
  | [], env => f env
  | (name, ends) :: rest, env =>
      ∑ i ∈ Icc ends.1 ends.2, sumOver f rest (Function.update env name i)

structure Scope.Reaches (scope : Scope) (base env : Env) : Prop where
  outside : ∀ name, name ∉ scope.names → env name = base name
  between : ∀ entry ∈ scope, Between entry.2 (env entry.1)

theorem sumOver_congr {f g : Env → ℚ} {scope : Scope} (distinct : scope.names.Nodup) {env : Env}
    (same : ∀ env', scope.Reaches env env' → f env' = g env') :
    sumOver f scope env = sumOver g scope env := by
  induction scope generalizing env with
  | nil => exact same env ⟨fun _ _ => rfl, fun _ member => nomatch member⟩
  | cons entry rest ih =>
      obtain ⟨name, ends⟩ := entry
      obtain ⟨absent, distinctRest⟩ := List.nodup_cons.1 distinct
      refine Finset.sum_congr rfl fun i member => ih distinctRest fun env' reaches => same env' ?_
      have here : env' name = i := by
        rw [reaches.outside name absent, Function.update_self]
      refine ⟨fun other outside => ?_, List.forall_mem_cons.2 ⟨?_, reaches.between⟩⟩
      · obtain ⟨differs, outsideRest⟩ := List.ne_and_not_mem_of_not_mem_cons outside
        rw [reaches.outside other outsideRest, Function.update_of_ne differs]
      · rw [here]
        exact Finset.mem_Icc.1 member

theorem sumOver_perm {f : Env → ℚ} {scope scope' : Scope} (perm : scope.Perm scope')
    (distinct : scope.names.Nodup) (env : Env) : sumOver f scope env = sumOver f scope' env := by
  induction perm generalizing env with
  | nil => rfl
  | cons entry _ ih =>
      refine Finset.sum_congr rfl fun i _ => ih (List.nodup_cons.1 distinct).2 _
  | swap first second rest =>
      have differs : second.1 ≠ first.1 := by
        intro same
        exact (List.nodup_cons.1 distinct).1 (by simp [same])
      simp only [sumOver]
      rw [Finset.sum_comm]
      refine Finset.sum_congr rfl fun i _ => Finset.sum_congr rfl fun j _ => ?_
      rw [Function.update_comm differs]
  | trans before _ ih ih' =>
      rw [ih distinct, ih' ((before.map Prod.fst).nodup_iff.1 distinct)]

theorem sumOver_append (f : Env → ℚ) (first second : Scope) (env : Env) :
    sumOver f (first ++ second) env = sumOver (sumOver f second) first env := by
  induction first generalizing env with
  | nil => rfl
  | cons entry rest ih => exact Finset.sum_congr rfl fun i _ => ih _

theorem sumOver_mul_left (c : ℚ) (f : Env → ℚ) (scope : Scope) (env : Env) :
    sumOver (fun env => c * f env) scope env = c * sumOver f scope env := by
  induction scope generalizing env with
  | nil => rfl
  | cons entry rest ih => simp only [sumOver, ih, Finset.mul_sum]

theorem sumOver_zero (scope : Scope) (env : Env) : sumOver (fun _ => 0) scope env = 0 := by
  induction scope generalizing env with
  | nil => rfl
  | cons entry rest ih => simp only [sumOver, ih, Finset.sum_const_zero]

theorem sumOver_add (f g : Env → ℚ) (scope : Scope) (env : Env) :
    sumOver (fun env => f env + g env) scope env = sumOver f scope env + sumOver g scope env := by
  induction scope generalizing env with
  | nil => rfl
  | cons entry rest ih => simp only [sumOver, ih, Finset.sum_add_distrib]

theorem sumOver_sum {ι : Type} (s : Finset ι) (f : ι → Env → ℚ) (scope : Scope) (env : Env) :
    sumOver (fun env => ∑ i ∈ s, f i env) scope env = ∑ i ∈ s, sumOver (f i) scope env := by
  induction scope generalizing env with
  | nil => rfl
  | cons entry rest ih =>
      simp only [sumOver, ih]
      exact Finset.sum_comm

theorem sumOver_list_sum {ι : Type} (l : List ι) (f : ι → Env → ℚ) (scope : Scope) (env : Env) :
    sumOver (fun env => (l.map fun i => f i env).sum) scope env =
      (l.map fun i => sumOver (f i) scope env).sum := by
  induction l with
  | nil => exact sumOver_zero scope env
  | cons i rest ih => simp only [List.map_cons, List.sum_cons, sumOver_add, ih]

theorem sumOver_determined {name : String} {ends : Int × Int} {rest : Scope}
    (distinct : name ∉ rest.names) (distinctRest : rest.names.Nodup) {determined : Env → Prop}
    [DecidablePred determined] {inverse : Env → Int} {g : Env → ℚ}
    (solves : ∀ env, determined env ↔ env name = inverse env)
    (ignores : ∀ env i, inverse (Function.update env name i) = inverse env) (env : Env) :
    sumOver (fun env => if determined env then g env else 0) ((name, ends) :: rest) env =
      sumOver (fun env => if ends.1 ≤ inverse env ∧ inverse env ≤ ends.2
        then g (Function.update env name (inverse env)) else 0) rest env := by
  have moved : ((name, ends) :: rest).Perm (rest ++ [(name, ends)]) :=
    (List.perm_append_singleton _ _).symm
  rw [sumOver_perm moved (List.nodup_cons.2 ⟨distinct, distinctRest⟩), sumOver_append]
  congr 1
  funext env
  simp only [sumOver, solves, Function.update_self, ignores]
  rw [Finset.sum_ite_eq']
  simp only [Finset.mem_Icc]

def Scope.count (scope : Scope) : Nat :=
  (scope.map fun entry => (entry.2.2 + 1 - entry.2.1).toNat).prod

theorem sumOver_dependsOn {f : Env → ℚ} {used : Set String} (depends : DependsOn f used)
    (scope : Scope) : DependsOn (sumOver f scope) {name ∈ used | name ∉ scope.names} := by
  induction scope with
  | nil => exact fun env env' same => depends fun name member => same name ⟨member, List.not_mem_nil⟩
  | cons entry rest ih =>
      refine fun env env' same => Finset.sum_congr rfl fun i _ => ih fun name member => ?_
      by_cases isEntry : name = entry.1
      · rw [isEntry, Function.update_self, Function.update_self]
      · rw [Function.update_of_ne isEntry, Function.update_of_ne isEntry]
        exact same name ⟨member.1, List.not_mem_cons_of_ne_of_not_mem isEntry member.2⟩

theorem sumOver_ignored {f : Env → ℚ} {used : Set String} (depends : DependsOn f used)
    {scope : Scope} (ignored : ∀ name ∈ scope.names, name ∉ used) (env : Env) :
    sumOver f scope env = scope.count * f env := by
  induction scope generalizing env with
  | nil => simp [sumOver, Scope.count]
  | cons entry rest ih =>
      obtain ⟨here, others⟩ := List.forall_mem_cons.1 ignored
      have each (i : Int) : f (Function.update env entry.1 i) = f env :=
        depends fun name member => Function.update_of_ne (ne_of_mem_of_not_mem member here) _ _
      simp only [sumOver, ih others, each, Finset.sum_const, Int.card_Icc, nsmul_eq_mul]
      simp [Scope.count, mul_assoc]

def Scope.renamed (scope : Scope) (rename : String → String) : Scope :=
  scope.map fun entry => (rename entry.1, entry.2)

theorem Scope.names_renamed (scope : Scope) (rename : String → String) :
    (scope.renamed rename).names = scope.names.map rename := by
  simp [Scope.renamed, Scope.names]

theorem Scope.count_renamed (scope : Scope) (rename : String → String) :
    (scope.renamed rename).count = scope.count := by
  simp [Scope.renamed, Scope.count, Function.comp_def]

theorem Scope.renamed_append (first second : Scope) (rename : String → String) :
    Scope.renamed (first ++ second) rename = first.renamed rename ++ second.renamed rename :=
  List.map_append

theorem Scope.perm_renamed {scope scope' : Scope} (rename : String → String)
    (perm : scope.Perm scope') : (scope.renamed rename).Perm (scope'.renamed rename) := perm.map _

theorem sumOver_rename {f : Env → ℚ} {used : Set String} (depends : DependsOn f used)
    {rename : String → String} {scope : Scope}
    (apart : ∀ name ∈ used, ∀ other ∈ scope.names, rename name = rename other → name = other)
    (env : Env) :
    sumOver (fun env => f fun name => env (rename name)) (scope.renamed rename) env =
      sumOver f scope fun name => env (rename name) := by
  induction scope generalizing env with
  | nil => rfl
  | cons entry rest ih =>
      refine Finset.sum_congr rfl fun i _ => ?_
      refine (ih (fun name member other inside => apart name member other (.tail _ inside)) _).trans ?_
      refine sumOver_dependsOn depends rest fun name member => ?_
      by_cases isEntry : name = entry.1
      · rw [isEntry, Function.update_self, Function.update_self]
      · rw [Function.update_of_ne isEntry, Function.update_of_ne]
        exact fun same => isEntry (apart name member.1 entry.1 (.head _) same)

theorem sum_integersFrom (f : Int → ℚ) (low high : Int) :
    ((Realizer.integersFrom low (high - low + 1)).map f).sum = ∑ i ∈ Icc low high, f i := by
  have nodup : (Realizer.integersFrom low (high - low + 1)).Nodup := by
    unfold Realizer.integersFrom
    refine List.Nodup.map (fun m n same => ?_) List.nodup_range
    simpa using same
  rw [← List.sum_toFinset f nodup]
  congr 1
  ext i
  rw [List.mem_toFinset, Realizer.mem_integersFrom, Finset.mem_Icc]
  omega

theorem sumOver_update {f : Env → ℚ} {name : String} {scope : Scope} (absent : name ∉ scope.names)
    (i : Int) (env : Env) : sumOver (fun env => f (Function.update env name i)) scope env =
      sumOver f scope (Function.update env name i) := by
  induction scope generalizing env with
  | nil => rfl
  | cons entry rest ih =>
      obtain ⟨differs, absentRest⟩ := List.ne_and_not_mem_of_not_mem_cons absent
      refine Finset.sum_congr rfl fun j _ => ?_
      rw [ih absentRest, Function.update_comm differs]

theorem sum_points {f : Env → ℚ} {scope : Scope} (distinct : scope.names.Nodup) (base : Env) :
    (scope.points.map fun point => f (assign scope.names point base)).sum =
      sumOver f scope base := by
  induction scope generalizing f base with
  | nil => simp [Scope.points, Realizer.points, Scope.names, assign, sumOver]
  | cons entry rest ih =>
      obtain ⟨name, low, high⟩ := entry
      obtain ⟨absent, distinctRest⟩ := List.nodup_cons.1 distinct
      have each (i : Int) (point : List Int) :
          assign (Scope.names ((name, low, high) :: rest)) (i :: point) base =
            Function.update (assign (Scope.names rest) point base) name i := rfl
      have listed : Scope.points ((name, low, high) :: rest) =
          (Realizer.integersFrom low (high - low + 1)).flatMap fun i =>
            (Scope.points rest).map (i :: ·) := rfl
      rw [listed, List.map_flatMap, List.flatMap_def, List.sum_flatten]
      simp only [List.map_map, Function.comp_def, each]
      have inner (i : Int) := ih (f := fun env => f (Function.update env name i)) distinctRest base
      simp only [inner, sumOver_update absent]
      exact sum_integersFrom (fun i => sumOver f rest (Function.update base name i)) low high

noncomputable def boxPoints : List (Int × Int) → Finset (List Int)
  | [] => {[]}
  | ends :: rest => (Icc ends.1 ends.2 ×ˢ boxPoints rest).image fun point => point.1 :: point.2

theorem mem_boxPoints {box : List (Int × Int)} {index : List Int} :
    index ∈ boxPoints box ↔ List.Forall₂ Between box index := by
  induction box generalizing index with
  | nil => simp [boxPoints, List.forall₂_nil_left_iff]
  | cons ends rest ih =>
      rw [List.forall₂_cons_left_iff]
      simp only [boxPoints, Finset.mem_image, Finset.mem_product, Finset.mem_Icc, Prod.exists, ih]
      constructor
      · rintro ⟨i, others, ⟨between, within⟩, rfl⟩
        exact ⟨i, others, between, within, rfl⟩
      · rintro ⟨i, others, between, within, rfl⟩
        exact ⟨i, others, ⟨between, within⟩, rfl⟩

theorem sum_boxPoints {g : List Int → ℚ} {names : List String} {box : List (Int × Int)}
    (distinct : names.Nodup) (sameLength : names.length = box.length) (base : Env) :
    ∑ index ∈ boxPoints box, g index =
      sumOver (fun env => g (names.map env)) (names.zip box) base := by
  induction box generalizing g names base with
  | nil =>
      rw [List.length_eq_zero_iff.1 sameLength]
      simp [boxPoints, sumOver]
  | cons ends rest ih =>
      cases names with
      | nil => cases sameLength
      | cons name others =>
          obtain ⟨absent, distinctOthers⟩ := List.nodup_cons.1 distinct
          have lengths : others.length = rest.length := by simpa using sameLength
          have injective : Set.InjOn (fun point : Int × List Int => point.1 :: point.2)
              ↑(Icc ends.1 ends.2 ×ˢ boxPoints rest) := by
            rintro ⟨i, v⟩ _ ⟨j, w⟩ _ same
            exact Prod.ext (List.cons.inj same).1 (List.cons.inj same).2
          rw [boxPoints, Finset.sum_image injective, Finset.sum_product]
          refine Finset.sum_congr rfl fun i _ => ?_
          rw [ih distinctOthers lengths (Function.update base name i)]
          refine sumOver_congr ?_ fun env reaches => ?_
          · rw [Scope.names, List.map_fst_zip lengths.le]
            exact distinctOthers
          · have here : env name = i := by
              rw [reaches.outside name, Function.update_self]
              rw [Scope.names, List.map_fst_zip lengths.le]
              exact absent
            rw [List.map_cons, here]

theorem Scope.Reaches.append {first second : Scope} {base env : Env}
    (reaches : Scope.Reaches (first ++ second) base env) :
    (∀ entry ∈ first, Between entry.2 (env entry.1)) ∧ ∀ entry ∈ second, Between entry.2 (env entry.1) :=
  List.forall_mem_append.1 reaches.between

theorem names_zip {names : List String} {box : List (Int × Int)}
    (sameLength : names.length = box.length) : Scope.names (names.zip box) = names :=
  List.map_fst_zip sameLength.le

theorem Scope.Reaches.eq_assign {names : List String} {box : List (Int × Int)} {env : Env}
    (sameLength : names.length = box.length) (reaches : Scope.Reaches (names.zip box) zeroEnv env) :
    env = assign names (names.map env) zeroEnv := by
  funext name
  by_cases inside : name ∈ names
  · exact (assign_map inside).symm
  · rw [assign_other inside]
    exact reaches.outside name (by rwa [names_zip sameLength])

theorem sumOver_box (f : Env → ℚ) {names : List String} {box : List (Int × Int)}
    (distinct : names.Nodup) (sameLength : names.length = box.length) :
    sumOver f (names.zip box) zeroEnv =
      ∑ index ∈ boxPoints box, f (assign names index zeroEnv) := by
  rw [sum_boxPoints distinct sameLength zeroEnv]
  refine sumOver_congr ?_ fun env reaches => ?_
  · rwa [names_zip sameLength]
  · exact congrArg f (reaches.eq_assign sameLength)

end ReverseMode
