import LoopInvariant.Proofs.Model
import LoopInvariant.Proofs.Regions

/-! A half-space and its formula are about the same points. The form has its exact value unless a
partial sum leaves the wide integers, and then it has none. The evaluator may come to an overflow
before that, but never to the other truth value. -/
namespace LoopInvariant

namespace Halfspace

variable {h : Halfspace} {p : Point} {vars : List Var}

/-! ### Wide sums -/

def Wide (n : ℤ) : Prop := -wideLimit ≤ n ∧ n < wideLimit

instance : DecidablePred Wide :=
  fun n => inferInstanceAs (Decidable (-wideLimit ≤ n ∧ n < wideLimit))

lemma wide?_eq_some {n k : ℤ} : wide? n = some k ↔ Wide n ∧ n = k := by
  unfold wide? Wide
  split_ifs with hn
  · rw [Option.some_inj, and_iff_right hn]
  · simp [hn]

def products (as xs : List Int64) : List ℤ := List.zipWith (fun a x => a.toInt * x.toInt) as xs

/-- Added up from the left, the products stay among the wide integers. -/
def SumsWide (as xs : List Int64) : Prop := ∀ ts ∈ (products as xs).inits, Wide ts.sum

instance (as xs : List Int64) : Decidable (SumsWide as xs) :=
  inferInstanceAs (Decidable (∀ ts ∈ (products as xs).inits, Wide ts.sum))

/-- With a first summand that is wide, there is a sum exactly if all partial sums are wide. -/
lemma sumProducts_eq_some {acc n : ℤ} (hacc : Wide acc) (as xs : List Int64) :
    sumProducts acc (as.zip xs) = some n ↔
      (∀ ts ∈ (products as xs).inits, Wide (acc + ts.sum)) ∧ acc + (products as xs).sum = n := by
  induction as generalizing acc xs with
  | nil => simp [sumProducts, products, hacc]
  | cons a as ih =>
    cases xs with
    | nil => simp [sumProducts, products, hacc]
    | cons x xs =>
      have hproducts : products (a :: as) (x :: xs) = a.toInt * x.toInt :: products as xs := rfl
      rw [hproducts, List.inits_cons, List.forall_mem_cons, List.forall_mem_map, List.sum_cons,
        List.sum_nil, add_zero, and_iff_right hacc, List.zip_cons_cons, sumProducts,
        Option.bind_eq_bind, Option.bind_eq_some_iff]
      simp only [List.sum_cons, ← add_assoc, wide?_eq_some]
      constructor
      · rintro ⟨_, ⟨hwide, rfl⟩, hsum⟩
        exact (ih hwide xs).mp hsum
      · intro hsum
        have hwide : Wide (acc + a.toInt * x.toInt) := by
          simpa using hsum.1 [] (List.mem_inits _ _ |>.mpr List.nil_prefix)
        exact ⟨_, ⟨hwide, rfl⟩, (ih hwide xs).mpr hsum⟩

lemma sumProducts_zero {n : ℤ} (as xs : List Int64) :
    sumProducts 0 (as.zip xs) = some n ↔ SumsWide as xs ∧ (products as xs).sum = n := by
  have hzero : Wide 0 := by decide
  rw [sumProducts_eq_some hzero, SumsWide]
  simp only [zero_add]

/-! ### The value at a point -/

/-- No sum on the way to the value at a point leaves the wide integers. -/
def Fits (h : Halfspace) (p : Point) : Prop :=
  SumsWide h.coeffs p.coords ∧ Wide (h.exact (p.coords.map Int64.toInt))

instance (h : Halfspace) (p : Point) : Decidable (h.Fits p) :=
  inferInstanceAs (Decidable (_ ∧ _))

lemma exact_coords (h : Halfspace) (p : Point) :
    h.exact (p.coords.map Int64.toInt) = (products h.coeffs p.coords).sum + h.constant.toInt := by
  rw [exact, List.zipWith_map_right, products]

lemma eval_eq_ok {v : ℤ} : h.eval p = .ok v ↔
    p.dim = h.coeffs.length ∧ h.Fits p ∧ h.exact (p.coords.map Int64.toInt) = v := by
  unfold eval
  split_ifs with hdim
  · rw [and_iff_right hdim, Result.orFault_eq_ok, Option.bind_eq_bind, Option.bind_eq_some_iff,
      Fits, exact_coords]
    simp only [sumProducts_zero, wide?_eq_some]
    constructor
    · rintro ⟨_, ⟨hsums, rfl⟩, hwide, rfl⟩
      exact ⟨⟨hsums, hwide⟩, rfl⟩
    · rintro ⟨⟨hsums, hwide⟩, rfl⟩
      exact ⟨_, ⟨hsums, rfl⟩, hwide, rfl⟩
  · simp [hdim]

lemma eval_of_fits (hdim : p.dim = h.coeffs.length) (hfits : h.Fits p) :
    h.eval p = .ok (h.exact (p.coords.map Int64.toInt)) :=
  eval_eq_ok.mpr ⟨hdim, hfits, rfl⟩

lemma contains_of_fits (hdim : p.dim = h.coeffs.length) (hfits : h.Fits p) :
    h.contains p = .ok (decide (0 < h.exact (p.coords.map Int64.toInt))) :=
  Result.bind_of_ok (eval_of_fits hdim hfits)

lemma eval_eq_fault (hdim : p.dim = h.coeffs.length) :
    h.eval p = .error (.fault .arithmetic) ↔ ¬h.Fits p := by
  have honly : Result.FailsOnly (h.eval p) (· = .fault .arithmetic) := by
    unfold eval
    rw [if_pos hdim]
    exact Result.failsOnly_orFault rfl
  constructor
  · intro hfault hfits
    rw [eval_of_fits hdim hfits] at hfault
    cases hfault
  · intro hfits
    cases hv : h.eval p with
    | ok v => exact absurd (eval_eq_ok.mp hv).2.1 hfits
    | error f => rw [honly f hv]

/-! ### The formula at a point -/

lemma map_value_ofList (hnodup : vars.Nodup) {xs : List Int64} (hlen : vars.length = xs.length) :
    vars.map (Model.ofList (vars.zip xs)).value = xs := by
  have hfst : ((vars.zip xs).map (·.1)).Nodup := by
    rw [List.map_fst_zip hlen.le]
    exact hnodup
  apply List.ext_getElem
  · rw [List.length_map, hlen]
  · intro i hi hi'
    have hmem : (vars[i], xs[i]) ∈ vars.zip xs := by
      rw [List.length_map] at hi
      rw [List.mem_iff_getElem]
      exact ⟨i, by rw [List.length_zip]; omega, List.getElem_zip⟩
    have hget : (Model.ofList (vars.zip xs)).get? vars[i] = some xs[i] :=
      Model.get?_extend_of_mem hfst hmem
    rw [List.getElem_map, Model.value, hget, Option.getD_some]

lemma evalBool_toExpr {e : Expr} (he : h.toExpr vars = .ok e) {m : Model}
    (hm : vars.map m.value = p.coords) :
    m.evalBool e = .ok (decide (0 < h.exact (p.coords.map Int64.toInt))) ∨
      ∃ activity, m.evalBool e = .error (.error (.overflow activity)) := by
  have hvalues : vars.map m.valuation = p.coords.map Int64.toInt := by
    rw [← hm, List.map_map]
    rfl
  have heval := (m.eval_upToOverflow e).2 (sorted_toExpr he)
  cases hr : m.evalBool e with
  | ok b =>
    rw [hr] at heval
    have hb : b = e.truth m.valuation := heval
    left
    rw [hb, Except.ok.injEq, Bool.eq_iff_iff, decide_eq_true_iff, truth_toExpr he, hvalues]
  | error f =>
    rw [hr] at heval
    obtain ⟨activity, rfl⟩ := heval
    exact .inr ⟨activity, rfl⟩

/-- The form has no value at a point exactly if a sum leaves the wide integers. If none does, it has
its exact value there, and the formula over any distinct variables holds exactly if the half-space
contains the point. The evaluator finds the same, unless it comes to an overflow. -/
theorem formula_agrees (h : Halfspace) {vars : List Var} (hnodup : vars.Nodup)
    (hvars : vars.length = h.coeffs.length) {p : Point} (hdim : p.dim = h.coeffs.length) :
    (h.eval p = .error (.fault .arithmetic) ↔ ¬h.Fits p) ∧
    (h.Fits p → ∃ b e, h.eval p = .ok (h.exact (p.coords.map Int64.toInt)) ∧
      h.contains p = .ok b ∧ (b = true ↔ 0 < h.exact (p.coords.map Int64.toInt)) ∧
      h.toExpr vars = .ok e ∧ e.Sorted .formula ∧
      (∀ ρ : Valuation, vars.map ρ = p.coords.map Int64.toInt → (e.truth ρ = true ↔ b = true)) ∧
      (∀ m : Model, vars.map m.value = p.coords →
        m.evalBool e = .ok b ∨ ∃ activity, m.evalBool e = .error (.error (.overflow activity))) ∧
      vars.map (Model.ofList (vars.zip p.coords)).value = p.coords) := by
  refine ⟨eval_eq_fault hdim, fun hfits => ?_⟩
  obtain ⟨e, he⟩ : ∃ e, h.toExpr vars = .ok e := by
    unfold toExpr
    exact ⟨_, if_pos hvars⟩
  refine ⟨_, e, eval_of_fits hdim hfits, contains_of_fits hdim hfits, decide_eq_true_iff, he,
    sorted_toExpr he, fun ρ hρ => ?_, fun m hm => evalBool_toExpr he hm,
    map_value_ofList hnodup (hvars.trans hdim.symm)⟩
  rw [truth_toExpr he, hρ, decide_eq_true_iff]

def steep : Halfspace := ⟨[-9223372036854775808, 3], -1⟩

/-- The first product is too large for the evaluator, but not for the sum. -/
theorem formula_agrees_steep :
    [Var.mk "x" none, Var.mk "y" none].Nodup ∧ steep.Fits ⟨[-9223372036854775808, 5]⟩ ∧
    steep.contains ⟨[-9223372036854775808, 5]⟩ = .ok true ∧
    ∃ e, steep.toExpr [⟨"x", none⟩, ⟨"y", none⟩] = .ok e ∧
      e.truth (Model.ofList [(⟨"x", none⟩, -9223372036854775808), (⟨"y", none⟩, 5)]).valuation =
        true ∧
      ∃ activity,
        (Model.ofList [(⟨"x", none⟩, -9223372036854775808), (⟨"y", none⟩, 5)]).evalBool e =
          .error (.error (.overflow activity)) := by
  have hnodup : [Var.mk "x" none, Var.mk "y" none].Nodup := by decide
  have hfits : steep.Fits ⟨[-9223372036854775808, 5]⟩ := by decide +kernel
  have hcontains : steep.contains ⟨[-9223372036854775808, 5]⟩ = .ok true := by decide +kernel
  obtain ⟨b, e, _, hb, _, he, _, htruth, heval, hvalues⟩ :=
    (formula_agrees steep hnodup rfl (p := ⟨[-9223372036854775808, 5]⟩) rfl).2 hfits
  obtain rfl : true = b := Except.ok.inj (hcontains.symm.trans hb)
  refine ⟨hnodup, hfits, hcontains, e, he, (htruth _ ?_).mpr rfl, (heval _ hvalues).resolve_left ?_⟩
  · decide +kernel
  · rw [(toExpr_eq_ok he).2]
    decide +kernel

end Halfspace
end LoopInvariant
