import LoopInvariant.Proofs.Halfspace

/-! A point on the boundary of a half-space is reflected to its neighbours along the axes. Along an
axis whose coefficient is not zero they lie on different sides, and a half-space that has a boundary
has such an axis. -/
namespace LoopInvariant

def Point.moved (p : Point) (axis : ℕ) (delta : ℤ) : Point :=
  ⟨p.coords.modify axis fun x => Int64.ofInt (x.toInt + delta)⟩

lemma Point.dim_moved (p : Point) (axis : ℕ) (delta : ℤ) : (p.moved axis delta).dim = p.dim :=
  List.length_modify _ _ _

/-- No coordinate leaves the range of the words on its way. -/
def Point.Movable (p : Point) (delta : ℤ) : Prop :=
  ∀ x ∈ p.coords, Int64.minValue.toInt ≤ x.toInt + delta ∧ x.toInt + delta ≤ Int64.maxValue.toInt

-- Inferred, the instance would run through all the words.
instance (p : Point) (delta : ℤ) : Decidable (p.Movable delta) := List.decidableBAll _ p.coords

lemma Point.Movable.toInt_ofInt {p : Point} {delta : ℤ} (hin : p.Movable delta) {x : Int64}
    (hx : x ∈ p.coords) : (Int64.ofInt (x.toInt + delta)).toInt = x.toInt + delta := by
  obtain ⟨hlow, hhigh⟩ := hin x hx
  rw [Int64.toInt_minValue] at hlow
  rw [Int64.toInt_maxValue] at hhigh
  exact Int64.toInt_ofInt_of_le hlow (by omega)

lemma Point.coords_moved {p : Point} {delta : ℤ} (hin : p.Movable delta) (axis : ℕ) :
    (p.moved axis delta).coords.map Int64.toInt =
      (p.coords.map Int64.toInt).modify axis (· + delta) := by
  apply List.ext_getElem
  · rw [List.length_map, List.length_modify, List.length_map]
    exact p.dim_moved axis delta
  · intro j hj hj'
    have hmem : j < p.coords.length := by simpa using hj'
    rw [List.getElem_map, List.getElem_modify, List.getElem_map]
    simp only [moved, List.getElem_modify]
    split_ifs
    · exact hin.toInt_ofInt (List.getElem_mem hmem)
    · rfl

namespace Halfspace

variable {h : Halfspace} {p : Point} {m : Int64}

/-! ### The form along an axis -/

lemma sum_modify (as : List Int64) (xs : List ℤ) {i : ℕ} (hi : i < xs.length) (delta : ℤ) :
    (List.zipWith (fun a x => a.toInt * x) as (xs.modify i (· + delta))).sum =
      (List.zipWith (fun a x => a.toInt * x) as xs).sum + (as.getD i 0).toInt * delta := by
  induction as generalizing xs i with
  | nil => simp
  | cons a as ih =>
    cases xs with
    | nil => simp at hi
    | cons x xs =>
      cases i with
      | zero =>
        rw [List.modify_zero_cons, List.zipWith_cons_cons, List.zipWith_cons_cons, List.sum_cons,
          List.sum_cons, List.getD_cons_zero]
        ring
      | succ i =>
        rw [List.modify_succ_cons, List.zipWith_cons_cons, List.zipWith_cons_cons, List.sum_cons,
          List.sum_cons, ih xs (by simpa using hi), List.getD_cons_succ]
        ring

lemma exact_modify (h : Halfspace) (xs : List ℤ) {i : ℕ} (hi : i < xs.length) (delta : ℤ) :
    h.exact (xs.modify i (· + delta)) = h.exact xs + (h.coeffs.getD i 0).toInt * delta := by
  rw [exact, sum_modify h.coeffs xs hi, exact]
  ring

/-- From a point on the boundary, the value along an axis is a multiple of its coefficient. -/
lemma eval_moved (hp : h.eval p = .ok 0) {delta : ℤ} (hin : p.Movable delta) {i : ℕ}
    (hi : i < p.dim) (hfits : h.Fits (p.moved i delta)) :
    h.eval (p.moved i delta) = .ok (delta * (h.coeffs.getD i 0).toInt) := by
  obtain ⟨hdim, _, hzero⟩ := eval_eq_ok.mp hp
  refine eval_eq_ok.mpr ⟨(p.dim_moved i delta).trans hdim, hfits, ?_⟩
  have hlen : i < (p.coords.map Int64.toInt).length := by
    rw [List.length_map]
    exact hi
  rw [Point.coords_moved hin, exact_modify h _ hlen, hzero, zero_add, mul_comm]

/-! ### Reflection in the boundary -/

lemma exists_mem_ne_zero (hdeg : h.isDegenerate = false) : ∃ a ∈ h.coeffs, a.toInt ≠ 0 := by
  obtain ⟨a, ha, hne⟩ := List.all_eq_false.mp hdeg
  refine ⟨a, ha, fun hzero => ?_⟩
  have hword : a = 0 := Int64.toInt_inj.mp hzero
  simp [hword] at hne

lemma sum_squares_pos (hdeg : h.isDegenerate = false) : 0 < (products h.coeffs h.coeffs).sum := by
  obtain ⟨a, ha, hzero⟩ := exists_mem_ne_zero hdeg
  rw [products, List.zipWith_self]
  have hle : a.toInt * a.toInt ≤ (h.coeffs.map fun a => a.toInt * a.toInt).sum := by
    apply List.single_le_sum
    · rw [List.forall_mem_map]
      exact fun x _ => mul_self_nonneg x.toInt
    · exact List.mem_map_of_mem ha
  exact lt_of_lt_of_le (mul_self_pos.mpr hzero) hle

lemma reflect_of_eval_zero (hdeg : h.isDegenerate = false) (hnorm : SumsWide h.coeffs h.coeffs)
    (hp : h.eval p = .ok 0) : h.reflect p m = Result.orFault (neighbours m p) .arithmetic := by
  have hsquare : sumProducts 0 (h.coeffs.zip h.coeffs) = some (products h.coeffs h.coeffs).sum :=
    (sumProducts_zero _ _).mpr ⟨hnorm, rfl⟩
  unfold reflect
  rw [Result.bind_of_ok (Result.orFault_eq_ok.mpr hsquare), if_neg (sum_squares_pos hdeg).ne']
  exact (Result.bind_of_ok hp).trans (if_pos rfl)

lemma shifted_eq {delta : Int64} {axis : ℕ} (haxis : axis < p.dim)
    (hin : p.Movable delta.toInt) :
    ((Word.add? (p.coords.getD axis 0) delta).bind fun x => some (Point.mk (p.coords.set axis x))) =
      some (p.moved axis delta.toInt) := by
  have hmem : p.coords.getD axis 0 ∈ p.coords := by
    rw [List.getD_eq_getElem _ _ haxis]
    exact List.getElem_mem haxis
  have hadd : Word.add? (p.coords.getD axis 0) delta =
      some (Int64.ofInt ((p.coords.getD axis 0).toInt + delta.toInt)) :=
    Word.ofInt?_eq_some.mpr (hin.toInt_ofInt hmem)
  rw [hadd, Option.bind_some, Point.moved, List.modify_eq_set]
  rfl

lemma neighbours_eq (hm : 0 < m.toInt) (hback : p.Movable (-m.toInt)) (hon : p.Movable m.toInt) :
    neighbours m p = some ((List.range p.dim).flatMap fun i =>
      [p.moved i (-m.toInt), p.moved i m.toInt]) := by
  have hneg : (Int64.ofInt (-m.toInt)).toInt = -m.toInt := by
    have := m.toInt_lt
    apply Int64.toInt_ofInt_of_le <;> omega
  have hneg? : Word.neg? m = some (Int64.ofInt (-m.toInt)) := Word.ofInt?_eq_some.mpr hneg
  unfold neighbours
  simp only [hneg?, Option.bind_eq_bind, Option.bind_some, Option.pure_def]
  rw [Result.mapM_eq_some (g := fun i => [p.moved i (-m.toInt), p.moved i m.toInt]),
    Option.bind_some]
  · rfl
  · intro i hi
    have hi := List.mem_range.mp hi
    rw [← hneg] at hback
    rw [shifted_eq hi hback, Option.bind_some, shifted_eq hi hon, Option.bind_some, hneg]

/-! ### Both sides -/

lemma contains_of_eval_pos {v : ℤ} (hp : h.eval p = .ok v) (hv : 0 < v) :
    h.contains p = .ok true := by
  rw [contains, Result.bind_of_ok hp, decide_eq_true hv]
  rfl

lemma exists_both_sides {qs : List Point} {q q' : Point} {d a : ℤ} (hd : 0 < d) (ha : a ≠ 0)
    (hq : q ∈ qs) (hq' : q' ∈ qs) (heval : h.eval q = .ok (-d * a))
    (heval' : h.eval q' = .ok (d * a)) :
    (∃ q ∈ qs, h.contains q = .ok true) ∧ ∃ q ∈ qs, ∃ v < 0, h.eval q = .ok v := by
  have hneg : -d < 0 := neg_neg_of_pos hd
  rcases lt_or_gt_of_ne ha with hlt | hgt
  · exact ⟨⟨q, hq, contains_of_eval_pos heval (mul_pos_of_neg_of_neg hneg hlt)⟩,
      q', hq', _, mul_neg_of_pos_of_neg hd hlt, heval'⟩
  · exact ⟨⟨q', hq', contains_of_eval_pos heval' (mul_pos hd hgt)⟩,
      q, hq, _, mul_neg_of_neg_of_pos hneg hgt, heval⟩

/-- The reflection of a point on the boundary consists of its neighbours along the axes, the lesser
one first, provided that no coordinate and no sum is too large. The form is there the coefficient of
the axis times the margin, negated for the lesser one. Some neighbour is strictly inside, and some
neighbour is strictly outside. -/
theorem reflect_boundary (h : Halfspace) (hdeg : h.isDegenerate = false) {p : Point}
    (hp : h.eval p = .ok 0) {m : Int64} (hm : 0 < m)
    (hback : p.Movable (-m.toInt)) (hon : p.Movable m.toInt) (hnorm : SumsWide h.coeffs h.coeffs)
    (hfits : ∀ i < p.dim, h.Fits (p.moved i (-m.toInt)) ∧ h.Fits (p.moved i m.toInt)) :
    ∃ qs, h.reflect p m = .ok qs ∧
      qs = (List.range p.dim).flatMap (fun i => [p.moved i (-m.toInt), p.moved i m.toInt]) ∧
      qs.length = 2 * p.dim ∧
      (∀ i < p.dim,
        (p.moved i (-m.toInt)).coords.map Int64.toInt =
          (p.coords.map Int64.toInt).modify i (· - m.toInt) ∧
        (p.moved i m.toInt).coords.map Int64.toInt =
          (p.coords.map Int64.toInt).modify i (· + m.toInt) ∧
        h.eval (p.moved i (-m.toInt)) = .ok (-m.toInt * (h.coeffs.getD i 0).toInt) ∧
        h.eval (p.moved i m.toInt) = .ok (m.toInt * (h.coeffs.getD i 0).toInt)) ∧
      (∃ q ∈ qs, h.contains q = .ok true) ∧ ∃ q ∈ qs, ∃ v < 0, h.eval q = .ok v := by
  have hpos : 0 < m.toInt := Int64.lt_iff_toInt_lt.mp hm
  have hreflect : h.reflect p m = .ok ((List.range p.dim).flatMap fun i =>
      [p.moved i (-m.toInt), p.moved i m.toInt]) := by
    rw [reflect_of_eval_zero hdeg hnorm hp, neighbours_eq hpos hback hon]
    rfl
  have heval : ∀ i < p.dim,
      h.eval (p.moved i (-m.toInt)) = .ok (-m.toInt * (h.coeffs.getD i 0).toInt) ∧
      h.eval (p.moved i m.toInt) = .ok (m.toInt * (h.coeffs.getD i 0).toInt) :=
    fun i hi => ⟨eval_moved hp hback hi (hfits i hi).1, eval_moved hp hon hi (hfits i hi).2⟩
  refine ⟨_, hreflect, rfl, ?_, fun i hi => ⟨Point.coords_moved hback i, Point.coords_moved hon i,
    heval i hi⟩, ?_⟩
  · rw [List.length_flatMap]
    simp [mul_comm]
  · obtain ⟨a, ha, hne⟩ := exists_mem_ne_zero hdeg
    obtain ⟨i, hi, rfl⟩ := List.getElem_of_mem ha
    have hdim : i < p.dim := (eval_eq_ok.mp hp).1 ▸ hi
    obtain ⟨heval, heval'⟩ := heval i hdim
    rw [List.getD_eq_getElem _ _ hi] at heval heval'
    have hmem (q : Point) (hq : q ∈ [p.moved i (-m.toInt), p.moved i m.toInt]) :
        q ∈ (List.range p.dim).flatMap fun i => [p.moved i (-m.toInt), p.moved i m.toInt] :=
      List.mem_flatMap.mpr ⟨i, List.mem_range.mpr hdim, hq⟩
    exact exists_both_sides hpos hne (hmem _ (by simp)) (hmem _ (by simp)) heval heval'

def slanted : Halfspace := ⟨[-2, 0, 3], 1⟩

/-- The neighbours along the second axis stay on the boundary, the others do not. -/
theorem reflect_boundary_slanted :
    slanted.isDegenerate = false ∧ slanted.eval ⟨[2, 9, 1]⟩ = .ok 0 ∧
    ∃ qs, slanted.reflect ⟨[2, 9, 1]⟩ 20 = .ok qs ∧
      qs = [⟨[-18, 9, 1]⟩, ⟨[22, 9, 1]⟩, ⟨[2, -11, 1]⟩, ⟨[2, 29, 1]⟩, ⟨[2, 9, -19]⟩, ⟨[2, 9, 21]⟩] ∧
      (∃ q ∈ qs, slanted.contains q = .ok true) ∧ ∃ q ∈ qs, ∃ v < 0, slanted.eval q = .ok v := by
  have hdeg : slanted.isDegenerate = false := by decide +kernel
  have hp : slanted.eval ⟨[2, 9, 1]⟩ = .ok 0 := by decide +kernel
  obtain ⟨qs, hreflect, hqs, _, _, hsides⟩ := reflect_boundary slanted hdeg hp (m := 20)
    (by decide +kernel) (by decide +kernel) (by decide +kernel) (by decide +kernel)
    (by decide +kernel)
  exact ⟨hdeg, hp, qs, hreflect, hqs.trans (by decide +kernel), hsides⟩

end Halfspace
end LoopInvariant
