import LoopInvariant.Tableau
import LoopInvariant.Proofs.LinearForm

/-! Pivoting decides the bounds. Every pivot keeps the solutions of the rows, the current values
solve them, and the columns that are not basic stay within their bounds. A row that no column can
repair is therefore a contradiction. -/
namespace LoopInvariant.Tableau

variable {n m : ℕ}

/-- The defined column of every row is the combination that the row says. -/
def Solves (t : Tableau n m) (x : Fin (n + m) → ℚ) : Prop :=
  ∀ r, x (t.basic.get r) = ∑ j, t.entry r j * x j

def InBounds (t : Tableau n m) (j : Fin (n + m)) (q : ℚ) : Prop :=
  (∀ l, t.lower.get j = some l → l ≤ q) ∧ ∀ u, t.upper.get j = some u → q ≤ u

/-- What holds of every tableau that pivoting goes through. -/
structure Valid (t : Tableau n m) : Prop where
  basic_injective : Function.Injective t.basic.get
  isBasic_iff : ∀ j, t.isBasic.get j = true ↔ ∃ r, t.basic.get r = j
  entry_basic : ∀ r k, t.entry r (t.basic.get k) = 0
  lower_le_upper : ∀ j l u, t.lower.get j = some l → t.upper.get j = some u → l ≤ u
  value_solves : t.Solves t.value.get
  inBounds : ∀ j, (∀ r, t.basic.get r ≠ j) → t.InBounds j (t.value.get j)

def basis (t : Tableau n m) : Finset (Fin (n + m)) := Finset.univ.image t.basic.get

lemma basic_mem_basis (t : Tableau n m) (r : Fin m) : t.basic.get r ∈ t.basis :=
  Finset.mem_image_of_mem _ (Finset.mem_univ r)

lemma notMem_basis {t : Tableau n m} {j : Fin (n + m)} : j ∉ t.basis ↔ ∀ r, t.basic.get r ≠ j := by
  simp [basis]

/-! ### Reading a tableau after a pivot -/

lemma rowOf?_eq_some {t : Tableau n m} {j : Fin (n + m)} {r : Fin m} (h : t.rowOf? j = some r) :
    t.basic.get r = j := by
  simpa using List.find?_some h

lemma rowOf?_eq_none {t : Tableau n m} {j : Fin (n + m)} :
    t.rowOf? j = none ↔ ∀ r, t.basic.get r ≠ j := by
  simp [rowOf?]

lemma Valid.rowOf?_basic {t : Tableau n m} (hv : t.Valid) (r : Fin m) :
    t.rowOf? (t.basic.get r) = some r := by
  cases h : t.rowOf? (t.basic.get r) with
  | none => exact absurd rfl (rowOf?_eq_none.mp h r)
  | some k => rw [hv.basic_injective (rowOf?_eq_some h)]

variable (t : Tableau n m) (r : Fin m) (j : Fin (n + m)) (q : ℚ)

lemma basic_pivot (k : Fin m) :
    (t.pivot r j q).basic.get k = if k = r then j else t.basic.get k := by
  simp only [pivot, Vector.get_eq_getElem, Vector.getElem_set]
  by_cases h : k = r
  · simp [h]
  · have hne : ¬(r : ℕ) = k := fun he => h (Fin.ext he.symm)
    simp [h, hne]

lemma isBasic_pivot (l : Fin (n + m)) :
    (t.pivot r j q).isBasic.get l = true ↔
      l = j ∨ l ≠ t.basic.get r ∧ t.isBasic.get l = true := by
  have hval (i : Fin (n + m)) : (i : ℕ) = l ↔ l = i := by rw [eq_comm, Fin.val_inj]
  simp only [pivot, Vector.get_eq_getElem, Vector.getElem_set, hval]
  by_cases hj : l = j
  · simp [hj]
  · by_cases hb : l = t.basic.get r <;> simp [hj, hb]

lemma get_solveFor (l : Fin (n + m)) :
    (t.solveFor r j).get l =
      if l = t.basic.get r then 1 / t.entry r j
      else if l = j then 0 else -t.entry r l / t.entry r j := by
  simp [solveFor]

lemma entry_pivot (k : Fin m) (l : Fin (n + m)) :
    (t.pivot r j q).entry k l =
      if k = r then (t.solveFor r j).get l
      else if l = j then 0 else t.entry k l + t.entry k j * (t.solveFor r j).get l := by
  simp only [pivot, entry, Vector.get_ofFn]
  by_cases hk : k = r
  · simp [hk]
  · by_cases hf : (t.rows.get k).get j = 0
    · by_cases hl : l = j <;> simp [hk, hf, hl]
    · simp [hk, hf]

lemma value_pivot (l : Fin (n + m)) :
    (t.pivot r j q).value.get l =
      if l = t.basic.get r then q
      else if l = j then t.value.get j + (q - t.value.get (t.basic.get r)) / t.entry r j
      else
        match t.rowOf? l with
        | some k =>
          t.value.get l + t.entry k j * ((q - t.value.get (t.basic.get r)) / t.entry r j)
        | none => t.value.get l :=
  Vector.get_ofFn _ l

variable {t r j q}

/-! ### A pivot keeps the solutions -/

/-- The solved row is a combination of the old row and of the two columns that change places. -/
lemma sum_solveFor (hv : t.Valid) (ha : t.entry r j ≠ 0) (hj : ∀ k, t.basic.get k ≠ j)
    (x : Fin (n + m) → ℚ) :
    ∑ l, (t.solveFor r j).get l * x l =
      (x (t.basic.get r) - ∑ l, t.entry r l * x l) / t.entry r j + x j := by
  have hterm (l : Fin (n + m)) :
      (t.solveFor r j).get l * x l =
        (if l = t.basic.get r then x l / t.entry r j else 0) -
          t.entry r l * x l / t.entry r j + if l = j then x l else 0 := by
    rw [get_solveFor]
    by_cases hb : l = t.basic.get r
    · have hl : l ≠ j := hb ▸ hj r
      rw [if_pos hb, if_pos hb, if_neg hl, hb, hv.entry_basic]
      ring
    · by_cases hl : l = j
      · rw [if_neg hb, if_pos hl, if_neg hb, if_pos hl, hl]
        field_simp
        ring
      · rw [if_neg hb, if_neg hl, if_neg hb, if_neg hl]
        ring
  simp only [hterm, Finset.sum_add_distrib, Finset.sum_sub_distrib, Finset.sum_ite_eq',
    Finset.mem_univ, if_true, ← Finset.sum_div]
  ring

lemma row_pivot_self (hv : t.Valid) (ha : t.entry r j ≠ 0) (hj : ∀ k, t.basic.get k ≠ j)
    (x : Fin (n + m) → ℚ) :
    x j = ∑ l, (t.solveFor r j).get l * x l ↔
      x (t.basic.get r) = ∑ l, t.entry r l * x l := by
  rw [sum_solveFor hv ha hj, right_eq_add, div_eq_zero_iff, sub_eq_zero, or_iff_left ha]

lemma sum_entry_pivot {k : Fin m} (hk : k ≠ r) {x : Fin (n + m) → ℚ}
    (hx : x j = ∑ l, (t.solveFor r j).get l * x l) (hsj : (t.solveFor r j).get j = 0) :
    ∑ l, (t.pivot r j q).entry k l * x l = ∑ l, t.entry k l * x l := by
  have hterm (l : Fin (n + m)) :
      (t.pivot r j q).entry k l * x l =
        t.entry k l * x l + t.entry k j * ((t.solveFor r j).get l * x l) -
          if l = j then t.entry k j * x l else 0 := by
    rw [entry_pivot, if_neg hk]
    by_cases hl : l = j
    · rw [if_pos hl, if_pos hl, hl, hsj]
      ring
    · rw [if_neg hl, if_neg hl]
      ring
  simp only [hterm, Finset.sum_sub_distrib, Finset.sum_add_distrib, Finset.sum_ite_eq',
    Finset.mem_univ, if_true, ← Finset.mul_sum, ← hx]
  ring

theorem pivot_solves (hv : t.Valid) (ha : t.entry r j ≠ 0) (hj : ∀ k, t.basic.get k ≠ j)
    (x : Fin (n + m) → ℚ) : (t.pivot r j q).Solves x ↔ t.Solves x := by
  have hsj : (t.solveFor r j).get j = 0 := by
    rw [get_solveFor, if_neg (hj r).symm, if_pos rfl]
  have hself : x ((t.pivot r j q).basic.get r) = ∑ l, (t.pivot r j q).entry r l * x l ↔
      x (t.basic.get r) = ∑ l, t.entry r l * x l := by
    simp only [basic_pivot, entry_pivot, if_true]
    exact row_pivot_self hv ha hj x
  have hother (hx : x (t.basic.get r) = ∑ l, t.entry r l * x l) (k : Fin m) (hk : k ≠ r) :
      x ((t.pivot r j q).basic.get k) = ∑ l, (t.pivot r j q).entry k l * x l ↔
        x (t.basic.get k) = ∑ l, t.entry k l * x l := by
    rw [basic_pivot, if_neg hk,
      sum_entry_pivot hk ((row_pivot_self hv ha hj x).mpr hx) hsj]
  constructor
  · intro h k
    have hr := hself.mp (h r)
    by_cases hk : k = r
    · rw [hk]
      exact hr
    · exact (hother hr k hk).mp (h k)
  · intro h k
    by_cases hk : k = r
    · rw [hk]
      exact hself.mpr (h r)
    · exact (hother (h r) k hk).mpr (h k)

/-- The new values: the leaving column is at its target, the entering one has moved, and the basic
columns have followed it. -/
lemma value_pivot_basic (hv : t.Valid) (ha : t.entry r j ≠ 0) (hj : ∀ k, t.basic.get k ≠ j)
    (k : Fin m) :
    (t.pivot r j q).value.get (t.basic.get k) = t.value.get (t.basic.get k) +
      t.entry k j * ((q - t.value.get (t.basic.get r)) / t.entry r j) := by
  rw [value_pivot]
  by_cases hk : k = r
  · rw [hk, if_pos rfl]
    field_simp
    ring
  · have hb : t.basic.get k ≠ t.basic.get r := fun he => hk (hv.basic_injective he)
    rw [if_neg hb, if_neg (hj k), hv.rowOf?_basic k]

lemma value_pivot_nonbasic {l : Fin (n + m)} (hl : ∀ k, t.basic.get k ≠ l) (hlj : l ≠ j) :
    (t.pivot r j q).value.get l = t.value.get l := by
  rw [value_pivot, if_neg (hl r).symm, if_neg hlj, rowOf?_eq_none.mpr hl]

lemma value_pivot_solves (hv : t.Valid) (ha : t.entry r j ≠ 0) (hj : ∀ k, t.basic.get k ≠ j) :
    t.Solves (t.pivot r j q).value.get := by
  intro k
  have hterm (l : Fin (n + m)) :
      t.entry k l * (t.pivot r j q).value.get l = t.entry k l * t.value.get l +
        if l = j then t.entry k j * ((q - t.value.get (t.basic.get r)) / t.entry r j) else 0 := by
    by_cases hl : l = j
    · rw [hl, if_pos rfl, value_pivot, if_neg (hj r).symm, if_pos rfl]
      ring
    · rw [if_neg hl, add_zero]
      by_cases hb : ∃ i, t.basic.get i = l
      · obtain ⟨i, rfl⟩ := hb
        rw [hv.entry_basic]
        ring
      · rw [value_pivot_nonbasic (not_exists.mp hb) hl]
  rw [value_pivot_basic hv ha hj k, hv.value_solves k]
  simp only [hterm, Finset.sum_add_distrib, Finset.sum_ite_eq', Finset.mem_univ, if_true]

theorem pivot_valid (hv : t.Valid) (ha : t.entry r j ≠ 0) (hj : ∀ k, t.basic.get k ≠ j)
    (hq : t.InBounds (t.basic.get r) q) : (t.pivot r j q).Valid where
  basic_injective := by
    intro k i h
    rw [basic_pivot, basic_pivot] at h
    by_cases hk : k = r <;> by_cases hi : i = r
    · rw [hk, hi]
    · rw [if_pos hk, if_neg hi] at h
      exact absurd h.symm (hj i)
    · rw [if_neg hk, if_pos hi] at h
      exact absurd h (hj k)
    · rw [if_neg hk, if_neg hi] at h
      exact hv.basic_injective h
  isBasic_iff := by
    intro l
    rw [isBasic_pivot, hv.isBasic_iff]
    simp only [basic_pivot]
    constructor
    · rintro (rfl | ⟨hne, k, rfl⟩)
      · exact ⟨r, if_pos rfl⟩
      · exact ⟨k, if_neg fun hk => hne (by rw [hk])⟩
    · rintro ⟨k, rfl⟩
      by_cases hk : k = r
      · exact .inl (if_pos hk)
      · rw [if_neg hk]
        exact .inr ⟨fun he => hk (hv.basic_injective he), k, rfl⟩
  entry_basic := by
    intro k i
    have hsolved : (t.solveFor r j).get ((t.pivot r j q).basic.get i) = 0 := by
      rw [get_solveFor, basic_pivot]
      by_cases hi : i = r
      · rw [if_pos hi, if_neg (hj r).symm, if_pos rfl]
      · have hb : t.basic.get i ≠ t.basic.get r := fun he => hi (hv.basic_injective he)
        rw [if_neg hi, if_neg hb, if_neg (hj i), hv.entry_basic]
        ring
    rw [entry_pivot, hsolved]
    by_cases hk : k = r
    · rw [if_pos hk]
    · rw [if_neg hk, basic_pivot]
      by_cases hi : i = r
      · rw [if_pos hi, if_pos rfl]
      · rw [if_neg hi, if_neg (hj i), hv.entry_basic]
        ring
  lower_le_upper := hv.lower_le_upper
  value_solves := (pivot_solves hv ha hj _).mpr (value_pivot_solves hv ha hj)
  inBounds := by
    intro l hl
    change t.InBounds l _
    by_cases hb : l = t.basic.get r
    · rw [value_pivot, if_pos hb, hb]
      exact hq
    · have hlj : l ≠ j := by
        have := hl r
        rw [basic_pivot, if_pos rfl] at this
        exact this.symm
      have hnb (k : Fin m) : t.basic.get k ≠ l := by
        by_cases hk : k = r
        · rw [hk]
          exact fun he => hb he.symm
        · have := hl k
          rwa [basic_pivot, if_neg hk] at this
      rw [value_pivot_nonbasic hnb hlj]
      exact hv.inBounds l hnb

/-! ### Steps -/

lemma violatedBound?_eq_some {below : Bool} (h : t.violatedBound? j = some (below, q)) :
    (below = true ∧ t.lower.get j = some q ∧ t.value.get j < q) ∨
      (below = false ∧ t.upper.get j = some q ∧ q < t.value.get j) := by
  have habove (h : ((t.upper.get j).bind fun u =>
      if u < t.value.get j then some (false, u) else none) = some (below, q)) :
      below = false ∧ t.upper.get j = some q ∧ q < t.value.get j := by
    obtain ⟨u, hu, h⟩ := Option.bind_eq_some_iff.mp h
    split_ifs at h with hlt
    cases h
    exact ⟨rfl, hu, hlt⟩
  simp only [violatedBound?] at h
  cases hl : t.lower.get j with
  | none =>
    rw [hl] at h
    exact .inr (habove h)
  | some l =>
    rw [hl] at h
    by_cases hlt : t.value.get j < l
    · simp only [hlt, if_true, Option.some_inj, Prod.mk.injEq] at h
      exact .inl ⟨h.1.symm, by rw [h.2], by rw [← h.2]; exact hlt⟩
    · simp only [hlt, if_false] at h
      exact .inr (habove h)

lemma inBounds_of_violatedBound? (h : t.violatedBound? j = none) :
    t.InBounds j (t.value.get j) := by
  have habove (h : ((t.upper.get j).bind fun u =>
      if u < t.value.get j then some (false, u) else none) = none) :
      ∀ u, t.upper.get j = some u → t.value.get j ≤ u := by
    intro u hu
    by_contra hlt
    simp [hu, not_le.mp hlt] at h
  simp only [violatedBound?] at h
  cases hl : t.lower.get j with
  | none =>
    rw [hl] at h
    exact ⟨by simp [hl], habove h⟩
  | some l =>
    rw [hl] at h
    by_cases hlt : t.value.get j < l
    · simp [hlt] at h
    · simp only [hlt, if_false] at h
      refine ⟨fun k hk => ?_, habove h⟩
      rw [hl, Option.some_inj] at hk
      exact hk ▸ not_lt.mp hlt

lemma leaving?_eq_some {v : Violation m} (h : t.leaving? = some v) :
    t.violatedBound? (t.basic.get v.row) = some (v.below, v.target) ∧
      ∀ l ∈ t.basis, l < t.basic.get v.row → t.violatedBound? l = none := by
  rw [leaving?, ← Fin.findSome?_eq_findSome?_finRange] at h
  obtain ⟨j, hj, hfirst⟩ := Fin.findSome?_eq_some_iff.mp h
  simp only [Option.bind_eq_bind, Option.pure_def, Option.bind_eq_some_iff, Option.some_inj] at hj
  obtain ⟨⟨below, target⟩, hb, row, hr, rfl⟩ := hj
  rw [rowOf?_eq_some hr]
  refine ⟨hb, fun l hl hlt => ?_⟩
  cases hviol : t.violatedBound? l with
  | none => rfl
  | some b =>
    cases hrow : t.rowOf? l with
    | none => exact absurd hl (notMem_basis.mpr (rowOf?_eq_none.mp hrow))
    | some k =>
      have := hfirst l hlt
      simp [hviol, hrow] at this

lemma inBounds_of_leaving? (hv : t.Valid) (h : t.leaving? = none) (j : Fin (n + m)) :
    t.InBounds j (t.value.get j) := by
  by_cases hb : ∃ r, t.basic.get r = j
  · obtain ⟨r, rfl⟩ := hb
    apply inBounds_of_violatedBound?
    rw [leaving?, List.findSome?_eq_none_iff] at h
    have hr := h (t.basic.get r) (List.mem_finRange _)
    cases hviol : t.violatedBound? (t.basic.get r) with
    | none => rfl
    | some b => simp [hviol, hv.rowOf?_basic r] at hr
  · exact hv.inBounds j (not_exists.mp hb)

lemma le_value_of_canIncrease (h : t.canIncrease j = false) (hq : t.InBounds j q) :
    q ≤ t.value.get j := by
  unfold canIncrease at h
  cases hu : t.upper.get j with
  | none => simp [hu] at h
  | some u =>
    rw [hu] at h
    exact (hq.2 u hu).trans (not_lt.mp (by simpa using h))

lemma value_le_of_canDecrease (h : t.canDecrease j = false) (hq : t.InBounds j q) :
    t.value.get j ≤ q := by
  unfold canDecrease at h
  cases hl : t.lower.get j with
  | none => simp [hl] at h
  | some l =>
    rw [hl] at h
    exact (not_lt.mp (by simpa using h)).trans (hq.1 l hl)

/-- A column that does not help cannot bring the row nearer to its bound. -/
lemma entry_mul_sub_of_helps (hv : t.Valid) {below : Bool} (h : t.helps r below j = false)
    (hq : t.InBounds j q) :
    if below then t.entry r j * (q - t.value.get j) ≤ 0
      else 0 ≤ t.entry r j * (q - t.value.get j) := by
  by_cases hb : ∃ k, t.basic.get k = j
  · obtain ⟨k, rfl⟩ := hb
    simp [hv.entry_basic]
  · by_cases ha : t.entry r j = 0
    · simp [ha]
    · have hmark : t.isBasic.get j = false := Bool.eq_false_iff.mpr (mt (hv.isBasic_iff j).mp hb)
      simp only [helps, hmark, Bool.not_false, Bool.true_and, ne_eq, ha, not_false_eq_true,
        decide_true] at h
      cases below with
      | true =>
        rw [if_pos rfl]
        rcases lt_or_gt_of_ne ha with hneg | hpos
        · have := value_le_of_canDecrease (by simpa [hneg.not_gt] using h) hq
          exact mul_nonpos_of_nonpos_of_nonneg hneg.le (by linarith)
        · have := le_value_of_canIncrease (by simpa [hpos] using h) hq
          exact mul_nonpos_of_nonneg_of_nonpos hpos.le (by linarith)
      | false =>
        rw [if_neg (by simp)]
        rcases lt_or_gt_of_ne ha with hneg | hpos
        · have := le_value_of_canIncrease (by simpa [hneg.not_gt] using h) hq
          exact mul_nonneg_of_nonpos_of_nonpos hneg.le (by linarith)
        · have := value_le_of_canDecrease (by simpa [hpos] using h) hq
          exact mul_nonneg hpos.le (by linarith)

lemma Valid.sub_value {x : Fin (n + m) → ℚ} (hv : t.Valid) (hx : t.Solves x) (r : Fin m) :
    x (t.basic.get r) - t.value.get (t.basic.get r) =
      ∑ j, t.entry r j * (x j - t.value.get j) := by
  rw [hx r, hv.value_solves r, ← Finset.sum_sub_distrib]
  exact Finset.sum_congr rfl fun j _ => by ring

lemma no_solution_of_entering? (hv : t.Valid) {v : Violation m} (hl : t.leaving? = some v)
    (he : t.entering? v = none) {x : Fin (n + m) → ℚ} (hx : t.Solves x) :
    ¬∀ j, t.InBounds j (x j) := by
  intro hin
  have hstuck (j : Fin (n + m)) : t.helps v.row v.below j = false := by
    have := List.find?_eq_none.mp he j (List.mem_finRange j)
    simpa using this
  have hterm (j : Fin (n + m)) := entry_mul_sub_of_helps hv (hstuck j) (hin j)
  have hsum := hv.sub_value hx v.row
  rcases violatedBound?_eq_some (leaving?_eq_some hl).1 with ⟨hb, hlow, hlt⟩ | ⟨hb, hup, hlt⟩
  · simp only [hb, if_true] at hterm
    have := (hin (t.basic.get v.row)).1 _ hlow
    have := Finset.sum_nonpos fun j (_ : j ∈ Finset.univ) => hterm j
    linarith
  · simp only [hb, Bool.false_eq_true, if_false] at hterm
    have := (hin (t.basic.get v.row)).2 _ hup
    have := Finset.sum_nonneg fun j (_ : j ∈ Finset.univ) => hterm j
    linarith

structure Succeeds (t' t : Tableau n m) : Prop where
  solves : ∀ x, t'.Solves x ↔ t.Solves x
  lower : t'.lower = t.lower
  upper : t'.upper = t.upper

lemma Succeeds.refl (t : Tableau n m) : Succeeds t t := ⟨fun _ => Iff.rfl, rfl, rfl⟩

lemma Succeeds.symm {t' t : Tableau n m} (h : Succeeds t' t) : Succeeds t t' :=
  ⟨fun x => (h.solves x).symm, h.lower.symm, h.upper.symm⟩

lemma Succeeds.trans {t'' t' t : Tableau n m} (h' : Succeeds t'' t') (h : Succeeds t' t) :
    Succeeds t'' t :=
  ⟨fun x => (h'.solves x).trans (h.solves x), h'.lower.trans h.lower, h'.upper.trans h.upper⟩

/-- The choice of a pivot. The column that leaves is the first basic one out of its bounds, and it
moves to the bound that it violates. The column that enters is the first one that helps. -/
structure Chooses (t : Tableau n m) (v : Violation m) (j : Fin (n + m)) : Prop where
  bound : (if v.below then t.lower.get (t.basic.get v.row) else t.upper.get (t.basic.get v.row)) =
    some v.target
  violated : if v.below then t.value.get (t.basic.get v.row) < v.target
    else v.target < t.value.get (t.basic.get v.row)
  leaves_first : ∀ l ∈ t.basis, l < t.basic.get v.row → t.InBounds l (t.value.get l)
  enters : j ∉ t.basis
  entry_ne_zero : t.entry v.row j ≠ 0
  helps : t.helps v.row v.below j = true
  enters_first : ∀ l < j, t.helps v.row v.below l = false

lemma step_eq_inr {t' : Tableau n m} (hv : t.Valid) (h : t.step = .inr t') :
    ∃ v j, t.Chooses v j ∧ t' = t.pivot v.row j v.target := by
  simp only [step] at h
  split at h
  · cases h
  · rename_i v hl
    split at h
    · cases h
    · rename_i j he
      cases h
      obtain ⟨hviolated, hfirst⟩ := leaving?_eq_some hl
      rw [entering?, ← Fin.find?_eq_find?_finRange] at he
      obtain ⟨hhelps, hleast⟩ := Fin.find?_eq_some_iff.mp he
      have hj := hhelps
      simp only [helps, ne_eq, Bool.and_eq_true, Bool.not_eq_true', decide_eq_true_eq] at hj
      have henters : ∀ k, t.basic.get k ≠ j := by
        intro k hk
        rw [(hv.isBasic_iff j).mpr ⟨k, hk⟩] at hj
        cases hj.1.1
      have hbound := violatedBound?_eq_some hviolated
      refine ⟨v, j, ⟨?_, ?_, fun l hl hlt => inBounds_of_violatedBound? (hfirst l hl hlt),
        notMem_basis.mpr henters, hj.1.2, hhelps, hleast⟩, rfl⟩
      · rcases hbound with ⟨hb, htarget, -⟩ | ⟨hb, htarget, -⟩ <;> simpa [hb] using htarget
      · rcases hbound with ⟨hb, -, hlt⟩ | ⟨hb, -, hlt⟩ <;> simpa [hb] using hlt

lemma Chooses.target_inBounds {v : Violation m} (hv : t.Valid) (h : t.Chooses v j) :
    t.InBounds (t.basic.get v.row) v.target := by
  have hbound := h.bound
  split_ifs at hbound
  · refine ⟨fun l hl => ?_, fun u hu => hv.lower_le_upper _ _ _ hbound hu⟩
    rw [hbound, Option.some_inj] at hl
    exact hl.ge
  · refine ⟨fun l hl => hv.lower_le_upper _ _ _ hl hbound, fun u hu => ?_⟩
    rw [hbound, Option.some_inj] at hu
    exact hu.le

lemma step_valid {t' : Tableau n m} (hv : t.Valid) (h : t.step = .inr t') :
    t'.Valid ∧ Succeeds t' t := by
  obtain ⟨v, j, hc, rfl⟩ := step_eq_inr hv h
  have hj := notMem_basis.mp hc.enters
  exact ⟨pivot_valid hv hc.entry_ne_zero hj (hc.target_inBounds hv),
    pivot_solves hv hc.entry_ne_zero hj, rfl, rfl⟩

lemma step_eq_inl_true (hv : t.Valid) (h : t.step = .inl true) (j : Fin (n + m)) :
    t.InBounds j (t.value.get j) := by
  simp only [step] at h
  split at h
  · rename_i hl
    exact inBounds_of_leaving? hv hl j
  · split at h <;> cases h

lemma step_eq_inl_false (hv : t.Valid) (h : t.step = .inl false) {x : Fin (n + m) → ℚ}
    (hx : t.Solves x) : ¬∀ j, t.InBounds j (x j) := by
  simp only [step] at h
  split at h
  · cases h
  · rename_i v hl
    split at h
    · rename_i he
      exact no_solution_of_entering? hv hl he hx
    · cases h

lemma repair_eq_some {fuel : ℕ} {b : Bool} {t' : Tableau n m} (hv : t.Valid)
    (h : repair fuel t = some (b, t')) : t'.Valid ∧ Succeeds t' t ∧ t'.step = .inl b := by
  induction fuel generalizing t with
  | zero => simp [repair] at h
  | succ fuel ih =>
    simp only [repair] at h
    split at h
    · rename_i hs
      cases h
      exact ⟨hv, .refl _, hs⟩
    · rename_i next hs
      obtain ⟨hnext, hsucc⟩ := step_valid hv hs
      obtain ⟨hv', hsucc', hs'⟩ := ih hnext h
      exact ⟨hv', hsucc'.trans hsucc, hs'⟩

lemma Succeeds.inBounds {t' t : Tableau n m} (h : Succeeds t' t) {j : Fin (n + m)} {q : ℚ} :
    t'.InBounds j q ↔ t.InBounds j q := by
  simp only [InBounds, h.lower, h.upper]

theorem check_true {t' : Tableau n m} (hv : t.Valid) (h : t.check = .ok (true, t')) :
    t.Solves t'.value.get ∧ ∀ j, t.InBounds j (t'.value.get j) := by
  obtain ⟨hv', hsucc, hs⟩ := repair_eq_some hv (Result.orFault_eq_ok.mp h)
  exact ⟨(hsucc.solves _).mp hv'.value_solves,
    fun j => hsucc.inBounds.mp (step_eq_inl_true hv' hs j)⟩

theorem check_false {t' : Tableau n m} (hv : t.Valid) (h : t.check = .ok (false, t'))
    {x : Fin (n + m) → ℚ} (hx : t.Solves x) : ¬∀ j, t.InBounds j (x j) := by
  obtain ⟨hv', hsucc, hs⟩ := repair_eq_some hv (Result.orFault_eq_ok.mp h)
  intro hin
  exact step_eq_inl_false hv' hs ((hsucc.solves x).mpr hx) fun j => hsucc.inBounds.mpr (hin j)

end LoopInvariant.Tableau
