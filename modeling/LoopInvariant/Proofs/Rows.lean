import LoopInvariant.Proofs.Feasibility

/-! What the tableaux of a check say. Each of them has distinct basic columns, which are the marked
ones and in which all rows are zero, and its rows are solved by the values for which every slack is
the variable part of its constraint, and by no others. The current values are among them, and only
basic columns can be out of bounds. -/
namespace LoopInvariant.Tableau

section Rows

variable {n m : ℕ} {t : Tableau n m}

/-- Each basic column has the value that its row gives it over the other columns. -/
def RowsHold (t : Tableau n m) (y : Fin (n + m) → ℚ) : Prop :=
  ∀ r, y (t.basic.get r) = ∑ j ∈ t.basisᶜ, t.entry r j * y j

lemma rowsHold_iff_solves (h : ∀ r k, t.entry r (t.basic.get k) = 0) (y : Fin (n + m) → ℚ) :
    t.RowsHold y ↔ t.Solves y := by
  refine forall_congr' fun r => ?_
  rw [Finset.sum_subset (Finset.subset_univ t.basisᶜ)]
  intro j _ hj
  rw [Finset.mem_compl, not_not] at hj
  obtain ⟨k, -, rfl⟩ := Finset.mem_image.mp hj
  rw [h, zero_mul]

end Rows

variable {cs : List Constraint}

def SlacksHold (cs : List Constraint) (y : Fin ((columns cs).length + cs.length) → ℚ) : Prop :=
  ∀ r : Fin cs.length, y (r.natAdd (columns cs).length) =
    LinearForm.sumTerms (assigned (columns cs) y) (cs.get r).form.terms

lemma solves_start_iff_slacksHold (y : Fin ((columns cs).length + cs.length) → ℚ) :
    (start (columns cs) cs).Solves y ↔ SlacksHold cs y := by
  rw [solves_start]
  refine forall_congr' fun r => ?_
  have hvars := Constraint.form_vars_subset_columns _ (List.get_mem cs r)
  rw [← sum_coefficient (nodup_columns cs) _ _ hvars]
  simp only [assigned_get (nodup_columns cs)]

/-- What every tableau of a check says about the constraints, whose bounds it keeps. -/
structure Represents (cs : List Constraint) (t : Tableau (columns cs).length cs.length) :
    Prop where
  basic_injective : Function.Injective t.basic.get
  /-- The marks are on the basic columns and on no others. -/
  isBasic_iff : ∀ j, t.isBasic.get j = true ↔ ∃ r, t.basic.get r = j
  entry_basic : ∀ r k, t.entry r (t.basic.get k) = 0
  rowsHold_iff : ∀ y, t.RowsHold y ↔ SlacksHold cs y
  value : t.RowsHold t.value.get
  inBounds : ∀ j ∉ t.basis, t.InBounds j (t.value.get j)
  lower : t.lower = (start (columns cs) cs).lower
  upper : t.upper = (start (columns cs) cs).upper

lemma represents_iff {t : Tableau (columns cs).length cs.length} :
    t.Represents cs ↔ t.Valid ∧ Succeeds t (start (columns cs) cs) := by
  constructor
  · intro h
    have hsolves := rowsHold_iff_solves h.entry_basic
    refine ⟨⟨h.basic_injective, h.isBasic_iff, h.entry_basic, ?_, (hsolves _).mp h.value, ?_⟩, ?_,
      h.lower, h.upper⟩
    · -- the bounds of a column are in order because they never change
      rw [h.lower, h.upper]
      exact valid_start.lower_le_upper
    · exact fun j hj => h.inBounds j (notMem_basis.mpr hj)
    · intro y
      rw [← hsolves, h.rowsHold_iff, solves_start_iff_slacksHold]
  · rintro ⟨hv, hsucc⟩
    have hsolves := rowsHold_iff_solves hv.entry_basic
    refine ⟨hv.basic_injective, hv.isBasic_iff, hv.entry_basic, fun y => ?_,
      (hsolves _).mpr hv.value_solves, fun j hj => hv.inBounds j (notMem_basis.mp hj), hsucc.lower,
      hsucc.upper⟩
    rw [hsolves, hsucc.solves, solves_start_iff_slacksHold]

lemma represents_start : (start (columns cs) cs).Represents cs :=
  represents_iff.mpr ⟨valid_start, .refl _⟩

lemma Represents.step {t t' : Tableau (columns cs).length cs.length} (h : t.Represents cs)
    (hs : t.step = .inr t') : t'.Represents cs := by
  obtain ⟨hv, hsucc⟩ := represents_iff.mp h
  obtain ⟨hv', hsucc'⟩ := step_valid hv hs
  exact represents_iff.mpr ⟨hv', hsucc'.trans hsucc⟩

/-- The first tableau represents its constraints, each pivot keeps that, and so all tableaux that a
check goes through up to its answer represent them. -/
theorem pivots_represent {t : Tableau (columns cs).length cs.length}
    (h : ofConstraints cs = .ok t) :
    t.Represents cs ∧
    (∀ s s' : Tableau (columns cs).length cs.length,
      s.Represents cs → s.step = .inr s' → s'.Represents cs) ∧
    ∃ k run b, t.Pivots k run ∧ t.check = .ok (b, run k) ∧ ∀ i ≤ k, (run i).Represents cs := by
  obtain rfl := ofConstraints_eq_ok h
  obtain ⟨k, run, b, hrun, -, hcheck⟩ := check_pivots (@reached_start (columns cs) cs)
  have hstep (s s' : Tableau (columns cs).length cs.length) (hs : s.Represents cs)
      (hpivot : s.step = .inr s') : s'.Represents cs := hs.step hpivot
  exact ⟨represents_start, hstep, k, run, b, hrun, hcheck, hrun.preserves represents_start hstep⟩

/-- At zero the triangle is missed, so that there is a pivot to be made. -/
theorem pivots_represent_triangle :
    (start (columns triangle) triangle).Represents triangle ∧
    (∃ t, (start (columns triangle) triangle).step = .inr t ∧ t.Represents triangle) ∧
    ∃ k run b, (start (columns triangle) triangle).Pivots k run ∧
      (start (columns triangle) triangle).check = .ok (b, run k) ∧
      ∀ i ≤ k, (run i).Represents triangle := by
  obtain ⟨hstart, hstep, hrun⟩ := pivots_represent ofConstraints_triangle
  have hpivot : (start (columns triangle) triangle).step.isRight = true := by decide +kernel
  obtain ⟨t, ht⟩ := Sum.isRight_iff.mp hpivot
  exact ⟨hstart, ⟨t, ht, hstep _ _ hstart ht⟩, hrun⟩

end LoopInvariant.Tableau
