import LoopInvariant.Proofs.Tableau

/-! Pivoting ends. Both columns of a pivot are chosen smallest first (Bland's rule), and then no
basis comes twice. Otherwise take the greatest column that leaves between two visits of a basis. It
also enters in between, and the tableaux where it enters and where it leaves contradict each other:
the row by which it enters would still be violated where it leaves, by a smaller column. -/
namespace LoopInvariant

/-- Sets in which one element after the other is replaced. Where a set comes back, some element `j`
enters and leaves in between, for a smaller one when it enters, while the elements above `j` stay as
they are. -/
lemma exists_replaced_both_ways {α : Type} [LinearOrder α] [Finite α] {S : ℕ → Finset α}
    {moves : ℕ → α → α → Prop} {p q : ℕ} (hpq : p < q) (hback : S p = S q)
    (hstep : ∀ i < q, ∃ out into, moves i out into)
    (hmoves : ∀ i < q, ∀ out into, moves i out into →
      out ∈ S i ∧ into ∉ S i ∧ ∀ l, l ∈ S (i + 1) ↔ l = into ∨ l ∈ S i ∧ l ≠ out) :
    ∃ i i' out j into, i < q ∧ i' < q ∧ moves i out j ∧ moves i' j into ∧ out < j ∧
      ∀ l, j < l → (l ∈ S i ↔ l ∈ S i') := by
  -- the greatest element that leaves from `p` on
  obtain ⟨j, ⟨i', hpi', hi'q, into, hleave⟩, hmax⟩ := Set.exists_max_image
    {out | ∃ i, p ≤ i ∧ i < q ∧ ∃ into, moves i out into} id (Set.toFinite _) (by
      obtain ⟨out, into, h⟩ := hstep p hpq
      exact ⟨out, p, le_rfl, hpq, into, h⟩)
  have hpersist (P : ℕ → Prop) (hP : ∀ i, p ≤ i → i < q → P i → P (i + 1)) {a b : ℕ} (ha : p ≤ a)
      (hab : a ≤ b) (hb : b ≤ q) (h : P a) : P b := by
    induction b, hab using Nat.le_induction with
    | base => exact h
    | succ b hab ih => exact hP b (ha.trans hab) hb (ih (by omega))
  -- what is above `j` never leaves, so that it can only have entered before `p`
  have habove (l : α) (hl : j < l) {a : ℕ} (ha : p ≤ a) (haq : a ≤ q) : l ∈ S a ↔ l ∈ S p := by
    have hstays : ∀ i, p ≤ i → i < q → l ∈ S i → l ∈ S (i + 1) := by
      intro i hi hiq hmem
      obtain ⟨out, into, h⟩ := hstep i hiq
      have hout : out ≤ j := hmax out ⟨i, hi, hiq, into, h⟩
      exact ((hmoves i hiq out into h).2.2 l).mpr (.inr ⟨hmem, (hout.trans_lt hl).ne'⟩)
    constructor
    · intro hmem
      rw [hback]
      exact hpersist (l ∈ S ·) hstays ha haq le_rfl hmem
    · exact hpersist (l ∈ S ·) hstays le_rfl ha haq
  have henter : ∃ i, p ≤ i ∧ i < q ∧ ∃ out, moves i out j := by
    by_contra hno
    push Not at hno
    have hstays : ∀ i, p ≤ i → i < q → j ∉ S i → j ∉ S (i + 1) := by
      intro i hi hiq hmem
      obtain ⟨out, into', h⟩ := hstep i hiq
      rw [(hmoves i hiq out into' h).2.2 j]
      rintro (rfl | ⟨hin, -⟩)
      · exact hno i hi hiq out h
      · exact hmem hin
    obtain ⟨hin, hinto, hnext⟩ := hmoves i' hi'q j into hleave
    have hout : j ∉ S (i' + 1) := by
      rw [hnext j]
      rintro (rfl | ⟨-, hne⟩)
      · exact hinto hin
      · exact hne rfl
    have hend : j ∉ S q := hpersist (j ∉ S ·) hstays (by omega) hi'q le_rfl hout
    rw [← hback] at hend
    exact hpersist (j ∉ S ·) hstays le_rfl hpi' hi'q.le hend hin
  obtain ⟨i, hpi, hiq, out, henter⟩ := henter
  have hout : out ≤ j := hmax out ⟨i, hpi, hiq, j, henter⟩
  obtain ⟨hin, hnot, -⟩ := hmoves i hiq out j henter
  have hne : out ≠ j := by
    rintro rfl
    exact hnot hin
  refine ⟨i, i', out, j, into, hiq, hi'q, henter, hleave, lt_of_le_of_ne hout hne, fun l hl => ?_⟩
  rw [habove l hl hpi hiq.le, habove l hl hpi' hi'q.le]

namespace Tableau

variable {n m : ℕ} {s t t₁ t₂ : Tableau n m}

/-- Bounds are one-sided or leave a single value, and a column that is not basic rests there, or at
zero if it has no bound. -/
structure Resting (t : Tableau n m) : Prop where
  lower_of_upper : ∀ j u, t.upper.get j = some u → t.lower.get j = some u
  value : ∀ j ∉ t.basis, t.value.get j = (t.lower.get j).getD 0

/-- What holds of every tableau on the way from the first one. -/
structure Reached (s t : Tableau n m) : Prop where
  valid : t.Valid
  resting : t.Resting
  succeeds : Succeeds t s

/-! ### One pivot -/

lemma Resting.lower_of_chooses {v : Violation m} {j : Fin (n + m)} (h : t.Resting)
    (hc : t.Chooses v j) : t.lower.get (t.basic.get v.row) = some v.target := by
  have hbound := hc.bound
  split_ifs at hbound
  · exact hbound
  · exact h.lower_of_upper _ _ hbound

lemma mem_basis_pivot {v : Violation m} {j : Fin (n + m)} (hv : t.Valid) (hc : t.Chooses v j)
    (l : Fin (n + m)) : l ∈ (t.pivot v.row j v.target).basis ↔
      l = j ∨ l ∈ t.basis ∧ l ≠ t.basic.get v.row := by
  simp only [basis, Finset.mem_image, Finset.mem_univ, true_and, basic_pivot]
  constructor
  · rintro ⟨k, rfl⟩
    by_cases hk : k = v.row
    · exact .inl (if_pos hk)
    · rw [if_neg hk]
      exact .inr ⟨⟨k, rfl⟩, fun he => hk (hv.basic_injective he)⟩
  · rintro (rfl | ⟨⟨k, rfl⟩, hne⟩)
    · exact ⟨v.row, if_pos rfl⟩
    · exact ⟨k, if_neg fun hk => hne (by rw [hk])⟩

lemma Resting.pivot {v : Violation m} {j : Fin (n + m)} (hv : t.Valid) (h : t.Resting)
    (hc : t.Chooses v j) : (t.pivot v.row j v.target).Resting where
  lower_of_upper := h.lower_of_upper
  value := by
    intro l hl
    change _ = (t.lower.get l).getD 0
    rw [mem_basis_pivot hv hc, not_or, not_and_or, not_not] at hl
    by_cases hleft : l = t.basic.get v.row
    · rw [value_pivot, if_pos hleft, hleft, h.lower_of_chooses hc, Option.getD_some]
    · have hnot : l ∉ t.basis := hl.2.resolve_right hleft
      rw [value_pivot_nonbasic (notMem_basis.mp hnot) hl.1]
      exact h.value l hnot

lemma Reached.step {t' : Tableau n m} (h : Reached s t) (hs : t.step = .inr t') :
    Reached s t' := by
  obtain ⟨hvalid, hsucc⟩ := step_valid h.valid hs
  obtain ⟨v, j, hc, rfl⟩ := step_eq_inr h.valid hs
  exact ⟨hvalid, h.resting.pivot h.valid hc, hsucc.trans h.succeeds⟩

/-! ### Two tableaux of one system -/

lemma Chooses.inBounds_of_lt {v : Violation m} {j l : Fin (n + m)} (hv : t.Valid)
    (hc : t.Chooses v j) (hl : l < t.basic.get v.row) : t.InBounds l (t.value.get l) := by
  by_cases hb : l ∈ t.basis
  · exact hc.leaves_first l hb hl
  · exact hv.inBounds l (notMem_basis.mp hb)

/-- A column that enters one tableau and leaves another has a lower bound only. It lies on it where
it enters, and below it where it leaves. -/
lemma Chooses.value_lt {v₁ v₂ : Violation m} {j j₂ : Fin (n + m)} (h₁ : Reached s t₁)
    (h₂ : Reached s t₂) (hc₁ : t₁.Chooses v₁ j) (hc₂ : t₂.Chooses v₂ j₂)
    (hj : t₂.basic.get v₂.row = j) :
    t₂.value.get j < t₁.value.get j ∧ v₁.below = decide (0 < t₁.entry v₁.row j) := by
  have hsame := h₁.succeeds.trans h₂.succeeds.symm
  have hlower : t₁.lower.get j = some v₂.target := by
    rw [hsame.lower, ← hj]
    exact h₂.resting.lower_of_chooses hc₂
  have hvalue : t₁.value.get j = v₂.target := by
    rw [h₁.resting.value j hc₁.enters, hlower, Option.getD_some]
  have hdecrease : t₁.canDecrease j = false := by
    simp [canDecrease, hlower, hvalue]
  have hroom := hc₁.helps
  simp only [Tableau.helps, Bool.and_eq_true, hdecrease] at hroom
  obtain ⟨-, hroom⟩ := hroom
  split_ifs at hroom with hbelow
  refine ⟨?_, hbelow⟩
  have hupper : t₁.upper.get j = none := by
    cases hu : t₁.upper.get j with
    | none => rfl
    | some u =>
      have hlu := h₁.resting.lower_of_upper j u hu
      rw [hlower, Option.some_inj] at hlu
      simp [canIncrease, hu, hvalue, hlu] at hroom
  have hbound := hc₂.bound
  have hviolated := hc₂.violated
  rw [hj] at hbound hviolated
  cases hb : v₂.below with
  | true =>
    rw [hb, if_pos rfl] at hviolated
    rwa [hvalue]
  | false =>
    rw [hb, if_neg Bool.false_ne_true, ← hsame.upper, hupper] at hbound
    cases hbound

/-- Where `j` leaves, the row by which it enters elsewhere is even further from its bound: the
columns before `j` could not help it, `j` itself has moved away, and the columns above `j` are
unmoved. -/
lemma Chooses.row_moves_away {v₁ v₂ : Violation m} {j j₂ : Fin (n + m)} (h₁ : Reached s t₁)
    (h₂ : Reached s t₂) (hc₁ : t₁.Chooses v₁ j) (hc₂ : t₂.Chooses v₂ j₂)
    (hj : t₂.basic.get v₂.row = j) (habove : ∀ l, j < l → (l ∈ t₁.basis ↔ l ∈ t₂.basis)) :
    if v₁.below then t₂.value.get (t₁.basic.get v₁.row) < t₁.value.get (t₁.basic.get v₁.row)
      else t₁.value.get (t₁.basic.get v₁.row) < t₂.value.get (t₁.basic.get v₁.row) := by
  have hsame := h₁.succeeds.trans h₂.succeeds.symm
  obtain ⟨hlt, hbelow⟩ := hc₁.value_lt h₁ h₂ hc₂ hj
  have hsum := h₁.valid.sub_value ((hsame.solves _).mpr h₂.valid.value_solves) v₁.row
  have hself : if v₁.below then t₁.entry v₁.row j * (t₂.value.get j - t₁.value.get j) < 0
      else 0 < t₁.entry v₁.row j * (t₂.value.get j - t₁.value.get j) := by
    rw [hbelow]
    rcases lt_or_gt_of_ne hc₁.entry_ne_zero with hneg | hpos
    · rw [if_neg (by simpa using hneg.le)]
      exact mul_pos_of_neg_of_neg hneg (by linarith)
    · rw [if_pos (by simpa using hpos)]
      exact mul_neg_of_pos_of_neg hpos (by linarith)
  have hterm (l : Fin (n + m)) :
      if v₁.below then t₁.entry v₁.row l * (t₂.value.get l - t₁.value.get l) ≤ 0
        else 0 ≤ t₁.entry v₁.row l * (t₂.value.get l - t₁.value.get l) := by
    rcases lt_trichotomy l j with hl | rfl | hl
    · refine entry_mul_sub_of_helps h₁.valid (hc₁.enters_first l hl) (hsame.inBounds.mpr ?_)
      exact hc₂.inBounds_of_lt h₂.valid (hj ▸ hl)
    · split_ifs at hself ⊢ <;> exact hself.le
    · by_cases hb : l ∈ t₁.basis
      · obtain ⟨k, -, rfl⟩ := Finset.mem_image.mp hb
        simp [h₁.valid.entry_basic]
      · have hunmoved : t₂.value.get l = t₁.value.get l := by
          rw [h₁.resting.value l hb, h₂.resting.value l (mt (habove l hl).mpr hb), hsame.lower]
        simp [hunmoved]
  cases hb : v₁.below with
  | true =>
    simp only [hb, if_true] at hterm hself ⊢
    have := Finset.sum_neg' (fun l _ => hterm l) ⟨j, Finset.mem_univ j, hself⟩
    linarith
  | false =>
    simp only [hb, Bool.false_eq_true, if_false] at hterm hself ⊢
    have := Finset.sum_pos' (fun l _ => hterm l) ⟨j, Finset.mem_univ j, hself⟩
    linarith

/-- The column that enters one tableau for a smaller one does not leave another tableau that has the
same basic columns above it. -/
lemma Chooses.not_leaves {v₁ v₂ : Violation m} {j j₂ : Fin (n + m)} (h₁ : Reached s t₁)
    (h₂ : Reached s t₂) (hc₁ : t₁.Chooses v₁ j) (hc₂ : t₂.Chooses v₂ j₂)
    (hout : t₁.basic.get v₁.row < j) (habove : ∀ l, j < l → (l ∈ t₁.basis ↔ l ∈ t₂.basis)) :
    t₂.basic.get v₂.row ≠ j := by
  intro hj
  have hsame := h₁.succeeds.trans h₂.succeeds.symm
  have hin : t₁.InBounds (t₁.basic.get v₁.row) (t₂.value.get (t₁.basic.get v₁.row)) :=
    hsame.inBounds.mpr (hc₂.inBounds_of_lt h₂.valid (hj ▸ hout))
  have haway := hc₁.row_moves_away h₁ h₂ hc₂ hj habove
  have hbound := hc₁.bound
  have hviolated := hc₁.violated
  cases hb : v₁.below with
  | true =>
    simp only [hb, if_true] at haway hbound hviolated
    have := hin.1 _ hbound
    linarith
  | false =>
    simp only [hb, Bool.false_eq_true, if_false] at haway hbound hviolated
    have := hin.2 _ hbound
    linarith

/-! ### Runs of pivots -/

/-- The first `k` pivots in the repair of a tableau. -/
structure Pivots (t : Tableau n m) (k : ℕ) (run : ℕ → Tableau n m) : Prop where
  first : run 0 = t
  step : ∀ i < k, (run i).step = .inr (run (i + 1))

/-- The pivot that leads from the first tableau to the second takes `out` for `into`. -/
def Exchanges (t t' : Tableau n m) (out into : Fin (n + m)) : Prop :=
  ∃ v, t.Chooses v into ∧ t.basic.get v.row = out ∧ t' = t.pivot v.row into v.target

variable {k : ℕ} {run : ℕ → Tableau n m}

lemma Pivots.preserves {p : Tableau n m → Prop} (h : s.Pivots k run) (hs : p s)
    (hstep : ∀ t t', p t → t.step = .inr t' → p t') : ∀ i ≤ k, p (run i) := by
  intro i
  induction i with
  | zero =>
    intro _
    rw [h.first]
    exact hs
  | succ i ih =>
    intro hi
    exact hstep _ _ (ih (by omega)) (h.step i hi)

lemma Pivots.reached (h : s.Pivots k run) (hs : Reached s s) : ∀ i ≤ k, Reached s (run i) :=
  h.preserves hs fun _ _ ht hstep => ht.step hstep

lemma Pivots.chooses (h : s.Pivots k run) (hs : Reached s s) {i : ℕ} (hi : i < k) :
    ∃ v j, (run i).Chooses v j ∧ run (i + 1) = (run i).pivot v.row j v.target :=
  step_eq_inr (h.reached hs i hi.le).valid (h.step i hi)

lemma Pivots.exchanges (h : s.Pivots k run) (hs : Reached s s) {i : ℕ} (hi : i < k) :
    ∃ out into, Exchanges (run i) (run (i + 1)) out into := by
  obtain ⟨v, j, hc, heq⟩ := h.chooses hs hi
  exact ⟨_, j, v, hc, rfl, heq⟩

lemma Pivots.basis_ne (h : s.Pivots k run) (hs : Reached s s) {p q : ℕ} (hpq : p < q)
    (hq : q ≤ k) : (run p).basis ≠ (run q).basis := by
  intro hback
  have hreached := h.reached hs
  have hmoves : ∀ i < q, ∀ out into, Exchanges (run i) (run (i + 1)) out into →
      out ∈ (run i).basis ∧ into ∉ (run i).basis ∧
        ∀ l, l ∈ (run (i + 1)).basis ↔ l = into ∨ l ∈ (run i).basis ∧ l ≠ out := by
    rintro i hi out into ⟨v, hc, rfl, heq⟩
    rw [heq]
    exact ⟨basic_mem_basis _ _, hc.enters, mem_basis_pivot (hreached i (by omega)).valid hc⟩
  obtain ⟨i, i', out, j, into, hi, hi', ⟨v₁, hc₁, rfl, -⟩, ⟨v₂, hc₂, hj, -⟩, hout, habove⟩ :=
    exists_replaced_both_ways hpq hback (fun i hi => h.exchanges hs (by omega)) hmoves
  exact hc₁.not_leaves (hreached i (by omega)) (hreached i' (by omega)) hc₂ hout habove hj

theorem Pivots.basis_injective (h : s.Pivots k run) (hs : Reached s s) {p q : ℕ} (hp : p ≤ k)
    (hq : q ≤ k) (hpq : (run p).basis = (run q).basis) : p = q := by
  rcases lt_trichotomy p q with hlt | heq | hgt
  · exact absurd hpq (h.basis_ne hs hlt hq)
  · exact heq
  · exact absurd hpq.symm (h.basis_ne hs hgt hp)

lemma Pivots.lt_two_pow (h : s.Pivots k run) (hs : Reached s s) : k < 2 ^ (n + m) := by
  have hinj : Function.Injective fun i : Fin (k + 1) => (run i).basis := by
    intro i j hij
    exact Fin.ext (h.basis_injective hs (by omega) (by omega) hij)
  have hcard := Fintype.card_le_of_injective _ hinj
  rw [Fintype.card_fin, Fintype.card_finset, Fintype.card_fin] at hcard
  omega

lemma Pivots.cons {t' : Tableau n m} (h : t'.Pivots k run) (hs : t.step = .inr t') :
    t.Pivots (k + 1) fun i => if i = 0 then t else run (i - 1) where
  first := rfl
  step := by
    intro i hi
    cases i with
    | zero => simpa [h.first] using hs
    | succ i => simpa using h.step i (by omega)

lemma repair_pivots (fuel : ℕ) (t : Tableau n m) :
    (∃ run, t.Pivots fuel run ∧ repair fuel t = none) ∨
      ∃ k run b, t.Pivots k run ∧ (run k).step = .inl b ∧ repair fuel t = some (b, run k) := by
  induction fuel generalizing t with
  | zero => exact .inl ⟨fun _ => t, ⟨rfl, fun i hi => absurd hi (by omega)⟩, rfl⟩
  | succ fuel ih =>
    cases hs : t.step with
    | inl b =>
      refine .inr ⟨0, fun _ => t, b, ⟨rfl, fun i hi => absurd hi (by omega)⟩, hs, ?_⟩
      simp only [repair, hs]
    | inr t' =>
      have hnext : repair (fuel + 1) t = repair fuel t' := by simp only [repair, hs]
      rw [hnext]
      rcases ih t' with ⟨run, hrun, hnone⟩ | ⟨k, run, b, hrun, hstep, hsome⟩
      · exact .inl ⟨_, hrun.cons hs, hnone⟩
      · exact .inr ⟨k + 1, _, b, hrun.cons hs, by simpa using hstep, by simpa using hsome⟩

lemma check_pivots (hs : Reached s s) :
    ∃ k run b, s.Pivots k run ∧ (run k).step = .inl b ∧ s.check = .ok (b, run k) := by
  rcases repair_pivots (Nat.pow 2 (n + m)) s with ⟨run, hrun, -⟩ | ⟨k, run, b, hrun, hstep, hsome⟩
  · exact absurd (hrun.lt_two_pow hs) (lt_irrefl _)
  · exact ⟨k, run, b, hrun, hstep, Result.orFault_eq_ok.mpr hsome⟩

end Tableau
end LoopInvariant
