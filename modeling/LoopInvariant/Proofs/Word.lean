import Mathlib
import LoopInvariant.Word

/-! The exact arithmetic behind words. An operation gives the exact result or nothing, and a common
divisor is the greatest one of the magnitudes, also at `2 ^ 63`, which no positive word has. -/
namespace LoopInvariant.Word

lemma ofInt?_eq_some {n : ℤ} {w : Int64} : ofInt? n = some w ↔ w.toInt = n := by
  unfold ofInt?
  split_ifs with h
  · have hn : (Int64.ofInt n).toInt = n := by
      apply Int64.toInt_ofInt_of_le
      · exact h.1
      · have := h.2
        simp only [Int64.toInt_maxValue] at this
        omega
    constructor
    · rintro ⟨rfl⟩
      exact hn
    · intro hw
      rw [Option.some_inj, ← Int64.toInt_inj, hn, hw]
  · constructor
    · simp
    · rintro rfl
      exact absurd ⟨w.minValue_le_toInt, w.toInt_le⟩ h

lemma exists_ofInt? {n : ℤ} (hmin : -2 ^ 63 ≤ n) (hmax : n < 2 ^ 63) : ∃ w, ofInt? n = some w := by
  unfold ofInt?
  rw [if_pos]
  · exact ⟨_, rfl⟩
  · rw [Int64.toInt_minValue, Int64.toInt_maxValue]
    omega

lemma toInt_eq_zero {a : Int64} : a.toInt = 0 ↔ a = 0 := by
  rw [← Int64.toInt_inj]
  rfl

lemma le_one {a : Int64} : a ≤ 1 ↔ a.toInt ≤ 1 := by
  rw [Int64.le_iff_toInt_le, Int64.toInt_one]

lemma natAbs_toInt_le (a : Int64) : a.toInt.natAbs ≤ 2 ^ 63 := by
  have := a.le_toInt
  have := a.toInt_lt
  omega

/-! ### Quotients -/

section Quotients

variable {a b g w : Int64}

lemma div?_eq_some : div? a b = some w ↔ b ≠ 0 ∧ w.toInt = a.toInt.tdiv b.toInt := by
  unfold div?
  split_ifs with hb
  · simp [hb]
  · simp [hb, ofInt?_eq_some]

/-- A quotient rounded down is one less than the one rounded towards zero, if the division leaves
something and the signs differ. -/
lemma fdiv_eq_tdiv_sub {x y : ℤ} (hy : y ≠ 0) :
    x.fdiv y = x.tdiv y - if x.tmod y ≠ 0 ∧ ¬(x < 0 ↔ y < 0) then 1 else 0 := by
  have hdvd : y ∣ x ↔ x.tmod y = 0 := Int.dvd_iff_tmod_eq_zero
  rw [Int.fdiv_eq_tdiv]
  rcases lt_or_gt_of_ne hy with hneg | hpos
  · have hsign : y.sign = -1 := Int.sign_eq_neg_one_of_neg hneg
    grind
  · have hsign : y.sign = 1 := Int.sign_eq_one_of_pos hpos
    grind

lemma fdiv_nonpos_of_signs {x y : ℤ} (hy : y ≠ 0) (h : ¬(x < 0 ↔ y < 0)) : x.fdiv y ≤ 0 := by
  rcases lt_or_gt_of_ne hy with hneg | hpos
  · exact Int.fdiv_nonpos_of_nonneg_of_nonpos (by omega) hneg.le
  · exact (Int.fdiv_neg_of_neg_of_pos (by omega) hpos).le

/-- A quotient is missing only where it would be too large. -/
lemma le_tdiv_of_div?_eq_none (hb : b ≠ 0) (h : div? a b = none) :
    2 ^ 63 ≤ a.toInt.tdiv b.toInt := by
  by_contra hlt
  have habs := Int.natAbs_tdiv_le_natAbs a.toInt b.toInt
  have hmax := natAbs_toInt_le a
  obtain ⟨q, hq⟩ : ∃ q, ofInt? (a.toInt.tdiv b.toInt) = some q :=
    exists_ofInt? (by omega) (by omega)
  rw [div?, if_neg hb, hq] at h
  cases h

lemma floorDiv?_eq_some : floorDiv? a b = some w ↔ b ≠ 0 ∧ w.toInt = a.toInt.fdiv b.toInt := by
  by_cases hb : b = 0
  · simp [floorDiv?, div?, hb]
  have hb' : b.toInt ≠ 0 := mt toInt_eq_zero.mp hb
  have hfloor : a.toInt.fdiv b.toInt = _ := fdiv_eq_tdiv_sub hb'
  cases hq : div? a b with
  | some q =>
    have hq' := (div?_eq_some.mp hq).2
    have hsteps : floorDiv? a b = if a % b ≠ 0 ∧ ¬(a < 0 ↔ b < 0) then sub? q 1 else some q := by
      simp [floorDiv?, mod?, hq]
    rw [hsteps, hfloor, ← Int64.toInt_mod, ← hq']
    simp only [ne_eq, toInt_eq_zero, Int64.lt_iff_toInt_lt, Int64.toInt_zero, hb, not_false_eq_true,
      true_and]
    split_ifs with hadjust
    · rw [sub?, ofInt?_eq_some, Int64.toInt_one]
    · rw [Option.some_inj, ← Int64.toInt_inj, sub_zero, eq_comm]
  | none =>
    -- a quotient above the range is positive, so that it is not rounded down into the range
    refine iff_of_false (by simp [floorDiv?, hq]) fun hw => ?_
    have hlarge := le_tdiv_of_div?_eq_none hb hq
    have hlt := w.toInt_lt
    rw [hw.2] at hlt
    split_ifs at hfloor with hadjust
    · have hnonpos := fdiv_nonpos_of_signs hb' hadjust.2
      omega
    · omega

lemma mul_toInt_div (hg : 1 < g.toInt) (h : g.toInt ∣ a.toInt) :
    g.toInt * (a / g).toInt = a.toInt := by
  rw [Int64.toInt_div_of_ne_right _ _ (by rintro rfl; simp at hg)]
  exact Int.mul_tdiv_cancel' h

lemma ne_zero_of_one_lt (hg : 1 < g.toInt) : g ≠ 0 := by
  rintro rfl
  simp at hg

lemma div?_of_one_lt (a : Int64) (hg : 1 < g.toInt) : div? a g = some (a / g) := by
  rw [div?_eq_some, Int64.toInt_div_of_ne_right _ _ (by rintro rfl; simp at hg)]
  exact ⟨ne_zero_of_one_lt hg, rfl⟩

lemma mod?_of_one_lt (a : Int64) (hg : 1 < g.toInt) : mod? a g = some (a % g) := by
  rw [mod?, div?_of_one_lt a hg]
  rfl

lemma exists_floorDiv? (a : Int64) (hg : 1 < g.toInt) :
    ∃ w, floorDiv? a g = some w ∧ w.toInt = a.toInt / g.toInt := by
  have hlow := a.le_toInt
  have hhigh := a.toInt_lt
  have hfloor : a.toInt.fdiv g.toInt = a.toInt / g.toInt :=
    Int.fdiv_eq_ediv_of_nonneg _ (by omega)
  obtain ⟨w, hw⟩ : ∃ w, ofInt? (a.toInt / g.toInt) = some w := by
    apply exists_ofInt?
    · rw [Int.le_ediv_iff_mul_le (by omega)]
      nlinarith
    · apply Int.ediv_lt_of_lt_mul (by omega)
      nlinarith
  rw [ofInt?_eq_some] at hw
  exact ⟨w, floorDiv?_eq_some.mpr ⟨ne_zero_of_one_lt hg, by rw [hw, hfloor]⟩, hw⟩

end Quotients

/-! ### Common divisors -/

lemma toNat_magnitude (a : Int64) : (magnitude a).toNat = a.toInt.natAbs := by
  apply UInt64.toNat_ofNat_of_lt'
  have := natAbs_toInt_le a
  simp only [UInt64.size]
  omega

lemma gcd_turn (a b : UInt64) : Nat.gcd b.toNat (a % b).toNat = Nat.gcd a.toNat b.toNat := by
  rw [UInt64.toNat_mod, Nat.gcd_comm, ← Nat.gcd_rec, Nat.gcd_comm]

lemma toNat_euclid (a b : UInt64) : (euclid a b).toNat = Nat.gcd a.toNat b.toNat := by
  fun_induction euclid a b with
  | case1 a => simp
  | case2 a b hb ih => rw [ih, gcd_turn]

lemma toInt_gcd (a b : Int64) :
    (gcd a b).toInt = Int.bmod (Nat.gcd a.toInt.natAbs b.toInt.natAbs) (2 ^ 64) := by
  rw [← toNat_magnitude, ← toNat_magnitude, ← toNat_euclid]
  exact BitVec.toInt_eq_toNat_bmod _

/-- The magnitude `2 ^ 63`, which has no positive word, survives as that of the least one. -/
lemma natAbs_gcd (a b : Int64) :
    (gcd a b).toInt.natAbs = Nat.gcd a.toInt.natAbs b.toInt.natAbs := by
  have hle : Nat.gcd a.toInt.natAbs b.toInt.natAbs ≤ 2 ^ 63 := by
    rcases Nat.eq_zero_or_pos a.toInt.natAbs with ha | ha
    · rw [ha, Nat.gcd_zero_left]
      exact natAbs_toInt_le b
    · exact (Nat.gcd_le_left _ ha).trans (natAbs_toInt_le a)
  rw [toInt_gcd, Int.bmod_def]
  omega

lemma gcd_nonneg_or (a b : Int64) : 0 ≤ (gcd a b).toInt ∨ (gcd a b).toInt = -2 ^ 63 := by
  have habs := natAbs_gcd a b
  have hmod := toInt_gcd a b
  rw [Int.bmod_def] at hmod
  omega

lemma dvd_foldl_gcd (d : ℕ) (xs : List Int64) (g : Int64) :
    d ∣ (xs.foldl gcd g).toInt.natAbs ↔
      d ∣ g.toInt.natAbs ∧ ∀ x ∈ xs, d ∣ x.toInt.natAbs := by
  induction xs generalizing g with
  | nil => simp
  | cons x xs ih =>
    rw [List.foldl_cons, ih, natAbs_gcd, Nat.dvd_gcd_iff]
    simp [and_assoc]

lemma dvd_gcdAll (d : ℕ) (xs : List Int64) :
    d ∣ (gcdAll xs).toInt.natAbs ↔ ∀ x ∈ xs, d ∣ x.toInt.natAbs := by
  rw [gcdAll, dvd_foldl_gcd]
  simp

lemma gcdAll_dvd {xs : List Int64} {x : Int64} (hx : x ∈ xs) :
    (gcdAll xs).toInt ∣ x.toInt :=
  Int.natAbs_dvd_natAbs.mp ((dvd_gcdAll _ xs).mp dvd_rfl x hx)

def magnitudes (xs : List Int64) : Multiset ℕ := (xs.map fun x => x.toInt.natAbs : List ℕ)

lemma natAbs_gcdAll (xs : List Int64) : (gcdAll xs).toInt.natAbs = (magnitudes xs).gcd := by
  apply Nat.dvd_left_iff_eq.mp
  intro d
  rw [dvd_gcdAll, Multiset.dvd_gcd]
  simp [magnitudes]

/-- A common divisor is read as a negative word only if it is `2 ^ 63`. -/
lemma gcdAll_nonneg_or (xs : List Int64) :
    0 ≤ (gcdAll xs).toInt ∨ (gcdAll xs).toInt = -2 ^ 63 := by
  have hfold (g : Int64) (hg : 0 ≤ g.toInt ∨ g.toInt = -2 ^ 63) :
      0 ≤ (xs.foldl gcd g).toInt ∨ (xs.foldl gcd g).toInt = -2 ^ 63 := by
    induction xs generalizing g with
    | nil => exact hg
    | cons x xs ih => exact ih (gcd g x) (gcd_nonneg_or g x)
  exact hfold 0 (by simp)

lemma gcd_magnitudes_le (xs : List Int64) : (magnitudes xs).gcd ≤ 2 ^ 63 :=
  natAbs_gcdAll xs ▸ natAbs_toInt_le (gcdAll xs)

lemma toInt_gcdAll_of_lt {xs : List Int64} (h : (magnitudes xs).gcd < 2 ^ 63) :
    (gcdAll xs).toInt = (magnitudes xs).gcd := by
  have habs := natAbs_gcdAll xs
  have hsign := gcdAll_nonneg_or xs
  omega

lemma gcdAll_of_eq {xs : List Int64} (h : (magnitudes xs).gcd = 2 ^ 63) :
    gcdAll xs = Int64.minValue := by
  have habs := natAbs_gcdAll xs
  have hlt := (gcdAll xs).toInt_lt
  rw [← Int64.toInt_inj, Int64.toInt_minValue]
  omega

lemma gcdAll_perm {xs ys : List Int64} (h : xs.Perm ys) : gcdAll xs = gcdAll ys := by
  have hmagnitudes : magnitudes xs = magnitudes ys := Multiset.coe_eq_coe.mpr (h.map _)
  rcases (gcd_magnitudes_le xs).lt_or_eq with hlt | heq
  · rw [← Int64.toInt_inj, toInt_gcdAll_of_lt hlt, toInt_gcdAll_of_lt (hmagnitudes ▸ hlt),
      hmagnitudes]
  · rw [gcdAll_of_eq heq, gcdAll_of_eq (hmagnitudes ▸ heq)]

lemma gcd_magnitudes_div {xs : List Int64} {g : Int64} (hgcd : gcdAll xs = g) (hg : 1 < g.toInt) :
    (magnitudes (xs.map (· / g))).gcd = 1 := by
  have hmul : magnitudes xs = (magnitudes (xs.map (· / g))).map (g.toInt.natAbs * ·) := by
    simp only [magnitudes, Multiset.map_coe, List.map_map]
    congr 1
    refine List.map_congr_left fun x hx => ?_
    rw [← mul_toInt_div hg (hgcd ▸ gcdAll_dvd hx), Int.natAbs_mul]
    rfl
  have habs := natAbs_gcdAll xs
  rw [hgcd, hmul, Multiset.gcd_map_mul, normalize_eq] at habs
  exact (Nat.mul_eq_left (by omega)).mp habs.symm

end LoopInvariant.Word
