import LoopInvariant.NormalForm
import LoopInvariant.Proofs.LinearForm
import LoopInvariant.Proofs.Meaning

/-! The meaning of normal forms. Gathering keeps the truth of a join, and normalizing a constraint
keeps its integer solutions, though not its rational ones. -/
namespace LoopInvariant

/-- Induction over normal forms, with the parts of a join given by membership. -/
@[elab_as_elim, induction_eliminator]
theorem NormalForm.induction {motive : NormalForm → Prop}
    (const : ∀ b, motive (.const b))
    (atom : ∀ c, motive (.atom c))
    (join : ∀ c args, (∀ n ∈ args, motive n) → motive (.join c args))
    (n : NormalForm) : motive n := by
  refine @NormalForm.rec motive (fun args => ∀ n ∈ args, motive n) const atom join ?_ ?_ n
  · simp
  · intro head tail hh ht a ha
    rcases List.mem_cons.mp ha with rfl | ha
    · exact hh
    · exact ht a ha

namespace NormalForm

mutual
def truth (ρ : Valuation) : NormalForm → Bool
  | .const b => b
  | .atom c => c.relation.holds (c.form.eval ρ)
  | .join c args => c.joined (truths ρ args)
def truths (ρ : Valuation) : List NormalForm → List Bool
  | [] => []
  | n :: ns => truth ρ n :: truths ρ ns
end

@[simp] lemma truths_eq_map (ρ : Valuation) (args : List NormalForm) :
    truths ρ args = args.map (truth ρ) := by
  induction args <;> simp [truths, *]

mutual
def occurrences : NormalForm → List Var
  | .const _ => []
  | .atom c => c.form.vars
  | .join _ args => occurrencesAll args
def occurrencesAll : List NormalForm → List Var
  | [] => []
  | n :: ns => occurrences n ++ occurrencesAll ns
end

@[simp] lemma occurrencesAll_eq_flatMap (args : List NormalForm) :
    occurrencesAll args = args.flatMap occurrences := by
  induction args <;> simp [occurrencesAll, *]

lemma occurrences_subset_join {n : NormalForm} {args : List NormalForm} (c : Connective)
    (h : n ∈ args) : n.occurrences ⊆ (join c args).occurrences := by
  intro v hv
  rw [occurrences, occurrencesAll_eq_flatMap]
  exact List.mem_flatMap.mpr ⟨n, h, hv⟩

/-! ### Joins -/

lemma joined_parts (ρ : Valuation) (c : Connective) (n : NormalForm) :
    c.joined ((parts c n).map (truth ρ)) = n.truth ρ := by
  unfold parts
  split
  · split_ifs with h
    · subst h
      simp [truth]
    · simp [Connective.joined_singleton]
  · simp [Connective.joined_singleton]

/-- Collecting fails only at a part that decides the join. -/
lemma joined_collect (ρ : Valuation) (c : Connective) (args : List NormalForm) :
    c.joined (args.map (truth ρ)) =
      match collect c args with
      | none => !c.unit
      | some ns => c.joined (ns.map (truth ρ)) := by
  induction args with
  | nil => rfl
  | cons n rest ih =>
    have hother (hc : collect c (n :: rest) = (parts c n ++ ·) <$> collect c rest) :
        c.joined ((n :: rest).map (truth ρ)) =
          match collect c (n :: rest) with
          | none => !c.unit
          | some ns => c.joined (ns.map (truth ρ)) := by
      rw [hc, List.map_cons, Connective.joined_cons, ih]
      cases collect c rest with
      | none => simp
      | some ns =>
        simp only [Option.map_eq_map, Option.map_some, List.map_append,
          Connective.joined_append, joined_parts]
    cases n with
    | const b =>
      rw [List.map_cons, Connective.joined_cons, truth, collect]
      split_ifs with hb
      · exact ih
      · rfl
    | atom k => exact hother rfl
    | join d ns => exact hother rfl

@[simp] lemma truth_gather (ρ : Valuation) (c : Connective) (args : List NormalForm) :
    (gather c args).truth ρ = c.joined (args.map (truth ρ)) := by
  rw [joined_collect, gather]
  split <;> simp_all [truth, Connective.joined_singleton]

/-- What a part leaves of itself in a join: nothing if it is a constant. -/
def remains (c : Connective) : NormalForm → List NormalForm
  | .const _ => []
  | .atom k => [.atom k]
  | .join d args => parts c (.join d args)

lemma collect_eq_some {c : Connective} {args ns : List NormalForm} :
    collect c args = some ns ↔
      (∀ n ∈ args, n ≠ .const !c.unit) ∧ ns = args.flatMap (remains c) := by
  induction args generalizing ns with
  | nil => simp [collect, eq_comm]
  | cons n rest ih =>
    have hother (hn : ∀ b, n ≠ .const b)
        (hc : collect c (n :: rest) = (parts c n ++ ·) <$> collect c rest)
        (hr : remains c n = parts c n) :
        collect c (n :: rest) = some ns ↔
          (∀ m ∈ n :: rest, m ≠ .const !c.unit) ∧ ns = (n :: rest).flatMap (remains c) := by
      simp only [hc, Option.map_eq_map, Option.map_eq_some_iff, ih, List.forall_mem_cons,
        List.flatMap_cons, hr]
      constructor
      · rintro ⟨ms, ⟨hrest, rfl⟩, rfl⟩
        exact ⟨⟨hn _, hrest⟩, rfl⟩
      · rintro ⟨⟨_, hrest⟩, rfl⟩
        exact ⟨_, ⟨hrest, rfl⟩, rfl⟩
    cases n with
    | const b =>
      rw [collect, List.forall_mem_cons, List.flatMap_cons, remains, List.nil_append]
      cases b <;> cases hu : c.unit <;> simp [ih, hu]
    | atom k => exact hother (by simp) rfl rfl
    | join d ms => exact hother (by simp) rfl rfl

lemma flatMap_occurrences_remains (c : Connective) (n : NormalForm) :
    (remains c n).flatMap occurrences = n.occurrences := by
  cases n with
  | const b => rfl
  | atom k => simp [remains]
  | join d args =>
    rw [remains, parts]
    split_ifs with h <;> simp [occurrences]

lemma occurrences_collect {c : Connective} {args ns : List NormalForm}
    (h : collect c args = some ns) : ns.flatMap occurrences = args.flatMap occurrences := by
  rw [(collect_eq_some.mp h).2, List.flatMap_assoc]
  simp only [flatMap_occurrences_remains]

lemma occurrences_gather (c : Connective) (args : List NormalForm) :
    (gather c args).occurrences ⊆ args.flatMap occurrences := by
  unfold gather
  split
  · simp [occurrences]
  · simp [occurrences]
  · rename_i n h
    simp [← occurrences_collect h]
  · rename_i ns _ h
    rw [← occurrences_collect h]
    simp [occurrences]

lemma gather_subset {c : Connective} {args : List NormalForm} {vs : List Var}
    (h : ∀ n ∈ args, n.occurrences ⊆ vs) : (gather c args).occurrences ⊆ vs := by
  intro v hv
  obtain ⟨n, hn, hv⟩ := List.mem_flatMap.mp (occurrences_gather c args hv)
  exact h n hn hv

end NormalForm

/-! ### Normalized constraints -/

namespace Constraint

lemma mul_sumTerms_div (ρ : Valuation) {g : Int64} (hg : 1 < g.toInt) (ts : List (Var × Int64))
    (hd : ∀ t ∈ ts, g.toInt ∣ t.2.toInt) :
    g.toInt * LinearForm.sumTerms ρ (ts.map fun t => (t.1, t.2 / g)) =
      LinearForm.sumTerms ρ ts := by
  induction ts with
  | nil => simp
  | cons t ts ih =>
    have ht := Word.mul_toInt_div hg (hd t (by simp))
    have hts := ih fun t ht => hd t (by simp [ht])
    simp only [List.map_cons, LinearForm.sumTerms_cons, Int.cast_id, ← ht, ← hts]
    ring

/-- Over the integers the constant may be rounded down after the division. -/
lemma nonneg_floor_iff {g : ℤ} (hg : 0 < g) (s c : ℤ) : 0 ≤ s + c / g ↔ 0 ≤ g * s + c := by
  have hle := Int.le_ediv_iff_mul_le (a := -s) (b := c) hg
  constructor
  · intro h
    have := hle.mp (by omega)
    linarith
  · intro h
    have := hle.mpr (by linarith)
    omega

lemma zero_div_iff {g : ℤ} (hg : 0 < g) (s : ℤ) {c : ℤ} (hc : g ∣ c) :
    s + c / g = 0 ↔ g * s + c = 0 := by
  obtain ⟨d, rfl⟩ := hc
  rw [Int.mul_ediv_cancel_left _ hg.ne', ← mul_add, mul_eq_zero]
  simp [hg.ne']

/-- What becomes of a constraint. Without variables it is decided. A common divisor is divided out,
with the constant rounded down, and an equation is false if the divisor does not divide the
constant. -/
inductive Normalizes (k : Constraint) : NormalForm → Prop
  | decided (hconst : k.form.isConst = true) :
      Normalizes k (.const (k.relation.holds k.form.constant.toInt))
  | kept (hconst : ¬k.form.isConst = true) (hg : (Word.gcdAll k.form.coeffs).toInt ≤ 1) :
      Normalizes k (.atom k)
  | divided {g c : Int64} (hconst : ¬k.form.isConst = true) (hgcd : Word.gcdAll k.form.coeffs = g)
      (hg : 1 < g.toInt) (hc : c.toInt = k.form.constant.toInt / g.toInt)
      (hdvd : k.relation = .zero → g.toInt ∣ k.form.constant.toInt) :
      Normalizes k (.atom ⟨⟨k.form.terms.map fun t => (t.1, t.2 / g), c⟩, k.relation⟩)
  | unsolvable {g : Int64} (hgcd : Word.gcdAll k.form.coeffs = g) (hg : 1 < g.toInt)
      (hrel : k.relation = .zero) (hdvd : ¬g.toInt ∣ k.form.constant.toInt) :
      Normalizes k (.const false)

variable {k : Constraint} {g : Int64}

lemma divisor?_eq_some :
    k.divisor? = some g ↔ Word.gcdAll k.form.coeffs = g ∧ 1 < g.toInt := by
  simp only [divisor?, Word.le_one]
  split_ifs with hle
  · refine iff_of_false (by simp) fun h => ?_
    rw [h.1] at hle
    exact absurd hle (not_le.mpr h.2)
  · rw [Option.some_inj]
    exact ⟨fun h => ⟨h, h ▸ not_le.mp hle⟩, fun h => h.1⟩

lemma divisor?_eq_none : k.divisor? = none ↔ (Word.gcdAll k.form.coeffs).toInt ≤ 1 := by
  simp [divisor?, Word.le_one]

lemma divideTerms?_of_one_lt (hg : 1 < g.toInt) (c : Int64) :
    k.divideTerms? g c =
      some (.atom ⟨⟨k.form.terms.map fun t => (t.1, t.2 / g), c⟩, k.relation⟩) := by
  have hterms : k.form.terms.mapM (fun t => (t.1, ·) <$> Word.div? t.2 g) =
      some (k.form.terms.map fun t => (t.1, t.2 / g)) := by
    simp only [Word.div?_of_one_lt _ hg]
    exact List.mapM_pure
  rw [divideTerms?, hterms]
  rfl

lemma normalize_of_divisor?_none (hconst : ¬k.form.isConst = true) (h : k.divisor? = none) :
    k.normalize = .ok (.atom k) := by
  rw [normalize, if_neg hconst, h]

lemma normalize_of_divisor?_some (hconst : ¬k.form.isConst = true) (h : k.divisor? = some g) :
    k.normalize = .orFault (k.divide? g) .division := by
  rw [normalize, if_neg hconst, h]

/-- A common divisor above one is divided out, or it shows an equation to be false. -/
lemma exists_divide? (hconst : ¬k.form.isConst = true) (hgcd : Word.gcdAll k.form.coeffs = g)
    (hg : 1 < g.toInt) : ∃ n, k.divide? g = some n ∧ k.Normalizes n := by
  rw [divide?]
  cases hr : k.relation with
  | nonneg =>
    obtain ⟨c, hfloor, hc⟩ := Word.exists_floorDiv? k.form.constant hg
    simp only [hfloor, divideTerms?_of_one_lt hg]
    exact ⟨_, rfl, .divided hconst hgcd hg hc (by simp [hr])⟩
  | zero =>
    have hmod : k.form.constant % g = 0 ↔ g.toInt ∣ k.form.constant.toInt := by
      rw [← Word.toInt_eq_zero, Int64.toInt_mod, Int.dvd_iff_tmod_eq_zero]
    simp only [Word.mod?_of_one_lt _ hg, Word.div?_of_one_lt _ hg, divideTerms?_of_one_lt hg]
    by_cases hdvd : g.toInt ∣ k.form.constant.toInt
    · have hdiv : (k.form.constant / g).toInt = k.form.constant.toInt / g.toInt :=
        Int.eq_ediv_of_mul_eq_right (by omega) (Word.mul_toInt_div hg hdvd)
      refine ⟨_, ?_, .divided hconst hgcd hg hdiv fun _ => hdvd⟩
      simp [hmod.mpr hdvd]
    · refine ⟨_, ?_, .unsolvable hgcd hg hr hdvd⟩
      simp [mt hmod.mp hdvd]

lemma exists_normalizes (k : Constraint) : ∃ n, k.normalize = .ok n ∧ k.Normalizes n := by
  by_cases hconst : k.form.isConst = true
  · exact ⟨_, if_pos hconst, .decided hconst⟩
  cases hdivisor : k.divisor? with
  | none =>
    exact ⟨_, normalize_of_divisor?_none hconst hdivisor,
      .kept hconst (divisor?_eq_none.mp hdivisor)⟩
  | some g =>
    obtain ⟨hgcd, hg⟩ := divisor?_eq_some.mp hdivisor
    obtain ⟨n, hn, hnormalizes⟩ := exists_divide? hconst hgcd hg
    refine ⟨n, ?_, hnormalizes⟩
    rw [normalize_of_divisor?_some hconst hdivisor, hn]
    rfl

lemma normalizes {n : NormalForm} (h : k.normalize = .ok n) : k.Normalizes n := by
  obtain ⟨m, hm, hnormalizes⟩ := k.exists_normalizes
  rw [h, Except.ok.injEq] at hm
  exact hm ▸ hnormalizes

lemma truth_normalize {k : Constraint} {n : NormalForm} (h : k.normalize = .ok n)
    (ρ : Valuation) : n.truth ρ = k.relation.holds (k.form.eval ρ) := by
  have hsum {g : Int64} (hgcd : Word.gcdAll k.form.coeffs = g) (hg : 1 < g.toInt) :=
    mul_sumTerms_div ρ hg k.form.terms
      fun t ht => hgcd ▸ Word.gcdAll_dvd (List.mem_map_of_mem ht)
  cases normalizes h with
  | decided hconst =>
    rw [LinearForm.eval_isConst ρ hconst]
    simp [NormalForm.truth]
  | kept => rfl
  | divided _ hgcd hg hc hdvd =>
    have hpos := Int.lt_trans Int.one_pos hg
    cases hr : k.relation with
    | nonneg =>
      simp only [NormalForm.truth, LinearForm.eval, Relation.holds, Int.cast_id, hc,
        ← hsum hgcd hg, nonneg_floor_iff hpos]
    | zero =>
      simp only [NormalForm.truth, LinearForm.eval, Relation.holds, Int.cast_id, hc,
        ← hsum hgcd hg, zero_div_iff hpos _ (hdvd hr)]
  | unsolvable hgcd hg hrel hdvd =>
    have hne : LinearForm.sumTerms ρ k.form.terms + k.form.constant.toInt ≠ 0 := by
      intro h0
      exact hdvd ((dvd_add_right (Dvd.intro _ (hsum hgcd hg))).mp (h0 ▸ dvd_zero _))
    simp [NormalForm.truth, LinearForm.eval, Relation.holds, hrel, hne]

lemma occurrences_normalize {k : Constraint} {n : NormalForm} (h : k.normalize = .ok n) :
    n.occurrences ⊆ k.form.vars := by
  cases normalizes h with
  | decided => exact List.nil_subset _
  | kept => exact List.Subset.refl _
  | divided => simp [NormalForm.occurrences, LinearForm.vars, Function.comp_def]
  | unsolvable => exact List.nil_subset _

/-- The common divisor of words is the greatest one of their magnitudes, in whatever order they
come, and `2 ^ 63` is read as the least integer. So a constraint is only ever divided by a positive
number, none of its quotients is missing, and it keeps its integer solutions. -/
theorem normalize_exact (xs : List Int64) (k : Constraint) :
    ((Word.magnitudes xs).gcd ≤ 2 ^ 63 ∧
      ((Word.magnitudes xs).gcd < 2 ^ 63 → (Word.gcdAll xs).toInt = (Word.magnitudes xs).gcd) ∧
      ((Word.magnitudes xs).gcd = 2 ^ 63 → Word.gcdAll xs = Int64.minValue) ∧
      ∀ ys, xs.Perm ys → Word.gcdAll xs = Word.gcdAll ys) ∧
    (∀ g, k.divisor? = some g → 0 < g.toInt) ∧
    ∃ n, k.normalize = .ok n ∧ ∀ ρ : Valuation, n.truth ρ = true ↔ k.Sat ρ := by
  refine ⟨⟨Word.gcd_magnitudes_le xs, Word.toInt_gcdAll_of_lt, Word.gcdAll_of_eq,
    fun ys => Word.gcdAll_perm⟩, fun g hg => ?_, ?_⟩
  · have hone := (divisor?_eq_some.mp hg).2
    omega
  · obtain ⟨n, hn, -⟩ := k.exists_normalizes
    refine ⟨n, hn, fun ρ => ?_⟩
    rw [truth_normalize hn ρ, sat_iff_holds]

/-- The first coefficient alone has a common divisor without a positive word, all three have the
common divisor four. -/
def steep : Constraint where
  form := ⟨[(⟨"x", none⟩, Int64.minValue), (⟨"y", none⟩, 24), (⟨"z", none⟩, -36)], -3⟩
  relation := .nonneg

/-- The sum is divided by four after its first part was read as the least integer, and the constant
is rounded down. -/
theorem normalize_exact_steep :
    Word.gcdAll [Int64.minValue] = Int64.minValue ∧
    Word.gcdAll [Int64.minValue, 24, -36] = Word.gcdAll [24, -36, Int64.minValue] ∧
    (steep.divisor? = some 4 ∧ 0 < Int64.toInt 4) ∧
    ∃ n, steep.normalize = .ok n ∧ (∀ ρ : Valuation, n.truth ρ = true ↔ steep.Sat ρ) ∧
      n = .atom ⟨⟨[(⟨"x", none⟩, -2305843009213693952), (⟨"y", none⟩, 6), (⟨"z", none⟩, -9)], -1⟩,
        .nonneg⟩ := by
  have hdivisor : steep.divisor? = some 4 := by decide +kernel
  obtain ⟨hgcd, hpos, n, hn, htruth⟩ := normalize_exact [Int64.minValue, 24, -36] steep
  refine ⟨by decide +kernel, hgcd.2.2.2 _ (by decide +kernel), ⟨hdivisor, hpos 4 hdivisor⟩, n, hn,
    htruth, ?_⟩
  exact Except.ok.inj (hn.symm.trans rfl)

end Constraint

namespace NormalForm

lemma truth_compare {op : Comparison} {d : LinearForm} {n : NormalForm}
    (h : NormalForm.compare op d = .ok n) (ρ : Valuation) :
    n.truth ρ = op.holds (d.eval ρ) 0 := by
  cases op with
  | ge =>
    rw [Constraint.truth_normalize h ρ]
    simp [Relation.holds, Comparison.holds]
  | gt =>
    obtain ⟨l, hl, h⟩ := Result.bind_eq_ok.mp h
    rw [Constraint.truth_normalize h ρ]
    simp only [Relation.holds, Comparison.holds, LinearForm.eval_shift ρ hl, decide_eq_decide]
    simp
    omega
  | le =>
    obtain ⟨l, hl, h⟩ := Result.bind_eq_ok.mp h
    rw [Constraint.truth_normalize h ρ]
    simp [Relation.holds, Comparison.holds, LinearForm.eval_negated ρ hl]
  | lt =>
    obtain ⟨l, hl, h⟩ := Result.bind_eq_ok.mp h
    obtain ⟨k, hk, h⟩ := Result.bind_eq_ok.mp h
    rw [Constraint.truth_normalize h ρ]
    simp only [Relation.holds, Comparison.holds, LinearForm.eval_shift ρ hk,
      LinearForm.eval_negated ρ hl, decide_eq_decide]
    simp
    omega
  | eq =>
    rw [Constraint.truth_normalize h ρ]
    simp [Relation.holds, Comparison.holds]
  | ne =>
    obtain ⟨l, hl, h⟩ := Result.bind_eq_ok.mp h
    obtain ⟨above, ha, h⟩ := Result.bind_eq_ok.mp h
    obtain ⟨m, hm, h⟩ := Result.bind_eq_ok.mp h
    obtain ⟨k, hk, h⟩ := Result.bind_eq_ok.mp h
    obtain ⟨below, hb, h⟩ := Result.bind_eq_ok.mp h
    rw [Result.pure_eq_ok] at h
    rw [← h, truth_gather]
    simp only [List.map_cons, List.map_nil, Constraint.truth_normalize ha ρ,
      Constraint.truth_normalize hb ρ, Relation.holds, Comparison.holds,
      LinearForm.eval_shift ρ hl, LinearForm.eval_shift ρ hk, LinearForm.eval_negated ρ hm]
    simp only [Connective.joined_or, List.any_cons, List.any_nil, id, Bool.or_false,
      ← Bool.decide_or, decide_eq_decide]
    simp
    omega

end NormalForm

end LoopInvariant
