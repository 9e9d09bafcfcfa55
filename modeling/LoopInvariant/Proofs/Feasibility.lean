import LoopInvariant.Proofs.Bland

/-! Deciding constraints over the rationals. A list of constraints and its first tableau have the
same solutions, so that the answer of the tableau is the answer for the constraints, and there
always is one. -/
namespace LoopInvariant
namespace Tableau

/-! ### Columns -/

lemma foldl_first_occurrences (vs seen : List Var) (hs : seen.Nodup) :
    (vs.foldl (fun seen v => if v ∈ seen then seen else seen ++ [v]) seen).Nodup ∧
      ∀ v, v ∈ vs.foldl (fun seen v => if v ∈ seen then seen else seen ++ [v]) seen ↔
        v ∈ seen ∨ v ∈ vs := by
  induction vs generalizing seen with
  | nil => simpa using hs
  | cons w vs ih =>
    rw [List.foldl_cons]
    by_cases hw : w ∈ seen
    · rw [if_pos hw]
      obtain ⟨hn, hm⟩ := ih seen hs
      refine ⟨hn, fun v => ?_⟩
      rw [hm, List.mem_cons]
      constructor
      · rintro (h | h)
        · exact .inl h
        · exact .inr (.inr h)
      · rintro (h | rfl | h)
        · exact .inl h
        · exact .inl hw
        · exact .inr h
    · rw [if_neg hw]
      have hs' : (seen ++ [w]).Nodup := by
        rw [← List.concat_eq_append]
        exact hs.concat hw
      obtain ⟨hn, hm⟩ := ih (seen ++ [w]) hs'
      refine ⟨hn, fun v => ?_⟩
      rw [hm]
      simp [or_assoc]

lemma nodup_columns (cs : List Constraint) : (columns cs).Nodup :=
  (foldl_first_occurrences _ [] List.nodup_nil).1

lemma mem_columns {cs : List Constraint} {v : Var} :
    v ∈ columns cs ↔ ∃ c ∈ cs, v ∈ c.form.vars := by
  rw [columns, (foldl_first_occurrences _ [] List.nodup_nil).2]
  simp [LinearForm.vars]

lemma coefficient_cons (t : Var × Int64) (ts : List (Var × Int64)) (c : Int64) (v : Var) :
    coefficient ⟨t :: ts, c⟩ v = (if v = t.1 then (t.2.toInt : ℚ) else 0) +
      coefficient ⟨ts, c⟩ v := by
  have hfold (us : List (Var × Int64)) (a : ℚ) :
      us.foldl (fun s t => s + (t.2.toInt : ℚ)) a =
        a + us.foldl (fun s t => s + (t.2.toInt : ℚ)) 0 := by
    induction us generalizing a with
    | nil => simp
    | cons u us ih =>
      rw [List.foldl_cons, List.foldl_cons, ih, ih (0 + _)]
      ring
  simp only [coefficient]
  by_cases h : t.1 = v
  · rw [List.filter_cons_of_pos (by simpa using h), List.foldl_cons, hfold, if_pos h.symm, zero_add]
  · rw [List.filter_cons_of_neg (by simpa using h), if_neg (fun he => h he.symm), zero_add]

lemma sum_coefficient {vars : List Var} (hn : vars.Nodup) (x : Var → ℚ) (l : LinearForm)
    (hl : l.vars ⊆ vars) :
    ∑ i : Fin vars.length, coefficient l (vars.get i) * x (vars.get i) =
      LinearForm.sumTerms x l.terms := by
  obtain ⟨ts, c⟩ := l
  simp only [LinearForm.vars] at hl
  induction ts with
  | nil => simp [coefficient]
  | cons t ts ih =>
    obtain ⟨k, hk⟩ := List.mem_iff_get.mp (hl (by simp : t.1 ∈ (t :: ts).map (·.1)))
    have hterm (i : Fin vars.length) :
        coefficient ⟨t :: ts, c⟩ (vars.get i) * x (vars.get i) =
          (if i = k then (t.2.toInt : ℚ) * x t.1 else 0) +
            coefficient ⟨ts, c⟩ (vars.get i) * x (vars.get i) := by
      have hik : vars.get i = t.1 ↔ i = k := by
        rw [← hk]
        exact (List.nodup_iff_injective_get.mp hn).eq_iff
      rw [coefficient_cons]
      by_cases h : i = k
      · rw [if_pos (hik.mpr h), if_pos h, hik.mpr h]
        ring
      · rw [if_neg (fun he => h (hik.mp he)), if_neg h]
        ring
    simp only [hterm, Finset.sum_add_distrib, Finset.sum_ite_eq', Finset.mem_univ, if_true,
      LinearForm.sumTerms_cons]
    rw [ih fun v hv => hl (by simp only [List.map_cons]; exact List.mem_cons_of_mem _ hv)]

/-! ### The first tableau -/

variable {vars : List Var} {cs : List Constraint}

lemma basic_start (r : Fin cs.length) :
    (start vars cs).basic.get r = r.natAdd vars.length := by
  simp [start]

lemma entry_start_castAdd (r : Fin cs.length) (i : Fin vars.length) :
    (start vars cs).entry r (i.castAdd cs.length) =
      coefficient (cs.get r).form (vars.get i) := by
  simp [start, entry]

lemma entry_start_natAdd (r k : Fin cs.length) :
    (start vars cs).entry r (k.natAdd vars.length) = 0 := by
  simp [start, entry]

lemma inBounds_start_castAdd (i : Fin vars.length) (q : ℚ) :
    (start vars cs).InBounds (i.castAdd cs.length) q := by
  simp [start, InBounds]

/-- The bounds of a slack say what the constraint says of the variable part. -/
lemma inBounds_start_natAdd (r : Fin cs.length) (x : Var → ℚ) :
    (start vars cs).InBounds (r.natAdd vars.length)
      (LinearForm.sumTerms x (cs.get r).form.terms) ↔ (cs.get r).Sat x := by
  have hlower : (start vars cs).lower.get (r.natAdd vars.length) = some (bound (cs.get r)) := by
    simp [start]
  cases hrel : (cs.get r).relation with
  | nonneg =>
    have hupper : (start vars cs).upper.get (r.natAdd vars.length) = none := by
      simp only [start, Vector.get_ofFn, Fin.addCases_right, hrel]
    simp only [InBounds, hlower, hupper, Constraint.Sat, hrel, LinearForm.eval, bound,
      Option.some_inj, forall_eq', reduceCtorEq, false_implies, implies_true, and_true]
    exact neg_le_iff_add_nonneg
  | zero =>
    have hupper : (start vars cs).upper.get (r.natAdd vars.length) = some (bound (cs.get r)) := by
      simp only [start, Vector.get_ofFn, Fin.addCases_right, hrel]
    simp only [InBounds, hlower, hupper, Constraint.Sat, hrel, LinearForm.eval, bound,
      Option.some_inj, forall_eq']
    constructor
    · rintro ⟨h₁, h₂⟩
      linarith
    · intro h
      constructor <;> linarith

lemma valid_start : (start vars cs).Valid where
  basic_injective := by
    intro r k h
    rw [basic_start, basic_start] at h
    exact Fin.natAdd_injective _ _ h
  isBasic_iff := by
    intro j
    induction j using Fin.addCases with
    | left i =>
      have hne (r : Fin cs.length) : r.natAdd vars.length ≠ i.castAdd cs.length := by
        intro he
        have := congrArg Fin.val he
        simp only [Fin.val_natAdd, Fin.val_castAdd] at this
        omega
      simp only [basic_start, hne, exists_false, iff_false]
      simp [start]
    | right r =>
      refine iff_of_true ?_ ⟨r, basic_start r⟩
      simp [start]
  entry_basic := by
    intro r k
    rw [basic_start, entry_start_natAdd]
  lower_le_upper := by
    intro j l u hl hu
    induction j using Fin.addCases with
    | left i => simp [start] at hl
    | right r =>
      simp only [start, Vector.get_ofFn, Fin.addCases_right, Option.some_inj] at hl hu
      split at hu
      · cases hu
      · exact (hl.symm.trans (Option.some_inj.mp hu)).le
  value_solves := by
    intro r
    simp [start, Vector.get_eq_getElem]
  inBounds := by
    intro j hj
    induction j using Fin.addCases with
    | left i => exact inBounds_start_castAdd i _
    | right r => exact absurd (basic_start r) (hj r)

lemma resting_start : (start vars cs).Resting where
  lower_of_upper := by
    intro j u hu
    induction j using Fin.addCases with
    | left i => simp [start] at hu
    | right r =>
      simp only [start, Vector.get_ofFn, Fin.addCases_right] at hu ⊢
      split at hu
      · cases hu
      · exact hu
  value := by
    intro j hj
    induction j using Fin.addCases with
    | left i =>
      have hlower : (start vars cs).lower.get (i.castAdd cs.length) = none := by simp [start]
      rw [hlower]
      simp [start, Vector.get_eq_getElem]
    | right r => exact absurd (basic_start r) (notMem_basis.mp hj r)

lemma reached_start : Reached (start vars cs) (start vars cs) :=
  ⟨valid_start, resting_start, .refl _⟩

lemma solves_start (y : Fin (vars.length + cs.length) → ℚ) :
    (start vars cs).Solves y ↔ ∀ r, y (r.natAdd vars.length) =
      ∑ i, coefficient (cs.get r).form (vars.get i) * y (i.castAdd cs.length) := by
  refine forall_congr' fun r => ?_
  rw [basic_start, Fin.sum_univ_add]
  simp [entry_start_castAdd, entry_start_natAdd]

lemma sat_of_start (hn : vars.Nodup) (hvars : ∀ c ∈ cs, c.form.vars ⊆ vars)
    {y : Fin (vars.length + cs.length) → ℚ} {x : Var → ℚ}
    (hx : ∀ i, x (vars.get i) = y (i.castAdd cs.length)) (hs : (start vars cs).Solves y)
    (hb : ∀ j, (start vars cs).InBounds j (y j)) : ∀ c ∈ cs, c.Sat x := by
  intro c hc
  obtain ⟨r, rfl⟩ := List.mem_iff_get.mp hc
  have hslack : (start vars cs).InBounds (r.natAdd vars.length)
      (LinearForm.sumTerms x (cs.get r).form.terms) := by
    rw [← sum_coefficient hn x _ (hvars _ hc)]
    simp only [hx, ← (solves_start y).mp hs r]
    exact hb _
  exact (inBounds_start_natAdd r x).mp hslack

lemma start_of_sat (hn : vars.Nodup) (hvars : ∀ c ∈ cs, c.form.vars ⊆ vars) {x : Var → ℚ}
    (h : ∀ c ∈ cs, c.Sat x) :
    ∃ y, (start vars cs).Solves y ∧ ∀ j, (start vars cs).InBounds j (y j) := by
  refine ⟨Fin.addCases (fun i => x (vars.get i))
    (fun r => LinearForm.sumTerms x (cs.get r).form.terms), ?_, fun j => ?_⟩
  · rw [solves_start]
    intro r
    simp only [Fin.addCases_left, Fin.addCases_right]
    exact (sum_coefficient hn x _ (hvars _ (List.get_mem cs r))).symm
  · induction j using Fin.addCases with
    | left i => exact inBounds_start_castAdd i _
    | right r =>
      simp only [Fin.addCases_right]
      exact (inBounds_start_natAdd r x).mpr (h _ (List.get_mem cs r))

def assigned {m : ℕ} (vars : List Var) (y : Fin (vars.length + m) → ℚ) (v : Var) : ℚ :=
  if h : v ∈ vars then y (Fin.castAdd m ⟨vars.idxOf v, List.idxOf_lt_length_of_mem h⟩) else 0

lemma assigned_get {m : ℕ} (hn : vars.Nodup) (y : Fin (vars.length + m) → ℚ)
    (i : Fin vars.length) : assigned vars y (vars.get i) = y (i.castAdd m) := by
  rw [assigned, dif_pos (List.get_mem vars i)]
  congr 2
  exact Fin.ext (hn.idxOf_getElem i i.isLt)

lemma solution_assignment (hn : vars.Nodup) (t : Tableau vars.length cs.length) :
    ∃ x : Var → ℚ, (∀ i, x (vars.get i) = t.value.get (i.castAdd cs.length)) ∧
      ∀ p ∈ t.solution vars, x p.1 = p.2 := by
  refine ⟨assigned vars t.value.get, assigned_get hn _, fun p hp => ?_⟩
  obtain ⟨i, hi, rfl⟩ := List.mem_iff_getElem.mp hp
  have hi' : i < vars.length := by
    rw [solution, List.length_zip] at hi
    omega
  have := assigned_get hn t.value.get ⟨i, hi'⟩
  simpa [solution, Vector.get_eq_getElem] using this

lemma ofConstraints_eq_ok {t : Tableau (columns cs).length cs.length}
    (h : ofConstraints cs = .ok t) : t = start (columns cs) cs := by
  unfold ofConstraints at h
  split_ifs at h
  cases h
  rfl

/-- Checking constraints ends with an answer. On the way no basis comes twice, and every pivot
follows the rule: the first basic column that is out of bounds leaves for the bound it violates,
the first column that helps enters, and the entry that is divided by is not zero. -/
theorem check_terminates {t : Tableau (columns cs).length cs.length}
    (h : ofConstraints cs = .ok t) :
    ∃ k run b, t.Pivots k run ∧ (run k).step = .inl b ∧ t.check = .ok (b, run k) ∧
      k < 2 ^ ((columns cs).length + cs.length) ∧
      (∀ p ≤ k, ∀ q ≤ k, (run p).basis = (run q).basis → p = q) ∧
      ∀ i < k, ∃ v j, (run i).Chooses v j ∧ run (i + 1) = (run i).pivot v.row j v.target := by
  obtain rfl := ofConstraints_eq_ok h
  obtain ⟨k, run, b, hrun, hstep, hcheck⟩ := check_pivots (@reached_start (columns cs) cs)
  exact ⟨k, run, b, hrun, hstep, hcheck, hrun.lt_two_pow reached_start,
    fun p hp q hq => hrun.basis_injective reached_start hp hq,
    fun i hi => hrun.chooses reached_start hi⟩

/-- A triangle of points with `x ≥ 2`, `y ≥ 3` and `x + y ≤ 10`, of which zero is none. -/
def triangle : List Constraint :=
  [⟨⟨[(⟨"x", none⟩, 1)], -2⟩, .nonneg⟩, ⟨⟨[(⟨"y", none⟩, 1)], -3⟩, .nonneg⟩,
    ⟨⟨[(⟨"x", none⟩, -1), (⟨"y", none⟩, -1)], 10⟩, .nonneg⟩]

lemma ofConstraints_triangle : ofConstraints triangle = .ok (start (columns triangle) triangle) :=
  if_pos (by decide)

theorem check_terminates_triangle :
    ofConstraints triangle = .ok (start (columns triangle) triangle) ∧
      ∃ k run b, (start (columns triangle) triangle).Pivots k run ∧ k < 32 ∧
        (start (columns triangle) triangle).check = .ok (b, run k) := by
  refine ⟨ofConstraints_triangle, ?_⟩
  obtain ⟨k, run, b, hrun, -, hcheck, hk, -⟩ := check_terminates ofConstraints_triangle
  exact ⟨k, run, b, hrun, hk, hcheck⟩

end Tableau

namespace Constraint

open Tableau

lemma solve?_eq_ok {cs : List Constraint} {answer : Option (List (Var × ℚ))}
    (h : solve? cs = .ok answer) :
    ∃ b t, (start (columns cs) cs).check = .ok (b, t) ∧
      answer = if b then some (t.solution (columns cs)) else none := by
  obtain ⟨t, ht, h⟩ := Result.bind_eq_ok.mp h
  obtain rfl := ofConstraints_eq_ok ht
  obtain ⟨⟨b, t⟩, hc, hb⟩ := Result.bind_eq_ok.mp h
  exact ⟨b, t, hc, (Result.pure_eq_ok.mp hb).symm⟩

lemma form_vars_subset_columns {cs : List Constraint} : ∀ c ∈ cs, c.form.vars ⊆ columns cs :=
  fun c hc _ hv => mem_columns.mpr ⟨c, hc, hv⟩

theorem not_sat_of_solve? {cs : List Constraint} (h : solve? cs = .ok none) (x : Var → ℚ) :
    ¬∀ c ∈ cs, c.Sat x := by
  intro hx
  obtain ⟨b, t, hc, hb⟩ := solve?_eq_ok h
  obtain ⟨y, hs, hin⟩ := start_of_sat (nodup_columns cs) form_vars_subset_columns hx
  cases b with
  | true => simp at hb
  | false => exact check_false valid_start hc hs hin

theorem sat_of_solve? {cs : List Constraint} {xs : List (Var × ℚ)}
    (h : solve? cs = .ok (some xs)) :
    xs.map (·.1) = columns cs ∧
      ∃ x : Var → ℚ, (∀ p ∈ xs, x p.1 = p.2) ∧ ∀ c ∈ cs, c.Sat x := by
  obtain ⟨b, t, hc, hb⟩ := solve?_eq_ok h
  cases b with
  | false => simp at hb
  | true =>
    simp only [if_true, Option.some_inj] at hb
    subst hb
    obtain ⟨x, hx, hp⟩ := solution_assignment (nodup_columns cs) t
    obtain ⟨hs, hin⟩ := check_true valid_start hc
    refine ⟨?_, x, hp, sat_of_start (nodup_columns cs) form_vars_subset_columns hx hs hin⟩
    rw [solution, List.map_fst_zip]
    simp

lemma sat_of_agree {cs : List Constraint} {xs : List (Var × ℚ)} {x y : Var → ℚ}
    (hcols : xs.map (·.1) = columns cs) (hx : ∀ p ∈ xs, x p.1 = p.2) (hy : ∀ p ∈ xs, y p.1 = p.2)
    (h : ∀ c ∈ cs, c.Sat x) : ∀ c ∈ cs, c.Sat y := by
  intro c hc
  refine (sat_congr fun v hv => ?_).mp (h c hc)
  have hmem : v ∈ xs.map (·.1) := hcols ▸ form_vars_subset_columns c hc hv
  obtain ⟨p, hp, rfl⟩ := List.mem_map.mp hmem
  rw [hx p hp, hy p hp]

end Constraint

namespace Tableau

open Constraint

lemma integers_eq_ok {xs : List (Var × ℚ)} {vs : List (Var × Int64)} (hf : fractional? xs = none)
    (h : integers xs = .ok vs) :
    vs.map (·.1) = xs.map (·.1) ∧ ∀ x ∈ xs, ∃ v ∈ vs, v.1 = x.1 ∧ ((v.2.toInt : ℤ) : ℚ) = x.2 := by
  have hint : ∀ x ∈ xs, x.2.den = 1 := by
    intro x hx
    have := List.find?_eq_none.mp hf x hx
    simpa using this
  have hall := Result.mapM_eq_ok h
  clear hf h
  induction hall with
  | nil => simp
  | @cons x v xs vs hv _ ih =>
    rw [List.forall_mem_cons] at hint
    obtain ⟨hkeys, hvalues⟩ := ih hint.2
    obtain ⟨k, hk, hv⟩ := Result.bind_eq_ok.mp hv
    rw [Result.orError_eq_ok, Word.ofInt?_eq_some, hint.1, Nat.cast_one, Int.tdiv_one] at hk
    have hvx : v.1 = x.1 ∧ ((v.2.toInt : ℤ) : ℚ) = x.2 := by
      rw [← Result.pure_eq_ok.mp hv, hk]
      exact ⟨rfl, Rat.coe_int_num_of_den_eq_one hint.1⟩
    refine ⟨by rw [List.map_cons, List.map_cons, hkeys, hvx.1], ?_⟩
    rw [List.forall_mem_cons]
    refine ⟨⟨v, by simp, hvx⟩, fun y hy => ?_⟩
    obtain ⟨w, hw, hwy⟩ := hvalues y hy
    exact ⟨w, by simp [hw], hwy⟩

lemma integers_eq_error {xs : List (Var × ℚ)} {f : Failure} (h : integers xs = .error f) :
    f = .error (.overflow "reading a model") := by
  let p : Failure → Prop := (· = .error (.overflow "reading a model"))
  have hread (q : ℚ) : Result.FailsOnly
      (Result.orError (Word.ofInt? (q.num.tdiv q.den)) (.overflow "reading a model")) p :=
    Result.failsOnly_orError rfl
  have hall : Result.FailsOnly (integers xs) p :=
    Result.FailsOnly.mapM fun x _ => (hread x.2).bind fun _ => Result.failsOnly_ok _
  exact hall f h

lemma sat_of_integers {cs : List Constraint} {xs : List (Var × ℚ)} {vs : List (Var × Int64)}
    {x : Var → ℚ} (hcols : xs.map (·.1) = columns cs) (hx : ∀ p ∈ xs, x p.1 = p.2)
    (hsat : ∀ c ∈ cs, c.Sat x) (hf : fractional? xs = none) (hi : integers xs = .ok vs) :
    vs.map (·.1) = columns cs ∧
      ∀ ρ : Var → ℤ, (∀ v ∈ vs, ρ v.1 = v.2.toInt) → ∀ c ∈ cs, c.Sat ρ := by
  obtain ⟨hkeys, hvalues⟩ := integers_eq_ok hf hi
  refine ⟨hkeys.trans hcols, fun ρ hρ c hc => (sat_intCast ρ c).mp ?_⟩
  refine sat_of_agree hcols hx (fun p hp => ?_) hsat c hc
  obtain ⟨v, hv, hkey, hvalue⟩ := hvalues p hp
  rw [← hkey, hρ v hv, hvalue]

lemma check_of_step {n m : ℕ} {t : Tableau n m} {b : Bool} (h : t.step = .inl b) :
    t.check = .ok (b, t) := by
  have hfuel : Nat.pow 2 (n + m) = Nat.pow 2 (n + m) - 1 + 1 :=
    (Nat.sub_add_cancel (Nat.pow_pos (by decide))).symm
  rw [check, hfuel, repair, h]
  rfl

/-- A check decides whether the constraints have a rational solution. After a positive answer the
current values are one, and if they are all integral and in range they give an integer solution.
Checking again changes nothing. -/
theorem check_decides {cs : List Constraint} {t : Tableau (columns cs).length cs.length}
    (h : ofConstraints cs = .ok t) :
    ∃ b t', t.check = .ok (b, t') ∧
      (b = true ↔ ∃ x : Var → ℚ, ∀ c ∈ cs, c.Sat x) ∧
      (b = true →
        (t'.solution (columns cs)).map (·.1) = columns cs ∧ (columns cs).Nodup ∧
        (∀ x : Var → ℚ, (∀ p ∈ t'.solution (columns cs), x p.1 = p.2) → ∀ c ∈ cs, c.Sat x) ∧
        (fractional? (t'.solution (columns cs)) = none →
          ∀ vs, integers (t'.solution (columns cs)) = .ok vs →
            vs.map (·.1) = columns cs ∧
              ∀ ρ : Var → ℤ, (∀ v ∈ vs, ρ v.1 = v.2.toInt) → ∀ c ∈ cs, c.Sat ρ)) ∧
      t'.check = .ok (b, t') := by
  obtain ⟨k, run, b, hrun, hstep, hcheck⟩ :=
    check_pivots (ofConstraints_eq_ok h ▸ @reached_start (columns cs) cs)
  have hsolve : solve? cs = .ok (if b then some ((run k).solution (columns cs)) else none) := by
    rw [solve?, h]
    change (t.check >>= _) = _
    rw [hcheck]
    rfl
  refine ⟨b, run k, hcheck, ?_, fun hb => ?_, check_of_step hstep⟩
  · cases b with
    | true =>
      obtain ⟨-, x, -, hsat⟩ := sat_of_solve? hsolve
      exact ⟨fun _ => ⟨x, hsat⟩, fun _ => rfl⟩
    | false =>
      refine ⟨fun hb => absurd hb Bool.false_ne_true, fun hx => ?_⟩
      obtain ⟨x, hx⟩ := hx
      exact absurd hx (not_sat_of_solve? hsolve x)
  · subst hb
    obtain ⟨hcols, x, hx, hsat⟩ := sat_of_solve? hsolve
    refine ⟨hcols, nodup_columns cs, fun y hy => sat_of_agree hcols hx hy hsat, fun hf vs hi => ?_⟩
    exact sat_of_integers hcols hx hsat hf hi

/-- The corner at two and three is enough to know the answer. -/
theorem check_decides_triangle :
    ofConstraints triangle = .ok (start (columns triangle) triangle) ∧
      ∃ t', (start (columns triangle) triangle).check = .ok (true, t') ∧
        t'.check = .ok (true, t') ∧
        ∀ x : Var → ℚ, (∀ p ∈ t'.solution (columns triangle), x p.1 = p.2) →
          ∀ c ∈ triangle, c.Sat x := by
  refine ⟨ofConstraints_triangle, ?_⟩
  obtain ⟨b, t', hcheck, hb, hvalues, hagain⟩ := check_decides ofConstraints_triangle
  have hcorner : ∀ c ∈ triangle, c.Sat fun v : Var => if v.name = "x" then (2 : ℚ) else 3 := by
    simp [triangle, Constraint.Sat, LinearForm.eval, LinearForm.sumTerms]
    norm_num
  obtain rfl : b = true := hb.mpr ⟨_, hcorner⟩
  exact ⟨t', hcheck, hagain, (hvalues rfl).2.2.1⟩

end Tableau
end LoopInvariant
