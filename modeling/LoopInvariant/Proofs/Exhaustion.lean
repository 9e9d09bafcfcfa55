import LoopInvariant.Proofs.Boxes
import LoopInvariant.Proofs.Faults

/-! How many tests branch and bound cannot do without. A split loses the points with a coordinate in
the gap between two neighbouring integers and keeps all others. Given rational solutions of which no
two are in the same gap, every split loses one of them at most, and so a search for an integer
solution that does not exist takes more than twice as many tests as there are points. A box of
64-bit integers has room for more of them than a budget of 64 bits has tests. -/
namespace LoopInvariant.Search

open Constraint

/-- No two of the points have a coordinate between the same neighbouring integers. -/
def Spread (p : ℤ → Var → ℚ) : Prop :=
  ∀ v (f i j : ℤ), f < p i v → p i v < f + 1 → f < p j v → p j v < f + 1 → i = j

lemma spread_translates (offset : Var → ℚ) : Spread fun j v => j + offset v := by
  intro v f i j hi hi' hj hj'
  have hij : (i : ℚ) < j + 1 := by linarith
  have hji : (j : ℚ) < i + 1 := by linarith
  norm_cast at hij hji
  omega

open Classical in
noncomputable def survivors (p : ℤ → Var → ℚ) (js : Finset ℤ) (cs : List Constraint) : Finset ℤ :=
  js.filter fun j => ∀ c ∈ cs, c.Sat (p j)

variable {p : ℤ → Var → ℚ} {js : Finset ℤ} {vars : List Var} {cs down up : List Constraint}
  {x : Var} {q : ℚ} {j : ℤ}

lemma mem_survivors : j ∈ survivors p js cs ↔ j ∈ js ∧ ∀ c ∈ cs, c.Sat (p j) := by
  simp [survivors]

lemma survivors_of_solve? (hs : solve? cs = .ok none) : survivors p js cs = ∅ := by
  rw [Finset.eq_empty_iff_forall_notMem]
  intro j hj
  exact Constraint.not_sat_of_solve? hs (p j) (mem_survivors.mp hj).2

/-- A split loses one point at most. -/
lemma card_survivors_split (hp : Spread p) (js : Finset ℤ)
    (hsplit : split cs x q = .ok (down, up)) :
    (survivors p js cs).card ≤ (survivors p js down).card + (survivors p js up).card + 1 := by
  obtain ⟨below, above, rfl, rfl, -, -, hsides⟩ := split_eq_ok hsplit
  let lost := (survivors p js cs).filter fun j => q.floor < p j x ∧ p j x < q.floor + 1
  have hlost : lost.card ≤ 1 := by
    rw [Finset.card_le_one]
    intro i hi j hj
    obtain ⟨-, hi, hi'⟩ := Finset.mem_filter.mp hi
    obtain ⟨-, hj, hj'⟩ := Finset.mem_filter.mp hj
    exact hp x q.floor i j hi hi' hj hj'
  have hcover : survivors p js cs ⊆
      survivors p js (cs ++ [below]) ∪ survivors p js (cs ++ [above]) ∪ lost := by
    intro j hj
    obtain ⟨hjs, hsat⟩ := mem_survivors.mp hj
    obtain ⟨hbelow, habove⟩ := hsides ℚ (p j)
    simp only [Finset.mem_union, mem_survivors, List.forall_mem_append, List.forall_mem_singleton,
      hbelow, habove]
    rcases le_or_gt (p j x) q.floor with hle | hgt
    · exact .inl (.inl ⟨hjs, hsat, hle⟩)
    · rcases le_or_gt ((q.floor : ℚ) + 1) (p j x) with hle | hlt
      · exact .inl (.inr ⟨hjs, hsat, hle⟩)
      · exact .inr (Finset.mem_filter.mpr ⟨hj, hgt, hlt⟩)
  have hcard := Finset.card_le_card hcover
  have hunion := Finset.card_union_le (survivors p js (cs ++ [below]))
    (survivors p js (cs ++ [above]))
  have hunion' := Finset.card_union_le
    (survivors p js (cs ++ [below]) ∪ survivors p js (cs ++ [above])) lost
  omega

/-! ### Conjunctions without integer solutions -/

/-- There is no integer solution, and the rational ones are so small that the search for one does
not fail. -/
structure Elusive (vars : List Var) (cs : List Constraint) : Prop where
  mild : Mild cs
  vars_subset : ∀ c ∈ cs, c.form.vars ⊆ vars
  confined : Confined vars (fun _ => -Int64.maxValue.toInt) (fun _ => Int64.maxValue.toInt) cs
  unsolvable : ∀ ρ : Valuation, ¬∀ c ∈ cs, c.Sat ρ

lemma Elusive.append (h : Elusive vars cs) {c : Constraint} (hc : ¬c.Extreme)
    (hvars : c.form.vars ⊆ vars) : Elusive vars (cs ++ [c]) where
  mild := mild_append h.mild hc
  vars_subset := List.forall_mem_append.mpr ⟨h.vars_subset, List.forall_mem_singleton.mpr hvars⟩
  confined y hy := h.confined y (List.forall_mem_append.mp hy).1
  unsolvable ρ hρ := h.unsolvable ρ (List.forall_mem_append.mp hρ).1

/-- A vertex has a fraction among its coordinates, since it would be an integer solution. -/
lemma Elusive.exists_fraction (h : Elusive vars cs) {xs : List (Var × ℚ)}
    (hs : solve? cs = .ok (some xs)) : ∃ x q, Tableau.fractional? xs = some (x, q) := by
  cases hf : Tableau.fractional? xs with
  | some fraction => exact ⟨fraction.1, fraction.2, rfl⟩
  | none =>
    obtain ⟨hcols, y, hy, hsat⟩ := sat_of_solve? hs
    have hintegral : ∀ e ∈ xs, ((y e.1).num : ℚ) = e.2 := by
      intro e he
      have hden : e.2.den = 1 := by simpa using List.find?_eq_none.mp hf e he
      rw [hy e he]
      exact Rat.coe_int_num_of_den_eq_one hden
    have hnums := sat_of_agree (y := fun v => ((y v).num : ℚ)) hcols hy hintegral hsat
    exact absurd (fun c hc => (sat_intCast _ c).mp (hnums c hc)) (h.unsolvable fun v => (y v).num)

lemma Elusive.exists_split (h : Elusive vars cs) {xs : List (Var × ℚ)}
    (hs : solve? cs = .ok (some xs)) (hf : Tableau.fractional? xs = some (x, q)) :
    ∃ down up, split cs x q = .ok (down, up) ∧ Elusive vars down ∧ Elusive vars up := by
  obtain ⟨hx, y, hy, hsat⟩ := fraction_mem h.vars_subset hs hf
  have hbox : ((-Int64.maxValue.toInt : ℤ) : ℚ) ≤ q ∧ q ≤ (Int64.maxValue.toInt : ℤ) :=
    hy ▸ h.confined y hsat x hx
  obtain ⟨hlow, hhigh⟩ := floor_inside (by simpa using List.find?_some hf) hbox.1 hbox.2
  have hmax : Int64.maxValue.toInt = 9223372036854775807 := rfl
  obtain ⟨floor, hfloor⟩ : ∃ w, Word.ofInt? q.floor = some w := by
    apply Word.exists_ofInt? <;> omega
  have hvalue := Word.ofInt?_eq_some.mp hfloor
  have hne : floor ≠ Int64.minValue := by
    rintro rfl
    rw [Int64.toInt_minValue] at hvalue
    omega
  obtain ⟨rest, hrest, hsplit⟩ := split_of_floor cs x hvalue.symm hne
  have hrest' : rest ≠ Int64.minValue := by
    rintro rfl
    rw [Int64.toInt_minValue] at hrest
    omega
  have hsingle (a : Int64) (c : Int64) :
      (⟨⟨[(x, a)], c⟩, .nonneg⟩ : Constraint).form.vars ⊆ vars := by
    simpa [LinearForm.vars] using hx
  exact ⟨_, _, hsplit, h.append hne (hsingle _ _), h.append hrest' (hsingle _ _)⟩

/-- Two tests for each point that a conjunction on the stack still has, and one to end with. -/
noncomputable def need (p : ℤ → Var → ℚ) (js : Finset ℤ) (stack : List (List Constraint)) : ℕ :=
  (stack.map fun cs => 2 * (survivors p js cs).card + 1).sum

/-- Branch and bound runs out of tests while there are points left. -/
theorem bounding_exhausted (hp : Spread p) (js : Finset ℤ) (left : ℕ)
    (stack : List (List Constraint)) (h : ∀ cs ∈ stack, Elusive vars cs)
    (hleft : left < need p js stack) : bounding stack left = (.error .exhausted, 0) := by
  induction left generalizing stack with
  | zero =>
    cases stack with
    | nil => simp [need] at hleft
    | cons cs stack => exact bounding_zero cs stack
  | succ left ih =>
    cases stack with
    | nil => simp [need] at hleft
    | cons cs stack =>
      obtain ⟨hcs, hstack⟩ := List.forall_mem_cons.mp h
      simp only [need, List.map_cons, List.sum_cons] at hleft
      obtain ⟨answer, hs⟩ := exists_solve? hcs.mild
      cases answer with
      | none =>
        have hnext : bounding (cs :: stack) (left + 1) = bounding stack left := by
          simp only [bounding, branchAndBound, hs]
        -- it has no points, so that the only test it needs is the one that was made
        rw [hnext]
        refine ih stack hstack ?_
        rw [survivors_of_solve? hs, Finset.card_empty] at hleft
        simp only [need]
        omega
      | some xs =>
        obtain ⟨x, q, hf⟩ := hcs.exists_fraction hs
        obtain ⟨down, up, hsplit, hdown, hup⟩ := hcs.exists_split hs hf
        have hnext : bounding (cs :: stack) (left + 1) = bounding (down :: up :: stack) left := by
          simp only [bounding, branchAndBound, hs, hf, hsplit]
        -- the parts have lost one point, and end with two tests where there was one
        rw [hnext]
        refine ih _ (List.forall_mem_cons.mpr ⟨hdown, List.forall_mem_cons.mpr ⟨hup, hstack⟩⟩) ?_
        have hcard := card_survivors_split hp js hsplit
        simp only [need, List.map_cons, List.sum_cons]
        omega

lemma need_le_of_takes (hp : Spread p) (js : Finset ℤ) {stack : List (List Constraint)}
    (h : ∀ cs ∈ stack, Elusive vars cs) {n : ℕ} {outcome : Except Halt (Option Solution)}
    (htakes : Takes (bounding stack) n outcome) : need p js stack ≤ n := by
  by_contra hlt
  have hexhausted := bounding_exhausted hp js n stack h (by omega)
  have hend := htakes.above 0
  rw [Nat.add_zero, hexhausted] at hend
  exact htakes.decided (congrArg Prod.fst hend).symm

lemma takes_explore_atoms (cs : List Constraint) {more : List Constraint} {y : Var → ℚ}
    (hmild : Mild (cs ++ more)) (hy : ∀ c ∈ cs ++ more, c.Sat y) {n : ℕ}
    {outcome : Except Halt (Option Solution)} (h : Takes (bounding [cs ++ more]) n outcome) :
    Takes (explore cs (more.map .atom) []) (more.length + n) outcome := by
  induction more generalizing cs with
  | nil =>
    rw [List.append_nil] at h
    rw [List.map_nil, explore, List.length_nil, Nat.zero_add]
    exact h
  | cons c more ih =>
    have hassoc : cs ++ c :: more = cs ++ [c] ++ more := by simp
    rw [hassoc] at hmild hy h
    obtain ⟨answer, hs⟩ := exists_solve? (List.forall_mem_append.mp hmild).1
    cases answer with
    | none => exact absurd (List.forall_mem_append.mp hy).1 (Constraint.not_sat_of_solve? hs y)
    | some xs =>
      have hlength : (c :: more).length + n = 1 + (more.length + n) := by
        rw [List.length_cons]
        omega
      rw [List.map_cons, explore, hlength]
      exact (takes_feasible?_of_ok hs).bind_ok (ih _ hmild hy h)

/-- A conjunction without integer solutions stays unknown with fewer tests than its constraints and
the points in it need. -/
theorem check_unknown_of_spread {f : Expr} (hp : Spread p) (js : Finset ℤ) (h : Elusive vars cs)
    (hf : f.normalForm true = .ok (.join .and (cs.reverse.map .atom))) (hj : ∀ c ∈ cs, c.Sat (p j))
    {b : ℕ} (hb : b < cs.length + need p js [cs]) :
    (Solver.builtIn.check f b ()).1 = .ok .unknown := by
  have hstack : ∀ ds ∈ [cs], Elusive vars ds := List.forall_mem_singleton.mpr h
  obtain ⟨n, -, outcome, htakes⟩ :=
    settles_confined h.vars_subset h.confined [] ⟨0, le_rfl, _, takes_bounding_nil⟩
  have hneed := need_le_of_takes hp js hstack htakes
  have hexplore : Takes (explore [] [.join .and (cs.reverse.map .atom)] []) (cs.length + n)
      outcome := by
    rw [explore, List.append_nil, ← List.map_reverse, List.reverse_reverse]
    exact takes_explore_atoms [] h.mild hj htakes
  change (run f b).1 = .ok .unknown
  rw [run_of_explore hf (hexplore.below b (by omega))]
  rfl

/-! ### A box without a budget -/

/-- Sides of the length `3 * 2 ^ 62`. -/
def farOff : Int64 := 6917529027641081856

/-- The points with `x = y` and `x + y - 2 z = 1`, none of which is integral. -/
def skewed : Expr :=
  .join .and [.cmp .eq (.arith .sub (.var ⟨"x", none⟩) (.var ⟨"y", none⟩)) (.int 0),
    .cmp .eq (.arith .sub (.arith .add (.var ⟨"x", none⟩) (.var ⟨"y", none⟩))
      (.arith .mul (.int 2) (.var ⟨"z", none⟩))) (.int 1)]

def skewedConstraints : List Constraint :=
  [⟨⟨[(⟨"z", none⟩, -1)], farOff⟩, .nonneg⟩, ⟨⟨[(⟨"z", none⟩, 1)], farOff⟩, .nonneg⟩,
    ⟨⟨[(⟨"y", none⟩, -1)], farOff⟩, .nonneg⟩, ⟨⟨[(⟨"y", none⟩, 1)], farOff⟩, .nonneg⟩,
    ⟨⟨[(⟨"x", none⟩, -1)], farOff⟩, .nonneg⟩, ⟨⟨[(⟨"x", none⟩, 1)], farOff⟩, .nonneg⟩,
    ⟨⟨[(⟨"x", none⟩, 1), (⟨"y", none⟩, 1), (⟨"z", none⟩, -2)], -1⟩, .zero⟩,
    ⟨⟨[(⟨"x", none⟩, 1), (⟨"y", none⟩, -1)], 0⟩, .zero⟩]

lemma normalForm_skewed :
    (Expr.join .and (skewed :: skewed.bounds (fun _ => -farOff) fun _ => farOff)).normalForm true =
      .ok (.join .and (skewedConstraints.reverse.map .atom)) := by
  rfl

lemma sat_skewed {R : Type} [CommRing R] [LinearOrder R] [IsStrictOrderedRing R] {ρ : Var → R} :
    (∀ c ∈ skewedConstraints, c.Sat ρ) ↔
      (∀ v ∈ [⟨"x", none⟩, ⟨"y", none⟩, ⟨"z", none⟩],
        -6917529027641081856 ≤ ρ v ∧ ρ v ≤ 6917529027641081856) ∧
      ρ ⟨"x", none⟩ = ρ ⟨"y", none⟩ ∧
      ρ ⟨"x", none⟩ + ρ ⟨"y", none⟩ = 2 * ρ ⟨"z", none⟩ + 1 := by
  simp [skewedConstraints, Sat, LinearForm.eval, LinearForm.sumTerms, farOff]
  constructor
  · rintro ⟨hz', hz, hy', hy, hx', hx, hsum, heq⟩
    refine ⟨⟨⟨?_, hx'⟩, ⟨?_, hy'⟩, ⟨?_, hz'⟩⟩, ?_, ?_⟩ <;> linarith
  · rintro ⟨⟨⟨hx, hx'⟩, ⟨hy, hy'⟩, ⟨hz, hz'⟩⟩, heq, hsum⟩
    refine ⟨hz', ?_, hy', ?_, hx', ?_, ?_, ?_⟩ <;> linarith

lemma elusive_skewed :
    Elusive [⟨"x", none⟩, ⟨"y", none⟩, ⟨"z", none⟩] skewedConstraints where
  mild := by
    simp only [Mild, skewedConstraints, Extreme, List.forall_mem_cons]
    decide
  vars_subset := by decide
  confined y hy v hv := by
    have hmax : Int64.maxValue.toInt = 9223372036854775807 := rfl
    obtain ⟨hlow, hhigh⟩ := (sat_skewed.mp hy).1 v hv
    rw [hmax]
    push_cast
    constructor <;> linarith
  unsolvable ρ hρ := by
    obtain ⟨-, heq, hsum⟩ := sat_skewed.mp hρ
    omega

/-- A quarter away from the integers on the diagonal. -/
def quarters (j : ℤ) (v : Var) : ℚ := j + if v.name = "z" then -1 / 4 else 1 / 4

lemma spread_quarters : Spread quarters := spread_translates _

lemma quarters_solve (hj : j ∈ Finset.Ico (-farOff.toInt + 1) farOff.toInt) :
    ∀ c ∈ skewedConstraints, c.Sat (quarters j) := by
  have hfar : farOff.toInt = 6917529027641081856 := rfl
  obtain ⟨hlow, hhigh⟩ := Finset.mem_Ico.mp hj
  rw [hfar] at hlow hhigh
  have hlow' : (-6917529027641081855 : ℚ) ≤ j := by exact_mod_cast hlow
  have hhigh' : (j : ℚ) ≤ 6917529027641081855 := by exact_mod_cast Int.le_of_lt_add_one hhigh
  refine sat_skewed.mpr ⟨fun v _ => ?_, by simp [quarters], by simp [quarters]; ring⟩
  rw [quarters]
  split <;> constructor <;> linarith

lemma need_skewed : 3 * 2 ^ 63 - 1 =
    need quarters (Finset.Ico (-farOff.toInt + 1) farOff.toInt) [skewedConstraints] := by
  have hall : survivors quarters (Finset.Ico (-farOff.toInt + 1) farOff.toInt) skewedConstraints =
      Finset.Ico (-farOff.toInt + 1) farOff.toInt := by
    ext j
    rw [mem_survivors, and_iff_left_iff_imp]
    exact quarters_solve
  have hfar : farOff.toInt = 6917529027641081856 := rfl
  rw [need, List.map_singleton, List.sum_singleton, hall, Int.card_Ico, hfar]
  decide

/-- No budget of 64 bits is enough for the formula in its box. -/
theorem no_budget_decides_skewed :
    ¬∃ enough ≤ Oracle.maxBudget, ∀ b, enough ≤ b → b ≤ Oracle.maxBudget →
      (Solver.builtIn.check (.join .and (skewed :: skewed.bounds (fun _ => -farOff) fun _ => farOff))
        b ()).1 ≠ .ok .unknown := by
  rintro ⟨enough, hle, hdecided⟩
  have horigin : (0 : ℤ) ∈ Finset.Ico (-farOff.toInt + 1) farOff.toInt :=
    Finset.mem_Ico.mpr ⟨by decide, by decide⟩
  refine hdecided _ hle le_rfl (check_unknown_of_spread spread_quarters
    (Finset.Ico (-farOff.toInt + 1) farOff.toInt) elusive_skewed normalForm_skewed
    (quarters_solve horigin) ?_)
  rw [← need_skewed]
  norm_num [Oracle.maxBudget, skewedConstraints]

end LoopInvariant.Search
