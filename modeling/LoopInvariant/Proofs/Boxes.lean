import LoopInvariant.Proofs.Budget
import LoopInvariant.Proofs.Model

/-! Formulas whose variables all have bounds. Every complete conjunction of such a formula confines
its rational solutions to a box. A split at a fractional value parts the integer points of the box
in two, so that branch and bound visits fewer than twice as many conjunctions as there are points,
and enough tests decide the formula. -/
namespace LoopInvariant

namespace Search

/-! ### Branch and bound in a box -/

/-- Every rational solution of the constraints lies in the box. -/
def Confined (vars : List Var) (lo hi : Var → ℤ) (cs : List Constraint) : Prop :=
  ∀ x : Var → ℚ, (∀ c ∈ cs, c.Sat x) → ∀ v ∈ vars, (lo v : ℚ) ≤ x v ∧ x v ≤ hi v

def points (vars : List Var) (lo hi : Var → ℤ) : ℕ := ∏ v ∈ vars.toFinset, (hi v + 1 - lo v).toNat

/-- The number of nodes in a tree that parts the points one by one. -/
def nodes (vars : List Var) (lo hi : Var → ℤ) : ℕ := max 1 (2 * points vars lo hi - 1)

variable {vars : List Var} {lo hi : Var → ℤ} {cs down up : List Constraint} {x : Var} {q : ℚ}

lemma points_pos (h : ∀ v ∈ vars, lo v ≤ hi v) : 0 < points vars lo hi := by
  refine Finset.prod_pos fun v hv => ?_
  have := h v (List.mem_toFinset.mp hv)
  omega

/-- Each point of a box is on one side of a cut through it. -/
lemma points_split {f : ℤ} (hx : x ∈ vars) (hlo : lo x ≤ f) (hhi : f < hi x) :
    points vars lo (Function.update hi x f) + points vars (Function.update lo x (f + 1)) hi =
      points vars lo hi := by
  have hmem : x ∈ vars.toFinset := List.mem_toFinset.mpr hx
  have hothers (lo' hi' : Var → ℤ) (hl : ∀ v ≠ x, lo' v = lo v) (hh : ∀ v ≠ x, hi' v = hi v) :
      points vars lo' hi' = (hi' x + 1 - lo' x).toNat *
        ∏ v ∈ vars.toFinset.erase x, (hi v + 1 - lo v).toNat := by
    rw [points, ← Finset.mul_prod_erase _ _ hmem]
    congr 1
    refine Finset.prod_congr rfl fun v hv => ?_
    rw [hl v (Finset.ne_of_mem_erase hv), hh v (Finset.ne_of_mem_erase hv)]
  have hside : (hi x + 1 - lo x).toNat = (f + 1 - lo x).toNat + (hi x + 1 - (f + 1)).toNat := by
    omega
  rw [hothers lo hi (fun _ _ => rfl) fun _ _ => rfl,
    hothers lo _ (fun _ _ => rfl) fun v hv => Function.update_of_ne hv f hi,
    hothers _ hi (fun v hv => Function.update_of_ne hv (f + 1) lo) fun _ _ => rfl,
    Function.update_self, Function.update_self, hside, Nat.add_mul]

lemma floor_inside {l h : ℤ} (hq : q.den ≠ 1) (hl : (l : ℚ) ≤ q) (hh : q ≤ h) :
    l ≤ q.floor ∧ q.floor < h := by
  have hne : q ≠ h := by
    rintro rfl
    exact hq (Rat.den_intCast h)
  constructor
  · exact Rat.le_floor_iff.mpr hl
  · exact Rat.floor_lt_iff.mpr (lt_of_le_of_ne hh hne)

lemma Confined.lower_part (h : Confined vars lo hi cs) (hsplit : split cs x q = .ok (down, up)) :
    Confined vars lo (Function.update hi x q.floor) down := by
  obtain ⟨below, above, rfl, rfl, _, _, hsides⟩ := split_eq_ok hsplit
  intro y hy v hv
  rw [List.forall_mem_append, List.forall_mem_singleton] at hy
  obtain ⟨hlo, hhi⟩ := h y hy.1 v hv
  refine ⟨hlo, ?_⟩
  by_cases hvx : v = x
  · subst hvx
    rw [Function.update_self]
    exact (hsides ℚ y).1.mp hy.2
  · rw [Function.update_of_ne hvx]
    exact hhi

lemma Confined.upper_part (h : Confined vars lo hi cs) (hsplit : split cs x q = .ok (down, up)) :
    Confined vars (Function.update lo x (q.floor + 1)) hi up := by
  obtain ⟨below, above, rfl, rfl, _, _, hsides⟩ := split_eq_ok hsplit
  intro y hy v hv
  rw [List.forall_mem_append, List.forall_mem_singleton] at hy
  obtain ⟨hlo, hhi⟩ := h y hy.1 v hv
  refine ⟨?_, hhi⟩
  by_cases hvx : v = x
  · subst hvx
    rw [Function.update_self]
    push_cast
    exact (hsides ℚ y).2.mp hy.2
  · rw [Function.update_of_ne hvx]
    exact hlo

lemma Confined.split_points (h : Confined vars lo hi cs) (hvars : ∀ c ∈ cs, c.form.vars ⊆ vars)
    {xs : List (Var × ℚ)} (hs : Constraint.solve? cs = .ok (some xs))
    (hf : Tableau.fractional? xs = some (x, q)) :
    x ∈ vars ∧ 0 < points vars lo (Function.update hi x q.floor) ∧
      0 < points vars (Function.update lo x (q.floor + 1)) hi ∧
      points vars lo (Function.update hi x q.floor) +
        points vars (Function.update lo x (q.floor + 1)) hi = points vars lo hi := by
  obtain ⟨hx, y, hy, hsat⟩ := fraction_mem hvars hs hf
  have hbox := h y hsat
  obtain ⟨hl, hh⟩ := floor_inside (by simpa using List.find?_some hf) (hy ▸ hbox x hx).1
    (hy ▸ hbox x hx).2
  have hsides {v : Var} (hv : v ∈ vars) : lo v ≤ hi v := by
    exact_mod_cast (hbox v hv).1.trans (hbox v hv).2
  refine ⟨hx, points_pos fun v hv => ?_, points_pos fun v hv => ?_, points_split hx hl hh⟩
  · rcases eq_or_ne v x with rfl | hne
    · rwa [Function.update_self]
    · rw [Function.update_of_ne hne]
      exact hsides hv
  · rcases eq_or_ne v x with rfl | hne
    · rw [Function.update_self]
      omega
    · rw [Function.update_of_ne hne]
      exact hsides hv

/-- Branch and bound comes to an end with a confined conjunction, and goes on with the rest of its
stack. -/
theorem settles_confined (hvars : ∀ c ∈ cs, c.form.vars ⊆ vars) (h : Confined vars lo hi cs)
    (rest : List (List Constraint)) {k : ℕ} (hrest : SettlesWithin (bounding rest) k) :
    SettlesWithin (bounding (cs :: rest)) (nodes vars lo hi + k) := by
  -- both parts of a split have points, so that each has fewer than the box
  induction hp : points vars lo hi using Nat.strong_induction_on generalizing cs lo hi rest k with
  | _ p ih =>
    rcases bounding_cons cs rest with ⟨outcome, hone⟩ | ⟨more, hmore, hnode⟩
    · exact ⟨1, by rw [nodes]; omega, outcome, hone⟩
    rcases hnode with ⟨_, rfl⟩ | ⟨xs, x, q, down, up, hs, hf, hsplit, rfl⟩
    · obtain ⟨i, hi, outcome, htakes⟩ := hrest
      exact ⟨i + 1, by rw [nodes]; omega, outcome, htakes.succ (bounding_zero cs more) hmore⟩
    · obtain ⟨hx, hdown, hup, hsum⟩ := h.split_points hvars hs hf
      obtain ⟨hdownVars, hupVars⟩ := vars_split hsplit hx hvars
      -- the upper part waits on the stack while the lower one is searched
      have hupper := ih _ (by omega) hupVars (h.upper_part hsplit) rest hrest rfl
      obtain ⟨i, hi, outcome, htakes⟩ :=
        ih _ (by omega) hdownVars (h.lower_part hsplit) (up :: rest) hupper rfl
      refine ⟨i + 1, ?_, outcome, htakes.succ (bounding_zero cs rest) hmore⟩
      rw [nodes] at hi ⊢
      rw [nodes] at hi
      omega

end Search

/-! ### Complete conjunctions -/

namespace NormalForm

mutual
def atoms : NormalForm → ℕ
  | .const _ => 0
  | .atom _ => 1
  | .join _ args => atomsAll args
def atomsAll : List NormalForm → ℕ
  | [] => 0
  | n :: ns => atoms n + atomsAll ns
end

mutual
/-- In how many ways one part of each disjunction can be chosen, and one if there is none. -/
def ways : NormalForm → ℕ
  | .const _ | .atom _ => 1
  | .join .and args => waysAll args
  | .join .or args => max 1 (waysAny args)
def waysAll : List NormalForm → ℕ
  | [] => 1
  | n :: ns => ways n * waysAll ns
def waysAny : List NormalForm → ℕ
  | [] => 0
  | n :: ns => ways n + waysAny ns
end

lemma atomsAll_eq_sum (ns : List NormalForm) : atomsAll ns = (ns.map atoms).sum := by
  induction ns with
  | nil => simp [atomsAll]
  | cons n ns ih => simp [atomsAll, ih]

lemma waysAll_eq_prod (ns : List NormalForm) : waysAll ns = (ns.map ways).prod := by
  induction ns with
  | nil => simp [waysAll]
  | cons n ns ih => simp [waysAll, ih]

lemma ways_pos (n : NormalForm) : 0 < ways n := by
  induction n using NormalForm.induction with
  | const b => simp [ways]
  | atom c => simp [ways]
  | join c args ih =>
    cases c with
    | and =>
      rw [ways, waysAll_eq_prod]
      exact List.prod_pos (by simpa using ih)
    | or => simp [ways]

lemma waysAll_pos (ns : List NormalForm) : 0 < waysAll ns := by
  rw [waysAll_eq_prod]
  exact List.prod_pos (by simp [ways_pos])

end NormalForm

namespace Search

/-- The conjunctions that a search ends in, if none is cut off. -/
inductive Leaf : List Constraint → List NormalForm → List (List NormalForm) →
    List Constraint → Prop
  | here (cs : List Constraint) : Leaf cs [] [] cs
  | choose {cs : List Constraint} {alts : List NormalForm} {choices : List (List NormalForm)}
      {a : NormalForm} {leaf : List Constraint} (ha : a ∈ alts) (h : Leaf cs [a] choices leaf) :
      Leaf cs [] (alts :: choices) leaf
  | true {cs : List Constraint} {pending : List NormalForm} {choices : List (List NormalForm)}
      {leaf : List Constraint} (h : Leaf cs pending choices leaf) :
      Leaf cs (.const true :: pending) choices leaf
  | atom {cs : List Constraint} {c : Constraint} {pending : List NormalForm}
      {choices : List (List NormalForm)} {leaf : List Constraint}
      (h : Leaf (cs ++ [c]) pending choices leaf) : Leaf cs (.atom c :: pending) choices leaf
  | and {cs : List Constraint} {args pending : List NormalForm} {choices : List (List NormalForm)}
      {leaf : List Constraint} (h : Leaf cs (args.reverse ++ pending) choices leaf) :
      Leaf cs (.join .and args :: pending) choices leaf
  | or {cs : List Constraint} {args pending : List NormalForm} {choices : List (List NormalForm)}
      {leaf : List Constraint} (h : Leaf cs pending (args :: choices) leaf) :
      Leaf cs (.join .or args :: pending) choices leaf

/-- A bound for the tests of a search that ends each of its conjunctions with `k` of them: one for
every constraint on the way, in as many ways as the disjunctions leave. -/
def effort (k : ℕ) (pending : List NormalForm) (choices : List (List NormalForm)) : ℕ :=
  NormalForm.waysAll pending * (choices.map fun alts => max 1 (NormalForm.waysAny alts)).prod *
    (NormalForm.atomsAll pending + (choices.map NormalForm.atomsAll).sum + k)

section Effort

variable (k : ℕ) (pending alts args : List NormalForm) (choices : List (List NormalForm))

lemma effort_nil : effort k [] [] = k := by
  simp [effort, NormalForm.waysAll, NormalForm.atomsAll]

lemma effort_const (b : Bool) :
    effort k (.const b :: pending) choices = effort k pending choices := by
  simp [effort, NormalForm.waysAll, NormalForm.atomsAll, NormalForm.ways, NormalForm.atoms]

lemma effort_and : effort k (.join .and args :: pending) choices =
    effort k (args.reverse ++ pending) choices := by
  simp [effort, NormalForm.waysAll_eq_prod, NormalForm.atomsAll_eq_sum, NormalForm.ways,
    NormalForm.atoms]

lemma effort_or : effort k (.join .or args :: pending) choices =
    effort k pending (args :: choices) := by
  simp only [effort, NormalForm.waysAll, NormalForm.atomsAll, NormalForm.ways, NormalForm.atoms,
    List.map_cons, List.prod_cons, List.sum_cons]
  ring

lemma effort_atom (c : Constraint) :
    1 + effort k pending choices ≤ effort k (.atom c :: pending) choices := by
  have hpos : 0 < (choices.map fun alts => max 1 (NormalForm.waysAny alts)).prod :=
    List.prod_pos (by simp)
  have hways := Nat.mul_pos (NormalForm.waysAll_pos pending) hpos
  simp only [effort, NormalForm.waysAll, NormalForm.atomsAll, NormalForm.ways, NormalForm.atoms,
    one_mul]
  nlinarith

lemma effort_choose : NormalForm.waysAny alts * effort (NormalForm.atomsAll alts + k) [] choices ≤
    effort k [] (alts :: choices) := by
  have hsplit : effort k [] (alts :: choices) =
      max 1 (NormalForm.waysAny alts) * effort (NormalForm.atomsAll alts + k) [] choices := by
    simp only [effort, NormalForm.waysAll, NormalForm.atomsAll, List.map_cons, List.prod_cons,
      List.sum_cons]
    ring
  rw [hsplit]
  exact Nat.mul_le_mul_right _ (le_max_right _ _)

lemma effort_le {i j : ℕ} (hij : i ≤ j) : effort i [] choices ≤ effort j [] choices :=
  Nat.mul_le_mul_left _ (Nat.add_le_add_left hij _)

lemma effort_alternative (a : NormalForm) : effort k [a] choices +
      NormalForm.waysAny alts * effort (NormalForm.atomsAll alts + k) [] choices ≤
    NormalForm.waysAny (a :: alts) * effort (NormalForm.atomsAll (a :: alts) + k) [] choices := by
  have hone : effort k [a] choices = a.ways * effort (a.atoms + k) [] choices := by
    simp only [effort, NormalForm.waysAll, NormalForm.atomsAll]
    ring
  rw [hone, NormalForm.waysAny, NormalForm.atomsAll, Nat.add_mul]
  exact Nat.add_le_add (Nat.mul_le_mul_left _ (effort_le choices (by omega)))
    (Nat.mul_le_mul_left _ (effort_le choices (by omega)))

end Effort

/-- The search comes to an end if branch and bound does in every conjunction it can end in. -/
theorem settles_explore {k : ℕ} (cs : List Constraint) (pending : List NormalForm)
    (choices : List (List NormalForm)) :
    (∀ leaf, Leaf cs pending choices leaf → SettlesWithin (integerPoint leaf) k) →
      SettlesWithin (explore cs pending choices) (effort k pending choices) := by
  refine @explore.induct
    (fun cs pending choices =>
      (∀ leaf, Leaf cs pending choices leaf → SettlesWithin (integerPoint leaf) k) →
        SettlesWithin (explore cs pending choices) (effort k pending choices))
    (fun cs alts choices =>
      (∀ leaf, Leaf cs [] (alts :: choices) leaf → SettlesWithin (integerPoint leaf) k) →
        SettlesWithin (firstOf cs alts choices)
          (NormalForm.waysAny alts * effort (NormalForm.atomsAll alts + k) [] choices))
    ?leaf ?choose ?true ?false ?atom ?and ?or ?noAlternative ?alternative cs pending choices
  case leaf =>
    intro cs h
    rw [explore, effort_nil]
    exact h cs (.here cs)
  case choose =>
    intro cs alts choices ih h
    rw [explore]
    exact (ih h).mono (effort_choose k alts choices)
  case true =>
    intro cs choices pending ih h
    rw [explore, effort_const]
    exact ih fun leaf hleaf => h leaf hleaf.true
  case false =>
    intro cs choices pending h
    rw [explore]
    exact settlesWithin_pure none _
  case atom =>
    intro cs choices c pending ih h
    rw [explore]
    have htest : SettlesWithin (feasible? (cs ++ [c])) 1 := ⟨1, le_rfl, takes_feasible? (cs ++ [c])⟩
    refine (htest.bind fun answer => ?_).mono (effort_atom k pending choices c)
    cases answer with
    | none => exact settlesWithin_pure none _
    | some xs => exact ih fun leaf hleaf => h leaf hleaf.atom
  case and =>
    intro cs choices args pending ih h
    rw [explore, effort_and]
    exact ih fun leaf hleaf => h leaf hleaf.and
  case or =>
    intro cs choices args pending ih h
    rw [explore, effort_or]
    exact ih fun leaf hleaf => h leaf hleaf.or
  case noAlternative =>
    intro cs choices h
    rw [firstOf]
    exact settlesWithin_pure none _
  case alternative =>
    intro cs choices a alts ihFirst ihRest h
    rw [firstOf]
    have hfirst := ihFirst fun leaf hleaf => h leaf (.choose (by simp) hleaf)
    refine (hfirst.bind fun first => ?_).mono (effort_alternative k alts choices a)
    cases first with
    | some s => exact settlesWithin_pure (some s) _
    | none =>
      apply ihRest
      intro leaf hleaf
      cases hleaf with
      | choose ha hleaf => exact h leaf (.choose (List.mem_cons_of_mem a ha) hleaf)

/-- The formula holds nowhere, or wherever it does the constraint is a conjunct. -/
inductive Demands (c : Constraint) : NormalForm → Prop
  | never : Demands c (.const false)
  | atom : Demands c (.atom c)
  | and {args : List NormalForm} {a : NormalForm} (ha : a ∈ args) (h : Demands c a) :
      Demands c (.join .and args)

section Leaf

variable {c : Constraint} {n : NormalForm} {pending : List NormalForm}
  {choices : List (List NormalForm)} {leaf : List Constraint}

lemma Leaf.subset (h : Leaf cs pending choices leaf) : cs ⊆ leaf := by
  induction h with
  | here cs => exact List.Subset.refl cs
  | choose _ _ ih => exact ih
  | true _ ih => exact ih
  | atom _ ih => exact (List.append_subset.mp ih).1
  | and _ ih => exact ih
  | or _ ih => exact ih

lemma Leaf.mem (h : Leaf cs pending choices leaf) (hn : n ∈ pending) (hc : Demands c n) :
    c ∈ leaf := by
  induction h generalizing n with
  | here cs => cases hn
  | choose _ _ _ => cases hn
  | true _ ih =>
    rcases List.mem_cons.mp hn with rfl | hn
    · cases hc
    · exact ih hn hc
  | atom h ih =>
    rcases List.mem_cons.mp hn with rfl | hn
    · cases hc
      exact h.subset (by simp)
    · exact ih hn hc
  | and _ ih =>
    rcases List.mem_cons.mp hn with rfl | hn
    · cases hc with
      | and ha hc => exact ih (by simp [ha]) hc
    · exact ih (by simp [hn]) hc
  | or _ ih =>
    rcases List.mem_cons.mp hn with rfl | hn
    · cases hc
    · exact ih hn hc

lemma Leaf.vars_subset (h : Leaf cs pending choices leaf) (hw : Within vars cs pending choices) :
    ∀ c ∈ leaf, c.form.vars ⊆ vars := by
  induction h with
  | here cs => exact hw.constraints
  | choose ha _ ih =>
    obtain ⟨halts, hchoices⟩ := List.forall_mem_cons.mp hw.choices
    exact ih ⟨hw.constraints, List.forall_mem_singleton.mpr (halts _ ha), hchoices⟩
  | true _ ih => exact ih hw.tail
  | atom _ ih => exact ih hw.atom
  | and _ ih => exact ih hw.and
  | or _ ih => exact ih hw.or

end Leaf

lemma demands_collect {c : Constraint} {n : NormalForm} {args ns : List NormalForm}
    (h : NormalForm.collect .and args = some ns) (hn : n ∈ args) (hc : Demands c n) :
    ∃ m ∈ ns, Demands c m := by
  obtain ⟨hundecided, rfl⟩ := NormalForm.collect_eq_some.mp h
  cases hc with
  | never => exact absurd rfl (hundecided _ hn)
  | atom => exact ⟨.atom c, List.mem_flatMap.mpr ⟨_, hn, by simp [NormalForm.remains]⟩, .atom⟩
  | and ha hdemands =>
    refine ⟨_, List.mem_flatMap.mpr ⟨_, hn, ?_⟩, hdemands⟩
    simpa [NormalForm.remains, NormalForm.parts] using ha

lemma demands_gather {c : Constraint} {n : NormalForm} {args : List NormalForm} (hn : n ∈ args)
    (hc : Demands c n) : Demands c (.gather .and args) := by
  unfold NormalForm.gather
  split
  · exact .never
  · rename_i h
    obtain ⟨m, hm, _⟩ := demands_collect h hn hc
    cases hm
  · rename_i k h
    obtain ⟨m, hm, hdemands⟩ := demands_collect h hn hc
    rw [List.mem_singleton.mp hm] at hdemands
    exact hdemands
  · rename_i ns _ h
    obtain ⟨m, hm, hdemands⟩ := demands_collect h hn hc
    exact .and hm hdemands

end Search

/-! ### Bounds of variables -/

namespace LinearForm

lemma terms_sub_const {v : Var} {a : Int64} {d : LinearForm}
    (h : (ofVar v).sub (const a) = .ok d) : d.terms = [(v, 1)] := by
  simp only [sub, Result.bind_eq_ok, scale, add, Result.orError_eq_ok] at h
  obtain ⟨k, hk, hd⟩ := h
  have hterms : k.terms = [] := by
    rw [scale?, if_neg (by decide)] at hk
    simp only [const, scaleTerms, Option.bind_eq_bind, Option.bind_some, Option.bind_eq_some_iff,
      Option.pure_def, Option.some_inj] at hk
    obtain ⟨c, _, rfl⟩ := hk
    rfl
  simp only [add?, hterms, addTerms, Option.bind_eq_bind, Option.bind_some, Option.bind_eq_some_iff,
    Option.pure_def, Option.some_inj] at hd
  obtain ⟨c, _, rfl⟩ := hd
  simp [ofVar]

lemma terms_negated {v : Var} {d e : LinearForm} (hd : d.terms = [(v, 1)])
    (h : d.scale (-1) = .ok e) : e.terms = [(v, -1)] := by
  rw [scale, Result.orError_eq_ok, scale?, if_neg (by decide), hd] at h
  have hone : Word.mul? 1 (-1) = some (-1) := by decide
  simp only [scaleTerms, hone, Option.bind_eq_bind, Option.bind_some, Option.bind_eq_some_iff,
    Option.pure_def, Option.some_inj] at h
  obtain ⟨c, _, rfl⟩ := h
  rfl

end LinearForm

lemma Constraint.normalize_unit {v : Var} {u : Int64} {k : Constraint} {n : NormalForm}
    (hu : Word.gcdAll [u] ≤ 1) (hk : k.form.terms = [(v, u)]) (h : k.normalize = .ok n) :
    n = .atom k := by
  have hconst : ¬k.form.isConst = true := by simp [LinearForm.isConst, hk]
  have hgcd : Word.gcdAll k.form.coeffs ≤ 1 := by
    rw [LinearForm.coeffs, hk]
    exact hu
  rw [normalize_of_divisor?_none hconst (if_pos hgcd), Except.ok.injEq] at h
  exact h.symm

lemma Expr.normalForm_cmp_var {op : Comparison} {v : Var} {a : Int64} {n : NormalForm}
    (h : (Expr.cmp op (.var v) (.int a)).normalForm true = .ok n) :
    ∃ d m, (LinearForm.ofVar v).sub (.const a) = .ok d ∧ NormalForm.compare op d = .ok m ∧
      n = .gather .or [.gather .and [m]] := by
  simp only [Expr.normalForm, Expr.cases, Result.bind_eq_ok, Except.ok.injEq] at h
  obtain ⟨_, rfl, _, rfl, ns, hns, hn⟩ := h
  have hpairs (x y : Case) : Case.pairs [x] [y] = [(x, y)] := rfl
  simp only [hpairs, List.mapM_cons, List.mapM_nil, if_true, Case.compare, Result.bind_eq_ok,
    Result.pure_eq_ok, List.nil_append] at hns hn
  obtain ⟨_, ⟨d, hd, m, hm, rfl⟩, _, rfl, rfl⟩ := hns
  exact ⟨d, m, hd, hm, hn.symm⟩

lemma Expr.normalForm_atLeast {v : Var} {a : Int64} {n : NormalForm}
    (h : (Expr.cmp .ge (.var v) (.int a)).normalForm true = .ok n) :
    ∃ c, n = .atom c ∧ ∀ x : Var → ℚ, c.Sat x ↔ (a.toInt : ℚ) ≤ x v := by
  obtain ⟨d, m, hd, hm, rfl⟩ := normalForm_cmp_var h
  obtain rfl := Constraint.normalize_unit (by decide) (LinearForm.terms_sub_const hd) hm
  refine ⟨⟨d, .nonneg⟩, rfl, fun x => ?_⟩
  have heval : d.eval x = x v - a.toInt := by
    rw [LinearForm.eval_sub x hd, LinearForm.eval_ofVar, LinearForm.eval_const]
  simp only [Constraint.Sat, heval, sub_nonneg]

lemma Expr.normalForm_atMost {v : Var} {a : Int64} {n : NormalForm}
    (h : (Expr.cmp .le (.var v) (.int a)).normalForm true = .ok n) :
    ∃ c, n = .atom c ∧ ∀ x : Var → ℚ, c.Sat x ↔ x v ≤ a.toInt := by
  obtain ⟨d, m, hd, hm, rfl⟩ := normalForm_cmp_var h
  obtain ⟨e, he, hm⟩ := Result.bind_eq_ok.mp hm
  have hterms := LinearForm.terms_negated (LinearForm.terms_sub_const hd) he
  obtain rfl := Constraint.normalize_unit (by decide) hterms hm
  refine ⟨⟨e, .nonneg⟩, rfl, fun x => ?_⟩
  have heval : e.eval x = a.toInt - x v := by
    rw [LinearForm.eval_negated x he, LinearForm.eval_sub x hd, LinearForm.eval_ofVar,
      LinearForm.eval_const, neg_sub]
  simp only [Constraint.Sat, heval, sub_nonneg]

def Expr.bounds (g : Expr) (lower upper : Var → Int64) : List Expr :=
  g.vars.flatMap fun v => [.cmp .ge (.var v) (.int (lower v)), .cmp .le (.var v) (.int (upper v))]

/-- There are bounds among the formulas for each of their variables. -/
def Expr.Bounded (lower upper : Var → Int64) (args : List Expr) : Prop :=
  ∀ v ∈ args.flatMap occurrences, .cmp .ge (.var v) (.int (lower v)) ∈ args ∧
    .cmp .le (.var v) (.int (upper v)) ∈ args

lemma Expr.bounded_cons_bounds (g : Expr) (lower upper : Var → Int64) :
    Bounded lower upper (g :: g.bounds lower upper) := by
  intro v hv
  have hg : v ∈ g.vars := by
    rw [List.flatMap_cons, List.mem_append] at hv
    rcases hv with hv | hv
    · exact mem_vars.mpr hv
    · obtain ⟨e, he, hv⟩ := List.mem_flatMap.mp hv
      obtain ⟨w, hw, he⟩ := List.mem_flatMap.mp he
      have hvw : v = w := by
        rcases List.mem_pair.mp he with rfl | rfl <;> simpa [occurrences] using hv
      exact hvw ▸ hw
  have hbound {e : Expr} (he : e ∈ [cmp .ge (.var v) (.int (lower v)),
      .cmp .le (.var v) (.int (upper v))]) : e ∈ g :: g.bounds lower upper :=
    List.mem_cons_of_mem g (List.mem_flatMap.mpr ⟨v, hg, he⟩)
  exact ⟨hbound (by simp), hbound (by simp)⟩

lemma Expr.Bounded.spliced {lower upper : Var → Int64} {args : List Expr}
    (h : Bounded lower upper args) : Bounded lower upper (args.flatMap (parts .and)) := by
  have hcmp {op : Comparison} {a b : Expr} (hmem : cmp op a b ∈ args) :
      cmp op a b ∈ args.flatMap (parts .and) :=
    List.mem_flatMap.mpr ⟨_, hmem, List.mem_singleton_self _⟩
  have hoccurrences := occurrences_gather .and args
  rw [gather, occurrences, occurrencesAll_eq_flatMap] at hoccurrences
  intro v hv
  rw [hoccurrences] at hv
  exact ⟨hcmp (h v hv).1, hcmp (h v hv).2⟩

namespace Search

section Bounded

variable {lower upper : Var → Int64} {args : List Expr} {n : NormalForm} {leaf : List Constraint}

lemma confined_leaf (hb : Expr.Bounded lower upper args)
    (hn : (Expr.join .and args).normalForm true = .ok n) (h : Leaf [] [n] [] leaf) :
    Confined (args.flatMap Expr.occurrences) (fun v => (lower v).toInt) (fun v => (upper v).toInt)
      leaf := by
  simp only [Expr.normalForm, Expr.normalForms_eq_mapM, Result.bind_eq_ok, Result.pure_eq_ok,
    if_true] at hn
  obtain ⟨ns, hns, rfl⟩ := hn
  have hpart {e : Expr} (he : e ∈ args) : ∃ m ∈ ns, e.normalForm true = .ok m :=
    Result.exists_of_forall₂_left (Result.mapM_eq_ok hns) he
  intro x hx v hv
  obtain ⟨hlower, hupper⟩ := hb v hv
  constructor
  · obtain ⟨m, hm, hform⟩ := hpart hlower
    obtain ⟨c, rfl, hc⟩ := Expr.normalForm_atLeast hform
    have hmem : c ∈ leaf := h.mem (List.mem_singleton_self _) (demands_gather hm .atom)
    exact (hc x).mp (hx c hmem)
  · obtain ⟨m, hm, hform⟩ := hpart hupper
    obtain ⟨c, rfl, hc⟩ := Expr.normalForm_atMost hform
    have hmem : c ∈ leaf := h.mem (List.mem_singleton_self _) (demands_gather hm .atom)
    exact (hc x).mp (hx c hmem)

lemma settles_leaf (hb : Expr.Bounded lower upper args)
    (hn : (Expr.join .and args).normalForm true = .ok n) (h : Leaf [] [n] [] leaf) :
    SettlesWithin (integerPoint leaf) (nodes (args.flatMap Expr.occurrences)
      (fun v => (lower v).toInt) fun v => (upper v).toInt) := by
  have hoccurrences := Expr.occurrences_normalForm hn
  rw [Expr.occurrences, Expr.occurrencesAll_eq_flatMap] at hoccurrences
  have hw : Within (args.flatMap Expr.occurrences) [] [n] [] :=
    ⟨by simp, by simpa using hoccurrences, by simp⟩
  exact settles_confined (h.vars_subset hw) (confined_leaf hb hn h) []
    ⟨0, le_rfl, _, takes_bounding_nil⟩

lemma nodes_vars (args : List Expr) (lo hi : Var → ℤ) :
    nodes (Expr.join .and args).vars lo hi = nodes (args.flatMap Expr.occurrences) lo hi := by
  have hvars : (Expr.join .and args).vars.toFinset = (args.flatMap Expr.occurrences).toFinset := by
    ext v
    rw [List.mem_toFinset, List.mem_toFinset, Expr.mem_vars, Expr.occurrences,
      Expr.occurrencesAll_eq_flatMap]
  rw [nodes, nodes, points, points, hvars]

end Bounded

/-- A bound for the tests of a formula with its variables in a box: those of each complete
conjunction and of the constraints on the way there, in as many ways as there are to get there. What
is rejected takes none. -/
def testBound (f : Expr) (lower upper : Var → Int64) : ℕ :=
  match f.normalForm true with
  | .ok n => n.ways *
      (n.atoms + nodes f.vars (fun v => (lower v).toInt) fun v => (upper v).toInt)
  | .error _ => 0

/-- With its variables between these bounds a formula is decided. Branch and bound takes a fixed
number of tests in every complete conjunction, and some number of tests is enough for the whole
search. It need not be a budget, which has 64 bits, unless the bound for it is one. -/
structure Decided (f : Expr) (lower upper : Var → Int64) : Prop where
  leaves : ∀ n, f.normalForm true = .ok n → ∀ leaf, Leaf [] [n] [] leaf →
    ∃ tests ≤ nodes f.vars (fun v => (lower v).toInt) fun v => (upper v).toInt,
      ∃ outcome, Takes (integerPoint leaf) tests outcome
  enough : ∃ tests ≤ testBound f lower upper,
    ∀ b ≥ tests, (Solver.builtIn.check f b ()).1 ≠ .ok .unknown
  budget : testBound f lower upper ≤ Oracle.maxBudget →
    ∃ enough ≤ Oracle.maxBudget, ∀ b, enough ≤ b → b ≤ Oracle.maxBudget →
      (Solver.builtIn.check f b ()).1 ≠ .ok .unknown

lemma exists_enough {f : Expr} {lower upper : Var → Int64}
    (hleaf : ∀ n, f.normalForm true = .ok n → ∀ leaf, Leaf [] [n] [] leaf →
      SettlesWithin (integerPoint leaf)
        (nodes f.vars (fun v => (lower v).toInt) fun v => (upper v).toInt)) :
    ∃ tests ≤ testBound f lower upper,
      ∀ b ≥ tests, (Solver.builtIn.check f b ()).1 ≠ .ok .unknown := by
  unfold testBound
  cases hn : f.normalForm true with
  | error e =>
    refine ⟨0, le_rfl, fun b _ => ?_⟩
    change (run f b).1 ≠ .ok .unknown
    rw [run_of_error hn]
    simp
  | ok n =>
    obtain ⟨k, hk, outcome, htakes⟩ := settles_explore [] [n] [] (hleaf n hn)
    refine ⟨k, by simpa [effort, NormalForm.waysAll, NormalForm.atomsAll] using hk, fun b hkb => ?_⟩
    obtain ⟨c, rfl⟩ := Nat.exists_eq_add_of_le hkb
    change (run f (k + c)).1 ≠ .ok .unknown
    rw [run_of_explore hn (htakes.above c)]
    exact answerOf_ne_unknown htakes.decided

lemma decided_of_bounded {lower upper : Var → Int64} {args : List Expr}
    (hb : Expr.Bounded lower upper args) : Decided (.join .and args) lower upper := by
  have hleaf (n : NormalForm) (hn : (Expr.join .and args).normalForm true = .ok n)
      (leaf : List Constraint) (h : Leaf [] [n] [] leaf) :
      SettlesWithin (integerPoint leaf) (nodes (Expr.join .and args).vars
        (fun v => (lower v).toInt) fun v => (upper v).toInt) := by
    rw [nodes_vars]
    exact settles_leaf hb hn h
  obtain ⟨tests, hle, henough⟩ := exists_enough hleaf
  exact ⟨hleaf, ⟨tests, hle, henough⟩,
    fun hfits => ⟨tests, hle.trans hfits, fun b hb _ => henough b hb⟩⟩

/-- A formula in conjunction with bounds of all its variables is decided, whether or not the parts
of the formula are spliced in. -/
theorem decided_boxed (g : Expr) (lower upper : Var → Int64) :
    Decided (.join .and (g :: g.bounds lower upper)) lower upper ∧
      Decided (.all (g :: g.bounds lower upper)) lower upper := by
  have hbounded := g.bounded_cons_bounds lower upper
  exact ⟨decided_of_bounded hbounded, decided_of_bounded hbounded.spliced⟩

end Search
end LoopInvariant
