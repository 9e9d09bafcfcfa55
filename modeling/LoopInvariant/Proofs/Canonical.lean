import LoopInvariant.Proofs.Cases

/-! The shape of normal forms. Constants stand alone or not at all, joins have two parts or more that
are not joins of the same kind, and constraints are divided by their common divisor. Every step of
the translation keeps this, since forms lose the variables that cancel and joins are spliced. -/
namespace LoopInvariant

/-! ### Linear forms -/

namespace LinearForm

/-- No variable comes twice, and none has the coefficient zero. -/
structure Tidy (l : LinearForm) : Prop where
  increasing : Var.Increasing l.vars
  nonzero : ∀ a ∈ l.coeffs, a ≠ 0

variable {l k s : LinearForm}

lemma tidy_const (c : Int64) : (const c).Tidy :=
  ⟨List.Pairwise.nil, by simp [coeffs, const]⟩

lemma tidy_ofVar (v : Var) : (ofVar v).Tidy :=
  ⟨List.pairwise_singleton _ v, by simp [coeffs, ofVar]⟩

lemma tidy_add (hl : l.Tidy) (h : l.add k = .ok s) : s.Tidy := by
  rw [add, Result.orError_eq_ok] at h
  simp only [add?, Option.bind_eq_bind, Option.bind_eq_some_iff, Option.pure_def,
    Option.some_inj] at h
  obtain ⟨ts, hts, c, hc, rfl⟩ := h
  have hvars : Var.Increasing (ts.map (·.1)) := by
    rw [map_fst_addTerms hts]
    exact Var.increasing_foldl_insert _ _ hl.increasing
  constructor
  · exact hvars.sublist (List.filter_sublist.map _)
  · intro a ha
    obtain ⟨t, ht, rfl⟩ := List.mem_map.mp ha
    simpa using (List.mem_filter.mp ht).2

lemma ne_zero_of_scaleTerms {a : Int64} (ha : a ≠ 0) {ts us : List (Var × Int64)}
    (h : scaleTerms a ts = some us) (hts : ∀ t ∈ ts, t.2 ≠ 0) : ∀ u ∈ us, u.2 ≠ 0 := by
  induction ts generalizing us with
  | nil =>
    simp only [scaleTerms, Option.some_inj] at h
    simp [← h]
  | cons t ts ih =>
    obtain ⟨v, b⟩ := t
    simp only [scaleTerms, Option.bind_eq_bind, Option.bind_eq_some_iff, Option.pure_def,
      Option.some_inj] at h
    obtain ⟨c, hc, us', hus, rfl⟩ := h
    rw [List.forall_mem_cons] at hts ⊢
    refine ⟨?_, ih hus hts.2⟩
    rw [Word.mul?, Word.ofInt?_eq_some] at hc
    have hprod : b.toInt * a.toInt ≠ 0 :=
      mul_ne_zero (mt Word.toInt_eq_zero.mp hts.1) (mt Word.toInt_eq_zero.mp ha)
    rintro rfl
    exact hprod hc.symm

lemma tidy_scale {a : Int64} (hl : l.Tidy) (h : l.scale a = .ok s) : s.Tidy := by
  rw [scale, Result.orError_eq_ok, scale?] at h
  split_ifs at h with ha
  · rw [Option.some_inj] at h
    rw [← h]
    exact tidy_const 0
  · simp only [Option.bind_eq_bind, Option.bind_eq_some_iff, Option.pure_def,
      Option.some_inj] at h
    obtain ⟨ts, hts, c, hc, rfl⟩ := h
    constructor
    · rw [vars, map_fst_scaleTerms hts]
      exact hl.increasing
    · have hnonzero := hl.nonzero
      rw [coeffs, List.forall_mem_map] at hnonzero ⊢
      exact ne_zero_of_scaleTerms ha hts hnonzero

end LinearForm

/-! ### Constraints -/

namespace Constraint

/-- A constraint on some variable whose coefficients have no common factor. The one that is left is
the magnitude of the least integer, which is not divided out. -/
structure Primitive (c : Constraint) : Prop where
  nonconst : c.form.vars ≠ []
  tidy : c.form.Tidy
  gcd : (Word.magnitudes c.form.coeffs).gcd = 1 ∨ (Word.magnitudes c.form.coeffs).gcd = 2 ^ 63

variable {k : Constraint}

lemma vars_ne_nil (h : ¬k.form.isConst = true) : k.form.vars ≠ [] := by
  simpa [LinearForm.isConst, LinearForm.vars] using h

/-- A common divisor that is not divided out is one, or it has no positive word. -/
lemma primitive_kept (ht : k.form.Tidy) (hconst : ¬k.form.isConst = true)
    (hg : (Word.gcdAll k.form.coeffs).toInt ≤ 1) : k.Primitive := by
  have hne : (Word.gcdAll k.form.coeffs).toInt ≠ 0 := by
    intro h0
    obtain ⟨a, ha⟩ := List.exists_mem_of_ne_nil k.form.coeffs (by
      simpa [LinearForm.isConst, LinearForm.coeffs] using hconst)
    have hdvd := Word.gcdAll_dvd ha
    rw [h0, zero_dvd_iff, Word.toInt_eq_zero] at hdvd
    exact ht.nonzero a ha hdvd
  have habs := Word.natAbs_gcdAll k.form.coeffs
  refine ⟨vars_ne_nil hconst, ht, ?_⟩
  rcases Word.gcdAll_nonneg_or k.form.coeffs with hpos | hmin
  · left
    omega
  · right
    omega

lemma primitive_divided {g c : Int64} (ht : k.form.Tidy) (hconst : ¬k.form.isConst = true)
    (hgcd : Word.gcdAll k.form.coeffs = g) (hg : 1 < g.toInt) :
    Primitive ⟨⟨k.form.terms.map fun t => (t.1, t.2 / g), c⟩, k.relation⟩ := by
  have hvars : LinearForm.vars ⟨k.form.terms.map fun t => (t.1, t.2 / g), c⟩ = k.form.vars := by
    simp [LinearForm.vars, Function.comp_def]
  have hcoeffs : LinearForm.coeffs ⟨k.form.terms.map fun t => (t.1, t.2 / g), c⟩ =
      k.form.coeffs.map (· / g) := by
    simp [LinearForm.coeffs, Function.comp_def]
  refine ⟨?_, ⟨?_, ?_⟩, .inl ?_⟩
  · rw [hvars]
    exact vars_ne_nil hconst
  · rw [hvars]
    exact ht.increasing
  · rw [hcoeffs, List.forall_mem_map]
    intro a ha hzero
    have hmul := Word.mul_toInt_div hg (hgcd ▸ Word.gcdAll_dvd ha)
    rw [hzero, Int64.toInt_zero, mul_zero, eq_comm, Word.toInt_eq_zero] at hmul
    exact ht.nonzero a ha hmul
  · rw [hcoeffs]
    exact Word.gcd_magnitudes_div hgcd hg

end Constraint

/-! ### Joins -/

namespace NormalForm

/-- No constant anywhere, only primitive constraints, and joins of two parts or more, of which none
is a join of the same kind. -/
inductive Proper : NormalForm → Prop
  | atom {c : Constraint} (primitive : c.Primitive) : Proper (.atom c)
  | join {c : Connective} {args : List NormalForm} (two : 2 ≤ args.length)
      (parts : ∀ n ∈ args, Proper n) (spliced : ∀ n ∈ args, ∀ ms, n ≠ .join c ms) :
      Proper (.join c args)

/-- A constant on its own, or no constant anywhere. -/
def Canonical (n : NormalForm) : Prop := (∃ b, n = .const b) ∨ n.Proper

variable {c : Connective} {n : NormalForm} {args : List NormalForm}

lemma canonical_normalize {k : Constraint} (ht : k.form.Tidy) (h : k.normalize = .ok n) :
    n.Canonical := by
  cases Constraint.normalizes h with
  | decided => exact .inl ⟨_, rfl⟩
  | kept hconst hg => exact .inr (.atom (Constraint.primitive_kept ht hconst hg))
  | divided hconst hgcd hg => exact .inr (.atom (Constraint.primitive_divided ht hconst hgcd hg))
  | unsolvable => exact .inl ⟨_, rfl⟩

lemma proper_of_mem_remains (hn : n.Canonical) {m : NormalForm} (hm : m ∈ remains c n) :
    m.Proper ∧ ∀ ms, m ≠ .join c ms := by
  rcases hn with ⟨b, rfl⟩ | hn
  · cases hm
  cases hn with
  | atom hk =>
    rw [List.mem_singleton.mp hm]
    exact ⟨.atom hk, by simp⟩
  | @join d args two hparts hspliced =>
    rw [remains, parts] at hm
    split_ifs at hm with hd
    · subst hd
      exact ⟨hparts m hm, hspliced m hm⟩
    · rw [List.mem_singleton.mp hm]
      exact ⟨.join two hparts hspliced, by simp [hd]⟩

lemma canonical_gather (h : ∀ n ∈ args, n.Canonical) : (gather c args).Canonical := by
  have hparts {ns : List NormalForm} (hns : collect c args = some ns) (m : NormalForm)
      (hm : m ∈ ns) : m.Proper ∧ ∀ ms, m ≠ .join c ms := by
    rw [(collect_eq_some.mp hns).2] at hm
    obtain ⟨n, hn, hm⟩ := List.mem_flatMap.mp hm
    exact proper_of_mem_remains (h n hn) hm
  unfold gather
  split
  · exact .inl ⟨_, rfl⟩
  · exact .inl ⟨_, rfl⟩
  · rename_i m hm
    exact .inr (hparts hm m (by simp)).1
  · rename_i ms hnil hsingle hms
    have htwo : 2 ≤ ms.length := by
      rcases ms with - | ⟨m, - | ⟨m', ms⟩⟩
      · exact absurd rfl hnil
      · exact absurd rfl (hsingle m)
      · simp
    exact .inr (.join htwo (fun m hm => (hparts hms m hm).1) fun m hm => (hparts hms m hm).2)

lemma inherited_canonical : Inherited (fun _ => True) LinearForm.Tidy Canonical where
  const := LinearForm.tidy_const
  ofVar v _ := LinearForm.tidy_ofVar v
  add hl _ := LinearForm.tidy_add hl
  scale := LinearForm.tidy_scale
  truth b := .inl ⟨b, rfl⟩
  normalize := canonical_normalize
  gather := canonical_gather

end NormalForm

namespace Expr

/-- Translation gives normal forms of one shape in both polarities: a constant, or joins of at least
two parts over constraints without a common factor, alternating and without constants. -/
theorem normalForm_canonical {e : Expr} {positive : Bool} {n : NormalForm}
    (h : e.normalForm positive = .ok n) : n.Canonical :=
  (NormalForm.inherited_canonical.normalForm e fun _ _ => trivial).1 positive n h

def knotted : Expr :=
  .join .and [.bool true,
    .not (.implies (.cmp .le (.arith .mul (.int 4) (.var ⟨"x", none⟩))
        (.arith .add (.arith .mul (.int 6) (.var ⟨"y", none⟩)) (.int 3)))
      (.cmp .lt (.arith .mul (.int Int64.minValue) (.var ⟨"x", none⟩)) (.int 0))),
    .cmp .ge (.ite (.cmp .gt (.var ⟨"y", none⟩) (.int 0)) (.var ⟨"x", none⟩) (.int 1)) (.int 2),
    .cmp .ne (.var ⟨"x", none⟩) (.var ⟨"y", none⟩)]

/-- The common factor two is divided out, the least integer as a coefficient stays, and the case that
contradicts its comparison leaves no trace. -/
theorem normalForm_canonical_knotted : ∃ n,
    knotted.normalForm true = .ok n ∧ n.Canonical ∧ n = .join .and [
      .atom ⟨⟨[(⟨"x", none⟩, -2), (⟨"y", none⟩, 3)], 1⟩, .nonneg⟩,
      .atom ⟨⟨[(⟨"x", none⟩, Int64.minValue)], 0⟩, .nonneg⟩,
      .atom ⟨⟨[(⟨"y", none⟩, 1)], -1⟩, .nonneg⟩,
      .atom ⟨⟨[(⟨"x", none⟩, 1)], -2⟩, .nonneg⟩,
      .join .or [.atom ⟨⟨[(⟨"x", none⟩, 1), (⟨"y", none⟩, -1)], -1⟩, .nonneg⟩,
        .atom ⟨⟨[(⟨"x", none⟩, -1), (⟨"y", none⟩, 1)], -1⟩, .nonneg⟩]] := by
  refine ⟨_, rfl, ?_, rfl⟩
  exact normalForm_canonical (show knotted.normalForm true = .ok _ from rfl)

end Expr
end LoopInvariant
