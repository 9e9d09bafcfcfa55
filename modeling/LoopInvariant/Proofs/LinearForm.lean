import Mathlib
import LoopInvariant.LinearForm
import LoopInvariant.Proofs.Outcome
import LoopInvariant.Proofs.Word

/-! Linear forms as sums over any commutative ring. Every operation that succeeds computes the exact
result, since coefficients that leave the 64-bit range make it fail. -/
namespace LoopInvariant

namespace Var

instance : Std.LawfulEqOrd Var where
  eq_of_compare {a b} h := by
    obtain ⟨hn, hi⟩ := Ordering.then_eq_eq.mp h
    cases a
    cases b
    simp_all
  compare_self := Ordering.then_eq_eq.mpr ⟨Std.ReflOrd.compare_self, Std.ReflOrd.compare_self⟩

instance : Std.TransOrd Var :=
  inferInstanceAs (Std.TransCmp (compareLex (compareOn Var.name) (compareOn Var.index)))

abbrev Increasing (vs : List Var) : Prop := vs.Pairwise fun v w => compare v w = .lt

lemma Increasing.eq_of_mem_iff {vs ws : List Var} (hv : Increasing vs) (hw : Increasing ws)
    (h : ∀ v, v ∈ vs ↔ v ∈ ws) : vs = ws := by
  have : Std.Irrefl fun v w : Var => compare v w = .lt := ⟨fun v hlt => by
    rw [Std.ReflOrd.compare_self] at hlt
    cases hlt⟩
  have : Std.Antisymm fun v w : Var => compare v w = .lt := ⟨fun v w hvw hwv => by
    rw [Std.OrientedOrd.eq_swap (a := w) (b := v), hvw] at hwv
    cases hwv⟩
  exact List.Pairwise.eq_of_mem_iff hv hw h

lemma mem_insert {v w : Var} {vs : List Var} : w ∈ insert v vs ↔ w = v ∨ w ∈ vs := by
  induction vs with
  | nil => simp [insert]
  | cons u us ih =>
    unfold insert
    split
    · simp
    · rename_i heq
      have hvu : v = u := Std.LawfulEqOrd.eq_of_compare heq
      simp [hvu]
    · simp only [List.mem_cons, ih]
      tauto

lemma increasing_insert {v : Var} {vs : List Var} (h : Increasing vs) :
    Increasing (insert v vs) := by
  induction vs with
  | nil => exact List.pairwise_singleton _ v
  | cons u us ih =>
    obtain ⟨hu, hus⟩ := List.pairwise_cons.mp h
    unfold insert
    split
    · rename_i hlt
      refine List.pairwise_cons.mpr ⟨fun w hw => ?_, h⟩
      rcases List.mem_cons.mp hw with rfl | hw
      · exact hlt
      · exact Std.TransCmp.lt_trans hlt (hu w hw)
    · exact h
    · rename_i hgt
      refine List.pairwise_cons.mpr ⟨fun w hw => ?_, ih hus⟩
      rcases mem_insert.mp hw with rfl | hw
      · exact Std.OrientedCmp.gt_iff_lt.mp hgt
      · exact hu w hw

lemma mem_foldl_insert {α : Type} {f : α → Var} {xs : List α} {vs : List Var} {v : Var} :
    v ∈ xs.foldl (fun acc x => insert (f x) acc) vs ↔ v ∈ vs ∨ v ∈ xs.map f := by
  induction xs generalizing vs with
  | nil => simp
  | cons x xs ih =>
    rw [List.foldl_cons, ih, mem_insert, List.map_cons, List.mem_cons]
    tauto

lemma increasing_foldl_insert {α : Type} (f : α → Var) (xs : List α) {vs : List Var}
    (h : Increasing vs) : Increasing (xs.foldl (fun acc x => insert (f x) acc) vs) := by
  induction xs generalizing vs with
  | nil => exact h
  | cons x xs ih => exact ih (increasing_insert h)

lemma mem_sorted {v : Var} {vs : List Var} : v ∈ sorted vs ↔ v ∈ vs := by
  have hmem : v ∈ sorted vs ↔ v ∈ [] ∨ v ∈ vs.map id := mem_foldl_insert
  rw [hmem, List.map_id]
  exact or_iff_right List.not_mem_nil

lemma increasing_sorted (vs : List Var) : Increasing (sorted vs) :=
  increasing_foldl_insert id vs List.Pairwise.nil

end Var

namespace LinearForm

variable {R : Type} [CommRing R] (x : Var → R)

def sumTerms (ts : List (Var × Int64)) : R := (ts.map fun t => (t.2.toInt : R) * x t.1).sum

def eval (l : LinearForm) : R := sumTerms x l.terms + (l.constant.toInt : R)

@[simp] lemma sumTerms_nil : sumTerms x [] = 0 := rfl

@[simp] lemma sumTerms_cons (t : Var × Int64) (ts : List (Var × Int64)) :
    sumTerms x (t :: ts) = (t.2.toInt : R) * x t.1 + sumTerms x ts := by
  simp [sumTerms]

@[simp] lemma eval_const (c : Int64) : (const c).eval x = (c.toInt : R) := by
  simp [eval, const]

@[simp] lemma eval_ofVar (v : Var) : (ofVar v).eval x = x v := by
  simp [eval, ofVar]

lemma eval_isConst {l : LinearForm} (h : l.isConst = true) : l.eval x = (l.constant.toInt : R) := by
  have : l.terms = [] := by simpa [isConst] using h
  simp [eval, this]

lemma sumTerms_insertTerm {v : Var} {a : Int64} {ts us : List (Var × Int64)}
    (h : insertTerm v a ts = some us) : sumTerms x us = (a.toInt : R) * x v + sumTerms x ts := by
  induction ts generalizing us with
  | nil =>
    simp only [insertTerm, Option.some_inj] at h
    simp [← h]
  | cons t ts ih =>
    obtain ⟨w, b⟩ := t
    simp only [insertTerm] at h
    split at h
    · rw [Option.some_inj] at h
      simp [← h]
    · rename_i hvw
      have hv : v = w := Std.LawfulEqOrd.eq_of_compare hvw
      obtain ⟨c, hc, rfl⟩ := Option.map_eq_some_iff.mp h
      rw [Word.add?, Word.ofInt?_eq_some] at hc
      simp only [sumTerms_cons, hc, hv]
      push_cast
      ring
    · obtain ⟨us', hus, rfl⟩ := Option.map_eq_some_iff.mp h
      simp only [sumTerms_cons, ih hus]
      ring

lemma sumTerms_addTerms {ts us vs : List (Var × Int64)} (h : addTerms ts us = some vs) :
    sumTerms x vs = sumTerms x ts + sumTerms x us := by
  induction us generalizing ts with
  | nil =>
    simp only [addTerms, Option.some_inj] at h
    simp [h]
  | cons t us ih =>
    obtain ⟨v, a⟩ := t
    simp only [addTerms, Option.bind_eq_bind, Option.bind_eq_some_iff] at h
    obtain ⟨ts', hts, h⟩ := h
    rw [ih h, sumTerms_insertTerm x hts, sumTerms_cons]
    ring

lemma sumTerms_filter (ts : List (Var × Int64)) :
    sumTerms x (ts.filter (·.2 ≠ 0)) = sumTerms x ts := by
  induction ts with
  | nil => rfl
  | cons t ts ih =>
    by_cases ht : t.2 = 0
    · rw [List.filter_cons_of_neg (by simpa using ht), ih]
      simp [ht]
    · rw [List.filter_cons_of_pos (by simpa using ht), sumTerms_cons, sumTerms_cons, ih]

lemma eval_add {l k s : LinearForm} (h : l.add k = .ok s) : s.eval x = l.eval x + k.eval x := by
  rw [add, Result.orError_eq_ok] at h
  simp only [add?, Option.bind_eq_bind, Option.bind_eq_some_iff, Option.pure_def,
    Option.some_inj] at h
  obtain ⟨ts, hts, c, hc, rfl⟩ := h
  rw [Word.add?, Word.ofInt?_eq_some] at hc
  simp only [eval, sumTerms_filter, sumTerms_addTerms x hts, hc]
  push_cast
  ring

lemma sumTerms_scaleTerms {k : Int64} {ts us : List (Var × Int64)}
    (h : scaleTerms k ts = some us) : sumTerms x us = (k.toInt : R) * sumTerms x ts := by
  induction ts generalizing us with
  | nil =>
    simp only [scaleTerms, Option.some_inj] at h
    simp [← h]
  | cons t ts ih =>
    obtain ⟨v, a⟩ := t
    simp only [scaleTerms, Option.bind_eq_bind, Option.bind_eq_some_iff, Option.pure_def,
      Option.some_inj] at h
    obtain ⟨b, hb, us', hus, rfl⟩ := h
    rw [Word.mul?, Word.ofInt?_eq_some] at hb
    simp only [sumTerms_cons, hb, ih hus]
    push_cast
    ring

lemma eval_scale {l s : LinearForm} {k : Int64} (h : l.scale k = .ok s) :
    s.eval x = (k.toInt : R) * l.eval x := by
  rw [scale, Result.orError_eq_ok, scale?] at h
  split_ifs at h with hk
  · rw [Option.some_inj] at h
    simp [← h, hk]
  · simp only [Option.bind_eq_bind, Option.bind_eq_some_iff, Option.pure_def,
      Option.some_inj] at h
    obtain ⟨ts, hts, c, hc, rfl⟩ := h
    rw [Word.mul?, Word.ofInt?_eq_some] at hc
    simp only [eval, sumTerms_scaleTerms x hts, hc]
    push_cast
    ring

lemma eval_negated {l s : LinearForm} (h : l.scale (-1) = .ok s) : s.eval x = -l.eval x := by
  rw [eval_scale x h]
  simp

lemma eval_sub {l k s : LinearForm} (h : l.sub k = .ok s) : s.eval x = l.eval x - k.eval x := by
  rw [sub, Result.bind_eq_ok] at h
  obtain ⟨k', hk, h⟩ := h
  rw [eval_add x h, eval_negated x hk]
  ring

lemma eval_shift {l s : LinearForm} {d : Int64} (h : l.shift d = .ok s) :
    s.eval x = l.eval x + (d.toInt : R) := by
  rw [eval_add x h, eval_const]

/-- Forms have integer coefficients, so that an integer point gives them integer values. -/
lemma eval_intCast (ρ : Var → ℤ) (l : LinearForm) :
    l.eval (fun v => (ρ v : R)) = ((l.eval ρ : ℤ) : R) := by
  obtain ⟨ts, c⟩ := l
  simp only [eval, Int.cast_add, Int.cast_id, add_left_inj]
  induction ts with
  | nil => simp
  | cons t ts ih => simp [ih]

/-! ### Variables -/

def vars (l : LinearForm) : List Var := l.terms.map (·.1)

lemma eval_congr {x y : Var → R} {l : LinearForm} (h : ∀ v ∈ l.vars, x v = y v) :
    l.eval x = l.eval y := by
  have : (l.terms.map fun t => (t.2.toInt : R) * x t.1) =
      l.terms.map fun t => (t.2.toInt : R) * y t.1 :=
    List.map_congr_left fun t ht => by rw [h t.1 (List.mem_map_of_mem ht)]
  simp only [eval, sumTerms, this]

lemma map_fst_insertTerm {v : Var} {a : Int64} {ts us : List (Var × Int64)}
    (h : insertTerm v a ts = some us) : us.map (·.1) = Var.insert v (ts.map (·.1)) := by
  induction ts generalizing us with
  | nil =>
    simp only [insertTerm, Option.some_inj] at h
    simp [← h, Var.insert]
  | cons t ts ih =>
    obtain ⟨w, b⟩ := t
    simp only [insertTerm] at h
    rw [List.map_cons, Var.insert]
    split at h
    · rename_i hlt
      rw [Option.some_inj] at h
      simp [← h, hlt]
    · rename_i heq
      obtain ⟨c, hc, rfl⟩ := Option.map_eq_some_iff.mp h
      simp [heq]
    · rename_i hgt
      obtain ⟨us', hus, rfl⟩ := Option.map_eq_some_iff.mp h
      simp [hgt, ih hus]

lemma map_fst_addTerms {ts us vs : List (Var × Int64)} (h : addTerms ts us = some vs) :
    vs.map (·.1) = us.foldl (fun acc t => Var.insert t.1 acc) (ts.map (·.1)) := by
  induction us generalizing ts with
  | nil =>
    simp only [addTerms, Option.some_inj] at h
    simp [h]
  | cons t us ih =>
    obtain ⟨v, a⟩ := t
    simp only [addTerms, Option.bind_eq_bind, Option.bind_eq_some_iff] at h
    obtain ⟨ts', hts, h⟩ := h
    rw [List.foldl_cons, ih h, map_fst_insertTerm hts]

lemma vars_add {l k s : LinearForm} (h : l.add k = .ok s) : s.vars ⊆ l.vars ++ k.vars := by
  rw [add, Result.orError_eq_ok] at h
  simp only [add?, Option.bind_eq_bind, Option.bind_eq_some_iff, Option.pure_def,
    Option.some_inj] at h
  obtain ⟨ts, hts, c, hc, rfl⟩ := h
  intro v hv
  have hmem : v ∈ ts.map (·.1) := List.map_subset _ (List.filter_subset_self ts) hv
  rw [map_fst_addTerms hts, Var.mem_foldl_insert] at hmem
  exact List.mem_append.mpr hmem

lemma map_fst_scaleTerms {k : Int64} {ts us : List (Var × Int64)}
    (h : scaleTerms k ts = some us) : us.map (·.1) = ts.map (·.1) := by
  induction ts generalizing us with
  | nil =>
    simp only [scaleTerms, Option.some_inj] at h
    simp [← h]
  | cons t ts ih =>
    obtain ⟨v, a⟩ := t
    simp only [scaleTerms, Option.bind_eq_bind, Option.bind_eq_some_iff, Option.pure_def,
      Option.some_inj] at h
    obtain ⟨b, hb, us', hus, rfl⟩ := h
    simp [ih hus]

lemma vars_scale {l s : LinearForm} {k : Int64} (h : l.scale k = .ok s) : s.vars ⊆ l.vars := by
  rw [scale, Result.orError_eq_ok, scale?] at h
  split_ifs at h with hk
  · rw [Option.some_inj] at h
    simp [← h, vars, const]
  · simp only [Option.bind_eq_bind, Option.bind_eq_some_iff, Option.pure_def,
      Option.some_inj] at h
    obtain ⟨ts, hts, c, hc, rfl⟩ := h
    simp [vars, map_fst_scaleTerms hts]

lemma vars_shift {l s : LinearForm} {d : Int64} (h : l.shift d = .ok s) : s.vars ⊆ l.vars := by
  simpa [vars, const] using vars_add h

end LinearForm

namespace Constraint

def Sat {R : Type} [CommRing R] [LE R] (x : Var → R) (c : Constraint) : Prop :=
  match c.relation with
  | .nonneg => 0 ≤ c.form.eval x
  | .zero => c.form.eval x = 0

lemma sat_iff_holds (ρ : Var → ℤ) (c : Constraint) :
    c.Sat ρ ↔ c.relation.holds (c.form.eval ρ) = true := by
  unfold Sat Relation.holds
  split <;> simp [*]

lemma sat_intCast (ρ : Var → ℤ) (c : Constraint) : c.Sat (fun v => (ρ v : ℚ)) ↔ c.Sat ρ := by
  unfold Sat
  split <;> rw [LinearForm.eval_intCast] <;> norm_cast

lemma sat_congr {R : Type} [CommRing R] [LE R] {x y : Var → R} {c : Constraint}
    (h : ∀ v ∈ c.form.vars, x v = y v) : c.Sat x ↔ c.Sat y := by
  unfold Sat
  rw [LinearForm.eval_congr h]

end Constraint
end LoopInvariant
