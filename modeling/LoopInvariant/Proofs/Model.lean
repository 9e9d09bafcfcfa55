import LoopInvariant.Model
import LoopInvariant.Proofs.LinearForm
import LoopInvariant.Proofs.Meaning
import LoopInvariant.Proofs.Outcome

/-! Models as finite maps in increasing order of variables, and the evaluator on them, which agrees
with the exact meaning of well-sorted expressions unless it reports an overflow. -/
namespace LoopInvariant

namespace Expr

lemma increasing_vars (e : Expr) : Var.Increasing e.vars := Var.increasing_sorted _

@[simp] lemma mem_vars {e : Expr} {v : Var} : v ∈ e.vars ↔ v ∈ e.occurrences := Var.mem_sorted

end Expr

namespace Model

variable {m : Model} {v w : Var} {n : Int64} {s : List (Var × Int64)}

/-- The exact values of the variables in a model, and zero for all others. -/
def valuation (m : Model) : Valuation := fun v => (m.value v).toInt

lemma vars_insert : (m.insert v n).vars = Var.insert v m.vars := by
  unfold vars insert
  generalize m.entries = es
  induction es with
  | nil => rfl
  | cons e es ih =>
    obtain ⟨w, k⟩ := e
    rw [insertEntry, List.map_cons, Var.insert]
    cases compare v w with
    | lt => rfl
    | eq => rfl
    | gt => exact congrArg (w :: ·) ih

lemma vars_extend : (m.extend s).vars = s.foldl (fun acc p => Var.insert p.1 acc) m.vars := by
  unfold extend
  induction s generalizing m with
  | nil => rfl
  | cons p s ih => rw [List.foldl_cons, List.foldl_cons, ih, vars_insert]

lemma increasing_extend (h : Var.Increasing m.vars) : Var.Increasing (m.extend s).vars :=
  vars_extend ▸ Var.increasing_foldl_insert (·.1) s h

lemma mem_vars_extend : v ∈ (m.extend s).vars ↔ v ∈ m.vars ∨ v ∈ s.map (·.1) := by
  rw [vars_extend, Var.mem_foldl_insert]

lemma isSome_get? : (m.get? v).isSome ↔ v ∈ m.vars := by
  simp [get?, vars]

lemma get?_insert : (m.insert v n).get? w = if w = v then some n else m.get? w := by
  unfold get? insert
  generalize m.entries = es
  induction es with
  | nil =>
    by_cases h : v = w
    · simp [insertEntry, h]
    · simp [insertEntry, h, Ne.symm h]
  | cons e es ih =>
    obtain ⟨u, k⟩ := e
    simp only [insertEntry]
    split
    · by_cases h : v = w
      · simp [h]
      · rw [List.find?_cons_of_neg (by simpa using h), if_neg (Ne.symm h)]
    · rename_i heq
      have hvu : v = u := Std.LawfulEqOrd.eq_of_compare heq
      by_cases h : u = w
      · simp [hvu, h]
      · rw [List.find?_cons_of_neg (by simpa using h), List.find?_cons_of_neg (by simpa using h),
          hvu, if_neg (Ne.symm h)]
    · rename_i hgt
      have hvu : v ≠ u := by
        rintro rfl
        rw [Std.ReflOrd.compare_self] at hgt
        cases hgt
      by_cases h : u = w
      · subst h
        simp [Ne.symm hvu]
      · rw [List.find?_cons_of_neg (by simpa using h), List.find?_cons_of_neg (by simpa using h)]
        exact ih

lemma get?_extend_of_notMem (h : v ∉ s.map (·.1)) : (m.extend s).get? v = m.get? v := by
  unfold extend
  induction s generalizing m with
  | nil => rfl
  | cons p s ih =>
    rw [List.map_cons, List.mem_cons, not_or] at h
    rw [List.foldl_cons, ih h.2, get?_insert, if_neg h.1]

lemma get?_extend_of_mem (hs : (s.map (·.1)).Nodup) (h : (v, n) ∈ s) :
    (m.extend s).get? v = some n := by
  induction s generalizing m with
  | nil => simp at h
  | cons p s ih =>
    rw [List.map_cons, List.nodup_cons] at hs
    rcases List.mem_cons.mp h with rfl | h
    · have hrest : ((m.insert v n).extend s).get? v = (m.insert v n).get? v :=
        get?_extend_of_notMem hs.1
      exact hrest.trans (by simp [get?_insert])
    · exact @ih (m.insert p.1 p.2) hs.2 h

lemma valuation_extend_of_mem (hs : (s.map (·.1)).Nodup) (h : (v, n) ∈ s) :
    (m.extend s).valuation v = n.toInt := by
  rw [valuation, value, get?_extend_of_mem hs h, Option.getD_some]

lemma get?_eq_some (hm : Var.Increasing m.vars) (h : (v, n) ∈ m.entries) : m.get? v = some n := by
  unfold get?
  cases hf : m.entries.find? (·.1 = v) with
  | none =>
    have := List.find?_eq_none.mp hf (v, n) h
    simp at this
  | some e =>
    have hkey : e.1 = v := by simpa using List.find?_some hf
    have hinj := List.inj_on_of_nodup_map (List.Pairwise.imp ?_ hm) (List.mem_of_find?_eq_some hf) h
    · rw [hinj hkey, Option.map_some]
    · rintro u w hlt rfl
      rw [Std.ReflOrd.compare_self] at hlt
      cases hlt

lemma mem_copies (hm : Var.Increasing m.vars) (hv : v ∈ m.vars) :
    (v, m.value v) ∈ m.entries.filter (·.1.name = v.name) := by
  obtain ⟨⟨w, n⟩, hn, rfl⟩ := List.mem_map.mp hv
  rw [value, get?_eq_some hm hn, Option.getD_some]
  simp [hn]

lemma increasing_copies (hm : Var.Increasing m.vars) (name : String) :
    (m.entries.filter (·.1.name = name)).Pairwise fun a b => compare a.1 b.1 = .lt :=
  List.Pairwise.filter _ (List.pairwise_map.mp hm)

lemma mem_vars_of_copy {e : Var × Int64} {name : String}
    (h : e ∈ m.entries.filter (·.1.name = name)) : e.1 ∈ m.vars ∧ e.1.name = name := by
  rw [List.mem_filter, decide_eq_true_iff] at h
  exact ⟨List.mem_map_of_mem h.1, h.2⟩

lemma head?_copies (hm : Var.Increasing m.vars) (hv : v ∈ m.vars)
    (hmin : ∀ w ∈ m.vars, w.name = v.name → compare w v ≠ .lt) :
    ((m.entries.filter (·.1.name = v.name)).head?.map (·.2)).getD 0 = m.value v := by
  have hmem := mem_copies hm hv
  have hsorted := increasing_copies hm v.name
  rcases he : m.entries.filter (·.1.name = v.name) with _ | ⟨e, rest⟩
  · rw [he] at hmem
    simp at hmem
  · rw [he] at hmem hsorted
    have hin : e ∈ m.entries.filter (·.1.name = v.name) := by simp [he]
    obtain ⟨hvar, hname⟩ := mem_vars_of_copy hin
    rcases List.mem_cons.mp hmem with heq | hrest
    · rw [he, List.head?_cons, ← heq, Option.map_some, Option.getD_some]
    · exact absurd ((List.pairwise_cons.mp hsorted).1 _ hrest) (hmin e.1 hvar hname)

lemma getLast?_copies (hm : Var.Increasing m.vars) (hv : v ∈ m.vars)
    (hmax : ∀ w ∈ m.vars, w.name = v.name → compare w v ≠ .gt) :
    ((m.entries.filter (·.1.name = v.name)).getLast?.map (·.2)).getD 0 = m.value v := by
  have hmem := mem_copies hm hv
  have hsorted := increasing_copies hm v.name
  rcases List.eq_nil_or_concat (m.entries.filter (·.1.name = v.name)) with he | ⟨init, e, he⟩
  · rw [he] at hmem
    simp at hmem
  · rw [List.concat_eq_append] at he
    rw [he] at hmem hsorted
    have hin : e ∈ m.entries.filter (·.1.name = v.name) := by simp [he]
    obtain ⟨hvar, hname⟩ := mem_vars_of_copy hin
    rcases List.mem_append.mp hmem with hinit | heq
    · have hlt := (List.pairwise_append.mp hsorted).2.2 _ hinit e (by simp)
      exact absurd (Std.OrientedCmp.gt_iff_lt.mpr hlt) (hmax e.1 hvar hname)
    · rw [he, List.getLast?_concat, ← List.mem_singleton.mp heq, Option.map_some,
        Option.getD_some]

end Model

namespace Result

variable {α β : Type}

/-- The result is as described, unless there was an overflow. -/
def UpToOverflow (r : Result α) (p : α → Prop) : Prop :=
  match r with
  | .ok a => p a
  | .error f => ∃ activity, f = .error (.overflow activity)

lemma UpToOverflow.bind {r : Result α} {f : α → Result β} {p : α → Prop} {q : β → Prop}
    (hr : r.UpToOverflow p) (hf : ∀ a, p a → (f a).UpToOverflow q) : (r >>= f).UpToOverflow q := by
  cases r with
  | ok a => exact hf a hr
  | error e => exact hr

lemma upToOverflow_orError {x : Option α} {activity : String} {p : α → Prop}
    (h : ∀ a, x = some a → p a) : (orError x (.overflow activity)).UpToOverflow p := by
  cases x with
  | some a => exact h a rfl
  | none => exact ⟨activity, rfl⟩

end Result

namespace Arith

lemma result?_eq_some {op : Arith} {a b c : Int64} :
    op.result? a b = some c ↔ c.toInt = op.exact a.toInt b.toInt := by
  cases op <;> exact Word.ofInt?_eq_some

end Arith

namespace Model

open Result

lemma evalJoin_upToOverflow (m : Model) (c : Connective) (args : List Expr)
    (h : ∀ e ∈ args, (m.evalBool e).UpToOverflow (· = e.truth m.valuation)) :
    (m.evalJoin c args).UpToOverflow (· = c.joined (args.map (Expr.truth m.valuation))) := by
  induction args with
  | nil => exact (Connective.joined_nil c).symm
  | cons a as ih =>
    rw [List.forall_mem_cons] at h
    rw [evalJoin]
    refine h.1.bind fun b hb => ?_
    rw [List.map_cons, Connective.joined_cons, ← hb]
    by_cases hunit : b = c.unit
    · rw [if_pos hunit, if_pos hunit]
      exact ih h.2
    · rw [if_neg hunit, if_neg hunit]
      exact Bool.eq_not.mpr hunit

/-- On well-sorted expressions the evaluator gives the exact meaning or an overflow. -/
lemma eval_upToOverflow (m : Model) (e : Expr) :
    (Expr.Sorted .term e → (m.evalInt e).UpToOverflow (·.toInt = e.value m.valuation)) ∧
      (Expr.Sorted .formula e → (m.evalBool e).UpToOverflow (· = e.truth m.valuation)) := by
  induction e with
  | bool b => exact ⟨fun hs => (by cases hs), fun _ => rfl⟩
  | int n => exact ⟨fun _ => rfl, fun hs => (by cases hs)⟩
  | var v => exact ⟨fun _ => rfl, fun hs => (by cases hs)⟩
  | neg a ih =>
    refine ⟨fun hs => ?_, fun hs => (by cases hs)⟩
    cases hs with
    | neg ha =>
      rw [evalInt]
      refine (ih.1 ha).bind fun x hx => upToOverflow_orError fun y hy => ?_
      rw [Expr.value, ← hx]
      exact Word.ofInt?_eq_some.mp hy
  | not a ih =>
    refine ⟨fun hs => (by cases hs), fun hs => ?_⟩
    cases hs with
    | not ha =>
      rw [evalBool]
      refine (ih.2 ha).bind fun x hx => ?_
      rw [Expr.truth, ← hx]
      rfl
  | arith op a b iha ihb =>
    refine ⟨fun hs => ?_, fun hs => (by cases hs)⟩
    cases hs with
    | arith ha hb =>
      rw [evalInt]
      refine (iha.1 ha).bind fun x hx => (ihb.1 hb).bind fun y hy => ?_
      refine upToOverflow_orError fun z hz => ?_
      rw [Expr.value, ← hx, ← hy]
      exact Arith.result?_eq_some.mp hz
  | implies a b iha ihb =>
    refine ⟨fun hs => (by cases hs), fun hs => ?_⟩
    cases hs with
    | implies ha hb =>
      rw [evalBool]
      refine (iha.2 ha).bind fun x hx => ?_
      rw [Expr.truth, ← hx]
      cases x with
      | true => exact ihb.2 hb
      | false => rfl
  | cmp op a b iha ihb =>
    refine ⟨fun hs => (by cases hs), fun hs => ?_⟩
    cases hs with
    | cmp ha hb =>
      rw [evalBool]
      refine (iha.1 ha).bind fun x hx => (ihb.1 hb).bind fun y hy => ?_
      rw [Expr.truth, ← hx, ← hy]
      rfl
  | join c args ih =>
    refine ⟨fun hs => (by cases hs), fun hs => ?_⟩
    cases hs with
    | join hargs =>
      rw [evalBool, Expr.truth, Expr.truths_eq_map]
      exact evalJoin_upToOverflow m c args fun e he => (ih e he).2 (hargs e he)
  | ite c t e ihc iht ihe =>
    constructor
    · intro hs
      cases hs with
      | ite hc ht he =>
        rw [evalInt]
        refine (ihc.2 hc).bind fun x hx => ?_
        rw [Expr.value, ← hx]
        cases x with
        | true => exact iht.1 ht
        | false => exact ihe.1 he
    · intro hs
      cases hs with
      | ite hc ht he =>
        rw [evalBool]
        refine (ihc.2 hc).bind fun x hx => ?_
        rw [Expr.truth, ← hx]
        cases x with
        | true => exact iht.2 ht
        | false => exact ihe.2 he

end Model
end LoopInvariant
