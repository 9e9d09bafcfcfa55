import LoopInvariant.Proofs.Cases
import LoopInvariant.Proofs.Model

/-! Translating a formula never faults. It gives a normal form of the same meaning, or it reports
that the formula is of the wrong kind, is not linear, or has coefficients that are too large.
Translation and evaluation mean the same by a wrong kind. -/
namespace LoopInvariant

open Result

lemma Constraint.failsOnly_normalize (k : Constraint) {p : Failure → Prop} :
    FailsOnly k.normalize p := by
  obtain ⟨n, hn, -⟩ := k.exists_normalizes
  rw [hn]
  exact failsOnly_ok n

/-- What keeps an expression from being translated as one of the given kind: it is not of this
kind, it multiplies variables, or some coefficient leaves the range. -/
inductive Expr.Untranslatable (k : Kind) (e : Expr) : Failure → Prop
  | sort (expected : Kind) (found : String) (h : ¬e.Sorted k) :
      Untranslatable k e (.error (.sort expected found))
  | nonlinear (term : String) : Untranslatable k e (.error (.nonlinear term))
  | overflow (activity : String) : Untranslatable k e (.error (.overflow activity))

lemma Expr.failsOnly_part {α : Type} {x : Result α} {k part : Kind} {a e : Expr}
    (h : FailsOnly x (a.Untranslatable part)) (hpart : e.Sorted k → a.Sorted part) :
    FailsOnly x (e.Untranslatable k) := by
  refine h.imp fun f hf => ?_
  cases hf with
  | sort expected found hs => exact .sort expected found (mt hpart hs)
  | nonlinear term => exact .nonlinear term
  | overflow activity => exact .overflow activity

section Operations

variable {k : Kind} {e : Expr}

lemma LinearForm.failsOnly_add (l r : LinearForm) : FailsOnly (l.add r) (e.Untranslatable k) :=
  failsOnly_orError (.overflow _)

lemma LinearForm.failsOnly_scale (l : LinearForm) (a : Int64) :
    FailsOnly (l.scale a) (e.Untranslatable k) :=
  failsOnly_orError (.overflow _)

lemma LinearForm.failsOnly_sub (l r : LinearForm) : FailsOnly (l.sub r) (e.Untranslatable k) :=
  (r.failsOnly_scale (-1)).bind fun s => l.failsOnly_add s

lemma NormalForm.failsOnly_compare (op : Comparison) (d : LinearForm) :
    FailsOnly (NormalForm.compare op d) (e.Untranslatable k) := by
  have hshift (l : LinearForm) : FailsOnly (l.shift (-1)) (e.Untranslatable k) :=
    l.failsOnly_add _
  have hnegated : FailsOnly (d.scale (-1)) (e.Untranslatable k) := d.failsOnly_scale (-1)
  cases op with
  | ge => exact Constraint.failsOnly_normalize _
  | gt => exact (hshift d).bind fun _ => Constraint.failsOnly_normalize _
  | le => exact hnegated.bind fun _ => Constraint.failsOnly_normalize _
  | lt => exact hnegated.bind fun l => (hshift l).bind fun _ => Constraint.failsOnly_normalize _
  | eq => exact Constraint.failsOnly_normalize _
  | ne =>
    refine (hshift d).bind fun _ => (Constraint.failsOnly_normalize _).bind fun above => ?_
    refine hnegated.bind fun l => (hshift l).bind fun _ => ?_
    exact (Constraint.failsOnly_normalize _).bind fun below => failsOnly_ok _

lemma Case.failsOnly_negate (x : Case) : FailsOnly x.negate (e.Untranslatable k) :=
  (x.form.failsOnly_scale (-1)).bind fun _ => failsOnly_ok _

lemma Case.failsOnly_combine (op : Arith) (term : Expr) (x y : Case) :
    FailsOnly (Case.combine op term x y) (e.Untranslatable k) := by
  cases op with
  | add => exact (x.form.failsOnly_add y.form).bind fun _ => failsOnly_ok _
  | sub => exact (x.form.failsOnly_sub y.form).bind fun _ => failsOnly_ok _
  | mul =>
    simp only [Case.combine]
    split_ifs
    · exact (y.form.failsOnly_scale _).bind fun _ => failsOnly_ok _
    · exact (x.form.failsOnly_scale _).bind fun _ => failsOnly_ok _
    · exact (failsOnly_error (.nonlinear _)).bind fun _ => failsOnly_ok _

lemma Case.failsOnly_compare (op : Comparison) (x y : Case) :
    FailsOnly (Case.compare op x y) (e.Untranslatable k) := by
  refine (x.form.failsOnly_sub y.form).bind fun d => ?_
  exact (NormalForm.failsOnly_compare op d).bind fun _ => failsOnly_ok _

end Operations

namespace Expr

/-- The translation as a formula and the cases as a term fail for reasons of their own only: no
quotient is missing and no sum wraps. -/
theorem failsOnly_normalForm (e : Expr) :
    (∀ positive, FailsOnly (e.normalForm positive) (e.Untranslatable .formula)) ∧
      FailsOnly e.cases (e.Untranslatable .term) := by
  induction e with
  | bool b =>
    exact ⟨fun positive => failsOnly_ok _, failsOnly_error (.sort _ _ fun hs => (by cases hs))⟩
  | int n =>
    exact ⟨fun positive => failsOnly_error (.sort _ _ fun hs => (by cases hs)), failsOnly_ok _⟩
  | var v =>
    exact ⟨fun positive => failsOnly_error (.sort _ _ fun hs => (by cases hs)), failsOnly_ok _⟩
  | neg a ih =>
    refine ⟨fun positive => failsOnly_error (.sort _ _ fun hs => (by cases hs)), ?_⟩
    refine (failsOnly_part ih.2 fun hs => ?_).bind fun xs => .mapM fun x _ => x.failsOnly_negate
    cases hs
    assumption
  | not a ih =>
    refine ⟨fun positive => ?_, failsOnly_error (.sort _ _ fun hs => (by cases hs))⟩
    exact failsOnly_part (ih.1 !positive) sorted_not.mp
  | arith op a b iha ihb =>
    refine ⟨fun positive => failsOnly_error (.sort _ _ fun hs => (by cases hs)), ?_⟩
    refine (failsOnly_part iha.2 fun hs => ?_).bind fun xs =>
      (failsOnly_part ihb.2 fun hs => ?_).bind fun ys =>
        .mapM fun p _ => Case.failsOnly_combine op _ p.1 p.2
    all_goals
      cases hs
      assumption
  | implies a b iha ihb =>
    refine ⟨fun positive => ?_, failsOnly_error (.sort _ _ fun hs => (by cases hs))⟩
    refine (failsOnly_part (iha.1 !positive) fun hs => ?_).bind fun na =>
      (failsOnly_part (ihb.1 positive) fun hs => ?_).bind fun nb => failsOnly_ok _
    all_goals
      cases hs
      assumption
  | cmp op a b iha ihb =>
    refine ⟨fun positive => ?_, failsOnly_error (.sort _ _ fun hs => (by cases hs))⟩
    refine (failsOnly_part iha.2 fun hs => ?_).bind fun xs =>
      (failsOnly_part ihb.2 fun hs => ?_).bind fun ys =>
        (FailsOnly.mapM fun p _ => Case.failsOnly_compare _ p.1 p.2).bind fun ns => failsOnly_ok _
    all_goals
      cases hs
      assumption
  | join c args ih =>
    refine ⟨fun positive => ?_, failsOnly_error (.sort _ _ fun hs => (by cases hs))⟩
    rw [normalForm, normalForms_eq_mapM]
    refine FailsOnly.bind (.mapM fun a ha => ?_) fun ns => failsOnly_ok _
    refine failsOnly_part ((ih a ha).1 positive) fun hs => ?_
    cases hs with
    | join h => exact h a ha
  | ite c t e ihc iht ihe =>
    have hc (k : Kind) (positive : Bool) :
        FailsOnly (c.normalForm positive) ((Expr.ite c t e).Untranslatable k) := by
      refine failsOnly_part (ihc.1 positive) fun hs => ?_
      cases hs
      assumption
    constructor
    · intro positive
      refine (hc .formula true).bind fun yes =>
        (failsOnly_part (iht.1 positive) fun hs => ?_).bind fun nt =>
          (hc .formula false).bind fun no =>
            (failsOnly_part (ihe.1 positive) fun hs => ?_).bind fun ne => failsOnly_ok _
      all_goals
        cases hs
        assumption
    · refine (hc .term true).bind fun yes => (hc .term false).bind fun no =>
        (failsOnly_part iht.2 fun hs => ?_).bind fun ts =>
          (failsOnly_part ihe.2 fun hs => ?_).bind fun es => failsOnly_ok _
      all_goals
        cases hs
        assumption

/-- Translation is exact in both polarities: it reports an error, or the normal form is true where
the formula has the wanted truth value, over all integers. -/
theorem normalForm_exact (e : Expr) (positive : Bool) :
    (∃ err, e.normalForm positive = .error (.error err)) ∨
      ∃ n, e.normalForm positive = .ok n ∧ e.Sorted .formula ∧
        ∀ ρ : Valuation, n.truth ρ = true ↔ e.truth ρ = positive := by
  cases h : e.normalForm positive with
  | error f =>
    left
    cases (failsOnly_normalForm e).1 positive f h with
    | sort expected found hs => exact ⟨_, rfl⟩
    | nonlinear term => exact ⟨_, rfl⟩
    | overflow activity => exact ⟨_, rfl⟩
  | ok n =>
    obtain ⟨hsorted, htruth⟩ := (meaning_normalForm e).1 positive n h
    exact .inr ⟨n, rfl, hsorted, fun ρ => by simp [htruth ρ]⟩

end Expr

/-! ### Kinds -/

def Result.Missorted {α : Type} (x : Result α) : Prop :=
  ∃ expected found, x = .error (.error (.sort expected found))

lemma Model.not_missorted_evalBool (m : Model) {e : Expr} (he : e.Sorted .formula) :
    ¬(m.evalBool e).Missorted := by
  rintro ⟨expected, found, h⟩
  have heval := (m.eval_upToOverflow e).2 he
  rw [h] at heval
  obtain ⟨activity, hactivity⟩ := heval
  cases hactivity

namespace Expr

lemma not_missorted_normalForm {e : Expr} (he : e.Sorted .formula) (positive : Bool) :
    ¬(e.normalForm positive).Missorted := by
  rintro ⟨expected, found, h⟩
  cases (failsOnly_normalForm e).1 positive _ h with
  | sort expected found hs => exact hs he

/-- What can be translated is a formula, which no evaluation finds to be of the wrong kind. A formula
is translated without such an error, whether it is negated or not. -/
theorem sorts_agree (e : Expr) :
    (∀ positive n, e.normalForm positive = .ok n →
      e.Sorted .formula ∧ ∀ m : Model, ¬(m.evalBool e).Missorted) ∧
    (e.Sorted .formula → ∀ positive, ¬(e.normalForm positive).Missorted) := by
  refine ⟨fun positive n hn => ?_, not_missorted_normalForm⟩
  have hsorted := ((meaning_normalForm e).1 positive n hn).1
  exact ⟨hsorted, fun m => m.not_missorted_evalBool hsorted⟩

def magnitude : Expr :=
  .ite (.cmp .lt (.var ⟨"x", none⟩) (.int 0)) (.neg (.var ⟨"x", none⟩)) (.var ⟨"x", none⟩)

/-- That it is not negative can be translated, so that no evaluation is stuck, though some of them
overflow. That its square is not smaller cannot, but not for the kind of a part. -/
theorem sorts_agree_magnitude :
    ((∃ n, (Expr.cmp .ge magnitude (.int 0)).normalForm false = .ok n) ∧
      Sorted .formula (.cmp .ge magnitude (.int 0)) ∧
      ∀ m : Model, ¬(m.evalBool (.cmp .ge magnitude (.int 0))).Missorted) ∧
    (Sorted .formula (.cmp .ge (.arith .mul magnitude magnitude) magnitude) ∧
      ∀ positive, ¬((Expr.cmp .ge (.arith .mul magnitude magnitude) magnitude).normalForm
        positive).Missorted) := by
  have hx : Sorted .term (.var ⟨"x", none⟩) := .var _
  have hmagnitude : magnitude.Sorted .term := .ite (.cmp hx (.int 0)) (.neg hx) hx
  have hsquare : Sorted .formula (.cmp .ge (.arith .mul magnitude magnitude) magnitude) :=
    .cmp (.arith hmagnitude hmagnitude) hmagnitude
  exact ⟨⟨⟨_, rfl⟩, (sorts_agree _).1 false _ rfl⟩, hsquare, (sorts_agree _).2 hsquare⟩

end Expr
end LoopInvariant
