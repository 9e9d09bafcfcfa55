import LoopInvariant.Proofs.Model
import LoopInvariant.Proofs.Simplify

/-! A simplified expression evaluates wherever the expression itself does, and to the same result.
The expression may be ill sorted, or overflow, in parts that the evaluator does not come to: folding
keeps the order in which parts are looked at, and leaves out only parts whose values are known. -/
namespace LoopInvariant.Model

variable {m : Model} {a b c t e a' b' c' t' e' : Expr} {args : List Expr} {k : Connective}

/-! ### What an evaluation has looked at -/

lemma evalInt_neg {n : Int64} :
    m.evalInt (.neg a) = .ok n ↔ ∃ x, m.evalInt a = .ok x ∧ Word.neg? x = some n := by
  rw [evalInt, Result.bind_eq_ok]
  exact exists_congr fun x => and_congr_right fun _ => Result.orError_eq_ok

lemma evalInt_arith {op : Arith} {n : Int64} :
    m.evalInt (.arith op a b) = .ok n ↔
      ∃ x y, m.evalInt a = .ok x ∧ m.evalInt b = .ok y ∧ op.result? x y = some n := by
  simp only [evalInt, Result.bind_eq_ok, ← exists_and_left]
  exact exists_congr fun x => exists_congr fun y => and_congr_right fun _ =>
    and_congr_right fun _ => Result.orError_eq_ok

lemma evalInt_ite {n : Int64} :
    m.evalInt (.ite c t e) = .ok n ↔
      ∃ v, m.evalBool c = .ok v ∧ m.evalInt (if v then t else e) = .ok n := by
  rw [evalInt, Result.bind_eq_ok]
  refine exists_congr fun v => and_congr_right fun _ => ?_
  cases v <;> rfl

lemma evalBool_not {r : Bool} : m.evalBool (.not a) = .ok r ↔ m.evalBool a = .ok !r := by
  rw [evalBool, Result.bind_eq_ok]
  constructor
  · rintro ⟨v, hv, hr⟩
    rw [hv, ← Result.pure_eq_ok.mp hr, Bool.not_not]
  · intro h
    exact ⟨!r, h, by rw [Bool.not_not]; rfl⟩

lemma evalBool_implies {r : Bool} :
    m.evalBool (.implies a b) = .ok r ↔
      m.evalBool a = .ok false ∧ r = true ∨ m.evalBool a = .ok true ∧ m.evalBool b = .ok r := by
  rw [evalBool, Result.bind_eq_ok]
  constructor
  · rintro ⟨v, hv, hr⟩
    cases v with
    | false => exact .inl ⟨hv, (Result.pure_eq_ok.mp hr).symm⟩
    | true => exact .inr ⟨hv, hr⟩
  · rintro (⟨ha, rfl⟩ | ⟨ha, hb⟩)
    · exact ⟨false, ha, rfl⟩
    · exact ⟨true, ha, hb⟩

lemma evalBool_cmp {op : Comparison} {r : Bool} :
    m.evalBool (.cmp op a b) = .ok r ↔
      ∃ x y, m.evalInt a = .ok x ∧ m.evalInt b = .ok y ∧ op.holds x.toInt y.toInt = r := by
  simp only [evalBool, Result.bind_eq_ok, Result.pure_eq_ok, ← exists_and_left]

lemma evalBool_ite {r : Bool} :
    m.evalBool (.ite c t e) = .ok r ↔
      ∃ v, m.evalBool c = .ok v ∧ m.evalBool (if v then t else e) = .ok r := by
  rw [evalBool, Result.bind_eq_ok]
  refine exists_congr fun v => and_congr_right fun _ => ?_
  cases v <;> rfl

/-- A part that is not neutral decides, and what follows it is not looked at. -/
lemma evalJoin_cons {r : Bool} :
    m.evalJoin k (a :: args) = .ok r ↔
      m.evalBool a = .ok k.unit ∧ m.evalJoin k args = .ok r ∨
        m.evalBool a = .ok (!k.unit) ∧ r = !k.unit := by
  rw [evalJoin, Result.bind_eq_ok]
  constructor
  · rintro ⟨v, hv, hr⟩
    by_cases hunit : v = k.unit
    · rw [if_pos hunit] at hr
      exact .inl ⟨hunit ▸ hv, hr⟩
    · rw [if_neg hunit, Result.pure_eq_ok] at hr
      rw [Bool.eq_not.mpr hunit] at hv hr
      exact .inr ⟨hv, hr.symm⟩
  · rintro (⟨ha, hr⟩ | ⟨ha, rfl⟩)
    · exact ⟨k.unit, ha, by rw [if_pos rfl, hr]⟩
    · exact ⟨!k.unit, ha, by rw [if_neg (by simp)]; rfl⟩

lemma evalJoin_append {as bs : List Expr} {r : Bool} :
    m.evalJoin k (as ++ bs) = .ok r ↔
      m.evalJoin k as = .ok k.unit ∧ m.evalJoin k bs = .ok r ∨
        m.evalJoin k as = .ok (!k.unit) ∧ r = !k.unit := by
  induction as with
  | nil => simp [evalJoin]
  | cons a as ih =>
    have hne : k.unit ≠ !k.unit := by simp
    rw [List.cons_append, evalJoin_cons, evalJoin_cons, evalJoin_cons, ih]
    tauto

lemma evalJoin_singleton {r : Bool} : m.evalJoin k [a] = .ok r ↔ m.evalBool a = .ok r := by
  rw [evalJoin_cons, evalJoin]
  cases k <;> cases r <;> simp [Connective.unit]

lemma evalJoin_parts {r : Bool} :
    m.evalJoin k (Expr.parts k e) = .ok r ↔ m.evalBool e = .ok r := by
  unfold Expr.parts
  split
  · split_ifs with hkind
    · subst hkind
      rw [evalBool]
    · exact evalJoin_singleton
  · exact evalJoin_singleton

/-! ### Refinement -/

/-- Wherever the first expression evaluates, the second one evaluates to the same. -/
structure Refines (m : Model) (e e' : Expr) : Prop where
  int : ∀ n, m.evalInt e = .ok n → m.evalInt e' = .ok n
  bool : ∀ r, m.evalBool e = .ok r → m.evalBool e' = .ok r

namespace Refines

lemma refl (m : Model) (e : Expr) : m.Refines e e := ⟨fun _ h => h, fun _ h => h⟩

lemma trans (h : m.Refines a b) (h' : m.Refines b c) : m.Refines a c :=
  ⟨fun n hn => h'.int n (h.int n hn), fun r hr => h'.bool r (h.bool r hr)⟩

lemma of_int (hbool : ∀ r, m.evalBool e ≠ .ok r)
    (hint : ∀ n, m.evalInt e = .ok n → m.evalInt e' = .ok n) : m.Refines e e' :=
  ⟨hint, fun r hr => absurd hr (hbool r)⟩

lemma of_bool (hint : ∀ n, m.evalInt e ≠ .ok n)
    (hbool : ∀ r, m.evalBool e = .ok r → m.evalBool e' = .ok r) : m.Refines e e' :=
  ⟨fun n hn => absurd hn (hint n), hbool⟩

lemma neg (h : m.Refines a a') : m.Refines (.neg a) (.neg a') := by
  apply of_int (by simp [evalBool])
  intro n hn
  obtain ⟨x, hx, hn⟩ := evalInt_neg.mp hn
  exact evalInt_neg.mpr ⟨x, h.int x hx, hn⟩

lemma not (h : m.Refines a a') : m.Refines (.not a) (.not a') := by
  apply of_bool (by simp [evalInt])
  intro r hr
  exact evalBool_not.mpr (h.bool _ (evalBool_not.mp hr))

lemma arith (op : Arith) (ha : m.Refines a a') (hb : m.Refines b b') :
    m.Refines (.arith op a b) (.arith op a' b') := by
  apply of_int (by simp [evalBool])
  intro n hn
  obtain ⟨x, y, hx, hy, hn⟩ := evalInt_arith.mp hn
  exact evalInt_arith.mpr ⟨x, y, ha.int x hx, hb.int y hy, hn⟩

lemma implies (ha : m.Refines a a') (hb : m.Refines b b') :
    m.Refines (.implies a b) (.implies a' b') := by
  apply of_bool (by simp [evalInt])
  intro r hr
  rw [evalBool_implies] at hr ⊢
  exact hr.imp (And.imp_left (ha.bool _)) (And.imp (ha.bool _) (hb.bool _))

lemma cmp (op : Comparison) (ha : m.Refines a a') (hb : m.Refines b b') :
    m.Refines (.cmp op a b) (.cmp op a' b') := by
  apply of_bool (by simp [evalInt])
  intro r hr
  obtain ⟨x, y, hx, hy, hr⟩ := evalBool_cmp.mp hr
  exact evalBool_cmp.mpr ⟨x, y, ha.int x hx, hb.int y hy, hr⟩

lemma join (k : Connective) {f : Expr → Expr} (h : ∀ e ∈ args, m.Refines e (f e)) :
    m.Refines (.join k args) (.join k (args.map f)) := by
  apply of_bool (by simp [evalInt])
  intro r hr
  rw [evalBool] at hr ⊢
  induction args with
  | nil => exact hr
  | cons a args ih =>
    rw [List.forall_mem_cons] at h
    rw [evalJoin_cons] at hr
    rw [List.map_cons, evalJoin_cons]
    exact hr.imp (And.imp (h.1.bool _) (ih h.2)) (And.imp_left (h.1.bool _))

lemma ite (hc : m.Refines c c') (ht : m.Refines t t') (he : m.Refines e e') :
    m.Refines (.ite c t e) (.ite c' t' e') := by
  constructor
  · intro n hn
    obtain ⟨v, hv, hn⟩ := evalInt_ite.mp hn
    refine evalInt_ite.mpr ⟨v, hc.bool v hv, ?_⟩
    cases v with
    | true => exact ht.int n hn
    | false => exact he.int n hn
  · intro r hr
    obtain ⟨v, hv, hr⟩ := evalBool_ite.mp hr
    refine evalBool_ite.mpr ⟨v, hc.bool v hv, ?_⟩
    cases v with
    | true => exact ht.bool r hr
    | false => exact he.bool r hr

end Refines

/-! ### Folding -/

lemma refines_foldNeg (m : Model) (a : Expr) : m.Refines (.neg a) (Expr.foldNeg a) := by
  unfold Expr.foldNeg
  split
  · rename_i n
    split
    · rename_i k hk
      apply Refines.of_int (by simp [evalBool])
      intro x hx
      obtain ⟨y, hy, hx⟩ := evalInt_neg.mp hx
      simp only [evalInt, Except.ok.injEq] at hy ⊢
      rw [hy] at hk
      exact Option.some_inj.mp (hk.symm.trans hx)
    · exact .refl m _
  · rename_i b
    apply Refines.of_int (by simp [evalBool])
    intro x hx
    obtain ⟨y, hy, hx⟩ := evalInt_neg.mp hx
    obtain ⟨z, hz, hy⟩ := evalInt_neg.mp hy
    rw [Word.neg?, Word.ofInt?_eq_some] at hx hy
    have hxz : x = z := Int64.toInt_inj.mp (by omega)
    rw [hz, hxz]
  · exact .refl m _

lemma refines_foldNot (m : Model) (a : Expr) : m.Refines (.not a) (Expr.foldNot a) := by
  unfold Expr.foldNot
  split
  · apply Refines.of_bool (by simp [evalInt])
    intro r hr
    rw [evalBool_not] at hr
    simp only [evalBool, Except.ok.injEq] at hr ⊢
    rw [hr, Bool.not_not]
  · apply Refines.of_bool (by simp [evalInt])
    intro r hr
    rw [evalBool_not, evalBool_not, Bool.not_not] at hr
    exact hr
  · apply Refines.of_bool (by simp [evalInt])
    intro r hr
    obtain ⟨x, y, hx, hy, hr⟩ := evalBool_cmp.mp (evalBool_not.mp hr)
    refine evalBool_cmp.mpr ⟨x, y, hx, hy, ?_⟩
    rw [Comparison.holds_negate, hr, Bool.not_not]
  · exact .refl m _

lemma refines_right {op : Arith} {z : Int64} (h : ∀ y : ℤ, op.exact z.toInt y = y) :
    m.Refines (.arith op (.int z) b) b := by
  apply Refines.of_int (by simp [evalBool])
  intro n hn
  obtain ⟨x, y, hx, hy, hn⟩ := evalInt_arith.mp hn
  simp only [evalInt, Except.ok.injEq] at hx
  rw [Arith.result?_eq_some, ← hx, h, Int64.toInt_inj] at hn
  rw [hy, hn]

lemma refines_left {op : Arith} {z : Int64} (h : ∀ x : ℤ, op.exact x z.toInt = x) :
    m.Refines (.arith op a (.int z)) a := by
  apply Refines.of_int (by simp [evalBool])
  intro n hn
  obtain ⟨x, y, hx, hy, hn⟩ := evalInt_arith.mp hn
  simp only [evalInt, Except.ok.injEq] at hy
  rw [Arith.result?_eq_some, ← hy, h, Int64.toInt_inj] at hn
  rw [hx, hn]

lemma refines_mul_zero (h : a = .int 0 ∨ b = .int 0) :
    m.Refines (.arith .mul a b) (.int 0) := by
  apply Refines.of_int (by simp [evalBool])
  intro n hn
  obtain ⟨x, y, hx, hy, hn⟩ := evalInt_arith.mp hn
  have hzero : x = 0 ∨ y = 0 := by
    refine h.imp (fun ha => ?_) fun hb => ?_
    · rw [ha, evalInt, Except.ok.injEq] at hx
      exact hx.symm
    · rw [hb, evalInt, Except.ok.injEq] at hy
      exact hy.symm
  have hn0 : n = 0 := by
    rw [Arith.result?_eq_some] at hn
    apply Int64.toInt_inj.mp
    rcases hzero with rfl | rfl <;> simpa [Arith.exact] using hn
  rw [evalInt, hn0]

lemma refines_foldUnits (m : Model) (op : Arith) (a b : Expr) :
    m.Refines (.arith op a b) (Expr.foldUnits op a b) := by
  unfold Expr.foldUnits
  split
  · split_ifs with ha hb
    · subst ha
      exact refines_right (by simp [Arith.exact])
    · subst hb
      exact refines_left (by simp [Arith.exact])
    · exact .refl m _
  · split_ifs with hb
    · subst hb
      exact refines_left (by simp [Arith.exact])
    · exact .refl m _
  · split_ifs with ha hb hzero
    · subst ha
      exact refines_right (by simp [Arith.exact])
    · subst hb
      exact refines_left (by simp [Arith.exact])
    · exact refines_mul_zero hzero
    · exact .refl m _

lemma refines_foldArith (m : Model) (op : Arith) (a b : Expr) :
    m.Refines (.arith op a b) (Expr.foldArith op a b) := by
  unfold Expr.foldArith
  split
  · split
    · rename_i k hk
      apply Refines.of_int (by simp [evalBool])
      intro n hn
      obtain ⟨x, y, hx, hy, hn⟩ := evalInt_arith.mp hn
      simp only [evalInt, Except.ok.injEq] at hx hy ⊢
      rw [hx, hy] at hk
      exact Option.some_inj.mp (hk.symm.trans hn)
    · exact refines_foldUnits m op _ _
  · exact refines_foldUnits m op a b

lemma refines_foldImplies (m : Model) (a b : Expr) :
    m.Refines (.implies a b) (Expr.foldImplies a b) := by
  unfold Expr.foldImplies
  split_ifs with htrue ha
  · apply Refines.of_bool (by simp [evalInt])
    intro r hr
    rw [evalBool_implies] at hr
    rcases htrue with rfl | rfl
    · rcases hr with ⟨-, rfl⟩ | ⟨ha, -⟩
      · rfl
      · cases ha
    · rcases hr with ⟨-, rfl⟩ | ⟨-, hb⟩
      · rfl
      · exact hb
  · apply Refines.of_bool (by simp [evalInt])
    intro r hr
    rw [evalBool_implies, ha] at hr
    rcases hr with ⟨hfalse, -⟩ | ⟨-, hb⟩
    · cases hfalse
    · exact hb
  · exact .refl m _

lemma refines_foldCmp (m : Model) (op : Comparison) (a b : Expr) :
    m.Refines (.cmp op a b) (Expr.foldCmp op a b) := by
  unfold Expr.foldCmp
  split
  · apply Refines.of_bool (by simp [evalInt])
    intro r hr
    obtain ⟨x, y, hx, hy, hr⟩ := evalBool_cmp.mp hr
    simp only [evalInt, Except.ok.injEq] at hx hy
    rw [evalBool, hx, hy, hr]
  · exact .refl m _

lemma evalJoin_foldParts {es : List Expr} {r : Bool} (hes : Expr.foldParts k args = some es)
    (h : m.evalJoin k args = .ok r) : m.evalJoin k es = .ok r := by
  induction args generalizing es with
  | nil =>
    cases hes
    exact h
  | cons a args ih =>
    rw [evalJoin_cons] at h
    rw [Expr.foldParts] at hes
    split_ifs at hes with hunit
    · rcases h with ⟨-, h⟩ | ⟨ha, -⟩
      · exact ih hes h
      · simp [hunit, evalBool] at ha
    · obtain ⟨rest, hrest, rfl⟩ := Option.map_eq_some_iff.mp hes
      rw [evalJoin_append, evalJoin_parts, evalJoin_parts]
      exact h.imp_left (And.imp_right (ih hrest))

/-- A join with a part that decides is not neutral, whether or not this part is looked at. -/
lemma eq_of_foldParts_eq_none {r : Bool} (hes : Expr.foldParts k args = none)
    (h : m.evalJoin k args = .ok r) : r = !k.unit := by
  induction args with
  | nil => cases hes
  | cons a args ih =>
    rw [evalJoin_cons] at h
    rw [Expr.foldParts] at hes
    rcases h with ⟨ha, h⟩ | ⟨-, hr⟩
    · split_ifs at hes with hunit hdecides
      · exact ih hes h
      · simp [hdecides, evalBool] at ha
      · exact ih (Option.map_eq_none_iff.mp hes) h
    · exact hr

lemma refines_foldJoin (m : Model) (k : Connective) (args : List Expr) :
    m.Refines (.join k args) (Expr.foldJoin k args) := by
  apply Refines.of_bool (by simp [evalInt])
  intro r hr
  rw [evalBool] at hr
  unfold Expr.foldJoin
  split
  · rename_i hes
    rw [evalBool, eq_of_foldParts_eq_none hes hr]
  · rename_i hes
    have hparts := evalJoin_foldParts hes hr
    rw [evalJoin] at hparts
    rw [evalBool, hparts]
  · rename_i e hes
    exact evalJoin_singleton.mp (evalJoin_foldParts hes hr)
  · rename_i es _ _ hes
    rw [evalBool]
    exact evalJoin_foldParts hes hr

lemma refines_foldIte (m : Model) (c t e : Expr) :
    m.Refines (.ite c t e) (Expr.foldIte c t e) := by
  unfold Expr.foldIte
  split
  · rename_i v
    constructor
    · intro n hn
      obtain ⟨w, hw, hn⟩ := evalInt_ite.mp hn
      simp only [evalBool, Except.ok.injEq] at hw
      rw [hw]
      exact hn
    · intro r hr
      obtain ⟨w, hw, hr⟩ := evalBool_ite.mp hr
      simp only [evalBool, Except.ok.injEq] at hw
      rw [hw]
      exact hr
  · split_ifs with hsame
    · subst hsame
      constructor
      · intro n hn
        obtain ⟨w, -, hn⟩ := evalInt_ite.mp hn
        rwa [ite_self] at hn
      · intro r hr
        obtain ⟨w, -, hr⟩ := evalBool_ite.mp hr
        rwa [ite_self] at hr
    · exact .refl m _

/-! ### Simplification -/

lemma refines_simplify (m : Model) (e : Expr) : m.Refines e e.simplify := by
  induction e with
  | bool b => exact .refl m _
  | int n => exact .refl m _
  | var v => exact .refl m _
  | neg a ih => exact ih.neg.trans (refines_foldNeg m _)
  | not a ih => exact ih.not.trans (refines_foldNot m _)
  | arith op a b iha ihb => exact (iha.arith op ihb).trans (refines_foldArith m op _ _)
  | implies a b iha ihb => exact (iha.implies ihb).trans (refines_foldImplies m _ _)
  | cmp op a b iha ihb => exact (iha.cmp op ihb).trans (refines_foldCmp m op _ _)
  | join k args ih =>
    rw [Expr.simplify, Expr.simplifyAll_eq_map]
    exact (Refines.join k ih).trans (refines_foldJoin m k _)
  | ite c t e ihc iht ihe => exact (ihc.ite iht ihe).trans (refines_foldIte m _ _ _)

/-- Simplification never brings in an evaluation error, and never changes a result. -/
theorem eval_simplify (m : Model) (e : Expr) :
    (∀ r, m.evalBool e = .ok r → m.evalBool e.simplify = .ok r) ∧
      ∀ n, m.evalInt e = .ok n → m.evalInt e.simplify = .ok n :=
  ⟨(refines_simplify m e).bool, (refines_simplify m e).int⟩

/-- Negations that overflow where `x` is not positive, and a negated number where it is, but behind
an alternative that holds. -/
def shielded : Expr :=
  .ite (.cmp .le (.var ⟨"x", none⟩) (.int 0))
    (.cmp .gt (.neg (.neg (.int Int64.minValue))) (.int 0))
    (.join .or [.bool false,
      .join .or [.cmp .gt (.arith .mul (.int 1) (.var ⟨"x", none⟩)) (.int 0), .not (.int 3)]])

/-- Neither the overflow nor the ill-sorted parts are reached, before simplification or after it. -/
theorem eval_simplify_shielded :
    (evalBool ⟨[(⟨"x", none⟩, 7)]⟩ shielded = .ok true ∧
      evalBool ⟨[(⟨"x", none⟩, 7)]⟩ shielded.simplify = .ok true) ∧
    (evalInt ⟨[(⟨"x", none⟩, 7)]⟩ (.ite shielded (.var ⟨"x", none⟩) (.bool true)) = .ok 7 ∧
      evalInt ⟨[(⟨"x", none⟩, 7)]⟩
        (Expr.ite shielded (.var ⟨"x", none⟩) (.bool true)).simplify = .ok 7) := by
  have hbool : evalBool ⟨[(⟨"x", none⟩, 7)]⟩ shielded = .ok true := by decide +kernel
  have hint : evalInt ⟨[(⟨"x", none⟩, 7)]⟩ (.ite shielded (.var ⟨"x", none⟩) (.bool true)) =
      .ok 7 := by
    decide +kernel
  exact ⟨⟨hbool, (eval_simplify _ _).1 _ hbool⟩, hint, (eval_simplify _ _).2 _ hint⟩

end LoopInvariant.Model
