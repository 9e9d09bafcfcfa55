import LoopInvariant.Proofs.NormalForm

/-! Normal forms keep the meaning of formulas. The cases of a term are a partition: at every
valuation the guards of exactly one of them hold, and that one has the value of the term. Hence a
comparison may be negated inside each pair of cases. -/
namespace LoopInvariant

namespace Case

def holds (ρ : Valuation) (c : Case) : Bool := c.guards.all (NormalForm.truth ρ)

def value (ρ : Valuation) (c : Case) : ℤ := c.form.eval ρ

def live (ρ : Valuation) (cs : List Case) : List ℤ := (cs.filter (holds ρ)).map (value ρ)

lemma live_unguarded (ρ : Valuation) (l : LinearForm) : live ρ [⟨[], l⟩] = [l.eval ρ] := rfl

lemma live_cons (ρ : Valuation) (c : Case) (cs : List Case) :
    live ρ (c :: cs) = if c.holds ρ then c.value ρ :: live ρ cs else live ρ cs := by
  cases hc : c.holds ρ <;> simp [live, hc]

lemma not_holds_of_live_nil {ρ : Valuation} {cs : List Case} (h : live ρ cs = []) {c : Case}
    (hc : c ∈ cs) : ¬c.holds ρ = true := by
  rw [live, List.map_eq_nil_iff, List.filter_eq_nil_iff] at h
  exact h c hc

lemma existsUnique_of_live {ρ : Valuation} {cs : List Case} {a : ℤ} (h : live ρ cs = [a]) :
    ∃ i : Fin cs.length, (cs.get i).value ρ = a ∧
      ∀ j : Fin cs.length, (cs.get j).holds ρ = true ↔ j = i := by
  induction cs with
  | nil => cases h
  | cons c cs ih =>
    rw [live_cons] at h
    split_ifs at h with hc
    · obtain ⟨hvalue, hrest⟩ := List.cons.inj h
      refine ⟨0, hvalue, Fin.cases ?_ fun j => ?_⟩
      · simpa using hc
      · simpa using not_holds_of_live_nil hrest (List.getElem_mem j.2)
    · obtain ⟨i, hvalue, hi⟩ := ih h
      refine ⟨i.succ, hvalue, Fin.cases ?_ fun j => ?_⟩
      · simpa [Fin.ext_iff] using hc
      · simpa [Fin.ext_iff] using hi j

lemma live_append (ρ : Valuation) (xs ys : List Case) :
    live ρ (xs ++ ys) = live ρ xs ++ live ρ ys := by
  simp [live]

lemma live_guard (ρ : Valuation) (n : NormalForm) (cs : List Case) :
    live ρ (cs.map (guard n)) = if n.truth ρ then live ρ cs else [] := by
  have hholds (c : Case) : (guard n c).holds ρ = (n.truth ρ && c.holds ρ) := by
    simp [guard, holds]
  have hvalue (c : Case) : (guard n c).value ρ = c.value ρ := rfl
  simp only [live, List.filter_map, Function.comp_def, hholds, List.map_map, hvalue]
  cases n.truth ρ <;> simp

lemma live_of_forall₂ {α : Type} {ρ : Valuation} {q : α → Bool} {f : α → ℤ} {as : List α}
    {cs : List Case} (h : List.Forall₂ (fun a c => c.holds ρ = q a ∧ c.value ρ = f a) as cs) :
    live ρ cs = (as.filter q).map f := by
  induction h with
  | nil => rfl
  | @cons a c as cs hac _ ih =>
    rw [live] at ih ⊢
    cases hq : q a <;> simp [hac.1, hac.2, hq, ih]

lemma live_pairs (ρ : Valuation) (f : ℤ → ℤ → ℤ) (xs ys : List Case) :
    ((pairs xs ys).filter fun p => p.1.holds ρ && p.2.holds ρ).map
        (fun p => f (p.1.value ρ) (p.2.value ρ)) =
      (live ρ xs).flatMap fun a => (live ρ ys).map (f a) := by
  induction xs with
  | nil => rfl
  | cons x xs ih =>
    have hcons : pairs (x :: xs) ys = ys.map (fun y => (x, y)) ++ pairs xs ys := rfl
    rw [hcons, List.filter_append, List.map_append, ih]
    cases hx : x.holds ρ <;> simp [live, hx, List.filter_map, Function.comp_def]

lemma any_pairs (ρ : Valuation) (p : ℤ → ℤ → Bool) (xs ys : List Case) :
    ((pairs xs ys).any fun q => q.1.holds ρ && q.2.holds ρ && p (q.1.value ρ) (q.2.value ρ)) =
      (live ρ xs).any fun a => (live ρ ys).any (p a) := by
  induction xs with
  | nil => rfl
  | cons x xs ih =>
    have hcons : pairs (x :: xs) ys = ys.map (fun y => (x, y)) ++ pairs xs ys := rfl
    rw [hcons, List.any_append, ih]
    cases hx : x.holds ρ <;>
      simp [live, hx, List.any_map, List.any_filter, Function.comp_def]

lemma negate_meaning {x z : Case} (h : x.negate = .ok z) (ρ : Valuation) :
    z.holds ρ = x.holds ρ ∧ z.value ρ = -x.value ρ := by
  obtain ⟨l, hl, h⟩ := Result.bind_eq_ok.mp h
  rw [Result.pure_eq_ok] at h
  rw [← h]
  exact ⟨rfl, LinearForm.eval_negated ρ hl⟩

lemma combine_meaning {op : Arith} {term : Expr} {x y z : Case}
    (h : combine op term x y = .ok z) (ρ : Valuation) :
    z.holds ρ = (x.holds ρ && y.holds ρ) ∧ z.value ρ = op.exact (x.value ρ) (y.value ρ) := by
  have hcombined (l : LinearForm) (hl : l.eval ρ = op.exact (x.value ρ) (y.value ρ))
      (hz : (⟨x.guards ++ y.guards, l⟩ : Case) = z) :
      z.holds ρ = (x.holds ρ && y.holds ρ) ∧ z.value ρ = op.exact (x.value ρ) (y.value ρ) := by
    rw [← hz]
    exact ⟨by simp [holds], hl⟩
  cases op with
  | add =>
    obtain ⟨l, hl, h⟩ := Result.bind_eq_ok.mp h
    exact hcombined l (LinearForm.eval_add ρ hl) (Result.pure_eq_ok.mp h)
  | sub =>
    obtain ⟨l, hl, h⟩ := Result.bind_eq_ok.mp h
    exact hcombined l (LinearForm.eval_sub ρ hl) (Result.pure_eq_ok.mp h)
  | mul =>
    simp only [combine] at h
    split_ifs at h with hx hy
    · obtain ⟨l, hl, h⟩ := Result.bind_eq_ok.mp h
      refine hcombined l ?_ (Result.pure_eq_ok.mp h)
      rw [LinearForm.eval_scale ρ hl, value, LinearForm.eval_isConst ρ hx]
      rfl
    · obtain ⟨l, hl, h⟩ := Result.bind_eq_ok.mp h
      refine hcombined l ?_ (Result.pure_eq_ok.mp h)
      rw [LinearForm.eval_scale ρ hl, value, value, LinearForm.eval_isConst ρ hy]
      exact mul_comm _ _
    · obtain ⟨l, hl, h⟩ := Result.bind_eq_ok.mp h
      cases hl

lemma compare_meaning {op : Comparison} {x y : Case} {n : NormalForm}
    (h : Case.compare op x y = .ok n) (ρ : Valuation) :
    n.truth ρ = (x.holds ρ && y.holds ρ && op.holds (x.value ρ) (y.value ρ)) := by
  obtain ⟨d, hd, h⟩ := Result.bind_eq_ok.mp h
  obtain ⟨m, hm, h⟩ := Result.bind_eq_ok.mp h
  rw [Result.pure_eq_ok] at h
  rw [← h, NormalForm.truth_gather]
  simp [holds, value, NormalForm.truth_compare hm ρ, LinearForm.eval_sub ρ hd,
    Comparison.holds_sub, Bool.and_assoc]

lemma any_compare {op : Comparison} {xs ys : List Case} {ns : List NormalForm} {ρ : Valuation}
    {a b : ℤ} (h : (pairs xs ys).mapM (fun p => Case.compare op p.1 p.2) = .ok ns)
    (hx : live ρ xs = [a]) (hy : live ρ ys = [b]) :
    ns.any (NormalForm.truth ρ) = op.holds a b := by
  have hmap : ns.map (NormalForm.truth ρ) = (pairs xs ys).map fun q =>
      q.1.holds ρ && q.2.holds ρ && op.holds (q.1.value ρ) (q.2.value ρ) :=
    Result.map_of_mapM h fun q _ n hn => compare_meaning hn ρ
  have hany := any_pairs ρ op.holds xs ys
  rw [hx, hy] at hany
  calc ns.any (NormalForm.truth ρ) = (ns.map (NormalForm.truth ρ)).any id := by simp
    _ = (pairs xs ys).any fun q =>
        q.1.holds ρ && q.2.holds ρ && op.holds (q.1.value ρ) (q.2.value ρ) := by
      rw [hmap]
      simp
    _ = op.holds a b := by simp [hany]

lemma mem_pairs {xs ys : List Case} {p : Case × Case} (h : p ∈ pairs xs ys) :
    p.1 ∈ xs ∧ p.2 ∈ ys := by
  simp only [pairs, List.mem_flatMap, List.mem_map] at h
  obtain ⟨x, hx, y, hy, rfl⟩ := h
  exact ⟨hx, hy⟩

end Case

namespace Expr

@[simp] lemma normalForms_eq_mapM (positive : Bool) (args : List Expr) :
    normalForms positive args = args.mapM (normalForm positive) := by
  induction args with
  | nil => rfl
  | cons a as ih => rw [normalForms, ih, List.mapM_cons]

/-- A formula and its normal forms in both polarities, when it has them. -/
def FormulaMeaning (e : Expr) : Prop :=
  ∀ positive n, e.normalForm positive = .ok n →
    e.Sorted .formula ∧ ∀ ρ, n.truth ρ = (e.truth ρ == positive)

/-- A term and its cases, when it has them: the guards of exactly one of them hold. -/
def TermMeaning (e : Expr) : Prop :=
  ∀ cs, e.cases = .ok cs → e.Sorted .term ∧ ∀ ρ, Case.live ρ cs = [e.value ρ]

lemma formulaMeaning_join (c : Connective) {args : List Expr}
    (ih : ∀ e ∈ args, e.FormulaMeaning) : (Expr.join c args).FormulaMeaning := by
  intro positive n h
  simp only [normalForm, normalForms_eq_mapM, Result.bind_eq_ok, Result.pure_eq_ok] at h
  obtain ⟨ns, hns, rfl⟩ := h
  have hsorted : ∀ e ∈ args, e.Sorted .formula :=
    Result.forall_of_mapM hns fun e he n hn => (ih e he positive n hn).1
  refine ⟨.join hsorted, fun ρ => ?_⟩
  have hargs : ns.map (NormalForm.truth ρ) = args.map fun e => e.truth ρ == positive :=
    Result.map_of_mapM hns fun e he n hn => (ih e he positive n hn).2 ρ
  rw [NormalForm.truth_gather, hargs]
  cases positive with
  | true => simp [truth]
  | false =>
    have hdual := Connective.joined_dual c (args.map (truth ρ))
    simp only [List.map_map, Function.comp_def] at hdual
    simpa [truth] using hdual

lemma formulaMeaning_implies {a b : Expr} (ha : a.FormulaMeaning) (hb : b.FormulaMeaning) :
    (Expr.implies a b).FormulaMeaning := by
  intro positive n h
  simp only [normalForm, Result.bind_eq_ok, Result.pure_eq_ok] at h
  obtain ⟨na, hna, nb, hnb, rfl⟩ := h
  obtain ⟨hsa, hta⟩ := ha _ _ hna
  obtain ⟨hsb, htb⟩ := hb _ _ hnb
  refine ⟨.implies hsa hsb, fun ρ => ?_⟩
  rw [NormalForm.truth_gather]
  cases positive <;> cases ht : a.truth ρ <;> simp [hta ρ, htb ρ, truth, ht]

lemma formulaMeaning_ite {c t e : Expr} (hc : c.FormulaMeaning) (ht : t.FormulaMeaning)
    (he : e.FormulaMeaning) : (Expr.ite c t e).FormulaMeaning := by
  intro positive n h
  simp only [normalForm, Result.bind_eq_ok, Result.pure_eq_ok] at h
  obtain ⟨yes, hyes, nt, hnt, no, hno, ne, hne, rfl⟩ := h
  obtain ⟨hsc, hyes⟩ := hc _ _ hyes
  obtain ⟨-, hno⟩ := hc _ _ hno
  obtain ⟨hst, hnt⟩ := ht _ _ hnt
  obtain ⟨hse, hne⟩ := he _ _ hne
  refine ⟨.ite hsc hst hse, fun ρ => ?_⟩
  rw [NormalForm.truth_gather]
  cases hb : c.truth ρ <;> simp [hyes ρ, hno ρ, hnt ρ, hne ρ, truth, hb]

lemma formulaMeaning_cmp (op : Comparison) {a b : Expr} (ha : a.TermMeaning)
    (hb : b.TermMeaning) : (Expr.cmp op a b).FormulaMeaning := by
  intro positive n h
  simp only [normalForm, Result.bind_eq_ok, Result.pure_eq_ok] at h
  obtain ⟨xs, hxs, ys, hys, ns, hns, rfl⟩ := h
  obtain ⟨hsa, hx⟩ := ha _ hxs
  obtain ⟨hsb, hy⟩ := hb _ hys
  refine ⟨.cmp hsa hsb, fun ρ => ?_⟩
  have hany := Case.any_compare hns (hx ρ) (hy ρ)
  rw [NormalForm.truth_gather]
  cases positive <;> simpa [truth, Comparison.holds_negate] using hany

lemma termMeaning_neg {a : Expr} (ha : a.TermMeaning) : (Expr.neg a).TermMeaning := by
  intro cs h
  simp only [cases, Result.bind_eq_ok] at h
  obtain ⟨xs, hxs, h⟩ := h
  obtain ⟨hs, hx⟩ := ha _ hxs
  refine ⟨.neg hs, fun ρ => ?_⟩
  have hlive : Case.live ρ cs = (xs.filter (Case.holds ρ)).map fun x => -x.value ρ :=
    Case.live_of_forall₂ ((Result.mapM_eq_ok h).imp fun _ _ hz => Case.negate_meaning hz ρ)
  have hxρ := hx ρ
  rw [Case.live] at hxρ
  have hneg := congrArg (List.map (- ·)) hxρ
  rw [List.map_map] at hneg
  exact hlive.trans hneg

lemma termMeaning_arith (op : Arith) {a b : Expr} (ha : a.TermMeaning) (hb : b.TermMeaning) :
    (Expr.arith op a b).TermMeaning := by
  intro cs h
  simp only [cases, Result.bind_eq_ok] at h
  obtain ⟨xs, hxs, ys, hys, h⟩ := h
  obtain ⟨hsa, hx⟩ := ha _ hxs
  obtain ⟨hsb, hy⟩ := hb _ hys
  refine ⟨.arith hsa hsb, fun ρ => ?_⟩
  have hlive := Case.live_of_forall₂
    ((Result.mapM_eq_ok h).imp fun p z hz => Case.combine_meaning hz ρ)
  rw [hlive, Case.live_pairs ρ op.exact, hx ρ, hy ρ]
  rfl

lemma termMeaning_ite {c t e : Expr} (hc : c.FormulaMeaning) (ht : t.TermMeaning)
    (he : e.TermMeaning) : (Expr.ite c t e).TermMeaning := by
  intro cs h
  simp only [cases, Result.bind_eq_ok, Result.pure_eq_ok] at h
  obtain ⟨yes, hyes, no, hno, ts, hts, es, hes, rfl⟩ := h
  obtain ⟨hsc, hyes⟩ := hc _ _ hyes
  obtain ⟨-, hno⟩ := hc _ _ hno
  obtain ⟨hst, hts⟩ := ht _ hts
  obtain ⟨hse, hes⟩ := he _ hes
  refine ⟨.ite hsc hst hse, fun ρ => ?_⟩
  rw [Case.live_append, Case.live_guard, Case.live_guard, hyes ρ, hno ρ, hts ρ, hes ρ]
  cases hb : c.truth ρ <;> simp [value, hb]

/-- What is rejected on either side has the other kind, so that both sides go by one induction. -/
theorem meaning_normalForm (e : Expr) : e.FormulaMeaning ∧ e.TermMeaning := by
  induction e with
  | bool b =>
    refine ⟨fun positive n h => ?_, fun cs h => by cases h⟩
    cases h
    exact ⟨.bool b, fun ρ => rfl⟩
  | int k =>
    refine ⟨fun positive n h => (by cases h), fun cs h => ?_⟩
    cases h
    exact ⟨.int k, fun ρ => by simp [Case.live_unguarded, value]⟩
  | var v =>
    refine ⟨fun positive n h => (by cases h), fun cs h => ?_⟩
    cases h
    exact ⟨.var v, fun ρ => by simp [Case.live_unguarded, value]⟩
  | neg a ih => exact ⟨fun positive n h => (by cases h), termMeaning_neg ih.2⟩
  | not a ih =>
    refine ⟨fun positive n h => ?_, fun cs h => by cases h⟩
    obtain ⟨hs, ht⟩ := ih.1 _ _ h
    refine ⟨.not hs, fun ρ => ?_⟩
    rw [ht ρ, truth]
    cases a.truth ρ <;> cases positive <;> rfl
  | arith op a b iha ihb =>
    exact ⟨fun positive n h => (by cases h), termMeaning_arith op iha.2 ihb.2⟩
  | implies a b iha ihb => exact ⟨formulaMeaning_implies iha.1 ihb.1, fun cs h => by cases h⟩
  | cmp op a b iha ihb => exact ⟨formulaMeaning_cmp op iha.2 ihb.2, fun cs h => by cases h⟩
  | join c args ih =>
    exact ⟨formulaMeaning_join c fun e he => (ih e he).1, fun cs h => by cases h⟩
  | ite c t e ihc iht ihe =>
    exact ⟨formulaMeaning_ite ihc.1 iht.1 ihe.1, termMeaning_ite ihc.1 iht.2 ihe.2⟩

/-- A term that has cases is a term, and at every valuation the guards of exactly one case hold. The
form of this case has the exact value of the term. -/
theorem cases_partition {e : Expr} {cs : List Case} (h : e.cases = .ok cs) (ρ : Valuation) :
    e.Sorted .term ∧ ∃ i : Fin cs.length, (cs.get i).form.eval ρ = e.value ρ ∧
      ∀ j : Fin cs.length, (∀ n ∈ (cs.get j).guards, n.truth ρ = true) ↔ j = i := by
  obtain ⟨hsorted, hlive⟩ := (meaning_normalForm e).2 cs h
  obtain ⟨i, hvalue, hi⟩ := Case.existsUnique_of_live (hlive ρ)
  refine ⟨hsorted, i, hvalue, fun j => ?_⟩
  rw [← hi j, Case.holds, List.all_eq_true]

/-- Twice the larger of `y` and the magnitude of `x`, less one or `x`. -/
def larger : Expr :=
  .arith .sub
    (.arith .mul (.int 2)
      (.ite
        (.cmp .gt (.ite (.cmp .lt (.var ⟨"x", none⟩) (.int 0)) (.neg (.var ⟨"x", none⟩))
          (.var ⟨"x", none⟩)) (.var ⟨"y", none⟩))
        (.ite (.cmp .lt (.var ⟨"x", none⟩) (.int 0)) (.neg (.var ⟨"x", none⟩)) (.var ⟨"x", none⟩))
        (.var ⟨"y", none⟩)))
    (.ite (.cmp .eq (.var ⟨"y", none⟩) (.int 0)) (.int 1) (.var ⟨"x", none⟩))

/-- The condition on the magnitude has cases of its own, which go into the guards. -/
theorem cases_partition_larger : ∃ cs, larger.cases = .ok cs ∧ cs.length = 6 ∧
    ∀ ρ : Valuation, ∃ i : Fin cs.length, (cs.get i).form.eval ρ = larger.value ρ ∧
      ∀ j : Fin cs.length, (∀ n ∈ (cs.get j).guards, n.truth ρ = true) ↔ j = i :=
  ⟨_, rfl, rfl, fun ρ => (cases_partition rfl ρ).2⟩

end Expr

/-! ### Properties that are passed on -/

/-- Properties of linear forms and of normal forms that translation passes on from the variables of
an expression: they hold of the simplest ones, and every operation on them keeps them. -/
structure Inherited (v : Var → Prop) (q : LinearForm → Prop) (p : NormalForm → Prop) : Prop where
  const : ∀ a, q (.const a)
  ofVar : ∀ x, v x → q (.ofVar x)
  add : ∀ {l k s : LinearForm}, q l → q k → l.add k = .ok s → q s
  scale : ∀ {l s : LinearForm} {a : Int64}, q l → l.scale a = .ok s → q s
  truth : ∀ b, p (.const b)
  normalize : ∀ {c : Constraint} {n : NormalForm}, q c.form → c.normalize = .ok n → p n
  gather : ∀ {c : Connective} {args : List NormalForm}, (∀ n ∈ args, p n) → p (.gather c args)

namespace Inherited

variable {v : Var → Prop} {q : LinearForm → Prop} {p : NormalForm → Prop}

lemma sub (h : Inherited v q p) {l k s : LinearForm} (hl : q l) (hk : q k)
    (hs : l.sub k = .ok s) : q s := by
  obtain ⟨k', hk', hs⟩ := Result.bind_eq_ok.mp hs
  exact h.add hl (h.scale hk hk') hs

lemma shift (h : Inherited v q p) {l s : LinearForm} {a : Int64} (hl : q l)
    (hs : l.shift a = .ok s) : q s :=
  h.add hl (h.const a) hs

lemma gather_pair (h : Inherited v q p) {c : Connective} {m n : NormalForm} (hm : p m) (hn : p n) :
    p (.gather c [m, n]) := by
  apply h.gather
  rw [List.forall_mem_cons, List.forall_mem_singleton]
  exact ⟨hm, hn⟩

lemma compare (h : Inherited v q p) {op : Comparison} {d : LinearForm} {n : NormalForm} (hd : q d)
    (hn : NormalForm.compare op d = .ok n) : p n := by
  cases op with
  | ge => exact h.normalize hd hn
  | gt =>
    obtain ⟨l, hl, hn⟩ := Result.bind_eq_ok.mp hn
    exact h.normalize (h.shift hd hl) hn
  | le =>
    obtain ⟨l, hl, hn⟩ := Result.bind_eq_ok.mp hn
    exact h.normalize (h.scale hd hl) hn
  | lt =>
    obtain ⟨l, hl, hn⟩ := Result.bind_eq_ok.mp hn
    obtain ⟨k, hk, hn⟩ := Result.bind_eq_ok.mp hn
    exact h.normalize (h.shift (h.scale hd hl) hk) hn
  | eq => exact h.normalize hd hn
  | ne =>
    obtain ⟨l, hl, hn⟩ := Result.bind_eq_ok.mp hn
    obtain ⟨above, ha, hn⟩ := Result.bind_eq_ok.mp hn
    obtain ⟨m, hm, hn⟩ := Result.bind_eq_ok.mp hn
    obtain ⟨k, hk, hn⟩ := Result.bind_eq_ok.mp hn
    obtain ⟨below, hb, hn⟩ := Result.bind_eq_ok.mp hn
    rw [← Result.pure_eq_ok.mp hn]
    exact h.gather_pair (h.normalize (h.shift hd hl) ha)
      (h.normalize (h.shift (h.scale hd hm) hk) hb)

def Holds (q : LinearForm → Prop) (p : NormalForm → Prop) (c : Case) : Prop :=
  (∀ n ∈ c.guards, p n) ∧ q c.form

variable {x y z : Case}

lemma guard {n : NormalForm} (hn : p n) (hx : Holds q p x) : Holds q p (x.guard n) :=
  ⟨List.forall_mem_cons.mpr ⟨hn, hx.1⟩, hx.2⟩

lemma negate (h : Inherited v q p) (hx : Holds q p x) (hz : x.negate = .ok z) : Holds q p z := by
  obtain ⟨l, hl, hz⟩ := Result.bind_eq_ok.mp hz
  rw [← Result.pure_eq_ok.mp hz]
  exact ⟨hx.1, h.scale hx.2 hl⟩

lemma combine (h : Inherited v q p) {op : Arith} {term : Expr} (hx : Holds q p x)
    (hy : Holds q p y) (hz : Case.combine op term x y = .ok z) : Holds q p z := by
  have hcombined (l : LinearForm) (hl : q l) (hz : (⟨x.guards ++ y.guards, l⟩ : Case) = z) :
      Holds q p z := by
    rw [← hz]
    exact ⟨List.forall_mem_append.mpr ⟨hx.1, hy.1⟩, hl⟩
  cases op with
  | add =>
    obtain ⟨l, hl, hz⟩ := Result.bind_eq_ok.mp hz
    exact hcombined l (h.add hx.2 hy.2 hl) (Result.pure_eq_ok.mp hz)
  | sub =>
    obtain ⟨l, hl, hz⟩ := Result.bind_eq_ok.mp hz
    exact hcombined l (h.sub hx.2 hy.2 hl) (Result.pure_eq_ok.mp hz)
  | mul =>
    simp only [Case.combine] at hz
    split_ifs at hz
    · obtain ⟨l, hl, hz⟩ := Result.bind_eq_ok.mp hz
      exact hcombined l (h.scale hy.2 hl) (Result.pure_eq_ok.mp hz)
    · obtain ⟨l, hl, hz⟩ := Result.bind_eq_ok.mp hz
      exact hcombined l (h.scale hx.2 hl) (Result.pure_eq_ok.mp hz)
    · obtain ⟨l, hl, hz⟩ := Result.bind_eq_ok.mp hz
      cases hl

lemma case_compare (h : Inherited v q p) {op : Comparison} {n : NormalForm} (hx : Holds q p x)
    (hy : Holds q p y) (hn : Case.compare op x y = .ok n) : p n := by
  obtain ⟨d, hd, hn⟩ := Result.bind_eq_ok.mp hn
  obtain ⟨m, hm, hn⟩ := Result.bind_eq_ok.mp hn
  rw [← Result.pure_eq_ok.mp hn]
  apply h.gather
  rw [List.forall_mem_append, List.forall_mem_append, List.forall_mem_singleton]
  exact ⟨⟨hx.1, hy.1⟩, h.compare (h.sub hx.2 hy.2 hd) hm⟩

theorem normalForm (h : Inherited v q p) (e : Expr) (he : ∀ x ∈ e.occurrences, v x) :
    (∀ positive n, e.normalForm positive = .ok n → p n) ∧
      ∀ cs, e.cases = .ok cs → ∀ c ∈ cs, Holds q p c := by
  induction e with
  | bool b =>
    refine ⟨fun positive n hn => ?_, fun cs hcs => by cases hcs⟩
    cases hn
    exact h.truth _
  | int k =>
    refine ⟨fun positive n hn => (by cases hn), fun cs hcs c hc => ?_⟩
    cases hcs
    rw [List.mem_singleton.mp hc]
    exact ⟨by simp, h.const k⟩
  | var x =>
    refine ⟨fun positive n hn => (by cases hn), fun cs hcs c hc => ?_⟩
    cases hcs
    rw [List.mem_singleton.mp hc]
    exact ⟨by simp, h.ofVar x (he x (by simp [Expr.occurrences]))⟩
  | neg a ih =>
    refine ⟨fun positive n hn => (by cases hn), fun cs hcs c hc => ?_⟩
    obtain ⟨xs, hxs, hcs⟩ := Result.bind_eq_ok.mp hcs
    obtain ⟨x, hx, hc⟩ := Result.exists_of_mem_mapM hcs hc
    exact h.negate ((ih he).2 xs hxs x hx) hc
  | not a ih => exact ⟨fun positive n hn => (ih he).1 _ n hn, fun cs hcs => by cases hcs⟩
  | arith op a b iha ihb =>
    rw [Expr.occurrences, List.forall_mem_append] at he
    refine ⟨fun positive n hn => (by cases hn), fun cs hcs c hc => ?_⟩
    simp only [Expr.cases, Result.bind_eq_ok] at hcs
    obtain ⟨xs, hxs, ys, hys, hcs⟩ := hcs
    obtain ⟨pair, hpair, hc⟩ := Result.exists_of_mem_mapM hcs hc
    obtain ⟨hx, hy⟩ := Case.mem_pairs hpair
    exact h.combine ((iha he.1).2 xs hxs _ hx) ((ihb he.2).2 ys hys _ hy) hc
  | implies a b iha ihb =>
    rw [Expr.occurrences, List.forall_mem_append] at he
    refine ⟨fun positive n hn => ?_, fun cs hcs => by cases hcs⟩
    simp only [Expr.normalForm, Result.bind_eq_ok, Result.pure_eq_ok] at hn
    obtain ⟨na, hna, nb, hnb, rfl⟩ := hn
    exact h.gather_pair ((iha he.1).1 _ _ hna) ((ihb he.2).1 _ _ hnb)
  | cmp op a b iha ihb =>
    rw [Expr.occurrences, List.forall_mem_append] at he
    refine ⟨fun positive n hn => ?_, fun cs hcs => by cases hcs⟩
    simp only [Expr.normalForm, Result.bind_eq_ok, Result.pure_eq_ok] at hn
    obtain ⟨xs, hxs, ys, hys, ns, hns, rfl⟩ := hn
    refine h.gather fun n hn => ?_
    obtain ⟨pair, hpair, hn⟩ := Result.exists_of_mem_mapM hns hn
    obtain ⟨hx, hy⟩ := Case.mem_pairs hpair
    exact h.case_compare ((iha he.1).2 xs hxs _ hx) ((ihb he.2).2 ys hys _ hy) hn
  | join c args ih =>
    rw [Expr.occurrences, Expr.occurrencesAll_eq_flatMap] at he
    refine ⟨fun positive n hn => ?_, fun cs hcs => by cases hcs⟩
    simp only [Expr.normalForm, Expr.normalForms_eq_mapM, Result.bind_eq_ok,
      Result.pure_eq_ok] at hn
    obtain ⟨ns, hns, rfl⟩ := hn
    refine h.gather fun n hn => ?_
    obtain ⟨e, hmem, hn⟩ := Result.exists_of_mem_mapM hns hn
    exact (ih e hmem fun x hx => he x (List.mem_flatMap.mpr ⟨e, hmem, hx⟩)).1 _ _ hn
  | ite c t e ihc iht ihe =>
    rw [Expr.occurrences, List.forall_mem_append, List.forall_mem_append] at he
    have hc := ihc he.1.1
    have ht := iht he.1.2
    have he := ihe he.2
    refine ⟨fun positive n hn => ?_, fun cs hcs k hk => ?_⟩
    · simp only [Expr.normalForm, Result.bind_eq_ok, Result.pure_eq_ok] at hn
      obtain ⟨yes, hyes, nt, hnt, no, hno, ne, hne, rfl⟩ := hn
      exact h.gather_pair (h.gather_pair (hc.1 _ _ hyes) (ht.1 _ _ hnt))
        (h.gather_pair (hc.1 _ _ hno) (he.1 _ _ hne))
    · simp only [Expr.cases, Result.bind_eq_ok, Result.pure_eq_ok] at hcs
      obtain ⟨yes, hyes, no, hno, ts, hts, es, hes, rfl⟩ := hcs
      rcases List.mem_append.mp hk with hk | hk
      · obtain ⟨x, hx, rfl⟩ := List.mem_map.mp hk
        exact guard (hc.1 _ _ hyes) (ht.2 ts hts x hx)
      · obtain ⟨x, hx, rfl⟩ := List.mem_map.mp hk
        exact guard (hc.1 _ _ hno) (he.2 es hes x hx)

end Inherited

lemma inherited_subset (vs : List Var) :
    Inherited (· ∈ vs) (·.vars ⊆ vs) (·.occurrences ⊆ vs) where
  const _ := List.nil_subset _
  ofVar _ hx := List.cons_subset.mpr ⟨hx, List.nil_subset _⟩
  add hl hk hs := List.Subset.trans (LinearForm.vars_add hs) (List.append_subset.mpr ⟨hl, hk⟩)
  scale hl hs := List.Subset.trans (LinearForm.vars_scale hs) hl
  truth _ := List.nil_subset _
  normalize hq hn := List.Subset.trans (Constraint.occurrences_normalize hn) hq
  gather := NormalForm.gather_subset

theorem Expr.occurrences_normalForm {e : Expr} {positive : Bool} {n : NormalForm}
    (h : e.normalForm positive = .ok n) : n.occurrences ⊆ e.occurrences :=
  ((inherited_subset e.occurrences).normalForm e fun _ hx => hx).1 positive n h

end LoopInvariant
