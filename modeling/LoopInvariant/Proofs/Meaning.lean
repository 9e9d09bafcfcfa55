import Mathlib
import LoopInvariant.Expr
import LoopInvariant.Failure

/-! The exact meaning of expressions: integers of any size for terms and truth values for formulas.
Meaning depends only on the variables that occur, and renaming an expression is the same as
renaming what its variables are read from. -/
namespace LoopInvariant

/-- Exact values of all variables. -/
abbrev Valuation := Var → ℤ

/-- Induction over expressions, with the parts of a join given by membership. -/
@[elab_as_elim, induction_eliminator]
theorem Expr.induction {motive : Expr → Prop}
    (bool : ∀ b, motive (.bool b))
    (int : ∀ n, motive (.int n))
    (var : ∀ v, motive (.var v))
    (neg : ∀ a, motive a → motive (.neg a))
    (not : ∀ a, motive a → motive (.not a))
    (arith : ∀ op a b, motive a → motive b → motive (.arith op a b))
    (implies : ∀ a b, motive a → motive b → motive (.implies a b))
    (cmp : ∀ op a b, motive a → motive b → motive (.cmp op a b))
    (join : ∀ c args, (∀ e ∈ args, motive e) → motive (.join c args))
    (ite : ∀ c t e, motive c → motive t → motive e → motive (.ite c t e))
    (e : Expr) : motive e := by
  refine @Expr.rec motive (fun args => ∀ e ∈ args, motive e)
    bool int var neg not arith implies cmp join ite ?_ ?_ e
  · simp
  · intro head tail hh ht a ha
    rcases List.mem_cons.mp ha with rfl | ha
    · exact hh
    · exact ht a ha

def Arith.exact : Arith → ℤ → ℤ → ℤ
  | add => (· + ·)
  | sub => (· - ·)
  | mul => (· * ·)

namespace Comparison

lemma holds_sub (op : Comparison) (a b : ℤ) : op.holds (a - b) 0 = op.holds a b := by
  cases op <;> simp [holds, sub_eq_zero]

lemma holds_negate (op : Comparison) (a b : ℤ) : op.negate.holds a b = !op.holds a b := by
  rw [Bool.eq_iff_iff]
  cases op <;> simp [holds, negate]

end Comparison

namespace Connective

def joined (c : Connective) (bs : List Bool) : Bool :=
  match c with
  | and => bs.all id
  | or => bs.any id

@[simp] lemma joined_nil (c : Connective) : c.joined [] = c.unit := by cases c <;> rfl

@[simp] lemma joined_and (bs : List Bool) : joined and bs = bs.all id := rfl

@[simp] lemma joined_or (bs : List Bool) : joined or bs = bs.any id := rfl

/-- A neutral part changes nothing, and any other part decides. -/
lemma joined_cons (c : Connective) (b : Bool) (bs : List Bool) :
    c.joined (b :: bs) = if b = c.unit then c.joined bs else !c.unit := by
  cases c <;> cases b <;> simp [unit]

lemma joined_singleton (c : Connective) (b : Bool) : c.joined [b] = b := by
  cases c <;> simp

lemma joined_append (c : Connective) (as bs : List Bool) :
    c.joined (as ++ bs) = if c.joined as = c.unit then c.joined bs else !c.unit := by
  induction as with
  | nil => simp
  | cons a as ih =>
    rw [List.cons_append, joined_cons, joined_cons, ih]
    cases c <;> cases a <;> rfl

lemma joined_flatMap {α : Type} (c : Connective) (f : α → List Bool) (xs : List α) :
    c.joined (xs.flatMap f) = c.joined (xs.map fun x => c.joined (f x)) := by
  induction xs with
  | nil => rfl
  | cons x xs ih =>
    rw [List.flatMap_cons, joined_append, ih, List.map_cons, joined_cons]

lemma joined_dual (c : Connective) (bs : List Bool) :
    c.dual.joined (bs.map (!·)) = !c.joined bs := by
  induction bs with
  | nil => cases c <;> rfl
  | cons b bs ih =>
    rw [List.map_cons, joined_cons, joined_cons, ih]
    cases c <;> cases b <;> rfl

end Connective

namespace Expr

mutual
def value (ρ : Valuation) : Expr → ℤ
  | .int n => n.toInt
  | .var v => ρ v
  | .neg a => -value ρ a
  | .arith op a b => op.exact (value ρ a) (value ρ b)
  | .ite c t e => if truth ρ c then value ρ t else value ρ e
  | _ => 0
def truth (ρ : Valuation) : Expr → Bool
  | .bool b => b
  | .not a => !truth ρ a
  | .implies a b => !truth ρ a || truth ρ b
  | .cmp op a b => op.holds (value ρ a) (value ρ b)
  | .join c args => c.joined (truths ρ args)
  | .ite c t e => if truth ρ c then truth ρ t else truth ρ e
  | _ => false
def truths (ρ : Valuation) : List Expr → List Bool
  | [] => []
  | a :: as => truth ρ a :: truths ρ as
end

@[simp] lemma truths_eq_map (ρ : Valuation) (args : List Expr) :
    truths ρ args = args.map (truth ρ) := by
  induction args <;> simp [truths, *]

@[simp] lemma occurrencesAll_eq_flatMap (args : List Expr) :
    occurrencesAll args = args.flatMap occurrences := by
  induction args <;> simp [occurrencesAll, *]

@[simp] lemma renameAll_eq_map (f : Var → Var) (args : List Expr) :
    renameAll f args = args.map (rename f) := by
  induction args <;> simp [renameAll, *]

/-- The two-sorted grammar: comparisons take terms, the logical operations take formulas, and a
conditional is of the kind of its branches. -/
inductive Sorted : Kind → Expr → Prop
  | bool (b : Bool) : Sorted .formula (.bool b)
  | int (n : Int64) : Sorted .term (.int n)
  | var (v : Var) : Sorted .term (.var v)
  | neg {a : Expr} (ha : Sorted .term a) : Sorted .term (.neg a)
  | not {a : Expr} (ha : Sorted .formula a) : Sorted .formula (.not a)
  | arith {op : Arith} {a b : Expr} (ha : Sorted .term a) (hb : Sorted .term b) :
      Sorted .term (.arith op a b)
  | implies {a b : Expr} (ha : Sorted .formula a) (hb : Sorted .formula b) :
      Sorted .formula (.implies a b)
  | cmp {op : Comparison} {a b : Expr} (ha : Sorted .term a) (hb : Sorted .term b) :
      Sorted .formula (.cmp op a b)
  | join {c : Connective} {args : List Expr} (h : ∀ e ∈ args, Sorted .formula e) :
      Sorted .formula (.join c args)
  | ite {k : Kind} {c t e : Expr} (hc : Sorted .formula c) (ht : Sorted k t) (he : Sorted k e) :
      Sorted k (.ite c t e)

lemma sorted_not {a : Expr} : Sorted .formula (.not a) ↔ Sorted .formula a := by
  constructor
  · intro hs
    cases hs
    assumption
  · exact .not

/-! ### Dependence on variables -/

lemma meaning_congr {ρ ρ' : Valuation} (e : Expr) (h : ∀ v ∈ e.occurrences, ρ v = ρ' v) :
    e.value ρ = e.value ρ' ∧ e.truth ρ = e.truth ρ' := by
  induction e with
  | bool b => exact ⟨rfl, rfl⟩
  | int n => exact ⟨rfl, rfl⟩
  | var v => exact ⟨h v (by simp [occurrences]), rfl⟩
  | neg a ih => exact ⟨by simp only [value, (ih h).1], rfl⟩
  | not a ih => exact ⟨rfl, by simp only [truth, (ih h).2]⟩
  | arith op a b iha ihb =>
    simp only [occurrences, List.mem_append] at h
    refine ⟨?_, rfl⟩
    simp only [value, (iha fun v hv => h v (.inl hv)).1, (ihb fun v hv => h v (.inr hv)).1]
  | implies a b iha ihb =>
    simp only [occurrences, List.mem_append] at h
    refine ⟨rfl, ?_⟩
    simp only [truth, (iha fun v hv => h v (.inl hv)).2, (ihb fun v hv => h v (.inr hv)).2]
  | cmp op a b iha ihb =>
    simp only [occurrences, List.mem_append] at h
    refine ⟨rfl, ?_⟩
    simp only [truth, (iha fun v hv => h v (.inl hv)).1, (ihb fun v hv => h v (.inr hv)).1]
  | join c args ih =>
    simp only [occurrences, occurrencesAll_eq_flatMap, List.mem_flatMap] at h
    have hargs : args.map (truth ρ) = args.map (truth ρ') :=
      List.map_congr_left fun e he => (ih e he fun v hv => h v ⟨e, he, hv⟩).2
    exact ⟨rfl, by simp only [truth, truths_eq_map, hargs]⟩
  | ite c t e ihc iht ihe =>
    simp only [occurrences, List.mem_append] at h
    have hc := ihc fun v hv => h v (.inl (.inl hv))
    have ht := iht fun v hv => h v (.inl (.inr hv))
    have he := ihe fun v hv => h v (.inr hv)
    exact ⟨by simp only [value, hc.2, ht.1, he.1], by simp only [truth, hc.2, ht.2, he.2]⟩

lemma truth_congr {ρ ρ' : Valuation} {e : Expr} (h : ∀ v ∈ e.occurrences, ρ v = ρ' v) :
    e.truth ρ = e.truth ρ' := (e.meaning_congr h).2

/-! ### Renaming -/

lemma meaning_rename (f : Var → Var) (ρ : Valuation) (e : Expr) :
    (e.rename f).value ρ = e.value (ρ ∘ f) ∧ (e.rename f).truth ρ = e.truth (ρ ∘ f) := by
  induction e with
  | bool b => exact ⟨rfl, rfl⟩
  | int n => exact ⟨rfl, rfl⟩
  | var v => exact ⟨rfl, rfl⟩
  | neg a ih => exact ⟨by simp only [rename, value, ih.1], rfl⟩
  | not a ih => exact ⟨rfl, by simp only [rename, truth, ih.2]⟩
  | arith op a b iha ihb => exact ⟨by simp only [rename, value, iha.1, ihb.1], rfl⟩
  | implies a b iha ihb => exact ⟨rfl, by simp only [rename, truth, iha.2, ihb.2]⟩
  | cmp op a b iha ihb => exact ⟨rfl, by simp only [rename, truth, iha.1, ihb.1]⟩
  | join c args ih =>
    refine ⟨rfl, ?_⟩
    simp only [rename, renameAll_eq_map, truth, truths_eq_map, List.map_map]
    congr 1
    exact List.map_congr_left fun e he => (ih e he).2
  | ite c t e ihc iht ihe =>
    exact ⟨by simp only [rename, value, ihc.2, iht.1, ihe.1],
      by simp only [rename, truth, ihc.2, iht.2, ihe.2]⟩

@[simp] lemma truth_rename (f : Var → Var) (ρ : Valuation) (e : Expr) :
    (e.rename f).truth ρ = e.truth (ρ ∘ f) := (meaning_rename f ρ e).2

@[simp] lemma occurrences_rename (f : Var → Var) (e : Expr) :
    (e.rename f).occurrences = e.occurrences.map f := by
  induction e with
  | join c args ih =>
    simp only [rename, renameAll_eq_map, occurrences, occurrencesAll_eq_flatMap,
      List.flatMap_map, List.map_flatMap]
    exact List.flatMap_congr fun e he => ih e he
  | _ => simp_all [rename, occurrences]

lemma sorted_rename (f : Var → Var) {k : Kind} (e : Expr) :
    Sorted k (e.rename f) ↔ Sorted k e := by
  induction e generalizing k with
  | join c args ih =>
    simp only [rename, renameAll_eq_map]
    constructor
    · intro hs
      cases hs with
      | join h => exact .join fun e he => (ih e he).1 (h _ (List.mem_map_of_mem he))
    · intro hs
      cases hs with
      | join h =>
        refine .join fun e' he' => ?_
        obtain ⟨e, he, rfl⟩ := List.mem_map.mp he'
        exact (ih e he).2 (h e he)
  | _ => simp only [rename] <;> constructor <;> rintro ⟨⟩ <;> constructor <;> simp_all

/-! ### Joins that are spliced -/

lemma joined_parts (ρ : Valuation) (c : Connective) (e : Expr) :
    c.joined ((parts c e).map (truth ρ)) = e.truth ρ := by
  unfold parts
  split
  · split_ifs with h
    · subst h
      simp [truth]
    · simp [Connective.joined_singleton]
  · simp [Connective.joined_singleton]

@[simp] lemma truth_gather (ρ : Valuation) (c : Connective) (args : List Expr) :
    (gather c args).truth ρ = c.joined (args.map (truth ρ)) := by
  simp only [gather, truth, truths_eq_map, List.map_flatMap, Connective.joined_flatMap,
    joined_parts]

@[simp] lemma truth_all (ρ : Valuation) (args : List Expr) :
    (all args).truth ρ = args.all (truth ρ) := by
  simp [all]

lemma truth_all_pair (ρ : Valuation) (a b : Expr) :
    (all [a, b]).truth ρ = true ↔ a.truth ρ = true ∧ b.truth ρ = true := by
  simp

@[simp] lemma truth_any (ρ : Valuation) (args : List Expr) :
    (any args).truth ρ = args.any (truth ρ) := by
  simp [any]

lemma flatMap_occurrences_parts (c : Connective) (e : Expr) :
    (parts c e).flatMap occurrences = e.occurrences := by
  unfold parts
  split
  · split_ifs with h <;> simp [occurrences]
  · simp

@[simp] lemma occurrences_gather (c : Connective) (args : List Expr) :
    (gather c args).occurrences = args.flatMap occurrences := by
  simp only [gather, occurrences, occurrencesAll_eq_flatMap, List.flatMap_assoc,
    flatMap_occurrences_parts]

lemma sorted_parts (c : Connective) (e : Expr) :
    (∀ p ∈ parts c e, Sorted .formula p) ↔ Sorted .formula e := by
  unfold parts
  split
  · split_ifs with h
    · exact ⟨.join, fun hs => by cases hs; assumption⟩
    · simp
  · simp

lemma sorted_gather (c : Connective) (args : List Expr) :
    Sorted .formula (gather c args) ↔ ∀ e ∈ args, Sorted .formula e := by
  have hparts : Sorted .formula (gather c args) ↔
      ∀ e ∈ args, ∀ p ∈ parts c e, Sorted .formula p := by
    constructor
    · intro hs e he p hp
      cases hs with
      | join h => exact h p (List.mem_flatMap.mpr ⟨e, he, hp⟩)
    · intro h
      refine .join fun p hp => ?_
      obtain ⟨e, he, hp⟩ := List.mem_flatMap.mp hp
      exact h e he p hp
  simp only [hparts, sorted_parts]

end Expr
end LoopInvariant
