import LoopInvariant.Simplify
import LoopInvariant.Proofs.LinearForm
import LoopInvariant.Proofs.Meaning
import LoopInvariant.Proofs.Model

/-! Simplification keeps the kind and the meaning of well-sorted expressions, and brings in no
variables. Each fold is looked at on its own; only negations need expressions to be well sorted. -/
namespace LoopInvariant.Expr

variable {a b c t e : Expr} {k : Kind} {args : List Expr}

/-! ### Kinds -/

lemma sorted_foldNeg (ha : Sorted .term a) : Sorted .term (foldNeg a) := by
  unfold foldNeg
  split
  · split
    · exact .int _
    · exact .neg ha
  · cases ha
    assumption
  · exact .neg ha

lemma sorted_foldNot (ha : Sorted .formula a) : Sorted .formula (foldNot a) := by
  unfold foldNot
  split
  · exact .bool _
  · cases ha
    assumption
  · cases ha with
    | cmp h₁ h₂ => exact .cmp h₁ h₂
  · exact .not ha

lemma sorted_foldUnits (op : Arith) (ha : Sorted .term a) (hb : Sorted .term b) :
    Sorted .term (foldUnits op a b) := by
  unfold foldUnits
  split
  · split_ifs
    · exact hb
    · exact ha
    · exact .arith ha hb
  · split_ifs
    · exact ha
    · exact .arith ha hb
  · split_ifs
    · exact hb
    · exact ha
    · exact .int 0
    · exact .arith ha hb

lemma sorted_foldArith (op : Arith) (ha : Sorted .term a) (hb : Sorted .term b) :
    Sorted .term (foldArith op a b) := by
  unfold foldArith
  split
  · split
    · exact .int _
    · exact sorted_foldUnits op ha hb
  · exact sorted_foldUnits op ha hb

lemma sorted_foldImplies (ha : Sorted .formula a) (hb : Sorted .formula b) :
    Sorted .formula (foldImplies a b) := by
  unfold foldImplies
  split_ifs
  · exact .bool true
  · exact hb
  · exact .implies ha hb

lemma sorted_foldCmp (op : Comparison) (ha : Sorted .term a) (hb : Sorted .term b) :
    Sorted .formula (foldCmp op a b) := by
  unfold foldCmp
  split
  · exact .bool _
  · exact .cmp ha hb

lemma sorted_foldIte (hc : Sorted .formula c) (ht : Sorted k t) (he : Sorted k e) :
    Sorted k (foldIte c t e) := by
  unfold foldIte
  split
  · split_ifs
    · exact ht
    · exact he
  · split_ifs
    · exact ht
    · exact .ite hc ht he

/-! ### Meaning -/

variable (ρ : Valuation)

lemma value_foldNeg : (foldNeg a).value ρ = -a.value ρ := by
  unfold foldNeg
  split
  · split
    · rename_i hm
      exact Word.ofInt?_eq_some.mp hm
    · rfl
  · simp [value]
  · rfl

lemma truth_foldNot : (foldNot a).truth ρ = !a.truth ρ := by
  unfold foldNot
  split
  · rfl
  · simp [truth]
  · simp only [truth, Comparison.holds_negate]
  · rfl

lemma value_foldUnits (op : Arith) :
    (foldUnits op a b).value ρ = op.exact (a.value ρ) (b.value ρ) := by
  have hzero : (int 0).value ρ = 0 := rfl
  have hone : (int 1).value ρ = 1 := rfl
  unfold foldUnits
  split
  · split_ifs with h h
    · simp [h, hzero, Arith.exact]
    · simp [h, hzero, Arith.exact]
    · rfl
  · split_ifs with h
    · simp [h, hzero, Arith.exact]
    · rfl
  · split_ifs with h h h
    · simp [h, hone, Arith.exact]
    · simp [h, hone, Arith.exact]
    · rcases h with h | h
      · simp [h, hzero, Arith.exact]
      · simp [h, hzero, Arith.exact]
    · rfl

lemma value_foldArith (op : Arith) :
    (foldArith op a b).value ρ = op.exact (a.value ρ) (b.value ρ) := by
  unfold foldArith
  split
  · split
    · rename_i hk
      cases op <;> exact Word.ofInt?_eq_some.mp hk
    · exact value_foldUnits ρ op
  · exact value_foldUnits ρ op

lemma truth_foldImplies : (foldImplies a b).truth ρ = (!a.truth ρ || b.truth ρ) := by
  unfold foldImplies
  split_ifs with h h
  · rcases h with h | h
    · simp [h, truth]
    · simp [h, truth]
  · simp [h, truth]
  · rfl

lemma truth_foldCmp (op : Comparison) :
    (foldCmp op a b).truth ρ = op.holds (a.value ρ) (b.value ρ) := by
  unfold foldCmp
  split
  · rfl
  · rfl

lemma value_foldIte :
    (foldIte c t e).value ρ = if c.truth ρ then t.value ρ else e.value ρ := by
  unfold foldIte
  split
  · rename_i b
    cases b <;> rfl
  · by_cases h : t = e
    · rw [if_pos h, h, ite_self]
    · rw [if_neg h]
      rfl

lemma truth_foldIte :
    (foldIte c t e).truth ρ = if c.truth ρ then t.truth ρ else e.truth ρ := by
  unfold foldIte
  split
  · rename_i b
    cases b <;> rfl
  · by_cases h : t = e
    · rw [if_pos h, h, ite_self]
    · rw [if_neg h]
      rfl

/-! ### Joins -/

/-- The parts that are kept join to the same truth; a part that decides gives the other one. -/
lemma joined_foldParts (c : Connective) (args : List Expr) :
    c.joined (args.map (truth ρ)) =
      match foldParts c args with
      | some es => c.joined (es.map (truth ρ))
      | none => !c.unit := by
  induction args with
  | nil => rfl
  | cons e rest ih =>
    rw [List.map_cons, Connective.joined_cons, foldParts]
    by_cases hunit : e = .bool c.unit
    · rw [if_pos hunit, hunit, ← ih]
      exact if_pos rfl
    · rw [if_neg hunit]
      by_cases hdecides : e = .bool !c.unit
      · rw [if_pos hdecides, hdecides]
        exact if_neg (by simp [truth])
      · rw [if_neg hdecides, ih]
        cases foldParts c rest with
        | none => simp
        | some es =>
          simp only [Option.map_eq_map, Option.map_some, List.map_append,
            Connective.joined_append, joined_parts]

lemma truth_foldJoin (c : Connective) (args : List Expr) :
    (foldJoin c args).truth ρ = c.joined (args.map (truth ρ)) := by
  have hparts := joined_foldParts ρ c args
  unfold foldJoin
  split
  · rename_i h
    rw [h] at hparts
    exact hparts.symm
  · rename_i h
    rw [h] at hparts
    simpa [truth] using hparts.symm
  · rename_i e h
    rw [h] at hparts
    simpa [Connective.joined_singleton] using hparts.symm
  · rename_i es _ _ h
    rw [h] at hparts
    simpa [truth] using hparts.symm

lemma mem_foldParts {c : Connective} {es : List Expr} {p : Expr} (h : foldParts c args = some es)
    (hp : p ∈ es) : ∃ e ∈ args, p ∈ parts c e := by
  induction args generalizing es with
  | nil =>
    rw [foldParts, Option.some_inj] at h
    simp [← h] at hp
  | cons e rest ih =>
    rw [foldParts] at h
    split_ifs at h
    · obtain ⟨e', he', hp⟩ := ih h hp
      exact ⟨e', by simp [he'], hp⟩
    · obtain ⟨es', hes, rfl⟩ := Option.map_eq_some_iff.mp h
      rcases List.mem_append.mp hp with hp | hp
      · exact ⟨e, by simp, hp⟩
      · obtain ⟨e', he', hp⟩ := ih hes hp
        exact ⟨e', by simp [he'], hp⟩

lemma sorted_foldJoin (c : Connective) (h : ∀ e ∈ args, Sorted .formula e) :
    Sorted .formula (foldJoin c args) := by
  have hsorted {es : List Expr} (hes : foldParts c args = some es) :
      ∀ p ∈ es, Sorted .formula p := by
    intro p hp
    obtain ⟨e, he, hp⟩ := mem_foldParts hes hp
    exact (sorted_parts c e).mpr (h e he) p hp
  unfold foldJoin
  split
  · exact .bool _
  · exact .bool _
  · rename_i e hes
    exact hsorted hes e (by simp)
  · rename_i es _ _ hes
    exact .join (hsorted hes)

/-! ### Variables -/

lemma occurrences_foldNeg : (foldNeg a).occurrences ⊆ a.occurrences := by
  unfold foldNeg
  split
  · split <;> simp [occurrences]
  · exact List.Subset.refl _
  · exact List.Subset.refl _

lemma occurrences_foldNot : (foldNot a).occurrences ⊆ a.occurrences := by
  unfold foldNot
  split
  · exact List.Subset.refl _
  · exact List.Subset.refl _
  · exact List.Subset.refl _
  · exact List.Subset.refl _

lemma occurrences_foldUnits (op : Arith) :
    (foldUnits op a b).occurrences ⊆ a.occurrences ++ b.occurrences := by
  unfold foldUnits
  split
  · split_ifs
    · exact List.subset_append_right _ _
    · exact List.subset_append_left _ _
    · exact List.Subset.refl _
  · split_ifs
    · exact List.subset_append_left _ _
    · exact List.Subset.refl _
  · split_ifs
    · exact List.subset_append_right _ _
    · exact List.subset_append_left _ _
    · exact List.nil_subset _
    · exact List.Subset.refl _

lemma occurrences_foldArith (op : Arith) :
    (foldArith op a b).occurrences ⊆ a.occurrences ++ b.occurrences := by
  unfold foldArith
  split
  · split
    · exact List.nil_subset _
    · exact occurrences_foldUnits op
  · exact occurrences_foldUnits op

lemma occurrences_foldImplies :
    (foldImplies a b).occurrences ⊆ a.occurrences ++ b.occurrences := by
  unfold foldImplies
  split_ifs
  · exact List.nil_subset _
  · exact List.subset_append_right _ _
  · exact List.Subset.refl _

lemma occurrences_foldCmp (op : Comparison) :
    (foldCmp op a b).occurrences ⊆ a.occurrences ++ b.occurrences := by
  unfold foldCmp
  split
  · exact List.nil_subset _
  · exact List.Subset.refl _

lemma occurrences_foldJoin (c : Connective) :
    (foldJoin c args).occurrences ⊆ args.flatMap occurrences := by
  have hvars {es : List Expr} (hes : foldParts c args = some es) :
      es.flatMap occurrences ⊆ args.flatMap occurrences := by
    intro v hv
    obtain ⟨p, hp, hv⟩ := List.mem_flatMap.mp hv
    obtain ⟨e, he, hp⟩ := mem_foldParts hes hp
    rw [List.mem_flatMap]
    refine ⟨e, he, ?_⟩
    rw [← flatMap_occurrences_parts c e]
    exact List.mem_flatMap.mpr ⟨p, hp, hv⟩
  unfold foldJoin
  split
  · exact List.nil_subset _
  · exact List.nil_subset _
  · rename_i e hes
    simpa using hvars hes
  · rename_i es _ _ hes
    simpa [occurrences] using hvars hes

lemma occurrences_foldIte :
    (foldIte c t e).occurrences ⊆ c.occurrences ++ t.occurrences ++ e.occurrences := by
  unfold foldIte
  split
  · split_ifs
    · simp
    · simp
  · split_ifs
    · simp
    · exact List.Subset.refl _

/-! ### Simplification -/

@[simp] lemma simplifyAll_eq_map (args : List Expr) : simplifyAll args = args.map simplify := by
  induction args <;> simp [simplifyAll, *]

lemma sorted_simplify {k : Kind} {e : Expr} (h : Sorted k e) : Sorted k e.simplify := by
  induction h with
  | bool b => exact .bool b
  | int n => exact .int n
  | var v => exact .var v
  | neg _ iha => exact sorted_foldNeg iha
  | not _ iha => exact sorted_foldNot iha
  | arith _ _ iha ihb => exact sorted_foldArith _ iha ihb
  | implies _ _ iha ihb => exact sorted_foldImplies iha ihb
  | cmp _ _ iha ihb => exact sorted_foldCmp _ iha ihb
  | join _ ih =>
    rw [simplify, simplifyAll_eq_map]
    refine sorted_foldJoin _ fun e' he' => ?_
    obtain ⟨e, he, rfl⟩ := List.mem_map.mp he'
    exact ih e he
  | ite _ _ _ ihc iht ihe => exact sorted_foldIte ihc iht ihe

lemma meaning_simplify {k : Kind} {e : Expr} (h : Sorted k e) :
    match k with
    | .term => e.simplify.value ρ = e.value ρ
    | .formula => e.simplify.truth ρ = e.truth ρ := by
  induction h with
  | bool b => rfl
  | int n => rfl
  | var v => rfl
  | neg _ iha => rw [simplify, value_foldNeg, iha, value]
  | not _ iha => rw [simplify, truth_foldNot, iha, truth]
  | arith _ _ iha ihb => rw [simplify, value_foldArith, iha, ihb, value]
  | implies _ _ iha ihb => rw [simplify, truth_foldImplies, iha, ihb, truth]
  | cmp _ _ iha ihb => rw [simplify, truth_foldCmp, iha, ihb, truth]
  | join _ ih =>
    rw [simplify, simplifyAll_eq_map, truth_foldJoin, truth, truths_eq_map, List.map_map]
    congr 1
    exact List.map_congr_left ih
  | @ite k _ _ _ _ _ _ ihc iht ihe =>
    cases k with
    | term => rw [simplify, value_foldIte, ihc, iht, ihe, value]
    | formula => rw [simplify, truth_foldIte, ihc, iht, ihe, truth]

lemma occurrences_simplify (e : Expr) : e.simplify.occurrences ⊆ e.occurrences := by
  have happend {as bs as' bs' : List Var} (ha : as ⊆ as') (hb : bs ⊆ bs') :
      as ++ bs ⊆ as' ++ bs' :=
    List.append_subset.mpr ⟨List.subset_append_of_subset_left _ ha,
      List.subset_append_of_subset_right _ hb⟩
  induction e with
  | bool b => exact List.Subset.refl _
  | int n => exact List.Subset.refl _
  | var v => exact List.Subset.refl _
  | neg a ih => exact List.Subset.trans occurrences_foldNeg ih
  | not a ih => exact List.Subset.trans occurrences_foldNot ih
  | arith op a b iha ihb => exact List.Subset.trans (occurrences_foldArith op) (happend iha ihb)
  | implies a b iha ihb => exact List.Subset.trans occurrences_foldImplies (happend iha ihb)
  | cmp op a b iha ihb => exact List.Subset.trans (occurrences_foldCmp op) (happend iha ihb)
  | join c args ih =>
    rw [simplify, simplifyAll_eq_map, occurrences, occurrencesAll_eq_flatMap]
    refine List.Subset.trans (occurrences_foldJoin c) ?_
    intro v hv
    obtain ⟨e', he', hv⟩ := List.mem_flatMap.mp hv
    obtain ⟨e, he, rfl⟩ := List.mem_map.mp he'
    exact List.mem_flatMap.mpr ⟨e, he, ih e he hv⟩
  | ite c t e ihc iht ihe =>
    exact List.Subset.trans occurrences_foldIte (happend (happend ihc iht) ihe)

/-- A well-sorted expression and its simplification are of the same kind and have the same meaning
over all integers. The simplification has no variables of its own. -/
theorem simplify_exact (e : Expr) :
    (∀ k, Sorted k e → Sorted k e.simplify) ∧ e.simplify.vars ⊆ e.vars ∧
      (Sorted .term e → ∀ ρ : Valuation, e.simplify.value ρ = e.value ρ) ∧
      (Sorted .formula e → ∀ ρ : Valuation, e.simplify.truth ρ = e.truth ρ) := by
  refine ⟨fun k h => sorted_simplify h, fun v hv => ?_, fun h ρ => ?_, fun h ρ => ?_⟩
  · rw [mem_vars] at hv ⊢
    exact occurrences_simplify e hv
  · exact meaning_simplify ρ h
  · exact meaning_simplify ρ h

def tangled : Expr :=
  .join .and [.not (.cmp .lt (.arith .add (.var ⟨"x", none⟩) (.int 0))
      (.arith .mul (.int 3) (.int 2))),
    .join .and [.bool true,
      .cmp .eq (.ite (.bool true) (.var ⟨"y", none⟩) (.var ⟨"z", none⟩))
        (.neg (.neg (.var ⟨"x", none⟩)))]]

/-- All of it is cleared up, as a formula and as a condition in a term. -/
theorem simplify_exact_tangled :
    (Sorted .formula tangled ∧
      tangled.simplify = .join .and [.cmp .ge (.var ⟨"x", none⟩) (.int 6),
        .cmp .eq (.var ⟨"y", none⟩) (.var ⟨"x", none⟩)] ∧
      ∀ ρ : Valuation, tangled.simplify.truth ρ = tangled.truth ρ) ∧
    (Sorted .term (.ite tangled (.var ⟨"y", none⟩) (.neg (.int 5))) ∧
      ∀ ρ : Valuation,
        (Expr.ite tangled (.var ⟨"y", none⟩) (.neg (.int 5))).simplify.value ρ =
          (Expr.ite tangled (.var ⟨"y", none⟩) (.neg (.int 5))).value ρ) := by
  have hx : Sorted .term (.var ⟨"x", none⟩) := .var _
  have hy : Sorted .term (.var ⟨"y", none⟩) := .var _
  have hnegated : Sorted .formula (.not (.cmp .lt (.arith .add (.var ⟨"x", none⟩) (.int 0))
      (.arith .mul (.int 3) (.int 2)))) :=
    .not (.cmp (.arith hx (.int 0)) (.arith (.int 3) (.int 2)))
  have hsettled : Sorted .formula (.cmp .eq
      (.ite (.bool true) (.var ⟨"y", none⟩) (.var ⟨"z", none⟩)) (.neg (.neg (.var ⟨"x", none⟩)))) :=
    .cmp (.ite (.bool true) hy (.var _)) (.neg (.neg hx))
  have hformula : Sorted .formula tangled :=
    .join (by simpa using ⟨hnegated, .join (by simpa using ⟨.bool true, hsettled⟩)⟩)
  have hterm : Sorted .term (.ite tangled (.var ⟨"y", none⟩) (.neg (.int 5))) :=
    .ite hformula hy (.neg (.int 5))
  exact ⟨⟨hformula, by decide +kernel, (simplify_exact _).2.2.2 hformula⟩,
    hterm, (simplify_exact _).2.2.1 hterm⟩

end LoopInvariant.Expr
