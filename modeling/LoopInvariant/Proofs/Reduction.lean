import LoopInvariant.Proofs.Simplify

/-! Simplification leaves nothing to simplify. The rules are listed by the expressions they apply
to; a simplified expression contains none of these, and an expression that contains none is its own
simplification. Nothing here depends on expressions being well sorted. -/
namespace LoopInvariant.Expr

variable {a b c t e p : Expr} {args : List Expr} {k : Connective}

/-- The expressions that some rule rewrites at the root. Constants are folded only if the result is
in range. -/
inductive Redex : Expr → Prop
  | negInt {n m : Int64} (h : Word.neg? n = some m) : Redex (.neg (.int n))
  | negNeg (a : Expr) : Redex (.neg (.neg a))
  | notBool (v : Bool) : Redex (.not (.bool v))
  | notNot (a : Expr) : Redex (.not (.not a))
  | notCmp (op : Comparison) (a b : Expr) : Redex (.not (.cmp op a b))
  | arithInts {op : Arith} {m n r : Int64} (h : op.result? m n = some r) :
      Redex (.arith op (.int m) (.int n))
  | zeroAdd (b : Expr) : Redex (.arith .add (.int 0) b)
  | addZero (a : Expr) : Redex (.arith .add a (.int 0))
  | subZero (a : Expr) : Redex (.arith .sub a (.int 0))
  | oneMul (b : Expr) : Redex (.arith .mul (.int 1) b)
  | mulOne (a : Expr) : Redex (.arith .mul a (.int 1))
  | zeroMul (b : Expr) : Redex (.arith .mul (.int 0) b)
  | mulZero (a : Expr) : Redex (.arith .mul a (.int 0))
  | boolImplies (v : Bool) (b : Expr) : Redex (.implies (.bool v) b)
  | impliesTrue (a : Expr) : Redex (.implies a (.bool true))
  | cmpInts (op : Comparison) (m n : Int64) : Redex (.cmp op (.int m) (.int n))
  | joinShort {k : Connective} {args : List Expr} (h : args.length < 2) : Redex (.join k args)
  | joinBool {k : Connective} {args : List Expr} (v : Bool) (h : .bool v ∈ args) :
      Redex (.join k args)
  | joinJoin {k : Connective} {args : List Expr} (inner : List Expr) (h : .join k inner ∈ args) :
      Redex (.join k args)
  | iteBool (v : Bool) (t e : Expr) : Redex (.ite (.bool v) t e)
  | iteSame (c t : Expr) : Redex (.ite c t t)

def children : Expr → List Expr
  | .bool _ | .int _ | .var _ => []
  | .neg a | .not a => [a]
  | .arith _ a b | .implies a b | .cmp _ a b => [a, b]
  | .join _ args => args
  | .ite c t e => [c, t, e]

/-- No rule applies, neither at the root nor further down. -/
inductive Reduced : Expr → Prop
  | intro {e : Expr} (root : ¬Redex e) (parts : ∀ p ∈ e.children, Reduced p) : Reduced e

lemma Reduced.not_redex (h : Reduced e) : ¬Redex e := by
  cases h
  assumption

lemma Reduced.of_mem (h : Reduced e) (hp : p ∈ e.children) : Reduced p := by
  cases h with
  | intro _ hparts => exact hparts p hp

lemma reduced_bool (v : Bool) : Reduced (.bool v) :=
  .intro (fun h => by cases h) (by simp [children])

lemma reduced_int (n : Int64) : Reduced (.int n) :=
  .intro (fun h => by cases h) (by simp [children])

lemma reduced_var (v : Var) : Reduced (.var v) :=
  .intro (fun h => by cases h) (by simp [children])

/-! ### Folding where no rule applies -/

lemma foldNeg_eq (h : ¬Redex (.neg a)) : foldNeg a = .neg a := by
  unfold foldNeg
  split
  · split
    · rename_i hm
      exact absurd (.negInt hm) h
    · rfl
  · exact absurd (.negNeg _) h
  · rfl

lemma foldNot_eq (h : ¬Redex (.not a)) : foldNot a = .not a := by
  unfold foldNot
  split
  · exact absurd (.notBool _) h
  · exact absurd (.notNot _) h
  · exact absurd (.notCmp _ _ _) h
  · rfl

lemma foldUnits_eq {op : Arith} (h : ¬Redex (.arith op a b)) :
    foldUnits op a b = .arith op a b := by
  unfold foldUnits
  split
  · rw [if_neg, if_neg]
    · rintro rfl
      exact h (.addZero a)
    · rintro rfl
      exact h (.zeroAdd b)
  · rw [if_neg]
    rintro rfl
    exact h (.subZero a)
  · rw [if_neg, if_neg, if_neg]
    · rintro (rfl | rfl)
      · exact h (.zeroMul b)
      · exact h (.mulZero a)
    · rintro rfl
      exact h (.mulOne a)
    · rintro rfl
      exact h (.oneMul b)

lemma foldArith_eq {op : Arith} (h : ¬Redex (.arith op a b)) :
    foldArith op a b = .arith op a b := by
  unfold foldArith
  split
  · split
    · rename_i hr
      exact absurd (.arithInts hr) h
    · exact foldUnits_eq h
  · exact foldUnits_eq h

lemma foldImplies_eq (h : ¬Redex (.implies a b)) : foldImplies a b = .implies a b := by
  unfold foldImplies
  rw [if_neg, if_neg]
  · rintro rfl
    exact h (.boolImplies true b)
  · rintro (rfl | rfl)
    · exact h (.boolImplies false b)
    · exact h (.impliesTrue a)

lemma foldCmp_eq {op : Comparison} (h : ¬Redex (.cmp op a b)) : foldCmp op a b = .cmp op a b := by
  unfold foldCmp
  split
  · exact absurd (.cmpInts _ _ _) h
  · rfl

lemma parts_eq (h : ∀ inner, e ≠ .join k inner) : parts k e = [e] := by
  unfold parts
  split
  · rename_i inner
    rw [if_neg]
    rintro rfl
    exact h inner rfl
  · rfl

lemma foldParts_eq (hbool : ∀ v, .bool v ∉ args) (hjoin : ∀ inner, .join k inner ∉ args) :
    foldParts k args = some args := by
  induction args with
  | nil => rfl
  | cons a args ih =>
    simp only [List.mem_cons, not_or] at hbool hjoin
    rw [foldParts, if_neg fun ha => (hbool _).1 ha.symm, if_neg fun ha => (hbool _).1 ha.symm,
      ih (fun v => (hbool v).2) (fun inner => (hjoin inner).2),
      parts_eq fun inner ha => (hjoin inner).1 ha.symm]
    rfl

lemma foldJoin_eq (h : ¬Redex (.join k args)) : foldJoin k args = .join k args := by
  have hparts : foldParts k args = some args :=
    foldParts_eq (fun v hv => h (.joinBool v hv)) (fun inner hi => h (.joinJoin inner hi))
  rcases args with _ | ⟨a, _ | ⟨b, rest⟩⟩
  · exact absurd (.joinShort (by simp)) h
  · exact absurd (.joinShort (by simp)) h
  · simp only [foldJoin, hparts]

lemma foldIte_eq (h : ¬Redex (.ite c t e)) : foldIte c t e = .ite c t e := by
  unfold foldIte
  split
  · exact absurd (.iteBool _ t e) h
  · rw [if_neg]
    rintro rfl
    exact h (.iteSame c t)

theorem simplify_of_reduced (h : Reduced e) : e.simplify = e := by
  induction e with
  | bool v => rfl
  | int n => rfl
  | var v => rfl
  | neg a ih =>
    rw [simplify, ih (h.of_mem (by simp [children])), foldNeg_eq h.not_redex]
  | not a ih =>
    rw [simplify, ih (h.of_mem (by simp [children])), foldNot_eq h.not_redex]
  | arith op a b iha ihb =>
    rw [simplify, iha (h.of_mem (by simp [children])), ihb (h.of_mem (by simp [children])),
      foldArith_eq h.not_redex]
  | implies a b iha ihb =>
    rw [simplify, iha (h.of_mem (by simp [children])), ihb (h.of_mem (by simp [children])),
      foldImplies_eq h.not_redex]
  | cmp op a b iha ihb =>
    rw [simplify, iha (h.of_mem (by simp [children])), ihb (h.of_mem (by simp [children])),
      foldCmp_eq h.not_redex]
  | join k args ih =>
    have hargs : args.map simplify = args :=
      (List.map_congr_left fun p hp => ih p hp (h.of_mem hp)).trans (List.map_id args)
    rw [simplify, simplifyAll_eq_map, hargs, foldJoin_eq h.not_redex]
  | ite c t e ihc iht ihe =>
    rw [simplify, ihc (h.of_mem (by simp [children])), iht (h.of_mem (by simp [children])),
      ihe (h.of_mem (by simp [children])), foldIte_eq h.not_redex]

/-! ### Folding leaves no redex -/

lemma reduced_foldNeg (ha : Reduced a) : Reduced (foldNeg a) := by
  by_cases h : Redex (.neg a)
  · cases h with
    | negInt hm =>
      simp only [foldNeg, hm]
      exact reduced_int _
    | negNeg b =>
      rw [foldNeg]
      exact ha.of_mem (by simp [children])
  · rw [foldNeg_eq h]
    exact .intro h (by simpa [children] using ha)

/-- Negating a comparison gives one of the same operands, which are not both constants. -/
lemma reduced_foldNot (ha : Reduced a) : Reduced (foldNot a) := by
  by_cases h : Redex (.not a)
  · cases h with
    | notBool v => exact reduced_bool _
    | notNot b =>
      rw [foldNot]
      exact ha.of_mem (by simp [children])
    | notCmp op b c =>
      rw [foldNot]
      refine .intro (fun h => ?_) (fun p hp => ha.of_mem hp)
      cases h
      exact ha.not_redex (.cmpInts _ _ _)
  · rw [foldNot_eq h]
    exact .intro h (by simpa [children] using ha)

lemma reduced_foldUnits (op : Arith) (ha : Reduced a) (hb : Reduced b)
    (hints : ∀ m n r, a = .int m → b = .int n → op.result? m n ≠ some r) :
    Reduced (foldUnits op a b) := by
  have hchildren : ∀ p ∈ (arith op a b).children, Reduced p := by simpa [children] using ⟨ha, hb⟩
  unfold foldUnits
  split
  · split_ifs with hleft hright
    · exact hb
    · exact ha
    · refine .intro (fun h => ?_) hchildren
      cases h with
      | arithInts hr => exact hints _ _ _ rfl rfl hr
      | zeroAdd => exact hleft rfl
      | addZero => exact hright rfl
  · split_ifs with hright
    · exact ha
    · refine .intro (fun h => ?_) hchildren
      cases h with
      | arithInts hr => exact hints _ _ _ rfl rfl hr
      | subZero => exact hright rfl
  · split_ifs with hleft hright hzero
    · exact hb
    · exact ha
    · exact reduced_int 0
    · refine .intro (fun h => ?_) hchildren
      cases h with
      | arithInts hr => exact hints _ _ _ rfl rfl hr
      | oneMul => exact hleft rfl
      | mulOne => exact hright rfl
      | zeroMul => exact hzero (.inl rfl)
      | mulZero => exact hzero (.inr rfl)

lemma reduced_foldArith (op : Arith) (ha : Reduced a) (hb : Reduced b) :
    Reduced (foldArith op a b) := by
  unfold foldArith
  split
  · rename_i m n
    split
    · exact reduced_int _
    · rename_i hnone
      apply reduced_foldUnits op ha hb
      rintro _ _ r ⟨⟩ ⟨⟩ hr
      rw [hnone] at hr
      cases hr
  · rename_i hints
    apply reduced_foldUnits op ha hb
    intro m n r hm hn
    exact absurd hn (hints m n hm)

lemma reduced_foldImplies (ha : Reduced a) (hb : Reduced b) : Reduced (foldImplies a b) := by
  by_cases h : Redex (.implies a b)
  · unfold foldImplies
    cases h with
    | boolImplies v =>
      cases v with
      | false =>
        rw [if_pos (.inl rfl)]
        exact reduced_bool true
      | true =>
        rw [if_pos rfl]
        split_ifs
        · exact reduced_bool true
        · exact hb
    | impliesTrue =>
      rw [if_pos (.inr rfl)]
      exact reduced_bool true
  · rw [foldImplies_eq h]
    exact .intro h (by simpa [children] using ⟨ha, hb⟩)

lemma reduced_foldCmp (op : Comparison) (ha : Reduced a) (hb : Reduced b) :
    Reduced (foldCmp op a b) := by
  by_cases h : Redex (.cmp op a b)
  · cases h
    exact reduced_bool _
  · rw [foldCmp_eq h]
    exact .intro h (by simpa [children] using ⟨ha, hb⟩)

/-- What may stand in a join: a reduced expression that is neither a constant nor itself a join of
this kind. -/
structure Joinable (k : Connective) (p : Expr) : Prop where
  reduced : Reduced p
  ne_bool : ∀ v, p ≠ .bool v
  ne_join : ∀ inner, p ≠ .join k inner

lemma joinable_of_mem_parts (he : Reduced e) (hbool : ∀ v, e ≠ .bool v) (hp : p ∈ parts k e) :
    Joinable k p := by
  by_cases hjoin : ∃ inner, e = .join k inner
  · obtain ⟨inner, rfl⟩ := hjoin
    rw [parts, if_pos rfl] at hp
    refine ⟨he.of_mem hp, ?_, ?_⟩
    · rintro v rfl
      exact he.not_redex (.joinBool v hp)
    · rintro inner' rfl
      exact he.not_redex (.joinJoin inner' hp)
  · rw [not_exists] at hjoin
    rw [parts_eq hjoin, List.mem_singleton] at hp
    subst hp
    exact ⟨he, hbool, hjoin⟩

lemma joinable_of_mem_foldParts {es : List Expr} (hargs : ∀ e ∈ args, Reduced e)
    (h : foldParts k args = some es) (hp : p ∈ es) : Joinable k p := by
  induction args generalizing es with
  | nil =>
    cases h
    cases hp
  | cons a args ih =>
    rw [List.forall_mem_cons] at hargs
    rw [foldParts] at h
    split_ifs at h with hunit hdecides
    · exact ih hargs.2 h hp
    · obtain ⟨rest, hrest, rfl⟩ := Option.map_eq_some_iff.mp h
      rcases List.mem_append.mp hp with hp | hp
      · refine joinable_of_mem_parts hargs.1 (fun v ha => ?_) hp
        rcases Bool.eq_or_eq_not v k.unit with rfl | rfl
        · exact hunit ha
        · exact hdecides ha
      · exact ih hargs.2 hrest hp

lemma reduced_foldJoin (k : Connective) (hargs : ∀ e ∈ args, Reduced e) :
    Reduced (foldJoin k args) := by
  unfold foldJoin
  split
  · exact reduced_bool _
  · exact reduced_bool _
  · rename_i e hes
    exact (joinable_of_mem_foldParts hargs hes (by simp)).reduced
  · rename_i es hnil hsingle hes
    have hparts : ∀ p ∈ es, Joinable k p := fun p hp => joinable_of_mem_foldParts hargs hes hp
    refine .intro (fun h => ?_) (fun p hp => (hparts p hp).reduced)
    cases h with
    | joinShort hlen =>
      rcases es with _ | ⟨e, _ | ⟨e', rest⟩⟩
      · exact hnil rfl
      · exact hsingle e rfl
      · simp at hlen
    | joinBool v hv => exact (hparts _ hv).ne_bool v rfl
    | joinJoin inner hi => exact (hparts _ hi).ne_join inner rfl

lemma reduced_foldIte (hc : Reduced c) (ht : Reduced t) (he : Reduced e) :
    Reduced (foldIte c t e) := by
  by_cases h : Redex (.ite c t e)
  · unfold foldIte
    split
    · split_ifs
      · exact ht
      · exact he
    · rename_i hbool
      cases h with
      | iteBool v => exact absurd rfl (hbool v)
      | iteSame =>
        rw [if_pos rfl]
        exact ht
  · rw [foldIte_eq h]
    exact .intro h (by simpa [children] using ⟨hc, ht, he⟩)

theorem reduced_simplify (e : Expr) : Reduced e.simplify := by
  induction e with
  | bool v => exact reduced_bool v
  | int n => exact reduced_int n
  | var v => exact reduced_var v
  | neg a ih => exact reduced_foldNeg ih
  | not a ih => exact reduced_foldNot ih
  | arith op a b iha ihb => exact reduced_foldArith op iha ihb
  | implies a b iha ihb => exact reduced_foldImplies iha ihb
  | cmp op a b iha ihb => exact reduced_foldCmp op iha ihb
  | join k args ih =>
    rw [simplify, simplifyAll_eq_map]
    refine reduced_foldJoin k fun p hp => ?_
    obtain ⟨q, hq, rfl⟩ := List.mem_map.mp hp
    exact ih q hq
  | ite c t e ihc iht ihe => exact reduced_foldIte ihc iht ihe

/-- One pass is enough: simplifying twice is simplifying once. -/
theorem simplify_simplify (e : Expr) : e.simplify.simplify = e.simplify :=
  simplify_of_reduced (reduced_simplify e)

end LoopInvariant.Expr
