import LoopInvariant.Candidate
import LoopInvariant.Proofs.Partition

/-! What learners give: candidates over the program variables, or a disproof where a counterexample
is among the samples. This holds for every separator. -/
namespace LoopInvariant

def Learned.From (samples : SampleSet) (loop : Loop) : Learned → Prop
  | .disproved => samples.counterexamples ≠ []
  | .candidate inv _ => loop.Scoped → inv.occurrences ⊆ loop.plainVars

namespace Halfspace

lemma occurrences_sumExpr (constant : Int64) (terms : List Expr) :
    (sumExpr constant terms).occurrences = terms.flatMap Expr.occurrences := by
  have hfold (ts : List Expr) (t : Expr) :
      (ts.foldl (.arith .add) t).occurrences = t.occurrences ++ ts.flatMap Expr.occurrences := by
    induction ts generalizing t with
    | nil => simp
    | cons u us ih =>
      rw [List.foldl_cons, ih, List.flatMap_cons, ← List.append_assoc]
      rfl
  cases terms with
  | nil => rfl
  | cons t ts =>
    have hint : (Expr.int constant).occurrences = [] := rfl
    rw [sumExpr, Expr.occurrences, hfold, List.flatMap_cons, hint, List.append_nil]

lemma toExpr_eq_ok {h : Halfspace} {vars : List Var} {e : Expr} (he : h.toExpr vars = .ok e) :
    vars.length = h.coeffs.length ∧ e = .cmp .gt (sumExpr h.constant
      (List.zipWith (fun a v => .arith .mul (.int a) (.var v)) h.coeffs vars)) (.int 0) := by
  unfold toExpr at he
  split_ifs at he with hlen
  rw [Except.ok.injEq] at he
  exact ⟨hlen, he.symm⟩

lemma occurrences_toExpr {h : Halfspace} {vars : List Var} {e : Expr}
    (he : h.toExpr vars = .ok e) : e.occurrences ⊆ vars := by
  have hzero : (Expr.int 0).occurrences = [] := rfl
  rw [(toExpr_eq_ok he).2, Expr.occurrences, occurrences_sumExpr, hzero, List.append_nil]
  intro v hv
  obtain ⟨t, ht, hv⟩ := List.mem_flatMap.mp hv
  rw [← List.map_uncurry_zip_eq_zipWith] at ht
  obtain ⟨⟨a, w⟩, haw, rfl⟩ := List.mem_map.mp ht
  have hvw : v = w := by simpa [Function.uncurry, Expr.occurrences] using hv
  rw [hvw]
  exact (List.of_mem_zip haw).2

end Halfspace

namespace Learner

variable {σ τ : Type} {l : Learner τ} {loop : Loop} {samples : SampleSet}

/-! ### Looking at the clock -/

lemma expired_of_none {s : State τ} (h : s.deadline = none) : l.expired s = (.ok false, s) := by
  rw [expired, Task.bind_of_ok (Task.get_apply s), h]
  rfl

lemma expired_of_some {s : State τ} {d : Duration} (h : s.deadline = some d) :
    l.expired s = (.ok (d.nanoseconds ≤ (l.clock s.readings).nanoseconds),
      { s with readings := s.readings + 1 }) := by
  rw [expired, Task.bind_of_ok (Task.get_apply s), h]
  rfl

lemma expired_eq_ok (l : Learner τ) (s : State τ) :
    ∃ b n, l.expired s = (.ok b, { s with readings := n }) := by
  rcases Option.eq_none_or_eq_some s.deadline with hd | ⟨d, hd⟩
  · exact ⟨false, s.readings, expired_of_none hd⟩
  · exact ⟨_, s.readings + 1, expired_of_some hd⟩

/-! ### How learners come to their results -/

/-- The ways to a formula for given points. Without negative ones there is nothing to cut off, and
without positive ones nothing is left. -/
inductive Separates (l : Learner τ) (positives negatives : List Point) (vars : List Var)
    (s : State τ) : Expr → List Halfspace → State τ → Prop
  | nothing (hneg : negatives = []) : Separates l positives negatives vars s (.bool true) [] s
  | everything (hneg : negatives ≠ []) (hpos : positives = []) :
      Separates l positives negatives vars s (.bool false) [] s
  | cuts {hs : List Halfspace} {parts : List Expr} {t : State τ} (hneg : negatives ≠ [])
      (hpos : positives ≠ [])
      (hcuts : l.cutOff (positives.map fun p => (p, .positive)) negatives s = (.ok hs, t))
      (hparts : (hs.mapM fun h => h.toExpr vars) = .ok parts) :
      Separates l positives negatives vars s (.all parts) hs t

lemma separate_eq_ok {positives negatives : List Point} {vars : List Var} {inv : Expr}
    {hs : List Halfspace} {s t : State τ}
    (h : l.separate positives negatives vars s = (.ok (inv, hs), t)) :
    Separates l positives negatives vars s inv hs t := by
  unfold separate at h
  by_cases hneg : negatives.isEmpty
  · rw [if_pos hneg, Task.pure_eq_ok, Prod.mk.injEq] at h
    obtain ⟨⟨rfl, rfl⟩, rfl⟩ := h
    exact .nothing (List.isEmpty_iff.mp hneg)
  · rw [if_neg hneg] at h
    by_cases hpos : positives.isEmpty
    · simp only [if_pos hpos, Task.pure_eq_ok, Prod.mk.injEq] at h
      obtain ⟨⟨rfl, rfl⟩, rfl⟩ := h
      exact .everything (mt List.isEmpty_iff.mpr hneg) (List.isEmpty_iff.mp hpos)
    · simp only [if_neg hpos] at h
      obtain ⟨cuts, s₁, hcuts, h⟩ := Task.bind_eq_ok.mp h
      obtain ⟨parts, s₂, hask, h⟩ := Task.bind_eq_ok.mp h
      obtain ⟨hparts, rfl⟩ := Task.ofResult_eq_ok.mp hask
      rw [Task.pure_eq_ok, Prod.mk.injEq] at h
      obtain ⟨⟨rfl, rfl⟩, rfl⟩ := h
      exact .cuts (mt List.isEmpty_iff.mpr hneg) (mt List.isEmpty_iff.mpr hpos) hcuts hparts

lemma conjunctive_eq_ok {vars : List Var} {learned : Learned} {s t : State τ}
    (h : l.conjunctive samples vars s = (.ok learned, t)) :
    (samples.counterexamples ≠ [] ∧ learned = .disproved) ∨
      ∃ inv hs, learned = .candidate inv hs ∧
        l.separate samples.positives samples.negatives vars s = (.ok (inv, hs), t) := by
  unfold conjunctive at h
  split_ifs at h with hc
  · exact .inl ⟨by simpa using hc, (Task.pure_eq_ok.mp h).1.symm⟩
  · obtain ⟨⟨inv, hs⟩, s₁, hsep, h⟩ := Task.bind_eq_ok.mp h
    obtain ⟨rfl, rfl⟩ := Task.pure_eq_ok.mp h
    exact .inr ⟨inv, hs, rfl, hsep⟩

/-- A part is cut where it has points of both kinds. In any case its guard is added. -/
lemma separatePart_eq_ok {p : Part} {inv : Expr} {hs : List Halfspace} {s t : State τ}
    (h : l.separatePart loop p s = (.ok (inv, hs), t)) :
    ∃ e, inv = .all [e, loop.ofPre p.guard] ∧
      (((p.positives = [] ∨ p.negatives = []) ∧ e = .bool true ∧ hs = [] ∧ s = t) ∨
        (p.positives ≠ [] ∧ p.negatives ≠ [] ∧
          l.separate p.positives p.negatives loop.plainVars s = (.ok (e, hs), t))) := by
  unfold separatePart at h
  split_ifs at h with hempty
  · obtain ⟨⟨e, ks⟩, s₁, hconst, h⟩ := Task.bind_eq_ok.mp h
    obtain ⟨rfl, rfl⟩ := Prod.mk.inj (Task.pure_eq_ok.mp hconst).1
    obtain ⟨rfl, rfl⟩ := Prod.mk.inj (Task.pure_eq_ok.mp h).1
    have hstay : s = t := (Task.pure_eq_ok.mp hconst).2.trans (Task.pure_eq_ok.mp h).2
    exact ⟨_, rfl, .inl ⟨by simpa using hempty, rfl, rfl, hstay⟩⟩
  · rw [Bool.or_eq_true, not_or, List.isEmpty_iff, List.isEmpty_iff] at hempty
    obtain ⟨⟨e, ks⟩, s₁, hsep, h⟩ := Task.bind_eq_ok.mp h
    obtain ⟨heq, rfl⟩ := Task.pure_eq_ok.mp h
    obtain ⟨rfl, rfl⟩ := Prod.mk.inj heq
    exact ⟨e, rfl, .inr ⟨hempty.1, hempty.2, hsep⟩⟩

def partsOf (guards : List Expr) (positives negatives : List (List Point)) : List Part :=
  List.zipWith (fun g (pn : List Point × List Point) => Part.mk g pn.1 pn.2) guards
    (positives.zip negatives)

lemma disjunctive_eq_ok {o : Oracle σ} {onCond : Bool} {learned : Learned} {s t : Bench σ τ}
    (h : l.disjunctive o samples loop onCond s = (.ok learned, t)) :
    (samples.counterexamples ≠ [] ∧ learned = .disproved) ∨
      ∃ gs positives negatives parts u, Partition.guards loop onCond = .ok gs ∧
        Partition.file o loop gs samples.positives s.oracle = (.ok positives, u) ∧
        Partition.file o loop gs samples.negatives u = (.ok negatives, t.oracle) ∧
        (partsOf gs positives negatives).mapM (l.separatePart loop) s.learner =
          (.ok parts, t.learner) ∧
        learned = .candidate (.any (parts.map (·.1))) (parts.map (·.2)).flatten := by
  unfold disjunctive at h
  split_ifs at h with hc
  · exact .inl ⟨by simpa using hc, (Task.pure_eq_ok.mp h).1.symm⟩
  right
  obtain ⟨gs, s₁, hask, h⟩ := Task.bind_eq_ok.mp h
  obtain ⟨hgs, rfl⟩ := Task.ofResult_eq_ok.mp hask
  obtain ⟨positives, s₂, hasked, h⟩ := Task.bind_eq_ok.mp h
  obtain ⟨u, hpos, rfl⟩ := Task.on_eq_ok.mp hasked
  obtain ⟨negatives, s₃, hasked', h⟩ := Task.bind_eq_ok.mp h
  obtain ⟨v, hneg, rfl⟩ := Task.on_eq_ok.mp hasked'
  obtain ⟨parts, s₄, hlearned, h⟩ := Task.bind_eq_ok.mp h
  obtain ⟨w, hparts, rfl⟩ := Task.on_eq_ok.mp hlearned
  obtain ⟨rfl, rfl⟩ := Task.pure_eq_ok.mp h
  exact ⟨gs, positives, negatives, parts, u, hgs, hpos, hneg, hparts, rfl⟩

lemma guard_mem_of_partsOf {gs : List Expr} {positives negatives : List (List Point)} {p : Part}
    (hp : p ∈ partsOf gs positives negatives) : p.guard ∈ gs := by
  rw [partsOf, ← List.map_uncurry_zip_eq_zipWith] at hp
  obtain ⟨⟨g, pn⟩, hg, rfl⟩ := List.mem_map.mp hp
  exact (List.of_mem_zip hg).1

/-! ### The variables of candidates -/

lemma Separates.occurrences {positives negatives : List Point} {vars : List Var} {inv : Expr}
    {hs : List Halfspace} {s t : State τ} (h : Separates l positives negatives vars s inv hs t) :
    inv.occurrences ⊆ vars := by
  cases h with
  | nothing => exact List.nil_subset _
  | everything => exact List.nil_subset _
  | cuts hneg hpos hcuts hparts =>
    rw [Expr.all, Expr.occurrences_gather]
    intro v hv
    obtain ⟨e, he, hv⟩ := List.mem_flatMap.mp hv
    obtain ⟨k, _, hk⟩ := Result.exists_of_mem_mapM hparts he
    exact Halfspace.occurrences_toExpr hk hv

lemma conjunctive_from {learned : Learned} {s t : State τ}
    (h : l.conjunctive samples loop.plainVars s = (.ok learned, t)) :
    learned.From samples loop := by
  rcases conjunctive_eq_ok h with ⟨hc, rfl⟩ | ⟨inv, hs, rfl, hsep⟩
  · exact hc
  · exact fun _ => (separate_eq_ok hsep).occurrences

lemma occurrences_separatePart (hl : loop.Scoped) {p : Part}
    (hp : p.guard.occurrences ⊆ loop.vars.map StateVar.before) {inv : Expr} {hs : List Halfspace}
    {s t : State τ} (h : l.separatePart loop p s = (.ok (inv, hs), t)) :
    inv.occurrences ⊆ loop.plainVars := by
  have hguard : (loop.ofPre p.guard).occurrences ⊆ loop.plainVars :=
    Loop.occurrences_move hl.names (fun _ => rfl) hp
  obtain ⟨e, rfl, he⟩ := separatePart_eq_ok h
  have hsub : e.occurrences ⊆ loop.plainVars := by
    rcases he with ⟨_, rfl, _⟩ | ⟨_, _, hsep⟩
    · exact List.nil_subset _
    · exact (separate_eq_ok hsep).occurrences
  rw [Expr.all, Expr.occurrences_gather]
  simpa using ⟨hsub, hguard⟩

lemma disjunctive_from {o : Oracle σ} {onCond : Bool} {learned : Learned} {s t : Bench σ τ}
    (h : l.disjunctive o samples loop onCond s = (.ok learned, t)) :
    learned.From samples loop := by
  rcases disjunctive_eq_ok h with
    ⟨hc, rfl⟩ | ⟨gs, positives, negatives, parts, u, hgs, _, _, hparts, rfl⟩
  · exact hc
  intro hl
  have hpreds : ∀ p ∈ Partition.predicates loop onCond,
      p.occurrences ⊆ loop.vars.map StateVar.before :=
    Partition.forall_mem_predicates hl.cond hl.paths
  rw [Expr.any, Expr.occurrences_gather]
  intro v hv
  obtain ⟨e, he, hv⟩ := List.mem_flatMap.mp hv
  obtain ⟨⟨inv, hs⟩, hmem, rfl⟩ := List.mem_map.mp he
  obtain ⟨p, hp, s₅, s₆, hpart⟩ := Task.exists_of_mem_mapM hparts hmem
  have hguard := Partition.occurrences_guards hpreds hgs _ (guard_mem_of_partsOf hp)
  exact occurrences_separatePart hl hguard hpart hv

end Learner
end LoopInvariant
