import LoopInvariant.Examples
import LoopInvariant.Obligation
import LoopInvariant.Proofs.Projection
import LoopInvariant.Proofs.Simplify
import LoopInvariant.Proofs.Solver

/-! The obligations as properties of states. A formula is an invariant exactly if no state fails an
obligation, the violations are satisfiable exactly where one does, and the state that a failed
check reports is such a state. -/
namespace LoopInvariant.Obligation

variable {σ : Type} {o : Oracle σ} {l : Loop} {inv : Expr} {c : Obligation}

/-- The obligation fails at a state, for consecution with some state after it. -/
def FailsAt (l : Loop) (I : l.State → Prop) : Obligation → l.State → Prop
  | initiation, s => l.PreAt s ∧ ¬I s
  | consecution, s => l.CondAt s ∧ I s ∧ ∃ s', l.BodyAt s s' ∧ ¬I s'
  | exit, s => I s ∧ ¬l.CondAt s ∧ ¬l.PostAt s

def stage : Obligation → Stage
  | initiation => .pre
  | consecution => .pre
  | exit => .post

lemma invariant_iff {I : l.State → Prop} : l.Invariant I ↔ ∀ c s, ¬FailsAt l I c s := by
  constructor
  · intro h c s hs
    cases c with
    | initiation => exact hs.2 (h.initiation s hs.1)
    | consecution =>
      obtain ⟨hcond, hin, s', hbody, hout⟩ := hs
      exact hout (h.consecution s s' hin hcond hbody)
    | exit => exact hs.2.2 (h.exit s hs.1 hs.2.1)
  · intro h
    refine ⟨fun s hpre => ?_, fun s s' hin hcond hbody => ?_, fun s hin hcond => ?_⟩
    · by_contra hout
      exact h initiation s ⟨hpre, hout⟩
    · by_contra hout
      exact h consecution s ⟨hcond, hin, s', hbody, hout⟩
    · by_contra hpost
      exact h exit s ⟨hin, hcond, hpost⟩

section Violation

variable {s : l.State} {ρ : Valuation}

lemma truth_initiation (hl : l.Staged) (hinv : inv.occurrences ⊆ l.plainVars)
    (h : l.Reads StateVar.before s ρ) :
    (violation l inv initiation).truth ρ = true ↔
      l.PreAt s ∧ ¬l.Holds StateVar.plain inv s := by
  rw [Loop.PreAt, Loop.holds_iff hl.names (fun _ => rfl) hl.pre h,
    ← Loop.truth_toPre hl.names hinv h]
  simp [violation, Expr.truth]

lemma truth_consecution (hl : l.Staged) (hinv : inv.occurrences ⊆ l.plainVars) {s' : l.State}
    (h : l.Reads StateVar.before s ρ) (h' : l.Reads StateVar.after s' ρ) :
    (violation l inv consecution).truth ρ = true ↔
      l.CondAt s ∧ l.body.truth ρ = true ∧ l.Holds StateVar.plain inv s ∧
        ¬l.Holds StateVar.plain inv s' := by
  rw [Loop.CondAt, Loop.holds_iff hl.names (fun _ => rfl) hl.cond h,
    ← Loop.truth_toPre hl.names hinv h, ← Loop.truth_toPost hl.names hinv h']
  simp [violation, Expr.truth]

lemma truth_exit (hl : l.Staged) (hinv : inv.occurrences ⊆ l.plainVars)
    (h : l.Reads StateVar.after s ρ) :
    (violation l inv exit).truth ρ = true ↔
      l.Holds StateVar.plain inv s ∧ ¬l.CondAt s ∧ ¬l.PostAt s := by
  have hcond : (l.preToPost l.cond).truth ρ = true ↔ l.CondAt s :=
    Loop.truth_move hl.names (fun _ => rfl) hl.cond h
  rw [Loop.PostAt, Loop.holds_iff hl.names (fun _ => rfl) hl.post h, ← hcond,
    ← Loop.truth_toPost hl.names hinv h]
  simp [violation, Expr.truth]

lemma failsAt_of_violation (hl : l.Staged) (hinv : inv.occurrences ⊆ l.plainVars)
    (h : l.Reads (Loop.copy c.stage) s ρ) (htrue : (violation l inv c).truth ρ = true) :
    FailsAt l (l.Holds StateVar.plain inv) c s := by
  cases c with
  | initiation => exact (truth_initiation hl hinv h).mp htrue
  | consecution =>
    have hafter : l.Reads StateVar.after (fun i => ρ (l.vars.get i).after) ρ := fun _ => rfl
    obtain ⟨hcond, hbody, hin, hout⟩ := (truth_consecution hl hinv h hafter).mp htrue
    exact ⟨hcond, hin, _, ⟨ρ, h, hafter, hbody⟩, hout⟩
  | exit => exact (truth_exit hl hinv h).mp htrue

lemma exists_violation (hl : l.Staged) (hinv : inv.occurrences ⊆ l.plainVars)
    (h : FailsAt l (l.Holds StateVar.plain inv) c s) :
    ∃ ρ, (violation l inv c).truth ρ = true := by
  cases c with
  | initiation =>
    have hreads := Loop.reads_reading hl.names (fun v : StateVar => (rfl : v.before.name = _)) s
    exact ⟨_, (truth_initiation hl hinv hreads).mpr h⟩
  | consecution =>
    obtain ⟨hcond, hin, s', ⟨ρ, hbefore, hafter, hbody⟩, hout⟩ := h
    exact ⟨ρ, (truth_consecution hl hinv hbefore hafter).mpr ⟨hcond, hbody, hin, hout⟩⟩
  | exit =>
    have hreads := Loop.reads_reading hl.names (fun v : StateVar => (rfl : v.after.name = _)) s
    exact ⟨_, (truth_exit hl hinv hreads).mpr h⟩

lemma not_failsAt (hl : l.Staged) (hinv : inv.occurrences ⊆ l.plainVars)
    (h : ∀ ρ, (violation l inv c).truth ρ = false) (s : l.State) :
    ¬FailsAt l (l.Holds StateVar.plain inv) c s := by
  intro hs
  obtain ⟨ρ, hρ⟩ := exists_violation hl hinv hs
  rw [h ρ] at hρ
  cases hρ

theorem invariant_of_violation (hl : l.Scoped) (hinv : inv.occurrences ⊆ l.plainVars)
    (h : ∀ c ρ, (violation l inv c).truth ρ = false) :
    l.Invariant (l.Holds StateVar.plain inv) :=
  invariant_iff.mpr fun c => not_failsAt hl.staged hinv (h c)

/-- A violation has copies at the stage of its obligation, and for consecution also those after the
body. -/
lemma occurrences_violation (hl : l.Staged) (hinv : inv.occurrences ⊆ l.plainVars) :
    (violation l inv c).occurrences ⊆
      l.vars.map (Loop.copy c.stage) ++ l.vars.map StateVar.after := by
  have hpre : (l.toPre inv).occurrences ⊆ l.vars.map StateVar.before :=
    Loop.occurrences_move hl.names (fun _ => rfl) hinv
  have hpost : (l.toPost inv).occurrences ⊆ l.vars.map StateVar.after :=
    Loop.occurrences_move hl.names (fun _ => rfl) hinv
  have hcond : (l.preToPost l.cond).occurrences ⊆ l.vars.map StateVar.after :=
    Loop.occurrences_move hl.names (fun _ => rfl) hl.cond
  cases c with
  | initiation =>
    simp only [violation, Expr.all, Expr.occurrences_gather, List.flatMap_cons, List.flatMap_nil,
      List.append_nil, List.append_subset]
    exact ⟨List.subset_append_of_subset_left _ hl.pre, List.subset_append_of_subset_left _ hpre⟩
  | consecution =>
    simp only [violation, Expr.all, Expr.occurrences_gather, List.flatMap_cons, List.flatMap_nil,
      List.append_nil, List.append_subset]
    exact ⟨List.subset_append_of_subset_left _ hl.cond, hl.body,
      List.subset_append_of_subset_left _ hpre, List.subset_append_of_subset_right _ hpost⟩
  | exit =>
    simp only [violation, Expr.all, Expr.occurrences_gather, List.flatMap_cons, List.flatMap_nil,
      List.append_nil, List.append_subset]
    exact ⟨List.subset_append_of_subset_right _ hpost, List.subset_append_of_subset_right _ hcond,
      List.subset_append_of_subset_right _ hl.post⟩

lemma failsAt_project (hl : l.Staged) (ho : l.Ordered) (hinv : inv.occurrences ⊆ l.plainVars)
    {m : Model} (hm : (violation l inv c).Settled (some m)) :
    FailsAt l (l.Holds StateVar.plain inv) c (l.ofPoint (m.project l.names .lowest)) := by
  obtain ⟨hvars, htrue⟩ := hm
  have hincreasing : Var.Increasing m.vars := hvars ▸ Expr.increasing_vars _
  have hsubset : m.vars ⊆ l.vars.map (Loop.copy c.stage) ++ l.vars.map StateVar.after := by
    intro v hv
    rw [hvars, Expr.mem_vars] at hv
    exact occurrences_violation hl hinv hv
  -- where the model has no copy at the stage, another copy is read, or zero: any value will do
  refine failsAt_of_violation hl hinv
    (Loop.reads_assign hl.names (Loop.name_copy c.stage) _ m.valuation) ?_
  rw [Loop.truth_assign hl.names (Loop.name_copy c.stage) fun i hi => ?_]
  · exact htrue
  · rw [← Expr.mem_vars, ← hvars] at hi
    exact Loop.ofPoint_lowest hl.names ho hincreasing hsubset hi

end Violation

lemma sorted_violation :
    (violation l inv c).Sorted .formula ↔
      inv.Sorted .formula ∧
        match c with
        | initiation => l.pre.Sorted .formula
        | consecution => l.cond.Sorted .formula ∧ l.body.Sorted .formula
        | exit => l.cond.Sorted .formula ∧ l.post.Sorted .formula := by
  cases c with
  | initiation =>
    simp only [violation, Expr.all, Expr.sorted_gather, List.forall_mem_cons, Expr.sorted_not,
      Loop.toPre, Loop.sorted_move, List.not_mem_nil, false_implies, implies_true, and_true]
    exact And.comm
  | consecution =>
    simp only [violation, Expr.all, Expr.sorted_gather, List.forall_mem_cons, Expr.sorted_not,
      Loop.toPre, Loop.toPost, Loop.sorted_move, List.not_mem_nil, false_implies, implies_true,
      and_true]
    tauto
  | exit =>
    simp only [violation, Expr.all, Expr.sorted_gather, List.forall_mem_cons, Expr.sorted_not,
      Loop.toPost, Loop.preToPost, Loop.sorted_move, List.not_mem_nil, false_implies,
      implies_true, and_true]

lemma violation_simplify (h : (violation l inv c).Sorted .formula) :
    (violation l inv.simplify c).Sorted .formula ∧
      ∀ ρ, (violation l inv.simplify c).truth ρ = (violation l inv c).truth ρ := by
  obtain ⟨hinv, hloop⟩ := sorted_violation.mp h
  have htruth (source target : StateVar → Var) (ρ : Valuation) :
      (l.move source target inv.simplify).truth ρ = (l.move source target inv).truth ρ := by
    rw [Loop.move, Loop.move, Expr.truth_rename, Expr.truth_rename]
    exact Expr.meaning_simplify _ hinv
  refine ⟨sorted_violation.mpr ⟨Expr.sorted_simplify hinv, hloop⟩, fun ρ => ?_⟩
  cases c <;>
    simp only [violation, Expr.truth_all, List.all_cons, List.all_nil, Expr.truth, Loop.toPre,
      Loop.toPost, htruth]

lemma checkEach_eq_valid (ho : o.solver.Truthful) {cs : List Obligation} {s t : Oracle.State σ}
    (h : checkEach o l inv cs s = (.ok .valid, t)) :
    ∀ c ∈ cs, (violation l inv c).Sorted .formula ∧ ∀ ρ, (violation l inv c).truth ρ = false := by
  induction cs generalizing s with
  | nil => simp
  | cons c rest ih =>
    rw [checkEach, Task.bind_eq_ok] at h
    obtain ⟨a, s', hm, h⟩ := h
    cases a with
    | some m =>
      have := (Task.pure_eq_ok.mp h).1
      cases this
    | none =>
      rw [List.forall_mem_cons]
      exact ⟨Oracle.settled_of_model? ho hm, ih h⟩

lemma check_eq_valid (ho : o.solver.Truthful) {s t : Oracle.State σ}
    (h : check o l inv s = (.ok .valid, t)) (c : Obligation) :
    (violation l inv c).Sorted .formula ∧ ∀ ρ, (violation l inv c).truth ρ = false :=
  checkEach_eq_valid ho h c (by cases c <;> simp [all])

/-- A check that fails has refuted the violations before the one it found a model of. -/
lemma checkEach_eq_invalid (ho : o.solver.Truthful) {cs : List Obligation} {w : Point}
    {s t : Oracle.State σ} (h : checkEach o l inv cs s = (.ok (.invalid c w), t)) :
    (∀ c' ∈ cs.takeWhile (· ≠ c), (violation l inv c').Sorted .formula ∧
        ∀ ρ, (violation l inv c').truth ρ = false) ∧
      (violation l inv c).Sorted .formula ∧
        ∃ m, (violation l inv c).Settled (some m) ∧ w = m.project l.names .lowest := by
  induction cs generalizing s with
  | nil =>
    have := (Task.pure_eq_ok.mp h).1
    cases this
  | cons c₀ rest ih =>
    rw [checkEach, Task.bind_eq_ok] at h
    obtain ⟨a, s', hm, h⟩ := h
    have hsettled := Oracle.settled_of_model? ho hm
    cases a with
    | some m =>
      have heq := (Task.pure_eq_ok.mp h).1
      cases heq
      exact ⟨by simp, hsettled.1, m, hsettled.2, rfl⟩
    | none =>
      obtain ⟨hearlier, hfound⟩ := ih h
      refine ⟨?_, hfound⟩
      by_cases hc : c₀ = c
      · simp [hc]
      · rw [List.takeWhile_cons_of_pos (by simpa using hc), List.forall_mem_cons]
        exact ⟨hsettled, hearlier⟩

/-- What the built-in solver finds out about a candidate is exact. A valid one is an invariant of
the loop. Otherwise the obligations before the failing one hold everywhere, and the failing one
fails at the reported state. -/
theorem check_exact {o : Oracle Unit} (ho : o.solver = .builtIn) (hl : l.Staged)
    (hord : l.Ordered) (hinv : inv.occurrences ⊆ l.plainVars) (s : Oracle.State Unit) :
    ((check o l inv s).1 = .ok .valid →
      (∀ c, (violation l inv c).Sorted .formula) ∧
        l.Invariant (l.Holds StateVar.plain inv)) ∧
    ∀ c w, (check o l inv s).1 = .ok (.invalid c w) →
      (∀ c' ∈ all.takeWhile (· ≠ c), (violation l inv c').Sorted .formula ∧
        ∀ u, ¬FailsAt l (l.Holds StateVar.plain inv) c' u) ∧
      (violation l inv c).Sorted .formula ∧ w.dim = l.dim ∧
        FailsAt l (l.Holds StateVar.plain inv) c (l.ofPoint w) := by
  have htruthful : o.solver.Truthful := ho ▸ Solver.builtIn_truthful
  constructor
  · intro h
    have hrefuted := check_eq_valid htruthful (Prod.ext h rfl)
    refine ⟨fun c => (hrefuted c).1, invariant_iff.mpr fun c => ?_⟩
    exact not_failsAt hl hinv (hrefuted c).2
  · intro c w h
    obtain ⟨hearlier, hsorted, m, hm, rfl⟩ := checkEach_eq_invalid htruthful (Prod.ext h rfl)
    refine ⟨fun c' hc' => ?_, hsorted, Loop.length_project .lowest,
      failsAt_project hl hord hinv hm⟩
    exact ⟨(hearlier c' hc').1, not_failsAt hl hinv (hearlier c' hc').2⟩

def drifting : Loop where
  vars := Examples.vars
  pre := .cmp .eq Examples.x₁ (.int 0)
  cond := .cmp .lt Examples.x₁ (.int 3)
  body := .all [.cmp .eq Examples.x₂ (.arith .add Examples.x₁ Examples.y₂),
    .cmp .le Examples.y₂ (.int 1)]
  post := .cmp .eq Examples.x₂ (.int 3)

def atMost (n : Int64) : Expr := .cmp .le (.var ⟨"x", none⟩) (.int n)

theorem check_exact_drifting :
    drifting.Staged ∧ drifting.Ordered ∧
    (check ⟨.builtIn, 100, 0, 2⟩ drifting (atMost 3) ⟨(), 0⟩).1 = .ok .valid ∧
    drifting.Invariant (drifting.Holds StateVar.plain (atMost 3)) ∧
    (check ⟨.builtIn, 100, 0, 2⟩ drifting (atMost 2) ⟨(), 0⟩).1 =
      .ok (.invalid consecution ⟨[2, 1]⟩) ∧
    FailsAt drifting (drifting.Holds StateVar.plain (atMost 2)) consecution
      (drifting.ofPoint ⟨[2, 1]⟩) := by
  have hstaged : drifting.Staged := by decide
  have hordered : drifting.Ordered := by decide
  have hvalid : (check ⟨.builtIn, 100, 0, 2⟩ drifting (atMost 3) ⟨(), 0⟩).1 = .ok .valid := by
    decide +kernel
  have hinvalid : (check ⟨.builtIn, 100, 0, 2⟩ drifting (atMost 2) ⟨(), 0⟩).1 =
      .ok (.invalid consecution ⟨[2, 1]⟩) := by
    decide +kernel
  have hthree := (check_exact rfl hstaged hordered (by decide) _).1 hvalid
  have htwo := (check_exact rfl hstaged hordered (by decide) _).2 _ _ hinvalid
  exact ⟨hstaged, hordered, hvalid, hthree.2, hinvalid, htwo.2.2.2⟩

end LoopInvariant.Obligation
