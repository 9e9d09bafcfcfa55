import LoopInvariant.Verifier
import LoopInvariant.Proofs.Candidate
import LoopInvariant.Proofs.Obligation
import LoopInvariant.Proofs.Trace

/-! Verdicts are sound, whatever the separator, the samples and the settings are: a formula that is
reported as an invariant is one, and a loop that is reported as disproved has a run that fails. -/
namespace LoopInvariant.Verifier

open Learner (Bench)

variable {σ τ : Type} {v : Verifier σ τ} {loop : Loop} {clock : ℕ → Duration}
  {p : SampleSet → Prop}

/-- A property of the samples that nothing in a verification spoils: points are taken out to be
classified, runs are filed under the class of their start, and new points are left for later. -/
structure Kept (v : Verifier σ τ) (loop : Loop) (p : SampleSet → Prop) : Prop where
  taken : ∀ samples, p samples → p samples.takeUnknown.2
  filed : ∀ samples start c states s t, p samples →
    Trace.classify v.oracle loop start v.settings.unrollLimit s = (.ok (c, states), t) →
    p (samples.extend c states)
  awaited : ∀ samples points, p samples → p (samples.extend .unknown points)

lemma working_eq_ok {α : Type} {x : Task (Bench σ τ) α} {a : α} {r r' : Run σ τ} :
    working x r = (.ok a, r') ↔ ∃ bench, x r.bench = (.ok a, bench) ∧ { r with bench } = r' :=
  Task.on_eq_ok

lemma asking_eq_ok {α : Type} {x : Oracle.Asking σ α} {a : α} {b b' : Bench σ τ} :
    Bench.asking x b = (.ok a, b') ↔
      ∃ oracle, x b.oracle = (.ok a, oracle) ∧ { b with oracle } = b' :=
  Task.on_eq_ok

lemma classifyEach_kept (hp : Kept v loop p) {points : List Point} {r r' : Run σ τ}
    (h : v.classifyEach loop points r = (.ok (), r')) (hr : p r.samples) : p r'.samples := by
  induction points generalizing r with
  | nil =>
    rw [classifyEach, Task.pure_eq_ok] at h
    rw [← h.2]
    exact hr
  | cons start points ih =>
    rw [classifyEach, Task.bind_eq_ok] at h
    obtain ⟨⟨c, states⟩, r₁, hw, h⟩ := h
    obtain ⟨bench, ha, rfl⟩ := working_eq_ok.mp hw
    obtain ⟨t, hc, _⟩ := asking_eq_ok.mp ha
    obtain ⟨_, r₂, hm, h⟩ := Task.bind_eq_ok.mp h
    rw [Task.modify_eq_ok] at hm
    refine ih h ?_
    rw [← hm]
    exact hp.filed _ start c states _ t hr hc

lemma classifyUnknown_kept (hp : Kept v loop p) {r r' : Run σ τ}
    (h : v.classifyUnknown clock loop r = (.ok (), r')) (hr : p r.samples) : p r'.samples := by
  rw [classifyUnknown, Task.bind_eq_ok] at h
  obtain ⟨expired, r₁, he, h⟩ := h
  obtain ⟨bench, _, rfl⟩ := working_eq_ok.mp he
  cases expired with
  | true =>
    rw [if_pos rfl, Task.bind_eq_ok] at h
    obtain ⟨_, _, hthrow, _⟩ := h
    exact absurd hthrow Task.throw_eq_ok
  | false =>
    rw [if_neg Bool.false_ne_true] at h
    obtain ⟨r₁, r₂, hget, h⟩ := Task.bind_eq_ok.mp h
    obtain ⟨rfl, rfl⟩ := Task.get_eq_ok.mp hget
    obtain ⟨_, r₃, hset, h⟩ := Task.bind_eq_ok.mp h
    rw [Task.set_eq_ok] at hset
    refine classifyEach_kept hp h ?_
    rw [← hset]
    exact hp.taken _ hr

lemma learn_eq_ok {learned : Learned} {r r' : Run σ τ}
    (h : v.learn clock loop r = (.ok learned, r')) :
    learned.From r.samples loop ∧ r'.samples = r.samples := by
  rw [learn, Task.bind_eq_ok] at h
  obtain ⟨r₁, r₂, hget, h⟩ := h
  obtain ⟨rfl, rfl⟩ := Task.get_eq_ok.mp hget
  cases hs : v.settings.strategy with
  | conjunctive =>
    simp only [hs] at h
    obtain ⟨bench, hb, rfl⟩ := working_eq_ok.mp h
    obtain ⟨t, hl, _⟩ := Task.on_eq_ok.mp hb
    exact ⟨Learner.conjunctive_from hl, rfl⟩
  | disjunctive onCond =>
    simp only [hs] at h
    obtain ⟨bench, hl, rfl⟩ := working_eq_ok.mp h
    exact ⟨Learner.disjunctive_from hl, rfl⟩

/-- What a verdict rests on: a disproof on samples with a counterexample, and an invariant on a
check of the candidate it was simplified from. -/
def Grounds (v : Verifier σ τ) (loop : Loop) (p : SampleSet → Prop) : Verdict → Prop
  | .inconclusive _ => True
  | .disproved => ∃ samples, p samples ∧ samples.counterexamples ≠ []
  | .invariant e => ∃ inv, e = inv.simplify ∧ (loop.Scoped → inv.occurrences ⊆ loop.plainVars) ∧
      ∃ s t, Obligation.check v.oracle loop inv s = (.ok .valid, t)

/-- Rounds of refinement keep what classification keeps, so that a verdict has its grounds however
late it is reached. -/
theorem refine_grounds (hp : Kept v loop p) {left : ℕ} {verdict : Verdict} {r r' : Run σ τ}
    (h : v.refine clock loop left r = (.ok verdict, r')) (hr : p r.samples) :
    Grounds v loop p verdict := by
  induction left generalizing r with
  | zero =>
    rw [refine, Task.bind_eq_ok] at h
    obtain ⟨_, r₁, _, h⟩ := h
    cases hm : v.settings.maxRounds with
    | none =>
      simp only [hm] at h
      exact absurd h Task.throw_eq_ok
    | some n =>
      simp only [hm] at h
      rw [← (Task.pure_eq_ok.mp h).1]
      trivial
  | succ left ih =>
    rw [refine, Task.bind_eq_ok] at h
    obtain ⟨_, r₁, hclassify, h⟩ := h
    have hr₁ := classifyUnknown_kept hp hclassify hr
    obtain ⟨_, r₂, hcount, h⟩ := Task.bind_eq_ok.mp h
    rw [Task.modify_eq_ok] at hcount
    obtain ⟨learned, r₃, hlearn, h⟩ := Task.bind_eq_ok.mp h
    obtain ⟨hfrom, hsame⟩ := learn_eq_ok hlearn
    rw [← hcount] at hfrom hsame
    cases learned with
    | disproved =>
      rw [← (Task.pure_eq_ok.mp h).1]
      exact ⟨r₁.samples, hr₁, hfrom⟩
    | candidate inv hs =>
      obtain ⟨validity, r₄, hw, h⟩ := Task.bind_eq_ok.mp h
      obtain ⟨bench, ha, rfl⟩ := working_eq_ok.mp hw
      obtain ⟨t, hcheck, _⟩ := asking_eq_ok.mp ha
      cases validity with
      | valid =>
        rw [← (Task.pure_eq_ok.mp h).1]
        exact ⟨inv, rfl, hfrom, _, t, hcheck⟩
      | invalid c witness =>
        obtain ⟨images, r₅, hask, h⟩ := Task.bind_eq_ok.mp h
        obtain ⟨_, rfl⟩ := Task.ofResult_eq_ok.mp hask
        obtain ⟨_, r₆, hm, h⟩ := Task.bind_eq_ok.mp h
        rw [Task.modify_eq_ok] at hm
        refine ih h ?_
        rw [← hm]
        exact hp.awaited _ _ (hsame ▸ hr₁)

lemma conclude_eq_ok {timeout : Option Duration} {result : Result Verdict} {verdict : Verdict}
    (h : conclude timeout result = .ok verdict) :
    (∃ reason, verdict = .inconclusive reason) ∨ result = .ok verdict := by
  unfold conclude at h
  split at h
  · split at h
    · rename_i reason _
      rw [Except.ok.injEq] at h
      exact .inl ⟨reason, h.symm⟩
    · cases h
  · exact .inr h

theorem verify_grounds (hp : Kept v loop p) {s : State σ τ} {verdict : Verdict}
    (h : Report.verdict <$> (v.verify loop clock s).1 = .ok verdict)
    (hs : p (v.begin loop s).samples) : Grounds v loop p verdict := by
  obtain ⟨report, hreport, rfl⟩ := Result.map_eq_ok.mp h
  unfold verify at hreport
  split at hreport
  · cases hreport
  · rcases hrefine : v.refine clock loop (v.settings.maxRounds.getD maxCount) (v.begin loop s) with
      ⟨result, r⟩
    simp only [hrefine] at hreport
    obtain ⟨verdict, hconclude, rfl⟩ := Result.map_eq_ok.mp hreport
    rcases conclude_eq_ok hconclude with ⟨reason, rfl⟩ | hresult
    · trivial
    · rw [hresult] at hrefine
      exact refine_grounds hp hrefine hs

/-- A formula that is reported as an invariant violates no obligation, over all integers. If the
loop keeps to its vocabulary, the formula is about the program variables, every run satisfies it
throughout, and every run that leaves the loop does so in the postcondition. -/
theorem invariant_of_verify {settings : Settings} {separator : Separator τ} {s : State Unit τ}
    {e : Expr}
    (h : Report.verdict <$> (verify ⟨settings, .builtIn, separator⟩ loop clock s).1 =
      .ok (.invariant e)) :
    (∀ c : Obligation, (c.violation loop e).Sorted .formula ∧
      ∀ ρ : Valuation, (c.violation loop e).truth ρ = false) ∧
    (loop.Scoped → e.occurrences ⊆ loop.plainVars ∧
      ∀ (n : ℕ) (states : ℕ → loop.State), loop.Run n states →
        (∀ i ≤ n, loop.Holds StateVar.plain e (states i)) ∧
        (¬loop.CondAt (states n) → loop.PostAt (states n))) := by
  have hkept : Kept ⟨settings, .builtIn, separator⟩ loop fun _ => True :=
    ⟨fun _ _ => trivial, fun _ _ _ _ _ _ _ _ => trivial, fun _ _ _ => trivial⟩
  obtain ⟨inv, rfl, hvars, t, t', hcheck⟩ := verify_grounds hkept h trivial
  have hviolation (c : Obligation) : (c.violation loop inv.simplify).Sorted .formula ∧
      ∀ ρ : Valuation, (c.violation loop inv.simplify).truth ρ = false := by
    obtain ⟨hsorted, hfalse⟩ := Obligation.check_eq_valid Solver.builtIn_truthful hcheck c
    obtain ⟨hsorted', htruth⟩ := Obligation.violation_simplify hsorted
    exact ⟨hsorted', fun ρ => (htruth ρ).trans (hfalse ρ)⟩
  refine ⟨hviolation, fun hl => ?_⟩
  have hplain : inv.simplify.occurrences ⊆ loop.plainVars :=
    List.Subset.trans inv.occurrences_simplify (hvars hl)
  have hinvariant :=
    Obligation.invariant_of_violation hl hplain fun c ρ => (hviolation c).2 ρ
  refine ⟨hplain, fun n states hrun => ⟨hinvariant.run hrun, ?_⟩⟩
  exact hinvariant.exit (states n) (hinvariant.run hrun n le_rfl)

/-- Counts from zero to three. -/
def counting : Loop where
  vars := [⟨"x", 1, 2⟩]
  pre := .cmp .eq (.var ⟨"x", some 1⟩) (.int 0)
  cond := .cmp .lt (.var ⟨"x", some 1⟩) (.int 3)
  body := .cmp .eq (.var ⟨"x", some 2⟩) (.arith .add (.var ⟨"x", some 1⟩) (.int 1))
  post := .cmp .ge (.var ⟨"x", some 2⟩) (.int 3)

/-- Counts to three and expects just that. -/
def countingExactly : Loop :=
  { counting with post := .cmp .eq (.var ⟨"x", some 2⟩) (.int 3) }

def count (s : countingExactly.State) : ℤ := s ⟨0, Nat.one_pos⟩

lemma reading_countingExactly (copy : StateVar → Var) (hcopy : ∀ v, (copy v).name = v.name)
    (s : countingExactly.State) :
    countingExactly.reading copy s (copy ⟨"x", 1, 2⟩) = count s :=
  Loop.reads_reading (by decide) hcopy s ⟨0, Nat.one_pos⟩

lemma postAt_countingExactly (s : countingExactly.State) :
    countingExactly.PostAt s ↔ count s = 3 := by
  rw [← reading_countingExactly StateVar.after (fun _ => rfl) s]
  exact decide_eq_true_iff

/-- The half-space `-20 * x + 70 > 0`. -/
def belowFour : Expr :=
  .cmp .gt (.arith .add (.arith .mul (.int (-20)) (.var ⟨"x", none⟩)) (.int 70)) (.int 0)

/-- The half-space is learned from the four states of the only run, as the positive ones, and the
negative one that refutes the candidate `true`. It keeps the count from passing three. -/
theorem invariant_of_verify_counting :
    Report.verdict <$> ((builtIn { initialSamples := 0 }).verify countingExactly (fun _ => ⟨0⟩)
      ⟨⟨(), 0⟩, (), 0, none⟩).1 = .ok (.invariant belowFour) ∧
    countingExactly.Scoped ∧
    ∀ n states, countingExactly.Run n states →
      (∀ i ≤ n, count (states i) ≤ 3) ∧
        (¬countingExactly.CondAt (states n) → count (states n) = 3) := by
  have hverdict : Report.verdict <$> ((builtIn { initialSamples := 0 }).verify countingExactly
      (fun _ => ⟨0⟩) ⟨⟨(), 0⟩, (), 0, none⟩).1 = .ok (.invariant belowFour) := by
    decide +kernel
  have hscoped : countingExactly.Scoped := by decide
  refine ⟨hverdict, hscoped, fun n states hrun => ?_⟩
  obtain ⟨hholds, hexit⟩ := ((invariant_of_verify hverdict).2 hscoped).2 n states hrun
  refine ⟨fun i hi => ?_, fun hcond => (postAt_countingExactly _).mp (hexit hcond)⟩
  have hbelow : -20 * countingExactly.reading StateVar.plain (states i) ⟨"x", none⟩ + 70 > 0 :=
    of_decide_eq_true (hholds i hi)
  have hcount : countingExactly.reading StateVar.plain (states i) ⟨"x", none⟩ = count (states i) :=
    reading_countingExactly StateVar.plain (fun _ => rfl) (states i)
  omega

def unable : Separator Unit := ⟨fun _ => return .error (.error .emptyTrainingSet)⟩

lemma kept_refuted (ho : v.solver.Truthful) (hl : loop.Scoped) (hord : loop.Ordered) :
    Kept v loop fun samples => samples.counterexamples ≠ [] → loop.Refuted := by
  refine ⟨fun samples hs => hs, ?_, fun samples points hs => hs⟩
  intro samples start c states s t hs hc
  cases c with
  | counterexample => exact fun _ => Trace.run_of_counterexample ho hl.staged hord hc
  | positive => exact hs
  | negative => exact hs
  | undetermined => exact hs
  | unknown => exact hs

/-- A loop that is reported as disproved has a run from the precondition that leaves the loop
outside the postcondition, through integer states of any magnitude. -/
theorem run_of_verify_disproved {settings : Settings} {separator : Separator τ}
    {s : State Unit τ} (hl : loop.Scoped) (hord : loop.Ordered)
    (h : Report.verdict <$> (verify ⟨settings, .builtIn, separator⟩ loop clock s).1 =
      .ok .disproved) :
    ∃ (n : ℕ) (states : ℕ → loop.State), loop.Run n states ∧
      ¬loop.CondAt (states n) ∧ ¬loop.PostAt (states n) ∧ loop.SortedFor n := by
  have hkept := @kept_refuted Unit τ ⟨settings, .builtIn, separator⟩ loop
    Solver.builtIn_truthful hl hord
  obtain ⟨samples, hrefuted, hne⟩ := verify_grounds hkept h fun hne => absurd rfl hne
  exact hrefuted hne

def miscounting : Loop := { counting with post := .cmp .eq (.var ⟨"x", some 2⟩) (.int 4) }

theorem run_of_verify_disproved_miscounting :
    Report.verdict <$> (verify ⟨{ initialSamples := 0 }, .builtIn, unable⟩ miscounting
      (fun _ => ⟨0⟩) ⟨⟨(), 0⟩, (), 0, none⟩).1 = .ok .disproved ∧
    ∃ n states, miscounting.Run n states ∧ ¬miscounting.CondAt (states n) ∧
      ¬miscounting.PostAt (states n) ∧ miscounting.SortedFor n := by
  have hverdict : Report.verdict <$> (verify ⟨{ initialSamples := 0 }, .builtIn, unable⟩
      miscounting (fun _ => ⟨0⟩) ⟨⟨(), 0⟩, (), 0, none⟩).1 = .ok .disproved := by
    decide +kernel
  exact ⟨hverdict, run_of_verify_disproved (by decide) (by decide) hverdict⟩

end LoopInvariant.Verifier
