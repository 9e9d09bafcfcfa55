import LoopInvariant.Proofs.Dimensions

/-! What a verification reports. Dimensions agree in every phase, so that no point is refused and no
training set is incomplete. An error is about the settings, the formulas or the size of numbers;
where a limit was reached there is a verdict that says so. -/
namespace LoopInvariant

open Result LoopInvariant.Task

namespace Random

variable {α β : Type}

lemma mapM_cons (f : α → Drawing β) (x : α) (xs : List α) (r : Random) :
    ((x :: xs).mapM f r).1 = (f x r).1 :: (xs.mapM f (f x r).2).1 := by
  rw [List.mapM_cons]
  rfl

lemma length_mapM (f : α → Drawing β) (xs : List α) (r : Random) :
    (xs.mapM f r).1.length = xs.length := by
  induction xs generalizing r with
  | nil => rfl
  | cons x xs ih => rw [mapM_cons, List.length_cons, ih, List.length_cons]

lemma forall_mem_mapM {f : α → Drawing β} {q : β → Prop} (h : ∀ x r, q (f x r).1) (xs : List α)
    (r : Random) : ∀ y ∈ (xs.mapM f r).1, q y := by
  induction xs generalizing r with
  | nil =>
    intro y hy
    cases hy
  | cons x xs ih =>
    rw [mapM_cons, List.forall_mem_cons]
    exact ⟨h x r, ih _⟩

end Random

/-- What is still a failure when giving up is not. -/
def Failure.Reported : Failure → Prop
  | .error e => e.Reported
  | .fault f => f ≠ .dimension

lemma Error.GivesUp.exists_reason {e : Error} (h : e.GivesUp) (timeout : Option Duration) :
    ∃ reason, Reason.ofError? timeout e = some reason := by
  cases h <;> exact ⟨_, rfl⟩

lemma Error.Reported.no_reason {e : Error} (h : e.Reported) (timeout : Option Duration) :
    Reason.ofError? timeout e = none := by
  cases h <;> rfl

lemma SampleSet.Sized.takeUnknown {d : ℕ} {samples : SampleSet} (h : samples.Sized d) :
    samples.takeUnknown.2.Sized d := by
  intro c
  cases c with
  | unknown => simp [SampleSet.takeUnknown, SampleSet.get]
  | counterexample => exact h .counterexample
  | positive => exact h .positive
  | negative => exact h .negative
  | undetermined => exact h .undetermined

lemma SampleSet.get_extend (samples : SampleSet) (c c' : Class) (points : List Point) :
    (samples.extend c points).get c' =
      if c' = c then samples.get c' ++ points else samples.get c' := by
  cases c <;> cases c' <;> rfl

lemma SampleSet.Sized.extend {d : ℕ} {samples : SampleSet} (h : samples.Sized d) (c : Class)
    {points : List Point} (hpoints : ∀ p ∈ points, p.dim = d) :
    (samples.extend c points).Sized d := by
  intro c'
  rw [SampleSet.get_extend]
  split_ifs
  · exact List.forall_mem_append.mpr ⟨h c', hpoints⟩
  · exact h c'

namespace Verifier

variable {σ τ : Type} {v : Verifier σ τ} {clock : ℕ → Duration} {loop : Loop}

lemma dim_firstSamples (settings : Settings) (d : ℕ) (r : Random) :
    ∀ p ∈ (firstSamples settings d r).1, p.dim = d := by
  apply Random.forall_mem_mapM
  intro _ r
  change (((List.range d).mapM fun _ =>
    Random.integer settings.sampleLow settings.sampleHigh) r).1.length = d
  rw [Random.length_mapM, List.length_range]

structure Reliable (v : Verifier σ τ) (loop : Loop) : Prop where
  dependable : v.solver.Dependable
  truthful : v.solver.Truthful
  separator : v.separator.Dependable
  names : loop.names.Nodup

lemma ensures_learn (hv : v.Reliable loop) (clock : ℕ → Duration) (r : Run σ τ)
    (hr : r.samples.Sized loop.dim) :
    Result.Ensures (v.learn clock loop r).1 Failure.Expected (Learned.Sized loop.dim) := by
  rw [learn, Task.bind_of_ok (Task.get_apply r)]
  cases v.settings.strategy with
  | conjunctive =>
    have hlearner : (v.learner clock).separator.Dependable := hv.separator
    exact (Learner.ensures_conjunctive hlearner hr).on.on r
  | disjunctive onCond =>
    have hlearner : (v.learner clock).separator.Dependable := hv.separator
    have horacle : v.oracle.solver.Dependable := hv.dependable
    exact (Learner.ensures_disjunctive hlearner horacle hv.truthful hv.names hr onCond).on r

def Phase.Sized (d : ℕ) : Phase → Prop
  | .classifying | .learning => True
  | .following points => ∀ p ∈ points, p.dim = d
  | .checking _ hs => ∀ h ∈ hs, h.coeffs.length = d
  | .refining witness hs => witness.dim = d ∧ ∀ h ∈ hs, h.coeffs.length = d
  | .done result => FailsOnly result Failure.Expected

structure Sized (loop : Loop) (t : Snapshot σ τ) : Prop where
  samples : t.run.samples.Sized loop.dim
  phase : t.phase.Sized loop.dim

lemma Fails.expected (hv : v.Reliable loop) {p : Phase} {r r' : Run σ τ} {f : Failure}
    (h : Fails v clock loop p r f r') (hr : r.samples.Sized loop.dim) (hp : p.Sized loop.dim) :
    f.Expected := by
  have horacle : v.oracle.solver.Dependable := hv.dependable
  cases h with
  | late => exact .inr .deadline
  | following h =>
    exact (Trace.ensures_classify horacle (hp _ List.mem_cons_self) _).of_eq h
  | uncounted h => exact Failure.expected_arithmetic
  | learning _ h =>
    have hlearn := ensures_learn hv clock { r with rounds := r.rounds + 1 } hr
    rw [h] at hlearn
    exact hlearn
  | checking h => exact (Obligation.ensures_check horacle _).of_eq h
  | refining h =>
    have himages := ensures_reflections (fun k hk => hp.1.trans (hp.2 k hk).symm)
      v.settings.boundaryMargin
    exact himages.failsOnly _ h

lemma step_sized (hv : v.Reliable loop) {t u : Snapshot σ τ} (h : Step v clock loop t u)
    (ht : Sized loop t) : Sized loop u := by
  have horacle : v.oracle.solver.Dependable := hv.dependable
  obtain ⟨hsamples, hphase⟩ := ht
  cases h with
  | rest => exact ⟨hsamples, hphase⟩
  | take => exact ⟨hsamples.takeUnknown, hsamples .unknown⟩
  | follow h =>
    obtain ⟨hp, hps⟩ := List.forall_mem_cons.mp hphase
    have hstates := (Trace.ensures_classify horacle hp _).of_eq h
    exact ⟨hsamples.extend _ hstates, hps⟩
  | turn => exact ⟨hsamples, trivial⟩
  | limit | disprove | accept => exact ⟨hsamples, failsOnly_ok _⟩
  | @learn r bench log inv hs hr h =>
    have hlearn := ensures_learn hv clock { r with rounds := r.rounds + 1 } hsamples
    rw [h] at hlearn
    exact ⟨hsamples, hlearn⟩
  | reject h =>
    have hwitness := (Obligation.ensures_check horacle _).of_eq h
    exact ⟨hsamples, hwitness, hphase⟩
  | refine h =>
    have himages := ensures_reflections (fun k hk => hphase.1.trans (hphase.2 k hk).symm)
      v.settings.boundaryMargin
    have hdim := himages.of_eq_ok h
    refine ⟨hsamples.extend .unknown (List.forall_mem_cons.mpr ⟨hphase.1, ?_⟩), trivial⟩
    exact fun q hq => (hdim q hq).trans hphase.1
  | fail h =>
    have hsame := h.samples_eq
    exact ⟨hsame ▸ hsamples, failsOnly_error (h.expected hv hsamples hphase)⟩

theorem trail_sized (hv : v.Reliable loop) (s : State σ τ) (n : ℕ) :
    Sized loop (v.trail clock loop s n) := by
  apply trail_induction
  · refine ⟨fun c => ?_, trivial⟩
    change ∀ p ∈ (v.begin loop s).samples.get c, p.dim = loop.dim
    rw [samples_begin]
    cases c with
    | unknown => exact dim_firstSamples _ _ _
    | counterexample | positive | negative | undetermined => simp [SampleSet.get]
  · exact fun t u h ht => step_sized hv h ht

lemma failsOnly_refine (hv : v.Reliable loop) (clock : ℕ → Duration) (s : State σ τ) :
    FailsOnly (v.refine clock loop v.roundCap (v.begin loop s)).1 Failure.Expected := by
  obtain ⟨n, log, hn⟩ := exists_trail_done v clock loop s
  have hsized := (trail_sized hv s n : Sized loop (v.trail clock loop s n)).phase
  rw [hn] at hsized
  exact hsized

lemma failsOnly_admissible (settings : Settings) (loop : Loop) :
    FailsOnly (admissible settings loop) Error.Reported := by
  unfold admissible
  by_cases hrange : settings.sampleLow ≥ settings.sampleHigh
  · simp only [if_pos hrange]
    exact failsOnly_error (.settings _)
  by_cases hgrowth : settings.budgetGrowth = 0
  · simp only [if_neg hrange, if_pos hgrowth]
    exact failsOnly_error (.settings _)
  by_cases hdim : loop.dim = 0
  · simp only [if_neg hrange, if_neg hgrowth, if_pos hdim]
    exact failsOnly_error (.settings _)
  · simp only [if_neg hrange, if_neg hgrowth, if_neg hdim]
    exact failsOnly_ok ()

lemma conclude_of_error (timeout : Option Duration) {e : Error} (h : e.Reported ∨ e.GivesUp) :
    (e.Reported ∧ conclude timeout (.error (.error e)) = .error (.error e)) ∨
      (e.GivesUp ∧ ∃ reason, Reason.ofError? timeout e = some reason ∧
        conclude timeout (.error (.error e)) = .ok (.inconclusive reason)) := by
  rcases h with h | h
  · left
    rw [conclude, h.no_reason timeout]
    exact ⟨h, rfl⟩
  · right
    obtain ⟨reason, hreason⟩ := h.exists_reason timeout
    rw [conclude, hreason]
    exact ⟨h, reason, rfl, rfl⟩

lemma failsOnly_conclude {timeout : Option Duration} {result : Result Verdict}
    (h : FailsOnly result Failure.Expected) :
    FailsOnly (conclude timeout result) Failure.Reported := by
  rcases result with (e | f) | verdict
  · rcases conclude_of_error timeout (h _ rfl) with ⟨he, hc⟩ | ⟨_, reason, _, hc⟩
    · rw [hc]
      exact failsOnly_error he
    · rw [hc]
      exact failsOnly_ok _
  · exact failsOnly_error (h _ rfl)
  · exact failsOnly_ok verdict

lemma verify_eq_conclude (h : admissible v.settings loop = .ok ()) (clock : ℕ → Duration)
    (s : State σ τ) :
    Report.verdict <$> (v.verify loop clock s).1 = conclude v.settings.timeout
      (v.refine clock loop v.roundCap (v.begin loop s)).1 := by
  rw [verify, h]
  change Report.verdict <$> (_ <$> _) = _
  rw [← comp_map]
  exact id_map _

lemma failsOnly_verify (hv : v.Reliable loop) (clock : ℕ → Duration) (s : State σ τ) :
    FailsOnly (v.verify loop clock s).1 Failure.Reported := by
  intro f hf
  cases ha : admissible v.settings loop with
  | error e =>
    rw [verify, ha] at hf
    cases hf
    exact failsOnly_admissible v.settings loop e ha
  | ok u =>
    rw [← Result.map_eq_error (f := Report.verdict), verify_eq_conclude ha] at hf
    exact failsOnly_conclude (failsOnly_refine hv clock s) f hf

/-- With distinct names and a separator that can be relied on, such as the one of largest margin, a
verification reports errors only about the settings, formulas outside linear arithmetic or of the
wrong kind, and numbers that are too large. Vectors of different lengths never meet. An unrolling
limit, an undecided query, a separator that does not converge and a deadline end in a verdict. -/
theorem reported_of_verify (settings : Settings) (separator : Separator τ) (clock : ℕ → Duration)
    (s : State Unit τ) (hn : loop.names.Nodup) (hsep : separator.Dependable) :
    (∀ e, (verify ⟨settings, .builtIn, separator⟩ loop clock s).1 = .error (.error e) →
      e.Reported) ∧
    (∀ f, (verify ⟨settings, .builtIn, separator⟩ loop clock s).1 = .error (.fault f) →
      f ≠ .dimension) ∧
    (∀ e, admissible settings loop = .ok () →
      (refine ⟨settings, .builtIn, separator⟩ clock loop (settings.maxRounds.getD maxCount)
        (begin ⟨settings, .builtIn, separator⟩ loop s)).1 = .error (.error e) →
      e.Reported ∨ e.GivesUp ∧ ∃ reason, Reason.ofError? settings.timeout e = some reason ∧
        Report.verdict <$> (verify ⟨settings, .builtIn, separator⟩ loop clock s).1 =
          .ok (.inconclusive reason)) ∧
    ∀ margin, (Separator.maxMargin margin).Dependable := by
  have hv : Reliable ⟨settings, .builtIn, separator⟩ loop :=
    ⟨Solver.builtIn_dependable, Solver.builtIn_truthful, hsep, hn⟩
  have hverify := failsOnly_verify hv clock s
  refine ⟨fun e he => hverify _ he, fun f hf => hverify _ hf, fun e ha he => ?_,
    Separator.maxMargin_dependable⟩
  have hexpected := failsOnly_refine hv clock s _ he
  have hreport := @verify_eq_conclude Unit τ ⟨settings, .builtIn, separator⟩ loop ha clock s
  rcases conclude_of_error settings.timeout hexpected with ⟨hr, _⟩ | ⟨hg, reason, hreason, hc⟩
  · exact .inl hr
  · refine .inr ⟨hg, reason, hreason, ?_⟩
    rw [← hc, ← he]
    exact hreport

/-- The loop takes three passes from zero, but two are the limit. -/
def hasty : Settings where
  initialSamples := 1
  sampleLow := 0
  sampleHigh := 1
  unrollLimit := 2

def squaring : Loop :=
  { counting with
    pre := .cmp .eq (.arith .mul (.var ⟨"x", some 1⟩) (.var ⟨"x", some 1⟩)) (.int 0) }

theorem reported_of_verify_hasty :
    (∃ e, (verify ⟨hasty, .builtIn, .maxMargin {}⟩ squaring (fun _ => ⟨0⟩)
      ⟨⟨(), 0⟩, (), 0, none⟩).1 = .error (.error e) ∧ e.Reported) ∧
    counting.names.Nodup ∧ (Separator.maxMargin {}).Dependable ∧
    (refine ⟨hasty, .builtIn, .maxMargin {}⟩ (fun _ => ⟨0⟩) counting 500
      (begin ⟨hasty, .builtIn, .maxMargin {}⟩ counting ⟨⟨(), 0⟩, (), 0, none⟩)).1 =
        .error (.error (.unrollLimit ⟨[0]⟩ 2)) ∧
    Report.verdict <$> (verify ⟨hasty, .builtIn, .maxMargin {}⟩ counting (fun _ => ⟨0⟩)
      ⟨⟨(), 0⟩, (), 0, none⟩).1 = .ok (.inconclusive (.unroll ⟨[0]⟩ 2)) := by
  have hsep := Separator.maxMargin_dependable {}
  have hsquare : Report.verdict <$> (verify ⟨hasty, .builtIn, .maxMargin {}⟩ squaring
      (fun _ => ⟨0⟩) ⟨⟨(), 0⟩, (), 0, none⟩).1 = .error (.error (.nonlinear "(x@1 * x@1)")) := by
    decide +kernel
  have hlimit : (refine ⟨hasty, .builtIn, .maxMargin {}⟩ (fun _ => ⟨0⟩) counting 500
      (begin ⟨hasty, .builtIn, .maxMargin {}⟩ counting ⟨⟨(), 0⟩, (), 0, none⟩)).1 =
        .error (.error (.unrollLimit ⟨[0]⟩ 2)) := by
    decide +kernel
  have hfirst := (reported_of_verify hasty (.maxMargin {}) (fun _ => ⟨0⟩) ⟨⟨(), 0⟩, (), 0, none⟩
    (by decide : squaring.names.Nodup) hsep).1
  have hsecond := (reported_of_verify hasty (.maxMargin {}) (fun _ => ⟨0⟩) ⟨⟨(), 0⟩, (), 0, none⟩
    (by decide : counting.names.Nodup) hsep).2.2.1
  have herror := Result.map_eq_error.mp hsquare
  refine ⟨⟨_, herror, hfirst _ herror⟩, by decide, hsep, hlimit, ?_⟩
  rcases hsecond _ rfl hlimit with h | ⟨_, reason, hreason, hverdict⟩
  · cases h
  · cases hreason
    exact hverdict

end Verifier
end LoopInvariant
