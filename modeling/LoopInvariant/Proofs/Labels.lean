import LoopInvariant.Proofs.Phases

/-! The labels of samples are right for every invariant. Points that are filed as positive lie in
each set of states that proves the loop correct, points that are filed as negative lie in none, and
with a counterexample there is no such set. -/
namespace LoopInvariant

namespace Trace

variable {σ : Type} {o : Oracle σ} {l : Loop} {I : l.State → Prop}

lemma Follows.forall_mem {first : Point} {states : List Point} {stuck : Bool}
    (h : Follows l first states stuck) (hI : l.Invariant I) (hfirst : I (l.ofPoint first)) :
    ∀ p ∈ states, I (l.ofPoint p) := by
  apply h.chain.induction fun p => I (l.ofPoint p)
  · intro p q hpq hp
    exact hI.consecution _ _ hp hpq.1 hpq.2
  · obtain ⟨rest, rfl⟩ := h.head
    exact fun _ => hfirst

/-- A run that ends outside an invariant was never in it. -/
lemma Follows.forall_not_mem {first : Point} {states : List Point} {stuck : Bool}
    (h : Follows l first states stuck) (hI : l.Invariant I)
    (hlast : ¬I (l.ofPoint (states.getLastD first))) : ∀ p ∈ states, ¬I (l.ofPoint p) := by
  apply h.chain.backwards_induction fun p => ¬I (l.ofPoint p)
  · intro p q hpq hq hp
    exact hq (hI.consecution _ _ hp hpq.1 hpq.2)
  · intro hne
    rw [List.getLastD_eq_getLast?, List.getLast?_eq_some_getLast hne] at hlast
    exact hlast

lemma forall_mem_of_positive (ho : o.solver.Truthful) (hl : l.Scoped) (hord : l.Ordered)
    {start : Point} {limit : ℕ} {states : List Point} {s t : Oracle.State σ}
    (h : classify o l start limit s = (.ok (.positive, states), t)) (hI : l.Invariant I) :
    ∀ p ∈ states, I (l.ofPoint p) := by
  obtain ⟨inPre, stuck, inPost, hclass, hfollows, _, hpre, _, _⟩ :=
    classify_follows ho hl.staged hord h
  have hin : inPre = true := by
    revert hclass
    cases inPre <;> cases stuck <;> cases inPost <;> simp [Class.ofFlags]
  exact hfollows.forall_mem hI (hI.initiation _ (hpre.mp hin))

lemma forall_not_mem_of_negative (ho : o.solver.Truthful) (hl : l.Scoped) (hord : l.Ordered)
    {start : Point} {limit : ℕ} {states : List Point} {s t : Oracle.State σ}
    (h : classify o l start limit s = (.ok (.negative, states), t)) (hI : l.Invariant I) :
    ∀ p ∈ states, ¬I (l.ofPoint p) := by
  obtain ⟨inPre, stuck, inPost, hclass, hfollows, _, _, _, hpost⟩ :=
    classify_follows ho hl.staged hord h
  have hflags : stuck = false ∧ inPost = false := by
    revert hclass
    cases inPre <;> cases stuck <;> cases inPost <;> simp [Class.ofFlags]
  have hexit : ¬l.CondAt (l.ofPoint (states.getLastD start)) := by
    rw [← hfollows.cond, hflags.1]
    exact Bool.false_ne_true
  have hbad : ¬l.PostAt (l.ofPoint (states.getLastD start)) := by
    rw [← hpost, hflags.2]
    exact Bool.false_ne_true
  exact hfollows.forall_not_mem hI fun hlast => hbad (hI.exit _ hlast hexit)

end Trace

/-- What the labels of samples say about every set of states that proves the loop correct. -/
structure Labelled (loop : Loop) (samples : SampleSet) : Prop where
  positive : ∀ p ∈ samples.positives, p.dim = loop.dim ∧
    ∀ I : loop.State → Prop, loop.Invariant I → I (loop.ofPoint p)
  negative : ∀ p ∈ samples.negatives, p.dim = loop.dim ∧
    ∀ I : loop.State → Prop, loop.Invariant I → ¬I (loop.ofPoint p)
  counterexample : samples.counterexamples ≠ [] →
    ∀ I : loop.State → Prop, ¬loop.Invariant I

lemma Loop.Refuted.not_invariant {l : Loop} (h : l.Refuted) (I : l.State → Prop) :
    ¬l.Invariant I := by
  obtain ⟨n, states, hrun, hcond, hpost, _⟩ := h
  intro hI
  exact hpost (hI.exit _ (hI.run hrun n le_rfl) hcond)

namespace Verifier

variable {σ τ : Type} {v : Verifier σ τ} {loop : Loop}

lemma kept_labelled (ho : v.solver.Truthful) (hl : loop.Scoped) (hord : loop.Ordered) :
    Kept v loop (Labelled loop) := by
  refine ⟨fun samples hs => ⟨hs.positive, hs.negative, hs.counterexample⟩, ?_,
    fun samples points hs => ⟨hs.positive, hs.negative, hs.counterexample⟩⟩
  intro samples start c states s t hs hc
  cases c with
  | counterexample =>
    have hrefuted := Trace.run_of_counterexample ho hl.staged hord hc
    exact ⟨hs.positive, hs.negative, fun _ I => hrefuted.not_invariant I⟩
  -- an invariant contains the start of the run, and so all of it
  | positive =>
    refine ⟨List.forall_mem_append.mpr ⟨hs.positive, fun p hp => ?_⟩, hs.negative,
      hs.counterexample⟩
    exact ⟨Trace.classify_dim hc p hp,
      fun I hI => Trace.forall_mem_of_positive ho hl hord hc hI p hp⟩
  -- no invariant contains the end of the run, and so none of it
  | negative =>
    refine ⟨hs.positive, List.forall_mem_append.mpr ⟨hs.negative, fun p hp => ?_⟩,
      hs.counterexample⟩
    exact ⟨Trace.classify_dim hc p hp,
      fun I hI => Trace.forall_not_mem_of_negative ho hl hord hc hI p hp⟩
  | undetermined => exact ⟨hs.positive, hs.negative, hs.counterexample⟩
  | unknown => exact ⟨hs.positive, hs.negative, hs.counterexample⟩

/-- In every phase of a verification, up to its end, positive samples are in all invariants and
negative samples in none, and once there is a counterexample no invariant exists. -/
theorem labels_of_trail (settings : Settings) (separator : Separator τ) (clock : ℕ → Duration)
    (s : State Unit τ) (hl : loop.Scoped) (hord : loop.Ordered) :
    (∀ n, Labelled loop (trail ⟨settings, .builtIn, separator⟩ clock loop s n).run.samples) ∧
      ∃ n log, trail ⟨settings, .builtIn, separator⟩ clock loop s n =
        ⟨.done (refine ⟨settings, .builtIn, separator⟩ clock loop
            (settings.maxRounds.getD maxCount) (begin ⟨settings, .builtIn, separator⟩ loop s)).1,
          (refine ⟨settings, .builtIn, separator⟩ clock loop
            (settings.maxRounds.getD maxCount) (begin ⟨settings, .builtIn, separator⟩ loop s)).2,
          log⟩ := by
  have hkept := @kept_labelled Unit τ ⟨settings, .builtIn, separator⟩ loop
    Solver.builtIn_truthful hl hord
  have hbegin : Labelled loop (begin ⟨settings, .builtIn, separator⟩ loop s).samples := by
    rw [samples_begin]
    exact ⟨by simp, by simp, fun hne => absurd rfl hne⟩
  exact ⟨trail_kept hkept hbegin, exists_trail_done ⟨settings, .builtIn, separator⟩ clock loop s⟩

/-- The first samples of a loop in one variable are zero and four. -/
def twoSamples : Settings where
  initialSamples := 2
  sampleLow := 0
  sampleHigh := 5
  seed := 67

lemma invariant_countingExactly :
    countingExactly.Invariant fun s => 0 ≤ count s ∧ count s ≤ 3 := by
  have hbefore (s : countingExactly.State) :
      countingExactly.reading StateVar.before s ⟨"x", some 1⟩ = count s :=
    reading_countingExactly StateVar.before (fun _ => rfl) s
  have hpre (s : countingExactly.State) : countingExactly.PreAt s ↔ count s = 0 := by
    rw [← hbefore s]
    exact decide_eq_true_iff
  have hcond (s : countingExactly.State) : countingExactly.CondAt s ↔ count s < 3 := by
    rw [← hbefore s]
    exact decide_eq_true_iff
  have hbody (s s' : countingExactly.State) (h : countingExactly.BodyAt s s') :
      count s' = count s + 1 := by
    obtain ⟨ρ, hs, hs', htrue⟩ := h
    rw [count, count, ← hs ⟨0, Nat.one_pos⟩, ← hs' ⟨0, Nat.one_pos⟩]
    exact of_decide_eq_true htrue
  refine ⟨fun s h => ?_, fun s s' hI hc hb => ?_, fun s hI hc => ?_⟩
  · rw [hpre] at h
    omega
  · rw [hcond] at hc
    have hnext := hbody s s' hb
    omega
  · rw [hcond] at hc
    rw [postAt_countingExactly]
    omega

theorem labels_of_trail_countingExactly :
    (trail ⟨twoSamples, .builtIn, unable⟩ (fun _ => ⟨0⟩) countingExactly ⟨⟨(), 0⟩, (), 0, none⟩
      3).run.samples =
        { positives := [⟨[0]⟩, ⟨[1]⟩, ⟨[2]⟩, ⟨[3]⟩], negatives := [⟨[4]⟩] } ∧
    countingExactly.Scoped ∧ countingExactly.Ordered ∧ (∃ I, countingExactly.Invariant I) ∧
    ∀ I, countingExactly.Invariant I →
      I (countingExactly.ofPoint ⟨[2]⟩) ∧ ¬I (countingExactly.ofPoint ⟨[4]⟩) := by
  have hsamples : (trail ⟨twoSamples, .builtIn, unable⟩ (fun _ => ⟨0⟩) countingExactly
      ⟨⟨(), 0⟩, (), 0, none⟩ 3).run.samples =
        { positives := [⟨[0]⟩, ⟨[1]⟩, ⟨[2]⟩, ⟨[3]⟩], negatives := [⟨[4]⟩] } := by
    decide +kernel
  have hscoped : countingExactly.Scoped := by decide
  have hordered : countingExactly.Ordered := by decide
  have hlabels := (labels_of_trail twoSamples unable (fun _ => ⟨0⟩) ⟨⟨(), 0⟩, (), 0, none⟩
    hscoped hordered).1 3
  rw [hsamples] at hlabels
  refine ⟨hsamples, hscoped, hordered, ⟨_, invariant_countingExactly⟩, fun I hI => ⟨?_, ?_⟩⟩
  · exact (hlabels.positive ⟨[2]⟩ (by decide)).2 I hI
  · exact (hlabels.negative ⟨[4]⟩ (by decide)).2 I hI

end Verifier
end LoopInvariant
