import LoopInvariant.Proofs.Phases

/-! What a verification counts is what happened. When a candidate is to be learned, every point that
was ever left for later has been followed exactly once, in order, and the samples are the states of
those runs. Rounds are candidates, the limit on them is never exceeded, and it is reported only
after that many candidates have been rejected. -/
namespace LoopInvariant

lemma SampleSet.size_extend (samples : SampleSet) (c : Class) (points : List Point) :
    (samples.extend c points).size = samples.size + points.length := by
  cases c <;> simp only [extend, size, List.length_append] <;> omega

lemma SampleSet.unknown_extend {c : Class} (hc : c ≠ .unknown) (samples : SampleSet)
    (points : List Point) : (samples.extend c points).unknown = samples.unknown := by
  cases c with
  | unknown => exact absurd rfl hc
  | counterexample | positive | negative | undetermined => rfl

lemma SampleSet.size_takeUnknown (samples : SampleSet) :
    samples.takeUnknown.2.size + samples.unknown.length = samples.size := by
  simp only [takeUnknown, size, List.length_nil]
  omega

lemma Trace.classify_ne_unknown {σ : Type} {o : Oracle σ} {l : Loop} {start : Point} {limit : ℕ}
    {c : Class} {states : List Point} {s t : Oracle.State σ}
    (h : classify o l start limit s = (.ok (c, states), t)) : c ≠ .unknown := by
  rw [classify, Task.bind_eq_ok] at h
  obtain ⟨_, _, _, h⟩ := h
  obtain ⟨inPre, _, _, h⟩ := Task.bind_eq_ok.mp h
  obtain ⟨⟨visited, stuck⟩, _, _, h⟩ := Task.bind_eq_ok.mp h
  obtain ⟨_, _, _, h⟩ := Task.bind_eq_ok.mp h
  obtain ⟨inPost, _, _, h⟩ := Task.bind_eq_ok.mp h
  have hclass := (Prod.mk.inj (Task.pure_eq_ok.mp h).1).1
  rw [← hclass]
  cases inPre <;> cases stuck <;> cases inPost <;> simp [Class.ofFlags]

namespace Verifier

variable {σ τ : Type} {v : Verifier σ τ} {clock : ℕ → Duration} {loop : Loop}

namespace Phase

def Open : Phase → Prop
  | .done _ => False
  | _ => True

/-- Points have been taken out and no new ones are left for later yet. -/
def Emptied : Phase → Prop
  | .classifying | .done _ => False
  | _ => True

def waiting : Phase → List Point
  | .following points => points
  | _ => []

def unchecked : Phase → List Expr
  | .checking inv _ => [inv]
  | _ => []

end Phase

lemma Fails.counts {p : Phase} {r r' : Run σ τ} {f : Failure} (h : Fails v clock loop p r f r') :
    r'.classified = r.classified ∧ r.rounds ≤ r'.rounds ∧
      (r.rounds ≤ v.roundCap → r'.rounds ≤ v.roundCap) := by
  cases h with
  | learning hr h => exact ⟨rfl, Nat.le_succ _, fun _ => hr⟩
  | late | following | uncounted | checking | refining => exact ⟨rfl, le_rfl, id⟩

/-! ### Points -/

/-- Where the points are that were ever left for later, and where those in the samples come from. -/
structure Filed (t : Snapshot σ τ) : Prop where
  classified : t.run.classified = t.log.starts.length
  size : t.run.samples.size = t.run.samples.unknown.length + (t.log.runs.map List.length).sum
  awaited : t.phase.Open →
    t.log.awaited = t.log.starts ++ t.phase.waiting ++ t.run.samples.unknown
  emptied : t.phase.Emptied → t.run.samples.unknown = []

lemma filed_start (s : State σ τ) : Filed (v.start loop s) := by
  refine ⟨rfl, ?_, fun _ => ?_, False.elim⟩
  · simp [start, samples_begin, SampleSet.size, Log.collect]
  · simp [start, samples_begin, Log.collect, Phase.waiting]

lemma filed_take {r : Run σ τ} {bench : Learner.Bench σ τ} {log : Log}
    (h : Filed ⟨.classifying, r, log⟩) :
    Filed ⟨.following r.samples.unknown, { r with bench, samples := r.samples.takeUnknown.2 },
      log⟩ := by
  have hsize : r.samples.size = r.samples.unknown.length + (log.runs.map List.length).sum := h.size
  have htaken := r.samples.size_takeUnknown
  refine ⟨h.classified, ?_, fun _ => ?_, fun _ => rfl⟩
  · change r.samples.takeUnknown.2.size = 0 + (log.runs.map List.length).sum
    omega
  · have hawaited := h.awaited trivial
    simpa [Phase.waiting, SampleSet.takeUnknown] using hawaited

lemma filed_follow {p : Point} {ps states : List Point} {c : Class} {r : Run σ τ}
    {bench : Learner.Bench σ τ} {log : Log} (hc : c ≠ .unknown)
    (h : Filed ⟨.following (p :: ps), r, log⟩) :
    Filed ⟨.following ps,
      { r with
        bench
        samples := r.samples.extend c states
        classified := r.classified + 1 },
      log ++ [.followed p states]⟩ := by
  have hsize : r.samples.size = r.samples.unknown.length +
      ((log.collect Event.runs).map List.length).sum := h.size
  have hunknown := SampleSet.unknown_extend hc r.samples states
  refine ⟨?_, ?_, fun _ => ?_, fun _ => hunknown.trans (h.emptied trivial)⟩
  · simpa using h.classified
  · simp only [SampleSet.size_extend, hunknown, Log.collect_concat, Event.runs, List.map_append,
      List.map_cons, List.map_nil, List.sum_append, List.sum_cons, List.sum_nil]
    omega
  · have hawaited := h.awaited trivial
    simpa [hunknown, Phase.waiting] using hawaited

lemma filed_refine {witness : Point} {hs : List Halfspace} {points : List Point} {r : Run σ τ}
    {log : Log} (h : Filed ⟨.refining witness hs, r, log⟩) :
    Filed ⟨.classifying, { r with samples := r.samples.extend .unknown points },
      log ++ [.awaited points]⟩ := by
  have hsize : r.samples.size = r.samples.unknown.length +
      ((log.collect Event.runs).map List.length).sum := h.size
  have hunknown : (r.samples.extend .unknown points).unknown = r.samples.unknown ++ points := rfl
  refine ⟨?_, ?_, fun _ => ?_, False.elim⟩
  · simpa using h.classified
  · simp only [SampleSet.size_extend, hunknown, List.length_append, Log.collect_concat, Event.runs,
      List.append_nil]
    omega
  · have hawaited : log.awaited = log.starts ++ [] ++ r.samples.unknown := h.awaited trivial
    simp [hawaited, hunknown, Phase.waiting]

lemma Filed.same {p p' : Phase} {r r' : Run σ τ} {log log' : Log} (h : Filed ⟨p, r, log⟩)
    (hopen : p.Open) (hemptied : p.Emptied) (hp : p.waiting = p'.waiting)
    (hclassified : r'.classified = r.classified) (hsamples : r'.samples = r.samples)
    (hawaited : log'.awaited = log.awaited) (hstarts : log'.starts = log.starts)
    (hruns : log'.runs = log.runs) : Filed ⟨p', r', log'⟩ := by
  refine ⟨?_, ?_, fun _ => ?_, fun _ => ?_⟩
  · simpa only [hclassified, hstarts] using h.classified
  · simpa only [hsamples, hruns] using h.size
  · simpa only [hsamples, hawaited, hstarts, hp] using h.awaited hopen
  · simpa only [hsamples] using h.emptied hemptied

lemma step_filed {t u : Snapshot σ τ} (h : Step v clock loop t u) (ht : Filed t) : Filed u := by
  cases h with
  | rest => exact ht
  | take => exact filed_take ht
  | follow h => exact filed_follow (Trace.classify_ne_unknown h) ht
  | turn => exact ht.same trivial trivial rfl rfl rfl rfl rfl rfl
  | learn hr h =>
    exact ht.same trivial trivial rfl rfl rfl (by simp) (by simp) (by simp)
  | reject h =>
    exact ht.same trivial trivial rfl rfl rfl (by simp) (by simp) (by simp)
  | refine h => exact filed_refine ht
  | limit | disprove | accept => exact ⟨ht.classified, ht.size, False.elim, False.elim⟩
  | fail h =>
    refine ⟨h.counts.1.trans ht.classified, ?_, False.elim, False.elim⟩
    simpa only [h.samples_eq] using ht.size

theorem trail_filed (v : Verifier σ τ) (clock : ℕ → Duration) (loop : Loop) (s : State σ τ)
    (n : ℕ) : Filed (v.trail clock loop s n) :=
  trail_induction (filed_start s) (fun _ _ h ht => step_filed h ht) n

lemma Filed.learning {t : Snapshot σ τ} (h : Filed t) (ht : t.phase = .learning) :
    t.run.samples.unknown = [] ∧ t.log.starts = t.log.awaited ∧
      t.run.classified = t.log.awaited.length ∧
      t.run.samples.size = (t.log.runs.map List.length).sum := by
  have hunknown : t.run.samples.unknown = [] := h.emptied (by rw [ht]; trivial)
  have hawaited := h.awaited (by rw [ht]; trivial)
  have hsize := h.size
  have hwaiting : t.phase.waiting = [] := by
    rw [ht]
    rfl
  rw [hwaiting, hunknown, List.append_nil, List.append_nil] at hawaited
  rw [hunknown, List.length_nil, Nat.zero_add] at hsize
  exact ⟨hunknown, hawaited.symm, hawaited ▸ h.classified, hsize⟩

/-! ### Rounds -/

/-- Some check of the formula found a state where it fails. -/
def Rejects (v : Verifier σ τ) (loop : Loop) (inv : Expr) : Prop :=
  ∃ c witness q q', Obligation.check v.oracle loop inv q = (.ok (.invalid c witness), q')

/-- Where the candidates are that were ever learned. A round that fails, or that ends in a disproof,
has no candidate. -/
structure Tallied (v : Verifier σ τ) (loop : Loop) (t : Snapshot σ τ) : Prop where
  candidates : t.log.candidates.length ≤ t.run.rounds
  rounds : t.run.rounds ≤ v.roundCap
  learned : t.phase.Open → t.run.rounds = t.log.candidates.length
  checked : t.phase.Open → t.log.candidates = t.log.rejected ++ t.phase.unchecked
  rejects : ∀ inv ∈ t.log.rejected, v.Rejects loop inv
  limit : ∀ k, t.phase = .done (.ok (.inconclusive (.roundLimit k))) →
    v.settings.maxRounds = some k ∧ t.log.candidates.length = k ∧
      t.log.rejected = t.log.candidates

lemma tallied_start (s : State σ τ) : Tallied v loop (v.start loop s) := by
  refine ⟨le_rfl, Nat.zero_le _, fun _ => rfl, fun _ => rfl, ?_, fun k hk => ?_⟩
  · simp [start, Log.collect]
  · cases hk

lemma Tallied.same {p p' : Phase} {r r' : Run σ τ} {log log' : Log}
    (h : Tallied v loop ⟨p, r, log⟩) (hopen : p.Open) (hp : p.unchecked = p'.unchecked)
    (hp' : p'.Open) (hrounds : r'.rounds = r.rounds) (hlearned : log'.candidates = log.candidates)
    (hrejected : log'.rejected = log.rejected) : Tallied v loop ⟨p', r', log'⟩ := by
  refine ⟨?_, ?_, fun _ => ?_, fun _ => ?_, ?_, fun k hk => ?_⟩
  · simpa only [hrounds, hlearned] using h.candidates
  · simpa only [hrounds] using h.rounds
  · simpa only [hrounds, hlearned] using h.learned hopen
  · simpa only [hlearned, hrejected, hp] using h.checked hopen
  · simpa only [hrejected] using h.rejects
  · have hdone : p' = .done (.ok (.inconclusive (.roundLimit k))) := hk
    rw [hdone] at hp'
    exact hp'.elim

/-- A verification that ends otherwise than by the limit may have begun one more round. -/
lemma Tallied.ended {p : Phase} {r r' : Run σ τ} {log : Log} {result : Result Verdict}
    (h : Tallied v loop ⟨p, r, log⟩) (hle : r.rounds ≤ r'.rounds) (hcap : r'.rounds ≤ v.roundCap)
    (hresult : ∀ k, result ≠ .ok (.inconclusive (.roundLimit k))) :
    Tallied v loop ⟨.done result, r', log⟩ := by
  refine ⟨h.candidates.trans hle, hcap, False.elim, False.elim, h.rejects, fun k hk => ?_⟩
  exact absurd (Phase.done.inj hk) (hresult k)

lemma tallied_limit {r : Run σ τ} {log : Log} {n : ℕ} (hm : v.settings.maxRounds = some n)
    (hn : n ≤ r.rounds) (h : Tallied v loop ⟨.learning, r, log⟩) :
    Tallied v loop ⟨.done (.ok (.inconclusive (.roundLimit n))), r, log⟩ := by
  refine ⟨h.candidates, h.rounds, False.elim, False.elim, h.rejects, fun k hk => ?_⟩
  cases hk
  -- the cap is reached exactly, and nothing is left unchecked when learning
  have hcap : r.rounds ≤ n := by
    have hrounds : r.rounds ≤ v.roundCap := h.rounds
    rwa [roundCap, hm] at hrounds
  have hlearned : r.rounds = log.candidates.length := h.learned trivial
  have hchecked : log.candidates = log.rejected ++ [] := h.checked trivial
  refine ⟨hm, ?_, ?_⟩
  · change log.candidates.length = n
    omega
  · rw [List.append_nil] at hchecked
    exact hchecked.symm

lemma tallied_learn {r : Run σ τ} {bench : Learner.Bench σ τ} {log : Log} {inv : Expr}
    {hs : List Halfspace} (hr : r.rounds < v.roundCap) (h : Tallied v loop ⟨.learning, r, log⟩) :
    Tallied v loop ⟨.checking inv hs, { r with bench, rounds := r.rounds + 1 },
      log ++ [.learned inv]⟩ := by
  have hlearned : r.rounds = log.candidates.length := h.learned trivial
  have hchecked : log.candidates = log.rejected ++ [] := h.checked trivial
  refine ⟨?_, hr, fun _ => ?_, fun _ => ?_, ?_, fun k hk => ?_⟩
  · simp [hlearned]
  · simp [hlearned]
  · simpa [Phase.unchecked] using hchecked
  · simpa using h.rejects
  · cases hk

lemma tallied_reject {inv : Expr} {hs : List Halfspace} {witness : Point} {r : Run σ τ}
    {bench : Learner.Bench σ τ} {log : Log} (hinv : v.Rejects loop inv)
    (h : Tallied v loop ⟨.checking inv hs, r, log⟩) :
    Tallied v loop ⟨.refining witness hs, { r with bench }, log ++ [.rejected inv]⟩ := by
  have hchecked : log.candidates = log.rejected ++ [inv] := h.checked trivial
  refine ⟨?_, h.rounds, fun _ => ?_, fun _ => ?_, ?_, fun k hk => ?_⟩
  · simpa using h.candidates
  · simpa using h.learned trivial
  · simpa [Phase.unchecked] using hchecked
  · rw [Log.rejected, Log.collect_concat]
    exact List.forall_mem_append.mpr ⟨h.rejects, List.forall_mem_singleton.mpr hinv⟩
  · cases hk

lemma step_tallied {t u : Snapshot σ τ} (h : Step v clock loop t u) (ht : Tallied v loop t) :
    Tallied v loop u := by
  cases h with
  | rest => exact ht
  | take => exact ht.same trivial rfl trivial rfl rfl rfl
  | follow h => exact ht.same trivial rfl trivial rfl (by simp) (by simp)
  | turn => exact ht.same trivial rfl trivial rfl rfl rfl
  | limit hm hn => exact tallied_limit hm hn ht
  | disprove hr => exact ht.ended (Nat.le_succ _) hr (by simp)
  | learn hr h => exact tallied_learn hr ht
  | accept => exact ht.ended le_rfl ht.rounds (by simp)
  | reject h => exact tallied_reject ⟨_, _, _, _, h⟩ ht
  | refine h => exact ht.same trivial rfl trivial rfl (by simp) (by simp)
  | fail h =>
    obtain ⟨_, hle, hcap⟩ := h.counts
    exact ht.ended hle (hcap ht.rounds) (by simp)

theorem trail_tallied (v : Verifier σ τ) (clock : ℕ → Duration) (loop : Loop) (s : State σ τ)
    (n : ℕ) : Tallied v loop (v.trail clock loop s n) :=
  trail_induction (tallied_start s) (fun _ _ h ht => step_tallied h ht) n

/-- The limit on rounds is no error that was turned into a verdict. -/
lemma conclude_eq_roundLimit {timeout : Option Duration} {result : Result Verdict} {k : ℕ}
    (h : conclude timeout result = .ok (.inconclusive (.roundLimit k))) :
    result = .ok (.inconclusive (.roundLimit k)) := by
  unfold conclude at h
  split at h
  · rename_i e
    cases e <;> simp [Reason.ofError?] at h
  · exact h

/-- Whenever a candidate is to be learned, no point waits for its class, all points that were ever
left for later have been followed, they are as many as were counted, and the samples are as many as
the states of their runs. With a limit on rounds, the verification ends, neither the candidates nor
the rounds exceed the limit, and it is reported only if just so many candidates were learned and
all of them were rejected. -/
theorem trail_accounts (v : Verifier σ τ) (clock : ℕ → Duration) (loop : Loop) (s : State σ τ) :
    (∀ n, (v.trail clock loop s n).phase = .learning →
      (v.trail clock loop s n).run.samples.unknown = [] ∧
      (v.trail clock loop s n).log.starts = (v.trail clock loop s n).log.awaited ∧
      (v.trail clock loop s n).run.classified = (v.trail clock loop s n).log.awaited.length ∧
      (v.trail clock loop s n).run.samples.size =
        ((v.trail clock loop s n).log.runs.map List.length).sum) ∧
    ∀ limit, v.settings.maxRounds = some limit →
      (∀ n, (v.trail clock loop s n).log.candidates.length ≤ limit ∧
        (v.trail clock loop s n).run.rounds ≤ limit) ∧
      (∃ n result, (v.trail clock loop s n).phase = .done result) ∧
      (∀ report, (v.verify loop clock s).1 = .ok report → report.stats.rounds ≤ limit) ∧
      ∀ k, Report.verdict <$> (v.verify loop clock s).1 = .ok (.inconclusive (.roundLimit k)) →
        k = limit ∧ ∃ n,
          (v.trail clock loop s n).phase = .done (.ok (.inconclusive (.roundLimit limit))) ∧
          (v.trail clock loop s n).log.candidates.length = limit ∧
          (v.trail clock loop s n).log.rejected = (v.trail clock loop s n).log.candidates ∧
          ∀ inv ∈ (v.trail clock loop s n).log.candidates, v.Rejects loop inv := by
  refine ⟨fun n hphase => (v.trail_filed clock loop s n).learning hphase, fun limit hlimit => ?_⟩
  have hcap : v.roundCap = limit := by rw [roundCap, hlimit, Option.getD_some]
  have hrounds (n : ℕ) : (v.trail clock loop s n).run.rounds ≤ limit :=
    hcap ▸ (v.trail_tallied clock loop s n).rounds
  refine ⟨fun n => ⟨(v.trail_tallied clock loop s n).candidates.trans (hrounds n), hrounds n⟩,
    ?_, fun report hreport => ?_, fun k hreport => ?_⟩
  · obtain ⟨n, log, hn⟩ := exists_trail_done v clock loop s
    exact ⟨n, _, by rw [hn]⟩
  · obtain ⟨n, result, _, _, hstats⟩ := exists_trail_of_verify hreport
    rw [hstats.1]
    exact hrounds n
  · obtain ⟨report, hreport, hlast⟩ := Result.map_eq_ok.mp hreport
    obtain ⟨n, result, hphase, hverdict, _⟩ := exists_trail_of_verify hreport
    rw [hlast] at hverdict
    rw [conclude_eq_roundLimit hverdict] at hphase
    have htally := v.trail_tallied clock loop s n
    obtain ⟨hk, hlength, hrejected⟩ := htally.limit k hphase
    rw [hlimit, Option.some_inj] at hk
    subst hk
    exact ⟨rfl, n, hphase, hlength, hrejected, hrejected ▸ htally.rejects⟩

def oneRound : Settings where
  initialSamples := 0
  maxRounds := some 1

theorem trail_accounts_oneRound :
    oneRound.maxRounds = some 1 ∧
    Report.verdict <$> (verify ⟨oneRound, .builtIn, unable⟩ miscounting (fun _ => ⟨0⟩)
      ⟨⟨(), 0⟩, (), 0, none⟩).1 = .ok (.inconclusive (.roundLimit 1)) ∧
    ∃ n, (trail ⟨oneRound, .builtIn, unable⟩ (fun _ => ⟨0⟩) miscounting ⟨⟨(), 0⟩, (), 0, none⟩
      n).log.candidates.length = 1 := by
  have hverdict : Report.verdict <$> (verify ⟨oneRound, .builtIn, unable⟩ miscounting
      (fun _ => ⟨0⟩) ⟨⟨(), 0⟩, (), 0, none⟩).1 = .ok (.inconclusive (.roundLimit 1)) := by
    decide +kernel
  have haccounts := trail_accounts ⟨oneRound, .builtIn, unable⟩ (fun _ => ⟨0⟩) miscounting
    ⟨⟨(), 0⟩, (), 0, none⟩
  obtain ⟨_, n, _, hlength, _⟩ := (haccounts.2 1 rfl).2.2.2 1 hverdict
  exact ⟨rfl, hverdict, n, hlength⟩

end Verifier
end LoopInvariant
