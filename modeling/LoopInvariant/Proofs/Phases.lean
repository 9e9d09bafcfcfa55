import LoopInvariant.Proofs.Verifier

/-! A verification as a sequence of phases. Each phase leads to the next one, and leaves its mark
in a log of what has happened: points that were left for later, runs that were followed, candidates
that were learned and candidates that were rejected. The last phase has the result. -/
namespace LoopInvariant.Verifier

open Learner (Bench)

inductive Phase where
  /-- Takes out the points that wait for a class, unless time is up. -/
  | classifying
  /-- Follows the runs from the points that were taken out. -/
  | following (points : List Point)
  | learning
  | checking (inv : Expr) (halfspaces : List Halfspace)
  | refining (witness : Point) (halfspaces : List Halfspace)
  | done (result : Result Verdict)

inductive Event where
  /-- The points are left to be classified. -/
  | awaited (points : List Point)
  /-- The run from a point is filed under its class. -/
  | followed (start : Point) (states : List Point)
  | learned (inv : Expr)
  | rejected (inv : Expr)

namespace Event

@[simp] def awaitedPoints : Event → List Point
  | .awaited points => points
  | _ => []

@[simp] def starts : Event → List Point
  | .followed start _ => [start]
  | _ => []

@[simp] def runs : Event → List (List Point)
  | .followed _ states => [states]
  | _ => []

@[simp] def candidates : Event → List Expr
  | .learned inv => [inv]
  | _ => []

@[simp] def rejections : Event → List Expr
  | .rejected inv => [inv]
  | _ => []

end Event

abbrev Log := List Event

namespace Log

/-- What the events hold of one kind, in their order. -/
def collect {α : Type} (part : Event → List α) (log : Log) : List α := log.flatMap part

@[simp] lemma collect_concat {α : Type} (part : Event → List α) (log : Log) (e : Event) :
    collect part (log ++ [e]) = collect part log ++ part e := by
  rw [collect, List.flatMap_append, List.flatMap_singleton, collect]

/-- All points that were ever left to be classified. -/
abbrev awaited (log : Log) : List Point := log.collect Event.awaitedPoints

abbrev starts (log : Log) : List Point := log.collect Event.starts

abbrev runs (log : Log) : List (List Point) := log.collect Event.runs

abbrev candidates (log : Log) : List Expr := log.collect Event.candidates

abbrev rejected (log : Log) : List Expr := log.collect Event.rejections

end Log

structure Snapshot (σ τ : Type) where
  phase : Phase
  run : Run σ τ
  log : Log

variable {σ τ : Type} {v : Verifier σ τ} {clock : ℕ → Duration} {loop : Loop}

def roundCap (v : Verifier σ τ) : ℕ := v.settings.maxRounds.getD maxCount

def afterLearning : Learned → Phase × Log
  | .disproved => (.done (.ok .disproved), [])
  | .candidate inv hs => (.checking inv hs, [.learned inv])

def afterCheck (inv : Expr) (hs : List Halfspace) : Validity → Phase × Log
  | .valid => (.done (.ok (.invariant inv.simplify)), [])
  | .invalid _ witness => (.refining witness hs, [.rejected inv])

/-- One phase: the phase after it, and what happened. -/
def advance (v : Verifier σ τ) (clock : ℕ → Duration) (loop : Loop) :
    Phase → Running σ τ (Phase × Log)
  | .classifying => do
    if ← working (Bench.learning (v.learner clock).expired) then throw (.error .deadline)
    let r ← get
    set { r with samples := r.samples.takeUnknown.2 }
    return (.following r.samples.takeUnknown.1, [])
  | .following [] => return (.learning, [])
  | .following (p :: ps) => do
    let (c, states) ←
      working (Bench.asking (Trace.classify v.oracle loop p v.settings.unrollLimit))
    modify fun r => { r with samples := r.samples.extend c states, classified := r.classified + 1 }
    return (.following ps, [.followed p states])
  | .learning => do
    let r ← get
    if v.roundCap ≤ r.rounds then
      match v.settings.maxRounds with
      | some n => return (.done (.ok (.inconclusive (.roundLimit n))), [])
      | none => throw (.fault .arithmetic)
    else
      set { r with rounds := r.rounds + 1 }
      return afterLearning (← v.learn clock loop)
  | .checking inv hs => do
    return afterCheck inv hs (← working (Bench.asking (Obligation.check v.oracle loop inv)))
  | .refining witness hs => do
    let images ← Task.ofResult (reflections hs witness v.settings.boundaryMargin)
    modify fun r => { r with samples := r.samples.extend .unknown (witness :: images) }
    return (.classifying, [.awaited (witness :: images)])
  | .done result => return (.done result, [])

/-- A failure ends the verification. What it left behind stays. -/
def next (v : Verifier σ τ) (clock : ℕ → Duration) (loop : Loop) (t : Snapshot σ τ) :
    Snapshot σ τ :=
  match v.advance clock loop t.phase t.run with
  | (.ok (phase, events), run) => ⟨phase, run, t.log ++ events⟩
  | (.error f, run) => ⟨.done (.error f), run, t.log⟩

lemma samples_begin (s : State σ τ) : (v.begin loop s).samples =
    { unknown := (firstSamples v.settings loop.dim (Random.ofSeed v.settings.seed)).1 } := rfl

def start (v : Verifier σ τ) (loop : Loop) (s : State σ τ) : Snapshot σ τ :=
  ⟨.classifying, v.begin loop s, [.awaited (v.begin loop s).samples.unknown]⟩

/-- A verification after its first `n` phases. -/
def trail (v : Verifier σ τ) (clock : ℕ → Duration) (loop : Loop) (s : State σ τ) (n : ℕ) :
    Snapshot σ τ :=
  (v.next clock loop)^[n] (v.start loop s)

/-! ### The phases one by one -/

section Equations

variable {r r' : Run σ τ} {log : Log} {f : Failure}

lemma next_of_ok {t : Snapshot σ τ} {phase : Phase} {events : Log}
    (h : v.advance clock loop t.phase t.run = (.ok (phase, events), r')) :
    v.next clock loop t = ⟨phase, r', t.log ++ events⟩ := by
  rw [next, h]

lemma next_of_error {t : Snapshot σ τ}
    (h : v.advance clock loop t.phase t.run = (.error f, r')) :
    v.next clock loop t = ⟨.done (.error f), r', t.log⟩ := by
  rw [next, h]

lemma next_classifying (h : working (Bench.learning (v.learner clock).expired) r = (.ok false, r')) :
    v.next clock loop ⟨.classifying, r, log⟩ =
      ⟨.following r'.samples.unknown, { r' with samples := r'.samples.takeUnknown.2 }, log⟩ := by
  have hadvance : v.advance clock loop .classifying r = (.ok (.following r'.samples.unknown, []),
      { r' with samples := r'.samples.takeUnknown.2 }) :=
    Task.bind_of_ok h
  rw [next_of_ok hadvance, List.append_nil]

lemma next_classifying_late
    (h : working (Bench.learning (v.learner clock).expired) r = (.ok true, r')) :
    v.next clock loop ⟨.classifying, r, log⟩ = ⟨.done (.error (.error .deadline)), r', log⟩ :=
  next_of_error (Task.bind_of_ok h)

lemma next_following_nil :
    v.next clock loop ⟨.following [], r, log⟩ = ⟨.learning, r, log⟩ := by
  have hadvance : v.advance clock loop (.following []) r = (.ok (.learning, []), r) := rfl
  rw [next_of_ok hadvance, List.append_nil]

lemma next_following {p : Point} {ps : List Point} {filed : Class × List Point}
    (h : working (Bench.asking (Trace.classify v.oracle loop p v.settings.unrollLimit)) r =
      (.ok filed, r')) :
    v.next clock loop ⟨.following (p :: ps), r, log⟩ =
      ⟨.following ps,
        { r' with
          samples := r'.samples.extend filed.1 filed.2
          classified := r'.classified + 1 },
        log ++ [.followed p filed.2]⟩ :=
  next_of_ok (Task.bind_of_ok h)

lemma next_following_error {p : Point} {ps : List Point}
    (h : working (Bench.asking (Trace.classify v.oracle loop p v.settings.unrollLimit)) r =
      (.error f, r')) :
    v.next clock loop ⟨.following (p :: ps), r, log⟩ = ⟨.done (.error f), r', log⟩ :=
  next_of_error (Task.bind_of_error h)

lemma next_learning_limit {n : ℕ} (hm : v.settings.maxRounds = some n) (hn : n ≤ r.rounds) :
    v.next clock loop ⟨.learning, r, log⟩ =
      ⟨.done (.ok (.inconclusive (.roundLimit n))), r, log⟩ := by
  have hcap : v.roundCap ≤ r.rounds := by
    rw [roundCap, hm]
    exact hn
  have hadvance : v.advance clock loop .learning r =
      (.ok (.done (.ok (.inconclusive (.roundLimit n))), []), r) := by
    rw [advance, Task.bind_of_ok (Task.get_apply r), if_pos hcap, hm]
    rfl
  rw [next_of_ok hadvance, List.append_nil]

lemma next_learning_uncounted (hm : v.settings.maxRounds = none) (hn : maxCount ≤ r.rounds) :
    v.next clock loop ⟨.learning, r, log⟩ = ⟨.done (.error (.fault .arithmetic)), r, log⟩ := by
  have hcap : v.roundCap ≤ r.rounds := by
    rw [roundCap, hm]
    exact hn
  apply next_of_error
  rw [advance, Task.bind_of_ok (Task.get_apply r), if_pos hcap, hm]
  rfl

lemma advance_learning (hcap : r.rounds < v.roundCap) :
    v.advance clock loop .learning r =
      (afterLearning <$> v.learn clock loop) { r with rounds := r.rounds + 1 } := by
  rw [advance, Task.bind_of_ok (Task.get_apply r), if_neg (by omega),
    Task.bind_of_ok (Task.set_apply _ _)]
  rfl

lemma next_learning {learned : Learned} (hcap : r.rounds < v.roundCap)
    (h : v.learn clock loop { r with rounds := r.rounds + 1 } = (.ok learned, r')) :
    v.next clock loop ⟨.learning, r, log⟩ =
      ⟨(afterLearning learned).1, r', log ++ (afterLearning learned).2⟩ :=
  next_of_ok ((advance_learning hcap).trans (Task.bind_of_ok h))

lemma next_learning_error (hcap : r.rounds < v.roundCap)
    (h : v.learn clock loop { r with rounds := r.rounds + 1 } = (.error f, r')) :
    v.next clock loop ⟨.learning, r, log⟩ = ⟨.done (.error f), r', log⟩ :=
  next_of_error ((advance_learning hcap).trans (Task.bind_of_error h))

lemma next_checking {inv : Expr} {hs : List Halfspace} {validity : Validity}
    (h : working (Bench.asking (Obligation.check v.oracle loop inv)) r = (.ok validity, r')) :
    v.next clock loop ⟨.checking inv hs, r, log⟩ =
      ⟨(afterCheck inv hs validity).1, r', log ++ (afterCheck inv hs validity).2⟩ :=
  next_of_ok (Task.bind_of_ok h)

lemma next_checking_error {inv : Expr} {hs : List Halfspace}
    (h : working (Bench.asking (Obligation.check v.oracle loop inv)) r = (.error f, r')) :
    v.next clock loop ⟨.checking inv hs, r, log⟩ = ⟨.done (.error f), r', log⟩ :=
  next_of_error (Task.bind_of_error h)

lemma next_refining {witness : Point} {hs : List Halfspace} {images : List Point}
    (h : reflections hs witness v.settings.boundaryMargin = .ok images) :
    v.next clock loop ⟨.refining witness hs, r, log⟩ =
      ⟨.classifying, { r with samples := r.samples.extend .unknown (witness :: images) },
        log ++ [.awaited (witness :: images)]⟩ := by
  apply next_of_ok
  rw [advance, h]
  rfl

lemma next_refining_error {witness : Point} {hs : List Halfspace}
    (h : reflections hs witness v.settings.boundaryMargin = .error f) :
    v.next clock loop ⟨.refining witness hs, r, log⟩ = ⟨.done (.error f), r, log⟩ := by
  apply next_of_error
  rw [advance, h]
  rfl

lemma next_done {result : Result Verdict} :
    v.next clock loop ⟨.done result, r, log⟩ = ⟨.done result, r, log⟩ := by
  have hadvance : v.advance clock loop (.done result) r = (.ok (.done result, []), r) := rfl
  rw [next_of_ok hadvance, List.append_nil]

end Equations

/-! ### What a phase can do -/

inductive Fails (v : Verifier σ τ) (clock : ℕ → Duration) (loop : Loop) :
    Phase → Run σ τ → Failure → Run σ τ → Prop
  | late {r bench} : Fails v clock loop .classifying r (.error .deadline) { r with bench }
  | following {p ps r bench f q q'}
      (h : Trace.classify v.oracle loop p v.settings.unrollLimit q = (.error f, q')) :
      Fails v clock loop (.following (p :: ps)) r f { r with bench }
  | uncounted {r} (h : v.settings.maxRounds = none) :
      Fails v clock loop .learning r (.fault .arithmetic) r
  | learning {r bench f} (hr : r.rounds < v.roundCap)
      (h : v.learn clock loop { r with rounds := r.rounds + 1 } =
        (.error f, { r with bench, rounds := r.rounds + 1 })) :
      Fails v clock loop .learning r f { r with bench, rounds := r.rounds + 1 }
  | checking {inv hs r bench f q q'}
      (h : Obligation.check v.oracle loop inv q = (.error f, q')) :
      Fails v clock loop (.checking inv hs) r f { r with bench }
  | refining {witness hs r f}
      (h : reflections hs witness v.settings.boundaryMargin = .error f) :
      Fails v clock loop (.refining witness hs) r f r

inductive Step (v : Verifier σ τ) (clock : ℕ → Duration) (loop : Loop) :
    Snapshot σ τ → Snapshot σ τ → Prop
  | rest {result r log} : Step v clock loop ⟨.done result, r, log⟩ ⟨.done result, r, log⟩
  | take {r bench log} :
      Step v clock loop ⟨.classifying, r, log⟩
        ⟨.following r.samples.unknown, { r with bench, samples := r.samples.takeUnknown.2 }, log⟩
  | follow {p ps r bench log c states q q'}
      (h : Trace.classify v.oracle loop p v.settings.unrollLimit q = (.ok (c, states), q')) :
      Step v clock loop ⟨.following (p :: ps), r, log⟩
        ⟨.following ps,
          { r with
            bench
            samples := r.samples.extend c states
            classified := r.classified + 1 },
          log ++ [.followed p states]⟩
  | turn {r log} : Step v clock loop ⟨.following [], r, log⟩ ⟨.learning, r, log⟩
  | limit {r log n} (h : v.settings.maxRounds = some n) (hr : n ≤ r.rounds) :
      Step v clock loop ⟨.learning, r, log⟩
        ⟨.done (.ok (.inconclusive (.roundLimit n))), r, log⟩
  | disprove {r bench log} (hr : r.rounds < v.roundCap) :
      Step v clock loop ⟨.learning, r, log⟩
        ⟨.done (.ok .disproved), { r with bench, rounds := r.rounds + 1 }, log⟩
  | learn {r bench log inv hs} (hr : r.rounds < v.roundCap)
      (h : v.learn clock loop { r with rounds := r.rounds + 1 } =
        (.ok (.candidate inv hs), { r with bench, rounds := r.rounds + 1 })) :
      Step v clock loop ⟨.learning, r, log⟩
        ⟨.checking inv hs, { r with bench, rounds := r.rounds + 1 }, log ++ [.learned inv]⟩
  | accept {inv hs r bench log} :
      Step v clock loop ⟨.checking inv hs, r, log⟩
        ⟨.done (.ok (.invariant inv.simplify)), { r with bench }, log⟩
  | reject {inv hs r bench log c witness q q'}
      (h : Obligation.check v.oracle loop inv q = (.ok (.invalid c witness), q')) :
      Step v clock loop ⟨.checking inv hs, r, log⟩
        ⟨.refining witness hs, { r with bench }, log ++ [.rejected inv]⟩
  | refine {witness hs r log images}
      (h : reflections hs witness v.settings.boundaryMargin = .ok images) :
      Step v clock loop ⟨.refining witness hs, r, log⟩
        ⟨.classifying, { r with samples := r.samples.extend .unknown (witness :: images) },
          log ++ [.awaited (witness :: images)]⟩
  | fail {p r r' f log} (h : Fails v clock loop p r f r') :
      Step v clock loop ⟨p, r, log⟩ ⟨.done (.error f), r', log⟩

lemma working_asking {α : Type} {x : Oracle.Asking σ α} {r : Run σ τ} {result : Result α}
    {q : Oracle.State σ} (h : x r.bench.oracle = (result, q)) :
    working (Bench.asking x) r = (result, { r with bench := { r.bench with oracle := q } }) :=
  Task.on_of_eq (Task.on_of_eq h)

lemma expired_eq_ok (l : Learner τ) (r : Run σ τ) :
    ∃ b bench, working (Bench.learning l.expired) r = (.ok b, { r with bench }) := by
  obtain ⟨b, n, hb⟩ := l.expired_eq_ok r.bench.learner
  exact ⟨b, _, Task.on_of_eq (Task.on_of_eq hb)⟩

lemma learn_run {r r' : Run σ τ} {result : Result Learned}
    (h : v.learn clock loop r = (result, r')) : ∃ bench, r' = { r with bench } := by
  have hsnd : (v.learn clock loop r).2 = r' := by rw [h]
  unfold learn at hsnd
  cases hs : v.settings.strategy with
  | conjunctive =>
    rw [hs] at hsnd
    exact ⟨_, hsnd.symm⟩
  | disjunctive onCond =>
    rw [hs] at hsnd
    exact ⟨_, hsnd.symm⟩

lemma step_classifying (r : Run σ τ) (log : Log) :
    Step v clock loop ⟨.classifying, r, log⟩ (v.next clock loop ⟨.classifying, r, log⟩) := by
  obtain ⟨b, bench, hb⟩ := expired_eq_ok (v.learner clock) r
  cases b with
  | true =>
    rw [next_classifying_late hb]
    exact .fail .late
  | false =>
    rw [next_classifying hb]
    exact .take

lemma step_following (p : Point) (ps : List Point) (r : Run σ τ) (log : Log) :
    Step v clock loop ⟨.following (p :: ps), r, log⟩
      (v.next clock loop ⟨.following (p :: ps), r, log⟩) := by
  rcases hc : Trace.classify v.oracle loop p v.settings.unrollLimit r.bench.oracle with ⟨result, q⟩
  cases result with
  | error f =>
    rw [next_following_error (working_asking hc)]
    exact .fail (.following hc)
  | ok filed =>
    rw [next_following (working_asking hc)]
    exact .follow hc

lemma step_learning (r : Run σ τ) (log : Log) :
    Step v clock loop ⟨.learning, r, log⟩ (v.next clock loop ⟨.learning, r, log⟩) := by
  by_cases hcap : r.rounds < v.roundCap
  · rcases hl : v.learn clock loop { r with rounds := r.rounds + 1 } with ⟨result, r'⟩
    obtain ⟨bench, rfl⟩ := learn_run hl
    cases result with
    | error f =>
      rw [next_learning_error hcap hl]
      exact .fail (.learning hcap hl)
    | ok learned =>
      rw [next_learning hcap hl]
      cases learned with
      | disproved =>
        simp only [afterLearning, List.append_nil]
        exact .disprove hcap
      | candidate inv hs => exact .learn hcap hl
  · have hle : v.roundCap ≤ r.rounds := by omega
    cases hm : v.settings.maxRounds with
    | none =>
      rw [roundCap, hm] at hle
      rw [next_learning_uncounted hm hle]
      exact .fail (.uncounted hm)
    | some n =>
      rw [roundCap, hm] at hle
      rw [next_learning_limit hm hle]
      exact .limit hm hle

lemma step_checking (inv : Expr) (hs : List Halfspace) (r : Run σ τ) (log : Log) :
    Step v clock loop ⟨.checking inv hs, r, log⟩
      (v.next clock loop ⟨.checking inv hs, r, log⟩) := by
  rcases hc : Obligation.check v.oracle loop inv r.bench.oracle with ⟨result, q⟩
  cases result with
  | error f =>
    rw [next_checking_error (working_asking hc)]
    exact .fail (.checking hc)
  | ok validity =>
    rw [next_checking (working_asking hc)]
    cases validity with
    | valid =>
      simp only [afterCheck, List.append_nil]
      exact .accept
    | invalid c witness => exact .reject hc

lemma step_refining (witness : Point) (hs : List Halfspace) (r : Run σ τ) (log : Log) :
    Step v clock loop ⟨.refining witness hs, r, log⟩
      (v.next clock loop ⟨.refining witness hs, r, log⟩) := by
  cases h : reflections hs witness v.settings.boundaryMargin with
  | error f =>
    rw [next_refining_error h]
    exact .fail (.refining h)
  | ok images =>
    rw [next_refining h]
    exact .refine h

theorem step_next (t : Snapshot σ τ) : Step v clock loop t (v.next clock loop t) := by
  rcases t with ⟨phase, r, log⟩
  cases phase with
  | classifying => exact step_classifying r log
  | following points =>
    cases points with
    | nil =>
      rw [next_following_nil]
      exact .turn
    | cons p ps => exact step_following p ps r log
  | learning => exact step_learning r log
  | checking inv hs => exact step_checking inv hs r log
  | refining witness hs => exact step_refining witness hs r log
  | done result =>
    rw [next_done]
    exact .rest

theorem trail_induction {P : Snapshot σ τ → Prop} {s : State σ τ} (hstart : P (v.start loop s))
    (hstep : ∀ t u, Step v clock loop t u → P t → P u) (n : ℕ) : P (v.trail clock loop s n) :=
  Function.Iterate.rec P hstart (fun t ht => hstep t _ (step_next t) ht) n

lemma Fails.samples_eq {p : Phase} {r r' : Run σ τ} {f : Failure}
    (h : Fails v clock loop p r f r') : r'.samples = r.samples := by
  cases h <;> rfl

lemma step_kept {p : SampleSet → Prop} (hp : Kept v loop p) {t u : Snapshot σ τ}
    (h : Step v clock loop t u) (ht : p t.run.samples) : p u.run.samples := by
  cases h with
  | take => exact hp.taken _ ht
  | follow h => exact hp.filed _ _ _ _ _ _ ht h
  | refine h => exact hp.awaited _ _ ht
  | fail h =>
    have hsame := h.samples_eq
    exact hsame ▸ ht
  | rest | turn | limit | disprove | learn | accept | reject => exact ht

theorem trail_kept {p : SampleSet → Prop} (hp : Kept v loop p) {s : State σ τ}
    (hs : p (v.begin loop s).samples) (n : ℕ) : p (v.trail clock loop s n).run.samples :=
  trail_induction (P := fun t => p t.run.samples) hs (fun _ _ h ht => step_kept hp h ht) n

/-! ### The phases make up a verification -/

def Phase.unlessFailed (p : Phase) : Result Unit → Phase
  | .ok _ => p
  | .error f => .done (.error f)

lemma classifyEach_leads {points : List Point} {r r' : Run σ τ} {result : Result Unit}
    (h : v.classifyEach loop points r = (result, r')) (log : Log) :
    r'.rounds = r.rounds ∧ ∃ log', Leads (v.next clock loop) ⟨.following points, r, log⟩
      ⟨Phase.learning.unlessFailed result, r', log'⟩ := by
  induction points generalizing r log with
  | nil =>
    cases h
    exact ⟨rfl, log, .one next_following_nil⟩
  | cons p ps ih =>
    rcases hc : Trace.classify v.oracle loop p v.settings.unrollLimit r.bench.oracle with ⟨filed, q⟩
    have hw := working_asking hc
    cases filed with
    | error f =>
      rw [classifyEach, Task.bind_of_error hw] at h
      cases h
      exact ⟨rfl, log, .one (next_following_error hw)⟩
    | ok filed =>
      rw [classifyEach, Task.bind_of_ok hw] at h
      obtain ⟨hrounds, log', hlog'⟩ := ih h (log ++ [.followed p filed.2])
      exact ⟨hrounds, log', .head (next_following hw) hlog'⟩

lemma classifyUnknown_leads {r r' : Run σ τ} {result : Result Unit}
    (h : v.classifyUnknown clock loop r = (result, r')) (log : Log) :
    r'.rounds = r.rounds ∧ ∃ log', Leads (v.next clock loop) ⟨.classifying, r, log⟩
      ⟨Phase.learning.unlessFailed result, r', log'⟩ := by
  obtain ⟨b, bench, hb⟩ := expired_eq_ok (v.learner clock) r
  rw [classifyUnknown, Task.bind_of_ok hb] at h
  cases b with
  | true =>
    cases h
    exact ⟨rfl, log, .one (next_classifying_late hb)⟩
  | false =>
    obtain ⟨hrounds, log', hlog'⟩ := classifyEach_leads h log
    exact ⟨hrounds, log', .head (next_classifying hb) hlog'⟩

lemma refine_zero_leads {r r₁ : Run σ τ} (hcap : r₁.rounds = v.roundCap)
    (hc : v.classifyUnknown clock loop r = (.ok (), r₁)) (log : Log) :
    Leads (v.next clock loop) ⟨.learning, r₁, log⟩
      ⟨.done (v.refine clock loop 0 r).1, (v.refine clock loop 0 r).2, log⟩ := by
  cases hm : v.settings.maxRounds with
  | none =>
    have hrefine : v.refine clock loop 0 r = (.error (.fault .arithmetic), r₁) := by
      rw [refine, Task.bind_of_ok hc, hm]
      rfl
    have hn : maxCount ≤ r₁.rounds := by rw [hcap, roundCap, hm, Option.getD_none]
    rw [hrefine]
    exact .one (next_learning_uncounted hm hn)
  | some n =>
    have hrefine : v.refine clock loop 0 r = (.ok (.inconclusive (.roundLimit n)), r₁) := by
      rw [refine, Task.bind_of_ok hc, hm]
      rfl
    have hn : n ≤ r₁.rounds := by rw [hcap, roundCap, hm, Option.getD_some]
    rw [hrefine]
    exact .one (next_learning_limit hm hn)

/-- The rest of a verification after a check, with `left` rounds to come. -/
def revise (v : Verifier σ τ) (clock : ℕ → Duration) (loop : Loop) (left : ℕ) (inv : Expr)
    (hs : List Halfspace) : Validity → Running σ τ Verdict
  | .valid => return .invariant inv.simplify
  | .invalid _ witness => do
    let images ← Task.ofResult (reflections hs witness v.settings.boundaryMargin)
    modify fun r => { r with samples := r.samples.extend .unknown (witness :: images) }
    v.refine clock loop left

lemma revise_leads {left : ℕ} {inv : Expr} {hs : List Halfspace} {r : Run σ τ}
    (hleft : r.rounds + left = v.roundCap)
    (hrefine : ∀ {r : Run σ τ}, r.rounds + left = v.roundCap → ∀ log,
      ∃ log', Leads (v.next clock loop) ⟨.classifying, r, log⟩
        ⟨.done (v.refine clock loop left r).1, (v.refine clock loop left r).2, log'⟩)
    (validity : Validity) (log : Log) :
    ∃ log', Leads (v.next clock loop) ⟨(afterCheck inv hs validity).1, r, log⟩
      ⟨.done (v.revise clock loop left inv hs validity r).1,
        (v.revise clock loop left inv hs validity r).2, log'⟩ := by
  cases validity with
  | valid => exact ⟨log, .refl _⟩
  | invalid c witness =>
    cases hr : reflections hs witness v.settings.boundaryMargin with
    | error f =>
      have hrevise : v.revise clock loop left inv hs (.invalid c witness) r = (.error f, r) := by
        rw [revise, hr]
        rfl
      rw [hrevise]
      exact ⟨log, .one (next_refining_error hr)⟩
    | ok images =>
      have hrevise : v.revise clock loop left inv hs (.invalid c witness) r =
          v.refine clock loop left
            { r with samples := r.samples.extend .unknown (witness :: images) } := by
        rw [revise, hr]
        rfl
      have hawaited : ({ r with samples := r.samples.extend .unknown (witness :: images) } :
          Run σ τ).rounds + left = v.roundCap := hleft
      obtain ⟨log', hlog'⟩ := hrefine hawaited (log ++ [.awaited (witness :: images)])
      rw [hrevise]
      exact ⟨log', .head (next_refining hr) hlog'⟩

/-- The rest of a verification after learning, with `left` rounds to come. -/
def examine (v : Verifier σ τ) (clock : ℕ → Duration) (loop : Loop) (left : ℕ) :
    Learned → Running σ τ Verdict
  | .disproved => return .disproved
  | .candidate inv hs => do
    v.revise clock loop left inv hs
      (← working (Bench.asking (Obligation.check v.oracle loop inv)))

lemma examine_leads {left : ℕ} {r : Run σ τ} (hleft : r.rounds + left = v.roundCap)
    (hrefine : ∀ {r : Run σ τ}, r.rounds + left = v.roundCap → ∀ log,
      ∃ log', Leads (v.next clock loop) ⟨.classifying, r, log⟩
        ⟨.done (v.refine clock loop left r).1, (v.refine clock loop left r).2, log'⟩)
    (learned : Learned) (log : Log) :
    ∃ log', Leads (v.next clock loop) ⟨(afterLearning learned).1, r, log⟩
      ⟨.done (v.examine clock loop left learned r).1,
        (v.examine clock loop left learned r).2, log'⟩ := by
  cases learned with
  | disproved => exact ⟨log, .refl _⟩
  | candidate inv hs =>
    rcases hcheck : Obligation.check v.oracle loop inv r.bench.oracle with ⟨result, q⟩
    have hw := working_asking hcheck
    cases result with
    | error f =>
      rw [examine, Task.bind_of_error hw]
      exact ⟨log, .one (next_checking_error hw)⟩
    | ok validity =>
      have hchecked : ({ r with bench := { r.bench with oracle := q } } : Run σ τ).rounds + left =
          v.roundCap := hleft
      obtain ⟨log', hlog'⟩ := revise_leads hchecked hrefine validity _
      rw [examine, Task.bind_of_ok hw]
      exact ⟨log', .head (next_checking hw) hlog'⟩

lemma refine_of_error {left : ℕ} {r r₁ : Run σ τ} {f : Failure}
    (hc : v.classifyUnknown clock loop r = (.error f, r₁)) :
    v.refine clock loop left r = (.error f, r₁) := by
  cases left with
  | zero => rw [refine, Task.bind_of_error hc]
  | succ left => rw [refine, Task.bind_of_error hc]

lemma refine_succ {left : ℕ} {r r₁ : Run σ τ}
    (hc : v.classifyUnknown clock loop r = (.ok (), r₁)) :
    v.refine clock loop (left + 1) r =
      (v.learn clock loop >>= v.examine clock loop left) { r₁ with rounds := r₁.rounds + 1 } := by
  rw [refine, Task.bind_of_ok hc, Task.bind_of_ok (Task.modify_apply _ _)]
  rfl

/-- Counting rounds down and counting them up to the cap is the same. -/
theorem refine_leads {left : ℕ} {r : Run σ τ} (hleft : r.rounds + left = v.roundCap) (log : Log) :
    ∃ log', Leads (v.next clock loop) ⟨.classifying, r, log⟩
      ⟨.done (v.refine clock loop left r).1, (v.refine clock loop left r).2, log'⟩ := by
  -- the rounds made and the rounds left always add up to the cap
  induction left generalizing r log with
  | zero =>
    rcases hc : v.classifyUnknown clock loop r with ⟨result, r₁⟩
    obtain ⟨hrounds, log₁, hclassified⟩ := classifyUnknown_leads hc log
    cases result with
    | error f =>
      rw [refine_of_error hc]
      exact ⟨log₁, hclassified⟩
    | ok u => exact ⟨log₁, hclassified.trans (refine_zero_leads (by omega) hc log₁)⟩
  | succ left ih =>
    rcases hc : v.classifyUnknown clock loop r with ⟨result, r₁⟩
    obtain ⟨hrounds, log₁, hclassified⟩ := classifyUnknown_leads hc log
    cases result with
    | error f =>
      rw [refine_of_error hc]
      exact ⟨log₁, hclassified⟩
    | ok u =>
      have hcap : r₁.rounds < v.roundCap := by omega
      rcases hl : v.learn clock loop { r₁ with rounds := r₁.rounds + 1 } with ⟨result, r₂⟩
      rw [refine_succ hc]
      cases result with
      | error f =>
        rw [Task.bind_of_error hl]
        exact ⟨log₁, hclassified.trans (.one (next_learning_error hcap hl))⟩
      | ok learned =>
        rw [Task.bind_of_ok hl]
        have hlearned := hclassified.trans (.one (next_learning hcap hl))
        have hrounds₂ : r₂.rounds = r₁.rounds + 1 := by
          obtain ⟨bench, rfl⟩ := learn_run hl
          rfl
        have hleft₂ : r₂.rounds + left = v.roundCap := by omega
        obtain ⟨log', hlog'⟩ := examine_leads hleft₂ ih learned _
        exact ⟨log', hlearned.trans hlog'⟩

theorem exists_trail_done (v : Verifier σ τ) (clock : ℕ → Duration) (loop : Loop)
    (s : State σ τ) :
    ∃ n log, v.trail clock loop s n =
      ⟨.done (v.refine clock loop v.roundCap (v.begin loop s)).1,
        (v.refine clock loop v.roundCap (v.begin loop s)).2, log⟩ := by
  have hbegin : (v.begin loop s).rounds + v.roundCap = v.roundCap := Nat.zero_add _
  obtain ⟨log, n, hn⟩ := refine_leads hbegin [.awaited (v.begin loop s).samples.unknown]
  exact ⟨n, log, hn⟩

lemma verify_eq_trail {s : State σ τ} (h : admissible v.settings loop = .ok ()) :
    ∃ n result stats, (v.trail clock loop s n).phase = .done result ∧
      stats.rounds = (v.trail clock loop s n).run.rounds ∧
      stats.classified = (v.trail clock loop s n).run.classified ∧
      stats.samples = (v.trail clock loop s n).run.samples.size ∧
      (v.verify loop clock s).1 = (fun verdict => ⟨verdict, stats⟩) <$>
        conclude v.settings.timeout result := by
  obtain ⟨n, log, hn⟩ := exists_trail_done v clock loop s
  rw [verify, h]
  refine ⟨n, _, _, ?_, ?_, ?_, ?_, rfl⟩
  all_goals
    rw [hn]
    rfl

lemma exists_trail_of_verify {s : State σ τ} {report : Report}
    (h : (v.verify loop clock s).1 = .ok report) :
    ∃ n result, (v.trail clock loop s n).phase = .done result ∧
      conclude v.settings.timeout result = .ok report.verdict ∧
      report.stats.rounds = (v.trail clock loop s n).run.rounds ∧
      report.stats.classified = (v.trail clock loop s n).run.classified ∧
      report.stats.samples = (v.trail clock loop s n).run.samples.size := by
  cases ha : admissible v.settings loop with
  | error e =>
    rw [verify, ha] at h
    cases h
  | ok u =>
    obtain ⟨n, result, stats, hphase, hrounds, hclassified, hsamples, hverify⟩ :=
      @verify_eq_trail σ τ v clock loop s ha
    rw [hverify] at h
    obtain ⟨verdict, hverdict, rfl⟩ := Result.map_eq_ok.mp h
    exact ⟨n, result, hphase, hverdict, hrounds, hclassified, hsamples⟩

end LoopInvariant.Verifier
