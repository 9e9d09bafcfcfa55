import LoopInvariant.Proofs.Budget
import LoopInvariant.Proofs.Phases

/-! Verifications do not depend on what was verified before. Two of them that start from different
counts and memories go through the same samples, ask the same questions and learn the same
candidates, and their own counts are the same. Without a timeout this holds whatever the clocks
show. -/
namespace LoopInvariant

namespace Task

variable {S T α β ε ρ : Type} {R : S → S → Prop}

/-- The same outcome, and states that are related again. -/
def Alike (R : S → S → Prop) (a b : ρ × S) : Prop := a.1 = b.1 ∧ R a.2 b.2

/-- Computations that cannot be told apart if they start from related states. -/
def Agree (R : S → S → Prop) (x y : ExceptT ε (StateM S) α) : Prop :=
  ∀ s t, R s t → Alike R (x s) (y t)

lemma agree_pure (a : α) : Agree R (pure a : ExceptT ε (StateM S) α) (pure a) :=
  fun _ _ h => ⟨rfl, h⟩

lemma agree_throw (e : ε) : Agree R (throw e : ExceptT ε (StateM S) α) (throw e) :=
  fun _ _ h => ⟨rfl, h⟩

lemma agree_throw_bind (e : ε) (f g : α → ExceptT ε (StateM S) β) :
    Agree R (throw e >>= f) (throw e >>= g) :=
  fun _ _ h => ⟨rfl, h⟩

lemma agree_ofResult (r : Result α) : Agree R (ofResult r : Task S α) (ofResult r) :=
  fun _ _ h => ⟨rfl, h⟩

lemma agree_modify {f g : S → S} (h : ∀ s t, R s t → R (f s) (g t)) :
    Agree R (modify f : ExceptT ε (StateM S) PUnit) (modify g) :=
  fun s t hst => ⟨rfl, h s t hst⟩

lemma Agree.bind {x y : ExceptT ε (StateM S) α} {f g : α → ExceptT ε (StateM S) β}
    (hxy : Agree R x y) (hfg : ∀ a, Agree R (f a) (g a)) : Agree R (x >>= f) (y >>= g) := by
  intro s t hst
  have halike := hxy s t hst
  rcases hx : x s with ⟨e | a, s'⟩
  all_goals
    rcases hy : y t with ⟨r, t'⟩
    rw [hx, hy] at halike
    obtain ⟨hr, hst'⟩ := halike
    subst hr
  · rw [bind_of_error hx, bind_of_error hy]
    exact ⟨rfl, hst'⟩
  · rw [bind_of_ok hx, bind_of_ok hy]
    exact hfg a s' t' hst'

/-- Reading the state gives different results, of which only the common part may be used. -/
lemma agree_get_bind {f g : S → ExceptT ε (StateM S) β}
    (h : ∀ s t, R s t → Alike R (f s s) (g t t)) : Agree R (get >>= f) (get >>= g) := by
  intro s t hst
  rw [bind_of_ok (get_apply s), bind_of_ok (get_apply t)]
  exact h s t hst

lemma Agree.mapM {f g : α → ExceptT ε (StateM S) β} {xs : List α}
    (h : ∀ x ∈ xs, Agree R (f x) (g x)) : Agree R (xs.mapM f) (xs.mapM g) := by
  induction xs with
  | nil => exact agree_pure []
  | cons x xs ih =>
    rw [List.forall_mem_cons] at h
    rw [List.mapM_cons, List.mapM_cons]
    apply h.1.bind
    intro y
    apply (ih h.2).bind
    intro ys
    exact agree_pure (y :: ys)

lemma Agree.on {Q : T → T → Prop} {get : S → T} {put : S → T → S} {x y : Task T α}
    (h : Agree Q x y) (hget : ∀ s t, R s t → Q (get s) (get t))
    (hput : ∀ s t a b, R s t → Q a b → R (put s a) (put t b)) :
    Agree R (on get put x) (on get put y) := by
  intro s t hst
  obtain ⟨hresult, hstate⟩ := h _ _ (hget s t hst)
  exact ⟨hresult, hput s t _ _ hst hstate⟩

end Task

open LoopInvariant.Task

/-! ### Asking -/

/-- The answers do not depend on the memory. -/
def Solver.Forgetful {σ : Type} (s : Solver σ) : Prop :=
  ∀ f budget m m', (s.check f budget m).1 = (s.check f budget m').1

lemma Solver.builtIn_forgetful : builtIn.Forgetful := fun _ _ _ _ => rfl

lemma Solver.worklist_forgetful : worklist.Forgetful := fun _ _ _ _ => rfl

namespace Oracle

variable {σ : Type} {o : Oracle σ} {m n : ℕ}

/-- As many queries have been made since there were `m` as since there were `n`. -/
def Shifted (m n : ℕ) (s t : State σ) : Prop := s.queries + n = t.queries + m

lemma agree_consult (ho : o.solver.Forgetful) (f : Expr) (budget : ℕ) :
    Agree (Shifted m n) (o.consult f budget) (o.consult f budget) :=
  fun s t hst => ⟨ho f budget s.memory t.memory, hst⟩

lemma agree_persist (ho : o.solver.Forgetful) (f : Expr) (more budget : ℕ) :
    Agree (Shifted m n) (o.persist f more budget) (o.persist f more budget) := by
  induction more generalizing budget with
  | zero =>
    rw [persist]
    apply (agree_consult ho f budget).bind
    intro answer
    cases answer with
    | sat model => exact agree_pure _
    | unsat => exact agree_pure _
    | unknown => exact agree_throw _
  | succ more ih =>
    rw [persist]
    apply (agree_consult ho f budget).bind
    intro answer
    cases answer with
    | sat model => exact agree_pure _
    | unsat => exact agree_pure _
    | unknown => exact ih _

lemma agree_model? (ho : o.solver.Forgetful) (f : Expr) :
    Agree (Shifted m n) (o.model? f) (o.model? f) := by
  have hcount : Agree (Shifted m n)
      (modify fun s => { s with queries := s.queries + 1 } : Asking σ PUnit)
      (modify fun s => { s with queries := s.queries + 1 }) := by
    apply agree_modify
    intro s t hst
    simp only [Shifted] at hst ⊢
    omega
  exact hcount.bind fun _ => agree_persist ho f _ _

lemma agree_isSat (ho : o.solver.Forgetful) (f : Expr) :
    Agree (Shifted m n) (o.isSat f) (o.isSat f) :=
  (agree_model? ho f).bind fun _ => agree_pure _

end Oracle

section Asking

variable {σ : Type} {o : Oracle σ} {m n : ℕ} {l : Loop}

open Oracle

lemma Trace.agree_walk (ho : o.solver.Forgetful) (start : Point) (limit left : ℕ)
    (seen : List Point) (current : Point) :
    Agree (Shifted m n) (walk o l start limit left seen current)
      (walk o l start limit left seen current) := by
  induction left generalizing seen current with
  | zero =>
    rw [walk]
    apply (agree_ofResult _).bind
    intro f
    apply (agree_isSat ho _).bind
    intro b
    cases b with
    | false => exact agree_pure _
    | true => exact agree_throw _
  | succ left ih =>
    rw [walk]
    apply (agree_ofResult _).bind
    intro f
    apply (agree_isSat ho _).bind
    intro b
    cases b with
    | false => exact agree_pure _
    | true =>
      apply (agree_model? ho _).bind
      intro a
      cases a with
      | none => exact agree_pure _
      | some model => exact ih _ _

lemma Trace.agree_classify (ho : o.solver.Forgetful) (start : Point) (limit : ℕ) :
    Agree (Shifted m n) (classify o l start limit) (classify o l start limit) := by
  apply (agree_ofResult _).bind
  intro f
  apply (agree_isSat ho _).bind
  intro inPre
  apply (agree_walk ho start limit limit [] start).bind
  intro r
  apply (agree_ofResult _).bind
  intro g
  apply (agree_isSat ho _).bind
  intro inPost
  exact agree_pure _

lemma Obligation.agree_check (ho : o.solver.Forgetful) (inv : Expr) :
    Agree (Shifted m n) (check o l inv) (check o l inv) := by
  unfold check
  induction all with
  | nil => exact agree_pure _
  | cons c rest ih =>
    rw [checkEach]
    apply (agree_model? ho _).bind
    intro a
    cases a with
    | none => exact ih
    | some model => exact agree_pure _

lemma Partition.agree_locate (ho : o.solver.Forgetful) (guards : List Expr) (p : Point) :
    Agree (Shifted m n) (locate o l guards p) (locate o l guards p) := by
  apply (agree_ofResult _).bind
  intro f
  apply (Agree.mapM fun g _ => agree_isSat ho _).bind
  intro flags
  split_ifs
  · exact agree_pure _
  · exact agree_throw _

lemma Partition.agree_file (ho : o.solver.Forgetful) (guards : List Expr) (points : List Point) :
    Agree (Shifted m n) (file o l guards points) (file o l guards points) := by
  have hrow (p : Point) : Agree (Shifted m n)
      (do return (p, ← locate o l guards p) : Asking σ (Point × List Bool))
      (do return (p, ← locate o l guards p)) :=
    (agree_locate ho guards p).bind fun _ => agree_pure _
  exact (Agree.mapM fun p _ => hrow p).bind fun _ => agree_pure _

end Asking

/-! ### Learning -/

/-- What is learned does not depend on the memory. -/
def Separator.Forgetful {τ : Type} (s : Separator τ) : Prop :=
  ∀ samples m m', (s.train samples m).1 = (s.train samples m').1

lemma Separator.maxMargin_forgetful (settings : MaxMargin.Settings) :
    (maxMargin settings).Forgetful := fun _ _ _ => rfl

namespace Learner

variable {σ τ : Type} {l l' : Learner τ} {m n : ℕ}

/-- The same random numbers lie ahead, as many trainings have succeeded since there were `m` as since
there were `n`, and there is no deadline. -/
structure Shifted (m n : ℕ) (s t : State τ) : Prop where
  random : s.random = t.random
  trainings : s.trainings + n = t.trainings + m
  deadline : s.deadline = none
  deadline' : t.deadline = none

/-- Learners that differ in their clocks only. -/
structure Timeless (l l' : Learner τ) : Prop where
  separator : l.separator = l'.separator
  multiplier : l.multiplier = l'.multiplier

lemma agree_expired : Agree (Shifted m n) l.expired l'.expired := by
  intro s t hst
  rw [expired_of_none hst.deadline, expired_of_none hst.deadline']
  exact ⟨rfl, hst⟩

lemma agree_draw {α : Type} (x : Random.Drawing α) :
    Agree (Shifted m n) (draw x : Learning τ α) (draw x) := by
  intro s t hst
  refine ⟨?_, ?_, hst.trainings, hst.deadline, hst.deadline'⟩
  · change Except.ok (x s.random).1 = Except.ok (x t.random).1
    rw [hst.random]
  · change (x s.random).2 = (x t.random).2
    rw [hst.random]

lemma agree_train (h : Timeless l l') (hl : l.separator.Forgetful)
    (samples : List (Point × Label)) :
    Agree (Shifted m n) (l.train samples) (l'.train samples) := by
  unfold train
  rw [← h.separator]
  have hasked (s t : State τ) (hst : Shifted m n s t) : Shifted m n
      { s with memory := (l.separator.train samples s.memory).2 }
      { t with memory := (l.separator.train samples t.memory).2 } :=
    ⟨hst.random, hst.trainings, hst.deadline, hst.deadline'⟩
  refine Agree.bind (fun s t hst => ⟨hl samples s.memory t.memory, hasked s t hst⟩) fun model => ?_
  refine Agree.bind (agree_modify fun s t hst => ?_) fun _ => agree_pure model
  refine ⟨hst.random, ?_, hst.deadline, hst.deadline'⟩
  have htrainings := hst.trainings
  change s.trainings + 1 + n = t.trainings + 1 + m
  omega

lemma agree_cutOff (h : Timeless l l') (hl : l.separator.Forgetful)
    (positives : List (Point × Label)) (working : List Point) :
    Agree (Shifted m n) (l.cutOff positives working) (l'.cutOff positives working) := by
  induction working using cutOff.induct with
  | case1 =>
    rw [cutOff, cutOff]
    exact agree_pure []
  | case2 p ps ih =>
    rw [cutOff, cutOff, h.multiplier]
    apply agree_expired.bind
    intro expired
    cases expired with
    | true => exact agree_throw_bind _ _ _
    | false =>
      apply (agree_draw _).bind
      intro i
      apply (agree_train h hl _).bind
      intro model
      split_ifs
      · exact (ih i model).bind fun rest => agree_pure _
      · exact agree_throw _

lemma agree_separate (h : Timeless l l') (hl : l.separator.Forgetful)
    (positives negatives : List Point) (vars : List Var) :
    Agree (Shifted m n) (l.separate positives negatives vars)
      (l'.separate positives negatives vars) := by
  unfold separate
  by_cases hempty : negatives.isEmpty
  · rw [if_pos hempty, if_pos hempty]
    exact agree_pure _
  rw [if_neg hempty, if_neg hempty]
  by_cases hnone : positives.isEmpty
  · simp only [if_pos hnone]
    exact agree_pure _
  simp only [if_neg hnone]
  apply (agree_cutOff h hl _ _).bind
  intro hs
  apply (agree_ofResult _).bind
  intro parts
  exact agree_pure _

lemma agree_conjunctive (h : Timeless l l') (hl : l.separator.Forgetful) (samples : SampleSet)
    (vars : List Var) :
    Agree (Shifted m n) (l.conjunctive samples vars) (l'.conjunctive samples vars) := by
  unfold conjunctive
  split_ifs
  · exact agree_pure _
  · exact (agree_separate h hl _ _ _).bind fun r => agree_pure _

lemma agree_separatePart (h : Timeless l l') (hl : l.separator.Forgetful) (loop : Loop)
    (p : Part) :
    Agree (Shifted m n) (l.separatePart loop p) (l'.separatePart loop p) := by
  unfold separatePart
  split_ifs
  · exact (agree_pure _).bind fun r => agree_pure _
  · exact (agree_separate h hl _ _ _).bind fun r => agree_pure _

namespace Bench

variable {q q' k k' : ℕ}

structure Shifted (q q' k k' : ℕ) (s t : Bench σ τ) : Prop where
  oracle : Oracle.Shifted q q' s.oracle t.oracle
  learner : Learner.Shifted k k' s.learner t.learner

lemma agree_asking {α : Type} {x y : Oracle.Asking σ α} (h : Agree (Oracle.Shifted q q') x y) :
    Agree (Shifted q q' k k') (asking x : Task (Bench σ τ) α) (asking y) :=
  h.on (fun _ _ hst => hst.oracle) fun _ _ _ _ hst ho => ⟨ho, hst.learner⟩

lemma agree_learning {α : Type} {x y : Learning τ α} (h : Agree (Learner.Shifted k k') x y) :
    Agree (Shifted q q' k k') (learning x : Task (Bench σ τ) α) (learning y) :=
  h.on (fun _ _ hst => hst.learner) fun _ _ _ _ hst hl => ⟨hst.oracle, hl⟩

end Bench

lemma agree_disjunctive {o : Oracle σ} {q q' k k' : ℕ} (h : Timeless l l')
    (hl : l.separator.Forgetful) (ho : o.solver.Forgetful) (samples : SampleSet) (loop : Loop)
    (onCond : Bool) :
    Agree (Bench.Shifted q q' k k') (l.disjunctive o samples loop onCond)
      (l'.disjunctive o samples loop onCond) := by
  unfold disjunctive
  split_ifs
  · exact agree_pure _
  apply (agree_ofResult _).bind
  intro gs
  apply (Bench.agree_asking (Partition.agree_file ho gs _)).bind
  intro positives
  apply (Bench.agree_asking (Partition.agree_file ho gs _)).bind
  intro negatives
  apply (Bench.agree_learning (Agree.mapM fun p _ => agree_separatePart h hl loop p)).bind
  intro learned
  exact agree_pure _

end Learner

/-! ### Verifying -/

def Report.timeless (r : Report) : Report := { r with stats := { r.stats with elapsed := {} } }

namespace Verifier

open Learner (Bench)

variable {σ τ : Type} {v : Verifier σ τ} {clock clock' : ℕ → Duration} {loop : Loop}
  {q q' k k' : ℕ}

/-- Verifications at the same point, with counts that started elsewhere. -/
structure Shifted (q q' k k' : ℕ) (r r' : Run σ τ) : Prop where
  bench : r.bench.Shifted q q' k k' r'.bench
  samples : r.samples = r'.samples
  rounds : r.rounds = r'.rounds
  classified : r.classified = r'.classified

lemma Shifted.queries {r r' : Run σ τ} (h : Shifted q q' k k' r r') :
    r.bench.oracle.queries - q = r'.bench.oracle.queries - q' := by
  have hshifted : r.bench.oracle.queries + q' = r'.bench.oracle.queries + q := h.bench.oracle
  omega

lemma Shifted.trainings {r r' : Run σ τ} (h : Shifted q q' k k' r r') :
    r.bench.learner.trainings - k = r'.bench.learner.trainings - k' := by
  have hshifted : r.bench.learner.trainings + k' = r'.bench.learner.trainings + k :=
    h.bench.learner.trainings
  omega

lemma agree_working {α : Type} {x y : Task (Bench σ τ) α} (h : Agree (Bench.Shifted q q' k k') x y) :
    Agree (Shifted q q' k k') (working x) (working y) :=
  h.on (fun _ _ hr => hr.bench) fun _ _ _ _ hr hb => ⟨hb, hr.samples, hr.rounds, hr.classified⟩

lemma agree_classifyEach (ho : v.solver.Forgetful) (points : List Point) :
    Agree (Shifted q q' k k') (v.classifyEach loop points) (v.classifyEach loop points) := by
  have horacle : v.oracle.solver.Forgetful := ho
  induction points with
  | nil => exact agree_pure ()
  | cons p ps ih =>
    rw [classifyEach]
    apply (agree_working (Bench.agree_asking (Trace.agree_classify horacle p _))).bind
    intro filed
    refine Agree.bind (agree_modify fun r r' hr => ?_) fun _ => ih
    refine ⟨hr.bench, ?_, hr.rounds, ?_⟩
    · change r.samples.extend _ _ = r'.samples.extend _ _
      rw [hr.samples]
    · change r.classified + 1 = r'.classified + 1
      rw [hr.classified]

lemma timeless_learner : (v.learner clock).Timeless (v.learner clock') := ⟨rfl, rfl⟩

lemma agree_classifyUnknown (ho : v.solver.Forgetful) :
    Agree (Shifted q q' k k') (v.classifyUnknown clock loop) (v.classifyUnknown clock' loop) := by
  unfold classifyUnknown
  apply (agree_working (Bench.agree_learning Learner.agree_expired)).bind
  intro expired
  cases expired with
  | true => exact agree_throw_bind _ _ _
  | false =>
    apply agree_get_bind
    intro r r' hr
    have htaken : Shifted q q' k k' { r with samples := r.samples.takeUnknown.2 }
        { r' with samples := r'.samples.takeUnknown.2 } := by
      refine ⟨hr.bench, ?_, hr.rounds, hr.classified⟩
      change r.samples.takeUnknown.2 = r'.samples.takeUnknown.2
      rw [hr.samples]
    have hpoints : r.samples.unknown = r'.samples.unknown := by rw [hr.samples]
    change Alike _ (v.classifyEach loop r.samples.unknown _)
      (v.classifyEach loop r'.samples.unknown _)
    rw [hpoints]
    exact agree_classifyEach ho _ _ _ htaken

lemma agree_learn (ho : v.solver.Forgetful) (hl : v.separator.Forgetful) :
    Agree (Shifted q q' k k') (v.learn clock loop) (v.learn clock' loop) := by
  have hlearner : (v.learner clock).separator.Forgetful := hl
  have horacle : v.oracle.solver.Forgetful := ho
  apply agree_get_bind
  intro r r' hr
  -- only the samples are used of the state that is read
  rw [← hr.samples]
  cases v.settings.strategy with
  | conjunctive =>
    exact agree_working (Bench.agree_learning
      (Learner.agree_conjunctive timeless_learner hlearner _ _)) r r' hr
  | disjunctive onCond =>
    exact agree_working
      (Learner.agree_disjunctive timeless_learner hlearner horacle _ _ _) r r' hr

lemma agree_refine (ho : v.solver.Forgetful) (hl : v.separator.Forgetful)
    (clock clock' : ℕ → Duration) (loop : Loop) (left : ℕ) :
    Agree (Shifted q q' k k') (v.refine clock loop left) (v.refine clock' loop left) := by
  have horacle : v.oracle.solver.Forgetful := ho
  induction left with
  | zero =>
    rw [refine, refine]
    apply (agree_classifyUnknown ho).bind
    intro _
    cases v.settings.maxRounds with
    | none => exact agree_throw _
    | some n => exact agree_pure _
  | succ left ih =>
    rw [refine, refine]
    apply (agree_classifyUnknown ho).bind
    intro _
    refine Agree.bind (agree_modify fun r r' hr => ?_) fun _ => ?_
    · refine ⟨hr.bench, hr.samples, ?_, hr.classified⟩
      change r.rounds + 1 = r'.rounds + 1
      rw [hr.rounds]
    apply (agree_learn ho hl).bind
    intro learned
    cases learned with
    | disproved => exact agree_pure _
    | candidate inv hs =>
      apply (agree_working (Bench.agree_asking (Obligation.agree_check horacle inv))).bind
      intro validity
      cases validity with
      | valid => exact agree_pure _
      | invalid c witness =>
        apply (agree_ofResult _).bind
        intro images
        refine Agree.bind (agree_modify fun r r' hr => ?_) fun _ => ih
        refine ⟨hr.bench, ?_, hr.rounds, hr.classified⟩
        simp only [hr.samples]

lemma shifted_begin (ht : v.settings.timeout = none) (loop : Loop) (s t : State σ τ) :
    Shifted s.solver.queries t.solver.queries s.trainings t.trainings (v.begin loop s)
      (v.begin loop t) := by
  refine ⟨⟨?_, rfl, ?_, ht, ht⟩, rfl, rfl, rfl⟩
  · exact Nat.add_comm _ _
  · exact Nat.add_comm _ _

/-- The state that a verification starts from shows nowhere in its report, and neither does the
clock apart from the time taken. -/
theorem verify_forgets (ht : v.settings.timeout = none) (ho : v.solver.Forgetful)
    (hl : v.separator.Forgetful) (s t : State σ τ) :
    Report.timeless <$> (v.verify loop clock s).1 =
      Report.timeless <$> (v.verify loop clock' t).1 := by
  cases ha : admissible v.settings loop with
  | error e => rw [verify, verify, ha]
  | ok u =>
    rcases hr : v.refine clock loop (v.settings.maxRounds.getD maxCount) (v.begin loop s) with
      ⟨result, r⟩
    rcases hr' : v.refine clock' loop (v.settings.maxRounds.getD maxCount) (v.begin loop t) with
      ⟨result', r'⟩
    have halike := agree_refine ho hl clock clock' loop (v.settings.maxRounds.getD maxCount) _ _
      (shifted_begin ht loop s t)
    rw [hr, hr'] at halike
    have hresult : result = result' := halike.1
    have hrun : Shifted s.solver.queries t.solver.queries s.trainings t.trainings r r' := halike.2
    simp only [verify, ha, hr, hr', ← hresult]
    cases conclude v.settings.timeout result with
    | error f => rfl
    | ok verdict =>
      change Except.ok (Report.timeless ⟨verdict, _⟩) = Except.ok (Report.timeless ⟨verdict, _⟩)
      simp only [Report.timeless, hrun.rounds, hrun.classified, hrun.samples, hrun.queries,
        hrun.trainings]

def after (v : Verifier σ τ) (s : State σ τ) (calls : List (Loop × (ℕ → Duration))) : State σ τ :=
  calls.foldl (fun s call => (v.verify call.1 call.2 s).2) s

/-- The built-in verifier with the search on explicit stacks, which keeps the meter of its last
query. -/
def metered (settings : Settings) : Verifier Search.Meter Unit :=
  ⟨settings, .worklist, .maxMargin settings.margin⟩

/-- Without a timeout, the built-in verifier gives the same report after any verifications, whatever
they led to, as when it is new: the same failure, or the same verdict and the same counts. It does so
also where a meter is left over from the queries before. -/
theorem verify_after_eq (settings : Settings) (ht : settings.timeout = none)
    (calls : List (Loop × (ℕ → Duration))) (loop : Loop) (clock clock' : ℕ → Duration) :
    Report.timeless <$> ((builtIn settings).verify loop clock
        ((builtIn settings).after ⟨⟨(), 0⟩, (), 0, none⟩ calls)).1 =
      Report.timeless <$> ((builtIn settings).verify loop clock' ⟨⟨(), 0⟩, (), 0, none⟩).1 ∧
    Report.timeless <$> ((metered settings).verify loop clock
        ((metered settings).after ⟨⟨.fresh 0, 0⟩, (), 0, none⟩ calls)).1 =
      Report.timeless <$>
        ((metered settings).verify loop clock' ⟨⟨.fresh 0, 0⟩, (), 0, none⟩).1 := by
  have hl := Separator.maxMargin_forgetful settings.margin
  exact ⟨verify_forgets ht Solver.builtIn_forgetful hl _ _,
    verify_forgets ht Solver.worklist_forgetful hl _ _⟩

/-- The earlier verifications leave queries counted and a meter with tests on it. -/
theorem verify_after_eq_counting :
    ({ initialSamples := 0 } : Settings).timeout = none ∧
    0 < ((builtIn { initialSamples := 0 }).after ⟨⟨(), 0⟩, (), 0, none⟩
      [(miscounting, fun n => ⟨n⟩), (counting, fun _ => ⟨0⟩)]).solver.queries ∧
    Report.timeless <$> ((builtIn { initialSamples := 0 }).verify miscounting (fun _ => ⟨0⟩)
        ((builtIn { initialSamples := 0 }).after ⟨⟨(), 0⟩, (), 0, none⟩
          [(miscounting, fun n => ⟨n⟩), (counting, fun _ => ⟨0⟩)])).1 =
      Report.timeless <$> ((builtIn { initialSamples := 0 }).verify miscounting (fun _ => ⟨1⟩)
        ⟨⟨(), 0⟩, (), 0, none⟩).1 ∧
    0 < ((metered { initialSamples := 0 }).after ⟨⟨.fresh 0, 0⟩, (), 0, none⟩
      [(miscounting, fun n => ⟨n⟩), (counting, fun _ => ⟨0⟩)]).solver.memory.tested.length ∧
    Report.timeless <$> ((metered { initialSamples := 0 }).verify miscounting (fun _ => ⟨0⟩)
        ((metered { initialSamples := 0 }).after ⟨⟨.fresh 0, 0⟩, (), 0, none⟩
          [(miscounting, fun n => ⟨n⟩), (counting, fun _ => ⟨0⟩)])).1 =
      Report.timeless <$> ((metered { initialSamples := 0 }).verify miscounting (fun _ => ⟨1⟩)
        ⟨⟨.fresh 0, 0⟩, (), 0, none⟩).1 := by
  obtain ⟨hbuiltIn, hmetered⟩ := verify_after_eq { initialSamples := 0 } rfl
    [(miscounting, fun n => ⟨n⟩), (counting, fun _ => ⟨0⟩)] miscounting (fun _ => ⟨0⟩) fun _ => ⟨1⟩
  exact ⟨rfl, by decide +kernel, hbuiltIn, by decide +kernel, hmetered⟩

end Verifier
end LoopInvariant
