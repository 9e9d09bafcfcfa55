import LoopInvariant.Partition
import LoopInvariant.Proofs.Candidate
import LoopInvariant.Proofs.Obligation
import LoopInvariant.Proofs.Trace
import LoopInvariant.Proofs.Translation

/-! How asking the solver can fail. A formula may be outside linear arithmetic or of the wrong kind,
numbers may become too large, and a budget may not suffice. Points of the right dimension are never
refused, and each of them lies in some part of the state space. -/
namespace LoopInvariant

open Result LoopInvariant.Task

/-- Errors that are reported: something is wrong with the settings, with a formula, or with the
size of a number. -/
inductive Error.Reported : Error → Prop
  | settings (reason : String) : Reported (.settings reason)
  | nonlinear (term : String) : Reported (.nonlinear term)
  | sort (expected : Kind) (found : String) : Reported (.sort expected found)
  | overflow (activity : String) : Reported (.overflow activity)

inductive Error.GivesUp : Error → Prop
  | unrollLimit (start : Point) (limit : ℕ) : GivesUp (.unrollLimit start limit)
  | solverUnknown (attempts : ℕ) : GivesUp (.solverUnknown attempts)
  | notConverged (iterations : ℕ) : GivesUp (.notConverged iterations)
  | deadline : GivesUp .deadline

/-- What can go wrong while all vectors have the same length. -/
def Failure.Expected : Failure → Prop
  | .error e => e.Reported ∨ e.GivesUp
  | .fault f => f ≠ .dimension

def Search.Halt.Expected : Search.Halt → Prop
  | .exhausted => True
  | .failed f => f.Expected

lemma Failure.expected_overflow (activity : String) :
    Failure.Expected (.error (.overflow activity)) :=
  .inl (.overflow activity)

lemma Failure.expected_arithmetic : Failure.Expected (.fault .arithmetic) := by
  intro h
  cases h

lemma Expr.Untranslatable.expected {k : Kind} {e : Expr} {f : Failure}
    (h : e.Untranslatable k f) : f.Expected := by
  cases h with
  | sort expected found hs => exact .inl (.sort expected found)
  | nonlinear term => exact .inl (.nonlinear term)
  | overflow activity => exact .inl (.overflow activity)

/-! ### The search -/

namespace Search

lemma failsOnly_solve? (cs : List Constraint) : FailsOnly (Constraint.solve? cs) Failure.Expected := by
  have hbounds : FailsOnly (Tableau.ofConstraints cs) Failure.Expected := by
    unfold Tableau.ofConstraints
    split_ifs
    · exact failsOnly_ok _
    · exact failsOnly_error Failure.expected_arithmetic
  have hcheck (t : Tableau (Tableau.columns cs).length cs.length) :
      FailsOnly t.check Failure.Expected := by
    apply failsOnly_orFault
    intro h
    cases h
  exact hbounds.bind fun t => (hcheck t).bind fun _ => failsOnly_ok _

lemma failsOnly_integers (xs : List (Var × ℚ)) :
    FailsOnly (Tableau.integers xs) Failure.Expected := by
  intro f hf
  rw [Tableau.integers_eq_error hf]
  exact Failure.expected_overflow _

lemma failsOnly_split (cs : List Constraint) (x : Var) (q : ℚ) :
    FailsOnly (split cs x q) Failure.Expected := by
  have hshift (l : LinearForm) (d : Int64) : FailsOnly (l.shift d) Failure.Expected :=
    failsOnly_orError (Failure.expected_overflow _)
  have hscale (l : LinearForm) (k : Int64) : FailsOnly (l.scale k) Failure.Expected :=
    failsOnly_orError (Failure.expected_overflow _)
  refine (failsOnly_orError (Failure.expected_overflow _)).bind fun floor => ?_
  refine (failsOnly_orFault Failure.expected_arithmetic).bind fun negated => ?_
  refine (hshift _ negated).bind fun l => (hshift l _).bind fun above => ?_
  exact (hscale _ _).bind fun l => (hshift l floor).bind fun below => failsOnly_ok _

lemma failsOnly_branchAndBound (left : ℕ) (stack : List (List Constraint)) :
    FailsOnly (branchAndBound left stack).1 Halt.Expected := by
  induction left, stack using branchAndBound.induct with
  | case1 left =>
    rw [branchAndBound]
    exact failsOnly_ok none
  | case2 cs more =>
    rw [branchAndBound]
    exact failsOnly_error trivial
  | case3 left cs more f hs =>
    simp only [branchAndBound, hs]
    exact failsOnly_error (failsOnly_solve? cs f hs)
  | case4 left cs more hs ih =>
    simp only [branchAndBound, hs]
    exact ih
  | case5 left cs more xs hs hf vs hi =>
    simp only [branchAndBound, hs, hf, hi]
    exact failsOnly_ok (some vs)
  | case6 left cs more xs hs hf f hi =>
    simp only [branchAndBound, hs, hf, hi]
    exact failsOnly_error (failsOnly_integers xs f hi)
  | case7 left cs more xs hs x q hf down up hsplit ih =>
    simp only [branchAndBound, hs, hf, hsplit]
    exact ih
  | case8 left cs more xs hs x q hf f hsplit =>
    simp only [branchAndBound, hs, hf, hsplit]
    exact failsOnly_error (failsOnly_split cs x q f hsplit)

lemma ensures_feasible? (cs : List Constraint) :
    Ensures (feasible? cs) Halt.Expected fun _ => True := by
  intro left
  cases left with
  | zero => exact trivial
  | succ left =>
    cases hs : Constraint.solve? cs with
    | error f =>
      rw [feasible?_of_error hs]
      exact failsOnly_solve? cs f hs
    | ok answer =>
      rw [feasible?_of_ok hs]
      exact trivial

lemma ensures_explore (cs : List Constraint) (pending : List NormalForm)
    (choices : List (List NormalForm)) :
    Ensures (explore cs pending choices) Halt.Expected fun _ => True := by
  refine @explore.induct
    (fun cs pending choices => Ensures (explore cs pending choices) Halt.Expected fun _ => True)
    (fun cs alts choices => Ensures (firstOf cs alts choices) Halt.Expected fun _ => True)
    ?leaf ?choose ?true ?false ?atom ?and ?or ?noAlternative ?alternative cs pending choices
  case leaf =>
    intro cs
    rw [explore]
    exact fun left => (failsOnly_branchAndBound left [cs]).ensures fun _ _ => trivial
  case choose =>
    intro cs alts choices ih
    rw [explore]
    exact ih
  case true =>
    intro cs choices pending ih
    rw [explore]
    exact ih
  case false =>
    intro cs choices pending
    rw [explore]
    exact ensures_pure trivial
  case atom =>
    intro cs choices c pending ih
    rw [explore]
    apply (ensures_feasible? (cs ++ [c])).bind
    intro answer _
    cases answer with
    | none => exact ensures_pure trivial
    | some xs => exact ih
  case and =>
    intro cs choices args pending ih
    rw [explore]
    exact ih
  case or =>
    intro cs choices args pending ih
    rw [explore]
    exact ih
  case noAlternative =>
    intro cs choices
    rw [firstOf]
    exact ensures_pure trivial
  case alternative =>
    intro cs choices a alts ihFirst ihRest
    rw [firstOf]
    apply ihFirst.bind
    intro first _
    cases first with
    | none => exact ihRest
    | some s => exact ensures_pure trivial

theorem failsOnly_run (f : Expr) (budget : ℕ) :
    FailsOnly (run f budget).1 Failure.Expected := by
  unfold run
  cases hn : f.normalForm true with
  | error e => exact failsOnly_error ((Expr.failsOnly_normalForm f).1 true e hn).expected
  | ok n =>
    have hexplore := ensures_explore [] [n] [] budget
    rcases hx : explore [] [n] [] budget with ⟨(_ | e) | (_ | s), left⟩
    · simp only [hx]
      exact failsOnly_ok _
    · rw [hx] at hexplore
      simp only [hx]
      exact failsOnly_error hexplore
    · simp only [hx]
      exact failsOnly_ok _
    · simp only [hx]
      exact failsOnly_ok _

end Search

/-! ### Asking -/

def Solver.Dependable {σ : Type} (s : Solver σ) : Prop :=
  ∀ f budget memory, FailsOnly (s.check f budget memory).1 Failure.Expected

lemma Solver.builtIn_dependable : builtIn.Dependable := fun f budget _ => Search.failsOnly_run f budget

variable {σ : Type} {o : Oracle σ} {l : Loop}

namespace Oracle

lemma ensures_persist (ho : o.solver.Dependable) (f : Expr) (more budget : ℕ) :
    Ensures (o.persist f more budget) Failure.Expected fun _ => True := by
  have hconsult (budget : ℕ) : Ensures (o.consult f budget) Failure.Expected fun _ => True :=
    fun s => (ho f budget s.memory).ensures fun _ _ => trivial
  induction more generalizing budget with
  | zero =>
    rw [persist]
    apply (hconsult budget).bind
    intro answer _
    cases answer with
    | sat m => exact ensures_pure trivial
    | unsat => exact ensures_pure trivial
    | unknown => exact ensures_throw (.inr (.solverUnknown _))
  | succ more ih =>
    rw [persist]
    apply (hconsult budget).bind
    intro answer _
    cases answer with
    | sat m => exact ensures_pure trivial
    | unsat => exact ensures_pure trivial
    | unknown => exact ih _

lemma ensures_model? (ho : o.solver.Dependable) (f : Expr) :
    Ensures (o.model? f) Failure.Expected fun _ => True :=
  (ensures_modify _).bind fun _ _ => ensures_persist ho f _ _

lemma ensures_isSat (ho : o.solver.Dependable) (f : Expr) :
    Ensures (o.isSat f) Failure.Expected fun _ => True :=
  (ensures_model? ho f).bind fun _ _ => ensures_pure trivial

end Oracle

lemma Loop.exists_state {p : Point} (hp : p.dim = l.dim) (stage : Stage) :
    ∃ f, l.state p stage = .ok f := by
  unfold Loop.state
  exact ⟨_, if_pos hp⟩

lemma Loop.ensures_state {S : Type} {p : Point} (hp : p.dim = l.dim) (stage : Stage) :
    Ensures (Task.ofResult (l.state p stage) : Task S Expr) Failure.Expected
      fun f => l.state p stage = .ok f := by
  obtain ⟨f, hf⟩ := Loop.exists_state hp stage
  intro s
  change Result.Ensures (l.state p stage) _ _
  rw [hf]
  exact rfl

namespace Trace

lemma ensures_walk (ho : o.solver.Dependable) (start : Point) (limit left : ℕ) (seen : List Point)
    {current : Point} (hdim : current.dim = l.dim) :
    Ensures (walk o l start limit left seen current) Failure.Expected fun _ => True := by
  induction left generalizing seen current with
  | zero =>
    rw [walk]
    apply (Loop.ensures_state hdim .pre).bind
    intro f _
    apply (Oracle.ensures_isSat ho _).bind
    intro b _
    cases b with
    | false => exact ensures_pure trivial
    | true => exact ensures_throw (.inr (.unrollLimit start limit))
  | succ left ih =>
    rw [walk]
    apply (Loop.ensures_state hdim .pre).bind
    intro f _
    apply (Oracle.ensures_isSat ho _).bind
    intro b _
    cases b with
    | false => exact ensures_pure trivial
    | true =>
      apply (Oracle.ensures_model? ho _).bind
      intro a _
      cases a with
      | none => exact ensures_pure trivial
      | some m => exact ih _ (Loop.length_project .highest)

lemma ensures_classify (ho : o.solver.Dependable) {start : Point} (hdim : start.dim = l.dim)
    (limit : ℕ) :
    Ensures (classify o l start limit) Failure.Expected fun r => ∀ p ∈ r.2, p.dim = l.dim := by
  have hwalk : Ensures (walk o l start limit limit [] start) Failure.Expected
      fun r => ∀ p ∈ r.1, p.dim = l.dim :=
    (ensures_walk ho start limit limit [] hdim).of_ok fun _ _ _ h => walk_dim h (by simp)
  apply (Loop.ensures_state hdim .pre).bind
  intro f _
  apply (Oracle.ensures_isSat ho _).bind
  intro inPre _
  apply hwalk.bind
  intro r hr
  have hlast : (r.1.getLastD start).dim = l.dim := by
    rcases List.mem_cons.mp (List.getLastD_mem_cons (l := r.1) (a := start)) with h | h
    · rw [h]
      exact hdim
    · exact hr _ h
  apply (Loop.ensures_state hlast .post).bind
  intro g _
  apply (Oracle.ensures_isSat ho _).bind
  intro inPost _
  exact ensures_pure hr

end Trace

def Validity.Sized (d : ℕ) : Validity → Prop
  | .valid => True
  | .invalid _ witness => witness.dim = d

lemma Obligation.ensures_check (ho : o.solver.Dependable) (inv : Expr) :
    Ensures (check o l inv) Failure.Expected (Validity.Sized l.dim) := by
  unfold check
  induction all with
  | nil => exact ensures_pure trivial
  | cons c rest ih =>
    rw [checkEach]
    apply (Oracle.ensures_model? ho _).bind
    intro a _
    cases a with
    | none => exact ih
    | some m => exact ensures_pure (Loop.length_project .lowest)

/-! ### Parts of the state space -/

namespace Partition

variable {onCond : Bool} {gs : List Expr}

lemma failsOnly_guards : FailsOnly (guards l onCond) Failure.Expected := by
  unfold guards
  simp only
  split_ifs
  · exact failsOnly_ok _
  · apply failsOnly_error
    intro h
    cases h

lemma ensures_locate (ho : o.solver.Dependable) (htrue : o.solver.Truthful) (hn : l.names.Nodup)
    (hgs : guards l onCond = .ok gs) {p : Point} (hdim : p.dim = l.dim) :
    Ensures (locate o l gs p) Failure.Expected fun _ => True := by
  apply (Loop.ensures_state hdim .pre).bind
  intro f hf
  have hsat (g : Expr) : Ensures (o.isSat (.all [g, f])) Failure.Expected
      fun b => b = true ↔ ∃ ρ, (Expr.all [g, f]).truth ρ = true :=
    (Oracle.ensures_isSat ho _).of_ok fun _ _ _ h => (Oracle.isSat_eq_ok htrue h).2
  apply (Ensures.mapM fun g _ => hsat g).bind
  intro flags hflags
  -- the guard that holds at the point is satisfied together with the formula for the point
  have hany : flags.any id = true := by
    obtain ⟨g, hg, hgtrue⟩ := exists_guard hgs (l.reading StateVar.before (l.ofPoint p))
    have hreads : l.Reads StateVar.before (l.ofPoint p)
        (l.reading StateVar.before (l.ofPoint p)) := Loop.reads_reading hn (fun _ => rfl) _
    have hstate := (Loop.truth_state hf _).mpr hreads
    obtain ⟨b, hb, hflag⟩ := exists_of_forall₂_left hflags hg
    rw [List.any_eq_true]
    exact ⟨b, hb, hflag.mpr ⟨_, (Expr.truth_all_pair _ _ _).mpr ⟨hgtrue, hstate⟩⟩⟩
  rw [if_pos hany]
  exact ensures_pure trivial

lemma ensures_file (ho : o.solver.Dependable) (htrue : o.solver.Truthful) (hn : l.names.Nodup)
    (hgs : guards l onCond = .ok gs) {points : List Point} (hdim : ∀ p ∈ points, p.dim = l.dim) :
    Ensures (file o l gs points) Failure.Expected fun parts => ∀ part ∈ parts, part ⊆ points := by
  have hrow (p : Point) (hp : p ∈ points) :
      Ensures (do return (p, ← locate o l gs p) : Oracle.Asking σ (Point × List Bool))
        Failure.Expected fun r => p = r.1 :=
    (ensures_locate ho htrue hn hgs (hdim p hp)).bind fun flags _ => ensures_pure rfl
  apply (Ensures.mapM hrow).bind
  intro rows hrows
  apply ensures_pure
  intro part hpart q hq
  obtain ⟨i, _, rfl⟩ := List.mem_map.mp hpart
  obtain ⟨r, hr, rfl⟩ := List.mem_map.mp hq
  have hmem : r ∈ rows := (List.mem_filter.mp hr).1
  obtain ⟨p, hp, heq⟩ := exists_of_forall₂_right hrows hmem
  exact heq ▸ hp

end Partition
end LoopInvariant
