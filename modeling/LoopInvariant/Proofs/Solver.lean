import LoopInvariant.Solver
import LoopInvariant.Proofs.Model
import LoopInvariant.Proofs.Search

/-! The built-in solver answers truly: a refuted formula is false for all integers, and a model
makes the formula true and is about its variables only. Asking repeatedly keeps this. -/
namespace LoopInvariant

def Answer.ofModel? : Option Model → Answer
  | some m => .sat m
  | none => .unsat

/-- A formula is settled by a model of it on exactly its variables, or by being false everywhere. -/
def Expr.Settled (f : Expr) : Option Model → Prop
  | none => ∀ ρ, f.truth ρ = false
  | some m => m.vars = f.vars ∧ f.truth m.valuation = true

namespace Search

variable {f : Expr} {n : NormalForm} {budget : ℕ}

lemma explore_normalForm {left : ℕ} {o : Option Solution} (hn : f.normalForm true = .ok n)
    (h : explore [] [n] [] budget = (.ok o, left)) :
    Decides f.occurrences (fun ρ => f.truth ρ = true) o := by
  have hvars := Expr.occurrences_normalForm hn
  have hw : Within f.occurrences [] [n] [] := ⟨by simp, by simpa using hvars, by simp⟩
  refine (explore_decides f.occurrences [] [n] [] budget o left hw h).congr fun ρ => ?_
  have htruth : n.truth ρ = f.truth ρ := by
    rw [((Expr.meaning_normalForm f).1 true n hn).2 ρ, beq_true]
  constructor
  · intro hm
    rw [← htruth]
    exact hm.pending n (by simp)
  · intro hf
    exact ⟨by simp, by simpa [htruth] using hf, by simp⟩

/-- The variables that a solution leaves out are zero in the model. -/
lemma settled_of_decides {s : Solution}
    (h : Decides f.occurrences (fun ρ => f.truth ρ = true) (some s)) :
    f.Settled (some ((Model.ofList (f.vars.map fun v => (v, 0))).extend s)) := by
  obtain ⟨hvars, hnodup, htrue⟩ := h
  have hempty : Var.Increasing Model.empty.vars := List.Pairwise.nil
  have hzero : Var.Increasing (Model.ofList (f.vars.map fun v => (v, 0))).vars :=
    Model.increasing_extend hempty
  refine ⟨(Model.increasing_extend hzero).eq_of_mem_iff f.increasing_vars fun v => ?_, ?_⟩
  · rw [Model.mem_vars_extend, Model.ofList, Model.mem_vars_extend, List.map_map,
      Expr.mem_vars]
    constructor
    · rintro ((hv | hv) | hv)
      · simp [Model.vars, Model.empty] at hv
      · simpa using hv
      · exact hvars hv
    · intro hv
      exact .inl (.inr (by simpa using hv))
  · exact htrue _ fun e he => Model.valuation_extend_of_mem hnodup he

theorem settled_of_run {a : Option Model} (h : (run f budget).1 = .ok (.ofModel? a)) :
    f.Sorted .formula ∧ f.Settled a := by
  unfold run at h
  cases hn : f.normalForm true with
  | error e => simp [hn] at h
  | ok n =>
    have hsorted := ((Expr.meaning_normalForm f).1 true n hn).1
    rcases hx : explore [] [n] [] budget with ⟨r, left⟩
    rcases r with (_ | e) | (_ | s)
    · cases a <;> simp [hn, hx, Answer.ofModel?] at h
    · simp [hn, hx] at h
    · have hnone := explore_normalForm hn hx
      cases a with
      | some m => simp [hn, hx, Answer.ofModel?] at h
      | none => exact ⟨hsorted, fun ρ => Bool.eq_false_iff.mpr (hnone ρ)⟩
    · have hsome := settled_of_decides (explore_normalForm hn hx)
      cases a with
      | none => simp [hn, hx, Answer.ofModel?] at h
      | some m =>
        simp only [hn, hx, Answer.ofModel?, Except.ok.injEq, Answer.sat.injEq] at h
        rw [h] at hsome
        exact ⟨hsorted, hsome⟩

end Search

namespace Solver

def Truthful {σ : Type} (s : Solver σ) : Prop :=
  ∀ f budget memory a, (s.check f budget memory).1 = .ok (.ofModel? a) →
    f.Sorted .formula ∧ f.Settled a

lemma builtIn_truthful : builtIn.Truthful := fun _ _ _ _ h => Search.settled_of_run h

/-- A refuted formula is false for all integers, of whatever magnitude. -/
theorem false_of_check_unsat {f : Expr} {budget : ℕ}
    (h : (builtIn.check f budget ()).1 = .ok .unsat) :
    f.Sorted .formula ∧ ∀ ρ : Valuation, f.truth ρ = false :=
  builtIn_truthful f budget () none h

/-- A triangle that contains rational points, but no integer ones. -/
def sliver : Expr :=
  .all [.cmp .le (.var ⟨"y", none⟩) (.arith .mul (.int 3) (.var ⟨"x", none⟩)),
    .cmp .le (.arith .add (.arith .mul (.int 3) (.var ⟨"x", none⟩)) (.var ⟨"y", none⟩)) (.int 3),
    .cmp .ge (.var ⟨"y", none⟩) (.int 1)]

theorem false_of_check_sliver :
    (builtIn.check sliver 10 ()).1 = .ok .unsat ∧ ∀ ρ : Valuation, sliver.truth ρ = false :=
  have h : (builtIn.check sliver 10 ()).1 = .ok .unsat := by decide +kernel
  ⟨h, (false_of_check_unsat h).2⟩

/-- A model is about the variables of the formula and makes it true. The evaluator confirms this
unless an intermediate value overflows. -/
theorem true_of_check_sat {f : Expr} {budget : ℕ} {m : Model}
    (h : (builtIn.check f budget ()).1 = .ok (.sat m)) :
    m.vars = f.vars ∧ (∀ v, (m.get? v).isSome ↔ v ∈ f.occurrences) ∧
      f.Sorted .formula ∧ f.truth m.valuation = true ∧
      (m.evalBool f = .ok true ∨
        ∃ activity, m.evalBool f = .error (.error (.overflow activity))) := by
  obtain ⟨hsorted, hvars, htrue⟩ := builtIn_truthful f budget () (some m) h
  refine ⟨hvars, fun v => ?_, hsorted, htrue, ?_⟩
  · rw [Model.isSome_get?, hvars, Expr.mem_vars]
  · have heval := (m.eval_upToOverflow f).2 hsorted
    cases hr : m.evalBool f with
    | ok b =>
      rw [hr] at heval
      left
      rw [show b = f.truth m.valuation from heval, htrue]
    | error e =>
      rw [hr] at heval
      obtain ⟨activity, rfl⟩ := heval
      exact .inr ⟨activity, rfl⟩

/-- Only the greatest integer of 64 bits is left for `x`, and twice that overflows. -/
def doubled : Expr :=
  .all [.cmp .gt (.arith .add (.var ⟨"x", none⟩) (.var ⟨"x", none⟩)) (.int 0),
    .cmp .gt (.var ⟨"x", none⟩) (.int 9223372036854775806)]

theorem true_of_check_doubled :
    (builtIn.check doubled 10 ()).1 = .ok (.sat ⟨[(⟨"x", none⟩, 9223372036854775807)]⟩) ∧
      doubled.truth (Model.valuation ⟨[(⟨"x", none⟩, 9223372036854775807)]⟩) = true ∧
      Model.evalBool ⟨[(⟨"x", none⟩, 9223372036854775807)]⟩ doubled =
        .error (.error (.overflow "evaluating a term")) :=
  have h : (builtIn.check doubled 10 ()).1 =
      .ok (.sat ⟨[(⟨"x", none⟩, 9223372036854775807)]⟩) := by decide +kernel
  ⟨h, (true_of_check_sat h).2.2.2.1, by decide +kernel⟩

end Solver

namespace Oracle

variable {σ : Type} {o : Oracle σ} {f : Expr} {s t : State σ}

lemma persist_eq_ok {more budget : ℕ} {s : State σ} {a : Option Model}
    (h : o.persist f more budget s = (.ok a, t)) :
    ∃ b memory, (o.solver.check f b memory).1 = .ok (.ofModel? a) := by
  rw [persist.eq_def, Task.bind_eq_ok] at h
  obtain ⟨answer, s', hc, h⟩ := h
  have hcheck : (o.solver.check f budget s.memory).1 = .ok answer := (Prod.ext_iff.mp hc).1
  cases answer with
  | sat m =>
    rw [← (Task.pure_eq_ok.mp h).1]
    exact ⟨budget, s.memory, hcheck⟩
  | unsat =>
    rw [← (Task.pure_eq_ok.mp h).1]
    exact ⟨budget, s.memory, hcheck⟩
  | unknown =>
    cases more with
    | zero => exact absurd h Task.throw_eq_ok
    | succ more => exact persist_eq_ok h

lemma settled_of_model? {a : Option Model} (ho : o.solver.Truthful)
    (h : o.model? f s = (.ok a, t)) : f.Sorted .formula ∧ f.Settled a := by
  rw [model?, Task.bind_eq_ok] at h
  obtain ⟨_, s', _, h⟩ := h
  obtain ⟨budget, memory, hcheck⟩ := persist_eq_ok h
  exact ho f budget memory a hcheck

lemma isSat_eq_ok {b : Bool} (ho : o.solver.Truthful) (h : o.isSat f s = (.ok b, t)) :
    f.Sorted .formula ∧ (b = true ↔ ∃ ρ, f.truth ρ = true) := by
  rw [isSat, Task.bind_eq_ok] at h
  obtain ⟨a, s', hm, h⟩ := h
  obtain ⟨hsorted, hsettled⟩ := settled_of_model? ho hm
  refine ⟨hsorted, ?_⟩
  rw [← (Task.pure_eq_ok.mp h).1]
  cases a with
  | none =>
    have hfalse : ∀ ρ, f.truth ρ = false := hsettled
    simp [hfalse]
  | some m => simpa using ⟨m.valuation, hsettled.2⟩

end Oracle
end LoopInvariant
