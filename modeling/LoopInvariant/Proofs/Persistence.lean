import LoopInvariant.Proofs.Budget

/-! How often a solver is asked, and with which budgets. A question is repeated while the answer is
unknown, each time with the budget multiplied, and the first other answer is the result. -/
namespace LoopInvariant

namespace Solver

variable {σ : Type}

/-- The solver with a record of its calls, the first one first. -/
def recorded (s : Solver σ) : Solver (σ × List (Expr × ℕ)) :=
  ⟨fun f budget m => ((s.check f budget m.1).1, (s.check f budget m.1).2, m.2 ++ [(f, budget)])⟩

lemma after_concat (s : Solver σ) (memory : σ) (queries : List (Expr × ℕ)) (f : Expr) (budget : ℕ) :
    s.after memory (queries ++ [(f, budget)]) = (s.check f budget (s.after memory queries)).2 := by
  rw [after, List.foldl_append]
  rfl

lemma after_recorded (s : Solver σ) (memory : σ) (calls queries : List (Expr × ℕ)) :
    s.recorded.after (memory, calls) queries = (s.after memory queries, calls ++ queries) := by
  induction queries using List.reverseRecOn with
  | nil =>
    rw [List.append_nil]
    rfl
  | append_singleton queries q ih =>
    obtain ⟨f, budget⟩ := q
    rw [after_concat, ih, after_concat, ← List.append_assoc]
    rfl

end Solver

namespace Oracle

variable {σ : Type} {o : Oracle σ} {f : Expr} {memory : σ} {s t : State σ} {k : ℕ}

def recorded (o : Oracle σ) : Oracle (σ × List (Expr × ℕ)) :=
  ⟨o.solver.recorded, o.budget, o.retries, o.growth⟩

def State.recorded (s : State σ) (calls : List (Expr × ℕ)) : State (σ × List (Expr × ℕ)) :=
  ⟨(s.memory, calls), s.queries⟩

/-! ### Budgets -/

/-- The budget after `k` unknown answers. -/
def budgetAt (o : Oracle σ) : ℕ → ℕ
  | 0 => o.budget
  | k + 1 => min (o.budgetAt k * o.growth) maxBudget

/-- A product that was cut off once stays so, unless it becomes zero. -/
lemma min_min_mul (a g m : ℕ) : min (min a m * g) m = min (a * g) m := by
  rcases Nat.eq_zero_or_pos g with rfl | hg
  · simp
  · rw [← Nat.mul_min_mul_right, min_assoc, min_eq_right (Nat.le_mul_of_pos_right m hg)]

lemma budgetAt_eq (h : o.budget ≤ maxBudget) (k : ℕ) :
    o.budgetAt k = min (o.budget * o.growth ^ k) maxBudget := by
  induction k with
  | zero => rw [budgetAt, pow_zero, mul_one, min_eq_left h]
  | succ k ih => rw [budgetAt, ih, min_min_mul, pow_succ, mul_assoc]

/-! ### Calls -/

/-- The first `n` calls for a formula, as far as they come about. -/
def schedule (o : Oracle σ) (f : Expr) (n : ℕ) : List (Expr × ℕ) :=
  (List.range n).map fun k => (f, o.budgetAt k)

lemma schedule_succ (o : Oracle σ) (f : Expr) (n : ℕ) :
    o.schedule f (n + 1) = o.schedule f n ++ [(f, o.budgetAt n)] := by
  rw [schedule, List.range_succ, List.map_append]
  rfl

/-- What the solver says when it is called after `k` others of these calls. -/
def reply (o : Oracle σ) (f : Expr) (memory : σ) (k : ℕ) : Result Answer :=
  (o.solver.check f (o.budgetAt k) (o.solver.after memory (o.schedule f k))).1

def conclude (o : Oracle σ) : Result Answer → Result (Option Model)
  | .ok (.sat m) => .ok (some m)
  | .ok .unsat => .ok none
  | .ok .unknown => .error (.error (.solverUnknown (o.retries + 1)))
  | .error e => .error e

lemma consult_schedule (o : Oracle σ) (f : Expr) (memory : σ) (k queries : ℕ) :
    o.consult f (o.budgetAt k) ⟨o.solver.after memory (o.schedule f k), queries⟩ =
      (o.reply f memory k, ⟨o.solver.after memory (o.schedule f (k + 1)), queries⟩) := by
  rw [schedule_succ, Solver.after_concat]
  rfl

lemma persist_of_last {more budget : ℕ} {r : Result Answer} (h : o.consult f budget s = (r, t))
    (hlast : r = .ok .unknown → more = 0) : o.persist f more budget s = (o.conclude r, t) := by
  rw [persist.eq_def]
  cases r with
  | error e => exact Task.bind_of_error h
  | ok answer =>
    rw [Task.bind_of_ok h]
    cases answer with
    | sat m => rfl
    | unsat => rfl
    | unknown =>
      rw [hlast rfl]
      rfl

lemma persist_of_unknown {more budget : ℕ} (h : o.consult f budget s = (.ok .unknown, t)) :
    o.persist f (more + 1) budget s =
      o.persist f more (min (budget * o.growth) maxBudget) t := by
  rw [persist.eq_def, Task.bind_of_ok h]

/-- Calls that go on after `k` unknown answers, for `n` more of them. -/
lemma persist_of_replies {n more : ℕ} (hle : n ≤ more)
    (hunknown : ∀ j < n, o.reply f memory (k + j) = .ok .unknown)
    (hlast : o.reply f memory (k + n) = .ok .unknown → n = more) (queries : ℕ) :
    o.persist f more (o.budgetAt k) ⟨o.solver.after memory (o.schedule f k), queries⟩ =
      (o.conclude (o.reply f memory (k + n)),
        ⟨o.solver.after memory (o.schedule f (k + n + 1)), queries⟩) := by
  induction n generalizing k more with
  | zero =>
    apply persist_of_last (consult_schedule o f memory k queries)
    exact fun h => (hlast h).symm
  | succ n ih =>
    obtain ⟨more, rfl⟩ := Nat.exists_eq_add_of_lt hle
    have hfirst : o.reply f memory k = .ok .unknown := hunknown 0 (Nat.succ_pos n)
    have hcall := consult_schedule o f memory k queries
    rw [hfirst] at hcall
    have hshift (j : ℕ) : k + 1 + j = k + (j + 1) := by omega
    rw [persist_of_unknown hcall, ← budgetAt, ih (by omega)]
    · rw [hshift]
    · intro j hj
      rw [hshift]
      exact hunknown (j + 1) (by omega)
    · intro h
      rw [hshift] at h
      have := hlast h
      omega

/-! ### The last call -/

/-- The call after `k` unknown answers is the last one: it gives another answer, or no more calls
are left. -/
structure EndsAt (o : Oracle σ) (f : Expr) (memory : σ) (k : ℕ) : Prop where
  le_retries : k ≤ o.retries
  unknown : ∀ j < k, o.reply f memory j = .ok .unknown
  last : o.reply f memory k = .ok .unknown → k = o.retries

lemma exists_endsAt (o : Oracle σ) (f : Expr) (memory : σ) : ∃ k, o.EndsAt f memory k := by
  by_cases h : ∃ k ≤ o.retries, o.reply f memory k ≠ .ok .unknown
  · classical
    obtain ⟨hle, hknown⟩ := Nat.find_spec h
    refine ⟨Nat.find h, hle, fun j hj => ?_, fun hunknown => absurd hunknown hknown⟩
    by_contra hj'
    exact Nat.find_min h hj ⟨(Nat.le_of_lt hj).trans hle, hj'⟩
  · push Not at h
    exact ⟨o.retries, le_rfl, fun j hj => h j (Nat.le_of_lt hj), fun _ => rfl⟩

/-- A question is its calls one after the other, and it is counted once. -/
lemma model?_of_endsAt (h : o.EndsAt f s.memory k) :
    o.model? f s = (o.conclude (o.reply f s.memory k),
      ⟨o.solver.after s.memory (o.schedule f (k + 1)), s.queries + 1⟩) := by
  have hcalls := persist_of_replies (k := 0) h.le_retries (by simpa using h.unknown)
    (by simpa using h.last) (s.queries + 1)
  rw [Nat.zero_add] at hcalls
  exact (Task.bind_of_ok (Task.modify_apply _ s)).trans hcalls

lemma queries_model? (o : Oracle σ) (f : Expr) (s : State σ) :
    (o.model? f s).2.queries = s.queries + 1 := by
  obtain ⟨k, hk⟩ := o.exists_endsAt f s.memory
  rw [model?_of_endsAt hk]

lemma isSat_apply (o : Oracle σ) (f : Expr) (s : State σ) :
    o.isSat f s = (Option.isSome <$> (o.model? f s).1, (o.model? f s).2) := by
  rcases h : o.model? f s with ⟨e | a, t⟩
  · exact Task.bind_of_error h
  · exact Task.bind_of_ok h

/-- The last call for a formula ends with a failure of the solver itself. -/
def Refuses (o : Oracle σ) (f : Expr) (s : State σ) (e : Failure) : Prop :=
  ∃ k, o.EndsAt f s.memory k ∧ o.reply f s.memory k = .error e

lemma model?_of_refuses {e : Failure} (h : o.Refuses f s e) :
    o.model? f s = (.error e, (o.model? f s).2) := by
  obtain ⟨k, hk, hreply⟩ := h
  rw [model?_of_endsAt hk, hreply]
  rfl

lemma refuses_of_model? {e : Failure} (h : o.model? f s = (.error e, t)) :
    o.Refuses f s e ∨ e = .error (.solverUnknown (o.retries + 1)) := by
  obtain ⟨k, hk⟩ := o.exists_endsAt f s.memory
  rw [model?_of_endsAt hk, Prod.mk.injEq] at h
  cases hr : o.reply f s.memory k with
  | error e' =>
    rw [hr] at h
    obtain rfl : e' = e := Except.error.inj h.1
    exact .inl ⟨k, hk, hr⟩
  | ok answer =>
    rw [hr] at h
    cases answer with
    | sat m => cases h.1
    | unsat => cases h.1
    | unknown => exact .inr (Except.error.inj h.1).symm

/-! ### What the record shows -/

lemma budgetAt_recorded (o : Oracle σ) (k : ℕ) : o.recorded.budgetAt k = o.budgetAt k := by
  induction k with
  | zero => rfl
  | succ k ih =>
    rw [budgetAt, ih]
    rfl

lemma schedule_recorded (o : Oracle σ) (f : Expr) (n : ℕ) :
    o.recorded.schedule f n = o.schedule f n := by
  simp only [schedule, budgetAt_recorded]

lemma reply_recorded (o : Oracle σ) (f : Expr) (memory : σ) (calls : List (Expr × ℕ)) (k : ℕ) :
    o.recorded.reply f (memory, calls) k = o.reply f memory k := by
  have hafter := o.solver.after_recorded memory calls (o.schedule f k)
  rw [reply, budgetAt_recorded, schedule_recorded]
  change (o.solver.check f _ (o.solver.recorded.after (memory, calls) _).1).1 = _
  rw [hafter]
  rfl

lemma EndsAt.recorded (h : o.EndsAt f memory k) (calls : List (Expr × ℕ)) :
    o.recorded.EndsAt f (memory, calls) k := by
  refine ⟨h.le_retries, fun j hj => ?_, fun hunknown => ?_⟩
  · rw [reply_recorded]
    exact h.unknown j hj
  · rw [reply_recorded] at hunknown
    exact h.last hunknown

lemma model?_recorded (h : o.EndsAt f s.memory k) (calls : List (Expr × ℕ)) :
    o.recorded.model? f (s.recorded calls) =
      ((o.model? f s).1, (o.model? f s).2.recorded (calls ++ o.schedule f (k + 1))) := by
  rw [model?_of_endsAt (s := s.recorded calls) (h.recorded calls), model?_of_endsAt h]
  change (o.conclude (o.recorded.reply f (s.memory, calls) k),
    State.mk (o.solver.recorded.after (s.memory, calls) (o.recorded.schedule f (k + 1)))
      (s.queries + 1)) = _
  rw [reply_recorded, schedule_recorded, Solver.after_recorded]
  rfl

/-- A question is put to the solver with the first budget, and again with each next power of the
growth, cut off at 64 bits, until an answer is not unknown or all retries are used up. The last
answer is the result, an error of the solver included. The question counts once, whatever comes of
it. -/
theorem retries_until_answered (o : Oracle σ) (hbudget : o.budget ≤ maxBudget) (f : Expr)
    (s : State σ) :
    ∃ k ≤ o.retries,
      (∀ j < k, o.reply f s.memory j = .ok .unknown) ∧
      (o.reply f s.memory k = .ok .unknown → k = o.retries) ∧
      (∀ j, o.budgetAt j = min (o.budget * o.growth ^ j) maxBudget) ∧
      o.model? f s = (o.conclude (o.reply f s.memory k),
        ⟨o.solver.after s.memory (o.schedule f (k + 1)), s.queries + 1⟩) ∧
      ∀ calls, o.recorded.model? f (s.recorded calls) =
        ((o.model? f s).1, (o.model? f s).2.recorded (calls ++ (List.range (k + 1)).map fun j =>
          (f, min (o.budget * o.growth ^ j) maxBudget))) := by
  obtain ⟨k, hk⟩ := o.exists_endsAt f s.memory
  refine ⟨k, hk.le_retries, hk.unknown, hk.last, budgetAt_eq hbudget, model?_of_endsAt hk,
    fun calls => ?_⟩
  rw [model?_recorded hk]
  simp only [schedule, budgetAt_eq hbudget]

/-- Finds out with its third call, and not before, that a formula has no model. -/
def hesitant (retries : ℕ) : Oracle ℕ where
  solver := ⟨fun _ _ n => (.ok (if n < 2 then .unknown else .unsat), n + 1)⟩
  budget := 9223372036854775808
  retries
  growth := 4

/-- The second budget is cut off, and so is the third. One retry is too few for an answer. -/
theorem retries_until_answered_hesitant :
    9223372036854775808 ≤ maxBudget ∧
    (hesitant 5).recorded.model? (.bool false) (State.recorded ⟨0, 0⟩ []) =
      (.ok none, State.recorded ⟨3, 1⟩ [(.bool false, 9223372036854775808),
        (.bool false, maxBudget), (.bool false, maxBudget)]) ∧
    (hesitant 1).recorded.model? (.bool false) (State.recorded ⟨0, 0⟩ []) =
      (.error (.error (.solverUnknown 2)), State.recorded ⟨2, 1⟩
        [(.bool false, 9223372036854775808), (.bool false, maxBudget)]) := by
  have hbudget : 9223372036854775808 ≤ maxBudget := by decide
  obtain ⟨k, hle, hunknown, hlast, _, hmodel, hrecord⟩ :=
    retries_until_answered (hesitant 5) hbudget (.bool false) ⟨0, 0⟩
  obtain ⟨k', hle', hunknown', hlast', _, hmodel', hrecord'⟩ :=
    retries_until_answered (hesitant 1) hbudget (.bool false) ⟨0, 0⟩
  have hfirst : k ≠ 0 := by
    rintro rfl
    exact absurd (hlast rfl) (by decide)
  have hsecond : k ≠ 1 := by
    rintro rfl
    exact absurd (hlast rfl) (by decide)
  have hthird : ¬2 < k := fun h => absurd (hunknown 2 h) (by decide)
  have hfirst' : k' ≠ 0 := by
    rintro rfl
    exact absurd (hlast' rfl) (by decide)
  obtain rfl : k = 2 := by omega
  obtain rfl : k' = 1 := Nat.le_antisymm hle' (Nat.one_le_iff_ne_zero.mpr hfirst')
  refine ⟨hbudget, ?_, ?_⟩
  · rw [hrecord, hmodel]
    rfl
  · rw [hrecord', hmodel']
    rfl

end Oracle
end LoopInvariant
