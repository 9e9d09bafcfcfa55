import LoopInvariant.Proofs.Worklist

/-! What a budget does to a search. There is a number of feasibility tests that the search takes;
with fewer it is exhausted and has spent them all, and with more it comes to one and the same outcome
and leaves the others. Only a search that never ends has no such number. The answers of the solver
inherit this threshold. -/
namespace LoopInvariant

namespace Search

variable {α β : Type} {x : Budgeted α} {f : α → Budgeted β} {n k : ℕ}

/-- The search takes exactly `n` tests to come to its outcome. -/
structure Takes (x : Budgeted α) (n : ℕ) (outcome : Except Halt α) : Prop where
  decided : outcome ≠ .error .exhausted
  below : ∀ b < n, x b = (.error .exhausted, 0)
  above : ∀ b, x (n + b) = (outcome, b)

def Endless (x : Budgeted α) : Prop := ∀ b, x b = (.error .exhausted, 0)

def Settles (x : Budgeted α) : Prop := ∃ n outcome, Takes x n outcome

def SettlesWithin (x : Budgeted α) (n : ℕ) : Prop := ∃ k ≤ n, ∃ outcome, Takes x k outcome

def Steady (x : Budgeted α) : Prop := Endless x ∨ Settles x

/-! ### Putting searches together -/

lemma takes_zero {outcome : Except Halt α} (hd : outcome ≠ .error .exhausted)
    (h : ∀ b, x b = (outcome, b)) : Takes x 0 outcome := by
  refine ⟨hd, fun b hb => absurd hb (Nat.not_lt_zero b), fun b => ?_⟩
  rw [Nat.zero_add]
  exact h b

lemma settles_pure (a : α) : Settles (pure a : Budgeted α) :=
  ⟨0, .ok a, takes_zero (by simp) fun _ => rfl⟩

lemma Takes.succ {y : Budgeted α} {outcome : Except Halt α} (h : Takes y n outcome)
    (hzero : x 0 = (.error .exhausted, 0)) (hsucc : ∀ b, x (b + 1) = y b) :
    Takes x (n + 1) outcome := by
  refine ⟨h.decided, fun b hb => ?_, fun b => ?_⟩
  · cases b with
    | zero => exact hzero
    | succ b =>
      rw [hsucc]
      exact h.below b (by omega)
  · have hsum : n + 1 + b = n + b + 1 := by omega
    rw [hsum, hsucc]
    exact h.above b

lemma Settles.succ {y : Budgeted α} (h : Settles y) (hzero : x 0 = (.error .exhausted, 0))
    (hsucc : ∀ b, x (b + 1) = y b) : Settles x := by
  obtain ⟨n, outcome, hn⟩ := h
  exact ⟨n + 1, outcome, hn.succ hzero hsucc⟩

lemma takes_one {outcome : Except Halt α} (hd : outcome ≠ .error .exhausted)
    (hzero : x 0 = (.error .exhausted, 0)) (hsucc : ∀ b, x (b + 1) = (outcome, b)) :
    Takes x 1 outcome := by
  have hrest : Takes (fun b => (outcome, b) : Budgeted α) 0 outcome := takes_zero hd fun _ => rfl
  exact hrest.succ hzero hsucc

lemma Takes.bind_ok {a : α} {outcome : Except Halt β} (hx : Takes x n (.ok a))
    (hf : Takes (f a) k outcome) : Takes (x >>= f) (n + k) outcome := by
  refine ⟨hf.decided, fun b hb => ?_, fun b => ?_⟩
  · rcases Nat.lt_or_ge b n with hlt | hge
    · exact Task.bind_of_error (hx.below b hlt)
    · obtain ⟨c, rfl⟩ := Nat.exists_eq_add_of_le hge
      rw [Task.bind_of_ok (hx.above c)]
      exact hf.below c (by omega)
  · rw [Nat.add_assoc, Task.bind_of_ok (hx.above (k + b))]
    exact hf.above b

lemma Takes.bind_error {h : Halt} (hx : Takes x n (.error h)) :
    Takes (x >>= f) n (.error h) := by
  have hne : h ≠ .exhausted := fun he => hx.decided (he ▸ rfl)
  exact ⟨by simpa using hne, fun b hb => Task.bind_of_error (hx.below b hb),
    fun b => Task.bind_of_error (hx.above b)⟩

lemma SettlesWithin.bind (hx : SettlesWithin x n) (hf : ∀ a, SettlesWithin (f a) k) :
    SettlesWithin (x >>= f) (n + k) := by
  obtain ⟨i, hi, outcome, hx⟩ := hx
  cases outcome with
  | error h => exact ⟨i, by omega, .error h, hx.bind_error⟩
  | ok a =>
    obtain ⟨j, hj, outcome, hj'⟩ := hf a
    exact ⟨i + j, by omega, outcome, hx.bind_ok hj'⟩

lemma SettlesWithin.mono (h : SettlesWithin x n) (hnk : n ≤ k) : SettlesWithin x k := by
  obtain ⟨i, hi, outcome, hx⟩ := h
  exact ⟨i, hi.trans hnk, outcome, hx⟩

lemma settlesWithin_pure (a : α) (n : ℕ) : SettlesWithin (pure a : Budgeted α) n :=
  ⟨0, Nat.zero_le n, .ok a, takes_zero (by simp) fun _ => rfl⟩

lemma Endless.bind (hx : Endless x) : Endless (x >>= f) := fun b => Task.bind_of_error (hx b)

lemma Takes.endless_bind {a : α} (hx : Takes x n (.ok a)) (hf : Endless (f a)) :
    Endless (x >>= f) := by
  intro b
  rcases Nat.lt_or_ge b n with hlt | hge
  · exact Task.bind_of_error (hx.below b hlt)
  · obtain ⟨c, rfl⟩ := Nat.exists_eq_add_of_le hge
    rw [Task.bind_of_ok (hx.above c)]
    exact hf c

lemma Steady.bind (hx : Steady x) (hf : ∀ a, Steady (f a)) : Steady (x >>= f) := by
  rcases hx with hx | ⟨n, outcome, hx⟩
  · exact .inl hx.bind
  · cases outcome with
    | error h => exact .inr ⟨n, .error h, hx.bind_error⟩
    | ok a =>
      rcases hf a with hf | ⟨k, outcome, hf⟩
      · exact .inl (hx.endless_bind hf)
      · exact .inr ⟨n + k, outcome, hx.bind_ok hf⟩

/-! ### The parts of the search -/

lemma takes_feasible?_of_ok {cs : List Constraint} {answer : Option (List (Var × ℚ))}
    (hs : Constraint.solve? cs = .ok answer) : Takes (feasible? cs) 1 (.ok answer) :=
  takes_one (by simp) (feasible?_zero cs) (feasible?_of_ok hs)

lemma takes_feasible? (cs : List Constraint) : ∃ outcome, Takes (feasible? cs) 1 outcome := by
  cases hs : Constraint.solve? cs with
  | error f => exact ⟨_, takes_one (by simp) (feasible?_zero cs) (feasible?_of_error hs)⟩
  | ok answer => exact ⟨_, takes_feasible?_of_ok hs⟩

def bounding (stack : List (List Constraint)) : Budgeted (Option Solution) := fun left =>
  branchAndBound left stack

lemma takes_bounding_nil : Takes (bounding []) 0 (.ok none) := by
  refine takes_zero (by simp) fun b => ?_
  rw [bounding, branchAndBound]

lemma bounding_zero (cs : List Constraint) (stack : List (List Constraint)) :
    bounding (cs :: stack) 0 = (.error .exhausted, 0) := by
  rw [bounding, branchAndBound]

/-- The first conjunction is tested. Then the search ends, or goes on with what is left: nothing of
the conjunction if it is infeasible, and its two parts if it is split. -/
lemma bounding_cons (cs : List Constraint) (stack : List (List Constraint)) :
    (∃ outcome, Takes (bounding (cs :: stack)) 1 outcome) ∨
      ∃ more, (∀ left, bounding (cs :: stack) (left + 1) = bounding more left) ∧
        (Constraint.solve? cs = .ok none ∧ more = stack ∨
          ∃ xs x q down up, Constraint.solve? cs = .ok (some xs) ∧
            Tableau.fractional? xs = some (x, q) ∧ split cs x q = .ok (down, up) ∧
            more = down :: up :: stack) := by
  have hzero := bounding_zero cs stack
  cases hs : Constraint.solve? cs with
  | error f =>
    refine .inl ⟨.error (.failed f), takes_one (by simp) hzero fun b => ?_⟩
    simp only [bounding, branchAndBound, hs]
  | ok answer =>
    cases answer with
    | none =>
      refine .inr ⟨stack, fun left => ?_, .inl ⟨rfl, rfl⟩⟩
      simp only [bounding, branchAndBound, hs]
    | some xs =>
      cases hf : Tableau.fractional? xs with
      | none =>
        cases hi : Tableau.integers xs with
        | error f =>
          refine .inl ⟨.error (.failed f), takes_one (by simp) hzero fun b => ?_⟩
          simp only [bounding, branchAndBound, hs, hf, hi]
        | ok vs =>
          refine .inl ⟨.ok (some vs), takes_one (by simp) hzero fun b => ?_⟩
          simp only [bounding, branchAndBound, hs, hf, hi]
      | some fraction =>
        obtain ⟨x, q⟩ := fraction
        cases hsplit : split cs x q with
        | error f =>
          refine .inl ⟨.error (.failed f), takes_one (by simp) hzero fun b => ?_⟩
          simp only [bounding, branchAndBound, hs, hf, hsplit]
        | ok parts =>
          obtain ⟨down, up⟩ := parts
          refine .inr ⟨down :: up :: stack, fun left => ?_,
            .inr ⟨xs, x, q, down, up, rfl, hf, hsplit, rfl⟩⟩
          simp only [bounding, branchAndBound, hs, hf, hsplit]

lemma settles_or_exhausted (b : ℕ) (stack : List (List Constraint)) :
    Settles (bounding stack) ∨ bounding stack b = (.error .exhausted, 0) := by
  induction b generalizing stack with
  | zero =>
    cases stack with
    | nil => exact .inl ⟨0, _, takes_bounding_nil⟩
    | cons cs stack => exact .inr (bounding_zero cs stack)
  | succ b ih =>
    cases stack with
    | nil => exact .inl ⟨0, _, takes_bounding_nil⟩
    | cons cs stack =>
      rcases bounding_cons cs stack with ⟨outcome, hone⟩ | ⟨more, hmore, _⟩
      · exact .inl ⟨1, outcome, hone⟩
      · rcases ih more with hsettles | hexhausted
        · exact .inl (hsettles.succ (bounding_zero cs stack) hmore)
        · right
          rw [hmore, hexhausted]

lemma steady_bounding (stack : List (List Constraint)) : Steady (bounding stack) := by
  by_cases h : Settles (bounding stack)
  · exact .inr h
  · exact .inl fun b => (settles_or_exhausted b stack).resolve_left h

theorem steady_explore (cs : List Constraint) (pending : List NormalForm)
    (choices : List (List NormalForm)) : Steady (explore cs pending choices) := by
  refine @explore.induct (fun cs pending choices => Steady (explore cs pending choices))
    (fun cs alts choices => Steady (firstOf cs alts choices))
    ?leaf ?choose ?true ?false ?atom ?and ?or ?noAlternative ?alternative cs pending choices
  case leaf =>
    intro cs
    rw [explore]
    exact steady_bounding [cs]
  case choose =>
    intro cs alts choices ih
    rw [explore]
    exact ih
  case true =>
    intro cs choices pending ih
    rw [explore]
    exact ih
  case false =>
    intro cs choices pending
    rw [explore]
    exact .inr (settles_pure none)
  case atom =>
    intro cs choices c pending ih
    rw [explore]
    apply Steady.bind (.inr ⟨1, takes_feasible? (cs ++ [c])⟩)
    intro answer
    cases answer with
    | none => exact .inr (settles_pure none)
    | some xs => exact ih
  case and =>
    intro cs choices args pending ih
    rw [explore]
    exact ih
  case or =>
    intro cs choices args pending ih
    rw [explore]
    exact ih
  case noAlternative =>
    intro cs choices
    rw [firstOf]
    exact .inr (settles_pure none)
  case alternative =>
    intro cs choices a alts ihFirst ihRest
    rw [firstOf]
    apply ihFirst.bind
    intro first
    cases first with
    | none => exact ihRest
    | some s => exact .inr (settles_pure (some s))

lemma answerOf_ne_unknown {f : Expr} {outcome : Except Halt (Option Solution)}
    (h : outcome ≠ .error .exhausted) : answerOf f outcome ≠ .ok .unknown := by
  rcases outcome with (_ | e) | (_ | s)
  · exact absurd rfl h
  all_goals simp [answerOf]

/-- A formula has a number of tests from which on it is decided, unless no number is enough. -/
theorem run_threshold (f : Expr) :
    (∀ b, run f b = (.ok .unknown, 0)) ∨
      ∃ n answer, answer ≠ .ok .unknown ∧ (∀ b < n, run f b = (.ok .unknown, 0)) ∧
        ∀ b, run f (n + b) = (answer, b) := by
  cases hn : f.normalForm true with
  | error e =>
    refine .inr ⟨0, .error e, by simp, fun b hb => absurd hb (Nat.not_lt_zero b), fun b => ?_⟩
    rw [Nat.zero_add, run_of_error hn]
  | ok n =>
    rcases steady_explore [] [n] [] with hend | ⟨k, outcome, hk⟩
    · exact .inl fun b => run_of_explore hn (hend b)
    · exact .inr ⟨k, answerOf f outcome, answerOf_ne_unknown hk.decided,
        fun b hb => run_of_explore hn (hk.below b hb), fun b => run_of_explore hn (hk.above b)⟩

end Search

/-! ### The threshold of a solver -/

namespace Solver

variable {σ : Type}

def after (s : Solver σ) (memory : σ) (queries : List (Expr × ℕ)) : σ :=
  queries.foldl (fun memory q => (s.check q.1 q.2 memory).2) memory

/-- The search with explicit stacks. It remembers the meter of its last query. -/
def worklist : Solver Search.Meter where
  check f budget := fun _ =>
    let (result, meter) := Search.finish Constraint.solve? (Search.start f budget)
    (Search.answerOf f (meter.outcome result), meter)

lemma worklist_check (f : Expr) (budget : ℕ) (memory : Search.Meter) :
    (worklist.check f budget memory).1 = (Search.run f budget).1 ∧
      (worklist.check f budget memory).2.tested.length + (Search.run f budget).2 = budget := by
  obtain ⟨result, m, hlead, hrun, hcount⟩ := Search.start_leads f budget
  have hcheck : worklist.check f budget memory = (Search.answerOf f (m.outcome result), m) := by
    simp only [worklist, Search.finish_of_leads _ hlead]
  rw [hcheck, hrun]
  exact ⟨rfl, hcount⟩

/-- With this budget the formula has this answer after so many tests, whatever was asked before. -/
structure Answers (f : Expr) (budget : ℕ) (answer : Result Answer) (tests : ℕ) : Prop where
  le_budget : tests ≤ budget
  builtIn : ∀ queries, (builtIn.check f budget (builtIn.after () queries)).1 = answer
  left : (Search.run f budget).2 + tests = budget
  worklist : ∀ memory queries,
    (worklist.check f budget (worklist.after memory queries)).1 = answer ∧
      (worklist.check f budget (worklist.after memory queries)).2.tested.length = tests

lemma answers_of_run {f : Expr} {budget left tests : ℕ} {answer : Result Answer}
    (h : Search.run f budget = (answer, left)) (hleft : left + tests = budget) :
    Answers f budget answer tests := by
  refine ⟨by omega, fun queries => ?_, ?_, fun memory queries => ?_⟩
  · exact congrArg Prod.fst h
  · rw [h]
    exact hleft
  · obtain ⟨hanswer, hcount⟩ := worklist_check f budget (worklist.after memory queries)
    rw [h] at hanswer hcount
    exact ⟨hanswer, by omega⟩

/-- Every formula has a number of tests below which its answer is unknown, with the whole budget
spent, and from which on it is one and the same, with no more tests than that number. Only a formula
that stays unknown with every budget has no such number. -/
theorem check_threshold (f : Expr) :
    (∀ b, Answers f b (.ok .unknown) b) ∨
      ∃ n answer, answer ≠ .ok .unknown ∧ (∀ b < n, Answers f b (.ok .unknown) b) ∧
        ∀ b ≥ n, Answers f b answer n := by
  rcases Search.run_threshold f with hend | ⟨n, answer, hne, hbelow, habove⟩
  · exact .inl fun b => answers_of_run (hend b) (Nat.zero_add b)
  · refine .inr ⟨n, answer, hne, fun b hb => ?_, fun b hb => ?_⟩
    · exact answers_of_run (hbelow b hb) (Nat.zero_add b)
    · obtain ⟨c, rfl⟩ := Nat.exists_eq_add_of_le hb
      exact answers_of_run (habove c) (Nat.add_comm c n)

/-- Two variables outside of an interval with their sum inside of it. -/
def away : Expr :=
  .all [.any [.cmp .lt (.var ⟨"x", none⟩) (.int 0), .cmp .gt (.var ⟨"x", none⟩) (.int 10)],
    .any [.cmp .lt (.var ⟨"y", none⟩) (.int 0), .cmp .gt (.var ⟨"y", none⟩) (.int 10)],
    .cmp .eq (.arith .add (.var ⟨"x", none⟩) (.var ⟨"y", none⟩)) (.int 5)]

/-- The two choices cost five tests, and then the model stays the same. -/
theorem check_threshold_away :
    (∀ b < 5, Answers away b (.ok .unknown) b) ∧
      ∀ b ≥ 5, Answers away b (.ok (.sat ⟨[(⟨"x", none⟩, -6), (⟨"y", none⟩, 11)]⟩)) 5 := by
  have hfour : (builtIn.check away 4 ()).1 = .ok .unknown := by decide +kernel
  have hfive : (builtIn.check away 5 ()).1 =
      .ok (.sat ⟨[(⟨"x", none⟩, -6), (⟨"y", none⟩, 11)]⟩) := by decide +kernel
  have hknown {n : ℕ} (h : Answers away 5 (.ok .unknown) n) : False := by
    have hunknown := h.builtIn []
    rw [after, List.foldl_nil, hfive] at hunknown
    cases hunknown
  rcases check_threshold away with hend | ⟨n, answer, hne, hbelow, habove⟩
  · exact absurd (hend 5) hknown
  · have hle : n ≤ 5 := Nat.le_of_not_lt fun hlt => hknown (hbelow 5 hlt)
    have hgt : 4 < n := by
      by_contra hfew
      have hanswer := (habove 4 (by omega)).builtIn []
      exact hne (hanswer.symm.trans hfour)
    obtain rfl : n = 5 := by omega
    obtain rfl : _ = answer := hfive.symm.trans ((habove 5 le_rfl).builtIn [])
    exact ⟨hbelow, habove⟩

end Solver
end LoopInvariant
