import LoopInvariant.Solver
import LoopInvariant.Proofs.Search

/-! The search with explicit stacks. The outer loop takes branches from a stack and works off their
pending formulas; the inner one takes conjunctions from a stack and splits them at fractional
values. Both share a meter of the feasibility tests. Whatever the tests answer, the loops end, and
with the tableau as the test their answer is that of the recursive search. -/
namespace LoopInvariant.Search

open NormalForm

abbrev Test := List Constraint → Result (Option (List (Var × ℚ)))

/-- A partial conjunction, with the formulas that still extend it and the disjunctions that wait
for a choice. -/
structure Branch where
  constraints : List Constraint
  pending : List NormalForm
  choices : List (List NormalForm)

/-- What the loops know about their tests. -/
structure Meter where
  /-- The conjunctions that were tested, the latest first. -/
  tested : List (List Constraint)
  budget : ℕ
  /-- Whether a test was refused. -/
  exhausted : Bool

namespace Meter

def fresh (budget : ℕ) : Meter := ⟨[], budget, false⟩

def left (m : Meter) : ℕ := m.budget - m.tested.length

/-- One test. A refusal looks like an infeasible conjunction, but sets the mark. -/
def ask (solve : Test) (cs : List Constraint) (m : Meter) :
    Result (Option (List (Var × ℚ))) × Meter :=
  if m.budget ≤ m.tested.length then (.ok none, { m with exhausted := true })
  else (solve cs, { m with tested := cs :: m.tested })

def outcome (m : Meter) : Result (Option Solution) → Except Halt (Option Solution)
  | .error f => .error (.failed f)
  | .ok (some s) => .ok (some s)
  | .ok none => if m.exhausted then .error .exhausted else .ok none

end Meter

inductive Place where
  /-- The outer loop takes its next branch. -/
  | taking (stack : List Branch)
  /-- A branch works off its pending formulas. -/
  | extending (branch : Branch) (stack : List Branch)
  /-- The inner loop takes its next conjunction. -/
  | bounding (nodes : List (List Constraint)) (stack : List Branch)
  | done (result : Result (Option Solution))

namespace Place

def result? : Place → Option (Result (Option Solution))
  | .done result => some result
  | _ => none

def afterAtom (branch : Branch) (stack : List Branch) : Result (Option (List (Var × ℚ))) → Place
  | .error f => .done (.error f)
  | .ok none => .taking stack
  | .ok (some _) => .extending branch stack

/-- The inner loop leaves for good at an integral solution, and for the outer loop at a refusal. -/
def afterNode (cs : List Constraint) (nodes : List (List Constraint)) (stack : List Branch)
    (exhausted : Bool) : Result (Option (List (Var × ℚ))) → Place
  | .error f => .done (.error f)
  | .ok none => if exhausted then .taking stack else .bounding nodes stack
  | .ok (some xs) =>
    match Tableau.fractional? xs with
    | none => .done (some <$> Tableau.integers xs)
    | some (x, q) =>
      match split cs x q with
      | .ok (down, up) => .bounding (down :: up :: nodes) stack
      | .error f => .done (.error f)

end Place

structure State where
  place : Place
  meter : Meter

def next (solve : Test) : State → State
  | ⟨.taking [], m⟩ => ⟨.done (.ok none), m⟩
  | ⟨.taking (b :: stack), m⟩ => ⟨if m.exhausted then .done (.ok none) else .extending b stack, m⟩
  | ⟨.extending ⟨cs, [], []⟩ stack, m⟩ => ⟨.bounding [cs] stack, m⟩
  | ⟨.extending ⟨cs, [], alts :: rest⟩ stack, m⟩ =>
    ⟨.taking (alts.map (fun a => ⟨cs, [a], rest⟩) ++ stack), m⟩
  | ⟨.extending ⟨cs, .const true :: rest, choices⟩ stack, m⟩ =>
    ⟨.extending ⟨cs, rest, choices⟩ stack, m⟩
  | ⟨.extending ⟨_, .const false :: _, _⟩ stack, m⟩ => ⟨.taking stack, m⟩
  | ⟨.extending ⟨cs, .atom c :: rest, choices⟩ stack, m⟩ =>
    let (answer, m) := m.ask solve (cs ++ [c])
    ⟨.afterAtom ⟨cs ++ [c], rest, choices⟩ stack answer, m⟩
  | ⟨.extending ⟨cs, .join .and args :: rest, choices⟩ stack, m⟩ =>
    ⟨.extending ⟨cs, args.reverse ++ rest, choices⟩ stack, m⟩
  | ⟨.extending ⟨cs, .join .or args :: rest, choices⟩ stack, m⟩ =>
    ⟨.extending ⟨cs, rest, args :: choices⟩ stack, m⟩
  | ⟨.bounding [] stack, m⟩ => ⟨.taking stack, m⟩
  | ⟨.bounding (cs :: nodes) stack, m⟩ =>
    let (answer, m) := m.ask solve cs
    ⟨.afterNode cs nodes stack m.exhausted answer, m⟩
  | ⟨.done result, m⟩ => ⟨.done result, m⟩

def start (f : Expr) (budget : ℕ) : State where
  place :=
    match f.normalForm true with
    | .ok n => .taking [⟨[], [n], []⟩]
    | .error e => .done (.error e)
  meter := .fresh budget

/-! ### The loops end -/

namespace Branch

/-- Bounds the passes that a branch and all branches that come out of it can take. -/
def rank (b : Branch) : ℕ := 2 * 4 ^ (weights b.pending + choicesWeight b.choices)

lemma rank_pos (b : Branch) : 0 < b.rank := by
  unfold rank
  positivity

lemma rank_lt {b b' : Branch} (h : weights b.pending + choicesWeight b.choices <
    weights b'.pending + choicesWeight b'.choices) : b.rank < b'.rank := by
  have hpow := Nat.pow_lt_pow_right (show 1 < 4 by norm_num) h
  unfold rank
  omega

lemma sum_four_pow (alts : List NormalForm) :
    (alts.map fun a => 4 ^ weight a).sum + 2 ≤ 2 * 4 ^ weights alts := by
  induction alts with
  | nil => simp [weights]
  | cons a alts ih =>
    have ha : 4 ≤ 4 ^ weight a := Nat.le_self_pow (weight_pos a).ne' 4
    have hs : 1 ≤ 4 ^ weights alts := Nat.one_le_pow _ _ (by norm_num)
    have hprod : 4 ^ weight a + 2 * 4 ^ weights alts ≤ 2 * (4 ^ weight a * 4 ^ weights alts) := by
      nlinarith
    rw [List.map_cons, List.sum_cons, weights, pow_add]
    omega

/-- Choosing replaces a branch by branches of less than half of its rank together. -/
lemma sum_rank_alternatives (cs : List Constraint) (alts : List NormalForm)
    (rest : List (List NormalForm)) :
    2 * ((alts.map fun a => (⟨cs, [a], rest⟩ : Branch)).map rank).sum <
      rank ⟨cs, [], alts :: rest⟩ := by
  have hsum := sum_four_pow alts
  have hrest : 0 < 4 ^ choicesWeight rest := by positivity
  have hrank : ((alts.map fun a => (⟨cs, [a], rest⟩ : Branch)).map rank).sum =
      (alts.map fun a => 4 ^ weight a).sum * (2 * 4 ^ choicesWeight rest) := by
    rw [List.map_map, ← List.sum_map_mul_right]
    congr 2
    funext a
    simp only [Function.comp_apply, rank, weights, pow_add]
    ring
  have hwhole : rank ⟨cs, [], alts :: rest⟩ = 8 * (4 ^ weights alts * 4 ^ choicesWeight rest) := by
    simp only [rank, weights, choicesWeight, pow_add]
    ring
  rw [hrank, hwhole]
  nlinarith

end Branch

def stackRank (stack : List Branch) : ℕ := 2 * (stack.map Branch.rank).sum

def Place.rank : Place → ℕ
  | .taking stack => stackRank stack + 1
  | .extending b stack => b.rank + stackRank stack + 1
  | .bounding _ stack => stackRank stack + 2
  | .done _ => 0

/-- Bounds the passes that are left. -/
def State.rank (s : State) : ℕ := s.place.rank + s.meter.left

variable (solve : Test)

lemma Meter.ask_of_left_eq_zero {m : Meter} (h : m.left = 0) (cs : List Constraint) :
    m.ask solve cs = (.ok none, { m with exhausted := true }) :=
  if_pos (Nat.sub_eq_zero_iff_le.mp h)

lemma Meter.ask_of_left_pos {m : Meter} (h : 0 < m.left) (cs : List Constraint) :
    m.ask solve cs = (solve cs, { m with tested := cs :: m.tested }) ∧
      (m.ask solve cs).2.left + 1 = m.left := by
  have hlt : m.tested.length < m.budget := Nat.lt_of_sub_pos h
  have hask : m.ask solve cs = (solve cs, { m with tested := cs :: m.tested }) :=
    if_neg (by omega)
  refine ⟨hask, ?_⟩
  rw [hask]
  simp only [left, List.length_cons]
  omega

lemma Meter.left_ask_le (m : Meter) (cs : List Constraint) : (m.ask solve cs).2.left ≤ m.left := by
  rcases Nat.eq_zero_or_pos m.left with h | h
  · rw [ask_of_left_eq_zero solve h]
    exact le_rfl
  · have := (ask_of_left_pos solve h cs).2
    omega

lemma rank_afterAtom_le (b : Branch) (stack : List Branch)
    (answer : Result (Option (List (Var × ℚ)))) :
    (Place.afterAtom b stack answer).rank ≤ (Place.extending b stack).rank := by
  rcases answer with f | (_ | xs)
  · exact Nat.zero_le _
  · simp only [Place.afterAtom, Place.rank]
    omega
  · exact le_rfl

lemma rank_afterNode_le (cs : List Constraint) (nodes : List (List Constraint))
    (stack : List Branch) (exhausted : Bool) (answer : Result (Option (List (Var × ℚ)))) :
    (Place.afterNode cs nodes stack exhausted answer).rank ≤
      (Place.bounding (cs :: nodes) stack).rank := by
  unfold Place.afterNode
  split
  · exact Nat.zero_le _
  · split_ifs
    · simp only [Place.rank]
      omega
    · exact le_rfl
  · split
    · exact Nat.zero_le _
    · split
      · exact le_rfl
      · exact Nat.zero_le _

/-- Every pass brings the end nearer. A test that is granted leaves fewer tests; otherwise the
branch at hand loses weight, or is replaced by lighter ones. -/
theorem rank_next_lt {s : State} (h : s.place.result? = none) : (next solve s).rank < s.rank := by
  obtain ⟨place, m⟩ := s
  cases place with
  | done result => cases h
  | taking stack =>
    cases stack with
    | nil =>
      simp only [next, State.rank, Place.rank]
      omega
    | cons b stack =>
      have hpos := b.rank_pos
      simp only [next, State.rank]
      split_ifs <;> simp only [Place.rank, stackRank, List.map_cons, List.sum_cons] <;> omega
  | extending b stack =>
    obtain ⟨cs, pending, choices⟩ := b
    -- a branch that only loses weight
    have hlighter (b' : Branch) (hw : weights b'.pending + choicesWeight b'.choices <
        weights pending + choicesWeight choices) :
        (Place.extending b' stack).rank < (Place.extending ⟨cs, pending, choices⟩ stack).rank := by
      have := @Branch.rank_lt b' ⟨cs, pending, choices⟩ hw
      simp only [Place.rank]
      omega
    cases pending with
    | nil =>
      cases choices with
      | nil =>
        simp only [next, State.rank, Place.rank, Branch.rank, weights, choicesWeight]
        omega
      | cons alts rest =>
        have hsum := Branch.sum_rank_alternatives cs alts rest
        simp only [next, State.rank, Place.rank, stackRank, List.map_append, List.sum_append]
        omega
    | cons n rest =>
      cases n with
      | const b =>
        cases b with
        | true =>
          have := hlighter ⟨cs, rest, choices⟩ (by simp only [weights, weight]; omega)
          simp only [next, State.rank]
          omega
        | false =>
          have := Branch.rank_pos ⟨cs, .const false :: rest, choices⟩
          simp only [next, State.rank, Place.rank]
          omega
      | atom c =>
        have hlight := hlighter ⟨cs ++ [c], rest, choices⟩ (by simp only [weights, weight]; omega)
        have hplace := rank_afterAtom_le ⟨cs ++ [c], rest, choices⟩ stack (m.ask solve (cs ++ [c])).1
        have hleft := m.left_ask_le solve (cs ++ [c])
        simp only [next, State.rank]
        omega
      | join c args =>
        cases c with
        | and =>
          have := hlighter ⟨cs, args.reverse ++ rest, choices⟩
            (by simp only [weights, weight, weights_append, weights_reverse]; omega)
          simp only [next, State.rank]
          omega
        | or =>
          have := hlighter ⟨cs, rest, args :: choices⟩
            (by simp only [weights, weight, choicesWeight]; omega)
          simp only [next, State.rank]
          omega
  | bounding nodes stack =>
    cases nodes with
    | nil =>
      simp only [next, State.rank, Place.rank]
      omega
    | cons cs nodes =>
      rcases Nat.eq_zero_or_pos m.left with hleft | hleft
      · simp only [next, State.rank, Meter.ask_of_left_eq_zero solve hleft, Place.afterNode, if_true,
          Place.rank, Meter.left]
        omega
      · have hfewer := (Meter.ask_of_left_pos solve hleft cs).2
        have hplace := rank_afterNode_le cs nodes stack (m.ask solve cs).2.exhausted
          (m.ask solve cs).1
        simp only [next, State.rank]
        omega

theorem exists_done (s : State) :
    ∃ k ≤ s.rank, ∃ result m, (next solve)^[k] s = ⟨.done result, m⟩ := by
  induction hr : s.rank using Nat.strong_induction_on generalizing s with
  | _ r ih =>
    cases hp : s.place.result? with
    | some result =>
      refine ⟨0, Nat.zero_le _, ?_⟩
      obtain ⟨place, m⟩ := s
      cases place with
      | done result => exact ⟨result, m, rfl⟩
      | _ => cases hp
    | none =>
      have hlt := rank_next_lt solve hp
      obtain ⟨k, hk, hend⟩ := ih (next solve s).rank (hr ▸ hlt) (next solve s) rfl
      exact ⟨k + 1, by omega, hend⟩

/-! ### The loops search -/

/-- The meter allows `left` more tests out of a budget, and its mark is as given. -/
structure Meter.Shows (m : Meter) (budget left : ℕ) (exhausted : Bool) : Prop where
  limit : m.budget = budget
  count : m.tested.length + left = budget
  mark : m.exhausted = exhausted

lemma Meter.shows_fresh (budget : ℕ) : (fresh budget).Shows budget budget false :=
  ⟨rfl, Nat.zero_add _, rfl⟩

lemma Meter.Shows.left_eq {m : Meter} {budget left : ℕ} {exhausted : Bool}
    (h : m.Shows budget left exhausted) : m.left = left := by
  have hcount := h.count
  rw [Meter.left, h.limit]
  omega

lemma Meter.Shows.refused {m : Meter} {budget : ℕ} (h : m.Shows budget 0 false)
    (cs : List Constraint) :
    ∃ m', m.ask solve cs = (.ok none, m') ∧ m'.Shows budget 0 true :=
  ⟨_, ask_of_left_eq_zero solve h.left_eq cs, h.limit, h.count, rfl⟩

lemma Meter.Shows.granted {m : Meter} {budget left : ℕ} (h : m.Shows budget (left + 1) false)
    (cs : List Constraint) :
    ∃ m', m.ask solve cs = (solve cs, m') ∧ m'.Shows budget left false := by
  have hpos : 0 < m.left := by
    rw [h.left_eq]
    exact Nat.succ_pos left
  have hcount : (cs :: m.tested).length + left = budget := by
    have := h.count
    rw [List.length_cons]
    omega
  exact ⟨_, (ask_of_left_pos solve hpos cs).1, h.limit, hcount, h.mark⟩

/-- Where a search of one branch leaves the loops. A refused test ends them all. -/
def Place.after (stack : List Branch) : Except Halt (Option Solution) → Place
  | .ok none => .taking stack
  | .ok (some s) => .done (.ok (some s))
  | .error .exhausted => .done (.ok none)
  | .error (.failed f) => .done (.error f)

def refused : Except Halt (Option Solution) → Bool
  | .error .exhausted => true
  | _ => false

/-- The loops come to the outcome of a search, with the rest of the stack untouched. -/
def Carries (s : State) (stack : List Branch) (budget : ℕ)
    (outcome : Except Halt (Option Solution) × ℕ) : Prop :=
  ∃ m, m.Shows budget outcome.2 (refused outcome.1) ∧
    Leads (next Constraint.solve?) s ⟨.after stack outcome.1, m⟩

variable {stack : List Branch} {budget : ℕ} {outcome : Except Halt (Option Solution) × ℕ}

lemma Carries.head {s s' : State} (h : next Constraint.solve? s = s')
    (hl : Carries s' stack budget outcome) : Carries s stack budget outcome := by
  obtain ⟨m, hm, hlead⟩ := hl
  exact ⟨m, hm, .head h hlead⟩

lemma Carries.of_next {s : State} {m : Meter}
    (h : next Constraint.solve? s = ⟨.after stack outcome.1, m⟩)
    (hm : m.Shows budget outcome.2 (refused outcome.1)) : Carries s stack budget outcome :=
  ⟨m, hm, .one h⟩

lemma next_taking_exhausted {m : Meter} (h : m.exhausted = true) (stack : List Branch) :
    next solve ⟨.taking stack, m⟩ = ⟨.done (.ok none), m⟩ := by
  cases stack with
  | nil => rfl
  | cons b stack => simp only [next, h, if_true]

lemma carries_refused {m : Meter} (h : m.Shows budget 0 true) (branches stack : List Branch) :
    Carries ⟨.taking branches, m⟩ stack budget (.error .exhausted, 0) :=
  .of_next (next_taking_exhausted _ h.mark branches) h

lemma next_bounding {m : Meter} {left : ℕ} (hm : m.Shows budget (left + 1) false)
    (cs : List Constraint) (nodes : List (List Constraint)) (stack : List Branch) :
    ∃ m', m'.Shows budget left false ∧ next solve ⟨.bounding (cs :: nodes) stack, m⟩ =
      ⟨.afterNode cs nodes stack false (solve cs), m'⟩ := by
  obtain ⟨m', hask, hm'⟩ := hm.granted solve cs
  exact ⟨m', hm', by simp only [next, hask, hm'.mark]⟩

lemma next_atom {m : Meter} {left : ℕ} (hm : m.Shows budget (left + 1) false)
    (cs : List Constraint) (c : Constraint) (rest : List NormalForm)
    (choices : List (List NormalForm)) (stack : List Branch) :
    ∃ m', m'.Shows budget left false ∧
      next solve ⟨.extending ⟨cs, .atom c :: rest, choices⟩ stack, m⟩ =
        ⟨.afterAtom ⟨cs ++ [c], rest, choices⟩ stack (solve (cs ++ [c])), m'⟩ := by
  obtain ⟨m', hask, hm'⟩ := hm.granted solve (cs ++ [c])
  exact ⟨m', hm', by simp only [next, hask]⟩

theorem bounding_carries (left : ℕ) (nodes : List (List Constraint)) :
    ∀ m : Meter, m.Shows budget left false →
      Carries ⟨.bounding nodes stack, m⟩ stack budget (branchAndBound left nodes) := by
  induction left, nodes using branchAndBound.induct with
  | case1 left =>
    intro m hm
    rw [branchAndBound]
    exact .of_next rfl hm
  | case2 cs more =>
    intro m hm
    obtain ⟨m', hask, hm'⟩ := hm.refused Constraint.solve? cs
    have hnext : next Constraint.solve? ⟨.bounding (cs :: more) stack, m⟩ = ⟨.taking stack, m'⟩ := by
      simp only [next, hask, Place.afterNode, hm'.mark, if_true]
    rw [branchAndBound]
    exact (carries_refused hm' stack stack).head hnext
  | case3 left cs more f hs =>
    intro m hm
    obtain ⟨m', hm', hnext⟩ := next_bounding Constraint.solve? hm cs more stack
    simp only [hs, Place.afterNode] at hnext
    simp only [branchAndBound, hs]
    exact .of_next hnext hm'
  | case4 left cs more hs ih =>
    intro m hm
    obtain ⟨m', hm', hnext⟩ := next_bounding Constraint.solve? hm cs more stack
    simp only [hs, Place.afterNode, Bool.false_eq_true, if_false] at hnext
    simp only [branchAndBound, hs]
    exact (ih m' hm').head hnext
  | case5 left cs more xs hs hf vs hi =>
    intro m hm
    obtain ⟨m', hm', hnext⟩ := next_bounding Constraint.solve? hm cs more stack
    simp only [hs, Place.afterNode, hf, hi] at hnext
    simp only [branchAndBound, hs, hf, hi]
    exact .of_next hnext hm'
  | case6 left cs more xs hs hf f hi =>
    intro m hm
    obtain ⟨m', hm', hnext⟩ := next_bounding Constraint.solve? hm cs more stack
    simp only [hs, Place.afterNode, hf, hi] at hnext
    simp only [branchAndBound, hs, hf, hi]
    exact .of_next hnext hm'
  | case7 left cs more xs hs x q hf down up hsplit ih =>
    intro m hm
    obtain ⟨m', hm', hnext⟩ := next_bounding Constraint.solve? hm cs more stack
    simp only [hs, Place.afterNode, hf, hsplit] at hnext
    simp only [branchAndBound, hs, hf, hsplit]
    exact (ih m' hm').head hnext
  | case8 left cs more xs hs x q hf f hsplit =>
    intro m hm
    obtain ⟨m', hm', hnext⟩ := next_bounding Constraint.solve? hm cs more stack
    simp only [hs, Place.afterNode, hf, hsplit] at hnext
    simp only [branchAndBound, hs, hf, hsplit]
    exact .of_next hnext hm'

/-- The outer loop explores the branch on top of its stack, and the alternatives of a choice one
after the other. -/
theorem extending_carries (cs : List Constraint) (pending : List NormalForm)
    (choices : List (List NormalForm)) :
    ∀ left stack (m : Meter), m.Shows budget left false →
      Carries ⟨.extending ⟨cs, pending, choices⟩ stack, m⟩ stack budget
        (explore cs pending choices left) := by
  refine @explore.induct
    (fun cs pending choices => ∀ left stack (m : Meter), m.Shows budget left false →
      Carries ⟨.extending ⟨cs, pending, choices⟩ stack, m⟩ stack budget
        (explore cs pending choices left))
    (fun cs alts choices => ∀ left stack (m : Meter), m.Shows budget left false →
      Carries ⟨.taking (alts.map (fun a => ⟨cs, [a], choices⟩) ++ stack), m⟩ stack budget
        (firstOf cs alts choices left))
    ?leaf ?choose ?true ?false ?atom ?and ?or ?noAlternative ?alternative cs pending choices
  case leaf =>
    intro cs left stack m hm
    rw [explore]
    exact (bounding_carries left [cs] m hm).head rfl
  case choose =>
    intro cs alts choices ih left stack m hm
    rw [explore]
    exact (ih left stack m hm).head rfl
  case true =>
    intro cs choices pending ih left stack m hm
    rw [explore]
    exact (ih left stack m hm).head rfl
  case false =>
    intro cs choices pending left stack m hm
    rw [explore]
    exact .of_next rfl hm
  case atom =>
    intro cs choices c pending ih left stack m hm
    rw [explore]
    cases left with
    | zero =>
      obtain ⟨m', hask, hm'⟩ := hm.refused Constraint.solve? (cs ++ [c])
      have hnext : next Constraint.solve? ⟨.extending ⟨cs, .atom c :: pending, choices⟩ stack, m⟩ =
          ⟨.taking stack, m'⟩ := by
        simp only [next, hask, Place.afterAtom]
      rw [Task.bind_of_error (feasible?_zero _)]
      exact (carries_refused hm' stack stack).head hnext
    | succ left =>
      obtain ⟨m', hm', hnext⟩ := next_atom Constraint.solve? hm cs c pending choices stack
      cases hs : Constraint.solve? (cs ++ [c]) with
      | error f =>
        rw [hs] at hnext
        rw [Task.bind_of_error (feasible?_of_error hs left)]
        exact .of_next hnext hm'
      | ok answer =>
        rw [hs] at hnext
        rw [Task.bind_of_ok (feasible?_of_ok hs left)]
        cases answer with
        | none => exact .of_next hnext hm'
        | some xs => exact (ih left stack m' hm').head hnext
  case and =>
    intro cs choices args pending ih left stack m hm
    rw [explore]
    exact (ih left stack m hm).head rfl
  case or =>
    intro cs choices args pending ih left stack m hm
    rw [explore]
    exact (ih left stack m hm).head rfl
  case noAlternative =>
    intro cs choices left stack m hm
    rw [firstOf]
    exact ⟨m, hm, .refl _⟩
  case alternative =>
    intro cs choices a alts ihFirst ihRest left stack m hm
    rw [firstOf]
    have htake : next Constraint.solve?
        ⟨.taking ((a :: alts).map (fun a => ⟨cs, [a], choices⟩) ++ stack), m⟩ =
          ⟨.extending ⟨cs, [a], choices⟩
            (alts.map (fun a => ⟨cs, [a], choices⟩) ++ stack), m⟩ := by
      simp only [List.map_cons, List.cons_append, next, hm.mark, Bool.false_eq_true, if_false]
    obtain ⟨m', hm', hlead⟩ := ihFirst left
      (alts.map (fun a => ⟨cs, [a], choices⟩) ++ stack) m hm
    have hfirst := Leads.head htake hlead
    rcases hx : explore cs [a] choices left with ⟨(_ | f) | (_ | s), left'⟩
    all_goals rw [hx] at hm' hfirst
    · rw [Task.bind_of_error hx]
      exact ⟨m', hm', hfirst⟩
    · rw [Task.bind_of_error hx]
      exact ⟨m', hm', hfirst⟩
    · -- nothing was found, and the next alternative is on top of the stack
      rw [Task.bind_of_ok hx]
      obtain ⟨m'', hm'', hrest⟩ := ihRest left' stack m' hm'
      exact ⟨m'', hm'', hfirst.trans hrest⟩
    · rw [Task.bind_of_ok hx]
      exact ⟨m', hm', hfirst⟩

def answerOf (f : Expr) : Except Halt (Option Solution) → Result Answer
  | .ok (some s) => .ok (.sat ((Model.ofList (f.vars.map fun v => (v, 0))).extend s))
  | .ok none => .ok .unsat
  | .error .exhausted => .ok .unknown
  | .error (.failed e) => .error e

lemma run_of_error {f : Expr} {e : Failure} (hn : f.normalForm true = .error e) (b : ℕ) :
    run f b = (.error e, b) := by
  simp only [run, hn]

lemma run_of_explore {f : Expr} {n : NormalForm} {b left : ℕ} {outcome : Except Halt (Option Solution)}
    (hn : f.normalForm true = .ok n) (h : explore [] [n] [] b = (outcome, left)) :
    run f b = (answerOf f outcome, left) := by
  simp only [run, hn, h]
  rcases outcome with (_ | e) | (_ | s) <;> rfl

theorem start_leads (f : Expr) (budget : ℕ) :
    ∃ result m, Leads (next Constraint.solve?) (start f budget) ⟨.done result, m⟩ ∧
      run f budget = (answerOf f (m.outcome result), m.left) ∧
      m.tested.length + m.left = budget := by
  cases hn : f.normalForm true with
  | error e =>
    have hstart : start f budget = ⟨.done (.error e), .fresh budget⟩ := by simp only [start, hn]
    rw [hstart, run_of_error hn budget]
    exact ⟨.error e, .fresh budget, .refl _, rfl, Nat.zero_add _⟩
  | ok n =>
    have htake : next Constraint.solve? (start f budget) =
        ⟨.extending ⟨[], [n], []⟩ [], .fresh budget⟩ := by
      simp only [start, hn]
      rfl
    obtain ⟨m, hm, hlead⟩ := extending_carries [] [n] [] budget [] _ (Meter.shows_fresh budget)
    have hcount : m.tested.length + m.left = budget := by
      rw [hm.left_eq]
      exact hm.count
    have hrun : run f budget = (answerOf f (explore [] [n] [] budget).1, m.left) := by
      rw [hm.left_eq]
      exact run_of_explore hn rfl
    have hmark := hm.mark
    rw [hrun]
    rcases hx : (explore [] [n] [] budget).1 with (_ | e) | (_ | s)
    all_goals rw [hx] at hlead hmark
    · refine ⟨.ok none, m, .head htake hlead, ?_, hcount⟩
      simp only [Meter.outcome, hmark, refused, if_true]
    · exact ⟨.error e, m, .head htake hlead, rfl, hcount⟩
    · -- the branch was the only one, and the outer loop finds its stack empty
      refine ⟨.ok none, m, .head htake (hlead.trans (.one rfl)), ?_, hcount⟩
      simp only [Meter.outcome, hmark, refused, Bool.false_eq_true, if_false]
    · exact ⟨.ok (some s), m, .head htake hlead, rfl, hcount⟩

/-- For every formula and budget the loops end after a bounded number of passes, whatever the tests
answer as long as they do. With the tableau as the test they end with the answer of the search. -/
theorem worklists_end (f : Expr) (budget : ℕ) :
    (∀ solve : Test, ∃ k ≤ (start f budget).rank, ∃ result m,
      (next solve)^[k] (start f budget) = ⟨.done result, m⟩) ∧
    ∃ k result m, (next Constraint.solve?)^[k] (start f budget) = ⟨.done result, m⟩ ∧
      run f budget = (answerOf f (m.outcome result), m.left) := by
  constructor
  · intro solve
    exact exists_done solve (start f budget)
  · obtain ⟨result, m, ⟨k, hk⟩, hrun, _⟩ := start_leads f budget
    exact ⟨k, result, m, hk, hrun⟩

def finish (s : State) : Result (Option Solution) × Meter :=
  match h : s.place.result? with
  | some result => (result, s.meter)
  | none =>
    have := rank_next_lt solve h
    finish (next solve s)
  termination_by s.rank

lemma finish_of_leads {s : State} {result : Result (Option Solution)} {m : Meter}
    (h : Leads (next solve) s ⟨.done result, m⟩) : finish solve s = (result, m) := by
  obtain ⟨k, hk⟩ := h
  induction k generalizing s with
  | zero =>
    cases hk
    rw [finish]
    rfl
  | succ k ih =>
    rw [Function.iterate_succ_apply] at hk
    cases hp : s.place.result? with
    | none =>
      rw [finish]
      split
      · rename_i r hr
        rw [hp] at hr
        cases hr
      · exact ih hk
    | some r =>
      obtain ⟨place, m'⟩ := s
      cases place with
      | done r' => exact ih hk
      | _ => cases hp

end LoopInvariant.Search
