import LoopInvariant.Proofs.Translation
import LoopInvariant.Proofs.Worklist

/-! When a search faults. All its arithmetic is exact or reports an overflow, but for two negations:
that of the constant of a constraint, which becomes a bound in a tableau, and that of the floor at
which a value is split. The least integer has no negation. A search faults exactly if its loops come
to one of these with the least integer; otherwise it gives an answer or reports an error. -/
namespace LoopInvariant

lemma Word.neg?_eq_none {a : Int64} : neg? a = none ↔ a = Int64.minValue := by
  have hlow := a.le_toInt
  have hhigh := a.toInt_lt
  rw [neg?, ofInt?, ite_eq_right_iff, ← Int64.toInt_inj, Int64.toInt_minValue, Int64.toInt_maxValue]
  simp only [reduceCtorEq, imp_false]
  omega

namespace Constraint

/-- The constant is the least integer, which has no negation. -/
def Extreme (c : Constraint) : Prop := c.form.constant = Int64.minValue

/-- The constraint that `x` is at least `2 ^ 63`, as it arises above the greatest integer. -/
def beyond (x : Var) : Constraint := ⟨⟨[(x, 1)], Int64.minValue⟩, .nonneg⟩

lemma extreme_beyond (x : Var) : (beyond x).Extreme := rfl

def Mild (cs : List Constraint) : Prop := ∀ c ∈ cs, ¬c.Extreme

lemma solve?_of_extreme {cs : List Constraint} {c : Constraint} (hc : c ∈ cs) (h : c.Extreme) :
    solve? cs = .error (.fault .arithmetic) := by
  have hbounds : Tableau.ofConstraints cs = .error (.fault .arithmetic) := by
    refine if_neg fun hall => ?_
    have hneg := List.all_eq_true.mp hall c hc
    rw [Word.neg?_eq_none.mpr h] at hneg
    cases hneg
  exact Result.bind_of_error hbounds

lemma exists_solve? {cs : List Constraint} (h : Mild cs) : ∃ answer, solve? cs = .ok answer := by
  have hbounds : Tableau.ofConstraints cs = .ok (Tableau.start (Tableau.columns cs) cs) := by
    refine if_pos (List.all_eq_true.mpr fun c hc => ?_)
    rw [Option.isSome_iff_ne_none]
    exact fun hneg => h c hc (Word.neg?_eq_none.mp hneg)
  obtain ⟨k, run, b, -, -, hcheck⟩ :=
    Tableau.check_pivots (@Tableau.reached_start (Tableau.columns cs) cs)
  refine ⟨if b then some ((run k).solution (Tableau.columns cs)) else none, ?_⟩
  rw [solve?, Result.bind_of_ok hbounds, Result.bind_of_ok hcheck]
  rfl

end Constraint

namespace LinearForm

lemma shift_single {x : Var} {a c d r : Int64} (ha : a ≠ 0) (hr : r.toInt = c.toInt + d.toInt) :
    shift ⟨[(x, a)], c⟩ d = .ok ⟨[(x, a)], r⟩ := by
  have hadd : Word.add? c d = some r := Word.ofInt?_eq_some.mpr hr
  simp [shift, add, add?, const, addTerms, hadd, ha, Result.orError]

lemma scale_ofVar (x : Var) : (ofVar x).scale (-1) = .ok ⟨[(x, -1)], 0⟩ := rfl

end LinearForm

namespace Search

open Constraint

variable {cs : List Constraint} {x : Var} {q : ℚ}

/-- A value just above the least integer cannot be split. -/
lemma split_of_floor_eq (h : q.floor = Int64.minValue.toInt) :
    split cs x q = .error (.fault .arithmetic) := by
  have hfloor : Word.ofInt? q.floor = some Int64.minValue := Word.ofInt?_eq_some.mpr h.symm
  have hneg : Result.orFault (Word.neg? Int64.minValue) .arithmetic =
      .error (.fault .arithmetic) := by
    rw [Word.neg?_eq_none.mpr rfl]
    rfl
  rw [split, Result.bind_of_ok (Result.orError_eq_ok.mpr hfloor), Result.bind_of_error hneg]

lemma split_of_floor {floor : Int64} (cs : List Constraint) (x : Var)
    (hfloor : q.floor = floor.toInt) (hne : floor ≠ Int64.minValue) :
    ∃ rest : Int64, rest.toInt = -floor.toInt - 1 ∧
      split cs x q =
        .ok (cs ++ [⟨⟨[(x, -1)], floor⟩, .nonneg⟩], cs ++ [⟨⟨[(x, 1)], rest⟩, .nonneg⟩]) := by
  obtain ⟨negated, hnegated⟩ := Option.ne_none_iff_exists'.mp (mt Word.neg?_eq_none.mp hne)
  have hopposite : negated.toInt = -floor.toInt := Word.ofInt?_eq_some.mp hnegated
  have hlow := floor.le_toInt
  have hhigh := floor.toInt_lt
  have hone : (-1 : Int64).toInt = -1 := rfl
  obtain ⟨rest, hrest⟩ : ∃ w, Word.ofInt? (negated.toInt + (-1 : Int64).toInt) = some w := by
    apply Word.exists_ofInt? <;> omega
  have hsum := Word.ofInt?_eq_some.mp hrest
  have hshift : (LinearForm.ofVar x).shift negated = .ok ⟨[(x, 1)], negated⟩ :=
    LinearForm.shift_single (by decide) (by simp)
  have habove : LinearForm.shift ⟨[(x, 1)], negated⟩ (-1) = .ok ⟨[(x, 1)], rest⟩ :=
    LinearForm.shift_single (by decide) hsum
  have hbelow : LinearForm.shift ⟨[(x, -1)], 0⟩ floor = .ok ⟨[(x, -1)], floor⟩ :=
    LinearForm.shift_single (by decide) (by simp)
  refine ⟨rest, by omega, ?_⟩
  rw [split, Result.bind_of_ok (Result.orError_eq_ok.mpr (Word.ofInt?_eq_some.mpr hfloor.symm)),
    Result.bind_of_ok (Result.orFault_eq_ok.mpr hnegated), Result.bind_of_ok hshift,
    Result.bind_of_ok habove, Result.bind_of_ok (LinearForm.scale_ofVar x),
    Result.bind_of_ok hbelow]
  rfl

/-- A value is split, unless its floor is out of range. The constant of the upper part is the least
integer only above the greatest one. -/
lemma split_of_floor_ne (cs : List Constraint) (x : Var) (h : q.floor ≠ Int64.minValue.toInt) :
    split cs x q = .error (.error (.overflow "branching")) ∨
      ∃ below above : Constraint, split cs x q = .ok (cs ++ [below], cs ++ [above]) ∧
        ¬below.Extreme ∧ (above.Extreme → above = beyond x) := by
  cases hfloor : Word.ofInt? q.floor with
  | none =>
    left
    rw [split, hfloor]
    rfl
  | some floor =>
    right
    have hvalue := Word.ofInt?_eq_some.mp hfloor
    have hne : floor ≠ Int64.minValue := by
      rintro rfl
      exact h hvalue.symm
    obtain ⟨rest, -, hsplit⟩ := split_of_floor cs x hvalue.symm hne
    refine ⟨_, _, hsplit, hne, fun hextreme => ?_⟩
    rw [beyond, show rest = Int64.minValue from hextreme]

/-! ### The negations that a search comes to -/

/-- The next pass of the loops negates the least integer. -/
inductive State.Trips : State → Prop
  /-- A constraint of the formula has it as its constant. -/
  | atom {cs : List Constraint} {c : Constraint} {rest : List NormalForm}
      {choices : List (List NormalForm)} {stack : List Branch} {m : Meter} (hleft : 0 < m.left)
      (h : c.Extreme) : Trips ⟨.extending ⟨cs, .atom c :: rest, choices⟩ stack, m⟩
  /-- A value above the greatest integer was split. -/
  | bound {cs : List Constraint} (x : Var) {nodes : List (List Constraint)} {stack : List Branch}
      {m : Meter} (hleft : 0 < m.left) :
      Trips ⟨.bounding ((cs ++ [beyond x]) :: nodes) stack, m⟩
  /-- A value just above the least integer is split. -/
  | floor {cs : List Constraint} {xs : List (Var × ℚ)} {x : Var} {q : ℚ}
      {nodes : List (List Constraint)} {stack : List Branch} {m : Meter} (hleft : 0 < m.left)
      (hs : solve? cs = .ok (some xs)) (hf : Tableau.fractional? xs = some (x, q))
      (h : q.floor = Int64.minValue.toInt) : Trips ⟨.bounding (cs :: nodes) stack, m⟩

lemma State.Trips.place_next {s : State} (h : s.Trips) :
    (next solve? s).place = .done (.error (.fault .arithmetic)) := by
  cases h with
  | @atom cs c _ _ _ m hleft h =>
    have hsolve : solve? (cs ++ [c]) = .error (.fault .arithmetic) :=
      solve?_of_extreme (by simp) h
    simp only [next, (m.ask_of_left_pos solve? hleft _).1, hsolve, Place.afterAtom]
  | @bound cs x _ _ m hleft =>
    have hsolve : solve? (cs ++ [beyond x]) = .error (.fault .arithmetic) :=
      solve?_of_extreme (by simp) (extreme_beyond x)
    simp only [next, (m.ask_of_left_pos solve? hleft _).1, hsolve, Place.afterNode]
  | @floor _ _ _ _ _ _ m hleft hs hf h =>
    simp only [next, (m.ask_of_left_pos solve? hleft _).1, hs, Place.afterNode, hf,
      split_of_floor_eq h]

/-- A conjunction that is tested next. Its constraints are mild, but for the bound of a split above
the greatest integer. -/
def Waiting (cs : List Constraint) : Prop := Mild cs ∨ ∃ init x, cs = init ++ [beyond x]

/-- What is true of the loops while they have come to no such negation. -/
def Place.Sound : Place → Prop
  | .taking stack => ∀ b ∈ stack, Mild b.constraints
  | .extending b stack => Mild b.constraints ∧ ∀ b ∈ stack, Mild b.constraints
  | .bounding nodes stack => (∀ cs ∈ nodes, Waiting cs) ∧ ∀ b ∈ stack, Mild b.constraints
  | .done result => ∀ fault, result ≠ .error (.fault fault)

lemma mild_append {c : Constraint} (hcs : Mild cs) (hc : ¬c.Extreme) : Mild (cs ++ [c]) :=
  List.forall_mem_append.mpr ⟨hcs, List.forall_mem_singleton.mpr hc⟩

/-- After a conjunction come the two parts of its split, which are as mild as it is, but for a bound
above the greatest integer. -/
lemma sound_afterNode {nodes : List (List Constraint)} {stack : List Branch} {exhausted : Bool}
    {answer : Option (List (Var × ℚ))} (hcs : Mild cs) (hnodes : ∀ cs ∈ nodes, Waiting cs)
    (hstack : ∀ b ∈ stack, Mild b.constraints)
    (hfloor : ∀ xs x q, answer = some xs → Tableau.fractional? xs = some (x, q) →
      q.floor ≠ Int64.minValue.toInt) :
    (Place.afterNode cs nodes stack exhausted (.ok answer)).Sound := by
  cases answer with
  | none =>
    simp only [Place.afterNode]
    split_ifs
    · exact hstack
    · exact ⟨hnodes, hstack⟩
  | some xs =>
    cases hf : Tableau.fractional? xs with
    | none =>
      simp only [Place.afterNode, hf]
      intro fault h
      cases Tableau.integers_eq_error (Result.map_eq_error.mp h)
    | some p =>
      obtain ⟨x, q⟩ := p
      rcases split_of_floor_ne cs x (hfloor xs x q rfl hf) with hsplit | hsplit
      · simp only [Place.afterNode, hf, hsplit]
        intro fault h
        cases h
      · obtain ⟨below, above, hsplit, hbelow, habove⟩ := hsplit
        simp only [Place.afterNode, hf, hsplit]
        refine ⟨?_, hstack⟩
        rw [List.forall_mem_cons, List.forall_mem_cons]
        refine ⟨.inl (mild_append hcs hbelow), ?_, hnodes⟩
        by_cases hextreme : above.Extreme
        · exact .inr ⟨cs, x, by rw [habove hextreme]⟩
        · exact .inl (mild_append hcs hextreme)

lemma sound_next {s : State} (h : s.place.Sound) (hs : ¬s.Trips) :
    (next solve? s).place.Sound := by
  obtain ⟨place, m⟩ := s
  cases place with
  | done result => exact h
  | taking stack =>
    cases stack with
    | nil =>
      intro fault hf
      cases hf
    | cons b stack =>
      simp only [next]
      split_ifs
      · intro fault hf
        cases hf
      · exact List.forall_mem_cons.mp h
  | extending b stack =>
    obtain ⟨cs, pending, choices⟩ := b
    obtain ⟨hcs, hstack⟩ := h
    cases pending with
    | nil =>
      cases choices with
      | nil => exact ⟨List.forall_mem_singleton.mpr (.inl hcs), hstack⟩
      | cons alts rest =>
        refine List.forall_mem_append.mpr ⟨fun b hb => ?_, hstack⟩
        obtain ⟨a, -, rfl⟩ := List.mem_map.mp hb
        exact hcs
    | cons n rest =>
      cases n with
      | const v =>
        cases v with
        | true => exact ⟨hcs, hstack⟩
        | false => exact hstack
      | atom c =>
        rcases Nat.eq_zero_or_pos m.left with hleft | hleft
        · simp only [next, m.ask_of_left_eq_zero solve? hleft]
          exact hstack
        · have hmild : Mild (cs ++ [c]) := mild_append hcs fun hc => hs (.atom hleft hc)
          obtain ⟨answer, hanswer⟩ := exists_solve? hmild
          simp only [next, (m.ask_of_left_pos solve? hleft _).1, hanswer]
          cases answer with
          | none => exact hstack
          | some xs => exact ⟨hmild, hstack⟩
      | join k args =>
        cases k with
        | and => exact ⟨hcs, hstack⟩
        | or => exact ⟨hcs, hstack⟩
  | bounding nodes stack =>
    obtain ⟨hnodes, hstack⟩ := h
    cases nodes with
    | nil => exact hstack
    | cons cs nodes =>
      rw [List.forall_mem_cons] at hnodes
      rcases Nat.eq_zero_or_pos m.left with hleft | hleft
      · simp only [next, m.ask_of_left_eq_zero solve? hleft]
        exact hstack
      · rcases hnodes.1 with hmild | ⟨init, x, rfl⟩
        · obtain ⟨answer, hanswer⟩ := exists_solve? hmild
          simp only [next, (m.ask_of_left_pos solve? hleft _).1, hanswer]
          refine sound_afterNode hmild hnodes.2 hstack fun xs x q hxs hf hfloor => ?_
          exact hs (.floor hleft (hxs ▸ hanswer) hf hfloor)
        · exact absurd (.bound x hleft) hs

lemma sound_of_leads {s t : State} (hlead : Leads (next solve?) s t) (h : s.place.Sound)
    (hs : ∀ u, Leads (next solve?) s u → ¬u.Trips) : t.place.Sound := by
  obtain ⟨n, rfl⟩ := hlead
  induction n with
  | zero => exact h
  | succ n ih =>
    rw [Function.iterate_succ_apply']
    exact sound_next ih (hs _ ⟨n, rfl⟩)

lemma sound_start (f : Expr) (budget : ℕ) : (start f budget).place.Sound := by
  cases hn : f.normalForm true with
  | error e =>
    simp only [start, hn]
    intro fault he
    cases he
    cases (Expr.failsOnly_normalForm f).1 true _ hn
  | ok n =>
    simp only [start, hn]
    exact List.forall_mem_singleton.mpr (List.forall_mem_nil _)

theorem run_eq_fault {f : Expr} {budget : ℕ} {fault : Fault} :
    (run f budget).1 = .error (.fault fault) ↔
      fault = .arithmetic ∧ ∃ s, Leads (next solve?) (start f budget) s ∧ s.Trips := by
  obtain ⟨result, m, hlead, hrun, -⟩ := start_leads f budget
  have hanswer : (run f budget).1 = .error (.fault fault) ↔ result = .error (.fault fault) := by
    rw [hrun]
    rcases result with e | (_ | s)
    · simp [Meter.outcome, answerOf]
    · cases hm : m.exhausted <;> simp [Meter.outcome, answerOf, hm]
    · simp [Meter.outcome, answerOf]
  rw [hanswer]
  by_cases htrips : ∃ s, Leads (next solve?) (start f budget) s ∧ s.Trips
  · obtain ⟨s, hs, htrip⟩ := htrips
    have hend : Leads (next solve?) (start f budget)
        ⟨.done (.error (.fault .arithmetic)), (next solve? s).meter⟩ := by
      refine hs.trans (.one ?_)
      rw [← htrip.place_next]
    have hresult : result = .error (.fault .arithmetic) :=
      congrArg Prod.fst ((finish_of_leads solve? hlead).symm.trans (finish_of_leads solve? hend))
    simp only [hresult, Except.error.injEq, Failure.fault.injEq]
    exact ⟨fun h => ⟨h.symm, s, hs, htrip⟩, fun h => h.1.symm⟩
  · refine ⟨fun h => ?_, fun h => absurd h.2 htrips⟩
    rw [not_exists] at htrips
    have hsound := sound_of_leads hlead (sound_start f budget) fun u hu ht => htrips u ⟨hu, ht⟩
    exact absurd h (hsound fault)

end Search

namespace Solver

open Search

/-- The solver gives an answer or reports an error, unless its loops come to a negation of the least
integer: that of a constant in the formula, that of a bound above the greatest integer, or that of
the floor of a value just above the least one. -/
theorem check_returns_iff (f : Expr) (budget : ℕ) :
    ((∃ answer, (builtIn.check f budget ()).1 = .ok answer) ∨
        ∃ e, (builtIn.check f budget ()).1 = .error (.error e)) ↔
      ∀ s, Leads (next Constraint.solve?) (start f budget) s → ¬s.Trips := by
  change ((∃ answer, (run f budget).1 = .ok answer) ∨ ∃ e, (run f budget).1 = .error (.error e)) ↔ _
  constructor
  · intro hreturns s hs htrip
    have hfault : (run f budget).1 = .error (.fault .arithmetic) :=
      run_eq_fault.mpr ⟨rfl, s, hs, htrip⟩
    simp [hfault] at hreturns
  · intro hnone
    cases hr : (run f budget).1 with
    | ok answer => exact .inl ⟨answer, rfl⟩
    | error failure =>
      cases failure with
      | error e => exact .inr ⟨e, rfl⟩
      | fault fault =>
        obtain ⟨-, s, hs, htrip⟩ := run_eq_fault.mp hr
        exact absurd htrip (hnone s hs)

def leastOnly : Expr := .cmp .lt (.var ⟨"x", none⟩) (.int (-9223372036854775807))

def halved (s t : Int64) : Expr :=
  .join .and [.cmp .eq (.arith .sub (.arith .mul (.int 2) (.var ⟨"x", none⟩))
      (.arith .mul (.int 3) (.var ⟨"y", none⟩))) (.int s),
    .cmp .eq (.var ⟨"y", none⟩) (.int t)]

/-- Each of the three negations is come to: in the formula, between the least integer and the next
one, and above the greatest integer. -/
theorem check_faults_atLimits :
    (builtIn.check leastOnly 1 ()).1 = .error (.fault .arithmetic) ∧
      (builtIn.check (halved (-4611686018427387903) (-4611686018427387904)) 3 ()).1 =
        .error (.fault .arithmetic) ∧
      (builtIn.check (halved 4611686018427387903 4611686018427387904) 5 ()).1 =
        .error (.fault .arithmetic) := by
  refine ⟨?_, ?_, ?_⟩ <;> decide +kernel

end Solver
end LoopInvariant
