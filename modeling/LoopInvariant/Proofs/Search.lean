import LoopInvariant.Search
import LoopInvariant.Proofs.Cases
import LoopInvariant.Proofs.Feasibility

/-! The search is exact. When it ends without a solution there is none among all integers, and a
solution it finds makes the formula true whatever the other variables are. A budget that runs out
is neither of the two. -/
namespace LoopInvariant.Search

/-- What an answer says about a set of valuations: there is none in it, or values of some of the
variables suffice for being in it. -/
def Decides (vars : List Var) (p : Valuation → Prop) : Option Solution → Prop
  | none => ∀ ρ, ¬p ρ
  | some s => s.map (·.1) ⊆ vars ∧ (s.map (·.1)).Nodup ∧
      ∀ ρ, (∀ e ∈ s, ρ e.1 = e.2.toInt) → p ρ

lemma Decides.congr {vars : List Var} {p q : Valuation → Prop} {o : Option Solution}
    (h : Decides vars p o) (hpq : ∀ ρ, p ρ ↔ q ρ) : Decides vars q o := by
  cases o with
  | none => exact fun ρ hq => h ρ ((hpq ρ).mpr hq)
  | some s => exact ⟨h.1, h.2.1, fun ρ hρ => (hpq ρ).mp (h.2.2 ρ hρ)⟩

lemma Decides.or_left {vars : List Var} {p q : Valuation → Prop} {o : Option Solution}
    (h : Decides vars q o) (hp : ∀ ρ, ¬p ρ) : Decides vars (fun ρ => p ρ ∨ q ρ) o :=
  h.congr fun ρ => (or_iff_right (hp ρ)).symm

lemma Decides.inl {vars : List Var} {p q : Valuation → Prop} {s : Solution}
    (h : Decides vars p (some s)) : Decides vars (fun ρ => p ρ ∨ q ρ) (some s) :=
  ⟨h.1, h.2.1, fun ρ hρ => .inl (h.2.2 ρ hρ)⟩

/-! ### Branch and bound -/

lemma split_eq_ok {cs down up : List Constraint} {x : Var} {q : ℚ}
    (h : split cs x q = .ok (down, up)) :
    ∃ below above : Constraint, down = cs ++ [below] ∧ up = cs ++ [above] ∧
      below.form.vars ⊆ [x] ∧ above.form.vars ⊆ [x] ∧
      ∀ (R : Type) [CommRing R] [LinearOrder R] [IsStrictOrderedRing R] (y : Var → R),
        (below.Sat y ↔ y x ≤ q.floor) ∧ (above.Sat y ↔ (q.floor : R) + 1 ≤ y x) := by
  simp only [split, Result.bind_eq_ok, Result.orError_eq_ok, Result.orFault_eq_ok,
    Result.pure_eq_ok, Prod.mk.injEq] at h
  obtain ⟨floor, hfloor, negated, hneg, a, ha, above, habove, b, hb, below, hbelow, hdown, hup⟩ := h
  rw [Word.ofInt?_eq_some] at hfloor
  rw [Word.neg?, Word.ofInt?_eq_some] at hneg
  have hvar : (LinearForm.ofVar x).vars = [x] := rfl
  have hone : (-1 : Int64).toInt = -1 := rfl
  refine ⟨⟨below, .nonneg⟩, ⟨above, .nonneg⟩, hdown.symm, hup.symm, ?_, ?_, ?_⟩
  · exact List.Subset.trans (LinearForm.vars_shift hbelow) (hvar ▸ LinearForm.vars_scale hb)
  · exact List.Subset.trans (LinearForm.vars_shift habove) (hvar ▸ LinearForm.vars_shift ha)
  intro R _ _ _ y
  have hbelowAt : below.eval y = -y x + q.floor := by
    rw [LinearForm.eval_shift y hbelow, LinearForm.eval_negated y hb, LinearForm.eval_ofVar, hfloor]
  have haboveAt : above.eval y = y x - q.floor - 1 := by
    rw [LinearForm.eval_shift y habove, LinearForm.eval_shift y ha, LinearForm.eval_ofVar, hneg,
      hfloor, hone]
    push_cast
    ring
  simp only [Constraint.Sat, hbelowAt, haboveAt]
  constructor <;> constructor <;> intro hle <;> linarith

lemma sat_split {cs down up : List Constraint} {x : Var} {q : ℚ}
    (h : split cs x q = .ok (down, up)) (ρ : Valuation) :
    ((∀ c ∈ down, c.Sat ρ) ∨ ∀ c ∈ up, c.Sat ρ) ↔ ∀ c ∈ cs, c.Sat ρ := by
  obtain ⟨below, above, rfl, rfl, _, _, hsides⟩ := split_eq_ok h
  obtain ⟨hbelow, habove⟩ := hsides ℤ ρ
  rw [List.forall_mem_append, List.forall_mem_append, List.forall_mem_singleton,
    List.forall_mem_singleton, ← and_or_left, hbelow, habove, Int.cast_id]
  have hside : ρ x ≤ q.floor ∨ q.floor + 1 ≤ ρ x := by omega
  exact and_iff_left hside

lemma vars_split {cs down up : List Constraint} {x : Var} {q : ℚ} {vars : List Var}
    (h : split cs x q = .ok (down, up)) (hx : x ∈ vars) (hcs : ∀ c ∈ cs, c.form.vars ⊆ vars) :
    (∀ c ∈ down, c.form.vars ⊆ vars) ∧ ∀ c ∈ up, c.form.vars ⊆ vars := by
  obtain ⟨below, above, rfl, rfl, hbelow, habove, _⟩ := split_eq_ok h
  have hsingle : [x] ⊆ vars := by simpa using hx
  rw [List.forall_mem_append, List.forall_mem_append, List.forall_mem_singleton,
    List.forall_mem_singleton]
  exact ⟨⟨hcs, List.Subset.trans hbelow hsingle⟩, hcs, List.Subset.trans habove hsingle⟩

lemma fraction_mem {cs : List Constraint} {vars : List Var} {xs : List (Var × ℚ)} {x : Var} {q : ℚ}
    (hvars : ∀ c ∈ cs, c.form.vars ⊆ vars) (hs : Constraint.solve? cs = .ok (some xs))
    (hf : Tableau.fractional? xs = some (x, q)) :
    x ∈ vars ∧ ∃ y : Var → ℚ, y x = q ∧ ∀ c ∈ cs, c.Sat y := by
  obtain ⟨hcols, y, hy, hsat⟩ := Constraint.sat_of_solve? hs
  have hmem : (x, q) ∈ xs := List.mem_of_find?_eq_some hf
  have hcol : x ∈ xs.map (·.1) := List.mem_map_of_mem hmem
  rw [hcols] at hcol
  obtain ⟨c, hc, hv⟩ := Tableau.mem_columns.mp hcol
  exact ⟨hvars c hc hv, y, hy (x, q) hmem, hsat⟩

lemma decides_of_integers {cs : List Constraint} {vars : List Var} {xs : List (Var × ℚ)}
    {vs : Solution} (hvars : ∀ c ∈ cs, c.form.vars ⊆ vars)
    (hs : Constraint.solve? cs = .ok (some xs)) (hf : Tableau.fractional? xs = none)
    (hi : Tableau.integers xs = .ok vs) :
    Decides vars (fun ρ => ∀ c ∈ cs, c.Sat ρ) (some vs) := by
  obtain ⟨hcols, x, hx, hsat⟩ := Constraint.sat_of_solve? hs
  obtain ⟨hkeys, hsolves⟩ := Tableau.sat_of_integers hcols hx hsat hf hi
  refine ⟨?_, hkeys ▸ Tableau.nodup_columns cs, hsolves⟩
  rw [hkeys]
  intro v hv
  obtain ⟨c, hc, hv⟩ := Tableau.mem_columns.mp hv
  exact hvars c hc hv

lemma not_sat_of_solve? {cs : List Constraint} (h : Constraint.solve? cs = .ok none)
    (ρ : Valuation) : ¬∀ c ∈ cs, c.Sat ρ := by
  intro hρ
  exact Constraint.not_sat_of_solve? h (fun v => (ρ v : ℚ))
    fun c hc => (Constraint.sat_intCast ρ c).mpr (hρ c hc)

/-- Branch and bound over a stack decides whether some conjunction on it has an integer point. -/
theorem branchAndBound_decides {vars : List Var} {left rest : ℕ} {stack : List (List Constraint)}
    {o : Option Solution} (hvars : ∀ cs ∈ stack, ∀ c ∈ cs, c.form.vars ⊆ vars)
    (h : branchAndBound left stack = (.ok o, rest)) :
    Decides vars (fun ρ => ∃ cs ∈ stack, ∀ c ∈ cs, c.Sat ρ) o := by
  have hcons (cs : List Constraint) (more : List (List Constraint)) (ρ : Valuation) :
      ((∀ c ∈ cs, c.Sat ρ) ∨ ∃ ds ∈ more, ∀ c ∈ ds, c.Sat ρ) ↔
        ∃ ds ∈ cs :: more, ∀ c ∈ ds, c.Sat ρ := by
    simp
  induction left, stack using branchAndBound.induct with
  | case1 left =>
    rw [branchAndBound] at h
    cases h
    intro ρ
    simp
  | case2 cs more =>
    rw [branchAndBound] at h
    cases h
  | case3 left cs more f hs =>
    simp only [branchAndBound, hs] at h
    cases h
  | case4 left cs more hs ih =>
    simp only [branchAndBound, hs] at h
    have hrest := ih (fun ds hds => hvars ds (by simp [hds])) h
    exact (hrest.or_left (not_sat_of_solve? hs)).congr (hcons cs more)
  | case5 left cs more xs hs hf vs hi =>
    simp only [branchAndBound, hs, hf, hi] at h
    cases h
    exact (decides_of_integers (hvars cs (by simp)) hs hf hi).inl.congr (hcons cs more)
  | case6 left cs more xs hs hf f hi =>
    simp only [branchAndBound, hs, hf, hi] at h
    cases h
  | case7 left cs more xs hs x q hf down up hsplit ih =>
    simp only [branchAndBound, hs, hf, hsplit] at h
    obtain ⟨hfirst, hmore⟩ := List.forall_mem_cons.mp hvars
    obtain ⟨hx, -⟩ := fraction_mem hfirst hs hf
    obtain ⟨hdown, hup⟩ := vars_split hsplit hx hfirst
    have hstack := List.forall_mem_cons.mpr ⟨hdown, List.forall_mem_cons.mpr ⟨hup, hmore⟩⟩
    refine (ih hstack h).congr fun ρ => ?_
    rw [← hcons, ← hcons, ← hcons, ← or_assoc, sat_split hsplit]
  | case8 left cs more xs hs x q hf f hsplit =>
    simp only [branchAndBound, hs, hf, hsplit] at h
    cases h

/-! ### Case distinction -/

lemma feasible?_zero (cs : List Constraint) : feasible? cs 0 = (.error .exhausted, 0) := rfl

lemma feasible?_of_ok {cs : List Constraint} {o : Option (List (Var × ℚ))}
    (h : Constraint.solve? cs = .ok o) (left : ℕ) : feasible? cs (left + 1) = (.ok o, left) := by
  rw [feasible?, Task.bind_of_ok (Task.get_apply _)]
  simp only [h]
  rfl

lemma feasible?_of_error {cs : List Constraint} {f : Failure}
    (h : Constraint.solve? cs = .error f) (left : ℕ) :
    feasible? cs (left + 1) = (.error (.failed f), left) := by
  rw [feasible?, Task.bind_of_ok (Task.get_apply _)]
  simp only [h]
  rfl

lemma feasible?_eq_ok {cs : List Constraint} {left rest : ℕ} {o : Option (List (Var × ℚ))}
    (h : feasible? cs left = (.ok o, rest)) : Constraint.solve? cs = .ok o := by
  cases left with
  | zero => cases h
  | succ left =>
    cases hs : Constraint.solve? cs with
    | error f =>
      rw [feasible?_of_error hs] at h
      cases h
    | ok answer =>
      rw [feasible?_of_ok hs] at h
      cases h
      rfl

/-- The valuations that a state of the search stands for. -/
structure Meets (cs : List Constraint) (pending : List NormalForm)
    (choices : List (List NormalForm)) (ρ : Valuation) : Prop where
  constraints : ∀ c ∈ cs, c.Sat ρ
  pending : ∀ n ∈ pending, n.truth ρ = true
  choices : ∀ alts ∈ choices, ∃ a ∈ alts, a.truth ρ = true

structure Within (vars : List Var) (cs : List Constraint) (pending : List NormalForm)
    (choices : List (List NormalForm)) : Prop where
  constraints : ∀ c ∈ cs, c.form.vars ⊆ vars
  pending : ∀ n ∈ pending, n.occurrences ⊆ vars
  choices : ∀ alts ∈ choices, ∀ a ∈ alts, a.occurrences ⊆ vars

section State

variable {cs : List Constraint} {c : Constraint} {n : NormalForm} {pending args : List NormalForm}
  {choices : List (List NormalForm)} {vars : List Var} {ρ : Valuation}

lemma meets_true :
    Meets cs (.const true :: pending) choices ρ ↔ Meets cs pending choices ρ := by
  constructor
  · rintro ⟨hcs, hp, hch⟩
    exact ⟨hcs, fun n hn => hp n (by simp [hn]), hch⟩
  · rintro ⟨hcs, hp, hch⟩
    exact ⟨hcs, by simpa [NormalForm.truth] using hp, hch⟩

lemma not_meets_false : ¬Meets cs (.const false :: pending) choices ρ := by
  intro h
  have := h.pending (.const false) (by simp)
  simp [NormalForm.truth] at this

lemma meets_atom :
    Meets cs (.atom c :: pending) choices ρ ↔ Meets (cs ++ [c]) pending choices ρ := by
  have hatom : (NormalForm.atom c).truth ρ = true ↔ c.Sat ρ := (Constraint.sat_iff_holds ρ c).symm
  constructor
  · rintro ⟨hcs, hp, hch⟩
    have hc := hp (.atom c) (by simp)
    refine ⟨?_, fun n hn => hp n (by simp [hn]), hch⟩
    rw [List.forall_mem_append, List.forall_mem_singleton]
    exact ⟨hcs, hatom.mp hc⟩
  · rintro ⟨hcs, hp, hch⟩
    rw [List.forall_mem_append, List.forall_mem_singleton] at hcs
    refine ⟨hcs.1, ?_, hch⟩
    rw [List.forall_mem_cons]
    exact ⟨hatom.mpr hcs.2, hp⟩

lemma meets_and :
    Meets cs (.join .and args :: pending) choices ρ ↔
      Meets cs (args.reverse ++ pending) choices ρ := by
  have hargs : (NormalForm.join .and args).truth ρ = true ↔
      ∀ n ∈ args.reverse, n.truth ρ = true := by
    simp [NormalForm.truth]
  constructor
  · rintro ⟨hcs, hp, hch⟩
    rw [List.forall_mem_cons, hargs] at hp
    exact ⟨hcs, List.forall_mem_append.mpr hp, hch⟩
  · rintro ⟨hcs, hp, hch⟩
    refine ⟨hcs, ?_, hch⟩
    rw [List.forall_mem_cons, hargs]
    exact List.forall_mem_append.mp hp

lemma meets_or :
    Meets cs (.join .or args :: pending) choices ρ ↔ Meets cs pending (args :: choices) ρ := by
  have hargs : (NormalForm.join .or args).truth ρ = true ↔ ∃ a ∈ args, a.truth ρ = true := by
    simp [NormalForm.truth]
  constructor
  · rintro ⟨hcs, hp, hch⟩
    rw [List.forall_mem_cons, hargs] at hp
    exact ⟨hcs, hp.2, List.forall_mem_cons.mpr ⟨hp.1, hch⟩⟩
  · rintro ⟨hcs, hp, hch⟩
    rw [List.forall_mem_cons] at hch
    exact ⟨hcs, List.forall_mem_cons.mpr ⟨hargs.mpr hch.1, hp⟩, hch.2⟩

lemma meets_choice :
    Meets cs [n] choices ρ ∨ Meets cs [] (args :: choices) ρ ↔
      Meets cs [] ((n :: args) :: choices) ρ := by
  constructor
  · rintro (⟨hcs, hp, hch⟩ | ⟨hcs, hp, hch⟩)
    · refine ⟨hcs, by simp, List.forall_mem_cons.mpr ⟨⟨n, by simp, hp n (by simp)⟩, hch⟩⟩
    · rw [List.forall_mem_cons] at hch
      obtain ⟨⟨a, ha, htrue⟩, hrest⟩ := hch
      exact ⟨hcs, hp, List.forall_mem_cons.mpr ⟨⟨a, by simp [ha], htrue⟩, hrest⟩⟩
  · rintro ⟨hcs, hp, hch⟩
    rw [List.forall_mem_cons] at hch
    obtain ⟨⟨a, ha, htrue⟩, hrest⟩ := hch
    rcases List.mem_cons.mp ha with rfl | ha
    · exact .inl ⟨hcs, by simpa using htrue, hrest⟩
    · exact .inr ⟨hcs, hp, List.forall_mem_cons.mpr ⟨⟨a, ha, htrue⟩, hrest⟩⟩

lemma Within.tail (h : Within vars cs (n :: pending) choices) : Within vars cs pending choices :=
  ⟨h.constraints, fun m hm => h.pending m (by simp [hm]), h.choices⟩

lemma Within.atom (h : Within vars cs (.atom c :: pending) choices) :
    Within vars (cs ++ [c]) pending choices := by
  refine ⟨?_, h.tail.pending, h.choices⟩
  rw [List.forall_mem_append, List.forall_mem_singleton]
  exact ⟨h.constraints, h.pending (.atom c) (by simp)⟩

lemma Within.and (h : Within vars cs (.join .and args :: pending) choices) :
    Within vars cs (args.reverse ++ pending) choices := by
  have hargs := h.pending (.join .and args) (by simp)
  refine ⟨h.constraints, List.forall_mem_append.mpr ⟨fun m hm => ?_, h.tail.pending⟩, h.choices⟩
  have hmem : m ∈ args := List.mem_reverse.mp hm
  exact List.Subset.trans (NormalForm.occurrences_subset_join .and hmem) hargs

lemma Within.or (h : Within vars cs (.join .or args :: pending) choices) :
    Within vars cs pending (args :: choices) := by
  have hargs := h.pending (.join .or args) (by simp)
  refine ⟨h.constraints, h.tail.pending, List.forall_mem_cons.mpr ⟨fun m hm => ?_, h.choices⟩⟩
  exact List.Subset.trans (NormalForm.occurrences_subset_join .or hm) hargs

lemma Within.alternatives (h : Within vars cs [] ((n :: args) :: choices)) :
    Within vars cs [n] choices ∧ Within vars cs [] (args :: choices) := by
  obtain ⟨hfirst, hrest⟩ := List.forall_mem_cons.mp h.choices
  obtain ⟨hn, hargs⟩ := List.forall_mem_cons.mp hfirst
  exact ⟨⟨h.constraints, List.forall_mem_singleton.mpr hn, hrest⟩,
    ⟨h.constraints, h.pending, List.forall_mem_cons.mpr ⟨hargs, hrest⟩⟩⟩

end State

/-- The search decides whether some integers meet all constraints and pending formulas and one
alternative of each disjunction. -/
theorem explore_decides (vars : List Var) (cs : List Constraint) (pending : List NormalForm)
    (choices : List (List NormalForm)) :
    ∀ left o rest, Within vars cs pending choices →
      explore cs pending choices left = (.ok o, rest) →
      Decides vars (Meets cs pending choices) o := by
  -- trying alternatives is a state without pending formulas, whose latest choice they are
  refine @explore.induct
    (fun cs pending choices => ∀ left o rest, Within vars cs pending choices →
      explore cs pending choices left = (.ok o, rest) → Decides vars (Meets cs pending choices) o)
    (fun cs alts choices => ∀ left o rest, Within vars cs [] (alts :: choices) →
      firstOf cs alts choices left = (.ok o, rest) → Decides vars (Meets cs [] (alts :: choices)) o)
    ?leaf ?choose ?true ?false ?atom ?and ?or ?noAlternative ?alternative cs pending choices
  case leaf =>
    intro cs left o rest hw h
    rw [explore] at h
    refine (branchAndBound_decides (by simpa using hw.constraints) h).congr fun ρ => ?_
    constructor
    · intro hs
      exact ⟨by simpa using hs, by simp, by simp⟩
    · intro hm
      simpa using hm.constraints
  case choose =>
    intro cs alts choices ih left o rest hw h
    rw [explore] at h
    exact ih left o rest hw h
  case true =>
    intro cs choices pending ih left o rest hw h
    rw [explore] at h
    exact (ih left o rest hw.tail h).congr fun ρ => meets_true.symm
  case false =>
    intro cs choices pending left o rest hw h
    rw [explore, Task.pure_eq_ok] at h
    rw [← h.1]
    exact fun ρ => not_meets_false
  case atom =>
    intro cs choices c pending ih left o rest hw h
    rw [explore, Task.bind_eq_ok] at h
    obtain ⟨answer, left', hf, h⟩ := h
    have hs := feasible?_eq_ok hf
    cases answer with
    | none =>
      rw [Task.pure_eq_ok] at h
      rw [← h.1]
      intro ρ hm
      exact not_sat_of_solve? hs ρ (meets_atom.mp hm).constraints
    | some xs => exact (ih left' o rest hw.atom h).congr fun ρ => meets_atom.symm
  case and =>
    intro cs choices args pending ih left o rest hw h
    rw [explore] at h
    exact (ih left o rest hw.and h).congr fun ρ => meets_and.symm
  case or =>
    intro cs choices args pending ih left o rest hw h
    rw [explore] at h
    exact (ih left o rest hw.or h).congr fun ρ => meets_or.symm
  case noAlternative =>
    intro cs choices left o rest hw h
    rw [firstOf, Task.pure_eq_ok] at h
    rw [← h.1]
    intro ρ hm
    simpa using hm.choices [] (by simp)
  case alternative =>
    intro cs choices a alts ihFirst ihRest left o rest hw h
    rw [firstOf, Task.bind_eq_ok] at h
    obtain ⟨first, left', hfirst, h⟩ := h
    obtain ⟨hwFirst, hwRest⟩ := hw.alternatives
    have hdecided := ihFirst left first left' hwFirst hfirst
    cases first with
    | some s =>
      rw [Task.pure_eq_ok] at h
      rw [← h.1]
      exact hdecided.inl.congr fun ρ => meets_choice
    | none => exact ((ihRest left' o rest hwRest h).or_left hdecided).congr fun ρ => meets_choice

end LoopInvariant.Search
