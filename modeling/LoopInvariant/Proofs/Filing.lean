import LoopInvariant.Proofs.Failures

/-! Points are filed under the guards that the solver finds to hold at them. With a solver that
answers truly each point goes to the one part whose number has the truth of the predicates at the
point as its bits, in the order of arrival, and no point is left over. -/
namespace LoopInvariant.Partition

open Result LoopInvariant.Task

variable {σ : Type} {o : Oracle σ} {l : Loop} {onCond : Bool} {gs : List Expr}
  {s t : Oracle.State σ}

def partAt (l : Loop) (onCond : Bool) (p : Point) : ℕ :=
  partOf (predicates l onCond) (l.reading StateVar.before (l.ofPoint p))

lemma partAt_lt (l : Loop) (onCond : Bool) (p : Point) :
    partAt l onCond p < 2 ^ (predicates l onCond).length :=
  partOf_lt _ _

/-! ### One point -/

lemma locate_eq_ok (htrue : o.solver.Truthful) (hn : l.names.Nodup)
    (hpreds : ∀ p ∈ predicates l onCond, p.occurrences ⊆ l.vars.map StateVar.before)
    (hgs : guards l onCond = .ok gs) {p : Point} {flags : List Bool}
    (h : locate o l gs p s = (.ok flags, t)) :
    flags = (List.range gs.length).map fun n => decide (n = partAt l onCond p) := by
  obtain ⟨f, s₁, hask, h⟩ := bind_eq_ok.mp h
  obtain ⟨hf, _⟩ := ofResult_eq_ok.mp hask
  obtain ⟨found, s₂, hfound, h⟩ := bind_eq_ok.mp h
  have heq : found = flags := by
    split_ifs at h
    · exact (pure_eq_ok.mp h).1
    · exact absurd h throw_eq_ok
  have hmap : found = gs.map (Expr.truth (l.reading StateVar.before (l.ofPoint p))) := by
    apply eq_map_of_mapM hfound
    intro g hg b s' t' hb
    rw [Bool.eq_iff_iff]
    exact (Trace.isSat_state htrue hn .pre (occurrences_guards hpreds hgs g hg) hf hb).2.symm
  rw [← heq, hmap, map_truth_guards hgs]
  rfl

/-- A point may be refused, but not for want of a part. -/
lemma ensures_locate_noGap (ho : o.solver.Dependable) (htrue : o.solver.Truthful)
    (hn : l.names.Nodup) (hgs : guards l onCond = .ok gs) (p : Point) :
    Ensures (locate o l gs p) (fun f => ∀ q n, f ≠ .error (.partitionGap q n)) fun _ => True := by
  intro s
  by_cases hdim : p.dim = l.dim
  · apply (ensures_locate ho htrue hn hgs hdim s).imp
    · intro f hf q n hgap
      rw [hgap] at hf
      rcases hf with hf | hf
      · cases hf
      · cases hf
    · exact fun _ h => h
  · have hstate : l.state p .pre = .error (.error (.dimension p p.dim l.dim)) := if_neg hdim
    have hrefused : locate o l gs p s = (.error (.error (.dimension p p.dim l.dim)), s) :=
      bind_of_error (congrArg (·, s) hstate)
    rw [hrefused]
    intro q n hgap
    cases hgap

/-! ### All points -/

lemma file_eq_ok (htrue : o.solver.Truthful) (hn : l.names.Nodup)
    (hpreds : ∀ p ∈ predicates l onCond, p.occurrences ⊆ l.vars.map StateVar.before)
    (hgs : guards l onCond = .ok gs) {points : List Point} {parts : List (List Point)}
    (h : file o l gs points s = (.ok parts, t)) :
    parts = (List.range gs.length).map fun n => points.filter fun p => n = partAt l onCond p := by
  obtain ⟨rows, s₁, hrows, h⟩ := bind_eq_ok.mp h
  have hmap : rows = points.map fun p =>
      (p, (List.range gs.length).map fun n => decide (n = partAt l onCond p)) := by
    apply eq_map_of_mapM hrows
    intro p _ r s' t' hr
    obtain ⟨flags, s₂, hflags, hr⟩ := bind_eq_ok.mp hr
    rw [← (pure_eq_ok.mp hr).1, locate_eq_ok htrue hn hpreds hgs hflags]
  rw [← (pure_eq_ok.mp h).1, hmap]
  apply List.map_congr_left
  intro n hlt
  rw [List.mem_range] at hlt
  rw [List.filter_map, List.map_map]
  have hself : ((fun r : Point × List Bool => r.1) ∘ fun p =>
      (p, (List.range gs.length).map fun n => decide (n = partAt l onCond p))) = id := rfl
  rw [hself, List.map_id]
  apply List.filter_congr
  intro p _
  simp [hlt]

lemma ensures_file_noGap (ho : o.solver.Dependable) (htrue : o.solver.Truthful)
    (hn : l.names.Nodup) (hgs : guards l onCond = .ok gs) (points : List Point) :
    Ensures (file o l gs points) (fun f => ∀ q n, f ≠ .error (.partitionGap q n))
      fun _ => True := by
  have hrow (p : Point) : Ensures (do return (p, ← locate o l gs p) : Oracle.Asking σ _)
      (fun f => ∀ q n, f ≠ .error (.partitionGap q n)) fun _ => True :=
    (ensures_locate_noGap ho htrue hn hgs p).bind fun flags _ => ensures_pure trivial
  exact (Ensures.mapM fun p _ => hrow p).bind fun rows _ => ensures_pure trivial

lemma flatten_filter_perm {α : Type} (key : α → ℕ) (xs : List α) (n : ℕ) :
    ((List.range n).map fun i => xs.filter fun x => i = key x).flatten.Perm
      (xs.filter fun x => key x < n) := by
  induction n with
  | zero => simp
  | succ n ih =>
    have hsplit := List.filter_append_perm (fun x => decide (key x < n))
      (xs.filter fun x => key x < n + 1)
    rw [List.filter_filter, List.filter_filter] at hsplit
    have hbelow : (xs.filter fun x => decide (key x < n) && decide (key x < n + 1)) =
        xs.filter fun x => key x < n := by
      apply List.filter_congr
      intro x _
      rw [← Bool.decide_and, decide_eq_decide]
      omega
    have hlast : (xs.filter fun x => !decide (key x < n) && decide (key x < n + 1)) =
        xs.filter fun x => n = key x := by
      apply List.filter_congr
      intro x _
      rw [← decide_not, ← Bool.decide_and, decide_eq_decide]
      omega
    rw [hbelow, hlast] at hsplit
    rw [List.range_succ, List.map_append, List.flatten_append, List.map_singleton,
      List.flatten_singleton]
    exact (ih.append_right _).trans hsplit

/-- Filing puts each point into exactly one part, in the order of arrival: the part whose number has
as its bits the truth of the predicates at the point. No point is without a part. -/
theorem file_exact {o : Oracle Unit} (ho : o.solver = .builtIn) (hn : l.names.Nodup)
    (hpreds : ∀ p ∈ predicates l onCond, p.occurrences ⊆ l.vars.map StateVar.before)
    (hgs : guards l onCond = .ok gs) (points : List Point) (s : Oracle.State Unit) :
    (∀ q n, (file o l gs points s).1 ≠ .error (.error (.partitionGap q n))) ∧
    ∀ parts, (file o l gs points s).1 = .ok parts →
      parts = (List.range (2 ^ (predicates l onCond).length)).map (fun n => points.filter fun p =>
        ∀ i : Fin (predicates l onCond).length, n.testBit i =
          ((predicates l onCond).get i).truth (l.reading StateVar.before (l.ofPoint p))) ∧
      (∀ p ∈ points, ∃! n : Fin parts.length, p ∈ parts.get n) ∧
      parts.flatten.Perm points ∧ (parts.map List.length).sum = points.length := by
  have htrue : o.solver.Truthful := ho ▸ Solver.builtIn_truthful
  have hdep : o.solver.Dependable := ho ▸ Solver.builtIn_dependable
  constructor
  · intro q n hgap
    exact (ensures_file_noGap hdep htrue hn hgs points s).failsOnly _ hgap q n rfl
  intro parts h
  have hparts := file_eq_ok htrue hn hpreds hgs (Prod.ext h rfl)
  rw [length_guards hgs] at hparts
  have hperm : parts.flatten.Perm points := by
    rw [hparts]
    apply (flatten_filter_perm _ _ _).trans
    rw [List.filter_eq_self.mpr fun p _ => decide_eq_true (partAt_lt l onCond p)]
  refine ⟨?_, ?_, hperm, ?_⟩
  · rw [hparts]
    apply List.map_congr_left
    intro n hlt
    apply List.filter_congr
    intro p _
    rw [decide_eq_decide]
    exact eq_partOf (List.mem_range.mp hlt)
  · intro p hp
    have hmem (n : Fin parts.length) : p ∈ parts.get n ↔ n.val = partAt l onCond p := by
      simp [hparts, hp]
    have hlt : partAt l onCond p < parts.length := by
      rw [hparts, List.length_map, List.length_range]
      exact partAt_lt l onCond p
    refine ⟨⟨_, hlt⟩, (hmem _).mpr rfl, fun n hn => ?_⟩
    exact Fin.ext ((hmem n).mp hn)
  · rw [← List.length_flatten, hperm.length_eq]

/-- Two points at which the condition holds, one of them given twice, and one at which it fails. -/
theorem file_exact_piecewise :
    Examples.piecewise.names.Nodup ∧
    (∀ p ∈ predicates Examples.piecewise true,
      p.occurrences ⊆ Examples.piecewise.vars.map StateVar.before) ∧
    ∃ gs, guards Examples.piecewise true = .ok gs ∧
      (file ⟨.builtIn, 100, 0, 2⟩ Examples.piecewise gs [⟨[-1, 2]⟩, ⟨[3, -1]⟩, ⟨[-1, 2]⟩, ⟨[0, 2]⟩]
        ⟨(), 0⟩).1 = .ok [[], [⟨[0, 2]⟩], [], [⟨[-1, 2]⟩, ⟨[-1, 2]⟩], [⟨[3, -1]⟩], [], [], []] ∧
      [[], [⟨[0, 2]⟩], [], [⟨[-1, 2]⟩, ⟨[-1, 2]⟩], [⟨[3, -1]⟩], [], [], []].flatten.Perm
        [(⟨[-1, 2]⟩ : Point), ⟨[3, -1]⟩, ⟨[-1, 2]⟩, ⟨[0, 2]⟩] := by
  have hn : Examples.piecewise.names.Nodup := by decide
  have hpreds : ∀ p ∈ predicates Examples.piecewise true,
      p.occurrences ⊆ Examples.piecewise.vars.map StateVar.before := by
    decide
  have hgs : guards Examples.piecewise true = .ok ((List.range 8).map
      (guard (predicates Examples.piecewise true))) := rfl
  have hfile : (file ⟨.builtIn, 100, 0, 2⟩ Examples.piecewise ((List.range 8).map
      (guard (predicates Examples.piecewise true)))
      [⟨[-1, 2]⟩, ⟨[3, -1]⟩, ⟨[-1, 2]⟩, ⟨[0, 2]⟩] ⟨(), 0⟩).1 =
        .ok [[], [⟨[0, 2]⟩], [], [⟨[-1, 2]⟩, ⟨[-1, 2]⟩], [⟨[3, -1]⟩], [], [], []] := by
    decide +kernel
  exact ⟨hn, hpreds, _, hgs, hfile, ((file_exact rfl hn hpreds hgs _ _).2 _ hfile).2.2.1⟩

end LoopInvariant.Partition
