import LoopInvariant.Proofs.Failures
import LoopInvariant.Proofs.MaxMargin
import LoopInvariant.Proofs.Phases

/-! All vectors in a verification have one coordinate for each variable: samples, the weights that
are fitted to them, half-spaces, states that refute a candidate and their reflections. With a
separator that can be relied on, the only errors left are the ones that are meant to be reported,
and those that mean giving up end in a verdict. -/
namespace LoopInvariant

open Result LoopInvariant.Task

/-! ### Half-spaces -/

namespace Halfspace

variable {h : Halfspace} {p : Point}

lemma ensures_toExpr {vars : List Var} (hlen : vars.length = h.coeffs.length) :
    Result.Ensures (h.toExpr vars) Failure.Expected fun _ => True := by
  unfold toExpr
  rw [if_pos hlen]
  exact trivial

lemma ensures_eval (hdim : p.dim = h.coeffs.length) :
    Result.Ensures (h.eval p) Failure.Expected fun _ => True := by
  unfold eval
  rw [if_pos hdim]
  exact ensures_orFault Failure.expected_arithmetic fun _ _ => trivial

lemma dim_neighbours {margin : Int64} {ps : List Point} (hps : neighbours margin p = some ps) :
    ∀ q ∈ ps, q.dim = p.dim := by
  simp only [neighbours, Option.bind_eq_bind, Option.bind_eq_some_iff, Option.pure_def,
    Option.some_inj] at hps
  obtain ⟨back, _, pairs, hpairs, rfl⟩ := hps
  intro q hq
  obtain ⟨pair, hpair, hq⟩ := List.mem_flatten.mp hq
  obtain ⟨axis, _, haxis⟩ := exists_of_mem_mapM_some hpairs hpair
  simp only [Option.bind_eq_some_iff, Option.some_inj] at haxis
  obtain ⟨_, ⟨x, _, rfl⟩, _, ⟨y, _, rfl⟩, rfl⟩ := haxis
  rcases List.mem_pair.mp hq with rfl | rfl
  · exact List.length_set
  · exact List.length_set

lemma ensures_reflect (hdim : p.dim = h.coeffs.length) (margin : Int64) :
    Result.Ensures (h.reflect p margin) Failure.Expected fun ps => ∀ q ∈ ps, q.dim = p.dim := by
  have hsquare : Result.Ensures (orFault (sumProducts 0 (h.coeffs.zip h.coeffs)) .arithmetic)
      Failure.Expected fun _ => True :=
    ensures_orFault Failure.expected_arithmetic fun _ _ => trivial
  apply hsquare.bind
  intro square _
  split_ifs with hzero
  · change ∀ q ∈ [], _
    simp
  · apply (ensures_eval hdim).bind
    intro distance _
    split_ifs with hboundary
    · exact ensures_orFault Failure.expected_arithmetic fun ps hps => dim_neighbours hps
    · change ∀ q ∈ [_], Point.dim q = p.dim
      rw [List.forall_mem_singleton, Point.dim, List.length_zipWith]
      have hlen : p.coords.length = h.coeffs.length := hdim
      change _ = p.coords.length
      omega

end Halfspace

lemma Verifier.ensures_reflections {hs : List Halfspace} {p : Point}
    (hdim : ∀ h ∈ hs, p.dim = h.coeffs.length) (margin : Int64) :
    Result.Ensures (Verifier.reflections hs p margin) Failure.Expected
      fun ps => ∀ q ∈ ps, q.dim = p.dim := by
  have hmap := Ensures.mapM fun h hh => Halfspace.ensures_reflect (hdim h hh) margin
  apply hmap.bind
  intro images himages q hq
  obtain ⟨ps, hps, hq⟩ := List.mem_flatten.mp hq
  obtain ⟨h, _, hall⟩ := exists_of_forall₂_right himages hps
  exact hall q hq

/-! ### Separators -/

/-- On samples it can be trained with, the separator has a weight for each coordinate, or it does
not converge. -/
def Separator.Dependable {τ : Type} (s : Separator τ) : Prop :=
  ∀ d samples memory, Trainable d samples →
    Result.Ensures (s.train samples memory).1 (fun f => ∃ k, f = .error (.notConverged k))
      fun m => m.weights.length = d

lemma Separator.maxMargin_dependable (settings : MaxMargin.Settings) :
    (maxMargin settings).Dependable := by
  intro d samples memory h
  change Result.Ensures (MaxMargin.train settings samples) _ _
  rcases MaxMargin.train_ends settings h with ⟨k, _, t, last, s, last', _, _, htrain⟩ |
    ⟨t, last, s, last', i, j, _, _, htrain⟩
  · rw [htrain]
    exact s.weights.length_toList
  · rw [htrain]
    exact ⟨_, rfl⟩

/-! ### Learners -/

def SampleSet.Sized (d : ℕ) (samples : SampleSet) : Prop :=
  ∀ c, ∀ p ∈ samples.get c, p.dim = d

def Learned.Sized (d : ℕ) : Learned → Prop
  | .disproved => True
  | .candidate _ hs => ∀ h ∈ hs, h.coeffs.length = d

namespace Learner

variable {σ τ : Type} {l : Learner τ} {d : ℕ}

lemma ensures_expired (l : Learner τ) : Ensures l.expired Failure.Expected fun _ => True := by
  intro s
  obtain ⟨b, n, h⟩ := l.expired_eq_ok s
  rw [h]
  trivial

lemma ensures_train (hl : l.separator.Dependable) {samples : List (Point × Label)}
    (h : Trainable d samples) :
    Ensures (l.train samples) Failure.Expected fun m => m.weights.length = d := by
  refine Ensures.bind (q := fun m => m.weights.length = d) (fun s => ?_) fun m hm =>
    (ensures_modify _).bind fun _ _ => ensures_pure hm
  apply (hl d samples s.memory h).imp
  · intro f hf
    obtain ⟨k, rfl⟩ := hf
    exact .inr (.notConverged k)
  · exact fun m hm => hm

lemma takeOut_mem (p : Point) (ps : List Point) (i : ℕ) : (takeOut p ps i).1 ∈ p :: ps := by
  by_cases hi : i < (p :: ps).length
  · rw [takeOut, List.getD_eq_getElem _ _ hi]
    exact List.getElem_mem hi
  · rw [takeOut, List.getD_eq_default _ _ (by omega)]
    exact List.mem_cons_self

lemma takeOut_subset (p : Point) (ps : List Point) (i : ℕ) : (takeOut p ps i).2 ⊆ p :: ps := by
  intro q hq
  rcases List.mem_or_eq_of_mem_set (List.mem_of_mem_dropLast hq) with h | h
  · exact h
  · rw [h]
    exact List.getLastD_mem_cons

/-- Positive samples of the right dimension, to which negative ones are added one at a time. -/
structure Positives (d : ℕ) (samples : List (Point × Label)) : Prop where
  nonempty : samples ≠ []
  label : ∀ s ∈ samples, s.2 = .positive
  dim : ∀ s ∈ samples, s.1.dim = d

lemma Positives.trainable {samples : List (Point × Label)} (h : Positives d samples) {q : Point}
    (hq : q.dim = d) : Trainable d (samples ++ [(q, .negative)]) := by
  obtain ⟨s, hs⟩ := List.exists_mem_of_ne_nil samples h.nonempty
  refine ⟨?_, ⟨s, by simp [hs], h.label s hs⟩, ⟨(q, .negative), by simp, rfl⟩⟩
  rw [List.forall_mem_append, List.forall_mem_singleton]
  exact ⟨h.dim, hq⟩

lemma ensures_cutOff (hl : l.separator.Dependable) {positives : List (Point × Label)}
    (hpos : Positives d positives) {working : List Point} (hw : ∀ q ∈ working, q.dim = d) :
    Ensures (l.cutOff positives working) Failure.Expected
      fun hs => ∀ h ∈ hs, h.coeffs.length = d := by
  induction working using cutOff.induct with
  | case1 =>
    rw [cutOff]
    exact ensures_pure (by simp)
  | case2 p ps ih =>
    rw [cutOff]
    apply (ensures_expired l).bind
    intro expired _
    cases expired with
    | true =>
      exact (ensures_throw (q := fun _ => False) (.inr .deadline)).bind fun _ h => h.elim
    | false =>
      have hdraw : Ensures (draw (Random.index (ps.length + 1)) : Learning τ ℕ) Failure.Expected
          fun _ => True := fun s => trivial
      apply hdraw.bind
      intro i _
      have hrest : ∀ q ∈ (takeOut p ps i).2, q.dim = d := fun q hq => hw q (takeOut_subset p ps i hq)
      -- each training set has all positive points and the negative one that was drawn
      apply (ensures_train hl (hpos.trainable (hw _ (takeOut_mem p ps i)))).bind
      intro m hm
      -- the weights are as many as the coordinates of the points that remain
      have hfits : (takeOut p ps i).2.all m.fits = true := by
        rw [List.all_eq_true]
        intro q hq
        exact decide_eq_true ((hrest q hq).trans hm.symm)
      rw [if_pos hfits]
      apply (ih i m fun q hq => hrest q (List.mem_of_mem_filter hq)).bind
      intro hs hhs
      apply ensures_pure
      rw [List.forall_mem_cons]
      exact ⟨by rw [Halfspace.ofReal, List.length_map, hm], hhs⟩

lemma ensures_separate (hl : l.separator.Dependable) {positives negatives : List Point}
    {vars : List Var} (hvars : vars.length = d) (hpos : ∀ p ∈ positives, p.dim = d)
    (hneg : ∀ p ∈ negatives, p.dim = d) :
    Ensures (l.separate positives negatives vars) Failure.Expected
      fun r => ∀ h ∈ r.2, h.coeffs.length = d := by
  unfold separate
  by_cases hempty : negatives.isEmpty
  · rw [if_pos hempty]
    exact ensures_pure (by simp)
  rw [if_neg hempty]
  by_cases hnone : positives.isEmpty
  · simp only [if_pos hnone]
    exact ensures_pure (by simp)
  simp only [if_neg hnone]
  have hpositives : Positives d (positives.map fun p => (p, .positive)) := by
    refine ⟨by simpa using hnone, ?_, ?_⟩
    · simp
    · simpa using hpos
  apply (ensures_cutOff hl hpositives hneg).bind
  intro hs hhs
  have hparts : Result.Ensures (hs.mapM fun h => h.toExpr vars) Failure.Expected
      (List.Forall₂ (fun _ _ => True) hs) :=
    Ensures.mapM fun h hh => Halfspace.ensures_toExpr (hvars.trans (hhs h hh).symm)
  apply (ensures_ofResult hparts).bind
  intro parts _
  exact ensures_pure hhs

variable {loop : Loop} {samples : SampleSet}

lemma ensures_conjunctive (hl : l.separator.Dependable) (hs : samples.Sized loop.dim) :
    Ensures (l.conjunctive samples loop.plainVars) Failure.Expected (Learned.Sized loop.dim) := by
  unfold conjunctive
  split_ifs with hc
  · exact ensures_pure trivial
  · apply (ensures_separate hl Loop.length_plainVars (hs .positive) (hs .negative)).bind
    intro r hr
    exact ensures_pure hr

lemma ensures_separatePart (hl : l.separator.Dependable) {p : Part}
    (hpos : ∀ q ∈ p.positives, q.dim = loop.dim) (hneg : ∀ q ∈ p.negatives, q.dim = loop.dim) :
    Ensures (l.separatePart loop p) Failure.Expected
      fun r => ∀ h ∈ r.2, h.coeffs.length = loop.dim := by
  unfold separatePart
  split_ifs with hc
  · exact (ensures_pure (q := fun r : Expr × List Halfspace =>
      ∀ h ∈ r.2, h.coeffs.length = loop.dim) (by simp)).bind fun r hr => ensures_pure hr
  · apply (ensures_separate hl Loop.length_plainVars hpos hneg).bind
    intro r hr
    exact ensures_pure hr

lemma ensures_disjunctive {o : Oracle σ} (hl : l.separator.Dependable)
    (ho : o.solver.Dependable) (htrue : o.solver.Truthful) (hn : loop.names.Nodup)
    (hs : samples.Sized loop.dim) (onCond : Bool) :
    Ensures (l.disjunctive o samples loop onCond) Failure.Expected (Learned.Sized loop.dim) := by
  unfold disjunctive
  split_ifs with hc
  · exact ensures_pure trivial
  have hguards : Result.Ensures (Partition.guards loop onCond) Failure.Expected
      fun gs => Partition.guards loop onCond = .ok gs :=
    Partition.failsOnly_guards.ensures fun gs h => h
  apply (ensures_ofResult hguards).bind
  intro gs hgs
  apply (Partition.ensures_file ho htrue hn hgs (hs .positive)).on.bind
  intro positives hpositives
  apply (Partition.ensures_file ho htrue hn hgs (hs .negative)).on.bind
  intro negatives hnegatives
  have hparts : ∀ p ∈ List.zipWith (fun g (pn : List Point × List Point) => Part.mk g pn.1 pn.2) gs
      (positives.zip negatives), Ensures (l.separatePart loop p) Failure.Expected
        fun r => ∀ h ∈ r.2, h.coeffs.length = loop.dim := by
    intro p hp
    rw [← List.map_uncurry_zip_eq_zipWith] at hp
    obtain ⟨⟨g, pn⟩, hpn, rfl⟩ := List.mem_map.mp hp
    obtain ⟨hpos, hneg⟩ := List.of_mem_zip (List.of_mem_zip hpn).2
    exact ensures_separatePart hl (fun q hq => hs .positive q (hpositives _ hpos hq))
      fun q hq => hs .negative q (hnegatives _ hneg hq)
  apply (Ensures.mapM hparts).on.bind
  intro learned hlearned
  apply ensures_pure
  intro h hh
  obtain ⟨hs', hhs', hh⟩ := List.mem_flatten.mp hh
  obtain ⟨r, hr, rfl⟩ := List.mem_map.mp hhs'
  obtain ⟨p, _, hsized⟩ := exists_of_forall₂_right hlearned hr
  exact hsized h hh

end Learner

end LoopInvariant
