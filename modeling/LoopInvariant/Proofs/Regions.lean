import LoopInvariant.Proofs.Candidate

/-! The region that a candidate stands for. A conjunctive candidate holds inside all of its
half-spaces. A disjunctive one holds at a state if the state is inside all half-spaces that were
learned in the part of the state. -/
namespace LoopInvariant

namespace Halfspace

variable {h : Halfspace} {vars : List Var} {e : Expr}

def exact (h : Halfspace) (xs : List ℤ) : ℤ :=
  (List.zipWith (fun a x => a.toInt * x) h.coeffs xs).sum + h.constant.toInt

lemma value_foldl_add (ρ : Valuation) (ts : List Expr) (t : Expr) :
    (ts.foldl (.arith .add) t).value ρ = t.value ρ + (ts.map (Expr.value ρ)).sum := by
  induction ts generalizing t with
  | nil => simp
  | cons u us ih =>
    rw [List.foldl_cons, ih, Expr.value, List.map_cons, List.sum_cons, ← add_assoc]
    rfl

lemma value_sumExpr (ρ : Valuation) (constant : Int64) (terms : List Expr) :
    (sumExpr constant terms).value ρ = (terms.map (Expr.value ρ)).sum + constant.toInt := by
  cases terms with
  | nil => simp [sumExpr, Expr.value]
  | cons t ts =>
    rw [sumExpr, Expr.value, value_foldl_add, List.map_cons, List.sum_cons]
    rfl

lemma sorted_sumExpr (constant : Int64) {terms : List Expr}
    (hterms : ∀ t ∈ terms, t.Sorted .term) : (sumExpr constant terms).Sorted .term := by
  have hfold (ts : List Expr) (t : Expr) (ht : t.Sorted .term) (hts : ∀ u ∈ ts, u.Sorted .term) :
      (ts.foldl (.arith .add) t).Sorted .term := by
    induction ts generalizing t with
    | nil => exact ht
    | cons u us ih =>
      rw [List.forall_mem_cons] at hts
      exact ih _ (.arith ht hts.1) hts.2
  cases terms with
  | nil => exact .int constant
  | cons t ts =>
    rw [List.forall_mem_cons] at hterms
    exact .arith (hfold ts t hterms.1 hterms.2) (.int constant)

lemma sorted_toExpr (he : h.toExpr vars = .ok e) : e.Sorted .formula := by
  rw [(toExpr_eq_ok he).2]
  refine .cmp (sorted_sumExpr _ fun t ht => ?_) (.int 0)
  rw [← List.map_uncurry_zip_eq_zipWith] at ht
  obtain ⟨⟨a, v⟩, _, rfl⟩ := List.mem_map.mp ht
  exact .arith (.int a) (.var v)

lemma truth_toExpr (he : h.toExpr vars = .ok e) (ρ : Valuation) :
    e.truth ρ = true ↔ 0 < h.exact (vars.map ρ) := by
  rw [(toExpr_eq_ok he).2, Expr.truth, value_sumExpr, List.map_zipWith, exact,
    List.zipWith_map_right]
  exact decide_eq_true_iff

end Halfspace

namespace Learner

variable {σ τ : Type} {l : Learner τ} {loop : Loop} {samples : SampleSet} {vars : List Var}
  {positives negatives : List Point} {inv : Expr} {hs : List Halfspace} {s t : State τ}

/-! ### Half-spaces learned together -/

lemma Separates.sorted (h : Separates l positives negatives vars s inv hs t) :
    inv.Sorted .formula := by
  cases h with
  | nothing => exact .bool true
  | everything => exact .bool false
  | cuts hneg hpos hcuts hparts =>
    rw [Expr.all, Expr.sorted_gather]
    intro e he
    obtain ⟨k, _, hk⟩ := Result.exists_of_mem_mapM hparts he
    exact Halfspace.sorted_toExpr hk

lemma Separates.length_coeffs (h : Separates l positives negatives vars s inv hs t) :
    ∀ k ∈ hs, k.coeffs.length = vars.length := by
  cases h with
  | nothing => simp
  | everything => simp
  | cuts hneg hpos hcuts hparts =>
    exact Result.forall_of_mapM hparts fun k _ e he => (Halfspace.toExpr_eq_ok he).1.symm

/-- A formula that is learned holds inside all half-spaces, or nowhere if there are only negative
points. -/
lemma Separates.truth (h : Separates l positives negatives vars s inv hs t) (ρ : Valuation) :
    inv.truth ρ = true ↔
      ¬(negatives ≠ [] ∧ positives = []) ∧ ∀ k ∈ hs, 0 < k.exact (vars.map ρ) := by
  cases h with
  | nothing hneg => simp [Expr.truth, hneg]
  | everything hneg hpos => simp [Expr.truth, hneg, hpos]
  | @cuts _ parts _ hneg hpos hcuts hparts =>
    have htruths : parts.map (Expr.truth ρ) = hs.map fun k => decide (0 < k.exact (vars.map ρ)) := by
      apply Result.map_of_mapM hparts
      intro k _ e he
      rw [Bool.eq_iff_iff, decide_eq_true_iff]
      exact Halfspace.truth_toExpr he ρ
    have hboth : ¬(negatives ≠ [] ∧ positives = []) := fun hempty => hpos hempty.2
    rw [Expr.truth_all, ← Function.id_comp (Expr.truth ρ), ← List.all_map, htruths,
      and_iff_right hboth]
    simp

/-! ### Half-spaces learned part by part -/

structure Share where
  part : Part
  cuts : List Halfspace

/-- Learning in one part after the other leads from the first state to the last. A part where one
kind of points is missing is passed over. -/
inductive Learns (l : Learner τ) (vars : List Var) : State τ → List Share → State τ → Prop
  | nil (s : State τ) : Learns l vars s [] s
  | uncut {s t : State τ} {r : Share} {rs : List Share}
      (hempty : r.part.positives = [] ∨ r.part.negatives = []) (hcuts : r.cuts = [])
      (hrest : Learns l vars s rs t) : Learns l vars s (r :: rs) t
  | cut {s u t : State τ} {r : Share} {rs : List Share} {e : Expr}
      (hpos : r.part.positives ≠ []) (hneg : r.part.negatives ≠ [])
      (hcuts : l.separate r.part.positives r.part.negatives vars s = (.ok (e, r.cuts), u))
      (hrest : Learns l vars u rs t) : Learns l vars s (r :: rs) t

lemma Learns.uncut_of_empty {shares : List Share} (h : Learns l vars s shares t) :
    ∀ r ∈ shares, r.part.positives = [] ∨ r.part.negatives = [] → r.cuts = [] := by
  induction h with
  | nil => simp
  | uncut _ hcuts _ ih => exact List.forall_mem_cons.mpr ⟨fun _ => hcuts, ih⟩
  | cut hpos hneg _ _ ih =>
    refine List.forall_mem_cons.mpr ⟨fun hempty => ?_, ih⟩
    rcases hempty with hempty | hempty
    · exact absurd hempty hpos
    · exact absurd hempty hneg

lemma Learns.length_coeffs {shares : List Share} (h : Learns l vars s shares t) :
    ∀ r ∈ shares, ∀ k ∈ r.cuts, k.coeffs.length = vars.length := by
  induction h with
  | nil => simp
  | uncut _ hcuts _ ih => exact List.forall_mem_cons.mpr ⟨by simp [hcuts], ih⟩
  | cut _ _ hcuts _ ih =>
    exact List.forall_mem_cons.mpr ⟨(separate_eq_ok hcuts).length_coeffs, ih⟩

/-- The formula says that the guard of the part holds and that all its half-spaces do. -/
structure Share.Means (loop : Loop) (r : Share) (e : Expr) : Prop where
  sorted : r.part.guard.Sorted .formula → e.Sorted .formula
  truth : ∀ ρ : Valuation, e.truth ρ = true ↔ (loop.ofPre r.part.guard).truth ρ = true ∧
    ∀ k ∈ r.cuts, 0 < k.exact (loop.plainVars.map ρ)

lemma means_all {p : Part} {e : Expr} (hsorted : e.Sorted .formula)
    (htruth : ∀ ρ : Valuation, e.truth ρ = true ↔ ∀ k ∈ hs, 0 < k.exact (loop.plainVars.map ρ)) :
    Share.Means loop ⟨p, hs⟩ (.all [e, loop.ofPre p.guard]) := by
  constructor
  · intro hguard
    rw [Expr.all, Expr.sorted_gather]
    simpa using ⟨hsorted, Loop.sorted_move.mpr hguard⟩
  · intro ρ
    rw [Expr.truth_all_pair, htruth ρ, and_comm]

lemma learns_separatePart {p : Part} {shares : List Share} {u : State τ}
    (h : l.separatePart loop p s = (.ok (inv, hs), u))
    (hrest : Learns l loop.plainVars u shares t) :
    Learns l loop.plainVars s (⟨p, hs⟩ :: shares) t ∧ Share.Means loop ⟨p, hs⟩ inv := by
  obtain ⟨e, rfl, ⟨hempty, rfl, rfl, rfl⟩ | ⟨hpos, hneg, hsep⟩⟩ := separatePart_eq_ok h
  · exact ⟨.uncut hempty rfl hrest, means_all (.bool true) (by simp [Expr.truth])⟩
  · have hsep' := separate_eq_ok hsep
    refine ⟨.cut hpos hneg hsep hrest, means_all hsep'.sorted fun ρ => ?_⟩
    rw [hsep'.truth, and_iff_right]
    exact fun hnone => hpos hnone.2

lemma learns_mapM {parts : List Part} {learned : List (Expr × List Halfspace)}
    (h : parts.mapM (l.separatePart loop) s = (.ok learned, t)) :
    ∃ shares, shares.map (·.part) = parts ∧ shares.map (·.cuts) = learned.map (·.2) ∧
      Learns l loop.plainVars s shares t ∧
      List.Forall₂ (Share.Means loop) shares (learned.map (·.1)) := by
  induction parts generalizing s learned with
  | nil =>
    rw [List.mapM_nil] at h
    obtain ⟨rfl, rfl⟩ := Task.pure_eq_ok.mp h
    exact ⟨[], rfl, rfl, .nil s, .nil⟩
  | cons p parts ih =>
    rw [List.mapM_cons] at h
    obtain ⟨⟨inv, hs⟩, u, hpart, h⟩ := Task.bind_eq_ok.mp h
    obtain ⟨rest, v, hrest, h⟩ := Task.bind_eq_ok.mp h
    obtain ⟨rfl, rfl⟩ := Task.pure_eq_ok.mp h
    obtain ⟨shares, hparts, hcuts, hlearns, hmeans⟩ := ih hrest
    obtain ⟨hlearns', hmeans'⟩ := learns_separatePart hpart hlearns
    refine ⟨⟨p, hs⟩ :: shares, ?_, ?_, hlearns', .cons hmeans' hmeans⟩
    · rw [List.map_cons, hparts]
    · rw [List.map_cons, hcuts, List.map_cons]

lemma map_partsOf {gs : List Expr} {positives negatives : List (List Point)}
    (hpos : positives.length = gs.length) (hneg : negatives.length = gs.length) :
    (partsOf gs positives negatives).map (·.guard) = gs ∧
      (partsOf gs positives negatives).map (·.positives) = positives ∧
      (partsOf gs positives negatives).map (·.negatives) = negatives := by
  induction gs generalizing positives negatives with
  | nil =>
    rw [List.length_nil, List.length_eq_zero_iff] at hpos hneg
    rw [hpos, hneg]
    exact ⟨rfl, rfl, rfl⟩
  | cons g gs ih =>
    obtain ⟨p, positives, rfl⟩ := List.exists_cons_of_length_eq_add_one hpos
    obtain ⟨n, negatives, rfl⟩ := List.exists_cons_of_length_eq_add_one hneg
    obtain ⟨hg, hp, hn⟩ := ih (by simpa using hpos) (by simpa using hneg)
    exact ⟨congrArg (g :: ·) hg, congrArg (p :: ·) hp, congrArg (n :: ·) hn⟩

/-! ### Candidates at states -/

/-- A candidate that is put together from parts holds at a state as the part of the state says. -/
lemma truth_any_means {shares : List Share} {parts : List Expr} {r : Share} {ρ : Valuation}
    (hmeans : List.Forall₂ (Share.Means loop) shares parts)
    (hr : (shares.filter fun r => (loop.ofPre r.part.guard).truth ρ) = [r]) :
    (Expr.any parts).truth ρ = true ↔ ∀ k ∈ r.cuts, 0 < k.exact (loop.plainVars.map ρ) := by
  have hmem (r' : Share) : r' ∈ shares ∧ (loop.ofPre r'.part.guard).truth ρ = true ↔ r' = r := by
    have hfilter : r' ∈ shares.filter (fun r => (loop.ofPre r.part.guard).truth ρ) ↔ r' = r := by
      rw [hr, List.mem_singleton]
    rw [List.mem_filter] at hfilter
    exact hfilter
  obtain ⟨hin, hguard⟩ := (hmem r).mpr rfl
  rw [Expr.truth_any, List.any_eq_true]
  constructor
  · rintro ⟨e, he, htrue⟩
    obtain ⟨r', hr', hmean⟩ := Result.exists_of_forall₂_right hmeans he
    obtain ⟨hguard', hcuts⟩ := (hmean.truth ρ).mp htrue
    rw [(hmem r').mp ⟨hr', hguard'⟩] at hcuts
    exact hcuts
  · intro hcuts
    obtain ⟨e, he, hmean⟩ := Result.exists_of_forall₂_left hmeans hin
    exact ⟨e, he, (hmean.truth ρ).mpr ⟨hguard, hcuts⟩⟩

lemma region_of_means (hn : loop.names.Nodup) {onCond : Bool}
    (hpreds : ∀ p ∈ Partition.predicates loop onCond,
      p.occurrences ⊆ loop.vars.map StateVar.before) {shares : List Share} {parts : List Expr}
    (hgs : Partition.guards loop onCond = .ok (shares.map (·.part.guard)))
    (hmeans : List.Forall₂ (Share.Means loop) shares parts) (x : loop.State) :
    ∃ r, (shares.filter fun r => r.part.guard.truth (loop.reading StateVar.before x)) = [r] ∧
      (loop.Holds StateVar.plain (.any parts) x ↔ ∀ h ∈ r.cuts, 0 < h.exact (List.ofFn x)) := by
  obtain ⟨r, hr⟩ := Partition.exists_filter_guards hgs (loop.reading StateVar.before x)
  have hreads : loop.Reads StateVar.plain x (loop.reading StateVar.plain x) :=
    Loop.reads_reading hn (fun _ => rfl) x
  -- moved to the plain variables, the guards hold where they did
  have hmoved : (shares.filter fun r =>
      (loop.ofPre r.part.guard).truth (loop.reading StateVar.plain x)) = [r] := by
    rw [← hr]
    apply List.filter_congr
    intro r' hr'
    have hocc := Partition.occurrences_guards hpreds hgs _ (List.mem_map_of_mem hr')
    rw [Bool.eq_iff_iff]
    exact Loop.truth_move hn (fun _ => rfl) hocc hreads
  refine ⟨r, hr, ?_⟩
  rw [Loop.Holds, truth_any_means hmeans hmoved, Loop.map_reading hn]

lemma sorted_of_means {onCond : Bool} (hs : ∀ p ∈ Partition.predicates loop onCond, p.Sorted .formula)
    {shares : List Share} {parts : List Expr}
    (hgs : Partition.guards loop onCond = .ok (shares.map (·.part.guard)))
    (hmeans : List.Forall₂ (Share.Means loop) shares parts) : (Expr.any parts).Sorted .formula := by
  rw [Expr.any, Expr.sorted_gather]
  intro e he
  obtain ⟨r, hr, hmean⟩ := Result.exists_of_forall₂_right hmeans he
  exact hmean.sorted (Partition.sorted_guards hs hgs _ (List.mem_map_of_mem hr))

/-- A disjunctive candidate holds at a state exactly if the state is inside all half-spaces that were
learned in the one part whose guard holds there, none at all if one kind of points is missing in the
part. Its half-spaces are those of the parts, one part after the other. A conjunctive candidate holds
at a state exactly if the state is inside all its half-spaces, except that it holds nowhere if there
are negative points only. -/
theorem candidate_region (hn : loop.names.Nodup)
    (hsorted : ∀ p ∈ loop.cond :: loop.paths, p.Sorted .formula)
    (hpre : ∀ p ∈ loop.cond :: loop.paths, p.occurrences ⊆ loop.vars.map StateVar.before)
    (l : Learner τ) (o : Oracle σ) (samples : SampleSet) (onCond : Bool) :
    (∀ s inv hs t, l.disjunctive o samples loop onCond s = (.ok (.candidate inv hs), t) →
      ∃ (shares : List Share) (u : Oracle.State σ),
        Partition.guards loop onCond = .ok (shares.map (·.part.guard)) ∧
        Partition.file o loop (shares.map (·.part.guard)) samples.positives s.oracle =
          (.ok (shares.map (·.part.positives)), u) ∧
        Partition.file o loop (shares.map (·.part.guard)) samples.negatives u =
          (.ok (shares.map (·.part.negatives)), t.oracle) ∧
        Learns l loop.plainVars s.learner shares t.learner ∧
        (∀ r ∈ shares, r.part.positives = [] ∨ r.part.negatives = [] → r.cuts = []) ∧
        hs = (shares.map (·.cuts)).flatten ∧ (∀ h ∈ hs, h.coeffs.length = loop.dim) ∧
        inv.Sorted .formula ∧
        ∀ x : loop.State, ∃ r,
          (shares.filter fun r => r.part.guard.truth (loop.reading StateVar.before x)) = [r] ∧
          (loop.Holds StateVar.plain inv x ↔ ∀ h ∈ r.cuts, 0 < h.exact (List.ofFn x))) ∧
    ∀ s inv hs t, l.conjunctive samples loop.plainVars s = (.ok (.candidate inv hs), t) →
      (∀ h ∈ hs, h.coeffs.length = loop.dim) ∧ inv.Sorted .formula ∧
      ∀ x : loop.State, loop.Holds StateVar.plain inv x ↔
        ¬(samples.negatives ≠ [] ∧ samples.positives = []) ∧
          ∀ h ∈ hs, 0 < h.exact (List.ofFn x) := by
  rw [List.forall_mem_cons] at hsorted hpre
  constructor
  · intro s inv hs t h
    rcases disjunctive_eq_ok h with ⟨_, hnone⟩ |
      ⟨gs, positives, negatives, parts, u, hgs, hpos, hneg, hparts, hlearned⟩
    · cases hnone
    obtain ⟨rfl, rfl⟩ := Learned.candidate.inj hlearned
    obtain ⟨shares, hshares, hcuts, hlearns, hmeans⟩ := learns_mapM hparts
    obtain ⟨hguards, hps, hns⟩ := map_partsOf (Partition.length_file hpos)
      (Partition.length_file hneg)
    rw [← hshares, List.map_map] at hguards hps hns
    rw [← hguards] at hgs hpos hneg
    rw [← hps] at hpos
    rw [← hns] at hneg
    have hlength : ∀ h ∈ (parts.map (·.2)).flatten, h.coeffs.length = loop.dim := by
      intro h hh
      rw [← hcuts] at hh
      obtain ⟨cuts, hmem, hh⟩ := List.mem_flatten.mp hh
      obtain ⟨r, hr, rfl⟩ := List.mem_map.mp hmem
      exact (hlearns.length_coeffs r hr h hh).trans Loop.length_plainVars
    exact ⟨shares, u, hgs, hpos, hneg, hlearns, hlearns.uncut_of_empty, by rw [hcuts], hlength,
      sorted_of_means (Partition.forall_mem_predicates hsorted.1 hsorted.2) hgs hmeans,
      region_of_means hn (Partition.forall_mem_predicates hpre.1 hpre.2) hgs hmeans⟩
  · intro s inv hs t h
    rcases conjunctive_eq_ok h with ⟨_, hnone⟩ | ⟨inv', hs', hlearned, hsep⟩
    · cases hnone
    obtain ⟨rfl, rfl⟩ := Learned.candidate.inj hlearned
    have hsep' := separate_eq_ok hsep
    refine ⟨fun h hh => (hsep'.length_coeffs h hh).trans Loop.length_plainVars, hsep'.sorted,
      fun x => ?_⟩
    rw [Loop.Holds, hsep'.truth, Loop.map_reading hn]

def steady : Learner Unit where
  separator := ⟨fun _ => return .ok ⟨[1, -1], 0.5⟩⟩
  multiplier := 10

def dims : Learned → List ℕ
  | .disproved => []
  | .candidate _ hs => hs.map (·.coeffs.length)

lemma exists_candidate {learned : Learned} {d : ℕ} (h : dims learned = [d]) :
    ∃ inv k, learned = .candidate inv [k] := by
  cases learned with
  | disproved => cases h
  | candidate inv hs =>
    obtain ⟨k, rfl, _⟩ := List.map_eq_singleton_iff.mp h
    exact ⟨inv, k, rfl⟩

/-- Only where both variables are at least zero are there points of both kinds. -/
theorem candidate_region_piecewise :
    Examples.piecewise.names.Nodup ∧
    (∀ p ∈ Examples.piecewise.cond :: Examples.piecewise.paths, p.Sorted .formula) ∧
    (∀ p ∈ Examples.piecewise.cond :: Examples.piecewise.paths,
      p.occurrences ⊆ Examples.piecewise.vars.map StateVar.before) ∧
    (∃ inv h t, steady.disjunctive ⟨.builtIn, 100, 0, 2⟩
        { positives := [⟨[1, 2]⟩, ⟨[-5, 3]⟩], negatives := [⟨[20, 0]⟩, ⟨[-2, -20]⟩] }
        Examples.piecewise false ⟨⟨(), 0⟩, ⟨(), .ofSeed 42, 0, 0, none⟩⟩ =
          (.ok (.candidate inv [h]), t) ∧
      ∃ shares : List Share, [h] = (shares.map (·.cuts)).flatten ∧
        ∀ x : Examples.piecewise.State, ∃ r,
          (shares.filter fun r =>
            r.part.guard.truth (Examples.piecewise.reading StateVar.before x)) = [r] ∧
          (Examples.piecewise.Holds StateVar.plain inv x ↔
            ∀ h ∈ r.cuts, 0 < h.exact (List.ofFn x))) ∧
    ∃ inv h t, steady.conjunctive
        { positives := [⟨[1, 2]⟩, ⟨[-5, 3]⟩], negatives := [⟨[20, 0]⟩] }
        Examples.piecewise.plainVars ⟨(), .ofSeed 42, 0, 0, none⟩ = (.ok (.candidate inv [h]), t) ∧
      ∀ x : Examples.piecewise.State,
        Examples.piecewise.Holds StateVar.plain inv x ↔ 0 < h.exact (List.ofFn x) := by
  have hn : Examples.piecewise.names.Nodup := by decide
  have hsorted : ∀ p ∈ Examples.piecewise.cond :: Examples.piecewise.paths,
      p.Sorted .formula := by
    simp only [Examples.piecewise, List.forall_mem_cons]
    exact ⟨.cmp (.var _) (.var _), .cmp (.var _) (.int 0), .cmp (.var _) (.int 0), by simp⟩
  have hpre : ∀ p ∈ Examples.piecewise.cond :: Examples.piecewise.paths,
      p.occurrences ⊆ Examples.piecewise.vars.map StateVar.before := by
    decide
  have hdisj : dims <$> (steady.disjunctive ⟨.builtIn, 100, 0, 2⟩
      { positives := [⟨[1, 2]⟩, ⟨[-5, 3]⟩], negatives := [⟨[20, 0]⟩, ⟨[-2, -20]⟩] }
      Examples.piecewise false ⟨⟨(), 0⟩, ⟨(), .ofSeed 42, 0, 0, none⟩⟩).1 = .ok [2] := by
    decide +kernel
  have hconj : dims <$> (steady.conjunctive
      { positives := [⟨[1, 2]⟩, ⟨[-5, 3]⟩], negatives := [⟨[20, 0]⟩] }
      Examples.piecewise.plainVars ⟨(), .ofSeed 42, 0, 0, none⟩).1 = .ok [2] := by
    decide +kernel
  obtain ⟨learned, hrun, hdims⟩ := Result.map_eq_ok.mp hdisj
  obtain ⟨learned', hrun', hdims'⟩ := Result.map_eq_ok.mp hconj
  obtain ⟨inv, h, rfl⟩ := exists_candidate hdims
  obtain ⟨inv', h', rfl⟩ := exists_candidate hdims'
  refine ⟨hn, hsorted, hpre, ⟨inv, h, _, Prod.ext hrun rfl, ?_⟩, inv', h', _, Prod.ext hrun' rfl, ?_⟩
  · obtain ⟨shares, _, _, _, _, _, _, hcuts, _, _, hregion⟩ :=
      (candidate_region hn hsorted hpre steady _ _ _).1 _ _ _ _ (Prod.ext hrun rfl)
    exact ⟨shares, hcuts, hregion⟩
  · intro x
    rw [((candidate_region hn hsorted hpre steady ⟨.builtIn, 100, 0, 2⟩ _ false).2 _ _ _ _
      (Prod.ext hrun' rfl)).2.2 x]
    simp

end Learner
end LoopInvariant
