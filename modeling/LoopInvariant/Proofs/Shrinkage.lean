import LoopInvariant.MaxMargin
import LoopInvariant.Proofs.Candidate

/-! How the points that are to be cut off become fewer. Each training takes out the point that was
drawn, and then those of the others that its model takes for negative. This does not depend on how
well the separator does. -/
namespace LoopInvariant

/-! ### Drawing a point -/

namespace Random

/-- A draw is scaled to the range, and a second one decides on the next number where the scaled draw
is close to it. -/
lemma below_eq (size : ℕ) (draw : Drawing ℕ) (range : ℕ) (r : Random) :
    (below size draw range r).1 =
      if (draw r).1 * range % size > size - range then
        if (draw r).1 * range % size + (draw (draw r).2).1 * range / size ≥ size then
          (draw r).1 * range / size + 1
        else (draw r).1 * range / size
      else (draw r).1 * range / size := by
  unfold below
  change ((ite _ _ _ : Drawing ℕ) (draw r).2).1 = _
  by_cases hlow : (draw r).1 * range % size > size - range
  · rw [if_pos hlow, if_pos hlow]
    rfl
  · rw [if_neg hlow, if_neg hlow]
    rfl

lemma below_lt {size range : ℕ} {draw : Drawing ℕ} (hdraw : ∀ r, (draw r).1 < size)
    (hrange : 0 < range) (r : Random) : (below size draw range r).1 < range := by
  have hlt := hdraw r
  have hscaled : (draw r).1 * range / size < range := by
    apply Nat.div_lt_of_lt_mul
    exact Nat.mul_lt_mul_of_pos_right hlt hrange
  rw [below_eq]
  split_ifs with hlow hcarry
  · -- the greatest draw leaves too little for a next number
    have hsplit := Nat.div_add_mod ((draw r).1 * range) size
    have hmost : ((draw r).1 + 1) * range ≤ size * range := Nat.mul_le_mul_right range hlt
    rw [Nat.add_mul, Nat.one_mul] at hmost
    by_contra hge
    have hmul : size * range ≤ size * ((draw r).1 * range / size + 1) :=
      Nat.mul_le_mul_left size (by omega)
    rw [Nat.mul_add, Nat.mul_one] at hmul
    omega
  · exact hscaled
  · exact hscaled

lemma index_lt {n : ℕ} (hn : 0 < n) (r : Random) : (index n r).1 < n := by
  unfold index
  split_ifs
  · apply below_lt _ hn
    exact fun r => (word r).1.toNat_lt
  · apply below_lt _ hn
    intro r
    have hlow := (word r).1.toNat_lt
    have hhigh := (word (word r).2).1.toNat_lt
    change (word r).1.toNat + (word (word r).2).1.toNat * 4294967296 < 18446744073709551616
    omega

end Random

namespace Learner

lemma takeOut_perm (p : Point) (ps : List Point) {i : ℕ} (hi : i < ps.length + 1) :
    ((takeOut p ps i).1 :: (takeOut p ps i).2).Perm (p :: ps) := by
  have hlast : ((p :: ps).set i (ps.getLastD p)).getLast? = some (ps.getLastD p) := by
    rw [List.getLast?_eq_getElem?, List.length_set, List.getElem?_set]
    split_ifs with hi' hlen
    · rfl
    · simp only [List.length_cons] at hi' hlen
      omega
    · rw [← List.getLast?_eq_getElem?, List.getLast?_cons, List.getLastD_eq_getLast?]
  -- the last point stands in the place of the one that was drawn, and at the end no more
  have hrest : (takeOut p ps i).2.Perm ((p :: ps).eraseIdx i) := by
    have hset := List.set_perm_cons_eraseIdx (l := p :: ps) hi (ps.getLastD p)
    rw [← List.dropLast_append_getLast? _ hlast] at hset
    exact ((List.perm_append_singleton _ _).symm.trans hset).cons_inv
  have hpicked : (takeOut p ps i).1 = (p :: ps)[i] := List.getD_eq_getElem _ _ hi
  rw [hpicked]
  exact (hrest.cons _).trans (List.getElem_cons_eraseIdx_perm hi)

end Learner

/-! ### A record of the trainings -/

structure Training where
  samples : List (Point × Label)
  result : Result LinearModel

variable {τ : Type}

def Separator.recorded (s : Separator τ) : Separator (τ × List Training) :=
  ⟨fun samples m => ((s.train samples m.1).1, (s.train samples m.1).2,
    m.2 ++ [⟨samples, (s.train samples m.1).1⟩])⟩

namespace Learner

variable {l : Learner τ} {s t : State τ}

def recorded (l : Learner τ) : Learner (τ × List Training) :=
  ⟨l.separator.recorded, l.multiplier, l.clock⟩

def State.recorded (s : State τ) (calls : List Training) : State (τ × List Training) :=
  ⟨(s.memory, calls), s.random, s.trainings, s.readings, s.deadline⟩

lemma expired_recorded (l : Learner τ) (s : State τ) (calls : List Training) :
    ∃ b n, l.expired s = (.ok b, { s with readings := n }) ∧
      l.recorded.expired (s.recorded calls) =
        (.ok b, State.recorded { s with readings := n } calls) := by
  rcases Option.eq_none_or_eq_some s.deadline with hd | ⟨d, hd⟩
  · exact ⟨false, s.readings, expired_of_none hd, expired_of_none hd⟩
  · exact ⟨_, s.readings + 1, expired_of_some hd, expired_of_some hd⟩

lemma train_of_ok {samples : List (Point × Label)} {m : LinearModel}
    (h : (l.separator.train samples s.memory).1 = .ok m) :
    l.train samples s = (.ok m, { s with
      memory := (l.separator.train samples s.memory).2, trainings := s.trainings + 1 }) := by
  unfold train
  rw [Task.bind_eq_ok]
  exact ⟨m, { s with memory := (l.separator.train samples s.memory).2 }, Prod.ext h rfl, rfl⟩

lemma train_of_error {samples : List (Point × Label)} {f : Failure}
    (h : (l.separator.train samples s.memory).1 = .error f) :
    l.train samples s = (.error f, { s with memory := (l.separator.train samples s.memory).2 }) :=
  Task.bind_of_error (Prod.ext h rfl)

lemma train_recorded (l : Learner τ) (samples : List (Point × Label)) (s : State τ)
    (calls : List Training) :
    ∃ r t, l.train samples s = (r, t) ∧
      l.recorded.train samples (s.recorded calls) =
        (r, t.recorded (calls ++ [⟨samples, r⟩])) ∧
      t.trainings = s.trainings + [Training.mk samples r].countP (·.result.isOk) := by
  cases h : (l.separator.train samples s.memory).1 with
  | error f =>
    refine ⟨.error f, _, train_of_error h, ?_, rfl⟩
    rw [train_of_error (l := l.recorded) (s := s.recorded calls) h, ← h]
    rfl
  | ok m =>
    refine ⟨.ok m, _, train_of_ok h, ?_, rfl⟩
    rw [train_of_ok (l := l.recorded) (s := s.recorded calls) h, ← h]
    rfl

/-! ### One round after the other -/

/-- All positive points in their order, and then one negative point. -/
def trainingSet (positives : List Point) (q : Point) : List (Point × Label) :=
  positives.map (fun p => (p, .positive)) ++ [(q, .negative)]

/-- The point that was drawn, the model that tells it from the positive ones, and the other points
that the model takes for negative too. -/
structure Round where
  picked : Point
  model : LinearModel
  dropped : List Point

def Round.training (positives : List Point) (r : Round) : Training :=
  ⟨trainingSet positives r.picked, .ok r.model⟩

def Round.halfspace (multiplier : Float) (r : Round) : Halfspace :=
  .ofReal r.model.weights r.model.bias multiplier

/-- How the points at work can become fewer, with the trainings on the way and how it ends: there are
none left, or the deadline has passed, a training failed, or the model does not fit the points. -/
inductive Shrinks (positives : List Point) :
    List Point → List Training → Result (List Round) → Prop
  | done : Shrinks positives [] [] (.ok [])
  | late (working : List Point) : Shrinks positives working [] (.error (.error .deadline))
  | failed {working rest : List Point} {q : Point} {f : Failure}
      (hpick : working.Perm (q :: rest)) :
      Shrinks positives working [⟨trainingSet positives q, .error f⟩] (.error f)
  | unfit {working rest : List Point} {q : Point} {m : LinearModel}
      (hpick : working.Perm (q :: rest)) :
      Shrinks positives working [⟨trainingSet positives q, .ok m⟩] (.error (.fault .dimension))
  | round {working rest : List Point} {q : Point} {m : LinearModel} {calls : List Training}
      {r : Result (List Round)} (hpick : working.Perm (q :: rest))
      (hfits : ∀ p ∈ rest, m.fits p = true)
      (hrest : Shrinks positives (rest.filter fun p => m.label p = .positive) calls r) :
      Shrinks positives working (⟨trainingSet positives q, .ok m⟩ :: calls)
        ((⟨q, m, rest.filter fun p => m.label p = .negative⟩ :: ·) <$> r)

/-- With and without a record the half-spaces are the same, and the record shows how the points at
work became fewer. -/
def Accounts (l : Learner τ) (positives working : List Point) (x : Learning τ (List Halfspace))
    (y : Learning (τ × List Training) (List Halfspace)) : Prop :=
  ∀ s calls, ∃ more r t, Shrinks positives working more r ∧
    x s = (List.map (Round.halfspace l.multiplier) <$> r, t) ∧
    y (s.recorded calls) =
      (List.map (Round.halfspace l.multiplier) <$> r, t.recorded (calls ++ more)) ∧
    t.trainings = s.trainings + more.countP (·.result.isOk)

def cutWith (l : Learner τ) (positives : List (Point × Label)) (q : Point) (rest : List Point) :
    Learning τ (List Halfspace) := do
  let m ← l.train (positives ++ [(q, .negative)])
  if rest.all m.fits then
    let hs ← l.cutOff positives (rest.filter fun p => m.label p = .positive)
    return Halfspace.ofReal m.weights m.bias l.multiplier :: hs
  else throw (.fault .dimension)

lemma cutOff_of_expired {positives : List (Point × Label)} {p : Point} {ps : List Point}
    (h : l.expired s = (.ok true, t)) :
    l.cutOff positives (p :: ps) s = (.error (.error .deadline), t) := by
  rw [cutOff, Task.bind_of_ok h]
  rfl

lemma cutOff_of_not_expired {positives : List (Point × Label)} {p : Point} {ps : List Point}
    (h : l.expired s = (.ok false, t)) :
    l.cutOff positives (p :: ps) s =
      l.cutWith positives (takeOut p ps (Random.index (ps.length + 1) t.random).1).1
        (takeOut p ps (Random.index (ps.length + 1) t.random).1).2
        { t with random := (Random.index (ps.length + 1) t.random).2 } := by
  rw [cutOff, Task.bind_of_ok h]
  rfl

section Rounds

variable {positives : List (Point × Label)} {q : Point} {rest : List Point} {m : LinearModel}

lemma cutWith_of_error {f : Failure} (h : l.train (positives ++ [(q, .negative)]) s = (.error f, t)) :
    l.cutWith positives q rest s = (.error f, t) :=
  Task.bind_of_error h

lemma cutWith_of_unfit (h : l.train (positives ++ [(q, .negative)]) s = (.ok m, t))
    (hfits : ¬rest.all m.fits = true) :
    l.cutWith positives q rest s = (.error (.fault .dimension), t) := by
  unfold cutWith
  rw [Task.bind_of_ok h, if_neg hfits]
  rfl

lemma cutWith_of_fits {r : Result (List Halfspace)} {u : State τ}
    (h : l.train (positives ++ [(q, .negative)]) s = (.ok m, t)) (hfits : rest.all m.fits = true)
    (hrest : l.cutOff positives (rest.filter fun p => m.label p = .positive) t = (r, u)) :
    l.cutWith positives q rest s =
      ((Halfspace.ofReal m.weights m.bias l.multiplier :: ·) <$> r, u) := by
  unfold cutWith
  rw [Task.bind_of_ok h, if_pos hfits]
  cases r with
  | error f => exact Task.bind_of_error hrest
  | ok hs => exact Task.bind_of_ok hrest

end Rounds

section Accounts

variable {positives working rest : List Point} {q : Point}

lemma accounts_cutWith (hpick : working.Perm (q :: rest))
    (ih : ∀ m : LinearModel, Accounts l positives (rest.filter fun p => m.label p = .positive)
      (l.cutOff (positives.map fun p => (p, .positive)) (rest.filter fun p => m.label p = .positive))
      (l.recorded.cutOff (positives.map fun p => (p, .positive))
        (rest.filter fun p => m.label p = .positive))) :
    Accounts l positives working (l.cutWith (positives.map fun p => (p, .positive)) q rest)
      (l.recorded.cutWith (positives.map fun p => (p, .positive)) q rest) := by
  intro s calls
  obtain ⟨result, t, htrain, htrain', hcount⟩ :=
    train_recorded l (trainingSet positives q) s calls
  cases result with
  | error f =>
    exact ⟨_, .error f, t, .failed hpick, cutWith_of_error htrain, cutWith_of_error htrain', hcount⟩
  | ok m =>
    by_cases hfits : rest.all m.fits = true
    · obtain ⟨more, r, u, hshrinks, hrun, hrun', hcount'⟩ :=
        ih m t (calls ++ [⟨trainingSet positives q, .ok m⟩])
      have hround := hshrinks.round hpick (List.all_eq_true.mp hfits)
      refine ⟨_, _, u, hround, ?_, ?_, ?_⟩
      · rw [cutWith_of_fits htrain hfits hrun]
        cases r <;> rfl
      · rw [cutWith_of_fits htrain' hfits hrun', List.append_assoc]
        cases r <;> rfl
      · rw [hcount', hcount, Nat.add_assoc, ← List.countP_append]
        rfl
    · exact ⟨_, .error (.fault .dimension), t, .unfit hpick, cutWith_of_unfit htrain hfits,
        cutWith_of_unfit htrain' hfits, hcount⟩

lemma accounts_cutOff (l : Learner τ) (positives working : List Point) :
    Accounts l positives working (l.cutOff (positives.map fun p => (p, .positive)) working)
      (l.recorded.cutOff (positives.map fun p => (p, .positive)) working) := by
  induction working using cutOff.induct with
  | case1 =>
    intro s calls
    refine ⟨[], .ok [], s, .done, ?_, ?_, rfl⟩
    · rw [cutOff]
      rfl
    · rw [cutOff, List.append_nil]
      rfl
  | case2 p ps ih =>
    intro s calls
    obtain ⟨b, n, hexpired, hexpired'⟩ := expired_recorded l s calls
    cases b with
    | true =>
      refine ⟨[], .error (.error .deadline), _, .late _, cutOff_of_expired hexpired, ?_, rfl⟩
      rw [List.append_nil]
      exact cutOff_of_expired hexpired'
    | false =>
      have hindex := Random.index_lt (n := ps.length + 1) (by omega) s.random
      have hpick := (takeOut_perm p ps hindex).symm
      obtain ⟨more, r, t, hshrinks, hrun, hrun', hcount⟩ := accounts_cutWith hpick (ih _)
        { s with readings := n, random := (Random.index (ps.length + 1) s.random).2 } calls
      exact ⟨more, r, t, hshrinks, (cutOff_of_not_expired hexpired).trans hrun,
        (cutOff_of_not_expired hexpired').trans hrun', hcount⟩

end Accounts

/-! ### What the record shows -/

section Record

variable {positives working : List Point} {calls : List Training} {rounds : List Round}

/-- The points that were drawn are among the points at work, none of them more often than it is. -/
lemma Shrinks.picks {r : Result (List Round)} (h : Shrinks positives working calls r) :
    ∃ picks : List Point, picks.Subperm working ∧
      calls.map (·.samples) = picks.map (trainingSet positives) := by
  induction h with
  | done => exact ⟨[], List.nil_subperm, rfl⟩
  | late working => exact ⟨[], List.nil_subperm, rfl⟩
  | @failed working rest q f hpick =>
    have hmem : q ∈ working := hpick.mem_iff.mpr List.mem_cons_self
    exact ⟨[q], List.singleton_subperm_iff.mpr hmem, rfl⟩
  | @unfit working rest q m hpick =>
    have hmem : q ∈ working := hpick.mem_iff.mpr List.mem_cons_self
    exact ⟨[q], List.singleton_subperm_iff.mpr hmem, rfl⟩
  | @round working rest q m calls r hpick hfits hrest ih =>
    obtain ⟨picks, hpicks, hsamples⟩ := ih
    refine ⟨q :: picks, ?_, ?_⟩
    · have hkept : picks.Subperm rest := hpicks.trans List.filter_sublist.subperm
      exact ((List.subperm_cons q).mpr hkept).trans hpick.symm.subperm
    · rw [List.map_cons, List.map_cons, hsamples]

/-- The account of points that were all cut off. A later round is about points that the earlier
models take for positive. -/
structure Settles (positives working : List Point) (calls : List Training) (rounds : List Round) :
    Prop where
  calls : calls = rounds.map (Round.training positives)
  perm : working.Perm (rounds.flatMap fun r => r.picked :: r.dropped)
  dropped : ∀ r ∈ rounds, ∀ q ∈ r.dropped, r.model.predict q = .ok .negative
  kept : rounds.Pairwise fun r r' => ∀ q ∈ r'.picked :: r'.dropped,
    r.model.predict q = .ok .positive

lemma predict_of_fits {m : LinearModel} {p : Point} {label : Label} (hfits : m.fits p = true)
    (hlabel : m.label p = label) : m.predict p = .ok label := by
  rw [LinearModel.predict, if_pos hfits, hlabel]

lemma filter_label_perm (m : LinearModel) (rest : List Point) :
    rest.Perm ((rest.filter fun p => m.label p = .negative) ++
      rest.filter fun p => m.label p = .positive) := by
  have hsplit := List.filter_append_perm (fun p => decide (m.label p = .negative)) rest
  have hother : (rest.filter fun p => !decide (m.label p = .negative)) =
      rest.filter fun p => m.label p = .positive := by
    apply List.filter_congr
    intro p _
    cases m.label p <;> rfl
  rw [hother] at hsplit
  exact hsplit.symm

lemma Settles.round {rest : List Point} {q : Point} {m : LinearModel}
    (hpick : working.Perm (q :: rest)) (hfits : ∀ p ∈ rest, m.fits p = true)
    (h : Settles positives (rest.filter fun p => m.label p = .positive) calls rounds) :
    Settles positives working (⟨trainingSet positives q, .ok m⟩ :: calls)
      (⟨q, m, rest.filter fun p => m.label p = .negative⟩ :: rounds) := by
  constructor
  · rw [h.calls]
    rfl
  · rw [List.flatMap_cons, List.cons_append]
    have hrest := (filter_label_perm m rest).trans (h.perm.append_left _)
    exact hpick.trans (hrest.cons q)
  · rw [List.forall_mem_cons]
    refine ⟨fun p hp => ?_, h.dropped⟩
    obtain ⟨hp, hlabel⟩ := List.mem_filter.mp hp
    exact predict_of_fits (hfits p hp) (by simpa using hlabel)
  · rw [List.pairwise_cons]
    refine ⟨fun r hr p hp => ?_, h.kept⟩
    -- what a later round takes out was still at work after this one
    have hmem := h.perm.mem_iff.mpr (List.mem_flatMap.mpr ⟨r, hr, hp⟩)
    obtain ⟨hp, hlabel⟩ := List.mem_filter.mp hmem
    exact predict_of_fits (hfits p hp) (by simpa using hlabel)

lemma Shrinks.settles {r : Result (List Round)} (h : Shrinks positives working calls r)
    (hr : r = .ok rounds) : Settles positives working calls rounds := by
  induction h generalizing rounds with
  | done =>
    obtain rfl := Except.ok.inj hr
    exact ⟨rfl, .nil, by simp, .nil⟩
  | late working => cases hr
  | failed hpick => cases hr
  | unfit hpick => cases hr
  | round hpick hfits hrest ih =>
    obtain ⟨rest, hok, rfl⟩ := Result.map_eq_ok.mp hr
    exact Settles.round hpick hfits (ih hok)

lemma Settles.length_calls (h : Settles positives working calls rounds) :
    calls.length = rounds.length := by
  rw [h.calls, List.length_map]

lemma Settles.countP_calls (h : Settles positives working calls rounds) :
    calls.countP (·.result.isOk) = rounds.length := by
  rw [← h.length_calls, List.countP_eq_length, h.calls, List.forall_mem_map]
  intro r _
  rfl

lemma Settles.length_pos (h : Settles positives working calls rounds) (hwork : working ≠ []) :
    1 ≤ rounds.length := by
  rw [Nat.one_le_iff_ne_zero, ne_eq, List.length_eq_zero_iff]
  rintro rfl
  exact hwork h.perm.eq_nil

end Record

def conclude (vars : List Var) (hs : List Halfspace) : Result (Expr × List Halfspace) :=
  (fun parts => (.all parts, hs)) <$> hs.mapM fun h => h.toExpr vars

lemma separate_of_cutOff {positives negatives : List Point} {r : Result (List Halfspace)}
    (hpos : positives ≠ []) (hneg : negatives ≠ []) (vars : List Var)
    (h : l.cutOff (positives.map fun p => (p, .positive)) negatives s = (r, t)) :
    l.separate positives negatives vars s = (r >>= conclude vars, t) := by
  unfold separate
  rw [if_neg (mt List.isEmpty_iff.mp hneg)]
  simp only [if_neg (mt List.isEmpty_iff.mp hpos)]
  cases r with
  | error f => exact Task.bind_of_error h
  | ok hs =>
    refine (Task.bind_of_ok h).trans ?_
    change _ = (conclude vars hs, t)
    unfold conclude
    cases hs.mapM fun h => h.toExpr vars <;> rfl

/-- Whatever the separator does, it is asked at most once per negative point, each time to tell one
of them from all positive ones. If that leads to half-spaces, there are as many of them as trainings,
and each negative point was drawn in one of these or was dropped after one. -/
theorem separate_accounts (l : Learner τ) {positives negatives : List Point} (hpos : positives ≠ [])
    (hneg : negatives ≠ []) (vars : List Var) (s : State τ) :
    ∃ calls : List Training,
      l.recorded.separate positives negatives vars (s.recorded []) =
        ((l.separate positives negatives vars s).1,
          (l.separate positives negatives vars s).2.recorded calls) ∧
      calls.length ≤ negatives.length ∧
      (∃ picks : List Point, picks.Subperm negatives ∧
        calls.map (·.samples) = picks.map (trainingSet positives)) ∧
      ∀ inv hs t, l.separate positives negatives vars s = (.ok (inv, hs), t) →
        1 ≤ hs.length ∧ hs.length ≤ negatives.length ∧ t.trainings = s.trainings + hs.length ∧
        ∃ rounds : List Round, calls = rounds.map (Round.training positives) ∧
          hs = rounds.map (Round.halfspace l.multiplier) ∧
          negatives.Perm (rounds.flatMap fun r => r.picked :: r.dropped) ∧
          (∀ r ∈ rounds, ∀ q ∈ r.dropped, r.model.predict q = .ok .negative) ∧
          rounds.Pairwise fun r r' =>
            ∀ q ∈ r'.picked :: r'.dropped, r.model.predict q = .ok .positive := by
  obtain ⟨calls, r, t, hshrinks, hrun, hrun', hcount⟩ := accounts_cutOff l positives negatives s []
  have hsep := separate_of_cutOff hpos hneg vars hrun
  have hsep' := separate_of_cutOff hpos hneg vars hrun'
  obtain ⟨picks, hpicks, hsamples⟩ := hshrinks.picks
  have hlength : calls.length ≤ negatives.length := by
    calc calls.length = (calls.map (·.samples)).length := (List.length_map _).symm
      _ = picks.length := by rw [hsamples, List.length_map]
      _ ≤ negatives.length := hpicks.length_le
  refine ⟨calls, ?_, hlength, ⟨picks, hpicks, hsamples⟩, fun inv hs u h => ?_⟩
  · rw [hsep, hsep']
    rfl
  · rw [hsep, Prod.mk.injEq] at h
    obtain ⟨hresult, rfl⟩ := h
    obtain ⟨cuts, hcuts, hconclude⟩ := Result.bind_eq_ok.mp hresult
    obtain ⟨rounds, hr, rfl⟩ := Result.map_eq_ok.mp hcuts
    obtain ⟨parts, -, hparts⟩ := Result.map_eq_ok.mp hconclude
    obtain ⟨rfl, rfl⟩ := Prod.mk.inj hparts
    have hsettles := hshrinks.settles hr
    rw [List.length_map]
    refine ⟨hsettles.length_pos hneg, ?_, ?_, rounds, hsettles.calls, rfl, hsettles.perm,
      hsettles.dropped, hsettles.kept⟩
    · rw [← hsettles.length_calls]
      exact hlength
    · rw [hcount, hsettles.countP_calls]

def widest : Learner Unit := ⟨.maxMargin {}, 10, fun _ => ⟨0⟩⟩

/-- Three points around the origin, two of them on one side. -/
def around : List Point := [⟨[5]⟩, ⟨[-5]⟩, ⟨[7]⟩]

/-- There are two trainings, one for each side. The point that neither of them is about is dropped
after the one for its side. -/
theorem separate_accounts_around :
    ∃ inv hs t, ∃ rounds : List Round,
      widest.separate [⟨[0]⟩] around [⟨"x", none⟩] ⟨(), .ofSeed 42, 0, 0, none⟩ =
        (.ok (inv, hs), t) ∧
      hs.length = 2 ∧ t.trainings = 2 ∧ rounds.length = 2 ∧
      around.Perm (rounds.flatMap fun r => r.picked :: r.dropped) ∧
      (∀ r ∈ rounds, ∀ q ∈ r.dropped, r.model.predict q = .ok .negative) := by
  have hrun : (fun r => r.2.length) <$> (widest.separate [⟨[0]⟩] around [⟨"x", none⟩]
      ⟨(), .ofSeed 42, 0, 0, none⟩).1 = .ok 2 := by
    decide +kernel
  rcases hseparate : widest.separate [⟨[0]⟩] around [⟨"x", none⟩] ⟨(), .ofSeed 42, 0, 0, none⟩ with
    ⟨result, t⟩
  rw [hseparate] at hrun
  obtain ⟨⟨inv, hs⟩, rfl, hlength⟩ := Result.map_eq_ok.mp hrun
  have hpos : [Point.mk [0]] ≠ [] := List.cons_ne_nil _ _
  have hneg : around ≠ [] := List.cons_ne_nil _ _
  obtain ⟨calls, -, -, -, haccount⟩ :=
    separate_accounts widest hpos hneg [⟨"x", none⟩] ⟨(), .ofSeed 42, 0, 0, none⟩
  obtain ⟨-, -, htrainings, rounds, -, hcuts, hperm, hdropped, -⟩ := haccount inv hs t hseparate
  have hrounds : rounds.length = hs.length := by rw [hcuts, List.length_map]
  refine ⟨inv, hs, t, rounds, rfl, hlength, ?_, hrounds.trans hlength, hperm, hdropped⟩
  rw [htrainings, hlength]

end Learner
end LoopInvariant
