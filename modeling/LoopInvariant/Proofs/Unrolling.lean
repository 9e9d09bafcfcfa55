import LoopInvariant.Proofs.Failures
import LoopInvariant.Proofs.Persistence

/-! How many questions it takes to follow a run, whatever the solver answers. The limit on passes is
looked at only when the loop condition was found to hold, so that a run may leave the loop after the
last pass that is allowed. -/
namespace LoopInvariant.Trace

open Oracle

variable {σ : Type} {o : Oracle σ} {l : Loop} {start p q : Point} {limit left : ℕ}
  {seen ps : List Point} {s t u : Oracle.State σ} {stage : Stage} {e : Expr}

/-! ### Questions about one state -/

def inquire (o : Oracle σ) (l : Loop) (stage : Stage) (e : Expr) (p : Point) : Asking σ Bool := do
  let state ← Task.ofResult (l.state p stage)
  o.isSat (.all [e, state])

def successor (o : Oracle σ) (l : Loop) (p : Point) : Asking σ (Option Point) := do
  let state ← Task.ofResult (l.state p .pre)
  return (← o.model? (.all [l.body, state])).map fun m => m.project l.names .highest

lemma inquire_of_state {f : Expr} (hf : l.state p stage = .ok f) :
    inquire o l stage e p s = o.isSat (.all [e, f]) s :=
  Task.bind_of_ok (Task.ofResult_eq_ok.mpr ⟨hf, rfl⟩)

lemma successor_of_state {f : Expr} (hf : l.state p .pre = .ok f) :
    successor o l p s = (Option.map (fun m => m.project l.names .highest) <$>
      (o.model? (.all [l.body, f]) s).1, (o.model? (.all [l.body, f]) s).2) := by
  refine (Task.bind_of_ok (Task.ofResult_eq_ok.mpr ⟨hf, rfl⟩)).trans ?_
  rcases h : o.model? (.all [l.body, f]) s with ⟨e | a, t⟩
  · exact Task.bind_of_error h
  · exact Task.bind_of_ok h

lemma queries_inquire {r : Result Bool} (hdim : p.dim = l.dim)
    (h : inquire o l stage e p s = (r, t)) : t.queries = s.queries + 1 := by
  obtain ⟨f, hf⟩ := Loop.exists_state hdim stage
  rw [inquire_of_state hf, isSat_apply, Prod.mk.injEq] at h
  rw [← h.2]
  exact queries_model? o _ s

lemma queries_successor {r : Result (Option Point)} (hdim : p.dim = l.dim)
    (h : successor o l p s = (r, t)) : t.queries = s.queries + 1 := by
  obtain ⟨f, hf⟩ := Loop.exists_state hdim .pre
  rw [successor_of_state hf, Prod.mk.injEq] at h
  rw [← h.2]
  exact queries_model? o _ s

lemma dim_successor (hdim : p.dim = l.dim) (h : successor o l p s = (.ok (some q), t)) :
    q.dim = l.dim := by
  obtain ⟨f, hf⟩ := Loop.exists_state hdim .pre
  rw [successor_of_state hf, Prod.mk.injEq] at h
  obtain ⟨a, _, ha⟩ := Result.map_eq_ok.mp h.1
  obtain ⟨m, _, rfl⟩ := Option.map_eq_some_iff.mp ha
  exact Loop.length_project .highest

lemma inquire_eq_error {f : Expr} {x : Failure} (hf : l.state p stage = .ok f) :
    inquire o l stage e p s = (.error x, t) ↔ o.model? (.all [e, f]) s = (.error x, t) := by
  rw [inquire_of_state hf, isSat_apply, Prod.ext_iff, Prod.ext_iff, Result.map_eq_error]

lemma successor_eq_error {f : Expr} {x : Failure} (hf : l.state p .pre = .ok f) :
    successor o l p s = (.error x, t) ↔ o.model? (.all [l.body, f]) s = (.error x, t) := by
  rw [successor_of_state hf, Prod.ext_iff, Prod.ext_iff, Result.map_eq_error]

/-! ### One state of a run -/

lemma walk_of_leaves (h : inquire o l .pre l.cond p s = (.ok false, t)) :
    walk o l start limit left seen p s = (.ok ((p :: seen).reverse, false), t) := by
  obtain ⟨f, s', hf, hcond⟩ := Task.bind_eq_ok.mp h
  rw [walk.eq_def, Task.bind_of_ok hf, Task.bind_of_ok hcond]
  rfl

lemma walk_of_limit (h : inquire o l .pre l.cond p s = (.ok true, t)) :
    walk o l start limit 0 seen p s = (.error (.error (.unrollLimit start limit)), t) := by
  obtain ⟨f, s', hf, hcond⟩ := Task.bind_eq_ok.mp h
  rw [walk.eq_def, Task.bind_of_ok hf, Task.bind_of_ok hcond]
  rfl

lemma walk_of_error {e : Failure} (h : inquire o l .pre l.cond p s = (.error e, t)) :
    walk o l start limit left seen p s = (.error e, t) := by
  rw [walk.eq_def]
  rcases Task.bind_eq_error.mp h with hstate | ⟨f, s', hstate, hcond⟩
  · rw [Task.bind_of_error hstate]
  · rw [Task.bind_of_ok hstate, Task.bind_of_error hcond]

lemma walk_succ (h : inquire o l .pre l.cond p s = (.ok true, t)) :
    walk o l start limit (left + 1) seen p s =
      (successor o l p >>= fun next => next.elim (return ((p :: seen).reverse, true))
        (walk o l start limit left (p :: seen))) t := by
  obtain ⟨f, s', hstate, hcond⟩ := Task.bind_eq_ok.mp h
  have hf := (Task.ofResult_eq_ok.mp hstate).1
  have hnext := successor_of_state (o := o) (s := t) hf
  rw [walk.eq_def, Task.bind_of_ok hstate, Task.bind_of_ok hcond]
  rcases hm : o.model? (.all [l.body, f]) t with ⟨e | _ | m, u⟩
  · rw [hm] at hnext
    rw [Task.bind_of_error hnext]
    exact Task.bind_of_error hm
  · rw [hm] at hnext
    rw [Task.bind_of_ok hnext]
    exact Task.bind_of_ok hm
  · rw [hm] at hnext
    rw [Task.bind_of_ok hnext]
    exact Task.bind_of_ok hm

/-! ### Passes -/

/-- The solver finds passes that lead from one state through others to the last one. It answers each
time that the condition holds, and then gives the next state. -/
inductive Passes (o : Oracle σ) (l : Loop) :
    Point → Oracle.State σ → List Point → Point → Oracle.State σ → Prop
  | refl (p : Point) (s : Oracle.State σ) : Passes o l p s [] p s
  | pass {p p' q : Point} {ps : List Point} {s t u v : Oracle.State σ}
      (hcond : inquire o l .pre l.cond p s = (.ok true, t))
      (hbody : successor o l p t = (.ok (some p'), u)) (hrest : Passes o l p' u ps q v) :
      Passes o l p s (p :: ps) q v

lemma Passes.dim (h : Passes o l p s ps q t) (hdim : p.dim = l.dim) : q.dim = l.dim := by
  induction h with
  | refl p s => exact hdim
  | pass hcond hbody hrest ih => exact ih (dim_successor hdim hbody)

lemma Passes.queries (h : Passes o l p s ps q t) (hdim : p.dim = l.dim) :
    t.queries = s.queries + 2 * ps.length := by
  induction h with
  | refl p s => rfl
  | pass hcond hbody hrest ih =>
    have hask := queries_inquire hdim hcond
    have hpass := queries_successor hdim hbody
    rw [ih (dim_successor hdim hbody), List.length_cons]
    omega

lemma walk_of_passes (h : Passes o l p s ps q t) (left : ℕ) (seen : List Point) :
    walk o l start limit (ps.length + left) seen p s =
      walk o l start limit left (ps.reverse ++ seen) q t := by
  induction h generalizing seen with
  | refl p s => rw [List.length_nil, Nat.zero_add, List.reverse_nil, List.nil_append]
  | @pass p p' q ps s t u v hcond hbody hrest ih =>
    have hmore : (p :: ps).length + left = ps.length + left + 1 := by
      rw [List.length_cons]
      omega
    rw [hmore, walk_succ hcond, Task.bind_of_ok hbody, Option.elim_some, List.reverse_cons,
      List.append_assoc]
    exact ih (p :: seen)

/-- How a run ends at a state with so many passes still allowed, and whether it is stuck there. -/
inductive Ends (o : Oracle σ) (l : Loop) (start : Point) (limit : ℕ) (q : Point)
    (s : Oracle.State σ) : ℕ → Result Bool → Oracle.State σ → Prop
  | leaves {left : ℕ} {t : Oracle.State σ} (hcond : inquire o l .pre l.cond q s = (.ok false, t)) :
      Ends o l start limit q s left (.ok false) t
  | sticks {left : ℕ} {t u : Oracle.State σ} (hcond : inquire o l .pre l.cond q s = (.ok true, t))
      (hbody : successor o l q t = (.ok none, u)) :
      Ends o l start limit q s (left + 1) (.ok true) u
  | limit {t : Oracle.State σ} (hcond : inquire o l .pre l.cond q s = (.ok true, t)) :
      Ends o l start limit q s 0 (.error (.error (.unrollLimit start limit))) t
  | noCond {left : ℕ} {t : Oracle.State σ} {e : Failure}
      (hcond : inquire o l .pre l.cond q s = (.error e, t)) :
      Ends o l start limit q s left (.error e) t
  | noBody {left : ℕ} {t u : Oracle.State σ} {e : Failure}
      (hcond : inquire o l .pre l.cond q s = (.ok true, t))
      (hbody : successor o l q t = (.error e, u)) :
      Ends o l start limit q s (left + 1) (.error e) u

lemma walk_of_ends {r : Result Bool} (h : Ends o l start limit p s left r t) (seen : List Point) :
    walk o l start limit left seen p s =
      ((fun stuck => ((p :: seen).reverse, stuck)) <$> r, t) := by
  cases h with
  | leaves hcond => exact walk_of_leaves hcond
  | sticks hcond hbody => exact (walk_succ hcond).trans (Task.bind_of_ok hbody)
  | limit hcond => exact walk_of_limit hcond
  | noCond hcond => exact walk_of_error hcond
  | noBody hcond hbody => exact (walk_succ hcond).trans (Task.bind_of_error hbody)

lemma walk_of_passes_ends {r : Result Bool} (hpasses : Passes o l p s ps q t)
    (hends : Ends o l start limit q t left r u) :
    walk o l start limit (ps.length + left) [] p s =
      ((fun stuck => (ps ++ [q], stuck)) <$> r, u) := by
  rw [walk_of_passes hpasses, walk_of_ends hends, List.append_nil, List.reverse_cons,
    List.reverse_reverse]

lemma ends_or_passes (o : Oracle σ) (l : Loop) (start : Point) (limit left : ℕ) (p : Point)
    (s : Oracle.State σ) :
    (∃ r t, Ends o l start limit p s left r t) ∨
      0 < left ∧ ∃ t q u, inquire o l .pre l.cond p s = (.ok true, t) ∧
        successor o l p t = (.ok (some q), u) := by
  rcases hcond : inquire o l .pre l.cond p s with ⟨e | _ | _, t⟩
  · exact .inl ⟨_, t, .noCond hcond⟩
  · exact .inl ⟨_, t, .leaves hcond⟩
  cases left with
  | zero => exact .inl ⟨_, t, .limit hcond⟩
  | succ left =>
    rcases hbody : successor o l p t with ⟨e | _ | q, u⟩
    · exact .inl ⟨_, u, .noBody hcond hbody⟩
    · exact .inl ⟨_, u, .sticks hcond hbody⟩
    · exact .inr ⟨left.succ_pos, t, q, u, rfl, hbody⟩

lemma exists_passes_ends (o : Oracle σ) (l : Loop) (start : Point) (limit left : ℕ) (p : Point)
    (s : Oracle.State σ) :
    ∃ ps q t more r u, Passes o l p s ps q t ∧ ps.length + more = left ∧
      Ends o l start limit q t more r u := by
  induction left generalizing p s with
  | zero =>
    rcases ends_or_passes o l start limit 0 p s with ⟨r, t, hends⟩ | ⟨hpos, _⟩
    · exact ⟨[], p, s, 0, r, t, .refl p s, rfl, hends⟩
    · exact absurd hpos (Nat.lt_irrefl 0)
  | succ left ih =>
    rcases ends_or_passes o l start limit (left + 1) p s with
      ⟨r, t, hends⟩ | ⟨_, t, p', u, hcond, hbody⟩
    · exact ⟨[], p, s, left + 1, r, t, .refl p s, Nat.zero_add _, hends⟩
    · obtain ⟨ps, q, v, more, r, w, hpasses, hleft, hends⟩ := ih p' u
      refine ⟨p :: ps, q, v, more, r, w, .pass hcond hbody hpasses, ?_, hends⟩
      rw [List.length_cons]
      omega

/-! ### Classification -/

lemma classify_eq (o : Oracle σ) (l : Loop) (start : Point) (limit : ℕ) :
    classify o l start limit = inquire o l .pre l.pre start >>= fun inPre =>
      walk o l start limit limit [] start >>= fun run =>
        inquire o l .post l.post (run.1.getLastD start) >>= fun inPost =>
          pure (.ofFlags inPre run.2 inPost, run.1) := by
  simp only [classify, inquire, bind_assoc]

/-- The solver says whether the start is in the precondition, and then finds passes that lead to the
last state. -/
def Reaches (o : Oracle σ) (l : Loop) (start : Point) (s : Oracle.State σ) (inPre : Bool)
    (ps : List Point) (q : Point) (t : Oracle.State σ) : Prop :=
  ∃ u, inquire o l .pre l.pre start s = (.ok inPre, u) ∧ Passes o l start u ps q t

variable {inPre : Bool}

lemma Reaches.dim (h : Reaches o l start s inPre ps q t) (hdim : start.dim = l.dim) :
    q.dim = l.dim := by
  obtain ⟨u, _, hpasses⟩ := h
  exact hpasses.dim hdim

lemma Reaches.queries (h : Reaches o l start s inPre ps q t) (hdim : start.dim = l.dim) :
    t.queries = s.queries + (2 * ps.length + 1) := by
  obtain ⟨u, hpre, hpasses⟩ := h
  rw [hpasses.queries hdim, queries_inquire hdim hpre]
  omega

lemma classify_of_failure {more : ℕ} {x : Failure} (h : Reaches o l start s inPre ps q t)
    (hmore : ps.length + more = limit) (hends : Ends o l start limit q t more (.error x) u) :
    classify o l start limit s = (.error x, u) := by
  obtain ⟨v, hpre, hpasses⟩ := h
  have hwalk := walk_of_passes_ends hpasses hends
  rw [hmore] at hwalk
  rw [classify_eq, Task.bind_of_ok hpre]
  exact Task.bind_of_error hwalk

lemma classify_of_ends {more : ℕ} {stuck : Bool} (h : Reaches o l start s inPre ps q t)
    (hmore : ps.length + more = limit) (hends : Ends o l start limit q t more (.ok stuck) u) :
    classify o l start limit s = (inquire o l .post l.post q >>= fun inPost =>
      pure (.ofFlags inPre stuck inPost, ps ++ [q])) u := by
  obtain ⟨v, hpre, hpasses⟩ := h
  have hwalk : walk o l start limit (ps.length + more) [] start v = (.ok (ps ++ [q], stuck), u) :=
    walk_of_passes_ends hpasses hends
  rw [hmore] at hwalk
  rw [classify_eq, Task.bind_of_ok hpre, Task.bind_of_ok hwalk, List.getLastD_concat]

lemma exists_ends (o : Oracle σ) (limit : ℕ)
    (hpre : inquire o l .pre l.pre start s = (.ok inPre, t)) :
    ∃ ps q u more r v, Reaches o l start s inPre ps q u ∧ ps.length + more = limit ∧
      Ends o l start limit q u more r v ∧
      walk o l start limit limit [] start t = ((fun stuck => (ps ++ [q], stuck)) <$> r, v) := by
  obtain ⟨ps, q, u, more, r, v, hpasses, hmore, hends⟩ :=
    exists_passes_ends o l start limit limit start t
  have hwalk := walk_of_passes_ends hpasses hends
  rw [hmore] at hwalk
  exact ⟨ps, q, u, more, r, v, ⟨t, hpre, hpasses⟩, hmore, hends, hwalk⟩

/-- A class comes from a run that leaves the loop or gets stuck in it, and one more question. -/
lemma ends_of_classify {c : Class} {states : List Point} (hdim : start.dim = l.dim)
    (h : classify o l start limit s = (.ok (c, states), t)) :
    ∃ inPre ps q u more stuck v inPost, Reaches o l start s inPre ps q u ∧
      ps.length + more = limit ∧ Ends o l start limit q u more (.ok stuck) v ∧
      t.queries = v.queries + 1 ∧ states = ps ++ [q] ∧ c = .ofFlags inPre stuck inPost := by
  rw [classify_eq] at h
  obtain ⟨inPre, w, hpre, h⟩ := Task.bind_eq_ok.mp h
  obtain ⟨⟨visited, stuck⟩, v, hwalk, h⟩ := Task.bind_eq_ok.mp h
  obtain ⟨inPost, t', hpost, h⟩ := Task.bind_eq_ok.mp h
  obtain ⟨heq, rfl⟩ := Task.pure_eq_ok.mp h
  obtain ⟨rfl, rfl⟩ := Prod.mk.inj heq
  obtain ⟨ps, q, u, more, r, v', hreach, hmore, hends, hwalk'⟩ := exists_ends o limit hpre
  rw [hwalk, Prod.mk.injEq] at hwalk'
  obtain ⟨hr, rfl⟩ := hwalk'
  obtain ⟨stuck', rfl, hvisited⟩ := Result.map_eq_ok.mp hr.symm
  obtain ⟨rfl, rfl⟩ := Prod.mk.inj hvisited
  rw [List.getLastD_concat] at hpost
  exact ⟨inPre, ps, q, u, more, stuck', v, inPost, hreach, hmore, hends,
    queries_inquire (hreach.dim hdim) hpost, rfl, rfl⟩

/-! ### Failures -/

/-- The questions that a run comes to: about the precondition at its start, about the condition at
each state that it reaches, about the next state while a pass is allowed, and about the
postcondition at its last state. -/
inductive Asks (o : Oracle σ) (l : Loop) (start : Point) (limit : ℕ) (s : Oracle.State σ) :
    Expr → Oracle.State σ → Prop
  | pre {f : Expr} (hf : l.state start .pre = .ok f) : Asks o l start limit s (.all [l.pre, f]) s
  | cond {inPre : Bool} {ps : List Point} {q : Point} {t : Oracle.State σ} {f : Expr}
      (hreach : Reaches o l start s inPre ps q t) (hps : ps.length ≤ limit)
      (hf : l.state q .pre = .ok f) : Asks o l start limit s (.all [l.cond, f]) t
  | body {inPre : Bool} {ps : List Point} {q : Point} {t u : Oracle.State σ} {f : Expr}
      (hreach : Reaches o l start s inPre ps q t) (hps : ps.length < limit)
      (hcond : inquire o l .pre l.cond q t = (.ok true, u)) (hf : l.state q .pre = .ok f) :
      Asks o l start limit s (.all [l.body, f]) u
  | post {inPre : Bool} {ps : List Point} {q : Point} {more : ℕ} {stuck : Bool}
      {t u : Oracle.State σ} {f : Expr} (hreach : Reaches o l start s inPre ps q t)
      (hmore : ps.length + more = limit) (hends : Ends o l start limit q t more (.ok stuck) u)
      (hf : l.state q .post = .ok f) : Asks o l start limit s (.all [l.post, f]) u

lemma classify_of_asks {f : Expr} {x : Failure} (h : Asks o l start limit s f u)
    (hfails : o.model? f u = (.error x, t)) : classify o l start limit s = (.error x, t) := by
  cases h with
  | pre hf =>
    rw [classify_eq]
    exact Task.bind_of_error ((inquire_eq_error hf).mpr hfails)
  | cond hreach hps hf =>
    exact classify_of_failure hreach (Nat.add_sub_of_le hps)
      (.noCond ((inquire_eq_error hf).mpr hfails))
  | body hreach hps hcond hf =>
    obtain ⟨more, hmore⟩ := Nat.exists_eq_add_of_lt hps
    exact classify_of_failure hreach hmore.symm
      (.noBody hcond ((successor_eq_error hf).mpr hfails))
  | post hreach hmore hends hf =>
    rw [classify_of_ends hreach hmore hends]
    exact Task.bind_of_error ((inquire_eq_error hf).mpr hfails)

lemma Ends.failure {more : ℕ} {x : Failure} (h : Ends o l start limit q t more (.error x) u)
    (hdim : start.dim = l.dim) (hreach : Reaches o l start s inPre ps q t)
    (hmore : ps.length + more = limit) :
    (x = .error (.unrollLimit start limit) ∧ ps.length = limit ∧
      inquire o l .pre l.cond q t = (.ok true, u)) ∨
      ∃ f v, Asks o l start limit s f v ∧ o.model? f v = (.error x, u) := by
  obtain ⟨f, hf⟩ := Loop.exists_state (hreach.dim hdim) .pre
  cases h with
  | limit hcond => exact .inl ⟨rfl, hmore, hcond⟩
  | noCond hcond => exact .inr ⟨_, _, .cond hreach (by omega) hf, (inquire_eq_error hf).mp hcond⟩
  | noBody hcond hbody =>
    exact .inr ⟨_, _, .body hreach (by omega) hcond hf, (successor_eq_error hf).mp hbody⟩

/-- A run fails at the limit, or by the failure of one of its own questions. -/
lemma classify_eq_error {x : Failure} (hdim : start.dim = l.dim) :
    classify o l start limit s = (.error x, t) ↔
      (x = .error (.unrollLimit start limit) ∧ ∃ inPre ps q u, Reaches o l start s inPre ps q u ∧
        ps.length = limit ∧ inquire o l .pre l.cond q u = (.ok true, t)) ∨
      ∃ f u, Asks o l start limit s f u ∧ o.model? f u = (.error x, t) := by
  constructor
  · intro h
    rw [classify_eq] at h
    rcases Task.bind_eq_error.mp h with hpre | ⟨inPre, w, hpre, h⟩
    · obtain ⟨f, hf⟩ := Loop.exists_state hdim .pre
      exact .inr ⟨_, s, .pre hf, (inquire_eq_error hf).mp hpre⟩
    obtain ⟨ps, q, u, more, r, v, hreach, hmore, hends, hwalk⟩ := exists_ends o limit hpre
    rcases Task.bind_eq_error.mp h with hfails | ⟨⟨visited, stuck⟩, v', hok, h⟩
    · rw [hwalk, Prod.mk.injEq, Result.map_eq_error] at hfails
      obtain ⟨rfl, rfl⟩ := hfails
      rcases hends.failure hdim hreach hmore with ⟨rfl, hps, hcond⟩ | hasks
      · exact .inl ⟨rfl, inPre, ps, q, u, hreach, hps, hcond⟩
      · exact .inr hasks
    · rw [hwalk, Prod.mk.injEq] at hok
      obtain ⟨hr, rfl⟩ := hok
      obtain ⟨stuck', rfl, hvisited⟩ := Result.map_eq_ok.mp hr
      obtain ⟨rfl, rfl⟩ := Prod.mk.inj hvisited
      -- the run has ended, so that only the question about its last state can have failed
      rcases Task.bind_eq_error.mp h with hpost | ⟨inPost, t', _, h⟩
      · obtain ⟨f, hf⟩ := Loop.exists_state (hreach.dim hdim) .post
        rw [List.getLastD_concat] at hpost
        exact .inr ⟨_, _, .post hreach hmore hends hf, (inquire_eq_error hf).mp hpost⟩
      · cases h
  · rintro (⟨rfl, inPre, ps, q, u, hreach, hps, hcond⟩ | ⟨f, u, hasks, hfails⟩)
    · exact classify_of_failure hreach hps (.limit hcond)
    · exact classify_of_asks hasks hfails

/-- Whatever the solver answers, a class comes with at most one state more than the passes that are
allowed. Two questions were asked for each pass and three for the rest, or four if the run got
stuck, which it can only while a pass is allowed. The limit is given exactly if the condition was
found to hold after as many passes as are allowed, or the solver itself fails with it at a question
of this run. A run that is out of the loop by then has a class. -/
theorem classify_accounts (o : Oracle σ) (l : Loop) {start : Point} (hdim : start.dim = l.dim)
    (limit : ℕ) (s : Oracle.State σ) :
    (∀ c states t, classify o l start limit s = (.ok (c, states), t) →
      1 ≤ states.length ∧ states.length ≤ limit + 1 ∧
      ∃ inPre ps q u, Reaches o l start s inPre ps q u ∧ states = ps ++ [q] ∧
        ((∃ v, inquire o l .pre l.cond q u = (.ok false, v)) ∧
            t.queries = s.queries + (2 * (states.length - 1) + 3) ∨
          (∃ v w, inquire o l .pre l.cond q u = (.ok true, v) ∧
              successor o l q v = (.ok none, w)) ∧
            t.queries = s.queries + (2 * (states.length - 1) + 4) ∧ states.length ≤ limit ∧
            c = .undetermined)) ∧
    (∀ inPre ps q u t, Reaches o l start s inPre ps q u → ps.length = limit →
      inquire o l .pre l.cond q u = (.ok true, t) →
      classify o l start limit s = (.error (.error (.unrollLimit start limit)), t) ∧
        t.queries = s.queries + (2 * limit + 2)) ∧
    (∀ t, classify o l start limit s = (.error (.error (.unrollLimit start limit)), t) ↔
      (∃ inPre ps q u, Reaches o l start s inPre ps q u ∧ ps.length = limit ∧
        inquire o l .pre l.cond q u = (.ok true, t)) ∨
      ∃ f u, Asks o l start limit s f u ∧ o.Refuses f u (.error (.unrollLimit start limit)) ∧
        t = (o.model? f u).2) ∧
    ∀ inPre ps q u v inPost t, Reaches o l start s inPre ps q u → ps.length ≤ limit →
      inquire o l .pre l.cond q u = (.ok false, v) →
      inquire o l .post l.post q v = (.ok inPost, t) →
      classify o l start limit s = (.ok (.ofFlags inPre false inPost, ps ++ [q]), t) := by
  refine ⟨fun c states t h => ?_, fun inPre ps q u t hreach hps hcond => ?_, fun t => ?_,
    fun inPre ps q u v inPost t hreach hps hcond hpost => ?_⟩
  · obtain ⟨inPre, ps, q, u, more, stuck, v, inPost, hreach, hmore, hends, hquery, rfl, rfl⟩ :=
      ends_of_classify hdim h
    have hqueries := hreach.queries hdim
    have hq := hreach.dim hdim
    rw [List.length_append, List.length_singleton]
    refine ⟨by omega, by omega, inPre, ps, q, u, hreach, rfl, ?_⟩
    cases hends with
    | leaves hcond =>
      have hask := queries_inquire hq hcond
      exact .inl ⟨⟨v, hcond⟩, by omega⟩
    | @sticks more w _ hcond hbody =>
      have hask := queries_inquire hq hcond
      have hpass := queries_successor hq hbody
      exact .inr ⟨⟨w, v, hcond, hbody⟩, by omega, by omega, ofFlags_stuck inPre inPost⟩
  · have hqueries := hreach.queries hdim
    have hask := queries_inquire (hreach.dim hdim) hcond
    exact ⟨classify_of_failure hreach hps (.limit hcond), by omega⟩
  · rw [classify_eq_error hdim]
    constructor
    · rintro (⟨_, hlimit⟩ | ⟨f, u, hasks, hfails⟩)
      · exact .inl hlimit
      · refine .inr ⟨f, u, hasks, (refuses_of_model? hfails).resolve_right (by simp), ?_⟩
        rw [hfails]
    · rintro (hlimit | ⟨f, u, hasks, hrefuses, rfl⟩)
      · exact .inl ⟨rfl, hlimit⟩
      · exact .inr ⟨f, u, hasks, model?_of_refuses hrefuses⟩
  · rw [classify_of_ends hreach (Nat.add_sub_of_le hps) (.leaves hcond), Task.bind_of_ok hpost]
    rfl

/-- One pass leads out of the loop. It is enough that one is allowed. -/
theorem classify_accounts_stumbling :
    (Point.mk [4]).dim = stumbling.dim ∧
    (∃ t, classify ⟨.builtIn, 100, 0, 2⟩ stumbling ⟨[4]⟩ 1 ⟨(), 0⟩ =
      (.ok (.positive, [⟨[4]⟩, ⟨[5]⟩]), t) ∧ t.queries = 5) ∧
    ∃ t, classify ⟨.builtIn, 100, 0, 2⟩ stumbling ⟨[4]⟩ 0 ⟨(), 0⟩ =
      (.error (.error (.unrollLimit ⟨[4]⟩ 0)), t) ∧ t.queries = 2 := by
  have hdim : (Point.mk [4]).dim = stumbling.dim := rfl
  have hrun : (classify ⟨.builtIn, 100, 0, 2⟩ stumbling ⟨[4]⟩ 1 ⟨(), 0⟩).1 =
      .ok (.positive, [⟨[4]⟩, ⟨[5]⟩]) := by
    decide +kernel
  have hpre : (inquire ⟨.builtIn, 100, 0, 2⟩ stumbling .pre stumbling.pre ⟨[4]⟩ ⟨(), 0⟩).1 =
      .ok true := by
    decide +kernel
  have hcond : (inquire ⟨.builtIn, 100, 0, 2⟩ stumbling .pre stumbling.cond ⟨[4]⟩
      (inquire ⟨.builtIn, 100, 0, 2⟩ stumbling .pre stumbling.pre ⟨[4]⟩ ⟨(), 0⟩).2).1 =
      .ok true := by
    decide +kernel
  have hleaves := (classify_accounts ⟨.builtIn, 100, 0, 2⟩ stumbling hdim 1 ⟨(), 0⟩).1
  have hlimit := (classify_accounts ⟨.builtIn, 100, 0, 2⟩ stumbling hdim 0 ⟨(), 0⟩).2.1
  have hstop := hlimit true [] ⟨[4]⟩ _ _ ⟨_, Prod.ext hpre rfl, .refl _ _⟩ rfl (Prod.ext hcond rfl)
  refine ⟨hdim, ⟨_, Prod.ext hrun rfl, ?_⟩, _, hstop⟩
  obtain ⟨_, _, _, _, _, _, _, _, ⟨_, hqueries⟩ | ⟨_, _, _, hclass⟩⟩ :=
    hleaves _ _ _ (Prod.ext hrun rfl)
  · exact hqueries
  · cases hclass

end LoopInvariant.Trace
