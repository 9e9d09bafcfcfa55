import LoopInvariant.Examples
import LoopInvariant.Trace
import LoopInvariant.Proofs.Projection
import LoopInvariant.Proofs.Solver

/-! States found by queries form real runs of the loop, and the class of a state says how its run
starts and ends. -/
namespace LoopInvariant.Trace

open Loop Oracle

variable {σ : Type} {o : Oracle σ} {l : Loop} {s t : Oracle.State σ}

lemma isSat_state (ho : o.solver.Truthful) (hn : l.names.Nodup) (stage : Stage) {p : Point}
    {e f : Expr} {b : Bool} (he : e.occurrences ⊆ l.vars.map (copy stage))
    (hf : l.state p stage = .ok f) (h : o.isSat (.all [e, f]) s = (.ok b, t)) :
    e.Sorted .formula ∧ (b = true ↔ l.Holds (copy stage) e (l.ofPoint p)) := by
  obtain ⟨hsorted, hb⟩ := isSat_eq_ok ho h
  refine ⟨(Expr.sorted_gather .and [e, f]).mp hsorted e (by simp), ?_⟩
  rw [hb]
  constructor
  · intro hsat
    obtain ⟨ρ, hρ⟩ := hsat
    rw [Expr.truth_all_pair, truth_state hf] at hρ
    exact (holds_iff hn (name_copy stage) he hρ.2).mpr hρ.1
  · intro hold
    refine ⟨l.reading (copy stage) (l.ofPoint p), ?_⟩
    rw [Expr.truth_all_pair, truth_state hf]
    exact ⟨hold, reads_reading hn (name_copy stage) _⟩

lemma bodyAt_project (hl : l.Staged) (ho : l.Ordered) {p : Point} {f : Expr} {m : Model}
    (hf : l.state p .pre = .ok f) (hm : (Expr.all [l.body, f]).Settled (some m)) :
    l.BodyAt (l.ofPoint p) (l.ofPoint (m.project l.names .highest)) := by
  obtain ⟨hvars, htrue⟩ := hm
  rw [Expr.truth_all_pair, truth_state hf] at htrue
  have hmem (v : Var) : v ∈ m.vars ↔ v ∈ l.body.occurrences ∨ v ∈ l.vars.map StateVar.before := by
    rw [hvars, Expr.mem_vars, Expr.all, Expr.occurrences_gather, List.flatMap_cons,
      List.flatMap_cons, List.flatMap_nil, List.append_nil, occurrences_state hf, List.mem_append]
    exact Iff.rfl
  have hincreasing : Var.Increasing m.vars := hvars ▸ Expr.increasing_vars _
  have hsubset : m.vars ⊆ l.vars.map StateVar.before ++ l.vars.map StateVar.after := by
    intro v hv
    rcases (hmem v).mp hv with hv | hv
    · exact hl.body hv
    · exact List.mem_append_left _ hv
  -- a copy after the body that the body does not mention may have any value, so also this one
  refine ⟨l.assign StateVar.after (l.ofPoint (m.project l.names .highest)) m.valuation, ?_,
    reads_assign hl.names (fun _ => rfl) _ _, ?_⟩
  · intro i
    rw [assign_of_notMem]
    · exact htrue.2 i
    · intro h
      obtain ⟨v, hv, heq⟩ := List.mem_map.mp h
      exact before_ne_after hl.names ho (l.vars.get_mem i) hv heq.symm
  · rw [truth_assign hl.names (fun _ => rfl) fun i hi => ?_]
    · exact htrue.1
    · exact ofPoint_highest hl.names ho hincreasing hsubset ((hmem _).mpr (.inl hi))

lemma not_bodyAt_of_settled {p : Point} {f : Expr} (hf : l.state p .pre = .ok f)
    (hm : (Expr.all [l.body, f]).Settled none) (s' : l.State) :
    ¬l.BodyAt (l.ofPoint p) s' := by
  rintro ⟨ρ, hbefore, _, hbody⟩
  have hfalse : (Expr.all [l.body, f]).truth ρ = false := hm ρ
  have hstate : f.truth ρ = true := (truth_state hf ρ).mpr hbefore
  have htrue := (Expr.truth_all_pair ρ l.body f).mpr ⟨hbody, hstate⟩
  rw [hfalse] at htrue
  cases htrue

/-- The states are those of a run from the first of them on. It ends where the condition fails, or
is stuck where it holds but no pass is possible. Only formulas that were asked for are known to be
well sorted. -/
structure Follows (l : Loop) (first : Point) (states : List Point) (stuck : Bool) : Prop where
  head : ∃ rest, states = first :: rest
  chain : states.IsChain fun p q => l.CondAt (l.ofPoint p) ∧ l.BodyAt (l.ofPoint p) (l.ofPoint q)
  cond : stuck = true ↔ l.CondAt (l.ofPoint (states.getLastD first))
  last : stuck = true → ∀ s', ¬l.BodyAt (l.ofPoint (states.getLastD first)) s'
  sorted_cond : l.cond.Sorted .formula
  sorted_body : 1 < states.length ∨ stuck = true → l.body.Sorted .formula

lemma Follows.cons {p q : Point} {states : List Point} {stuck : Bool}
    (h : Follows l q states stuck) (hcond : l.CondAt (l.ofPoint p))
    (hbody : l.BodyAt (l.ofPoint p) (l.ofPoint q)) (hsorted : l.body.Sorted .formula) :
    Follows l p (p :: states) stuck := by
  obtain ⟨rest, rfl⟩ := h.head
  refine ⟨⟨q :: rest, rfl⟩, ?_, h.cond, h.last, h.sorted_cond, fun _ => hsorted⟩
  exact List.IsChain.cons_cons ⟨hcond, hbody⟩ h.chain

lemma Follows.run {first : Point} {states : List Point} {stuck : Bool}
    (h : Follows l first states stuck) (hpre : l.PreAt (l.ofPoint first)) :
    l.Run (states.length - 1) fun i => l.ofPoint (states.getD i first) := by
  have hstep : ∀ i < states.length - 1,
      l.CondAt (l.ofPoint (states.getD i first)) ∧
        l.BodyAt (l.ofPoint (states.getD i first)) (l.ofPoint (states.getD (i + 1) first)) := by
    intro i hi
    have hnext : i + 1 < states.length := by omega
    rw [List.getD_eq_getElem _ _ hnext, List.getD_eq_getElem _ _ (by omega)]
    exact List.isChain_iff_getElem.mp h.chain i hnext
  obtain ⟨rest, rfl⟩ := h.head
  exact ⟨hpre, fun i hi => (hstep i hi).1, fun i hi => (hstep i hi).2⟩

lemma getD_last (first : Point) (states : List Point) :
    states.getD (states.length - 1) first = states.getLastD first := by
  rw [List.getLastD_eq_getLast?, List.getLast?_eq_getElem?, List.getD_eq_getElem?_getD]

theorem walk_follows (ho : o.solver.Truthful) (hl : l.Staged) (hord : l.Ordered) {start : Point}
    {limit left : ℕ} {seen states : List Point} {current : Point} {stuck : Bool}
    {s : Oracle.State σ}
    (h : walk o l start limit left seen current s = (.ok (states, stuck), t)) :
    ∃ tail, states = seen.reverse ++ tail ∧ Follows l current tail stuck := by
  rw [walk.eq_def, Task.bind_eq_ok] at h
  obtain ⟨f, s₁, hask, h⟩ := h
  obtain ⟨hf, rfl⟩ := Task.ofResult_eq_ok.mp hask
  obtain ⟨b, s₂, hsat, h⟩ := Task.bind_eq_ok.mp h
  obtain ⟨hsorted, hcond⟩ := isSat_state ho hl.names .pre hl.cond hf hsat
  cases b with
  | false =>
    obtain ⟨heq, _⟩ := Task.pure_eq_ok.mp h
    rw [Prod.mk.injEq] at heq
    refine ⟨[current], by simp [← heq.1], ⟨[], rfl⟩, List.isChain_singleton _, ?_, ?_, hsorted, ?_⟩
    · rw [← heq.2]
      exact hcond
    · rw [← heq.2]
      exact fun hfalse => absurd hfalse (by simp)
    · simp [← heq.2]
  | true =>
    have hin : l.CondAt (l.ofPoint current) := hcond.mp rfl
    cases left with
    | zero => exact absurd h Task.throw_eq_ok
    | succ left =>
      obtain ⟨a, s₃, hm, h⟩ := Task.bind_eq_ok.mp h
      obtain ⟨hsettledSorted, hsettled⟩ := settled_of_model? ho hm
      have hbody := (Expr.sorted_gather .and _).mp hsettledSorted l.body (by simp)
      cases a with
      | none =>
        obtain ⟨heq, _⟩ := Task.pure_eq_ok.mp h
        rw [Prod.mk.injEq] at heq
        refine ⟨[current], by simp [← heq.1], ⟨[], rfl⟩, List.isChain_singleton _, ?_, ?_, hsorted,
          fun _ => hbody⟩
        · rw [← heq.2]
          exact hcond
        · exact fun _ => not_bodyAt_of_settled hf hsettled
      | some m =>
        obtain ⟨tail, rfl, htail⟩ := walk_follows ho hl hord h
        refine ⟨current :: tail, by simp, ?_⟩
        exact htail.cons hin (bodyAt_project hl hord hf hsettled) hbody

/-- The class of a state says whether its run starts in the precondition, gets stuck, and ends in
the postcondition. -/
theorem classify_follows (ho : o.solver.Truthful) (hl : l.Staged) (hord : l.Ordered)
    {start : Point} {limit : ℕ} {c : Class} {states : List Point}
    (h : classify o l start limit s = (.ok (c, states), t)) :
    ∃ inPre stuck inPost, c = .ofFlags inPre stuck inPost ∧ Follows l start states stuck ∧
      l.pre.Sorted .formula ∧ (inPre = true ↔ l.PreAt (l.ofPoint start)) ∧
      l.post.Sorted .formula ∧
      (inPost = true ↔ l.PostAt (l.ofPoint (states.getLastD start))) := by
  rw [classify, Task.bind_eq_ok] at h
  obtain ⟨f, s₁, hask, h⟩ := h
  obtain ⟨hf, rfl⟩ := Task.ofResult_eq_ok.mp hask
  obtain ⟨inPre, s₂, hpre, h⟩ := Task.bind_eq_ok.mp h
  obtain ⟨⟨visited, stuck⟩, s₃, hwalk, h⟩ := Task.bind_eq_ok.mp h
  obtain ⟨g, s₄, hask, h⟩ := Task.bind_eq_ok.mp h
  obtain ⟨hg, rfl⟩ := Task.ofResult_eq_ok.mp hask
  obtain ⟨inPost, s₅, hpost, h⟩ := Task.bind_eq_ok.mp h
  obtain ⟨heq, _⟩ := Task.pure_eq_ok.mp h
  obtain ⟨rfl, rfl⟩ := Prod.mk.inj heq
  obtain ⟨tail, rfl, hfollows⟩ := walk_follows ho hl hord hwalk
  obtain ⟨hpreSorted, hpreAt⟩ := isSat_state ho hl.names .pre hl.pre hf hpre
  obtain ⟨hpostSorted, hpostAt⟩ := isSat_state ho hl.names .post hl.post hg hpost
  exact ⟨inPre, stuck, inPost, rfl, hfollows, hpreSorted, hpreAt, hpostSorted, hpostAt⟩

lemma run_of_counterexample (ho : o.solver.Truthful) (hl : l.Staged) (hord : l.Ordered)
    {start : Point} {limit : ℕ} {states : List Point}
    (h : classify o l start limit s = (.ok (.counterexample, states), t)) : l.Refuted := by
  obtain ⟨inPre, stuck, inPost, hclass, hfollows, hpreSorted, hpre, hpostSorted, hpost⟩ :=
    classify_follows ho hl hord h
  have hflags : inPre = true ∧ stuck = false ∧ inPost = false := by
    revert hclass
    cases inPre <;> cases stuck <;> cases inPost <;> simp [Class.ofFlags]
  obtain ⟨rfl, rfl, rfl⟩ := hflags
  refine ⟨states.length - 1, _, hfollows.run (hpre.mp rfl), ?_, ?_, hpreSorted,
    hfollows.sorted_cond, fun hn => hfollows.sorted_body (.inl (by omega)), hpostSorted⟩
  · rw [getD_last, ← hfollows.cond]
    simp
  · rw [getD_last, ← hpost]
    simp

/-- Every state of a run was asked about, so that it has a coordinate for each variable. -/
lemma walk_dim {start : Point} {limit left : ℕ} {seen states : List Point} {current : Point}
    {stuck : Bool} {s t : Oracle.State σ}
    (h : walk o l start limit left seen current s = (.ok (states, stuck), t))
    (hseen : ∀ p ∈ seen, p.dim = l.dim) : ∀ p ∈ states, p.dim = l.dim := by
  rw [walk.eq_def, Task.bind_eq_ok] at h
  obtain ⟨f, s₁, hask, h⟩ := h
  have hcurrent : current.dim = l.dim := (Loop.state_eq_ok (Task.ofResult_eq_ok.mp hask).1).1
  have hvisited : ∀ p ∈ current :: seen, p.dim = l.dim :=
    List.forall_mem_cons.mpr ⟨hcurrent, hseen⟩
  have hend : ∀ p ∈ (current :: seen).reverse, p.dim = l.dim :=
    fun p hp => hvisited p (List.mem_reverse.mp hp)
  obtain ⟨b, s₂, _, h⟩ := Task.bind_eq_ok.mp h
  cases b with
  | false =>
    have hstates := (Prod.mk.inj (Task.pure_eq_ok.mp h).1).1
    exact hstates ▸ hend
  | true =>
    cases left with
    | zero => exact absurd h Task.throw_eq_ok
    | succ left =>
      obtain ⟨a, s₃, _, h⟩ := Task.bind_eq_ok.mp h
      cases a with
      | none =>
        have hstates := (Prod.mk.inj (Task.pure_eq_ok.mp h).1).1
        exact hstates ▸ hend
      | some m => exact walk_dim h hvisited

lemma classify_dim {start : Point} {limit : ℕ} {c : Class} {states : List Point}
    {s t : Oracle.State σ} (h : classify o l start limit s = (.ok (c, states), t)) :
    ∀ p ∈ states, p.dim = l.dim := by
  rw [classify, Task.bind_eq_ok] at h
  obtain ⟨_, _, _, h⟩ := h
  obtain ⟨_, _, _, h⟩ := Task.bind_eq_ok.mp h
  obtain ⟨⟨visited, stuck⟩, _, hwalk, h⟩ := Task.bind_eq_ok.mp h
  obtain ⟨_, _, _, h⟩ := Task.bind_eq_ok.mp h
  obtain ⟨_, _, _, h⟩ := Task.bind_eq_ok.mp h
  have hstates := (Prod.mk.inj (Task.pure_eq_ok.mp h).1).2
  exact hstates ▸ walk_dim hwalk (by simp)

/-- What a class says of a run that leaves the loop, by whether the precondition holds at its start
and the postcondition at its end. -/
def Describes (pre post : Prop) : Class → Prop
  | .counterexample => pre ∧ ¬post
  | .positive => pre ∧ post
  | .negative => ¬pre ∧ ¬post
  | .undetermined => ¬pre ∧ post
  | .unknown => False

lemma describes_ofFlags {pre post : Prop} {inPre inPost : Bool} (hpre : inPre = true ↔ pre)
    (hpost : inPost = true ↔ post) : Describes pre post (.ofFlags inPre false inPost) := by
  rw [← hpre, ← hpost]
  cases inPre <;> cases inPost <;> simp [Class.ofFlags, Describes]

lemma ofFlags_stuck (inPre inPost : Bool) : Class.ofFlags inPre true inPost = .undetermined := by
  cases inPre <;> cases inPost <;> rfl

/-- States that were found with the built-in solver are those of a real run from the first of them.
It leaves the loop, and the class says how, or it is stuck for all integers and the class is
undetermined. -/
theorem run_of_classify {o : Oracle Unit} (ho : o.solver = .builtIn) (hl : l.Staged)
    (hord : l.Ordered) {start : Point} {limit : ℕ} {s : Oracle.State Unit} {c : Class}
    {states : List Point} (h : (classify o l start limit s).1 = .ok (c, states)) :
    (∃ rest, states = start :: rest) ∧ (∀ p ∈ states, p.dim = l.dim) ∧
      (states.IsChain fun p q => l.CondAt (l.ofPoint p) ∧ l.BodyAt (l.ofPoint p) (l.ofPoint q)) ∧
      l.SortedFor (states.length - 1) ∧
      ((¬l.CondAt (l.ofPoint (states.getLastD start)) ∧
          Describes (l.PreAt (l.ofPoint start)) (l.PostAt (l.ofPoint (states.getLastD start))) c) ∨
        (l.CondAt (l.ofPoint (states.getLastD start)) ∧ l.body.Sorted .formula ∧
          (∀ s', ¬l.BodyAt (l.ofPoint (states.getLastD start)) s') ∧ c = .undetermined)) := by
  have htruthful : o.solver.Truthful := ho ▸ Solver.builtIn_truthful
  have hc : classify o l start limit s = (.ok (c, states), (classify o l start limit s).2) :=
    Prod.ext h rfl
  obtain ⟨inPre, stuck, inPost, rfl, hfollows, hpreSorted, hpre, hpostSorted, hpost⟩ :=
    classify_follows htruthful hl hord hc
  have hsorted : l.SortedFor (states.length - 1) :=
    ⟨hpreSorted, hfollows.sorted_cond, fun hn => hfollows.sorted_body (.inl (by omega)), hpostSorted⟩
  refine ⟨hfollows.head, classify_dim hc, hfollows.chain, hsorted, ?_⟩
  cases stuck with
  | false =>
    left
    constructor
    · rw [← hfollows.cond]
      simp
    · exact describes_ofFlags hpre hpost
  | true =>
    right
    exact ⟨hfollows.cond.mp rfl, hfollows.sorted_body (.inr rfl), hfollows.last rfl,
      ofFlags_stuck inPre inPost⟩

/-- Goes up by one or two until five is reached, but not from three. -/
def stumbling : Loop where
  vars := [⟨"x", 1, 2⟩]
  pre := .cmp .ge Examples.x₁ (.int 0)
  cond := Examples.less Examples.x₁ 5
  body := .all [.cmp .gt Examples.x₂ Examples.x₁, .cmp .le Examples.x₂ (Examples.plus Examples.x₁ 2),
    .cmp .ne Examples.x₁ (.int 3)]
  post := .cmp .ge Examples.x₂ (.int 5)

theorem run_of_classify_stumbling :
    stumbling.Staged ∧ stumbling.Ordered ∧
    (classify ⟨.builtIn, 100, 0, 2⟩ stumbling ⟨[1]⟩ 10 ⟨(), 0⟩).1 =
      .ok (.undetermined, [⟨[1]⟩, ⟨[2]⟩, ⟨[3]⟩]) ∧
    stumbling.BodyAt (stumbling.ofPoint ⟨[2]⟩) (stumbling.ofPoint ⟨[3]⟩) ∧
    stumbling.CondAt (stumbling.ofPoint ⟨[3]⟩) ∧
    (∀ s', ¬stumbling.BodyAt (stumbling.ofPoint ⟨[3]⟩) s') ∧
    (classify ⟨.builtIn, 100, 0, 2⟩ stumbling ⟨[4]⟩ 10 ⟨(), 0⟩).1 =
      .ok (.positive, [⟨[4]⟩, ⟨[5]⟩]) ∧
    stumbling.PreAt (stumbling.ofPoint ⟨[4]⟩) ∧
    stumbling.BodyAt (stumbling.ofPoint ⟨[4]⟩) (stumbling.ofPoint ⟨[5]⟩) ∧
    stumbling.PostAt (stumbling.ofPoint ⟨[5]⟩) := by
  have hstaged : stumbling.Staged := by decide
  have hordered : stumbling.Ordered := by decide
  have hstuck : (classify ⟨.builtIn, 100, 0, 2⟩ stumbling ⟨[1]⟩ 10 ⟨(), 0⟩).1 =
      .ok (.undetermined, [⟨[1]⟩, ⟨[2]⟩, ⟨[3]⟩]) := by
    decide +kernel
  have hleaves : (classify ⟨.builtIn, 100, 0, 2⟩ stumbling ⟨[4]⟩ 10 ⟨(), 0⟩).1 =
      .ok (.positive, [⟨[4]⟩, ⟨[5]⟩]) := by
    decide +kernel
  obtain ⟨_, _, hchain, _, hend⟩ := run_of_classify rfl hstaged hordered hstuck
  obtain ⟨_, _, hchain', _, hend'⟩ := run_of_classify rfl hstaged hordered hleaves
  have hbody := (List.isChain_iff_getElem.mp hchain 1 (by decide)).2
  have hbody' := (List.isChain_iff_getElem.mp hchain' 0 (by decide)).2
  have hcond : stumbling.CondAt (stumbling.ofPoint ⟨[3]⟩) := by
    rw [CondAt, Holds]
    decide +kernel
  rcases hend with ⟨hout, _⟩ | ⟨_, _, hnone, _⟩
  · exact absurd hcond hout
  rcases hend' with ⟨_, hpre, hpost⟩ | ⟨_, _, _, hclass⟩
  · exact ⟨hstaged, hordered, hstuck, hbody, hcond, hnone, hleaves, hpre, hbody', hpost⟩
  · cases hclass

end LoopInvariant.Trace
