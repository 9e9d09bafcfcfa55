import LoopInvariant.Loop
import LoopInvariant.Proofs.Meaning
import LoopInvariant.Proofs.Outcome

/-! The runs of a loop over exact integer states. A formula over one copy of the variables is a
predicate on states, and the body is a relation between two of them. Moving a formula to another
copy does not change the predicate. -/
namespace LoopInvariant

lemma Var.replace_of_mem {pairs : List (Var × Var)} (hp : (pairs.map (·.1)).Nodup) {v w : Var}
    (h : (v, w) ∈ pairs) : Var.replace pairs v = w := by
  unfold replace
  cases hf : pairs.reverse.find? (·.1 = v) with
  | none =>
    have := List.find?_eq_none.mp hf (v, w) (List.mem_reverse.mpr h)
    simp at this
  | some p =>
    have hkey : p.1 = v := by simpa using List.find?_some hf
    have hmem : p ∈ pairs := List.mem_reverse.mp (List.mem_of_find?_eq_some hf)
    rw [List.inj_on_of_nodup_map hp hmem h hkey]

namespace Loop

/-- Exact values of the program variables, in their order. -/
abbrev State (l : Loop) := Fin l.dim → ℤ

/-- The valuation gives the copies of the variables their values in the state. -/
def Reads (l : Loop) (copy : StateVar → Var) (s : l.State) (ρ : Valuation) : Prop :=
  ∀ i : Fin l.dim, ρ (copy (l.vars.get i)) = s i

def assign (l : Loop) (copy : StateVar → Var) (s : l.State) (ρ : Valuation) : Valuation := fun v =>
  match (List.finRange l.dim).find? fun i => copy (l.vars.get i) = v with
  | some i => s i
  | none => ρ v

/-- A state as the values of one copy of the variables. All other variables are zero. -/
def reading (l : Loop) (copy : StateVar → Var) (s : l.State) : Valuation :=
  l.assign copy s fun _ => 0

/-- The predicate on states that a formula over one copy of the variables stands for. -/
def Holds (l : Loop) (copy : StateVar → Var) (e : Expr) (s : l.State) : Prop :=
  e.truth (l.reading copy s) = true

def PreAt (l : Loop) (s : l.State) : Prop := l.Holds StateVar.before l.pre s
def CondAt (l : Loop) (s : l.State) : Prop := l.Holds StateVar.before l.cond s
def PostAt (l : Loop) (s : l.State) : Prop := l.Holds StateVar.after l.post s

/-- One pass of the body can lead from the first state to the second. -/
def BodyAt (l : Loop) (s s' : l.State) : Prop :=
  ∃ ρ, l.Reads StateVar.before s ρ ∧ l.Reads StateVar.after s' ρ ∧ l.body.truth ρ = true

structure Run (l : Loop) (n : ℕ) (s : ℕ → l.State) : Prop where
  pre : l.PreAt (s 0)
  cond : ∀ i < n, l.CondAt (s i)
  body : ∀ i < n, l.BodyAt (s i) (s (i + 1))

/-- The formulas that a run of `n` passes depends on are well sorted. -/
structure SortedFor (l : Loop) (n : ℕ) : Prop where
  pre : l.pre.Sorted .formula
  cond : l.cond.Sorted .formula
  body : 0 < n → l.body.Sorted .formula
  post : l.post.Sorted .formula

/-- Some run leaves the loop outside the postcondition. -/
def Refuted (l : Loop) : Prop :=
  ∃ n s, l.Run n s ∧ ¬l.CondAt (s n) ∧ ¬l.PostAt (s n) ∧ l.SortedFor n

/-- The names are distinct, and every formula speaks only of the copies it may speak of. -/
structure Scoped (l : Loop) : Prop where
  names : l.names.Nodup
  pre : l.pre.occurrences ⊆ l.vars.map StateVar.before
  cond : l.cond.occurrences ⊆ l.vars.map StateVar.before
  body : l.body.occurrences ⊆ l.vars.map StateVar.before ++ l.vars.map StateVar.after
  post : l.post.occurrences ⊆ l.vars.map StateVar.after
  paths : ∀ p ∈ l.paths, p.occurrences ⊆ l.vars.map StateVar.before

instance (l : Loop) : Decidable l.Scoped :=
  decidable_of_iff (l.names.Nodup ∧ l.pre.occurrences ⊆ l.vars.map StateVar.before ∧
      l.cond.occurrences ⊆ l.vars.map StateVar.before ∧
      l.body.occurrences ⊆ l.vars.map StateVar.before ++ l.vars.map StateVar.after ∧
      l.post.occurrences ⊆ l.vars.map StateVar.after ∧
      ∀ p ∈ l.paths, p.occurrences ⊆ l.vars.map StateVar.before)
    ⟨fun h => ⟨h.1, h.2.1, h.2.2.1, h.2.2.2.1, h.2.2.2.2.1, h.2.2.2.2.2⟩,
      fun h => ⟨h.names, h.pre, h.cond, h.body, h.post, h.paths⟩⟩

/-- The names are distinct, and the formulas of a pass speak only of the copies at their stages. -/
structure Staged (l : Loop) : Prop where
  names : l.names.Nodup
  pre : l.pre.occurrences ⊆ l.vars.map StateVar.before
  cond : l.cond.occurrences ⊆ l.vars.map StateVar.before
  body : l.body.occurrences ⊆ l.vars.map StateVar.before ++ l.vars.map StateVar.after
  post : l.post.occurrences ⊆ l.vars.map StateVar.after

instance (l : Loop) : Decidable l.Staged :=
  decidable_of_iff (l.names.Nodup ∧ l.pre.occurrences ⊆ l.vars.map StateVar.before ∧
      l.cond.occurrences ⊆ l.vars.map StateVar.before ∧
      l.body.occurrences ⊆ l.vars.map StateVar.before ++ l.vars.map StateVar.after ∧
      l.post.occurrences ⊆ l.vars.map StateVar.after)
    ⟨fun h => ⟨h.1, h.2.1, h.2.2.1, h.2.2.2.1, h.2.2.2.2⟩,
      fun h => ⟨h.names, h.pre, h.cond, h.body, h.post⟩⟩

lemma Scoped.staged {l : Loop} (h : l.Scoped) : l.Staged :=
  ⟨h.names, h.pre, h.cond, h.body, h.post⟩

/-- The copy after the body has the greater index. -/
def Ordered (l : Loop) : Prop := ∀ v ∈ l.vars, v.pre < v.post

instance (l : Loop) : Decidable l.Ordered := inferInstanceAs (Decidable (∀ v ∈ l.vars, _))

lemma length_plainVars {l : Loop} : l.plainVars.length = l.dim := by
  rw [plainVars, List.length_map, dim]

section Copies

variable {l : Loop} {copy source target : StateVar → Var} {s : l.State} {ρ ρ' : Valuation}
  {e : Expr}

lemma eq_of_name_eq (hn : l.names.Nodup) {v w : StateVar} (hv : v ∈ l.vars) (hw : w ∈ l.vars)
    (h : v.name = w.name) : v = w :=
  List.inj_on_of_nodup_map hn hv hw h

lemma before_ne_after (hn : l.names.Nodup) (ho : l.Ordered) {v w : StateVar} (hv : v ∈ l.vars)
    (hw : w ∈ l.vars) : v.before ≠ w.after := by
  intro h
  have hname : v.name = w.name := congrArg Var.name h
  have hindex : some v.pre = some w.post := congrArg Var.index h
  rw [eq_of_name_eq hn hv hw hname, Option.some_inj] at hindex
  have := ho w hw
  omega

lemma get_injective (hn : l.names.Nodup) : Function.Injective fun i : Fin l.dim => l.vars.get i :=
  List.nodup_iff_injective_get.mp (List.Nodup.of_map _ hn)

lemma reads_assign (hn : l.names.Nodup) (hcopy : ∀ v, (copy v).name = v.name) (s : l.State)
    (ρ : Valuation) : l.Reads copy s (l.assign copy s ρ) := by
  intro i
  unfold assign
  cases h : (List.finRange l.dim).find? fun j => copy (l.vars.get j) = copy (l.vars.get i) with
  | none =>
    have := List.find?_eq_none.mp h i (List.mem_finRange i)
    simp at this
  | some j =>
    have hj : copy (l.vars.get j) = copy (l.vars.get i) := by simpa using List.find?_some h
    have hname : (l.vars.get j).name = (l.vars.get i).name := by rw [← hcopy, hj, hcopy]
    have hget := eq_of_name_eq hn (l.vars.get_mem j) (l.vars.get_mem i) hname
    rw [get_injective hn hget]

lemma assign_of_notMem {v : Var} (h : v ∉ l.vars.map copy) : l.assign copy s ρ v = ρ v := by
  unfold assign
  cases hf : (List.finRange l.dim).find? fun j => copy (l.vars.get j) = v with
  | none => rfl
  | some j =>
    have hj : copy (l.vars.get j) = v := by simpa using List.find?_some hf
    exact absurd (hj ▸ List.mem_map_of_mem (l.vars.get_mem j)) h

/-- A formula does not notice that a copy is set to the values it has wherever it is mentioned. -/
lemma truth_assign (hn : l.names.Nodup) (hcopy : ∀ v, (copy v).name = v.name)
    (h : ∀ i, copy (l.vars.get i) ∈ e.occurrences → s i = ρ (copy (l.vars.get i))) :
    e.truth (l.assign copy s ρ) = e.truth ρ := by
  refine Expr.truth_congr fun v hv => ?_
  by_cases hmem : v ∈ l.vars.map copy
  · obtain ⟨w, hw, rfl⟩ := List.mem_map.mp hmem
    obtain ⟨i, rfl⟩ := List.get_of_mem hw
    rw [reads_assign hn hcopy s ρ i]
    exact h i hv
  · exact assign_of_notMem hmem

lemma reads_reading (hn : l.names.Nodup) (hcopy : ∀ v, (copy v).name = v.name) (s : l.State) :
    l.Reads copy s (l.reading copy s) :=
  reads_assign hn hcopy s _

lemma truth_eq_of_reads (he : e.occurrences ⊆ l.vars.map copy) (h : l.Reads copy s ρ)
    (h' : l.Reads copy s ρ') : e.truth ρ = e.truth ρ' := by
  refine Expr.truth_congr fun v hv => ?_
  obtain ⟨w, hw, rfl⟩ := List.mem_map.mp (he hv)
  obtain ⟨i, rfl⟩ := List.get_of_mem hw
  exact (h i).trans (h' i).symm

lemma holds_iff (hn : l.names.Nodup) (hcopy : ∀ v, (copy v).name = v.name)
    (he : e.occurrences ⊆ l.vars.map copy) (h : l.Reads copy s ρ) :
    l.Holds copy e s ↔ e.truth ρ = true := by
  rw [Holds, truth_eq_of_reads he (reads_reading hn hcopy s) h]

lemma nodup_copies (hn : l.names.Nodup) (hcopy : ∀ v, (copy v).name = v.name) :
    (l.vars.map copy).Nodup := by
  have hnames : (l.vars.map copy).map Var.name = l.names := by
    simp [names, hcopy]
  exact List.Nodup.of_map Var.name (hnames ▸ hn)

lemma replace_source (hn : l.names.Nodup) (hsource : ∀ v, (source v).name = v.name)
    {v : StateVar} (hv : v ∈ l.vars) :
    Var.replace (l.vars.map fun w => (source w, target w)) (source v) = target v := by
  apply Var.replace_of_mem
  · rw [List.map_map]
    exact nodup_copies hn hsource
  · exact List.mem_map_of_mem hv

lemma truth_move (hn : l.names.Nodup) (hsource : ∀ v, (source v).name = v.name)
    (he : e.occurrences ⊆ l.vars.map source) (h : l.Reads target s ρ) :
    (l.move source target e).truth ρ = true ↔ l.Holds source e s := by
  have hreads : l.Reads source s (ρ ∘ Var.replace (l.vars.map fun w => (source w, target w))) := by
    intro i
    rw [Function.comp_apply, replace_source hn hsource (l.vars.get_mem i)]
    exact h i
  rw [move, Expr.truth_rename, holds_iff hn hsource he hreads]

lemma truth_toPre (hn : l.names.Nodup) (he : e.occurrences ⊆ l.plainVars)
    (h : l.Reads StateVar.before s ρ) :
    (l.toPre e).truth ρ = true ↔ l.Holds StateVar.plain e s :=
  truth_move hn (fun _ => rfl) he h

lemma truth_toPost (hn : l.names.Nodup) (he : e.occurrences ⊆ l.plainVars)
    (h : l.Reads StateVar.after s ρ) :
    (l.toPost e).truth ρ = true ↔ l.Holds StateVar.plain e s :=
  truth_move hn (fun _ => rfl) he h

lemma map_reading (hn : l.names.Nodup) (s : l.State) :
    l.plainVars.map (l.reading StateVar.plain s) = List.ofFn s := by
  have hreads : l.Reads StateVar.plain s (l.reading StateVar.plain s) :=
    reads_reading hn (fun _ => rfl) s
  rw [plainVars, List.map_map]
  conv_lhs => rw [← List.ofFn_get l.vars]
  rw [List.map_ofFn]
  exact congrArg List.ofFn (funext hreads)

lemma sorted_move {k : Kind} : (l.move source target e).Sorted k ↔ e.Sorted k :=
  Expr.sorted_rename _ e

lemma occurrences_move (hn : l.names.Nodup) (hsource : ∀ v, (source v).name = v.name)
    (he : e.occurrences ⊆ l.vars.map source) :
    (l.move source target e).occurrences ⊆ l.vars.map target := by
  rw [move, Expr.occurrences_rename]
  intro v hv
  obtain ⟨u, hu, rfl⟩ := List.mem_map.mp hv
  obtain ⟨w, hw, rfl⟩ := List.mem_map.mp (he hu)
  rw [replace_source hn hsource hw]
  exact List.mem_map_of_mem hw

end Copies

/-! ### Points as states -/

def ofPoint (l : Loop) (p : Point) : l.State := fun i => (p.coords.getD i 0).toInt

lemma name_copy (stage : Stage) (v : StateVar) : (copy stage v).name = v.name := by
  cases stage <;> rfl

lemma state_eq_ok {l : Loop} {p : Point} {stage : Stage} {f : Expr}
    (h : l.state p stage = .ok f) : p.coords.length = l.vars.length ∧
      f = .all (List.zipWith (fun v x => .cmp .eq (.var (copy stage v)) (.int x)) l.vars
        p.coords) := by
  unfold state at h
  split_ifs at h with hdim
  rw [Except.ok.injEq] at h
  exact ⟨hdim, h.symm⟩

lemma occurrences_state {l : Loop} {p : Point} {stage : Stage} {f : Expr}
    (h : l.state p stage = .ok f) : f.occurrences = l.vars.map (copy stage) := by
  obtain ⟨hlen, rfl⟩ := state_eq_ok h
  rw [Expr.all, Expr.occurrences_gather]
  generalize p.coords = xs, l.vars = vs at hlen
  induction vs generalizing xs with
  | nil => simp
  | cons v vs ih =>
    cases xs with
    | nil => simp at hlen
    | cons x xs =>
      rw [List.zipWith_cons_cons, List.flatMap_cons, List.map_cons, ih xs (by simpa using hlen)]
      rfl

lemma truth_state {l : Loop} {p : Point} {stage : Stage} {f : Expr}
    (h : l.state p stage = .ok f) (ρ : Valuation) :
    f.truth ρ = true ↔ l.Reads (copy stage) (l.ofPoint p) ρ := by
  obtain ⟨hlen, rfl⟩ := state_eq_ok h
  have hvalue (v : StateVar) (x : Int64) :
      (Expr.cmp .eq (.var (copy stage v)) (.int x)).truth ρ = true ↔
        ρ (copy stage v) = x.toInt := by
    rw [Expr.truth]
    exact decide_eq_true_iff
  rw [Expr.truth_all, List.all_eq_true]
  constructor
  · intro hall i
    have hi : i.1 < p.coords.length := hlen ▸ i.2
    have hmem : Expr.cmp .eq (.var (copy stage (l.vars.get i))) (.int p.coords[i.1]) ∈
        List.zipWith (fun v x => .cmp .eq (.var (copy stage v)) (.int x)) l.vars p.coords := by
      rw [List.mem_iff_getElem]
      exact ⟨i.1, by simpa using ⟨i.2, hi⟩, List.getElem_zipWith⟩
    rw [(hvalue _ _).mp (hall _ hmem), ofPoint, List.getD_eq_getElem _ _ hi]
  · intro hreads e he
    obtain ⟨i, hi, rfl⟩ := List.mem_iff_getElem.mp he
    rw [List.length_zipWith, lt_min_iff] at hi
    have hcoord := hreads ⟨i, hi.1⟩
    rw [ofPoint, List.getD_eq_getElem _ _ hi.2] at hcoord
    rw [List.getElem_zipWith, hvalue]
    exact hcoord

/-! ### Invariants -/

/-- A set of states that contains the start of every run, that passes of the body do not leave,
and in which the postcondition holds at the exit. -/
structure Invariant (l : Loop) (I : l.State → Prop) : Prop where
  initiation : ∀ s, l.PreAt s → I s
  consecution : ∀ s s', I s → l.CondAt s → l.BodyAt s s' → I s'
  exit : ∀ s, I s → ¬l.CondAt s → l.PostAt s

variable {l : Loop} {I : l.State → Prop}

lemma Invariant.run (h : l.Invariant I) {n : ℕ} {s : ℕ → l.State} (hs : l.Run n s) :
    ∀ i ≤ n, I (s i) := by
  intro i
  induction i with
  | zero => exact fun _ => h.initiation (s 0) hs.pre
  | succ i ih =>
    intro hi
    have hlt : i < n := by omega
    exact h.consecution (s i) (s (i + 1)) (ih hlt.le) (hs.cond i hlt) (hs.body i hlt)

end Loop
end LoopInvariant
