import LoopInvariant.Proofs.Loop
import LoopInvariant.Proofs.Model

/-! States read off models. A projection takes for each variable the copy with the lowest or the
highest index that the model has, which is the copy at the stage in question as long as the model
has no copies beyond it. -/
namespace LoopInvariant.Loop

variable {l : Loop} {m : Model} {i : Fin l.dim}

lemma compare_copy_after {v : StateVar} (h : v.pre < v.post) (stage : Stage) :
    compare (copy stage v) v.after ≠ .gt := by
  cases stage with
  | pre =>
    have hlt : compare v.before v.after = .lt := by
      change (compare v.name v.name).then (compare v.pre v.post) = .lt
      rw [Std.ReflOrd.compare_self, Nat.compare_eq_lt.mpr h]
      rfl
    simp [copy, hlt]
  | post => simp [copy, Std.ReflOrd.compare_self]

lemma length_project (pick : Pick) : (m.project l.names pick).coords.length = l.dim := by
  rw [Model.project, names, List.length_map, List.length_map, dim]

lemma ofPoint_project {pick : Pick} {v : Var} (hname : v.name = (l.vars.get i).name)
    (h : m.project [v.name] pick = ⟨[m.value v]⟩) :
    l.ofPoint (m.project l.names pick) i = m.valuation v := by
  have hlen : i.1 < (m.project l.names pick).coords.length := by
    rw [length_project]
    exact i.2
  have hcoord : (m.project l.names pick).coords[i.1] = m.value v := by
    rw [Model.project, Point.mk.injEq, List.map_singleton, List.singleton_inj, hname] at h
    rw [← h]
    simp only [Model.project, names, List.getElem_map]
    rfl
  rw [ofPoint, List.getD_eq_getElem _ _ hlen, hcoord, Model.valuation]

/-- In a model of formulas over the copies at a stage and after the body, the lowest copies are
those at the stage. -/
lemma ofPoint_lowest (hn : l.names.Nodup) (ho : l.Ordered) (hm : Var.Increasing m.vars)
    {stage : Stage} (hvars : m.vars ⊆ l.vars.map (copy stage) ++ l.vars.map StateVar.after)
    (hi : copy stage (l.vars.get i) ∈ m.vars) :
    l.ofPoint (m.project l.names .lowest) i = m.valuation (copy stage (l.vars.get i)) := by
  have hmem := l.vars.get_mem i
  have hmin : ∀ w ∈ m.vars, w.name = (copy stage (l.vars.get i)).name →
      compare w (copy stage (l.vars.get i)) ≠ .lt := by
    intro w hw hname
    rw [name_copy] at hname
    rcases List.mem_append.mp (hvars hw) with hw | hw
    · obtain ⟨v, hv, rfl⟩ := List.mem_map.mp hw
      rw [name_copy] at hname
      rw [eq_of_name_eq hn hv hmem hname, Std.ReflOrd.compare_self]
      simp
    · obtain ⟨v, hv, rfl⟩ := List.mem_map.mp hw
      rw [eq_of_name_eq hn hv hmem hname]
      exact fun hlt => compare_copy_after (ho _ hmem) stage (Std.OrientedCmp.gt_iff_lt.mpr hlt)
  refine ofPoint_project (name_copy stage _) ?_
  exact congrArg (fun n => Point.mk [n]) (Model.head?_copies hm hi hmin)

lemma ofPoint_highest (hn : l.names.Nodup) (ho : l.Ordered) (hm : Var.Increasing m.vars)
    (hvars : m.vars ⊆ l.vars.map StateVar.before ++ l.vars.map StateVar.after)
    (hi : (l.vars.get i).after ∈ m.vars) :
    l.ofPoint (m.project l.names .highest) i = m.valuation (l.vars.get i).after := by
  have hmem := l.vars.get_mem i
  have hmax : ∀ w ∈ m.vars, w.name = (l.vars.get i).after.name →
      compare w (l.vars.get i).after ≠ .gt := by
    intro w hw hname
    rcases List.mem_append.mp (hvars hw) with hw | hw
    · obtain ⟨v, hv, rfl⟩ := List.mem_map.mp hw
      rw [eq_of_name_eq hn hv hmem hname]
      exact compare_copy_after (ho _ hmem) .pre
    · obtain ⟨v, hv, rfl⟩ := List.mem_map.mp hw
      rw [eq_of_name_eq hn hv hmem hname]
      exact compare_copy_after (ho _ hmem) .post
  refine ofPoint_project rfl ?_
  exact congrArg (fun n => Point.mk [n]) (Model.getLast?_copies hm hi hmax)

end LoopInvariant.Loop
