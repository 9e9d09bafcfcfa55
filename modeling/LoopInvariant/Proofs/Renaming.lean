import LoopInvariant.Proofs.Loop
import LoopInvariant.Proofs.Model

/-! Renaming reads variables through a map. Renaming twice is renaming along both maps at once, and
only the images of variables that occur matter. So moving a formula from one copy of the program
variables to another and on to a third is moving it there directly. -/
namespace LoopInvariant

namespace Expr

variable {f g : Var → Var} {e : Expr}

lemma rename_rename (f g : Var → Var) (e : Expr) :
    (e.rename f).rename g = e.rename (g ∘ f) := by
  induction e with
  | join c args ih =>
    simp only [rename, renameAll_eq_map, List.map_map]
    exact congrArg (join c) (List.map_congr_left ih)
  | _ => simp_all [rename]

lemma rename_congr (h : ∀ v ∈ e.occurrences, f v = g v) : e.rename f = e.rename g := by
  induction e with
  | join c args ih =>
    simp only [occurrences, occurrencesAll_eq_flatMap, List.mem_flatMap] at h
    simp only [rename, renameAll_eq_map]
    refine congrArg (join c) (List.map_congr_left fun a ha => ?_)
    exact ih a ha fun v hv => h v ⟨a, ha, hv⟩
  | _ => simp_all [rename, occurrences]

lemma rename_id (e : Expr) : e.rename id = e := by
  induction e with
  | join c args ih =>
    have hargs : args.map (rename id) = args.map id := List.map_congr_left ih
    rw [rename, renameAll_eq_map, hargs, List.map_id]
  | _ => simp_all [rename]

lemma vars_rename (f : Var → Var) (e : Expr) : (e.rename f).vars = Var.sorted (e.vars.map f) := by
  apply (increasing_vars _).eq_of_mem_iff (Var.increasing_sorted _)
  intro v
  rw [mem_vars, occurrences_rename, Var.mem_sorted]
  simp only [List.mem_map, mem_vars]

end Expr

/-! ### Evaluation -/

namespace Model

/-- The outcome for a renamed expression beside that for the expression itself: the same result, the
same overflow, or the same part of the wrong kind, with its variables renamed. -/
inductive Alike (f : Var → Var) {α : Type} : Result α → Result α → Prop
  | ok (a : α) : Alike f (.ok a) (.ok a)
  | overflow (activity : String) :
      Alike f (.error (.error (.overflow activity))) (.error (.error (.overflow activity)))
  | sort (k : Kind) (e : Expr) :
      Alike f (.error (.error (.sort k (e.rename f).text))) (.error (.error (.sort k e.text)))

variable {f : Var → Var} {α β : Type}

lemma Alike.bind {x y : Result α} {g h : α → Result β} (hxy : Alike f x y)
    (hgh : ∀ a, Alike f (g a) (h a)) : Alike f (x >>= g) (y >>= h) := by
  cases hxy with
  | ok a => exact hgh a
  | overflow activity => exact .overflow activity
  | sort k e => exact .sort k e

lemma alike_orError (x : Option α) (activity : String) :
    Alike f (.orError x (.overflow activity)) (.orError x (.overflow activity)) := by
  cases x with
  | none => exact .overflow activity
  | some a => exact .ok a

variable {m m' : Model}

lemma alike_evalJoin (c : Connective) {args : List Expr}
    (h : ∀ e ∈ args, Alike f (m.evalBool (e.rename f)) (m'.evalBool e)) :
    Alike f (m.evalJoin c (args.map (Expr.rename f))) (m'.evalJoin c args) := by
  induction args with
  | nil => exact .ok c.unit
  | cons a as ih =>
    rw [List.forall_mem_cons] at h
    rw [List.map_cons, evalJoin, evalJoin]
    refine h.1.bind fun b => ?_
    split_ifs with hb
    · exact ih h.2
    · exact .ok b

lemma eval_rename (e : Expr) (h : ∀ v ∈ e.occurrences, m'.value v = m.value (f v)) :
    Alike f (m.evalInt (e.rename f)) (m'.evalInt e) ∧
      Alike f (m.evalBool (e.rename f)) (m'.evalBool e) := by
  induction e with
  | bool b => exact ⟨.sort .term (.bool b), .ok b⟩
  | int n => exact ⟨.ok n, .sort .formula (.int n)⟩
  | var v =>
    have hv : m'.value v = m.value (f v) := h v (by simp [Expr.occurrences])
    refine ⟨?_, .sort .formula (.var v)⟩
    rw [Expr.rename, evalInt, evalInt, hv]
    exact .ok _
  | neg a ih =>
    refine ⟨?_, .sort .formula (.neg a)⟩
    rw [Expr.rename, evalInt, evalInt]
    exact (ih h).1.bind fun x => alike_orError _ _
  | not a ih =>
    refine ⟨.sort .term (.not a), ?_⟩
    rw [Expr.rename, evalBool, evalBool]
    exact (ih h).2.bind fun x => .ok _
  | arith op a b iha ihb =>
    rw [Expr.occurrences, List.forall_mem_append] at h
    refine ⟨?_, .sort .formula (.arith op a b)⟩
    rw [Expr.rename, evalInt, evalInt]
    exact (iha h.1).1.bind fun x => (ihb h.2).1.bind fun y => alike_orError _ _
  | implies a b iha ihb =>
    rw [Expr.occurrences, List.forall_mem_append] at h
    refine ⟨.sort .term (.implies a b), ?_⟩
    rw [Expr.rename, evalBool, evalBool]
    refine (iha h.1).2.bind fun x => ?_
    cases x with
    | true => exact (ihb h.2).2
    | false => exact .ok true
  | cmp op a b iha ihb =>
    rw [Expr.occurrences, List.forall_mem_append] at h
    refine ⟨.sort .term (.cmp op a b), ?_⟩
    rw [Expr.rename, evalBool, evalBool]
    exact (iha h.1).1.bind fun x => (ihb h.2).1.bind fun y => .ok _
  | join c args ih =>
    rw [Expr.occurrences, Expr.occurrencesAll_eq_flatMap] at h
    refine ⟨.sort .term (.join c args), ?_⟩
    rw [Expr.rename, Expr.renameAll_eq_map, evalBool, evalBool]
    refine alike_evalJoin c fun a ha => (ih a ha fun v hv => ?_).2
    exact h v (List.mem_flatMap.mpr ⟨a, ha, hv⟩)
  | ite c t e ihc iht ihe =>
    rw [Expr.occurrences, List.forall_mem_append, List.forall_mem_append] at h
    have hc := (ihc h.1.1).2
    have ht := iht h.1.2
    have he := ihe h.2
    rw [Expr.rename, evalInt, evalInt, evalBool, evalBool]
    refine ⟨hc.bind fun x => ?_, hc.bind fun x => ?_⟩
    · cases x with
      | true => exact ht.1
      | false => exact he.1
    · cases x with
      | true => exact ht.2
      | false => exact he.2

end Model

/-! ### Copies of the program variables -/

namespace Loop

variable {l : Loop} {source middle target : StateVar → Var} {f : Var → Var} {e : Expr}

/-- To move an expression that speaks of one copy only is to rename it along any map that takes this
copy of each variable to the other one. -/
lemma move_eq_rename (hn : l.names.Nodup) (hsource : ∀ v, (source v).name = v.name)
    (he : e.occurrences ⊆ l.vars.map source) (hf : ∀ v ∈ l.vars, f (source v) = target v) :
    l.move source target e = e.rename f := by
  refine Expr.rename_congr fun u hu => ?_
  obtain ⟨v, hv, rfl⟩ := List.mem_map.mp (he hu)
  rw [replace_source hn hsource hv, hf v hv]

lemma move_move (hn : l.names.Nodup) (hsource : ∀ v, (source v).name = v.name)
    (hmiddle : ∀ v, (middle v).name = v.name) (he : e.occurrences ⊆ l.vars.map source) :
    l.move middle target (l.move source middle e) = l.move source target e := by
  have hcomp : l.move middle target (l.move source middle e) = e.rename _ :=
    Expr.rename_rename _ _ e
  rw [hcomp]
  refine (move_eq_rename hn hsource he fun v hv => ?_).symm
  rw [Function.comp_apply, replace_source hn hsource hv, replace_source hn hmiddle hv]

lemma move_self (hn : l.names.Nodup) (hsource : ∀ v, (source v).name = v.name)
    (he : e.occurrences ⊆ l.vars.map source) : l.move source source e = e := by
  rw [move_eq_rename hn hsource he fun v hv => id_eq (source v), Expr.rename_id]

end Loop

namespace Expr

/-- The second expression is the first one with its variables read through the map. -/
structure Renames (f : Var → Var) (e e' : Expr) : Prop where
  value : ∀ ρ : Valuation, e'.value ρ = e.value (ρ ∘ f)
  truth : ∀ ρ : Valuation, e'.truth ρ = e.truth (ρ ∘ f)
  evalInt : ∀ m m' : Model, (∀ v ∈ e.vars, m'.value v = m.value (f v)) →
    Model.Alike f (m.evalInt e') (m'.evalInt e)
  evalBool : ∀ m m' : Model, (∀ v ∈ e.vars, m'.value v = m.value (f v)) →
    Model.Alike f (m.evalBool e') (m'.evalBool e)
  vars : e'.vars = Var.sorted (e.vars.map f)

lemma renames_rename (f : Var → Var) (e : Expr) : Renames f e (e.rename f) where
  value ρ := (meaning_rename f ρ e).1
  truth ρ := (meaning_rename f ρ e).2
  evalInt _ _ h := (Model.eval_rename e fun v hv => h v (mem_vars.mpr hv)).1
  evalBool _ _ h := (Model.eval_rename e fun v hv => h v (mem_vars.mpr hv)).2
  vars := vars_rename f e

/-- Renaming reads the variables through the map, in exact arithmetic and in every model. Between
the plain variables and their copies the renamings of a loop take each variable to its own copy,
they undo each other, and they can be done one after the other. -/
theorem rename_faithful (e : Expr) :
    (∀ f, Renames f e (e.rename f)) ∧
    ∀ l : Loop, l.names.Nodup →
      (e.vars ⊆ l.plainVars →
        (∀ f, (∀ v ∈ l.vars, f v.plain = v.before) → l.toPre e = e.rename f) ∧
        (∀ f, (∀ v ∈ l.vars, f v.plain = v.after) → l.toPost e = e.rename f) ∧
        l.ofPre (l.toPre e) = e ∧ l.preToPost (l.toPre e) = l.toPost e) ∧
      (e.vars ⊆ l.vars.map StateVar.before →
        (∀ f, (∀ v ∈ l.vars, f v.before = v.plain) → l.ofPre e = e.rename f) ∧
        l.toPre (l.ofPre e) = e) := by
  have hplain (v : StateVar) : v.plain.name = v.name := rfl
  have hbefore (v : StateVar) : v.before.name = v.name := rfl
  refine ⟨fun f => renames_rename f e, fun l hn => ⟨fun hvars => ?_, fun hvars => ?_⟩⟩
  · have he : e.occurrences ⊆ l.plainVars := fun v hv => hvars (mem_vars.mpr hv)
    refine ⟨fun f => Loop.move_eq_rename hn hplain he, fun f => Loop.move_eq_rename hn hplain he,
      ?_, Loop.move_move hn hplain hbefore he⟩
    exact (Loop.move_move hn hplain hbefore he).trans (Loop.move_self hn hplain he)
  · have he : e.occurrences ⊆ l.vars.map StateVar.before := fun v hv => hvars (mem_vars.mpr hv)
    refine ⟨fun f => Loop.move_eq_rename hn hbefore he, ?_⟩
    exact (Loop.move_move hn hbefore hplain he).trans (Loop.move_self hn hbefore he)

/-- A loop in which the copies of one variable before and after the body are the same, while the
name of the other one reads like a copy of the first. -/
def confusable : Loop where
  vars := [⟨"x", 1, 1⟩, ⟨"x@1", 0, 2⟩]
  pre := .bool true
  cond := .bool true
  body := .bool true
  post := .bool true

def between : Expr :=
  .cmp .le (.ite (.cmp .lt (.var ⟨"x", none⟩) (.int 0)) (.int 0) (.var ⟨"x", none⟩))
    (.arith .add (.var ⟨"x@1", none⟩) (.int 16))

theorem rename_faithful_between :
    confusable.names.Nodup ∧ between.vars ⊆ confusable.plainVars ∧
    confusable.ofPre (confusable.toPre between) = between ∧
    confusable.preToPost (confusable.toPre between) = confusable.toPost between ∧
    (confusable.toPre between).vars ⊆ confusable.vars.map StateVar.before ∧
    confusable.toPre (confusable.ofPre (confusable.toPre between)) = confusable.toPre between := by
  have hn : confusable.names.Nodup := by decide
  have hplain : between.vars ⊆ confusable.plainVars := by decide
  have hbefore : (confusable.toPre between).vars ⊆ confusable.vars.map StateVar.before := by decide
  obtain ⟨-, -, hback, hon⟩ := ((rename_faithful between).2 confusable hn).1 hplain
  exact ⟨hn, hplain, hback, hon, hbefore,
    (((rename_faithful (confusable.toPre between)).2 confusable hn).2 hbefore).2⟩

end Expr

end LoopInvariant
