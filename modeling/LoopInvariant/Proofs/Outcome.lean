import Mathlib
import LoopInvariant.Failure

/-! Taking computations apart: what it means that a computation gave a result, and where repeating
a step leads. -/
namespace LoopInvariant

variable {α β γ ε S T : Type}

namespace Result

lemma bind_eq_ok {x : Except ε α} {f : α → Except ε β} {b : β} :
    (x >>= f) = .ok b ↔ ∃ a, x = .ok a ∧ f a = .ok b := by
  cases x <;> simp [bind, Except.bind]

lemma bind_of_ok {x : Except ε α} {f : α → Except ε β} {a : α} (h : x = .ok a) :
    (x >>= f) = f a := by
  rw [h]
  rfl

lemma bind_of_error {x : Except ε α} {f : α → Except ε β} {e : ε} (h : x = .error e) :
    (x >>= f) = .error e := by
  rw [h]
  rfl

lemma map_eq_ok {x : Except ε α} {f : α → β} {b : β} :
    (f <$> x) = .ok b ↔ ∃ a, x = .ok a ∧ f a = b := by
  cases x <;> simp [Functor.map, Except.map]

lemma map_eq_error {x : Except ε α} {f : α → β} {e : ε} : (f <$> x) = .error e ↔ x = .error e := by
  cases x <;> simp [Functor.map, Except.map]

lemma pure_eq_ok {a b : α} : (pure a : Except ε α) = .ok b ↔ a = b := by
  simp [pure, Except.pure]

lemma orError_eq_ok {x : Option α} {e : Error} {a : α} : orError x e = .ok a ↔ x = some a := by
  cases x <;> simp [orError]

lemma orFault_eq_ok {x : Option α} {f : Fault} {a : α} : orFault x f = .ok a ↔ x = some a := by
  cases x <;> simp [orFault]

lemma mapM_eq_ok {f : α → Except ε β} {xs : List α} {ys : List β} (h : xs.mapM f = .ok ys) :
    List.Forall₂ (fun x y => f x = .ok y) xs ys := by
  induction xs generalizing ys with
  | nil =>
    rw [List.mapM_nil, pure_eq_ok] at h
    exact h ▸ .nil
  | cons x xs ih =>
    rw [List.mapM_cons, bind_eq_ok] at h
    obtain ⟨y, hy, h⟩ := h
    obtain ⟨zs, hzs, h⟩ := bind_eq_ok.mp h
    rw [pure_eq_ok] at h
    exact h ▸ .cons hy (ih hzs)

lemma forall_of_mapM {f : α → Except ε β} {xs : List α} {ys : List β} (h : xs.mapM f = .ok ys)
    {p : α → Prop} (hp : ∀ x ∈ xs, ∀ y, f x = .ok y → p x) : ∀ x ∈ xs, p x := by
  have hall := mapM_eq_ok h
  clear h
  induction hall with
  | nil => simp
  | @cons x y xs ys hxy _ ih =>
    intro z hz
    rcases List.mem_cons.mp hz with rfl | hz
    · exact hp z (by simp) y hxy
    · exact ih (fun x hx => hp x (by simp [hx])) z hz

lemma exists_of_mem_mapM {f : α → Except ε β} {xs : List α} {ys : List β}
    (h : xs.mapM f = .ok ys) {y : β} (hy : y ∈ ys) : ∃ x ∈ xs, f x = .ok y := by
  have hall := mapM_eq_ok h
  clear h
  induction hall with
  | nil => simp at hy
  | @cons x z xs ys hxz _ ih =>
    rcases List.mem_cons.mp hy with rfl | hy
    · exact ⟨x, by simp, hxz⟩
    · obtain ⟨w, hw, hwy⟩ := ih hy
      exact ⟨w, by simp [hw], hwy⟩

lemma map_of_mapM {f : α → Except ε β} {xs : List α} {ys : List β} (h : xs.mapM f = .ok ys)
    {g : β → γ} {k : α → γ} (hg : ∀ x ∈ xs, ∀ y, f x = .ok y → g y = k x) :
    ys.map g = xs.map k := by
  have hall := mapM_eq_ok h
  clear h
  induction hall with
  | nil => rfl
  | @cons x y xs ys hxy _ ih =>
    rw [List.map_cons, List.map_cons, hg x (by simp) y hxy,
      ih fun x hx => hg x (by simp [hx])]

lemma exists_of_mem_mapM_some {f : α → Option β} {xs : List α} {ys : List β}
    (h : xs.mapM f = some ys) {y : β} (hy : y ∈ ys) : ∃ x ∈ xs, f x = some y := by
  induction xs generalizing ys with
  | nil =>
    rw [List.mapM_nil, Option.pure_def, Option.some_inj] at h
    rw [← h] at hy
    cases hy
  | cons x xs ih =>
    rw [List.mapM_cons, Option.bind_eq_bind, Option.bind_eq_some_iff] at h
    obtain ⟨z, hz, h⟩ := h
    rw [Option.bind_eq_bind, Option.bind_eq_some_iff] at h
    obtain ⟨zs, hzs, h⟩ := h
    rw [Option.pure_def, Option.some_inj] at h
    rw [← h] at hy
    rcases List.mem_cons.mp hy with rfl | hy
    · exact ⟨x, by simp, hz⟩
    · obtain ⟨w, hw, hwy⟩ := ih hzs hy
      exact ⟨w, by simp [hw], hwy⟩

lemma mapM_eq_some {f : α → Option β} {g : α → β} {xs : List α}
    (h : ∀ x ∈ xs, f x = some (g x)) : xs.mapM f = some (xs.map g) := by
  induction xs with
  | nil => rfl
  | cons x xs ih =>
    rw [List.forall_mem_cons] at h
    rw [List.mapM_cons, h.1, ih h.2]
    rfl

def FailsOnly (x : Except ε α) (p : ε → Prop) : Prop := ∀ e, x = .error e → p e

section FailsOnly

variable {x : Except ε α} {p q : ε → Prop}

lemma failsOnly_ok (a : α) : FailsOnly (.ok a) p := by
  intro e h
  cases h

lemma failsOnly_error {e : ε} (h : p e) : FailsOnly (.error e : Except ε α) p := by
  intro e' h'
  cases h'
  exact h

lemma FailsOnly.imp (hx : FailsOnly x p) (h : ∀ e, p e → q e) : FailsOnly x q :=
  fun e he => h e (hx e he)

lemma FailsOnly.bind {f : α → Except ε β} (hx : FailsOnly x p) (hf : ∀ a, FailsOnly (f a) p) :
    FailsOnly (x >>= f) p := by
  cases x with
  | error e => exact failsOnly_error (hx e rfl)
  | ok a => exact hf a

lemma FailsOnly.mapM {f : α → Except ε β} {xs : List α} (h : ∀ x ∈ xs, FailsOnly (f x) p) :
    FailsOnly (xs.mapM f) p := by
  induction xs with
  | nil => exact failsOnly_ok []
  | cons x xs ih =>
    rw [List.forall_mem_cons] at h
    rw [List.mapM_cons]
    exact h.1.bind fun y => (ih h.2).bind fun ys => failsOnly_ok (y :: ys)

lemma failsOnly_orError {o : Option α} {e : Error} {p : Failure → Prop} (h : p (.error e)) :
    FailsOnly (orError o e) p := by
  cases o with
  | none => exact failsOnly_error h
  | some a => exact failsOnly_ok a

lemma failsOnly_orFault {o : Option α} {f : Fault} {p : Failure → Prop} (h : p (.fault f)) :
    FailsOnly (orFault o f) p := by
  cases o with
  | none => exact failsOnly_error h
  | some a => exact failsOnly_ok a

end FailsOnly

lemma exists_of_forall₂_left {R : α → β → Prop} {xs : List α} {ys : List β}
    (h : List.Forall₂ R xs ys) {x : α} (hx : x ∈ xs) : ∃ y ∈ ys, R x y := by
  induction h with
  | nil => cases hx
  | @cons a b xs ys hab _ ih =>
    rcases List.mem_cons.mp hx with rfl | hx
    · exact ⟨b, by simp, hab⟩
    · obtain ⟨y, hy, hxy⟩ := ih hx
      exact ⟨y, by simp [hy], hxy⟩

lemma exists_of_forall₂_right {R : α → β → Prop} {xs : List α} {ys : List β}
    (h : List.Forall₂ R xs ys) {y : β} (hy : y ∈ ys) : ∃ x ∈ xs, R x y :=
  exists_of_forall₂_left h.flip hy

/-- A result is as the second predicate says, and a failure as the first one says. -/
def Ensures (x : Except ε α) (p : ε → Prop) (q : α → Prop) : Prop :=
  match x with
  | .ok a => q a
  | .error e => p e

section Ensures

variable {x : Except ε α} {p p' : ε → Prop} {q q' : α → Prop}

lemma FailsOnly.ensures (h : FailsOnly x p) (hq : ∀ a, x = .ok a → q a) : Ensures x p q := by
  cases x with
  | error e => exact h e rfl
  | ok a => exact hq a rfl

lemma Ensures.failsOnly (h : Ensures x p q) : FailsOnly x p := by
  intro e he
  rw [he] at h
  exact h

lemma Ensures.of_eq_ok {a : α} (h : Ensures x p q) (ha : x = .ok a) : q a := by
  rw [ha] at h
  exact h

lemma Ensures.imp (h : Ensures x p q) (hp : ∀ e, p e → p' e) (hq : ∀ a, q a → q' a) :
    Ensures x p' q' := by
  cases x with
  | error e => exact hp e h
  | ok a => exact hq a h

lemma Ensures.bind {f : α → Except ε β} {q' : β → Prop} (hx : Ensures x p q)
    (hf : ∀ a, q a → Ensures (f a) p q') : Ensures (x >>= f) p q' := by
  cases x with
  | error e => exact hx
  | ok a => exact hf a hx

lemma Ensures.mapM {f : α → Except ε β} {R : α → β → Prop} {xs : List α}
    (h : ∀ x ∈ xs, Ensures (f x) p (R x)) : Ensures (xs.mapM f) p (List.Forall₂ R xs) := by
  induction xs with
  | nil => exact List.Forall₂.nil
  | cons x xs ih =>
    rw [List.forall_mem_cons] at h
    rw [List.mapM_cons]
    apply h.1.bind
    intro y hy
    apply (ih h.2).bind
    intro ys hys
    exact List.Forall₂.cons hy hys

lemma ensures_orFault {o : Option α} {f : Fault} {p : Failure → Prop} (h : p (.fault f))
    (hq : ∀ a, o = some a → q a) : Ensures (orFault o f) p q := by
  cases o with
  | none => exact h
  | some a => exact hq a rfl

end Ensures

end Result

namespace Task

/-! A search under a budget and a task on a state have one shape, with failures of their own. -/

lemma bind_eq_ok {x : ExceptT ε (StateM S) α} {f : α → ExceptT ε (StateM S) β} {b : β} {s u : S} :
    (x >>= f) s = (.ok b, u) ↔ ∃ a t, x s = (.ok a, t) ∧ f a t = (.ok b, u) := by
  have hbind : (x >>= f) s = ExceptT.bindCont f (x s).1 (x s).2 := rfl
  rw [hbind]
  rcases x s with ⟨e | a, t⟩
  · change (Except.error e, t) = (Except.ok b, u) ↔
      ∃ a v, (Except.error e, t) = (Except.ok a, v) ∧ _
    simp
  · change f a t = (Except.ok b, u) ↔ ∃ c v, (Except.ok a, t) = (Except.ok c, v) ∧ _
    simp only [Prod.mk.injEq, Except.ok.injEq]
    exact ⟨fun h => ⟨a, t, ⟨rfl, rfl⟩, h⟩, by rintro ⟨c, v, ⟨rfl, rfl⟩, h⟩; exact h⟩

lemma bind_of_ok {x : ExceptT ε (StateM S) α} {f : α → ExceptT ε (StateM S) β} {a : α} {s t : S}
    (h : x s = (.ok a, t)) : (x >>= f) s = f a t := by
  have hbind : (x >>= f) s = ExceptT.bindCont f (x s).1 (x s).2 := rfl
  rw [hbind, h]
  rfl

lemma bind_of_error {x : ExceptT ε (StateM S) α} {f : α → ExceptT ε (StateM S) β} {e : ε}
    {s t : S} (h : x s = (.error e, t)) : (x >>= f) s = (.error e, t) := by
  have hbind : (x >>= f) s = ExceptT.bindCont f (x s).1 (x s).2 := rfl
  rw [hbind, h]
  rfl

lemma bind_eq_error {x : ExceptT ε (StateM S) α} {f : α → ExceptT ε (StateM S) β} {e : ε} {s u : S} :
    (x >>= f) s = (.error e, u) ↔
      x s = (.error e, u) ∨ ∃ a t, x s = (.ok a, t) ∧ f a t = (.error e, u) := by
  rcases h : x s with ⟨e' | a, t⟩
  · rw [bind_of_error h]
    constructor
    · intro heq
      cases heq
      exact .inl rfl
    · rintro (heq | ⟨a, v, heq, _⟩)
      · cases heq
        rfl
      · cases heq
  · rw [bind_of_ok h]
    constructor
    · exact fun hf => .inr ⟨a, t, rfl, hf⟩
    · rintro (heq | ⟨b, v, heq, hf⟩)
      · cases heq
      · cases heq
        exact hf

lemma pure_eq_ok {a b : α} {s u : S} :
    (pure a : ExceptT ε (StateM S) α) s = (.ok b, u) ↔ a = b ∧ s = u := by
  change (Except.ok a, s) = (Except.ok b, u) ↔ _
  simp

lemma throw_eq_ok {e : ε} {b : α} {s u : S} :
    ¬(throw e : ExceptT ε (StateM S) α) s = (.ok b, u) := by
  change ¬(Except.error e, s) = (Except.ok b, u)
  simp

lemma modify_eq_ok {f : S → S} {b : PUnit} {s u : S} :
    (modify f : ExceptT ε (StateM S) PUnit) s = (.ok b, u) ↔ f s = u := by
  change (Except.ok PUnit.unit, f s) = (Except.ok b, u) ↔ _
  simp

lemma get_apply (s : S) : (get : ExceptT ε (StateM S) S) s = (.ok s, s) := rfl

lemma set_apply (u s : S) : (set u : ExceptT ε (StateM S) PUnit) s = (.ok .unit, u) := rfl

lemma modify_apply (f : S → S) (s : S) :
    (modify f : ExceptT ε (StateM S) PUnit) s = (.ok .unit, f s) := rfl

lemma get_eq_ok {b s u : S} :
    (get : ExceptT ε (StateM S) S) s = (.ok b, u) ↔ s = b ∧ s = u := by
  change (Except.ok s, s) = (Except.ok b, u) ↔ _
  simp

lemma set_eq_ok {v s u : S} {b : PUnit} :
    (set v : ExceptT ε (StateM S) PUnit) s = (.ok b, u) ↔ v = u := by
  change (Except.ok PUnit.unit, v) = (Except.ok b, u) ↔ _
  simp

lemma ofResult_eq_ok {r : Result α} {a : α} {s u : S} :
    (ofResult r : Task S α) s = (.ok a, u) ↔ r = .ok a ∧ s = u := by
  change (r, s) = (Except.ok a, u) ↔ _
  simp

lemma on_eq_ok {get : S → T} {put : S → T → S} {x : Task T α} {a : α} {s u : S} :
    on get put x s = (.ok a, u) ↔ ∃ t, x (get s) = (.ok a, t) ∧ put s t = u := by
  change ((x (get s)).1, put s (x (get s)).2) = (Except.ok a, u) ↔ _
  rcases x (get s) with ⟨r, t⟩
  change (r, put s t) = (Except.ok a, u) ↔ ∃ v, (r, t) = (Except.ok a, v) ∧ _
  simp only [Prod.mk.injEq]
  exact ⟨fun h => ⟨t, ⟨h.1, rfl⟩, h.2⟩, by rintro ⟨v, ⟨hr, rfl⟩, h⟩; exact ⟨hr, h⟩⟩

lemma on_of_eq {get : S → T} {put : S → T → S} {x : Task T α} {r : Result α} {s : S} {t : T}
    (h : x (get s) = (r, t)) : on get put x s = (r, put s t) := by
  change ((x (get s)).1, put s (x (get s)).2) = (r, put s t)
  rw [h]

/-- Every result of a list of tasks is that of one of them, run at some state. -/
lemma exists_of_mem_mapM {f : α → ExceptT ε (StateM S) β} {xs : List α} {ys : List β} {s u : S}
    (h : xs.mapM f s = (.ok ys, u)) {y : β} (hy : y ∈ ys) :
    ∃ x ∈ xs, ∃ t v, f x t = (.ok y, v) := by
  induction xs generalizing ys s u with
  | nil =>
    rw [List.mapM_nil, pure_eq_ok] at h
    rw [← h.1] at hy
    simp at hy
  | cons x xs ih =>
    rw [List.mapM_cons, bind_eq_ok] at h
    obtain ⟨z, t, hz, h⟩ := h
    obtain ⟨zs, v, hzs, h⟩ := bind_eq_ok.mp h
    rw [← (pure_eq_ok.mp h).1] at hy
    rcases List.mem_cons.mp hy with rfl | hy
    · exact ⟨x, by simp, s, t, hz⟩
    · obtain ⟨w, hw, hwy⟩ := ih hzs hy
      exact ⟨w, by simp [hw], hwy⟩

/-! ### Contracts -/

/-- Whatever the state is, the outcome is as the predicates say. -/
def Ensures (x : ExceptT ε (StateM S) α) (p : ε → Prop) (q : α → Prop) : Prop :=
  ∀ s, Result.Ensures (x s).1 p q

section Ensures

variable {p : ε → Prop} {q q' : α → Prop} {x : ExceptT ε (StateM S) α}

lemma ensures_pure {a : α} (h : q a) : Ensures (pure a : ExceptT ε (StateM S) α) p q :=
  fun _ => h

lemma ensures_throw {e : ε} (h : p e) : Ensures (throw e : ExceptT ε (StateM S) α) p q :=
  fun _ => h

lemma ensures_modify (f : S → S) :
    Ensures (modify f : ExceptT ε (StateM S) PUnit) p fun _ => True :=
  fun _ => trivial

lemma ensures_ofResult {r : Result α} {p : Failure → Prop} (h : Result.Ensures r p q) :
    Ensures (ofResult r : Task S α) p q :=
  fun _ => h

lemma Ensures.of_eq {r : Except ε α} {s t : S} (h : Ensures x p q) (hx : x s = (r, t)) :
    Result.Ensures r p q := by
  have hs := h s
  rw [hx] at hs
  exact hs

lemma Ensures.of_ok (h : Ensures x p q) (hq : ∀ s a t, x s = (.ok a, t) → q' a) :
    Ensures x p q' :=
  fun s => (h s).failsOnly.ensures fun a ha => hq s a (x s).2 (Prod.ext ha rfl)

lemma Ensures.bind {f : α → ExceptT ε (StateM S) β} {q' : β → Prop} (hx : Ensures x p q)
    (hf : ∀ a, q a → Ensures (f a) p q') : Ensures (x >>= f) p q' := by
  intro s
  rcases h : x s with ⟨e | a, t⟩
  · rw [bind_of_error h]
    exact hx.of_eq h
  · rw [bind_of_ok h]
    exact hf a (hx.of_eq h) t

lemma Ensures.on {get : S → T} {put : S → T → S} {x : Task T α} {p : Failure → Prop}
    (h : Ensures x p q) : Ensures (on get put x) p q :=
  fun s => h (get s)

lemma Ensures.mapM {f : α → ExceptT ε (StateM S) β} {R : α → β → Prop} {xs : List α}
    (h : ∀ x ∈ xs, Ensures (f x) p (R x)) : Ensures (xs.mapM f) p (List.Forall₂ R xs) := by
  induction xs with
  | nil =>
    rw [List.mapM_nil]
    exact ensures_pure .nil
  | cons x xs ih =>
    rw [List.forall_mem_cons] at h
    rw [List.mapM_cons]
    apply h.1.bind
    intro y hy
    apply (ih h.2).bind
    intro ys hys
    exact ensures_pure (.cons hy hys)

lemma eq_map_of_mapM {f : α → ExceptT ε (StateM S) β} {g : α → β} {xs : List α} {ys : List β}
    {s u : S} (h : xs.mapM f s = (.ok ys, u))
    (hg : ∀ x ∈ xs, ∀ y t v, f x t = (.ok y, v) → g x = y) : ys = xs.map g := by
  have hall : Ensures (xs.mapM f) (fun _ => True) (List.Forall₂ (fun x y => g x = y) xs) := by
    apply Ensures.mapM
    intro x hx t
    cases hr : (f x t).1 with
    | error e => exact trivial
    | ok y => exact hg x hx y t _ (Prod.ext hr rfl)
  have hmap := List.forall₂_map_left_iff.mpr (hall.of_eq h)
  rw [List.forall₂_eq_eq_eq] at hmap
  exact hmap.symm

end Ensures

end Task

/-! ### Repetition of a step -/

def Leads (step : S → S) (s t : S) : Prop := ∃ n, step^[n] s = t

namespace Leads

variable {step : S → S} {s t u : S}

lemma refl (s : S) : Leads step s s := ⟨0, rfl⟩

lemma head (h : step s = t) (hu : Leads step t u) : Leads step s u := by
  obtain ⟨n, hn⟩ := hu
  refine ⟨n + 1, ?_⟩
  rw [Function.iterate_succ_apply, h, hn]

lemma one (h : step s = t) : Leads step s t := head h (refl t)

lemma trans (h : Leads step s t) (h' : Leads step t u) : Leads step s u := by
  obtain ⟨m, rfl⟩ := h
  obtain ⟨n, rfl⟩ := h'
  exact ⟨n + m, Function.iterate_add_apply _ n m s⟩

end Leads
end LoopInvariant
