import Mathlib
import LoopInvariant.MaxMargin
import LoopInvariant.Proofs.Outcome

/-! Training ends, whatever the numbers are. Each turn of the loop ticks the countdown, looks for a
pair of samples and moves it, and the countdown never gets below zero. A turn that finds no pair has
looked among all samples, with gradients that were computed from the weights. -/
namespace LoopInvariant

namespace FloatVector

variable {n : ℕ}

lemma length_toList (v : FloatVector n) : v.toList.length = n := v.size_data

@[simp] lemma get_ofFn (f : Fin n → Float) (i : Fin n) : (ofFn f).get i = f i := by
  simp [get, ofFn, FloatArray.get]

end FloatVector

/-- Samples of one dimension, with both labels among them. -/
structure Trainable (d : ℕ) (samples : List (Point × Label)) : Prop where
  dim : ∀ s ∈ samples, s.1.dim = d
  positive : ∃ s ∈ samples, s.2 = .positive
  negative : ∃ s ∈ samples, s.2 = .negative

namespace Trainable

variable {d : ℕ} {samples : List (Point × Label)}

lemma labels (h : Trainable d samples) (l : Label) : ∃ s ∈ samples, s.2 = l := by
  cases l with
  | positive => exact h.positive
  | negative => exact h.negative

def problem (h : Trainable d samples) (settings : MaxMargin.Settings) :
    MaxMargin.Problem samples.toArray.size d :=
  MaxMargin.problem samples.toArray d settings (by simpa using h.dim)

end Trainable

namespace MaxMargin

/-! ### The loop -/

namespace Problem

variable {n d more count wait wait' : ℕ} {p : Problem n d} {s s' : State n d}

/-- Optimal within tolerance among all samples, by the gradients that belong to the weights. -/
structure Optimal (p : Problem n d) (s : State n d) : Prop where
  select : p.select s = none
  active : s.active = List.finRange n
  gradient : ∀ i, s.gradient.get i = p.signs.get i * s.weights.dot (p.points.get i) - 1

/-- A turn of the loop up to the move: the state and the countdown it comes to, and the pair it
finds. -/
def Turn (p : Problem n d) (s : State n d) (wait : ℕ) (s' : State n d) (wait' : ℕ)
    (pair : Option (Fin n × Fin n)) : Prop :=
  ∃ t w, p.tick s wait = .ok (t, w) ∧ p.choose t w = (s', wait', pair)

lemma exists_turn (p : Problem n d) (s : State n d) (hwait : 0 < wait) :
    ∃ s' wait' pair, p.Turn s wait s' wait' pair := by
  have htick : ∃ t w, p.tick s wait = .ok (t, w) := by
    rcases wait with - | - | wait
    · cases hwait
    · exact ⟨_, _, rfl⟩
    · exact ⟨_, _, rfl⟩
  obtain ⟨t, w, htick⟩ := htick
  exact ⟨_, _, _, t, w, htick, rfl⟩

/-- A pair is found among some samples, so that the countdown starts again above zero. -/
lemma Turn.wait_pos {i j : Fin n} (h : p.Turn s wait s' wait' (some (i, j))) : 0 < wait' := by
  obtain ⟨t, w, htick, hchoose⟩ := h
  have hpos : 0 < w := by
    rcases wait with - | - | wait
    · cases htick
    · cases htick
      exact Nat.lt_min.mpr ⟨i.pos, by omega⟩
    · cases htick
      exact Nat.succ_pos wait
  unfold choose at hchoose
  split at hchoose
  · cases hchoose
    exact hpos
  · simp only [Prod.mk.injEq] at hchoose
    omega

lemma Turn.optimal (h : p.Turn s wait s' wait' none) : p.Optimal s' := by
  obtain ⟨t, w, htick, hchoose⟩ := h
  unfold choose at hchoose
  split at hchoose
  · cases hchoose
  · simp only [Prod.mk.injEq] at hchoose
    obtain ⟨rfl, -, hselect⟩ := hchoose
    exact ⟨hselect, rfl, fun i => FloatVector.get_ofFn _ i⟩

lemma Turn.optimize_eq_ok (h : p.Turn s wait s' wait' none) :
    p.optimize more count s wait = .ok s' := by
  obtain ⟨t, w, htick, hchoose⟩ := h
  unfold optimize
  rw [Result.bind_of_ok htick]
  simp only [hchoose]
  rfl

lemma Turn.optimize_zero {i j : Fin n} (h : p.Turn s wait s' wait' (some (i, j))) :
    p.optimize 0 count s wait = .error (.error (.notConverged count)) := by
  obtain ⟨t, w, htick, hchoose⟩ := h
  unfold optimize
  rw [Result.bind_of_ok htick]
  simp only [hchoose]

lemma Turn.optimize_succ {i j : Fin n} (h : p.Turn s wait s' wait' (some (i, j))) :
    p.optimize (more + 1) count s wait = p.optimize more (count + 1) (p.update s' i j) wait' := by
  obtain ⟨t, w, htick, hchoose⟩ := h
  rw [optimize, Result.bind_of_ok htick]
  simp only [hchoose]

/-- So many moves lead from one state and countdown to another. -/
inductive Moves (p : Problem n d) : ℕ → State n d → ℕ → State n d → ℕ → Prop
  | refl (s : State n d) (wait : ℕ) : Moves p 0 s wait s wait
  | move {k wait wait' last : ℕ} {s s' t : State n d} {i j : Fin n}
      (turn : p.Turn s wait s' wait' (some (i, j)))
      (rest : Moves p k (p.update s' i j) wait' t last) : Moves p (k + 1) s wait t last

/-- How the loop ends within `more` moves: a turn finds no pair, or it finds one when all moves are
made. -/
inductive Ends (p : Problem n d) (more count : ℕ) (s : State n d) (wait : ℕ) :
    Result (State n d) → Prop
  | optimal {k last last' : ℕ} {t t' : State n d} (hk : k ≤ more) (moves : p.Moves k s wait t last)
      (turn : p.Turn t last t' last' none) : Ends p more count s wait (.ok t')
  | exhausted {last last' : ℕ} {t t' : State n d} {i j : Fin n} (moves : p.Moves more s wait t last)
      (turn : p.Turn t last t' last' (some (i, j))) :
      Ends p more count s wait (.error (.error (.notConverged (count + more))))

lemma optimize_ends (p : Problem n d) (more count : ℕ) (s : State n d) (hwait : 0 < wait) :
    p.Ends more count s wait (p.optimize more count s wait) := by
  -- each turn comes before the test whether a move is left, so that both cases begin with one
  induction more generalizing count s wait with
  | zero =>
    obtain ⟨s', wait', - | ⟨i, j⟩, hturn⟩ := p.exists_turn s hwait
    · rw [hturn.optimize_eq_ok]
      exact .optimal le_rfl (.refl s wait) hturn
    · rw [hturn.optimize_zero]
      exact .exhausted (.refl s wait) hturn
  | succ more ih =>
    obtain ⟨s', wait', - | ⟨i, j⟩, hturn⟩ := p.exists_turn s hwait
    · rw [hturn.optimize_eq_ok]
      exact .optimal (Nat.zero_le _) (.refl s wait) hturn
    · rw [hturn.optimize_succ]
      have hrest := ih (count + 1) (p.update s' i j) hturn.wait_pos
      generalize p.optimize more (count + 1) (p.update s' i j) wait' = r at hrest
      cases hrest with
      | optimal hk moves turn => exact .optimal (Nat.succ_le_succ hk) (.move hturn moves) turn
      | exhausted moves turn =>
        rw [Nat.add_right_comm]
        exact .exhausted (.move hturn moves) turn

end Problem

/-! ### Training -/

open Problem

variable {d : ℕ} {samples : List (Point × Label)}

lemma any_label (hlabels : ∀ l, ∃ s ∈ samples, s.2 = l) (l : Label) :
    (samples.any fun s => decide (s.2 = l)) = true := by
  simpa using hlabels l

lemma train_of_missing (settings : Settings) {l : Label} (h : ∀ s ∈ samples, s.2 ≠ l) :
    train settings samples = .error (.error .emptyTrainingSet) := by
  have hnone : (samples.any fun s => decide (s.2 = l)) = false := by
    simpa using h
  unfold train
  cases l <;> simp [hnone]

lemma train_of_mixed (settings : Settings) (hlabels : ∀ l, ∃ s ∈ samples, s.2 = l)
    {s t : Point × Label} (hs : s ∈ samples) (ht : t ∈ samples) (hdim : s.1.dim ≠ t.1.dim) :
    ∃ q found expected,
      train settings samples = .error (.error (.dimension q found expected)) := by
  unfold train
  simp only [any_label hlabels, Bool.not_true, Bool.or_self, Bool.false_eq_true, if_false]
  split
  · exact ⟨_, _, _, rfl⟩
  · rename_i hfind
    have hfirst := List.find?_eq_none.mp hfind
    simp only [decide_not, Bool.not_eq_true', decide_eq_false_iff_not, not_not] at hfirst
    exact absurd ((hfirst s hs).trans (hfirst t ht).symm) hdim

lemma train_of_trainable (settings : Settings) (h : Trainable d samples) :
    train settings samples =
      (h.problem settings).optimize settings.maxIterations 0 start
        (period samples.toArray.size + 1) >>= fun s =>
          .ok ⟨s.weights.toList, -(h.problem settings).offset s⟩ := by
  have hhead : (samples.head?.map fun s => s.1.dim).getD 0 = d := by
    cases samples with
    | nil => simpa using h.positive
    | cons s rest => exact h.dim s (by simp)
  subst hhead
  unfold train
  simp only [any_label h.labels, Bool.not_true, Bool.or_self, Bool.false_eq_true, if_false]
  split
  · rename_i q label hfind
    have hdim := List.find?_some hfind
    simp [h.dim _ (List.mem_of_find?_eq_some hfind)] at hdim
  · rfl

/-- Training that gets to its loop has a result within the moves it is granted, or it makes all of
them and says so. -/
lemma train_ends (settings : Settings) (h : Trainable d samples) :
    (∃ k ≤ settings.maxIterations, ∃ t last s last',
      (h.problem settings).Moves k start (period samples.length + 1) t last ∧
      (h.problem settings).Turn t last s last' none ∧
      train settings samples = .ok ⟨s.weights.toList, -(h.problem settings).offset s⟩) ∨
    (∃ t last s last' i j,
      (h.problem settings).Moves settings.maxIterations start (period samples.length + 1) t last ∧
      (h.problem settings).Turn t last s last' (some (i, j)) ∧
      train settings samples = .error (.error (.notConverged settings.maxIterations))) := by
  have hends := (h.problem settings).optimize_ends settings.maxIterations 0 start
    (Nat.succ_pos (period samples.toArray.size))
  rw [train_of_trainable settings h]
  generalize (h.problem settings).optimize _ _ _ _ = r at hends
  cases hends with
  | optimal hk moves turn => exact .inl ⟨_, hk, _, _, _, _, moves, turn, rfl⟩
  | exhausted moves turn =>
    rw [Nat.zero_add]
    exact .inr ⟨_, _, _, _, _, _, moves, turn, rfl⟩

lemma eq_notConverged_of_train {settings : Settings} (h : Trainable d samples) {f : Failure}
    (hf : train settings samples = .error f) :
    f = .error (.notConverged settings.maxIterations) := by
  rcases train_ends settings h with ⟨k, _, t, last, s, last', _, _, hok⟩ |
    ⟨t, last, s, last', i, j, _, _, herror⟩
  · rw [hok] at hf
    cases hf
  · rw [herror] at hf
    cases hf
    rfl

lemma missing_or_mixed_or_trainable (samples : List (Point × Label)) :
    (∃ l, ∀ s ∈ samples, s.2 ≠ l) ∨ (∀ l, ∃ s ∈ samples, s.2 = l) ∧
      ((∃ s ∈ samples, ∃ t ∈ samples, s.1.dim ≠ t.1.dim) ∨ ∃ d, Trainable d samples) := by
  by_cases hlabels : ∀ l, ∃ s ∈ samples, s.2 = l
  · right
    refine ⟨hlabels, ?_⟩
    obtain ⟨s, hs, hlabel⟩ := hlabels .positive
    by_cases hdim : ∀ t ∈ samples, t.1.dim = s.1.dim
    · exact .inr ⟨s.1.dim, hdim, ⟨s, hs, hlabel⟩, hlabels .negative⟩
    · push Not at hdim
      obtain ⟨t, ht, hdim⟩ := hdim
      exact .inl ⟨t, ht, s, hs, hdim⟩
  · push Not at hlabels
    exact .inl hlabels

/-- Training never faults and ends in one of four ways. It reports a missing label, or else a
difference in dimension, or else that all moves were made; or it gives weights that are optimal
among all samples, by gradients which were computed from these very weights. -/
theorem train_outcomes (settings : Settings) (samples : List (Point × Label)) :
    (∀ f, train settings samples ≠ .error (.fault f)) ∧
    (train settings samples = .error (.error .emptyTrainingSet) ↔ ∃ l, ∀ s ∈ samples, s.2 ≠ l) ∧
    ((∀ l, ∃ s ∈ samples, s.2 = l) →
      ((∃ q found expected,
          train settings samples = .error (.error (.dimension q found expected))) ↔
        ∃ s ∈ samples, ∃ t ∈ samples, s.1.dim ≠ t.1.dim)) ∧
    ∀ d (h : Trainable d samples),
      (∃ k ≤ settings.maxIterations, ∃ t last s last',
        (h.problem settings).Moves k start (period samples.length + 1) t last ∧
        (h.problem settings).Turn t last s last' none ∧ (h.problem settings).Optimal s ∧
        train settings samples = .ok ⟨s.weights.toList, -(h.problem settings).offset s⟩ ∧
        s.weights.toList.length = d) ∨
      (∃ t last s last' i j,
        (h.problem settings).Moves settings.maxIterations start (period samples.length + 1) t last ∧
        (h.problem settings).Turn t last s last' (some (i, j)) ∧
        train settings samples = .error (.error (.notConverged settings.maxIterations))) := by
  refine ⟨fun f hf => ?_, ⟨fun hempty => ?_, ?_⟩, fun hlabels => ⟨fun hdimension => ?_, ?_⟩,
    fun d h => ?_⟩
  · rcases missing_or_mixed_or_trainable samples with
      ⟨l, hl⟩ | ⟨hlabels, ⟨s, hs, t, ht, hdim⟩ | ⟨d, h⟩⟩
    · rw [train_of_missing settings hl] at hf
      cases hf
    · obtain ⟨q, found, expected, htrain⟩ := train_of_mixed settings hlabels hs ht hdim
      rw [htrain] at hf
      cases hf
    · cases eq_notConverged_of_train h hf
  · rcases missing_or_mixed_or_trainable samples with
      hmissing | ⟨hlabels, ⟨s, hs, t, ht, hdim⟩ | ⟨d, h⟩⟩
    · exact hmissing
    · obtain ⟨q, found, expected, htrain⟩ := train_of_mixed settings hlabels hs ht hdim
      rw [htrain] at hempty
      cases hempty
    · cases eq_notConverged_of_train h hempty
  · rintro ⟨l, hl⟩
    exact train_of_missing settings hl
  · obtain ⟨q, found, expected, htrain⟩ := hdimension
    rcases missing_or_mixed_or_trainable samples with ⟨l, hl⟩ | ⟨-, hmixed | ⟨d, h⟩⟩
    · obtain ⟨s, hs, hlabel⟩ := hlabels l
      exact absurd hlabel (hl s hs)
    · exact hmixed
    · cases eq_notConverged_of_train h htrain
  · rintro ⟨s, hs, t, ht, hdim⟩
    exact train_of_mixed settings hlabels hs ht hdim
  · rcases train_ends settings h with ⟨k, hk, t, last, s, last', moves, turn, htrain⟩ | hexhausted
    · exact .inl ⟨k, hk, t, last, s, last', moves, turn, turn.optimal, htrain,
        s.weights.length_toList⟩
    · exact .inr hexhausted

def opposed : List (Point × Label) := [(⟨[3, -1]⟩, .positive), (⟨[-2, 4]⟩, .negative)]

/-- One move is enough for them, and without it training says that it made all of none. A point on
the line beside them is reported. -/
theorem train_outcomes_opposed : ∃ h : Trainable 2 opposed,
    (∃ k ≤ 1, ∃ t last s last',
      (h.problem ⟨1, 1e-3, 1⟩).Moves k start 3 t last ∧
      (h.problem ⟨1, 1e-3, 1⟩).Turn t last s last' none ∧ (h.problem ⟨1, 1e-3, 1⟩).Optimal s ∧
      train ⟨1, 1e-3, 1⟩ opposed = .ok ⟨s.weights.toList, -(h.problem ⟨1, 1e-3, 1⟩).offset s⟩ ∧
      s.weights.toList.length = 2) ∧
    train ⟨1, 1e-3, 0⟩ opposed = .error (.error (.notConverged 0)) ∧
    ∃ q found expected, train ⟨1, 1e-3, 1⟩ (opposed ++ [(⟨[7]⟩, .positive)]) =
      .error (.error (.dimension q found expected)) := by
  have h : Trainable 2 opposed := ⟨by decide, by decide, by decide⟩
  have hone : (train ⟨1, 1e-3, 1⟩ opposed).toOption.isSome = true := by decide +kernel
  have hnone : (train ⟨1, 1e-3, 0⟩ opposed).toOption.isSome = false := by decide +kernel
  refine ⟨h, ?_, ?_, ?_⟩
  · rcases (train_outcomes ⟨1, 1e-3, 1⟩ opposed).2.2.2 2 h with
      hoptimal | ⟨_, _, _, _, _, _, _, _, htrain⟩
    · exact hoptimal
    · rw [htrain] at hone
      cases hone
  · rcases (train_outcomes ⟨1, 1e-3, 0⟩ opposed).2.2.2 2 h with
      ⟨_, _, _, _, _, _, _, _, _, htrain, _⟩ | ⟨_, _, _, _, _, _, _, _, htrain⟩
    · rw [htrain] at hnone
      cases hnone
    · exact htrain
  · refine ((train_outcomes _ _).2.2.1 ?_).mpr (by decide)
    intro l
    cases l <;> decide

end MaxMargin
end LoopInvariant
