import LoopInvariant.Examples
import LoopInvariant.Partition
import LoopInvariant.Proofs.Loop

/-! The parts of the state space. The truth of the predicates at a valuation, read as the bits of a
number, is the number of the one part where the valuation is. -/
namespace LoopInvariant.Partition

variable {l : Loop} {onCond : Bool} {gs preds : List Expr} {ρ : Valuation} {number : ℕ}

lemma forall_mem_predicates {q : Expr → Prop} (hcond : q l.cond) (hpaths : ∀ p ∈ l.paths, q p) :
    ∀ p ∈ predicates l onCond, q p := by
  intro p hp
  unfold predicates at hp
  split_ifs at hp
  · rcases List.mem_cons.mp hp with rfl | hp
    · exact hcond
    · exact hpaths p hp
  · exact hpaths p hp

lemma guards_eq_ok : guards l onCond = .ok gs ↔ (predicates l onCond).length < 64 ∧
    (List.range (2 ^ (predicates l onCond).length)).map (guard (predicates l onCond)) = gs := by
  unfold guards
  simp only
  split_ifs with hk
  · rw [Except.ok.injEq, and_iff_right hk]
    rfl
  · simp [hk]

/-! ### Single guards -/

lemma exists_mem_guard {e : Expr}
    (he : e ∈ preds.zipIdx.map fun p => if number.testBit p.2 then p.1 else .not p.1) :
    ∃ p ∈ preds, e = p ∨ e = .not p := by
  obtain ⟨⟨p, i⟩, hp, rfl⟩ := List.mem_map.mp he
  refine ⟨p, List.fst_mem_of_mem_zipIdx hp, ?_⟩
  dsimp only
  split_ifs
  · exact .inl rfl
  · exact .inr rfl

lemma occurrences_guard (preds : List Expr) (number : ℕ) :
    (guard preds number).occurrences ⊆ preds.flatMap Expr.occurrences := by
  rw [guard, Expr.all, Expr.occurrences_gather]
  intro v hv
  obtain ⟨e, he, hv⟩ := List.mem_flatMap.mp hv
  obtain ⟨p, hp, rfl | rfl⟩ := exists_mem_guard he
  · exact List.mem_flatMap.mpr ⟨e, hp, hv⟩
  · exact List.mem_flatMap.mpr ⟨p, hp, hv⟩

lemma sorted_guard (hs : ∀ p ∈ preds, p.Sorted .formula) (number : ℕ) :
    (guard preds number).Sorted .formula := by
  rw [guard, Expr.all, Expr.sorted_gather]
  intro e he
  obtain ⟨p, hp, rfl | rfl⟩ := exists_mem_guard he
  · exact hs e hp
  · exact .not (hs p hp)

/-- A guard holds where the truth of the predicates is given by the bits of its number. -/
lemma truth_guard : (guard preds number).truth ρ = true ↔
    ∀ i : Fin preds.length, number.testBit i = (preds.get i).truth ρ := by
  have hpart (p : Expr) (i : ℕ) :
      (if number.testBit i then p else .not p).truth ρ = true ↔ number.testBit i = p.truth ρ := by
    cases number.testBit i with
    | true => exact eq_comm
    | false =>
      rw [if_neg (by simp), Expr.truth, Bool.not_eq_true', eq_comm]
  rw [guard, Expr.truth_all, List.all_eq_true, List.forall_mem_map]
  constructor
  · intro h i
    have hmem : (preds.get i, i.val) ∈ preds.zipIdx := by
      rw [List.mk_mem_zipIdx_iff_getElem?]
      exact List.getElem?_eq_getElem i.isLt
    exact (hpart _ _).mp (h _ hmem)
  · rintro h ⟨p, i⟩ hp
    obtain ⟨hi, hpi⟩ := List.mem_zipIdx' hp
    apply (hpart p i).mpr
    rw [hpi]
    exact h ⟨i, hi⟩

/-! ### The part of a valuation -/

def partOf (preds : List Expr) (ρ : Valuation) : ℕ :=
  Nat.ofBits fun i : Fin preds.length => preds[i].truth ρ

lemma partOf_lt (preds : List Expr) (ρ : Valuation) : partOf preds ρ < 2 ^ preds.length :=
  Nat.ofBits_lt_two_pow _

lemma testBit_partOf (preds : List Expr) (ρ : Valuation) (i : Fin preds.length) :
    (partOf preds ρ).testBit i = (preds.get i).truth ρ :=
  Nat.testBit_ofBits_lt _ _ i.isLt

lemma eq_partOf (hlt : number < 2 ^ preds.length) : number = partOf preds ρ ↔
    ∀ i : Fin preds.length, number.testBit i = (preds.get i).truth ρ := by
  constructor
  · intro h i
    rw [h, testBit_partOf]
  · intro h
    apply Nat.eq_of_testBit_eq
    intro i
    by_cases hi : i < preds.length
    · rw [h ⟨i, hi⟩, ← testBit_partOf preds ρ ⟨i, hi⟩]
    · -- there are no bits beyond those of the predicates
      have hpow : 2 ^ preds.length ≤ 2 ^ i := Nat.pow_le_pow_right (by omega) (by omega)
      rw [Nat.testBit_lt_two_pow (hlt.trans_le hpow),
        Nat.testBit_lt_two_pow ((partOf_lt preds ρ).trans_le hpow)]

/-! ### All guards -/

lemma length_guards (h : guards l onCond = .ok gs) :
    gs.length = 2 ^ (predicates l onCond).length := by
  rw [← (guards_eq_ok.mp h).2, List.length_map, List.length_range]

lemma get_guards (h : guards l onCond = .ok gs) (n : Fin gs.length) :
    gs.get n = guard (predicates l onCond) n := by
  obtain ⟨_, rfl⟩ := guards_eq_ok.mp h
  simp

lemma occurrences_guards (hpreds : ∀ p ∈ predicates l onCond,
    p.occurrences ⊆ l.vars.map StateVar.before) (h : guards l onCond = .ok gs) :
    ∀ g ∈ gs, g.occurrences ⊆ l.vars.map StateVar.before := by
  obtain ⟨_, rfl⟩ := guards_eq_ok.mp h
  intro g hg
  obtain ⟨number, _, rfl⟩ := List.mem_map.mp hg
  intro v hv
  obtain ⟨p, hp, hv⟩ := List.mem_flatMap.mp (occurrences_guard _ _ hv)
  exact hpreds p hp hv

lemma sorted_guards (hs : ∀ p ∈ predicates l onCond, p.Sorted .formula)
    (h : guards l onCond = .ok gs) : ∀ g ∈ gs, g.Sorted .formula := by
  obtain ⟨_, rfl⟩ := guards_eq_ok.mp h
  intro g hg
  obtain ⟨number, _, rfl⟩ := List.mem_map.mp hg
  exact sorted_guard hs number

lemma truth_get_guards (h : guards l onCond = .ok gs) (n : Fin gs.length) :
    (gs.get n).truth ρ = true ↔ n.val = partOf (predicates l onCond) ρ := by
  rw [get_guards h, truth_guard, eq_partOf (length_guards h ▸ n.isLt)]

lemma partOf_lt_length (h : guards l onCond = .ok gs) (ρ : Valuation) :
    partOf (predicates l onCond) ρ < gs.length := by
  rw [length_guards h]
  exact partOf_lt _ ρ

lemma map_truth_guards (h : guards l onCond = .ok gs) (ρ : Valuation) :
    gs.map (Expr.truth ρ) =
      (List.range gs.length).map fun n => decide (n = partOf (predicates l onCond) ρ) := by
  obtain ⟨_, rfl⟩ := guards_eq_ok.mp h
  rw [List.length_map, List.length_range, List.map_map]
  apply List.map_congr_left
  intro n hn
  rw [Function.comp_apply, Bool.eq_iff_iff, decide_eq_true_iff, truth_guard,
    eq_partOf (List.mem_range.mp hn)]

lemma exists_guard (h : guards l onCond = .ok gs) (ρ : Valuation) :
    ∃ g ∈ gs, g.truth ρ = true :=
  ⟨gs.get ⟨_, partOf_lt_length h ρ⟩, gs.get_mem _, (truth_get_guards h _).mpr rfl⟩

/-- Of whatever has these guards, exactly one has a guard that holds. -/
lemma exists_filter_guards {α : Type} {xs : List α} {g : α → Expr}
    (h : guards l onCond = .ok (xs.map g)) (ρ : Valuation) :
    ∃ x, (xs.filter fun x => (g x).truth ρ) = [x] := by
  have htruths := map_truth_guards h ρ
  have hlt := partOf_lt_length h ρ
  rw [List.map_map] at htruths
  rw [← List.length_eq_one_iff, ← List.countP_eq_length_filter]
  calc xs.countP (fun x => (g x).truth ρ)
      = (xs.map (Expr.truth ρ ∘ g)).countP id := by
        rw [List.countP_map]
        rfl
    _ = (List.range (xs.map g).length).count (partOf (predicates l onCond) ρ) := by
        rw [htruths, List.countP_map]
        apply List.countP_congr
        simp
    _ = 1 := List.count_eq_one_of_mem List.nodup_range (List.mem_range.mpr hlt)

lemma length_file {σ : Type} {o : Oracle σ} {points : List Point} {parts : List (List Point)}
    {s t : Oracle.State σ} (h : file o l gs points s = (.ok parts, t)) :
    parts.length = gs.length := by
  obtain ⟨rows, s₁, _, h⟩ := Task.bind_eq_ok.mp h
  rw [← (Task.pure_eq_ok.mp h).1, List.length_map, List.length_range]

/-- Each choice of predicates to hold has its guard, and at every valuation exactly one guard holds,
the one whose number has the bits that are the truth of the predicates. -/
theorem guards_partition (hk : (predicates l onCond).length < 64)
    (hs : ∀ p ∈ predicates l onCond, p.Sorted .formula) :
    ∃ gs, guards l onCond = .ok gs ∧ gs.length = 2 ^ (predicates l onCond).length ∧
      (∀ g ∈ gs, g.Sorted .formula) ∧
      ∀ ρ : Valuation, (∃! n : Fin gs.length, (gs.get n).truth ρ = true) ∧
        ∀ n : Fin gs.length, (gs.get n).truth ρ = true ↔
          ∀ i : Fin (predicates l onCond).length,
            n.val.testBit i = ((predicates l onCond).get i).truth ρ := by
  have h : guards l onCond = .ok _ := guards_eq_ok.mpr ⟨hk, rfl⟩
  refine ⟨_, h, length_guards h, sorted_guards hs h, fun ρ => ⟨?_, fun n => ?_⟩⟩
  · refine ⟨⟨_, partOf_lt_length h ρ⟩, (truth_get_guards h _).mpr rfl, fun n hn => ?_⟩
    exact Fin.ext ((truth_get_guards h n).mp hn)
  · rw [get_guards h, truth_guard]

def overlapping : Loop where
  vars := Examples.vars
  pre := .bool true
  cond := .all [Examples.less Examples.x₁ 0, Examples.less Examples.y₁ 0]
  body := .all [Examples.equals Examples.x₂ Examples.x₁, Examples.equals Examples.y₂ Examples.y₁]
  post := .bool true
  paths := [Examples.less Examples.x₁ 0, .not (Examples.less Examples.x₁ 0),
    Examples.less Examples.x₁ 0, .bool true]

theorem guards_partition_overlapping :
    (∀ p ∈ predicates overlapping true, p.Sorted .formula) ∧
    ∃ gs, guards overlapping true = .ok gs ∧ gs.length = 32 ∧
      ∀ ρ : Valuation, ∃! n : Fin gs.length, (gs.get n).truth ρ = true := by
  have hx : (Examples.less Examples.x₁ 0).Sorted .formula := .cmp (.var _) (.int _)
  have hy : (Examples.less Examples.y₁ 0).Sorted .formula := .cmp (.var _) (.int _)
  have hs : ∀ p ∈ predicates overlapping true, p.Sorted .formula := by
    apply forall_mem_predicates
    · exact (Expr.sorted_gather _ _).mpr (by simpa using ⟨hx, hy⟩)
    · simp only [overlapping, List.forall_mem_cons]
      exact ⟨hx, .not hx, hx, .bool true, by simp⟩
  obtain ⟨gs, hgs, hlen, _, htrue⟩ := guards_partition (l := overlapping) (by decide) hs
  exact ⟨hs, gs, hgs, hlen, fun ρ => (htrue ρ).1⟩

end LoopInvariant.Partition
