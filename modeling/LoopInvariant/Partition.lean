import LoopInvariant.Loop
import LoopInvariant.Solver

/-! Cutting the states of a loop into parts by its path predicates. -/
namespace LoopInvariant.Partition

/-- The loop condition, if it is to be used, and the path predicates. -/
def predicates (l : Loop) (onCond : Bool) : List Expr :=
  if onCond then l.cond :: l.paths else l.paths

/-- The part whose number has bit `i` set exactly when predicate `i` is to hold. -/
def guard (preds : List Expr) (number : Nat) : Expr :=
  .all (preds.zipIdx.map fun p => if number.testBit p.2 then p.1 else .not p.1)

/-- The guards of all parts. Their numbers have to fit into a word. -/
def guards (l : Loop) (onCond : Bool) : Result (List Expr) :=
  let preds := predicates l onCond
  if preds.length < 64 then .ok ((List.range (Nat.pow 2 preds.length)).map (guard preds))
  else .error (.fault .partitions)

variable {σ : Type}

/-- For each guard, whether it holds at the point. Some guard has to. -/
def locate (o : Oracle σ) (l : Loop) (guards : List Expr) (p : Point) :
    Oracle.Asking σ (List Bool) := do
  let state ← Task.ofResult (l.state p .pre)
  let flags ← guards.mapM fun g => o.isSat (.all [g, state])
  if flags.any id then return flags
  else throw (.error (.partitionGap p guards.length))

/-- The points of each part, in their order. -/
def file (o : Oracle σ) (l : Loop) (guards : List Expr) (points : List Point) :
    Oracle.Asking σ (List (List Point)) := do
  let rows ← points.mapM fun p => do return (p, ← locate o l guards p)
  return (List.range guards.length).map fun i =>
    (rows.filter fun r => r.2.getD i false).map (·.1)

end LoopInvariant.Partition
