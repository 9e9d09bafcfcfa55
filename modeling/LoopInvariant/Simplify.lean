import LoopInvariant.Expr

/-! Constant folding and flattening from the leaves up. Folding that would leave the 64-bit range
is not done. -/
namespace LoopInvariant.Expr

def foldNeg : Expr → Expr
  | .int n =>
    match Word.neg? n with
    | some m => .int m
    | none => .neg (.int n)
  | .neg a => a
  | a => .neg a

def foldNot : Expr → Expr
  | .bool b => .bool !b
  | .not a => a
  | .cmp op a b => .cmp op.negate a b
  | a => .not a

/-- Drops a neutral operand, and a product with zero. -/
def foldUnits (op : Arith) (a b : Expr) : Expr :=
  match op with
  | .add => if a = .int 0 then b else if b = .int 0 then a else .arith .add a b
  | .sub => if b = .int 0 then a else .arith .sub a b
  | .mul =>
    if a = .int 1 then b
    else if b = .int 1 then a
    else if a = .int 0 ∨ b = .int 0 then .int 0
    else .arith .mul a b

def foldArith (op : Arith) (a b : Expr) : Expr :=
  match a, b with
  | .int m, .int n =>
    match op.result? m n with
    | some k => .int k
    | none => foldUnits op a b
  | _, _ => foldUnits op a b

def foldImplies (a b : Expr) : Expr :=
  if a = .bool false ∨ b = .bool true then .bool true
  else if a = .bool true then b
  else .implies a b

def foldCmp (op : Comparison) (a b : Expr) : Expr :=
  match a, b with
  | .int m, .int n => .bool (op.holds m.toInt n.toInt)
  | _, _ => .cmp op a b

/-- The parts of a join, spliced and without units; nothing if some part decides the join. -/
def foldParts (c : Connective) : List Expr → Option (List Expr)
  | [] => some []
  | e :: rest =>
    if e = .bool c.unit then foldParts c rest
    else if e = .bool !c.unit then none
    else (parts c e ++ ·) <$> foldParts c rest

def foldJoin (c : Connective) (args : List Expr) : Expr :=
  match foldParts c args with
  | none => .bool !c.unit
  | some [] => .bool c.unit
  | some [e] => e
  | some es => .join c es

def foldIte (c t e : Expr) : Expr :=
  match c with
  | .bool b => if b then t else e
  | _ => if t = e then t else .ite c t e

mutual
def simplify : Expr → Expr
  | .bool b => .bool b
  | .int n => .int n
  | .var v => .var v
  | .neg a => foldNeg (simplify a)
  | .not a => foldNot (simplify a)
  | .arith op a b => foldArith op (simplify a) (simplify b)
  | .implies a b => foldImplies (simplify a) (simplify b)
  | .cmp op a b => foldCmp op (simplify a) (simplify b)
  | .join c args => foldJoin c (simplifyAll args)
  | .ite c t e => foldIte (simplify c) (simplify t) (simplify e)
def simplifyAll : List Expr → List Expr
  | [] => []
  | a :: as => simplify a :: simplifyAll as
end

end LoopInvariant.Expr
