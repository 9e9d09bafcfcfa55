import LoopInvariant.Word

/-! Formulas and integer terms as one kind of tree. Whether a tree is well sorted is decided by
those who read it. -/
namespace LoopInvariant

/-! ### Variables -/

/-- A variable `x`, or its copy `x@i` at one point of a transition. -/
structure Var where
  name : String
  index : Option Nat := none
  deriving DecidableEq, Inhabited

namespace Var

/-- Variables are ordered by name, and the copies of one name by index, the plain variable first. -/
instance : Ord Var where
  compare a b := (compare a.name b.name).then (compare a.index b.index)

def text (v : Var) : String :=
  match v.index with
  | none => v.name
  | some i => v.name ++ "@" ++ toString i

/-- Insertion into an increasing list without duplicates. -/
def insert (v : Var) : List Var → List Var
  | [] => [v]
  | w :: rest =>
    match compare v w with
    | .lt => v :: w :: rest
    | .eq => w :: rest
    | .gt => w :: insert v rest

def sorted (vs : List Var) : List Var := vs.foldl (fun acc v => insert v acc) []

end Var

/-! ### Expressions -/

inductive Arith where
  | add
  | sub
  | mul
  deriving DecidableEq

inductive Comparison where
  | lt
  | le
  | gt
  | ge
  | eq
  | ne
  deriving DecidableEq

inductive Connective where
  | and
  | or
  deriving DecidableEq

inductive Expr where
  | bool (b : Bool)
  | int (n : Int64)
  | var (v : Var)
  | neg (a : Expr)
  | not (a : Expr)
  | arith (op : Arith) (a b : Expr)
  | implies (a b : Expr)
  | cmp (op : Comparison) (a b : Expr)
  /-- A conjunction or disjunction of any number of parts. -/
  | join (c : Connective) (args : List Expr)
  | ite (cond yes no : Expr)
  deriving Inhabited

namespace Arith

def symbol : Arith → String
  | add => "+"
  | sub => "-"
  | mul => "*"

/-- The exact result, if it fits. -/
def result? : Arith → Int64 → Int64 → Option Int64
  | add => Word.add?
  | sub => Word.sub?
  | mul => Word.mul?

end Arith

namespace Comparison

def symbol : Comparison → String
  | lt => "<"
  | le => "<="
  | gt => ">"
  | ge => ">="
  | eq => "=="
  | ne => "!="

/-- The comparison that holds exactly when this one does not. -/
def negate : Comparison → Comparison
  | lt => ge
  | le => gt
  | gt => le
  | ge => lt
  | eq => ne
  | ne => eq

def holds (op : Comparison) (a b : Int) : Bool :=
  match op with
  | lt => a < b
  | le => a ≤ b
  | gt => a > b
  | ge => a ≥ b
  | eq => a = b
  | ne => a ≠ b

end Comparison

namespace Connective

/-- The value of the empty join, and the part that a join may leave out. -/
def unit : Connective → Bool
  | and => true
  | or => false

def dual : Connective → Connective
  | and => or
  | or => and

def symbol : Connective → String
  | and => "&&"
  | or => "||"

end Connective

namespace Expr

/-! ### Building -/

/-- The parts that `e` contributes to a join under `c`. -/
def parts (c : Connective) (e : Expr) : List Expr :=
  match e with
  | .join d args => if d = c then args else [e]
  | _ => [e]

/-- A join whose direct parts that are joins of the same kind are spliced in. -/
def gather (c : Connective) (args : List Expr) : Expr := .join c (args.flatMap (parts c))

def all (args : List Expr) : Expr := gather .and args
def any (args : List Expr) : Expr := gather .or args

def isConst (b : Bool) : Expr → Bool
  | .bool d => d = b
  | .join c [] => c.unit = b
  | _ => false

/-! ### Equality -/

mutual
def beq : Expr → Expr → Bool
  | .bool a, .bool b => a = b
  | .int a, .int b => a = b
  | .var a, .var b => a = b
  | .neg a, .neg b => beq a b
  | .not a, .not b => beq a b
  | .arith o a b, .arith p c d => o = p && beq a c && beq b d
  | .implies a b, .implies c d => beq a c && beq b d
  | .cmp o a b, .cmp p c d => o = p && beq a c && beq b d
  | .join c as, .join d bs => c = d && beqAll as bs
  | .ite a b c, .ite d e f => beq a d && beq b e && beq c f
  | _, _ => false
def beqAll : List Expr → List Expr → Bool
  | [], [] => true
  | a :: as, b :: bs => beq a b && beqAll as bs
  | _, _ => false
end

theorem beq_iff_eq (a b : Expr) : beq a b = true ↔ a = b := by
  refine beq.induct (fun a b => beq a b = true ↔ a = b)
    (fun as bs => beqAll as bs = true ↔ as = bs)
    ?_ ?_ ?_ ?_ ?_ ?_ ?_ ?_ ?_ ?_ ?_ ?_ ?_ ?_ a b
  case refine_11 => intro a b; cases a <;> cases b <;> grind [beq]
  case refine_14 => intro as bs; cases as <;> cases bs <;> grind [beqAll]
  all_goals intros; simp_all [beq, beqAll, and_assoc]

instance : DecidableEq Expr := fun a b => decidable_of_iff _ (beq_iff_eq a b)

/-! ### Variables -/

mutual
/-- Variables in order of occurrence, repetitions included. -/
def occurrences : Expr → List Var
  | .bool _ | .int _ => []
  | .var v => [v]
  | .neg a | .not a => occurrences a
  | .arith _ a b | .implies a b | .cmp _ a b => occurrences a ++ occurrences b
  | .join _ args => occurrencesAll args
  | .ite c t e => occurrences c ++ occurrences t ++ occurrences e
def occurrencesAll : List Expr → List Var
  | [] => []
  | a :: as => occurrences a ++ occurrencesAll as
end

/-- The variables in increasing order. -/
def vars (e : Expr) : List Var := Var.sorted e.occurrences

mutual
/-- Replaces every variable by its image. -/
def rename (f : Var → Var) : Expr → Expr
  | .bool b => .bool b
  | .int n => .int n
  | .var v => .var (f v)
  | .neg a => .neg (rename f a)
  | .not a => .not (rename f a)
  | .arith op a b => .arith op (rename f a) (rename f b)
  | .implies a b => .implies (rename f a) (rename f b)
  | .cmp op a b => .cmp op (rename f a) (rename f b)
  | .join c args => .join c (renameAll f args)
  | .ite c t e => .ite (rename f c) (rename f t) (rename f e)
def renameAll (f : Var → Var) : List Expr → List Expr
  | [] => []
  | a :: as => rename f a :: renameAll f as
end

/-! ### Text -/

mutual
def text : Expr → String
  | .bool b => toString b
  | .int n => Word.text n
  | .var v => v.text
  | .neg a => "-" ++ text a
  | .not a => "!" ++ text a
  | .arith op a b => "(" ++ text a ++ " " ++ op.symbol ++ " " ++ text b ++ ")"
  | .implies a b => "(" ++ text a ++ " -> " ++ text b ++ ")"
  | .cmp op a b => text a ++ " " ++ op.symbol ++ " " ++ text b
  | .join c [] => toString c.unit
  | .join c (a :: as) =>
    "(" ++ (" " ++ c.symbol ++ " ").intercalate (text a :: texts as) ++ ")"
  | .ite c t e => "ite(" ++ text c ++ ", " ++ text t ++ ", " ++ text e ++ ")"
def texts : List Expr → List String
  | [] => []
  | a :: as => text a :: texts as
end

end Expr

/-- A finite replacement of variables; of two entries for one variable the later counts. -/
def Var.replace (pairs : List (Var × Var)) (v : Var) : Var :=
  match pairs.reverse.find? (·.1 = v) with
  | some (_, w) => w
  | none => v

end LoopInvariant
