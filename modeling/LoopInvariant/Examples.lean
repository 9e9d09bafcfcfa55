import LoopInvariant.Loop

/-! Four small loops over two variables. -/
namespace LoopInvariant.Examples

def vars : List StateVar := [⟨"x", 1, 2⟩, ⟨"y", 1, 2⟩]

def x₁ : Expr := .var ⟨"x", some 1⟩
def y₁ : Expr := .var ⟨"y", some 1⟩
def x₂ : Expr := .var ⟨"x", some 2⟩
def y₂ : Expr := .var ⟨"y", some 2⟩

def plus (a : Expr) (n : Int64) : Expr := .arith .add a (.int n)
def equals (a b : Expr) : Expr := .cmp .eq a b
def less (a : Expr) (n : Int64) : Expr := .cmp .lt a (.int n)
def more (a : Expr) (n : Int64) : Expr := .cmp .gt a (.int n)

/-- While `x < y`, both variables move by amounts that depend on their signs. The invariant
`x ≤ y + 16` proves the postcondition. -/
def piecewise : Loop where
  vars := vars
  pre := .cmp .lt x₁ y₁
  cond := .cmp .lt x₁ y₁
  body := .all [
    .ite (less x₁ 0) (equals x₂ (plus x₁ 7)) (equals x₂ (plus x₁ 10)),
    .ite (less y₁ 0) (equals y₂ (.arith .sub y₁ (.int 10))) (equals y₂ (plus y₁ 3))]
  post := .all [.cmp .le y₂ x₂, .cmp .le x₂ (plus y₂ 16)]
  paths := [less x₁ 0, less y₁ 0]

/-- One of the variables is positive at the start and stays so. -/
def eitherPositive : Loop where
  vars := vars
  pre := .any [more x₁ 0, more y₁ 0]
  cond := .cmp .le (.arith .add x₁ y₁) (.int (-2))
  body := .ite (more x₁ 0)
    (.all [equals x₂ (plus x₁ 1), equals y₂ y₁])
    (.all [equals y₂ (plus y₁ 1), equals x₂ x₁])
  post := .any [more x₂ 0, more y₂ 0]
  paths := [more x₁ 0]

/-- Adds `y` to `x` and counts `y` up. -/
def accumulate : Expr :=
  .all [equals x₂ (.arith .add x₁ y₁), equals y₂ (plus y₁ 1)]

/-- Accumulates from a fixed state until `x` reaches three. -/
def fixedStart : Loop where
  vars := vars
  pre := .all [equals x₁ (.int 1), equals y₁ (.int 0)]
  cond := less x₁ 3
  body := accumulate
  post := .cmp .ge x₂ y₂

/-- Accumulates from a negative `x`, which only a positive `y` can end. -/
def negativeStart : Loop where
  vars := vars
  pre := less x₁ 0
  cond := less x₁ 0
  body := accumulate
  post := more y₂ 0

def all : List (String × Loop) :=
  [("example1", piecewise), ("example2", eitherPositive), ("example3", fixedStart),
    ("example4", negativeStart)]

end LoopInvariant.Examples
