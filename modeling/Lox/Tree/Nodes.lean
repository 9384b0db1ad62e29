import Lox.Tree.Basic

/-!
# Trees with other slots

A tree may be given other tokens and other slots and keep its shape. What a slot
becomes may depend on how many scopes are around it, so the map counts them on its way
down.

The node of a reference is what tells it from all others. References are numbered in the
order in which resolution comes to them, from any number on.
-/

namespace Lox

section

variable {δ ε : Type}

mutual

/-- The expression with its tokens and slots replaced. -/
def Expr.map (f : Token → Token) (g : δ → ε) : Expr δ → Expr ε
  | .literal value => .literal value
  | .unary operator operand => .unary (f operator) (operand.map f g)
  | .binary left operator right => .binary (left.map f g) (f operator) (right.map f g)
  | .logical left operator right => .logical (left.map f g) (f operator) (right.map f g)
  | .conditional condition thenBranch elseBranch =>
    .conditional (condition.map f g) (thenBranch.map f g) (elseBranch.map f g)
  | .grouping inner => .grouping (inner.map f g)
  | .var name slot => .var (f name) (g slot)
  | .assign name slot value => .assign (f name) (g slot) (value.map f g)
  | .call callee paren arguments =>
    .call (callee.map f g) (f paren) (Expr.mapAll f g arguments)
  | .get object name => .get (object.map f g) (f name)
  | .set object name value => .set (object.map f g) (f name) (value.map f g)
  | .thisRef keyword slot => .thisRef (f keyword) (g slot)
  | .superRef keyword method slot => .superRef (f keyword) (f method) (g slot)
  | .vector bracket elements => .vector (f bracket) (Expr.mapAll f g elements)

def Expr.mapAll (f : Token → Token) (g : δ → ε) : List (Expr δ) → List (Expr ε)
  | [] => []
  | e :: rest => e.map f g :: Expr.mapAll f g rest

end

def Reference.map (f : Token → Token) (g : δ → ε) (r : Reference δ) : Reference ε :=
  ⟨f r.name, g r.slot⟩

/-- The number of scopes around the methods of a class that `n` scopes are around. -/
def methodDepth (superclass : Option (Reference δ)) (n : Nat) : Nat :=
  if superclass.isSome then n + 2 else n + 1

mutual

/-- The statement, which `n` scopes are around, with its tokens and slots replaced. -/
def Stmt.map (f : Token → Token) (g : Nat → δ → ε) (n : Nat) : Stmt δ → Stmt ε
  | .expression e => .expression (e.map f (g n))
  | .print e => .print (e.map f (g n))
  | .varDecl name initializer => .varDecl (f name) (initializer.map (Expr.map f (g n)))
  | .block body => .block (Stmt.mapAll f g (n + 1) body)
  | .ifThen condition thenBranch => .ifThen (condition.map f (g n)) (thenBranch.map f g n)
  | .ifElse condition thenBranch elseBranch =>
    .ifElse (condition.map f (g n)) (thenBranch.map f g n) (elseBranch.map f g n)
  | .whileLoop condition body => .whileLoop (condition.map f (g n)) (body.map f g n)
  | .function declaration => .function (declaration.map f g n)
  | .ret keyword value => .ret (f keyword) (value.map (Expr.map f (g n)))
  | .classDecl name superclass methods =>
    .classDecl (f name) (superclass.map (Reference.map f (g n)))
      (FunDecl.mapAll f g (methodDepth superclass n) methods)

def Stmt.mapAll (f : Token → Token) (g : Nat → δ → ε) (n : Nat) : List (Stmt δ) → List (Stmt ε)
  | [] => []
  | s :: rest => s.map f g n :: Stmt.mapAll f g n rest

def FunDecl.map (f : Token → Token) (g : Nat → δ → ε) (n : Nat) : FunDecl δ → FunDecl ε
  | .mk name params body => .mk (f name) (params.map f) (Stmt.mapAll f g (n + 1) body)

def FunDecl.mapAll (f : Token → Token) (g : Nat → δ → ε) (n : Nat) :
    List (FunDecl δ) → List (FunDecl ε)
  | [] => []
  | declaration :: rest => declaration.map f g n :: FunDecl.mapAll f g n rest

end

end

section

variable {ι : Type}

/-! ## Nodes -/

mutual

/-- The nodes of the references in an expression, in the order of the walk. -/
def Expr.nodes : Expr ι → List ι
  | .literal _ => []
  | .unary _ operand => operand.nodes
  | .binary left _ right => left.nodes ++ right.nodes
  | .logical left _ right => left.nodes ++ right.nodes
  | .conditional condition thenBranch elseBranch =>
    condition.nodes ++ (thenBranch.nodes ++ elseBranch.nodes)
  | .grouping inner => inner.nodes
  | .var _ node => [node]
  | .assign _ node value => value.nodes ++ [node]
  | .call callee _ arguments => callee.nodes ++ Expr.nodesAll arguments
  | .get object _ => object.nodes
  | .set object _ value => value.nodes ++ object.nodes
  | .thisRef _ node => [node]
  | .superRef _ _ node => [node]
  | .vector _ elements => Expr.nodesAll elements

def Expr.nodesAll : List (Expr ι) → List ι
  | [] => []
  | e :: rest => e.nodes ++ Expr.nodesAll rest

end

def Expr.nodesOption : Option (Expr ι) → List ι
  | none => []
  | some e => e.nodes

def Reference.nodes (r : Option (Reference ι)) : List ι :=
  r.toList.map Reference.slot

mutual

/-- The nodes of the references in a statement, in the order of the walk. -/
def Stmt.nodes : Stmt ι → List ι
  | .expression e => e.nodes
  | .print e => e.nodes
  | .varDecl _ initializer => Expr.nodesOption initializer
  | .block body => Stmt.nodesAll body
  | .ifThen condition thenBranch => condition.nodes ++ thenBranch.nodes
  | .ifElse condition thenBranch elseBranch =>
    condition.nodes ++ (thenBranch.nodes ++ elseBranch.nodes)
  | .whileLoop condition body => condition.nodes ++ body.nodes
  | .function f => f.nodes
  | .ret _ value => Expr.nodesOption value
  | .classDecl _ superclass methods => Reference.nodes superclass ++ FunDecl.nodesAll methods

def Stmt.nodesAll : List (Stmt ι) → List ι
  | [] => []
  | y :: rest => y.nodes ++ Stmt.nodesAll rest

def FunDecl.nodes : FunDecl ι → List ι
  | .mk _ _ body => Stmt.nodesAll body

def FunDecl.nodesAll : List (FunDecl ι) → List ι
  | [] => []
  | f :: rest => f.nodes ++ FunDecl.nodesAll rest

end

/-! ## Numbers for nodes -/

mutual

/-- The expression with its references numbered from `k` on, and the number after them. -/
def Expr.number : Expr ι → Nat → Expr Nat × Nat
  | .literal value, k => (.literal value, k)
  | .unary operator operand, k =>
    let (operand, k) := operand.number k
    (.unary operator operand, k)
  | .binary left operator right, k =>
    let (left, k) := left.number k
    let (right, k) := right.number k
    (.binary left operator right, k)
  | .logical left operator right, k =>
    let (left, k) := left.number k
    let (right, k) := right.number k
    (.logical left operator right, k)
  | .conditional condition thenBranch elseBranch, k =>
    let (condition, k) := condition.number k
    let (thenBranch, k) := thenBranch.number k
    let (elseBranch, k) := elseBranch.number k
    (.conditional condition thenBranch elseBranch, k)
  | .grouping inner, k =>
    let (inner, k) := inner.number k
    (.grouping inner, k)
  | .var name _, k => (.var name k, k + 1)
  | .assign name _ value, k =>
    let (value, k) := value.number k
    (.assign name k value, k + 1)
  | .call callee paren arguments, k =>
    let (callee, k) := callee.number k
    let (arguments, k) := Expr.numberAll arguments k
    (.call callee paren arguments, k)
  | .get object name, k =>
    let (object, k) := object.number k
    (.get object name, k)
  | .set object name value, k =>
    let (value, k) := value.number k
    let (object, k) := object.number k
    (.set object name value, k)
  | .thisRef keyword _, k => (.thisRef keyword k, k + 1)
  | .superRef keyword method _, k => (.superRef keyword method k, k + 1)
  | .vector bracket elements, k =>
    let (elements, k) := Expr.numberAll elements k
    (.vector bracket elements, k)

def Expr.numberAll : List (Expr ι) → Nat → List (Expr Nat) × Nat
  | [], k => ([], k)
  | e :: rest, k =>
    let (e, k) := e.number k
    let (rest, k) := Expr.numberAll rest k
    (e :: rest, k)

end

def Expr.numberOption : Option (Expr ι) → Nat → Option (Expr Nat) × Nat
  | none, k => (none, k)
  | some e, k =>
    let (e, k) := e.number k
    (some e, k)

def Reference.number : Option (Reference ι) → Nat → Option (Reference Nat) × Nat
  | none, k => (none, k)
  | some r, k => (some ⟨r.name, k⟩, k + 1)

mutual

/-- The statement with its references numbered from `k` on, and the number after them. -/
def Stmt.number : Stmt ι → Nat → Stmt Nat × Nat
  | .expression e, k =>
    let (e, k) := e.number k
    (.expression e, k)
  | .print e, k =>
    let (e, k) := e.number k
    (.print e, k)
  | .varDecl name initializer, k =>
    let (initializer, k) := Expr.numberOption initializer k
    (.varDecl name initializer, k)
  | .block body, k =>
    let (body, k) := Stmt.numberAll body k
    (.block body, k)
  | .ifThen condition thenBranch, k =>
    let (condition, k) := condition.number k
    let (thenBranch, k) := thenBranch.number k
    (.ifThen condition thenBranch, k)
  | .ifElse condition thenBranch elseBranch, k =>
    let (condition, k) := condition.number k
    let (thenBranch, k) := thenBranch.number k
    let (elseBranch, k) := elseBranch.number k
    (.ifElse condition thenBranch elseBranch, k)
  | .whileLoop condition body, k =>
    let (condition, k) := condition.number k
    let (body, k) := body.number k
    (.whileLoop condition body, k)
  | .function f, k =>
    let (f, k) := f.number k
    (.function f, k)
  | .ret keyword value, k =>
    let (value, k) := Expr.numberOption value k
    (.ret keyword value, k)
  | .classDecl name superclass methods, k =>
    let (superclass, k) := Reference.number superclass k
    let (methods, k) := FunDecl.numberAll methods k
    (.classDecl name superclass methods, k)

def Stmt.numberAll : List (Stmt ι) → Nat → List (Stmt Nat) × Nat
  | [], k => ([], k)
  | y :: rest, k =>
    let (y, k) := y.number k
    let (rest, k) := Stmt.numberAll rest k
    (y :: rest, k)

def FunDecl.number : FunDecl ι → Nat → FunDecl Nat × Nat
  | .mk name params body, k =>
    let (body, k) := Stmt.numberAll body k
    (.mk name params body, k)

def FunDecl.numberAll : List (FunDecl ι) → Nat → List (FunDecl Nat) × Nat
  | [], k => ([], k)
  | f :: rest, k =>
    let (f, k) := f.number k
    let (rest, k) := FunDecl.numberAll rest k
    (f :: rest, k)

end

end

end Lox
