import Classad.TreeWalk

/-! The bytecode compiler and its interpreter. A program is a flat instruction list
with constant pools; jump targets are absolute and are patched in once the code they
skip has been emitted. Node types with scope, laziness or short-circuit subtleties are
delegated to the tree walker at run time. -/
namespace Classad.VmCompile
open Syntax Operators PartialRun TreeWalk

inductive Opcode where
  | pushConst
  | pushTrue
  | pushFalse
  | pushUndef
  | pushError
  | loadRef
  | binop
  | unop
  | shortAnd
  | shortOr
  | combineAnd
  | combineOr
  | jmpIfNotUndef
  | evalNode
  deriving DecidableEq, Repr

/-- An opcode with a pool index or an absolute jump target. -/
structure Instr where
  op : Opcode
  a : Int
  deriving DecidableEq, Repr

/-- An operator in the pool shared by the unary and the binary instructions. -/
inductive PoolOp where
  | binary (op : BinaryOperator)
  | unary (op : UnaryOperator)
  deriving DecidableEq, Repr

structure Program where
  code : List Instr
  consts : List Value
  ops : List PoolOp
  refs : List (String × AttributeScope)
  nodes : List Expr
  readAttrs : List String
  expr : Expr

namespace Program

def empty : Program := ⟨[], [], [], [], [], [], .nil⟩

variable (p : Program)

def ins (op : Opcode) (a : Int) : Program :=
  { p with code := p.code ++ [⟨op, a⟩] }

/-- Set the argument of an emitted instruction. -/
def patch (i : Nat) (target : Nat) : Program :=
  { p with code := p.code.modify i fun instr => { instr with a := target } }

def pushConst (p : Program) (value : Value) : Program :=
  { p with consts := p.consts ++ [value] }.ins .pushConst p.consts.length

def addOp (op : PoolOp) (opcode : Opcode) : Program :=
  { p with ops := p.ops ++ [op] }.ins opcode p.ops.length

def addRef (name : String) (scope : AttributeScope) : Program :=
  { p with refs := p.refs ++ [(name, scope)] }.ins .loadRef p.refs.length

def addNode (node : Expr) : Program :=
  { p with nodes := p.nodes ++ [node] }.ins .evalNode p.nodes.length

end Program

/-- The left operand, a jump past the rest when it decides the result, the right operand
and the instruction that combines the two. -/
def emitLogical (short combine : Opcode) (emitLeft emitRight : Program → Program)
    (p : Program) : Program :=
  let first := emitLeft p
  let second := (emitRight (first.ins short (-1))).ins combine 0
  second.patch first.code.length second.code.length

/-- Emit code that leaves the value of the expression on top of the stack. -/
def emit : Expr → Program → Program
  | .nil, p | .undefined, p => p.ins .pushUndef 0
  | .error, p => p.ins .pushError 0
  | .boolean value, p => if value then p.ins .pushTrue 0 else p.ins .pushFalse 0
  | .integer value, p => p.pushConst (.integer value)
  | .real value, p => p.pushConst (.real value)
  | .string value, p => p.pushConst (.string value)
  | .reference name scope, p => p.addRef name scope
  | .paren inner, p => emit inner p
  | .unary op operand, p => (emit operand p).addOp (.unary op) .unop
  | .binary op left right, p =>
    match op with
    | .and => emitLogical .shortAnd .combineAnd (emit left) (emit right) p
    | .or => emitLogical .shortOr .combineOr (emit left) (emit right) p
    | op => (emit right (emit left p)).addOp (.binary op) .binop
  | .elvis left right, p =>
    let first := emit left p
    let second := emit right (first.ins .jmpIfNotUndef (-1))
    second.patch first.code.length second.code.length
  | .conditional condition whenTrue whenFalse, p =>
    p.addNode (.conditional condition whenTrue whenFalse)
  | .list elements, p => p.addNode (.list elements)
  | .record attributes, p => p.addNode (.record attributes)
  | .call name args, p => p.addNode (.call name args)
  | .select record attr, p => p.addNode (.select record attr)
  | .subscript container index, p => p.addNode (.subscript container index)

mutual

/-- The distinct unscoped names an expression may read, in the order first seen. -/
def collectReads : Expr → List String → List String
  | .reference name scope, out =>
    if scope = .none ∧ name ∉ out then out ++ [name] else out
  | .paren inner, out => collectReads inner out
  | .unary _ operand, out => collectReads operand out
  | .binary _ left right, out => collectReads right (collectReads left out)
  | .elvis left right, out => collectReads right (collectReads left out)
  | .conditional condition whenTrue whenFalse, out =>
    collectReads whenFalse (collectReads whenTrue (collectReads condition out))
  | .list elements, out => collectListReads elements out
  | .call _ args, out => collectListReads args out
  | .select record _, out => collectReads record out
  | .subscript container index, out => collectReads index (collectReads container out)
  | .record attributes, out => collectAttributeReads attributes out
  | .nil, out | .integer _, out | .real _, out | .string _, out | .boolean _, out
  | .undefined, out | .error, out => out

def collectListReads : List Expr → List String → List String
  | [], out => out
  | head :: rest, out => collectListReads rest (collectReads head out)

def collectAttributeReads : List (String × Expr) → List String → List String
  | [], out => out
  | (_, value) :: rest, out => collectAttributeReads rest (collectReads value out)

end

def maxNativeDepth : Nat := 1000

/-- Lower an expression. One nested too deeply for the flat interpreter to track is
delegated whole. -/
def compileProgram (expr : Expr) : Program :=
  let p := if maxNativeDepth ≤ astHeight expr then Program.empty.addNode expr
    else emit expr Program.empty
  { p with readAttrs := collectReads expr [], expr := expr }

/-! ## The interpreter -/

/-- Indexing a pool out of range, like popping an empty stack below, is a runtime error of
the host language; no compiled program gets there. -/
def poolAt (pool : List α) (a : Int) : Run α :=
  if a < 0 then .stuck
  else match pool[a.toNat]? with
    | some item => .ok item
    | none => .stuck

def applyPoolBinary (op : PoolOp) (left right : Value) : Value :=
  match op with
  | .binary op => applyBinaryValues op left right
  | .unary _ => .error

def applyPoolUnary (op : PoolOp) (value : Value) : Value :=
  match op with
  | .unary op => applyUnaryValue op value
  | .binary _ => .error

def jumpTo (a : Int) (stack : List Value) : Run (Nat × List Value) :=
  if a < 0 then .stuck else .ok (a.toNat, stack)

/-- The jump of a short-circuit instruction: the decided result replaces the left operand. -/
def stepShort (op : BinaryOperator) (a : Int) (ip : Nat) : List Value → Run (Nat × List Value)
  | [] => .stuck
  | left :: rest => match shortCircuit op left with
    | some decided => jumpTo a (decided :: rest)
    | none => .ok (ip + 1, left :: rest)

def stepCombine (combine : Value → Value → Value) (ip : Nat) :
    List Value → Run (Nat × List Value)
  | right :: left :: rest => .ok (ip + 1, combine left right :: rest)
  | _ => .stuck

section
variable (host : Host) (world : World) (recurse : Recurse) (ev : Evaluator) (p : Program)

/-- Execute one instruction; the stack's top is the head of the list. -/
def step (instr : Instr) (ip : Nat) (stack : List Value) : Run (Nat × List Value) :=
  match instr.op with
  | .pushConst => do
    let value ← poolAt p.consts instr.a
    .ok (ip + 1, value :: stack)
  | .pushTrue => .ok (ip + 1, .boolean true :: stack)
  | .pushFalse => .ok (ip + 1, .boolean false :: stack)
  | .pushUndef => .ok (ip + 1, .undefined :: stack)
  | .pushError => .ok (ip + 1, .error :: stack)
  | .loadRef => do
    let (name, scope) ← poolAt p.refs instr.a
    let value ← evaluateAttributeReference host world recurse ev name scope
    .ok (ip + 1, value :: stack)
  | .binop => do
    let op ← poolAt p.ops instr.a
    stepCombine (applyPoolBinary op) ip stack
  | .unop => do
    let op ← poolAt p.ops instr.a
    match stack with
    | value :: rest => .ok (ip + 1, applyPoolUnary op value :: rest)
    | [] => .stuck
  | .shortAnd => stepShort .and instr.a ip stack
  | .shortOr => stepShort .or instr.a ip stack
  | .combineAnd => stepCombine (applyBinaryValues .and) ip stack
  | .combineOr => stepCombine (applyBinaryValues .or) ip stack
  | .jmpIfNotUndef => match stack with
    | value :: rest => if value.isUndefined then .ok (ip + 1, rest) else jumpTo instr.a stack
    | [] => .stuck
  | .evalNode => do
    let node ← poolAt p.nodes instr.a
    let value ← recurse ev node
    .ok (ip + 1, value :: stack)

/-- The fetch-execute loop, bounded by the number of instructions it may execute. -/
def exec : Nat → Nat → List Value → Run Value
  | 0, _, _ => .stuck
  | steps + 1, ip, stack =>
    match p.code[ip]? with
    | none => .ok (stack.headD .undefined)
    | some instr => do
      let (ip', stack') ← step host world recurse ev p instr ip stack
      exec steps ip' stack'

end

/-- `Run`: execute a program in a scope. The deferred `RecoverCyclic` hands over to the function
that calls `recover`, which is one frame too deep to catch anything: a panic leaves `Run`. -/
def run (host : Host) (world : World) (fuel steps : Nat) (p : Program) (scope : Scope) : Run Value :=
  exec host world (evaluate host world .panics fuel) (newEvaluator scope) p steps 0 []

/-- The value a program yields in a scope. -/
def Yields (host : Host) (world : World) (p : Program) (scope : Scope) (value : Value) : Prop :=
  ∃ fuel steps, run host world fuel steps p scope = .ok value

/-- Running a program in a scope ends in a panic. -/
def Crashes (host : Host) (world : World) (p : Program) (scope : Scope) : Prop :=
  ∃ fuel steps, run host world fuel steps p scope = .panic

end Classad.VmCompile
