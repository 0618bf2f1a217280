import Classad.TreeWalkSimulation
import Classad.VmCompile

/-! Compiled programs compute what the tree walker computes. The proof follows the tree
walker's own order of evaluation: each subexpression's code is a stretch of the final
program that, entered with any stack, leaves the subexpression's value on top of it or
ends in the same panic. -/
namespace Classad.VmCompileProofs
open Syntax Operators PartialRun TreeWalk TreeWalkSimulation VmCompile List
open Run (Refines)
open Program (empty ins patch)

/-! ## Stretches of a program -/

/-- `q` runs the code that `r` holds from `start` on, with pools that extend those of `r`. -/
structure Carries (q : Program) (start : Nat) (r : Program) : Prop where
  code : ∀ i, start ≤ i → i < r.code.length → q.code[i]? = r.code[i]?
  consts : r.consts <+: q.consts
  ops : r.ops <+: q.ops
  refs : r.refs <+: q.refs
  nodes : r.nodes <+: q.nodes

/-- `r` continues `p`: nothing already emitted has changed. -/
structure Continues (p r : Program) : Prop where
  code : p.code <+: r.code
  consts : p.consts <+: r.consts
  ops : p.ops <+: r.ops
  refs : p.refs <+: r.refs
  nodes : p.nodes <+: r.nodes

theorem Continues.trans (first : Continues p q) (second : Continues q r) : Continues p r :=
  ⟨first.code.trans second.code, first.consts.trans second.consts, first.ops.trans second.ops,
    first.refs.trans second.refs, first.nodes.trans second.nodes⟩

section
variable (p : Program)

theorem continues_ins {op : Opcode} : Continues p (p.ins op a) :=
  ⟨prefix_append _ _, prefix_rfl, prefix_rfl, prefix_rfl, prefix_rfl⟩

theorem continues_pushConst (value : Value) : Continues p (p.pushConst value) :=
  ⟨prefix_append _ _, prefix_append _ _, prefix_rfl, prefix_rfl,
    prefix_rfl⟩

theorem continues_addOp {op : PoolOp} : Continues p (p.addOp op opcode) :=
  ⟨prefix_append _ _, prefix_rfl, prefix_append _ _, prefix_rfl,
    prefix_rfl⟩

theorem continues_addRef : Continues p (p.addRef name scope) :=
  ⟨prefix_append _ _, prefix_rfl, prefix_rfl, prefix_append _ _,
    prefix_rfl⟩

theorem continues_addNode (node : Expr) : Continues p (p.addNode node) :=
  ⟨prefix_append _ _, prefix_rfl, prefix_rfl, prefix_rfl,
    prefix_append _ _⟩

theorem patch_other (other : i ≠ j) : (p.patch i target).code[j]? = p.code[j]? := by
  simp [patch, other]

theorem patch_same (target : Nat) (found : p.code[i]? = some instr) :
    (p.patch i target).code[i]? = some { instr with a := target } := by
  simp [patch, found]

end

/-- Patching an instruction that `p` has not emitted yet leaves `p` alone. -/
theorem continues_patch (continues : Continues p r) (later : p.code.length ≤ i) (target : Nat) :
    Continues p (r.patch i target) := by
  refine ⟨?_, continues.consts, continues.ops, continues.refs, continues.nodes⟩
  rw [prefix_iff_getElem?]
  intro j inside
  have kept := prefix_iff_getElem?.mp continues.code j inside
  rw [patch_other r (by omega), kept]

theorem patch_length {p : Program} (i target : Nat) : (p.patch i target).code.length = p.code.length := by
  simp [patch]

theorem ins_length {p : Program} {op : Opcode} : (p.ins op a).code.length = p.code.length + 1 := by
  simp [ins]

theorem Continues.length_le (continues : Continues p r) : p.code.length ≤ r.code.length :=
  continues.code.length_le

theorem continues_emitLogical (short combine : Opcode)
    (first : ∀ p, Continues p (emitLeft p)) (second : ∀ p, Continues p (emitRight p)) (p : Program) :
    Continues p (emitLogical short combine emitLeft emitRight p) := by
  refine continues_patch ?_ (first p).length_le _
  exact (first p).trans ((continues_ins _).trans ((second _).trans (continues_ins _)))

/-- Emitting code only ever adds to a program. -/
theorem continues_emit : ∀ (expr : Expr) (p : Program), Continues p (emit expr p)
  | .nil, p | .undefined, p | .error, p => continues_ins p
  | .boolean value, p => by
    cases value
    · exact continues_ins p
    · exact continues_ins p
  | .integer _, p | .real _, p | .string _, p => continues_pushConst p _
  | .reference name scope, p => continues_addRef p
  | .paren inner, p => continues_emit inner p
  | .unary op operand, p => (continues_emit operand p).trans (continues_addOp _)
  | .binary op left right, p => by
    have strict : Continues p ((emit right (emit left p)).addOp (.binary op) .binop) :=
      (continues_emit left p).trans ((continues_emit right _).trans (continues_addOp _))
    cases op with
    | and | or =>
      exact continues_emitLogical _ _ (continues_emit left) (continues_emit right) p
    | _ => exact strict
  | .elvis left right, p =>
    continues_patch ((continues_emit left p).trans
      ((continues_ins _).trans (continues_emit right _))) (continues_emit left p).length_le _
  | .conditional _ _ _, p | .list _, p | .record _, p | .call _ _, p | .select _ _, p
  | .subscript _ _, p => continues_addNode p _

/-- A stretch carries each earlier part of itself. -/
theorem Carries.earlier (carries : Carries q start r) (continues : Continues p r) :
    Carries q start p where
  code := by
    intro i from_ inside
    have within := Nat.lt_of_lt_of_le inside continues.length_le
    rw [carries.code i from_ within]
    have kept := prefix_iff_getElem?.mp continues.code i inside
    rw [kept, getElem?_eq_getElem inside]
  consts := continues.consts.trans carries.consts
  ops := continues.ops.trans carries.ops
  refs := continues.refs.trans carries.refs
  nodes := continues.nodes.trans carries.nodes

theorem Carries.later (carries : Carries q start r) (further : start ≤ start') : Carries q start' r :=
  ⟨fun i from_ inside => carries.code i (Nat.le_trans further from_) inside,
    carries.consts, carries.ops, carries.refs, carries.nodes⟩

/-- Past the patched instruction, a patched stretch carries what was there before. -/
theorem Carries.unpatch (carries : Carries q start (r.patch i target)) (past : i < start) :
    Carries q start r where
  code := by
    intro j from_ inside
    rw [carries.code j from_ (by rwa [patch_length]), patch_other r (by omega)]
  consts := carries.consts
  ops := carries.ops
  refs := carries.refs
  nodes := carries.nodes

/-! ## Following the tree walker -/

/-- The evaluator at another recursion depth. -/
abbrev atDepth (ev : Evaluator) (depth : Nat) : Evaluator := { ev with depth := depth }

section
variable (host : Host) (world : World) (guard : DepthGuard) (ev : Evaluator) (fuel : Nat) (q : Program)

/-- The loop of the interpreter on program `q`, entered at `ip` with a stack. -/
def machine (steps ip : Nat) (stack : List Value) : Run Value :=
  exec host world (evaluate host world guard fuel) (atDepth ev 0) q steps ip stack

abbrev Same : Value → Value → Prop := ValuesAgree (selfComparison host world .observed guard)

def Reaches (ip : Nat) (stack : List Value) (ip' : Nat) (stack' : List Value) : Prop :=
  ∃ taken, ∀ steps, machine host world guard ev fuel q (taken + steps) ip stack =
    machine host world guard ev fuel q steps ip' stack'

def Panics (ip : Nat) (stack : List Value) : Prop :=
  ∃ taken, ∀ steps, machine host world guard ev fuel q (taken + steps) ip stack = .panic

/-- The machine does from `ip` what the tree walk `tree` does: it arrives at `ip'` with the
tree's value on top of `base`, or fails as the tree does. -/
def Follows (tree : Run Value) (ip : Nat) (stack : List Value) (ip' : Nat) (base : List Value) :
    Prop :=
  match tree with
  | .ok value => ∃ value', Same host world guard value value' ∧
      Reaches host world guard ev fuel q ip stack ip' (value' :: base)
  | .panic => Panics host world guard ev fuel q ip stack
  | .stuck => True

end

section
variable {host : Host} {world : World} {guard : DepthGuard} {ev : Evaluator} {fuel : Nat} {p q : Program}

section
variable (reaches : Reaches host world guard ev fuel q ip stack ip' stack')
include reaches

theorem Reaches.panics
    (panics : Panics host world guard ev fuel q ip' stack') : Panics host world guard ev fuel q ip stack := by
  obtain ⟨taken, eq⟩ := reaches
  obtain ⟨taken', eq'⟩ := panics
  refine ⟨taken + taken', fun steps => ?_⟩
  rw [Nat.add_assoc, eq, eq']

theorem Reaches.follows
    (follows : Follows host world guard ev fuel q tree ip' stack' target base) :
    Follows host world guard ev fuel q tree ip stack target base := by
  cases tree with
  | ok value =>
    obtain ⟨value', same, taken', eq'⟩ := follows
    obtain ⟨taken, eq⟩ := reaches
    refine ⟨value', same, taken + taken', fun steps => ?_⟩
    rw [Nat.add_assoc, eq, eq']
  | panic => exact reaches.panics follows
  | stuck => trivial

end

theorem follows_ok (same : Same host world guard value value') :
    Follows host world guard ev fuel q (.ok value) ip (value' :: base) ip base :=
  ⟨value', same, 0, fun steps => by rw [Nat.zero_add]⟩

/-- Sequencing: the machine follows a bind by following its two halves in turn. -/
theorem Follows.bind {next : Value → Run Value} (first : Follows host world guard ev fuel q tree ip stack middle base)
    (rest : ∀ value value', Same host world guard value value' →
      Follows host world guard ev fuel q (next value) middle (value' :: base) target base') :
    Follows host world guard ev fuel q (tree >>= next) ip stack target base' := by
  cases tree with
  | ok value =>
    obtain ⟨value', same, reaches⟩ := first
    exact reaches.follows (rest value value' same)
  | panic => exact first
  | stuck => trivial

/-- One instruction that neither panics nor crashes. -/
theorem reaches_step (fetched : q.code[ip]? = some instr)
    (stepped : step host world (evaluate host world guard fuel) (atDepth ev 0) q instr ip stack = .ok (ip', stack')) :
    Reaches host world guard ev fuel q ip stack ip' stack' := by
  refine ⟨1, fun steps => ?_⟩
  rw [machine, Nat.add_comm, exec, fetched]
  simp [stepped, Run.ok_bind, machine]

/-- One instruction that pushes the outcome of an evaluation. -/
theorem follows_push (fetched : q.code[ip]? = some instr)
    (stepped : step host world (evaluate host world guard fuel) (atDepth ev 0) q instr ip
      stack = outcome >>= fun value => .ok (ip + 1, value :: stack))
    (refines : Refines (Same host world guard) tree outcome) :
    Follows host world guard ev fuel q tree ip stack (ip + 1) stack := by
  cases refines with
  | stuck => trivial
  | panic =>
    refine ⟨1, fun steps => ?_⟩
    rw [machine, Nat.add_comm, exec, fetched]
    simp [stepped, Run.panic_bind]
  | ok same => exact (reaches_step fetched stepped).follows (follows_ok same)

/-! ## Every expression form -/

theorem poolAt_last (extended : pool ++ [item] <+: pool') : poolAt pool' (pool.length : Int) = .ok item := by
  have found : pool'[pool.length]? = some item := by
    obtain ⟨rest, rfl⟩ := extended
    simp
  simp only [poolAt, Int.toNat_natCast, found]
  rw [if_neg (by omega)]

theorem Carries.fetch (carries : Carries q start (p.ins op a))
    (reached : start ≤ p.code.length) : q.code[p.code.length]? = some ⟨op, a⟩ := by
  rw [carries.code _ reached (by rw [ins_length]; omega)]
  simp [ins]

theorem follows_literal (carries : Carries q p.code.length (p.ins op a)) (same : Same host world guard value value')
    (stepped : step host world (evaluate host world guard fuel) (atDepth ev 0) q ⟨op, a⟩
      p.code.length stack = .ok (p.code.length + 1, value' :: stack)) :
    Follows host world guard ev fuel q (.ok value) p.code.length stack (p.ins op a).code.length stack := by
  rw [ins_length]
  exact (reaches_step (carries.fetch (Nat.le_refl _)) stepped).follows (follows_ok same)

theorem follows_const (plain : OperatorProofs.IsPlain value) (carries : Carries q p.code.length (p.pushConst value)) :
    Follows host world guard ev fuel q (.ok value) p.code.length stack (p.pushConst value).code.length stack := by
  have length : (p.pushConst value).code.length = p.code.length + 1 := ins_length
  rw [length]
  refine (reaches_step (carries.fetch (Nat.le_refl _)) ?_).follows (follows_ok (.ofPlain plain))
  simp [step, poolAt_last carries.consts, Run.ok_bind]

/-- A delegated node: the machine evaluates it from depth zero. -/
theorem follows_delegated (p : Program) (enough : n ≤ fuel) (carries : Carries q p.code.length (p.addNode expr)) :
    Follows host world guard ev fuel q (evaluate host world .observed n (atDepth ev depth) expr) p.code.length stack
      (p.addNode expr).code.length stack := by
  have fetched := carries.fetch (Nat.le_refl _)
  have length : (p.addNode expr).code.length = p.code.length + 1 := ins_length
  rw [length]
  refine follows_push fetched ?_ (evaluate_shallower_at enough (Nat.zero_le depth))
  simp [step, poolAt_last carries.nodes, Run.ok_bind]

theorem follows_reference (enough : n ≤ fuel) (carries : Carries q p.code.length (p.addRef name attrScope)) :
    Follows host world guard ev fuel q (evaluateAttributeReference host world (evaluate host world .observed n)
        (atDepth ev depth) name attrScope) p.code.length stack (p.addRef name attrScope).code.length stack := by
  have fetched := carries.fetch (Nat.le_refl _)
  have length : (p.addRef name attrScope).code.length = p.code.length + 1 := ins_length
  have refines : Refines (Same host world guard)
      (evaluateAttributeReference host world (evaluate host world .observed n)
        (atDepth ev depth) name attrScope)
      (evaluateAttributeReference host world (evaluate host world guard fuel)
        (atDepth ev 0) name attrScope) :=
    evaluateAttributeReference_sim
      (evaluate_sim (selfComparison host world .observed guard) enough)
      (self_agree_at (.inl rfl) (.inl ⟨rfl, Nat.zero_le depth⟩)) fun _ => trivial
  rw [length]
  refine follows_push fetched ?_ refines
  simp [step, poolAt_last carries.refs, Run.ok_bind]

theorem follows_unop (carries : Carries q p.code.length (p.addOp (.unary op) .unop))
    (same : Same host world guard value value') :
    Follows host world guard ev fuel q (.ok (applyUnaryValue op value)) p.code.length
      (value' :: stack) (p.addOp (.unary op) .unop).code.length stack := by
  have length : (p.addOp (.unary op) .unop).code.length = p.code.length + 1 := ins_length
  rw [length]
  refine (reaches_step (carries.fetch (Nat.le_refl _)) ?_).follows (follows_ok (same.applyUnary op))
  simp [step, poolAt_last carries.ops, Run.ok_bind, applyPoolUnary]

theorem follows_binop (carries : Carries q p.code.length (p.addOp (.binary op) .binop))
    (first : Same host world guard left left') (second : Same host world guard right right') :
    Follows host world guard ev fuel q (.ok (applyBinaryValues op left right)) p.code.length
      (right' :: left' :: stack) (p.addOp (.binary op) .binop).code.length stack := by
  have length : (p.addOp (.binary op) .binop).code.length = p.code.length + 1 := ins_length
  rw [length]
  refine (reaches_step (carries.fetch (Nat.le_refl _)) ?_).follows
    (follows_ok (first.applyBinary op second))
  simp [step, poolAt_last carries.ops, Run.ok_bind, stepCombine, applyPoolBinary]

/-- What compiled code for an expression promises, wherever it is placed. -/
def Compiled (host : Host) (world : World) (guard : DepthGuard) (ev : Evaluator) (fuel : Nat) (q : Program)
    (expr : Expr) : Prop :=
  ∀ p n depth stack, n ≤ fuel → Carries q p.code.length (emit expr p) →
    Follows host world guard ev fuel q
      (evaluate host world .observed n (atDepth ev depth) expr)
      p.code.length stack (emit expr p).code.length stack

/-- Code around a backpatched jump: the part before it, the jump with its target filled
in, and the part it skips, all sit in the program as they were emitted. -/
theorem Carries.jump (continues : Continues (before.ins short (-1)) whole) (reached : start ≤ before.code.length)
    (carries : Carries q start (whole.patch before.code.length whole.code.length)) :
    Carries q start before ∧ q.code[before.code.length]? = some ⟨short, whole.code.length⟩ ∧
    Carries q (before.code.length + 1) whole := by
  have jump_length : (before.ins short (-1)).code.length = before.code.length + 1 :=
    ins_length
  have longer := continues.length_le
  have emitted : whole.code[before.code.length]? = some ⟨short, -1⟩ := by
    rw [prefix_iff_getElem?.mp continues.code before.code.length (by omega)]
    simp [ins]
  refine ⟨?_, ?_, ?_⟩
  · exact carries.earlier (continues_patch ((continues_ins before).trans continues)
      (Nat.le_refl _) _)
  · rw [carries.code _ reached (by rw [patch_length]; omega)]
    exact patch_same whole _ emitted
  · exact (carries.later (by omega)).unpatch (by omega)

/-- Short-circuit code: the left operand, the jump, the right operand and the combining instruction. -/
theorem Carries.logical (carries : Carries q p.code.length (emitLogical short combine (emit left) (emit right) p)) :
    let jump := (emit left p).ins short (-1)
    let body := emit right jump
    Carries q p.code.length (emit left p) ∧
    q.code[(emit left p).code.length]? = some ⟨short, (body.ins combine 0).code.length⟩ ∧
    jump.code.length = (emit left p).code.length + 1 ∧ Carries q jump.code.length body ∧
    q.code[body.code.length]? = some ⟨combine, 0⟩ ∧
    (emitLogical short combine (emit left) (emit right) p).code.length = body.code.length + 1 := by
  intro jump body
  obtain ⟨operand, fetched, skipped⟩ :=
    Carries.jump ((continues_emit right jump).trans (continues_ins body)) (continues_emit left p).length_le carries
  have jump_length : jump.code.length = (emit left p).code.length + 1 := ins_length
  rw [← jump_length] at skipped
  exact ⟨operand, fetched, jump_length, skipped.earlier (continues_ins body),
    (skipped.later (continues_emit right jump).length_le).fetch (Nat.le_refl _), (patch_length _ _).trans ins_length⟩

theorem jumpTo_nat {target : Nat} : jumpTo (target : Int) stack = .ok (target, stack) := by
  simp only [jumpTo, Int.toNat_natCast]
  rw [if_neg (by omega)]

section
variable (first : Compiled host world guard ev fuel q left) (second : Compiled host world guard ev fuel q right)
include first second

/-- Short-circuit code: the jump lands right after the combining instruction. -/
theorem follows_logical
    (shortStep : ∀ a ip stack, step host world (evaluate host world guard fuel)
      (atDepth ev 0) q ⟨short, a⟩ ip stack = stepShort op a ip stack)
    (combineStep : ∀ a ip stack, step host world (evaluate host world guard fuel)
      (atDepth ev 0) q ⟨combine, a⟩ ip stack = stepCombine (applyBinaryValues op) ip stack) (enough : n ≤ fuel)
    (carries : Carries q p.code.length (emitLogical short combine (emit left) (emit right) p)) :
    Follows host world guard ev fuel q
      (evaluateShortCircuit (evaluate host world .observed n) (atDepth ev depth) op left right)
      p.code.length stack (emitLogical short combine (emit left) (emit right) p).code.length stack := by
  obtain ⟨operand, fetched, jump_length, body, last, length⟩ := carries.logical
  rw [length]
  refine (first p n depth stack enough operand).bind fun value value' same => ?_
  have decide (target : Int) := shortStep target (emit left p).code.length (value' :: stack)
  simp only [stepShort, ← same.logicalView.shortCircuit op] at decide
  cases decided : shortCircuit op value with
  | some result =>
    rw [ins_length] at fetched
    rw [decided] at decide
    have plain := OperatorProofs.shortCircuit_plain decided
    exact (reaches_step fetched ((decide _).trans jumpTo_nat)).follows (follows_ok (.ofPlain plain))
  | none =>
    rw [decided] at decide
    refine (reaches_step fetched (decide _)).follows ?_
    rw [← jump_length]
    refine (second _ n depth _ enough body).bind fun other other' same' => ?_
    exact (reaches_step last (combineStep _ _ _)).follows (follows_ok (same.applyBinary op same'))

/-- Elvis code: a defined left operand jumps over the fallback, an undefined one is
dropped before it. -/
theorem follows_elvis (enough : n ≤ fuel)
    (carries : Carries q p.code.length (emit (.elvis left right) p)) :
    Follows host world guard ev fuel q (evaluateElvis (evaluate host world .observed n) (atDepth ev depth) left right)
      p.code.length stack (emit (.elvis left right) p).code.length stack := by
  let before := emit left p
  let jump := before.ins .jmpIfNotUndef (-1)
  let whole := emit right jump
  have jump_length : jump.code.length = before.code.length + 1 := ins_length
  have length : (emit (.elvis left right) p).code.length = whole.code.length := patch_length _ _
  obtain ⟨operand, fetched, skipped⟩ :=
    Carries.jump (continues_emit right jump) (continues_emit left p).length_le carries
  rw [← jump_length] at skipped
  rw [length]
  refine (first p n depth stack enough operand).bind fun value value' same => ?_
  have undefinedness := same.isUndefined
  split
  next undef =>
    have dropped : step host world (evaluate host world guard fuel) (atDepth ev 0) q
        ⟨.jmpIfNotUndef, whole.code.length⟩ before.code.length (value' :: stack) =
          .ok (before.code.length + 1, stack) := by
      simp [step, ← undefinedness, undef]
    refine (reaches_step fetched dropped).follows ?_
    rw [← jump_length]
    exact second jump n depth stack enough skipped
  next undef =>
    have kept : step host world (evaluate host world guard fuel) (atDepth ev 0) q
        ⟨.jmpIfNotUndef, whole.code.length⟩ before.code.length (value' :: stack) =
          .ok (whole.code.length, value' :: stack) := by
      simp only [step, ← undefinedness, undef]
      exact jumpTo_nat
    exact (reaches_step fetched kept).follows (follows_ok same)

theorem follows_strict (enough : n ≤ fuel)
    (carries : Carries q p.code.length ((emit right (emit left p)).addOp (.binary op) .binop)) :
    Follows host world guard ev fuel q (do
        let leftValue ← evaluate host world .observed n (atDepth ev depth) left
        let rightValue ← evaluate host world .observed n (atDepth ev depth) right
        .ok (applyBinaryValues op leftValue rightValue))
      p.code.length stack ((emit right (emit left p)).addOp (.binary op) .binop).code.length stack := by
  have inLeft := (continues_emit left p).length_le
  have inRight := (continues_emit right (emit left p)).length_le
  have operands := carries.earlier (continues_addOp _)
  refine (first p n depth stack enough
    (operands.earlier (continues_emit right _))).bind fun value value' same => ?_
  refine (second _ n depth _ enough (operands.later inLeft)).bind fun other other' same' => ?_
  exact follows_binop (carries.later (Nat.le_trans inLeft inRight)) same same'

end

/-- Below the recursion guard, evaluating an expression is evaluating its node. -/
theorem compiled_of_node (present : expr ≠ .nil)
    (node : ∀ p n depth stack, n ≤ fuel → Carries q p.code.length (emit expr p) → Follows host world guard ev fuel q
        (evalNode host world (evaluate host world .observed n) (atDepth ev depth) expr)
        p.code.length stack (emit expr p).code.length stack) : Compiled host world guard ev fuel q expr := by
  intro p n depth stack enough carries
  cases n with
  | zero => trivial
  | succ n =>
    rw [evaluate_succ present]
    split
    · trivial
    · exact node p n (depth + 1) stack (by omega) carries

theorem compiled_nil : Compiled host world guard ev fuel q .nil := by
  intro p n depth stack enough carries
  cases n with
  | zero => trivial
  | succ n => exact follows_literal carries .undefined rfl

theorem compiled_unary (inner : Compiled host world guard ev fuel q operand) :
    Compiled host world guard ev fuel q (.unary op operand) := by
  refine compiled_of_node (by simp) fun p n depth stack enough carries => ?_
  have inside := (continues_emit operand p).length_le
  have code := carries.earlier (continues_addOp (emit operand p))
  refine (inner p n depth stack enough code).bind fun value value' same => ?_
  exact follows_unop (carries.later inside) same

theorem compiled_binary (first : Compiled host world guard ev fuel q left)
    (second : Compiled host world guard ev fuel q right) :
    Compiled host world guard ev fuel q (.binary op left right) := by
  refine compiled_of_node (by simp) fun p n depth stack enough carries => ?_
  cases op with
  | and => exact follows_logical first second (fun _ _ _ => rfl) (fun _ _ _ => rfl) enough carries
  | or => exact follows_logical first second (fun _ _ _ => rfl) (fun _ _ _ => rfl) enough carries
  | _ => exact follows_strict first second enough carries

theorem compiled_delegated (delegated : ∀ p, emit expr p = p.addNode expr) :
    Compiled host world guard ev fuel q expr := by
  intro p n depth stack enough carries
  rw [delegated] at carries ⊢
  exact follows_delegated p enough carries

/-- Compiled code computes its expression, by recursion on the expression. -/
theorem compiled (host : Host) (world : World) (guard : DepthGuard) (ev : Evaluator) (fuel : Nat) (q : Program) :
    ∀ expr, Compiled host world guard ev fuel q expr
  | .nil => compiled_nil
  | .undefined => compiled_of_node (by simp) fun _ _ _ _ _ carries =>
    follows_literal carries .undefined rfl
  | .error => compiled_of_node (by simp) fun _ _ _ _ _ carries =>
    follows_literal carries .error rfl
  | .boolean true => compiled_of_node (by simp) fun _ _ _ _ _ carries =>
    follows_literal carries (.boolean true) rfl
  | .boolean false => compiled_of_node (by simp) fun _ _ _ _ _ carries =>
    follows_literal carries (.boolean false) rfl
  | .integer value => compiled_of_node (by simp) fun _ _ _ _ _ carries =>
    follows_const (show OperatorProofs.IsPlain (.integer value) from trivial) carries
  | .real value => compiled_of_node (by simp) fun _ _ _ _ _ carries =>
    follows_const (show OperatorProofs.IsPlain (.real value) from trivial) carries
  | .string value => compiled_of_node (by simp) fun _ _ _ _ _ carries =>
    follows_const (show OperatorProofs.IsPlain (.string value) from trivial) carries
  | .reference _ _ => compiled_of_node (by simp) fun _ _ _ _ enough carries =>
    follows_reference enough carries
  | .paren inner => compiled_of_node (by simp) fun p n depth stack enough carries =>
    compiled host world guard ev fuel q inner p n depth stack enough carries
  | .unary _ operand => compiled_unary (compiled host world guard ev fuel q operand)
  | .binary _ left right =>
    compiled_binary (compiled host world guard ev fuel q left) (compiled host world guard ev fuel q right)
  | .elvis left right => compiled_of_node (by simp) fun _ _ _ _ enough carries =>
    follows_elvis (compiled host world guard ev fuel q left) (compiled host world guard ev fuel q right)
      enough carries
  | .conditional _ _ _ | .list _ | .record _ | .call _ _ | .select _ _ | .subscript _ _ =>
    compiled_delegated fun _ => rfl

/-- Attaching the read set and the source expression changes no code. -/
theorem carries_annotated (p : Program) (readAttrs : List String) (expr : Expr) :
    Carries { p with readAttrs := readAttrs, expr := expr } 0 p :=
  ⟨fun _ _ _ => rfl, prefix_rfl, prefix_rfl, prefix_rfl, prefix_rfl⟩

/-- A whole program, entered at its start with an empty stack. -/
theorem compileProgram_follows (host : Host) (world : World) (guard : DepthGuard) (ev : Evaluator) (fuel : Nat)
    (expr : Expr) :
    Follows host world guard ev fuel (compileProgram expr) (evaluate host world .observed fuel (atDepth ev 0) expr) 0 []
      (compileProgram expr).code.length [] := by
  unfold compileProgram
  split
  · have carries := carries_annotated (Program.empty.addNode expr) (collectReads expr []) expr
    exact follows_delegated empty (Nat.le_refl fuel) carries
  · have carries := carries_annotated (emit expr empty) (collectReads expr []) expr
    exact compiled host world guard ev fuel _ expr empty fuel 0 [] (Nat.le_refl fuel) carries

/-- Past the last instruction the machine returns the top of its stack. -/
theorem machine_end (value : Value) (stack : List Value) :
    machine host world guard ev fuel q 1 q.code.length (value :: stack) = .ok value := by
  simp [machine, exec]

/-! ## Whole programs -/

/-- What the tree walker answers below its recursion guard, the compiled program computes. -/
theorem exec_of_answer (answered : evaluate host world .observed fuel (atDepth ev 0) expr = .ok value) :
    ∃ value' steps, exec host world (evaluate host world guard fuel) (atDepth ev 0)
      (compileProgram expr) steps 0 [] = .ok value' ∧ Same host world guard value value' := by
  have follows := compileProgram_follows host world guard ev fuel expr
  rw [answered] at follows
  obtain ⟨value', same, taken, reached⟩ := follows
  exact ⟨value', taken + 1, (reached 1).trans (machine_end _ _), same⟩

theorem exec_of_panic (panicked : evaluate host world .observed fuel (atDepth ev 0) expr = .panic) :
    ∃ steps, exec host world (evaluate host world guard fuel) (atDepth ev 0) (compileProgram expr) steps 0 [] =
      .panic := by
  have follows := compileProgram_follows host world guard ev fuel expr
  rw [panicked] at follows
  obtain ⟨taken, stopped⟩ := follows
  exact ⟨taken + 0, stopped 0⟩

theorem yields_of_answer (answered : evaluate host world .observed fuel (newEvaluator scope) expr = .ok value) :
    ∃ value', Yields host world (compileProgram expr) scope value' ∧ Same host world .panics value value' := by
  obtain ⟨value', steps, ended, same⟩ :=
    @exec_of_answer host world .panics (newEvaluator scope) fuel expr value answered
  exact ⟨value', ⟨fuel, steps, ended⟩, same⟩

theorem crashes_of_panic (panicked : evaluate host world .observed fuel (newEvaluator scope) expr = .panic) :
    Crashes host world (compileProgram expr) scope := by
  obtain ⟨steps, ended⟩ := @exec_of_panic host world .panics (newEvaluator scope) fuel expr panicked
  exact ⟨fuel, steps, ended⟩

end

end Classad.VmCompileProofs
