import Classad.QueryProbeProofs
import Classad.VecKernelProofs

/-! The vectorized executor marks the records the scalar interpreter finds true. Both are
compared, for one record, with the value the expression has when its references go to a
resolver: the interpreter reaches it through the tree walker, the executor by running the
same code without the jumps. -/
namespace Classad.VecEvalProofs
open Syntax Operators OperatorProofs PartialRun TreeWalk TreeWalkSimulation VmCompile VmSimulation
open VmCompileProofs QueryProbe QueryProbeProofs BitPlanes VecColumns VecColumnProofs VecEval VecKernelProofs
open Program (addNode empty ins)

/-! ## Native expressions -/

/-- The expressions compiled without delegating a node. -/
def Native : Expr → Prop
  | .nil | .integer _ | .real _ | .string _ | .boolean _ | .undefined | .error | .reference _ _ => True
  | .paren inner => Native inner
  | .unary _ operand => Native operand
  | .binary _ left right => Native left ∧ Native right
  | .elvis left right => Native left ∧ Native right
  | .conditional _ _ _ | .list _ | .record _ | .call _ _ | .select _ _ | .subscript _ _ => False

/-- The value of a native expression whose references go to a resolver. -/
def resolvedValue (host : Host) (resolve : String → AttributeScope → Value) : Expr → Value
  | .nil | .undefined => .undefined
  | .integer value => .integer value
  | .real value => .real value
  | .string value => .string value
  | .boolean value => .boolean value
  | .reference name scope =>
    if (resolve name scope).isUndefined && isCurrentTimeRef host name scope then .integer host.now
    else resolve name scope
  | .paren inner => resolvedValue host resolve inner
  | .unary op operand => applyUnaryValue op (resolvedValue host resolve operand)
  | .binary op left right =>
    applyBinaryValues op (resolvedValue host resolve left) (resolvedValue host resolve right)
  | .elvis left right =>
    if (resolvedValue host resolve left).isUndefined then resolvedValue host resolve right
    else resolvedValue host resolve left
  | .error | .conditional _ _ _ | .list _ | .record _ | .call _ _ | .select _ _ | .subscript _ _ => .error

/-- A record on which vectorizing an expression is exact: every operator gets operands its
fast path is exact for, and the clock does not stand in for a missing attribute. -/
def vecExact (host : Host) (resolve : String → AttributeScope → Value) : Expr → Bool
  | .reference name scope => !((resolve name scope).isUndefined && isCurrentTimeRef host name scope)
  | .paren inner => vecExact host resolve inner
  | .unary _ operand => vecExact host resolve operand
  | .binary op left right => vecExact host resolve left && vecExact host resolve right &&
      operandsExact op (resolvedValue host resolve left) (resolvedValue host resolve right)
  | .elvis left right => vecExact host resolve left && vecExact host resolve right
  | _ => true

/-- A program without nodes comes from a native expression. -/
theorem native_of_nodes : ∀ (expr : Expr) (p : Program), (emit expr p).nodes = [] → Native expr
  | .nil, _, _ | .integer _, _, _ | .real _, _, _ | .string _, _, _ | .boolean _, _, _
  | .undefined, _, _ | .error, _, _ | .reference _ _, _, _ => trivial
  | .paren inner, p, bare => native_of_nodes inner p bare
  | .unary _ operand, p, bare => native_of_nodes operand p bare
  | .binary op left right, p, bare => by
    have both : ∀ jump : Program, jump.nodes = (emit left p).nodes → (emit right jump).nodes = [] →
        Native left ∧ Native right := by
      intro jump same empty
      have before := (continues_emit right jump).nodes
      rw [empty, List.prefix_nil, same] at before
      exact ⟨native_of_nodes left p before, native_of_nodes right jump empty⟩
    cases op with
    | and => exact both ((emit left p).ins .shortAnd (-1)) rfl bare
    | or => exact both ((emit left p).ins .shortOr (-1)) rfl bare
    | _ => exact both (emit left p) rfl bare
  | .elvis left right, p, bare => by
    have before := (continues_emit right ((emit left p).ins .jmpIfNotUndef (-1))).nodes
    have empty : (emit right ((emit left p).ins .jmpIfNotUndef (-1))).nodes = [] := bare
    rw [empty, List.prefix_nil] at before
    exact ⟨native_of_nodes left p before, native_of_nodes right _ empty⟩
  | .conditional _ _ _, p, bare | .list _, p, bare | .record _, p, bare | .call _ _, p, bare
  | .select _ _, p, bare | .subscript _ _, p, bare => by
    simp [emit, addNode, ins] at bare

/-! ## The scalar side -/

section
variable {host : Host} {world : World} {resolve : String → AttributeScope → Value}

/-- The evaluator of one record. -/
abbrev recordEvaluator (resolve : String → AttributeScope → Value) (depth : Nat) : Evaluator :=
  ⟨[], depth, [], some resolve⟩

/-- A node entered below the recursion guard hands its operands one level less. -/
theorem evaluate_node (present : expr ≠ .nil) (below : depth < maxEvalDepth) :
    evaluate host world .observed (fuel + 1) (recordEvaluator resolve depth) expr =
      evalNode host world (evaluate host world .observed fuel) (recordEvaluator resolve (depth + 1)) expr := by
  rw [evaluate_succ present, if_neg (not_le.mpr below)]

/-- Far enough below the recursion guard, the tree walker gives a native expression its
value. -/
theorem evaluate_native : ∀ (expr : Expr), Native expr → ∀ fuel depth, astHeight expr ≤ fuel →
    depth + astHeight expr ≤ maxEvalDepth → evaluate host world .observed fuel (recordEvaluator resolve depth) expr =
      .ok (resolvedValue host resolve expr) := by
  intro expr native fuel depth enough below
  have positive : 1 ≤ astHeight expr := by
    cases expr <;> simp only [astHeight] <;> omega
  obtain ⟨fuel, rfl⟩ : ∃ rest, fuel = rest + 1 := ⟨fuel - 1, by omega⟩
  match expr, native with
  | .nil, _ => rfl
  | .integer _, _ | .real _, _ | .string _, _ | .boolean _, _ | .undefined, _ | .error, _ =>
    exact evaluate_node (by simp) (by omega)
  | .reference name scope, _ =>
    refine (evaluate_node (by simp) (by omega)).trans ?_
    simp only [evalNode, evaluateAttributeReference, resolveAttributeReference, Run.ok_bind, resolvedValue]
    split <;> rfl
  | .paren inner, native =>
    simp only [astHeight] at enough below
    refine (evaluate_node (by simp) (by omega)).trans ?_
    exact evaluate_native inner native fuel (depth + 1) (by omega) (by omega)
  | .unary op operand, native =>
    simp only [astHeight] at enough below
    have value := evaluate_native operand native fuel (depth + 1) (by omega) (by omega)
    refine (evaluate_node (by simp) (by omega)).trans ?_
    simp [evalNode, value, Run.ok_bind, resolvedValue]
  | .binary op left right, native =>
    simp only [astHeight] at enough below
    have first := evaluate_native left native.1 fuel (depth + 1) (by omega) (by omega)
    have second := evaluate_native right native.2 fuel (depth + 1) (by omega) (by omega)
    refine (evaluate_node (by simp) (by omega)).trans ?_
    exact binaryOp_value first second
  | .elvis left right, native =>
    simp only [astHeight] at enough below
    have first := evaluate_native left native.1 fuel (depth + 1) (by omega) (by omega)
    have second := evaluate_native right native.2 fuel (depth + 1) (by omega) (by omega)
    refine (evaluate_node (by simp) (by omega)).trans ?_
    simp only [evalNode, evaluateElvis, first, second, Run.ok_bind, resolvedValue]
    split <;> rfl

/-- A program has at most one value for a record. -/
theorem resolvesTo_unique (first : ResolvesTo host p resolve left)
    (second : ResolvesTo host p resolve right) : left = right := by
  obtain ⟨fuel, steps, ran⟩ := first
  obtain ⟨fuel', steps', ran'⟩ := second
  have mono : ∀ fuel fuel' steps steps', fuel ≤ fuel' → steps ≤ steps' →
      Run.Refines (· = ·) (evalResolved host fuel steps p resolve) (evalResolved host fuel' steps' p resolve) :=
    fun _ _ _ _ more longer => exec_mono more longer p
  obtain ⟨_, met, same⟩ := (mono _ (max fuel fuel') _ (max steps steps') (Nat.le_max_left ..)
    (Nat.le_max_left ..)).ok_inv ran
  obtain ⟨_, met', same'⟩ := (mono _ (max fuel fuel') _ (max steps steps') (Nat.le_max_right ..)
    (Nat.le_max_right ..)).ok_inv ran'
  rw [same, same']
  exact Run.ok.inj (met.symm.trans met')

/-- A native program compiled from an expression that is not too deep gives every record
the expression's value; only whether it is the boolean true matters here. -/
theorem resolvesTo_native (native : Native expr) (shallow : astHeight expr < maxNativeDepth) :
    ResolvesTo host (compileProgram expr) resolve (.boolean true) ↔
    resolvedValue host resolve expr = .boolean true := by
  have answered : evaluate host (fun _ => []) .observed (astHeight expr)
      (atDepth (recordEvaluator resolve 0) 0) expr = .ok (resolvedValue host resolve expr) := by
    refine evaluate_native expr native _ 0 le_rfl ?_
    unfold maxNativeDepth at shallow
    unfold maxEvalDepth
    omega
  obtain ⟨value, steps, ran, same⟩ := exec_of_answer answered
  have resolves : ResolvesTo host (compileProgram expr) resolve value := by
    refine ⟨astHeight expr, steps, ?_⟩
    rw [evalResolved, ran]
  constructor
  · intro matched
    rw [resolvesTo_unique resolves matched] at same
    generalize resolvedValue host resolve expr = scalar at same ⊢
    cases same
    rfl
  · intro holds
    rw [holds] at same
    cases same
    exact resolves

end

/-! ## The vector side -/

section
variable {host : Host} {n : Nat} {engine : Engine} {src : ColumnSource engine n} {slots : Nat → Vec n}
variable {q p : Program} {i : Fin n} {out : Vec n}

/-- The executor entered at instruction `ip` with a stack. -/
def vecFrom (engine : Engine) (src : ColumnSource engine n) (slots : Nat → Vec n) (q : Program) (ip : Nat)
    (stack : List (Vec n)) : Except Fault (Vec n) :=
  execVec engine q src slots (q.code.drop ip) ip stack

variable {ε α β : Type}

@[simp] theorem ok_bind (a : α) (f : α → Except ε β) : (Except.ok a >>= f) = f a := rfl

theorem except_bind_ok {f : α → Except ε β}
    (computed : (x >>= f) = .ok result) : ∃ a, x = .ok a ∧ f a = .ok result := by
  cases x with
  | error e => cases computed
  | ok a => exact ⟨a, rfl, computed⟩

theorem orDecline_ok (accepted : orDecline x = .ok a) : x = some a := by
  cases x with
  | none => cases accepted
  | some b =>
    cases accepted
    rfl

variable {stack : List (Vec n)}

/-- One instruction that the executor accepted. -/
theorem vecFrom_step {instr : Instr} (fetched : q.code[ip]? = some instr)
    (accepted : vecFrom engine src slots q ip stack = .ok out) :
    ∃ stack', stepVec engine q src instr (slots ip) stack = .ok stack' ∧
      vecFrom engine src slots q (ip + 1) stack' = .ok out := by
  obtain ⟨inside, found⟩ := List.getElem?_eq_some_iff.mp fetched
  rw [vecFrom, List.drop_eq_getElem_cons inside, found, execVec] at accepted
  exact except_bind_ok accepted

theorem pooled_last (extended : pool ++ [item] <+: pool') :
    pooled pool' (pool.length : Int) = .ok item := by
  have found : pool'[pool.length]? = some item := by
    obtain ⟨rest, rfl⟩ := extended
    simp
  simp only [pooled, Int.toNat_natCast, found]
  rw [if_neg (by omega)]

/-- What code for an expression promises of an accepted batch, wherever it is placed: the
vector it pushes has the expression's value for the record. -/
def Vectorized (host : Host) (src : ColumnSource engine n) (slots : Nat → Vec n) (q : Program) (i : Fin n)
    (expr : Expr) : Prop :=
  ∀ p stack out, Carries q p.code.length (emit expr p) →
    vecFrom engine src slots q p.code.length stack = .ok out →
    ∃ v, Reads engine v i (resolvedValue host (src.value i) expr) ∧
      vecFrom engine src slots q (emit expr p).code.length (v :: stack) = .ok out

/-- An instruction that broadcasts a constant. -/
theorem vectorized_const {op : Opcode} {a : Int} (elem : Elem)
    (carries : Carries q p.code.length (p.ins op a)) (plain : Elem.NotCode elem)
    (stepped : stepVec engine q src ⟨op, a⟩ (slots p.code.length) stack =
      (slots p.code.length).broadcast elem >>= fun v => .ok (v :: stack))
    (accepted : vecFrom engine src slots q p.code.length stack = .ok out) :
    ∃ v, Reads engine v i (elem.toValue none) ∧
      vecFrom engine src slots q (p.ins op a).code.length (v :: stack) = .ok out := by
  obtain ⟨stack', done, rest⟩ := vecFrom_step (carries.fetch le_rfl) accepted
  rw [stepped] at done
  obtain ⟨v, filled, pushed⟩ := except_bind_ok done
  cases pushed
  rw [ins_length]
  exact ⟨v, broadcast_reads plain filled i, rest⟩

theorem vectorized_pushConst
    (held : Elem.ofValue value = some elem) (carries : Carries q p.code.length (p.pushConst value))
    (accepted : vecFrom engine src slots q p.code.length stack = .ok out) :
    ∃ v, Reads engine v i value ∧ vecFrom engine src slots q (p.pushConst value).code.length (v :: stack) =
      .ok out := by
  obtain ⟨plain, same⟩ := ofValue_spec held
  have stepped : stepVec engine q src ⟨.pushConst, p.consts.length⟩ (slots p.code.length) stack =
      (slots p.code.length).broadcast elem >>= fun v => .ok (v :: stack) := by
    simp [stepVec, pooled_last carries.consts, ok_bind, held, orDecline]
  obtain ⟨v, reads, rest⟩ := vectorized_const (i := i) (p := { p with consts := p.consts ++ [value] }) elem carries
    plain stepped accepted
  rw [same none] at reads
  exact ⟨v, reads, rest⟩

theorem vectorized_reference {scope : AttributeScope}
    (exact : vecExact host (src.value i) (.reference name scope) = true)
    (carries : Carries q p.code.length (p.addRef name scope))
    (accepted : vecFrom engine src slots q p.code.length stack = .ok out) :
    ∃ v, Reads engine v i (resolvedValue host (src.value i) (.reference name scope)) ∧
      vecFrom engine src slots q (p.addRef name scope).code.length (v :: stack) = .ok out := by
  have length : (p.addRef name scope).code.length = p.code.length + 1 := ins_length
  obtain ⟨stack', done, rest⟩ := vecFrom_step (carries.fetch le_rfl) accepted
  simp only [stepVec, pooled_last carries.refs, ok_bind] at done
  obtain ⟨v, loaded, pushed⟩ := except_bind_ok done
  cases pushed
  have column := orDecline_ok loaded
  have known : resolvedValue host (src.value i) (.reference name scope) = src.value i name scope := by
    have clock : ((src.value i name scope).isUndefined && isCurrentTimeRef host name scope) = false := by
      rwa [vecExact, Bool.not_eq_true'] at exact
    rw [resolvedValue, clock]
    rfl
  rw [known, length]
  exact ⟨v, ⟨src.valid _ _ _ _ column, src.exact _ _ _ _ column i⟩, rest⟩

theorem vectorized_unary {op : UnaryOperator} {operand : Expr} (inner : Vectorized host src slots q i operand) :
    Vectorized host src slots q i (.unary op operand) := by
  intro p stack out carries accepted
  have inside := (continues_emit operand p).length_le
  have length : (emit (.unary op operand) p).code.length = (emit operand p).code.length + 1 := ins_length
  obtain ⟨v, reads, reached⟩ := inner p stack out
    (carries.earlier (continues_addOp (emit operand p))) accepted
  obtain ⟨stack', done, rest⟩ := vecFrom_step ((carries.later inside).fetch le_rfl) reached
  simp only [stepVec, pooled_last carries.ops, ok_bind] at done
  obtain ⟨result, computed, pushed⟩ := except_bind_ok done
  cases pushed
  rw [length]
  exact ⟨result, unopVec_reads reads (orDecline_ok computed), rest⟩

theorem vectorized_strict {op : BinaryOperator} {left right : Expr}
    (first : Vectorized host src slots q i left) (second : Vectorized host src slots q i right)
    (exact : operandsExact op (resolvedValue host (src.value i) left) (resolvedValue host (src.value i) right) = true)
    (carries : Carries q p.code.length ((emit right (emit left p)).addOp (.binary op) .binop))
    (accepted : vecFrom engine src slots q p.code.length stack = .ok out) :
    ∃ v, Reads engine v i (resolvedValue host (src.value i) (.binary op left right)) ∧
      vecFrom engine src slots q ((emit right (emit left p)).addOp (.binary op) .binop).code.length
        (v :: stack) = .ok out := by
  have inLeft := (continues_emit left p).length_le
  have inRight := (continues_emit right (emit left p)).length_le
  have length : ((emit right (emit left p)).addOp (.binary op) .binop).code.length =
      (emit right (emit left p)).code.length + 1 := ins_length
  have operands := carries.earlier (continues_addOp _)
  obtain ⟨l, leftReads, afterLeft⟩ := first p stack out (operands.earlier (continues_emit right _)) accepted
  obtain ⟨r, rightReads, afterRight⟩ := second _ _ out (operands.later inLeft) afterLeft
  obtain ⟨stack', done, rest⟩ :=
    vecFrom_step ((carries.later (le_trans inLeft inRight)).fetch le_rfl) afterRight
  simp only [stepVec, pooled_last carries.ops, ok_bind] at done
  obtain ⟨result, computed, pushed⟩ := except_bind_ok done
  cases pushed
  rw [length]
  exact ⟨result, binopVec_reads leftReads rightReads exact (orDecline_ok computed), rest⟩

/-- The jump is passed over: the right operand always runs and the two are combined. -/
theorem vectorized_logical (short : Opcode)
    (logical : op = .and ∨ op = .or) (merges : Merges word op)
    (first : Vectorized host src slots q i left) (second : Vectorized host src slots q i right)
    (shortStep : ∀ a slot stack, stepVec engine q src ⟨short, a⟩ slot stack = .ok stack)
    (combineStep : ∀ a slot l r rest, stepVec engine q src ⟨combine, a⟩ slot (r :: l :: rest) =
      .ok (logicalVec engine word l r :: rest))
    (carries : Carries q p.code.length (emitLogical short combine (emit left) (emit right) p))
    (accepted : vecFrom engine src slots q p.code.length stack = .ok out) :
    ∃ v, Reads engine v i (resolvedValue host (src.value i) (.binary op left right)) ∧
      vecFrom engine src slots q (emitLogical short combine (emit left) (emit right) p).code.length
        (v :: stack) = .ok out := by
  obtain ⟨operand, fetched, jump_length, body, last, length⟩ := carries.logical
  obtain ⟨l, leftReads, afterLeft⟩ := first p stack out operand accepted
  obtain ⟨kept, passed, afterJump⟩ := vecFrom_step fetched afterLeft
  rw [shortStep] at passed
  cases passed
  rw [← jump_length] at afterJump
  obtain ⟨r, rightReads, afterRight⟩ := second _ _ out body afterJump
  obtain ⟨stack', done, rest⟩ := vecFrom_step last afterRight
  rw [combineStep] at done
  cases done
  rw [length]
  exact ⟨_, logicalVec_reads logical merges leftReads rightReads, rest⟩

/-- The executor declines at the jump of `?:`, right after the left operand. -/
theorem vectorized_elvis (first : Vectorized host src slots q i left) :
    Vectorized host src slots q i (.elvis left right) := by
  intro p stack out carries accepted
  let jump := (emit left p).ins .jmpIfNotUndef (-1)
  obtain ⟨operand, fetched, _⟩ :=
    Carries.jump (continues_emit right jump) (continues_emit left p).length_le carries
  obtain ⟨l, _, afterLeft⟩ := first p stack out operand accepted
  obtain ⟨_, refused, _⟩ := vecFrom_step fetched afterLeft
  cases refused

/-- A delegated node is declined where it stands. -/
theorem vectorized_delegated (delegated : ∀ p, emit expr p = p.addNode expr) : Vectorized host src slots q i expr := by
  intro p stack out carries accepted
  rw [delegated] at carries
  obtain ⟨_, refused, _⟩ := vecFrom_step (carries.fetch le_rfl) accepted
  cases refused

/-- Every expression form, by recursion on the expression. -/
theorem vectorized : ∀ expr, vecExact host (src.value i) expr = true → Vectorized host src slots q i expr
  | .nil, _ | .undefined, _ => fun _ _ _ carries accepted =>
    vectorized_const .undef carries trivial rfl accepted
  | .error, _ => fun _ _ _ carries accepted => vectorized_const .error carries trivial rfl accepted
  | .boolean true, _ => fun _ _ _ carries accepted =>
    vectorized_const (.bool true) carries trivial rfl accepted
  | .boolean false, _ => fun _ _ _ carries accepted =>
    vectorized_const (.bool false) carries trivial rfl accepted
  | .integer _, _ | .real _, _ | .string _, _ => fun _ _ _ carries accepted =>
    vectorized_pushConst rfl carries accepted
  | .reference _ _, exact => fun _ _ _ carries accepted => vectorized_reference exact carries accepted
  | .paren inner, exact => vectorized inner exact
  | .unary _ operand, exact => vectorized_unary (vectorized operand exact)
  | .binary op left right, exact => by
    obtain ⟨operands, here⟩ := Bool.and_eq_true_iff.mp exact
    obtain ⟨leftExact, rightExact⟩ := Bool.and_eq_true_iff.mp operands
    have first := vectorized left leftExact
    have second := vectorized right rightExact
    intro p stack out carries accepted
    cases op with
    | and =>
      exact vectorized_logical .shortAnd (.inl rfl) andWord_merges first second
        (fun _ _ _ => rfl) (fun _ _ _ _ _ => rfl) carries accepted
    | or =>
      exact vectorized_logical .shortOr (.inr rfl) orWord_merges first second
        (fun _ _ _ => rfl) (fun _ _ _ _ _ => rfl) carries accepted
    | _ => exact vectorized_strict first second here carries accepted
  | .elvis left right, exact => by
    obtain ⟨leftExact, _⟩ := Bool.and_eq_true_iff.mp exact
    exact vectorized_elvis (vectorized left leftExact)
  | .conditional _ _ _, _ | .list _, _ | .record _, _ | .call _ _, _ | .select _ _, _ | .subscript _ _, _ =>
    vectorized_delegated fun _ => rfl

/-- A batch the executor accepts has the expression's value for every record on which
vectorizing is exact. -/
theorem execVec_reads (shallow : astHeight expr < maxNativeDepth)
    (accepted : execVec engine (compileProgram expr) src slots (compileProgram expr).code 0 [] = .ok out)
    (exact : vecExact host (src.value i) expr = true) : Reads engine out i (resolvedValue host (src.value i) expr) := by
  have program : compileProgram expr =
      { emit expr empty with readAttrs := collectReads expr [], expr := expr } := by
    rw [compileProgram, if_neg (by omega)]
  have carries : Carries (compileProgram expr) 0 (emit expr empty) := by
    rw [program]
    exact carries_annotated _ _ _
  obtain ⟨v, reads, ended⟩ := vectorized expr exact empty [] out carries accepted
  have finished : (compileProgram expr).code.drop (emit expr empty).code.length = [] := by
    rw [program, List.drop_length]
  rw [vecFrom, finished, execVec] at ended
  cases ended
  exact reads

end

/-- The vectorized executor and the scalar interpreter find the same records true. For any
compiled query it accepts, any batch and any representation of its columns, a record is
marked exactly when its scalar value is the boolean true, provided the record keeps the
query's operators within what their fast paths are exact for. -/
theorem vecEval_exact {n : Nat} (engine : Engine) (host : Host) (expr : Expr) (src : ColumnSource engine n)
    (slots : Nat → Vec n) (marks : Vec n)
    (accepted : vecEval engine (compile host expr).prog src slots = .ok marks) (i : Fin n)
    (exact : vecExact host (src.value i) (compile host expr).prog.expr = true) :
    marks.isTrue i = true ↔ ResolvesTo host (compile host expr).prog (src.value i) (.boolean true) := by
  rw [compile_prog] at accepted ⊢
  generalize (compile host expr).prog.expr = folded at accepted exact ⊢
  unfold vecEval at accepted
  split at accepted
  · cases accepted
  next bare =>
    have shallow : astHeight folded < maxNativeDepth := by
      by_contra deep
      rw [compileProgram, if_pos (by omega)] at bare
      exact bare (by simp [addNode, ins, empty])
    have native : Native folded := by
      rw [compileProgram, if_neg (by omega)] at bare
      exact native_of_nodes folded empty (not_not.mp bare)
    rw [resolvesTo_native native shallow]
    exact (execVec_reads shallow accepted exact).isTrue

/-- A batch of integer columns, with the attributes some records lack. -/
def integerBatch (engine : Engine) {n : Nat} (column : Fin n → String → Option Int64) : ColumnSource engine n where
  value i name _ := (column i name).elim .undefined .integer
  loadColumn name _ slot := some
    { slot.pushed with data := Vector.ofFn fun i => (column i name).elim .undef .int }
  valid := by
    intro name scope slot v loaded
    cases loaded
    constructor
    · intro const
      cases const
    · intro mask
      cases mask
    · intro _ stored
      cases stored
    · intro _ _ i code held
      rw [get_ofFn] at held
      cases found : column _ name <;> rw [found] at held <;> cases held
  exact := by
    intro name scope slot v loaded i
    cases loaded
    rw [value_data rfl rfl, get_ofFn]
    simp only [Vec.index, Bool.false_eq_true, if_false, Vec.pushed]
    cases column i name <;> rfl

def blankSlot {n : Nat} : Vec n where
  data := .replicate n .undef
  hi := fillPlane n false
  lo := fillPlane n false
  raw := none
  dict := none
  const := false
  mask := false

/-- The query `A < B`. -/
def orderQuery : Expr := .binary .less (.reference "A" .none) (.reference "B" .none)

/-- Three records, the last of which lacks `B`. -/
def sampleBatch (i : Fin 3) (name : String) : Option Int64 :=
  if name = "A" then some (Int64.ofNat i) else if i = 2 then none else some 1

theorem vecEval_exact_on_sample :
    ∃ marks, vecEval (.amd64 true) (compile (asciiHost 0) orderQuery).prog
        (integerBatch (.amd64 true) sampleBatch) (fun _ => blankSlot) = .ok marks ∧ marks.isTrue 0 = true ∧
      ResolvesTo (asciiHost 0) (compile (asciiHost 0) orderQuery).prog
        ((integerBatch (.amd64 true) sampleBatch).value 0) (.boolean true) := by
  refine ⟨_, rfl, by decide +kernel, ?_⟩
  exact (vecEval_exact (.amd64 true) (asciiHost 0) orderQuery (integerBatch (.amd64 true) sampleBatch)
    (fun _ => blankSlot) _ rfl 0 (by decide +kernel)).mp (by decide +kernel)

/-- One record with `A` and `B` on either side of a gap between the reals. -/
def gapBatch (_ : Fin 1) (name : String) : Option Int64 :=
  if name = "A" then some 9007199254740992 else some 9007199254740993

/-- The executor orders `2^53` and `2^53 + 1` as integers and marks the record. The scalar
interpreter compares them as reals, where they are equal. -/
theorem vecEval_orders_beyond_reals :
    ∃ marks, vecEval .off (compile (asciiHost 0) orderQuery).prog
        (integerBatch .off gapBatch) (fun _ => blankSlot) = .ok marks ∧ marks.isTrue 0 = true ∧
      ¬ ResolvesTo (asciiHost 0) (compile (asciiHost 0) orderQuery).prog
        ((integerBatch .off gapBatch).value 0) (.boolean true) := by
  refine ⟨_, rfl, by decide +kernel, ?_⟩
  intro resolves
  have compared : ResolvesTo (asciiHost 0) (compile (asciiHost 0) orderQuery).prog
      ((integerBatch .off gapBatch).value 0) (.boolean false) := ⟨20, 20, by rfl⟩
  cases resolvesTo_unique resolves compared

end Classad.VecEvalProofs
