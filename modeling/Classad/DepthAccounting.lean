import Classad.TreeWalkSimulation
import Classad.VmCompileProofs
import Classad.VmSimulation

/-! The two engines side by side. The tree walker counts every node it enters; a compiled
program counts none of its own, so whatever it enters starts again at depth zero, and so do the
elements of the lists it builds. The tree walker's entry points catch a panic, `Run` does not. -/
namespace Classad.DepthAccounting
open Syntax Operators PartialRun TreeWalk TreeWalkSimulation VmCompile VmSimulation VmCompileProofs

/-- Node types that are left to the tree walker, root and all. -/
def isDelegated : Expr → Bool
  | .conditional _ _ _ | .list _ | .record _ | .call _ _ | .select _ _ | .subscript _ _ => true
  | _ => false

/-- The program is one call of the tree walker. -/
def DelegatedWhole (expr : Expr) : Prop := maxNativeDepth ≤ astHeight expr ∨ isDelegated expr = true

section
variable (host : Host) (world : World) (scope : Scope)

/-- The run of a program ends without reaching the guard. -/
def ProgramStaysBelow (p : Program) : Prop :=
  ∃ fuel steps, exec host world (evaluate host world .observed fuel) (newEvaluator scope) p steps 0 [] ≠ .stuck

/-- Both engines reach the depth guard or neither does, and they return the same value. -/
structure GuardsAgree (expr : Expr) : Prop where
  guards : StaysBelowMaxDepth host world scope expr ↔ ProgramStaysBelow host world scope (compileProgram expr)
  compiled : ∀ value, Evaluates host world scope expr value →
    ∃ value', Yields host world (compileProgram expr) scope value' ∧ Alike host world value value'
  walked : ∀ value', Yields host world (compileProgram expr) scope value' →
    ∃ value, Evaluates host world scope expr value ∧ Alike host world value value'

end

section
variable {host : Host} {world : World} {scope : Scope} {expr : Expr}

/-! ## Outcomes are unique -/

/-- An evaluation that answers does not panic, whatever its fuel. -/
theorem not_panics_of_answer {guard : DepthGuard}
    (answered : evaluate host world guard fuel (newEvaluator scope) expr = .ok value) :
    ¬Panics host world scope guard expr := by
  rintro ⟨fuel', panicked⟩
  have more (n : Nat) (enough : n ≤ max fuel fuel') :
    Run.Refines _ (evaluate host world guard n (newEvaluator scope) expr)
      (evaluate host world guard (max fuel fuel') (newEvaluator scope) expr) :=
    evaluate_sim (selfComparison host world guard guard) enough _ _ expr
      (self_agree (self_depth (.inr rfl)) scope []) (within_of_all (fun _ => trivial) expr)
  have first := more fuel (Nat.le_max_left _ _)
  have second := more fuel' (Nat.le_max_right _ _)
  rw [answered] at first
  rw [panicked] at second
  generalize evaluate host world guard (max fuel fuel') (newEvaluator scope) expr = outcome at first second
  cases first
  cases second

theorem answer_of_shallow (shallow : StaysBelowMaxDepth host world scope expr)
    (acyclic : ¬Panics host world scope .observed expr) :
    ∃ fuel value, evaluate host world .observed fuel (newEvaluator scope) expr = .ok value := by
  obtain ⟨fuel, answered⟩ := shallow
  cases tree : evaluate host world .observed fuel (newEvaluator scope) expr with
  | stuck => exact absurd tree answered
  | panic => exact absurd ⟨fuel, tree⟩ acyclic
  | ok value => exact ⟨fuel, value, tree⟩

/-! ## Below the guard -/

/-- More fuel keeps an observed evaluation below the guard. -/
theorem fits_more {depth fuel fuel' : Nat} {expr : Expr} (more : fuel ≤ fuel')
    (fits : evaluate host world .observed fuel (atDepth (newEvaluator scope) depth) expr ≠ .stuck) :
    evaluate host world .observed fuel' (atDepth (newEvaluator scope) depth) expr ≠ .stuck := by
  have refines : Run.Refines (ValuesAgree (selfComparison host world .observed .observed))
      (evaluate host world .observed fuel (atDepth (newEvaluator scope) depth) expr)
      (evaluate host world .observed fuel' (atDepth (newEvaluator scope) depth) expr) :=
    evaluate_shallower_at more (Nat.le_refl depth)
  intro stuck
  rw [stuck] at refines
  cases ran : evaluate host world .observed fuel (atDepth (newEvaluator scope) depth) expr with
  | stuck => exact fits ran
  | ok _ | panic =>
    rw [ran] at refines
    cases refines

/-- What the two engines make of an evaluation that can be read below the guard, no reader can
tell apart. -/
theorem alike_of_reads (reads : ReadsBelowMaxDepth host world scope expr) :
    ∃ value value', Evaluates host world scope expr value ∧ Yields host world (compileProgram expr) scope value' ∧
      Alike host world value value' := by
  obtain ⟨fuel, value, answered, readable⟩ := reads
  obtain ⟨walked, evaluates, same⟩ := evaluates_of_answer answered
  obtain ⟨value', yields, same'⟩ := yields_of_answer answered
  refine ⟨walked, value', evaluates, yields, .inr fun levels => ?_⟩
  obtain ⟨enough, seen, read⟩ := readable levels
  obtain ⟨_, shownLeft, rfl⟩ := (shown_sim (Nat.le_refl enough) (.inl rfl) levels same).ok_inv read
  obtain ⟨_, shownRight, rfl⟩ := (shown_sim (Nat.le_refl enough) (.inl rfl) levels same').ok_inv read
  exact ⟨enough, seen, shownLeft, shownRight⟩

theorem program_stays_below (shallow : StaysBelowMaxDepth host world scope expr) :
    ProgramStaysBelow host world scope (compileProgram expr) := by
  obtain ⟨fuel, answered⟩ := shallow
  cases tree : evaluate host world .observed fuel (newEvaluator scope) expr with
  | stuck => exact absurd tree answered
  | panic =>
    obtain ⟨steps, ended⟩ := @exec_of_panic host world .observed (newEvaluator scope) fuel expr tree
    exact ⟨fuel, steps, ended.symm ▸ nofun⟩
  | ok value =>
    obtain ⟨value', steps, ended, -⟩ := @exec_of_answer host world .observed (newEvaluator scope) fuel expr value tree
    exact ⟨fuel, steps, ended.symm ▸ nofun⟩

theorem guardsAgree_of_reads (reads : ReadsBelowMaxDepth host world scope expr) :
    GuardsAgree host world scope expr := by
  obtain ⟨value, value', evaluates, yields, alike⟩ := alike_of_reads reads
  have shallow : StaysBelowMaxDepth host world scope expr := by
    obtain ⟨fuel, answer, answered, -⟩ := reads
    exact ⟨fuel, by rw [answered]; exact nofun⟩
  refine ⟨⟨fun _ => program_stays_below shallow, fun _ => shallow⟩, ?_, ?_⟩
  · intro other evaluates'
    exact ⟨value', yields, evaluates_unique evaluates evaluates' ▸ alike⟩
  · intro other yields'
    exact ⟨value, evaluates, yields_unique yields yields' ▸ alike⟩

/-! ## Expressions that are delegated whole -/

theorem compileProgram_delegated (whole : DelegatedWhole expr) :
    ∃ reads source, compileProgram expr = { Program.empty.addNode expr with readAttrs := reads, expr := source } := by
  refine ⟨collectReads expr [], expr, ?_⟩
  unfold compileProgram
  split
  · rfl
  next native =>
    have delegated : isDelegated expr = true := whole.resolve_left native
    cases expr <;> first | rfl | cases delegated

theorem exec_node (recurse : Recurse) (steps : Nat) :
    exec host world recurse ev { Program.empty.addNode expr with readAttrs := reads, expr := source } (steps + 1) 0 [] =
      (recurse ev expr >>= fun value =>
        exec host world recurse ev { Program.empty.addNode expr with readAttrs := reads, expr := source }
          steps 1 [value]) := by
  change ((recurse ev expr >>= fun value => Run.ok (1, [value])) >>= _) = _
  cases recurse ev expr <;> rfl

/-- A delegated program is one call of the tree walker, unless it is stopped before the end. -/
theorem exec_delegated (whole : DelegatedWhole expr)
    (recurse : Recurse) (steps : Nat) :
    exec host world recurse (newEvaluator scope) (compileProgram expr) steps 0 [] = .stuck ∨
      exec host world recurse (newEvaluator scope) (compileProgram expr) steps 0 [] =
        recurse (newEvaluator scope) expr := by
  obtain ⟨reads, source, compiled⟩ := compileProgram_delegated whole
  rw [compiled]
  cases steps with
  | zero => exact .inl rfl
  | succ steps =>
    rw [exec_node]
    cases recurse (newEvaluator scope) expr with
    | stuck => exact .inl rfl
    | panic => exact .inr rfl
    | ok value =>
      cases steps with
      | zero => exact .inl rfl
      | succ steps => exact .inr rfl

section
variable (whole : DelegatedWhole expr)
include whole

theorem exec_delegated_end (recurse : Recurse) :
    exec host world recurse (newEvaluator scope) (compileProgram expr) 2 0 [] = recurse (newEvaluator scope) expr := by
  obtain ⟨reads, source, compiled⟩ := compileProgram_delegated whole
  rw [compiled, exec_node]
  cases recurse (newEvaluator scope) expr <;> rfl

/-- What a program delegated whole yields is what the tree walker returns without a panic. -/
theorem yields_delegated : Yields host world (compileProgram expr) scope value ↔
    ∃ fuel, evaluate host world .panics fuel (newEvaluator scope) expr = .ok value := by
  constructor
  · rintro ⟨fuel, steps, ran⟩
    refine ⟨fuel, ?_⟩
    obtain stopped | ended := @exec_delegated host world scope expr whole (evaluate host world .panics fuel) steps
    · rw [run, stopped] at ran
      cases ran
    · rwa [run, ended] at ran
  · rintro ⟨fuel, ran⟩
    exact ⟨fuel, 2, by rwa [run, exec_delegated_end whole]⟩

theorem guardsAgree_of_delegated : GuardsAgree host world scope expr ↔ ¬Panics host world scope .panics expr := by
  constructor
  · rintro agree ⟨fuel, panicked⟩
    obtain ⟨value', yields, -⟩ := agree.compiled .error ⟨fuel, by rw [panicked]; rfl⟩
    obtain ⟨fuel', returned⟩ := (yields_delegated whole).mp yields
    exact not_panics_of_answer returned ⟨fuel, panicked⟩
  · intro quiet
    refine ⟨⟨?_, ?_⟩, ?_, ?_⟩
    · rintro ⟨fuel, below⟩
      exact ⟨fuel, 2, by rwa [exec_delegated_end whole]⟩
    · rintro ⟨fuel, steps, below⟩
      obtain stopped | ended := @exec_delegated host world scope expr whole (evaluate host world .observed fuel) steps
      · exact absurd stopped below
      · exact ⟨fuel, by rwa [← ended]⟩
    · rintro value ⟨fuel, ran⟩
      refine ⟨value, (yields_delegated whole).mpr ⟨fuel, ?_⟩, .inl rfl⟩
      cases outcome : evaluate host world .panics fuel (newEvaluator scope) expr with
      | panic => exact absurd ⟨fuel, outcome⟩ quiet
      | stuck => rw [outcome] at ran; cases ran
      | ok answer => rwa [outcome] at ran
    · rintro value yields
      obtain ⟨fuel, returned⟩ := (yields_delegated whole).mp yields
      exact ⟨value, ⟨fuel, by rw [returned]; rfl⟩, .inl rfl⟩

end

end

/-! ## Deep parentheses -/

section Nesting

/-- An expression inside a number of parentheses. -/
def nest (inner : Expr) : Nat → Expr
  | 0 => inner
  | count + 1 => .paren (nest inner count)

/-- Parentheses use one level each. -/
theorem evaluate_nest (host : Host) (world : World) (guard : DepthGuard) (number : Int64) (count fuel : Nat)
    (ev : Evaluator) (enough : count < fuel) :
    evaluate host world guard fuel ev (nest (.integer number) count) =
      if ev.depth + count < maxEvalDepth then .ok (.integer number) else guard.fire := by
  induction count generalizing fuel ev with
  | zero =>
    obtain ⟨fuel, rfl⟩ := Nat.exists_eq_succ_of_ne_zero (Nat.ne_zero_of_lt enough)
    change (if maxEvalDepth ≤ ev.depth then guard.fire else Run.ok (.integer number)) =
      if ev.depth < maxEvalDepth then .ok (.integer number) else guard.fire
    by_cases below : ev.depth < maxEvalDepth
    · rw [if_neg (Nat.not_le.mpr below), if_pos below]
    · rw [if_pos (Nat.le_of_not_lt below), if_neg below]
  | succ count ih =>
    obtain ⟨fuel, rfl⟩ := Nat.exists_eq_succ_of_ne_zero (Nat.ne_zero_of_lt enough)
    rw [nest, evaluate_succ Expr.noConfusion]
    by_cases below : ev.depth < maxEvalDepth
    · rw [if_neg (Nat.not_le.mpr below)]
      change evaluate host world guard fuel { ev with depth := ev.depth + 1 } (nest (.integer number) count) = _
      rw [ih fuel _ (by omega), show ev.depth + 1 + count = ev.depth + (count + 1) by omega]
    · rw [if_pos (Nat.le_of_not_lt below), if_neg (by omega)]

/-- The ad `[x = ((...1...))]`. -/
def nestedAd (count : Nat) : Scope := [⟨.root 0, [("x", nest (.integer 1) (count + 1))], none⟩]

variable (guard : DepthGuard)

/-- Resolving `x` evaluates its expression at the depth of the reference. -/
theorem reference_nested (depth count fuel : Nat) (enough : count + 1 < fuel) :
    evaluateAttributeReference (asciiHost 0) (fun _ => []) (evaluate (asciiHost 0) (fun _ => []) guard fuel)
        (atDepth (newEvaluator (nestedAd count)) depth) "x" .none =
      if depth + (count + 1) < maxEvalDepth then .ok (.integer 1) else guard.fire := by
  have walked : evaluateAttributeReference (asciiHost 0) (fun _ => []) (evaluate (asciiHost 0) (fun _ => []) guard fuel)
        (atDepth (newEvaluator (nestedAd count)) depth) "x" .none =
      (evaluate (asciiHost 0) (fun _ => []) guard fuel ⟨nestedAd count, depth, [(.root 0, "x")], none⟩
        (nest (.integer 1) (count + 1)) >>= fun value =>
        if value.isUndefined && isCurrentTimeRef (asciiHost 0) "x" .none then .ok (.integer 0) else .ok value) := rfl
  rw [walked, evaluate_nest _ _ _ _ _ _ _ enough]
  split
  · rfl
  · cases guard <;> rfl

/-- The expression `(x)`. -/
def entering : Expr := .paren (.reference "x" .none)

theorem evaluate_entering (count : Nat) {fuel : Nat} (enough : count + 1 < fuel) :
    evaluate (asciiHost 0) (fun _ => []) guard (fuel + 2) (newEvaluator (nestedAd count)) entering =
      if 2 + (count + 1) < maxEvalDepth then .ok (.integer 1) else guard.fire :=
  reference_nested guard 2 count fuel enough

theorem exec_entering (count fuel : Nat) (enough : count + 1 < fuel) (room : count + 1 < maxEvalDepth) :
    exec (asciiHost 0) (fun _ => []) (evaluate (asciiHost 0) (fun _ => []) guard fuel)
      (newEvaluator (nestedAd count)) (compileProgram entering) 2 0 [] = .ok (.integer 1) := by
  have loaded := reference_nested guard 0 count fuel enough
  rw [if_pos (by omega)] at loaded
  have compiled : compileProgram entering =
      { Program.empty.addRef "x" .none with readAttrs := collectReads entering [], expr := entering } := by
    have low : ¬maxNativeDepth ≤ astHeight entering := by decide
    rfl
  change ((evaluateAttributeReference _ _ _ (atDepth (newEvaluator (nestedAd count)) 0) "x" .none >>= fun value =>
    Run.ok (1, [value])) >>= _) = _
  rw [loaded]
  rfl

/-- A reader of the list `{x}` sees 1, or an error if the list was built too deep. -/
theorem shown_nested (count depth fuel : Nat) (enough : count + 1 < fuel) :
    shown (asciiHost 0) (fun _ => []) .panics (fuel + 1) 2 (.lazyList [.reference "x" .none] (nestedAd count) depth) =
      .ok (.list [.scalar (if depth + 1 + (count + 1) < maxEvalDepth ∧
        depth < maxEvalDepth then .integer 1 else .error)]) := by
  have element : evaluate (asciiHost 0) (fun _ => []) .panics (fuel + 1) ⟨nestedAd count, depth, [],
    none⟩ (.reference "x" .none) =
      if maxEvalDepth ≤ depth then .panic
      else if depth + 1 + (count + 1) < maxEvalDepth then .ok (.integer 1) else .panic :=
    congrArg (fun run => if maxEvalDepth ≤ depth then Run.panic else run)
      (reference_nested .panics (depth + 1) count fuel enough)
  change ((evaluate _ _ _ _ ⟨nestedAd count, max depth 0, [], none⟩ _).recover .error >>= _ >>= _) >>= _ = _
  rw [Nat.max_zero, element]
  by_cases low : depth < maxEvalDepth
  · by_cases room : depth + 1 + (count + 1) < maxEvalDepth
    · rw [if_neg (Nat.not_le.mpr low), if_pos room, if_pos ⟨room, low⟩]
      rfl
    · rw [if_neg (Nat.not_le.mpr low), if_neg room, if_neg (room ·.1)]
      rfl
  · rw [if_pos (Nat.not_lt.mp low), if_neg (low ·.2)]
    rfl

end Nesting

/-- Query compilation, on everything the tree walker evaluates below its recursion guard. The
program crashes exactly where evaluation comes back to an attribute it is evaluating. Elsewhere both
engines return a value: one and the same if the expression is delegated whole, and otherwise values
that no reader can tell apart as long as the lists in them can be read below the guard too. -/
theorem compileProgram_correct (host : Host) (world : World) (scope : Scope) (expr : Expr)
    (shallow : StaysBelowMaxDepth host world scope expr) :
    (Crashes host world (compileProgram expr) scope ↔ Panics host world scope .observed expr) ∧
    (¬Panics host world scope .observed expr → ∃ value value', Evaluates host world scope expr value ∧
      Yields host world (compileProgram expr) scope value' ∧ (DelegatedWhole expr → value = value') ∧
      (ReadsBelowMaxDepth host world scope expr → Alike host world value value')) := by
  constructor
  · constructor
    · intro crashes
      by_contra acyclic
      obtain ⟨fuel, value, answered⟩ := answer_of_shallow shallow acyclic
      obtain ⟨value', yields, -⟩ := yields_of_answer answered
      exact not_yields_of_crash crashes yields
    · rintro ⟨fuel, panicked⟩
      exact crashes_of_panic panicked
  · intro acyclic
    obtain ⟨fuel, value, answered⟩ := answer_of_shallow shallow acyclic
    obtain ⟨walked, evaluates, -⟩ := evaluates_of_answer answered
    obtain ⟨value', yields, -⟩ := yields_of_answer answered
    refine ⟨walked, value', evaluates, yields, fun whole => ?_, fun reads => ?_⟩
    · obtain ⟨fuel', returned⟩ := (yields_delegated whole).mp yields
      exact evaluates_unique evaluates ⟨fuel', by rw [returned]; rfl⟩
    · obtain ⟨left, right, evaluates', yields', alike⟩ := alike_of_reads reads
      rwa [evaluates_unique evaluates evaluates', yields_unique yields yields']

/-- The ad `[x = y + 1; y = 4]` and the constraint `x > 3 && (z ?: {x}[0]) == 5`. -/
theorem compileProgram_correct_on_sample :
    let scope : Scope := [⟨.root 0, [("x", .binary .add (.reference "y" .none) (.integer 1)), ("y", .integer 4)], none⟩]
    let expr : Expr := .binary .and (.binary .greater (.reference "x" .none) (.integer 3))
      (.binary .equal (.elvis (.reference "z" .none)
        (.subscript (.list [.reference "x" .none]) (.integer 0))) (.integer 5))
    ∃ value value', Evaluates (asciiHost 0) (fun _ => []) scope expr value ∧
      Yields (asciiHost 0) (fun _ => []) (compileProgram expr) scope value' ∧
      Alike (asciiHost 0) (fun _ => []) value value' := by
  intro scope expr
  have answered : evaluate (asciiHost 0) (fun _ => []) .observed 12 (newEvaluator scope) expr =
    .ok (.boolean true) := rfl
  obtain ⟨-, returned⟩ := compileProgram_correct _ _ scope expr ⟨12, by rw [answered]; exact nofun⟩
  obtain ⟨value, value', evaluates, yields, -, alike⟩ := returned (not_panics_of_answer answered)
  refine ⟨value, value', evaluates, yields, alike ⟨12, _, answered, fun levels => ⟨0, ?_⟩⟩⟩
  cases levels <;> exact ⟨_, rfl⟩

/-- The ad `[x = y; y = x]`. -/
def loopedAd : Scope := [⟨.root 0, [("x", .reference "y" .none), ("y", .reference "x" .none)], none⟩]

/-- The expression `({x})`. -/
def listing : Expr := .paren (.list [.reference "x" .none])

/-- The program for `x` crashes on a cycle. And where `x` is 1 in 1997 pairs of parentheses, the pair
around the list `({x})` carries the tree walker's reader to the guard, but not the program's. -/
theorem compileProgram_differs :
    (StaysBelowMaxDepth (asciiHost 0) (fun _ => []) loopedAd (.reference "x" .none) ∧
      Evaluates (asciiHost 0) (fun _ => []) loopedAd (.reference "x" .none) .error ∧
      Crashes (asciiHost 0) (fun _ => []) (compileProgram (.reference "x" .none)) loopedAd) ∧
    StaysBelowMaxDepth (asciiHost 0) (fun _ => []) (nestedAd 1996) listing ∧
    ∃ value value', Evaluates (asciiHost 0) (fun _ => []) (nestedAd 1996) listing value ∧
      Yields (asciiHost 0) (fun _ => []) (compileProgram listing) (nestedAd 1996) value' ∧
      shown (asciiHost 0) (fun _ => []) .panics 1999 2 value = .ok (.list [.scalar .error]) ∧
      shown (asciiHost 0) (fun _ => []) .panics 1999 2 value' = .ok (.list [.scalar (.integer 1)]) := by
  refine ⟨⟨⟨4, nofun⟩, ⟨4, rfl⟩, ⟨3, 1, rfl⟩⟩, ⟨3, nofun⟩, _, _, ⟨2, rfl⟩, ⟨2, 2, rfl⟩, ?_, ?_⟩
  · exact (shown_nested 1996 2 1998 (by omega)).trans rfl
  · exact (shown_nested 1996 1 1998 (by omega)).trans rfl

/-- The depth guards agree, and with them the values, where the tree walker stays below its guard
for the value and for what can be read of it. An expression that is delegated whole runs the same
call in both engines, and only a panic is treated differently. -/
theorem depth_guards_agree (host : Host) (world : World) (scope : Scope) (expr : Expr) :
    (ReadsBelowMaxDepth host world scope expr → GuardsAgree host world scope expr) ∧
    (DelegatedWhole expr → (GuardsAgree host world scope expr ↔ ¬Panics host world scope .panics expr)) :=
  ⟨guardsAgree_of_reads, guardsAgree_of_delegated⟩

/-- The constraint `false && (x)` where `x` is 1 in 1998 pairs of parentheses: neither engine enters `x`. -/
theorem depth_guards_agree_on_sample :
    GuardsAgree (asciiHost 0) (fun _ => []) (nestedAd 1997) (.binary .and (.boolean false) entering) := by
  refine (depth_guards_agree _ _ _ _).1 ⟨3, .boolean false, rfl, fun levels => ⟨0, ?_⟩⟩
  cases levels <;> exact ⟨_, rfl⟩

/-- The expression `x ? 1 : 2`. -/
def choosing : Expr := .conditional (.reference "x" .none) (.integer 1) (.integer 2)

/-- The expression `(x)` where `x` is 1 in 1998 pairs of parentheses. The two nodes above the
attribute carry the tree walker to the guard; the compiled program starts over at depth zero. Two
pairs more and the program for `x ? 1 : 2`, one call of the tree walker, crashes at the guard. -/
theorem depth_guards_differ :
    ¬StaysBelowMaxDepth (asciiHost 0) (fun _ => []) (nestedAd 1997) entering ∧
    ProgramStaysBelow (asciiHost 0) (fun _ => []) (nestedAd 1997) (compileProgram entering) ∧
    Evaluates (asciiHost 0) (fun _ => []) (nestedAd 1997) entering .error ∧
    Yields (asciiHost 0) (fun _ => []) (compileProgram entering) (nestedAd 1997) (.integer 1) ∧
    Evaluates (asciiHost 0) (fun _ => []) (nestedAd 1999) choosing .error ∧
    Crashes (asciiHost 0) (fun _ => []) (compileProgram choosing) (nestedAd 1999) := by
  have small : 1997 + 1 < maxEvalDepth := by decide
  have deep : ¬2 + (1997 + 1) < maxEvalDepth := by decide
  have chosen : evaluate (asciiHost 0) (fun _ => []) .panics 2003 (newEvaluator (nestedAd 1999)) choosing = .panic := by
    change evaluateAttributeReference _ _ _ (atDepth (newEvaluator (nestedAd 1999)) 2) "x" .none >>= _ = _
    rw [reference_nested .panics 2 1999 2001 (by omega), if_neg (by decide)]
    rfl
  refine ⟨?_, ⟨1999, 2, ?_⟩, ⟨1999 + 2, ?_⟩, ⟨1999, 2, ?_⟩, ⟨2003, by rw [chosen]; rfl⟩, ⟨2003, 2, ?_⟩⟩
  · rintro ⟨fuel, below⟩
    have more := @fits_more _ _ _ 0 _ _ _ (Nat.le_max_left fuel (1999 + 2)) below
    obtain ⟨extra, same⟩ : ∃ extra, max fuel (1999 + 2) = extra + 2 := ⟨max fuel (1999 + 2) - 2, by omega⟩
    apply more
    change evaluate _ _ _ _ (newEvaluator (nestedAd 1997)) entering = _
    rw [same, evaluate_entering .observed 1997 (by omega), if_neg deep]
    rfl
  · rw [exec_entering .observed 1997 1999 (by omega) small]
    exact nofun
  · rw [evaluate_entering .panics 1997 (by omega), if_neg deep]
    rfl
  · exact exec_entering .panics 1997 1999 (by omega) small
  · rw [run, exec_delegated_end (.inr rfl), chosen]

end Classad.DepthAccounting
