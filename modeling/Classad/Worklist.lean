import Mathlib.Algebra.Order.BigOperators.Group.List
import Mathlib.Algebra.Order.Monoid.Canonical.Basic
import Mathlib.Algebra.Order.Ring.Nat
import Mathlib.Tactic.Common

/-! A worklist that collects everything reachable from some seeds. Items are visited under a
key; visiting a key for the first time looks its entry up and pushes the items the entry
refers to. Nothing here mentions a particular program. -/
namespace Classad.Worklist

/-- Where a search walks: the key of an item, the entry behind a key, and the items an
entry refers to. -/
structure Graph (α κ ε : Type) where
  key : α → κ
  find : κ → Option ε
  refs : ε → List α

variable {α κ ε : Type}

/-- The keys the seeds lead to. -/
inductive Reaches (g : Graph α κ ε) (seeds : List α) : κ → Prop where
  | seed : item ∈ seeds → Reaches g seeds (g.key item)
  | step : Reaches g seeds k → g.find k = some entry → item ∈ g.refs entry →
      Reaches g seeds (g.key item)

/-- How many items visiting a key pushes. -/
def Graph.cost (g : Graph α κ ε) (k : κ) : Nat :=
  match g.find k with
  | none => 0
  | some entry => (g.refs entry).length

/-- What the loop keeps true. -/
structure Invariant (g : Graph α κ ε) (seeds work : List α) (done : List κ) (out : List (α × ε)) :
    Prop where
  reached : ∀ k ∈ done, Reaches g seeds k
  pending : ∀ item ∈ work, Reaches g seeds (g.key item)
  entries : ∀ item entry, (item, entry) ∈ out → g.key item ∈ done ∧ g.find (g.key item) = some entry
  kept : ∀ k ∈ done, ∀ entry, g.find k = some entry → ∃ item, g.key item = k ∧ (item, entry) ∈ out
  followed : ∀ k ∈ done, ∀ entry, g.find k = some entry → ∀ item ∈ g.refs entry,
    g.key item ∈ done ∨ ∃ other ∈ work, g.key other = g.key item
  seeded : ∀ item ∈ seeds, g.key item ∈ done ∨ ∃ other ∈ work, g.key other = g.key item

variable {g : Graph α κ ε} {seeds work : List α} {done : List κ} {out : List (α × ε)} {item : α}

theorem Invariant.skip (inv : Invariant g seeds (item :: work) done out) (seen : g.key item ∈ done) :
    Invariant g seeds work done out := by
  have still : ∀ k : κ, (k ∈ done ∨ ∃ other ∈ item :: work, g.key other = k) →
      k ∈ done ∨ ∃ other ∈ work, g.key other = k := by
    rintro k (found | ⟨other, member, rfl⟩)
    · exact .inl found
    · rcases List.mem_cons.mp member with rfl | member
      · exact .inl seen
      · exact .inr ⟨other, member, rfl⟩
  exact ⟨inv.reached, fun other member => inv.pending other (.tail _ member),
    inv.entries, inv.kept,
    fun k found entry lookup other member => still _ (inv.followed k found entry lookup other member),
    fun other member => still _ (inv.seeded other member)⟩

/-- Visiting a new key, with or without an entry behind it. -/
theorem Invariant.visit (inv : Invariant g seeds (item :: work) done out) (entries : List (α × ε)) (pushed : List α)
    (found : ∀ entry, g.find (g.key item) = some entry → (item, entry) ∈ entries)
    (only : ∀ other entry, (other, entry) ∈ entries → other = item ∧ g.find (g.key item) = some entry)
    (refs : ∀ entry, g.find (g.key item) = some entry → g.refs entry ⊆ pushed)
    (pushes : ∀ other ∈ pushed, ∃ entry, g.find (g.key item) = some entry ∧ other ∈ g.refs entry) :
    Invariant g seeds (pushed ++ work) (g.key item :: done) (out ++ entries) := by
  have here : Reaches g seeds (g.key item) := inv.pending item (.head _)
  have still : ∀ k : κ, (k ∈ done ∨ ∃ other ∈ item :: work, g.key other = k) →
      k ∈ g.key item :: done ∨ ∃ other ∈ pushed ++ work, g.key other = k := by
    rintro k (found | ⟨other, member, rfl⟩)
    · exact .inl (.tail _ found)
    · rcases List.mem_cons.mp member with rfl | member
      · exact .inl (.head _)
      · exact .inr ⟨other, List.mem_append_right _ member, rfl⟩
  constructor
  · intro k member
    rcases List.mem_cons.mp member with rfl | member
    · exact here
    · exact inv.reached k member
  · intro other member
    rcases List.mem_append.mp member with member | member
    · obtain ⟨entry, lookup, refers⟩ := pushes other member
      exact .step here lookup refers
    · exact inv.pending other (.tail _ member)
  · intro other entry member
    rcases List.mem_append.mp member with member | member
    · obtain ⟨known, lookup⟩ := inv.entries other entry member
      exact ⟨.tail _ known, lookup⟩
    · obtain ⟨rfl, lookup⟩ := only other entry member
      exact ⟨.head _, lookup⟩
  · intro k member entry lookup
    rcases List.mem_cons.mp member with rfl | member
    · exact ⟨item, rfl, List.mem_append_right _ (found entry lookup)⟩
    · obtain ⟨other, same, kept⟩ := inv.kept k member entry lookup
      exact ⟨other, same, List.mem_append_left _ kept⟩
  · intro k member entry lookup other refers
    rcases List.mem_cons.mp member with rfl | member
    · exact .inr ⟨other, List.mem_append_left _ (refs entry lookup refers), rfl⟩
    · exact still _ (inv.followed k member entry lookup other refers)
  · intro other member
    exact still _ (inv.seeded other member)

section
variable [DecidableEq κ]

/-- The loop: pop an item, skip a key already done, otherwise mark it, keep its entry and
push what the entry refers to. The last item pushed is the first one popped. -/
def collect (g : Graph α κ ε) : Nat → List α → List κ → List (α × ε) → List (α × ε)
  | 0, _, _, out => out
  | _ + 1, [], _, out => out
  | fuel + 1, item :: work, done, out =>
    if g.key item ∈ done then collect g fuel work done out
    else match g.find (g.key item) with
      | none => collect g fuel work (g.key item :: done) out
      | some entry =>
        collect g fuel ((g.refs entry).reverse ++ work) (g.key item :: done) (out ++ [(item, entry)])

/-- Steps enough for the search, when every entry sits behind one of the keys. -/
def budget (g : Graph α κ ε) (keys : List κ) (work : List α) (done : List κ) : Nat :=
  work.length + ((keys.filter (· ∉ done)).map g.cost).sum

def search (g : Graph α κ ε) (keys : List κ) (seeds : List α) : List (α × ε) :=
  collect g (budget g keys seeds.reverse []) seeds.reverse [] []

/-- A new key leaves the budget at least one step smaller. -/
theorem budget_visit (work : List α) (new : g.key item ∉ done)
    (covered : (g.find (g.key item)).isSome → g.key item ∈ keys) (pushed : List α)
    (pushes : pushed.length = g.cost (g.key item)) :
    budget g keys (pushed ++ work) (g.key item :: done) < budget g keys (item :: work) done := by
  have shrinks : ((keys.filter (· ∉ g.key item :: done)).map g.cost).sum + g.cost (g.key item) ≤
      ((keys.filter (· ∉ done)).map g.cost).sum := by
    cases lookup : g.find (g.key item) with
    | none =>
      have free : g.cost (g.key item) = 0 := by simp [Graph.cost, lookup]
      rw [free, Nat.add_zero]
      refine List.Sublist.sum_le_sum ((List.monotone_filter_right keys ?_).map _) (fun _ _ => Nat.zero_le _)
      simp
    | some entry =>
      have member : g.key item ∈ keys := covered (by simp [lookup])
      clear covered lookup pushes pushed
      induction keys with
      | nil => cases member
      | cons head rest ih =>
        by_cases same : head = g.key item
        · subst same
          have others : ((rest.filter (· ∉ g.key item :: done)).map g.cost).sum ≤
              ((rest.filter (· ∉ done)).map g.cost).sum := by
            refine List.Sublist.sum_le_sum ((List.monotone_filter_right rest ?_).map _)
              (fun _ _ => Nat.zero_le _)
            simp
          simp only [List.mem_cons, true_or, not_true_eq_false, decide_false, new, not_false_eq_true,
            decide_true, List.filter_cons, Bool.false_eq_true, if_false, if_true, List.map_cons,
            List.sum_cons] at others ⊢
          omega
        · have below := ih ((List.mem_cons.mp member).resolve_left fun equal => same equal.symm)
          by_cases seen : head ∈ done
          · simpa [List.filter_cons, seen, same] using below
          · simp only [List.filter_cons, List.mem_cons, same, seen, or_self, not_false_eq_true,
              decide_true, if_true, List.map_cons, List.sum_cons] at below ⊢
            omega
  simp only [budget, List.length_append, List.length_cons, pushes]
  omega

/-- Run to the end, the loop leaves no work behind. -/
theorem collect_spec (covered : ∀ k, Reaches g seeds k → (g.find k).isSome → k ∈ keys) :
    ∀ fuel work done out, budget g keys work done ≤ fuel → Invariant g seeds work done out →
      ∃ done', Invariant g seeds [] done' (collect g fuel work done out) := by
  intro fuel
  induction fuel with
  | zero =>
    intro work done out enough inv
    have empty : work = [] := by
      rw [← List.length_eq_zero_iff]
      unfold budget at enough
      omega
    subst empty
    exact ⟨done, inv⟩
  | succ fuel ih =>
    intro work done out enough inv
    cases work with
    | nil => exact ⟨done, inv⟩
    | cons item work =>
      unfold collect
      split
      next seen =>
        refine ih work done out ?_ (inv.skip seen)
        simp only [budget, List.length_cons] at enough ⊢
        omega
      next seen =>
        have reached := inv.pending item (.head _)
        cases lookup : g.find (g.key item) with
        | none =>
          have smaller := budget_visit work seen (covered _ reached) [] (by simp [Graph.cost, lookup])
          have next := inv.visit [] [] (by simp [lookup]) (by simp) (by simp [lookup]) (by simp)
          rw [List.append_nil] at next
          exact ih work _ out (by rw [List.nil_append] at smaller; omega) next
        | some entry =>
          have smaller := budget_visit work seen (covered _ reached) (g.refs entry).reverse
            (by simp [Graph.cost, lookup])
          have next := inv.visit [(item, entry)] (g.refs entry).reverse (by simp [lookup])
            (by simp [lookup]) (by simp [lookup]) (by simp [lookup])
          exact ih _ _ _ (by omega) next

/-- The search finds exactly the entries behind the keys the seeds lead to. -/
theorem search_spec (seeds : List α) (covered : ∀ k, Reaches g seeds k → (g.find k).isSome → k ∈ keys) :
    (∀ item entry, (item, entry) ∈ search g keys seeds → Reaches g seeds (g.key item) ∧
      g.find (g.key item) = some entry) ∧
    ∀ k entry, Reaches g seeds k → g.find k = some entry → ∃ item, g.key item = k ∧
    (item, entry) ∈ search g keys seeds := by
  have start : Invariant g seeds seeds.reverse [] [] := by
    refine ⟨nofun, fun item member => .seed (List.mem_reverse.mp member), nofun, nofun, nofun, ?_⟩
    exact fun item member => .inr ⟨item, List.mem_reverse.mpr member, rfl⟩
  obtain ⟨done, inv⟩ := collect_spec covered _ _ _ _ le_rfl start
  have closed : ∀ k, Reaches g seeds k → k ∈ done := by
    intro k reaches
    induction reaches with
    | seed member => simpa using inv.seeded _ member
    | step _ lookup refers ih => simpa using inv.followed _ ih _ lookup _ refers
  constructor
  · intro item entry member
    obtain ⟨known, lookup⟩ := inv.entries item entry member
    exact ⟨inv.reached _ known, lookup⟩
  · intro k entry reaches lookup
    exact inv.kept k (closed k reaches) entry lookup

end
end Classad.Worklist
