import Mathlib.Data.List.Basic
import Mathlib.Data.List.Nodup
import Mathlib.Logic.Function.Basic
import Mathlib.Tactic.Common

/-! Chains of nodes in a store of links. A store answers for each node whether it exists and,
if so, which node comes next. Walking, unlinking a set of nodes and linking nodes into buckets
are described by the list of nodes a head leads to; nothing here mentions what a node holds. -/
namespace Classad.Chains
open List hiding after head

variable {α β : Type}

/-- The link of each node that exists. -/
abbrev Links (α : Type) := α → Option (Option α)

/-- The nodes met from a head to the end of its chain. -/
inductive Chain (next : Links α) : Option α → List α → Prop where
  | nil : Chain next none []
  | cons {node : α} {link : Option α} {nodes : List α} :
      next node = some link → Chain next link nodes → Chain next (some node) (node :: nodes)

/-- The nodes that following links from a head leads to. -/
inductive Reaches (next : Links α) (head : Option α) : α → Prop where
  | head {node : α} : head = some node → Reaches next head node
  | next {node after : α} : Reaches next head node → next node = some (some after) → Reaches next head after

section
variable {next next' : Links α} {head : Option α} {nodes : List α}

section
variable (chain : Chain next head nodes)
include chain

theorem Chain.unique (other : Chain next head others) : nodes = others := by
  induction chain generalizing others with
  | nil => cases other; rfl
  | cons found _ ih =>
    cases other with
    | cons found' rest =>
      rw [found] at found'
      cases found'
      rw [ih rest]

theorem Chain.exists (member : node ∈ nodes) : ∃ link, next node = some link := by
  induction chain with
  | nil => cases member
  | cons found _ ih =>
    obtain rfl | later := mem_cons.mp member
    · exact ⟨_, found⟩
    · exact ih later

/-- A chain does not change with links outside it. -/
theorem Chain.congr (same : ∀ node ∈ nodes, next' node = next node) : Chain next' head nodes := by
  induction chain with
  | nil => exact .nil
  | cons found _ ih =>
    have here := same _ (.head _)
    exact .cons (here.trans found) (ih fun node later => same node (.tail _ later))

theorem Chain.mem_of_reaches (reaches : Reaches next head node) : node ∈ nodes := by
  have closed : ∀ {head : Option α} {nodes : List α}, Chain next head nodes → ∀ {node after : α},
      node ∈ nodes → next node = some (some after) → after ∈ nodes := by
    intro head nodes chain
    induction chain with
    | nil => intro node after member; cases member
    | @cons first link rest found tail ih =>
      intro node after member linked
      obtain rfl | later := mem_cons.mp member
      · rw [found] at linked
        cases linked
        cases tail with
        | cons _ _ => exact .tail _ (.head _)
      · exact .tail _ (ih later linked)
  induction reaches with
  | head starts =>
    subst starts
    cases chain with
    | cons _ _ => exact (.head _)
  | next _ linked ih => exact closed chain ih linked

end

theorem Reaches.tail (found : next node = some link) (reaches : Reaches next link after) :
    Reaches next (some node) after := by
  induction reaches with
  | head starts =>
    subst starts
    exact .next (.head rfl) found
  | next _ linked ih => exact .next ih linked

theorem Chain.reaches (chain : Chain next head nodes) (member : node ∈ nodes) : Reaches next head node := by
  induction chain with
  | nil => cases member
  | @cons first link rest found _ ih =>
    rcases mem_cons.mp member with rfl | inRest
    · exact .head rfl
    · exact .tail found (ih inRest)

end

section Walking
variable (next : Links α)

/-- Walk a chain to the first node a test accepts, for at most a number of steps. A link to a
node that does not exist ends the walk. -/
def findFirst (accepts : α → Bool) : Nat → Option α → Option α
  | 0, _ => none
  | _ + 1, none => none
  | fuel + 1, some node =>
    match next node with
    | none => none
    | some link => if accepts node then some node else findFirst accepts fuel link

/-- The nodes a walk meets. -/
def walk : Nat → Option α → List α
  | 0, _ => []
  | _ + 1, none => []
  | fuel + 1, some node =>
    match next node with
    | none => []
    | some link => node :: walk fuel link

variable {next} {accepts : α → Bool}

theorem walk_chain (chain : Chain next head nodes) (enough : nodes.length < fuel) : walk next fuel head = nodes := by
  induction chain generalizing fuel with
  | nil =>
    obtain ⟨fuel, rfl⟩ := Nat.exists_eq_succ_of_ne_zero (Nat.ne_zero_of_lt enough)
    rfl
  | @cons node link nodes found _ ih =>
    obtain ⟨fuel, rfl⟩ := Nat.exists_eq_succ_of_ne_zero (Nat.ne_zero_of_lt enough)
    rw [length_cons] at enough
    rw [walk, found]
    exact congrArg _ (ih (by omega))

/-- With enough steps the walk searches the whole chain. -/
theorem findFirst_chain (chain : Chain next head nodes)
    (enough : nodes.length < fuel) : findFirst next accepts fuel head = nodes.find? accepts := by
  induction chain generalizing fuel with
  | nil =>
    obtain ⟨fuel, rfl⟩ := Nat.exists_eq_succ_of_ne_zero (Nat.ne_zero_of_lt enough)
    rfl
  | @cons node link nodes found _ ih =>
    obtain ⟨fuel, rfl⟩ := Nat.exists_eq_succ_of_ne_zero (Nat.ne_zero_of_lt enough)
    rw [length_cons] at enough
    rw [findFirst, found, find?_cons]
    cases accepts node with
    | true => rfl
    | false => exact ih (by omega)

end Walking

section Unlinking

/-- Follow links past the dead nodes. A node that does not exist ends the chain. -/
def skipDead (next : Links α) (dead : α → Bool) : Nat → Option α → Option α
  | 0, link => link
  | _ + 1, none => none
  | fuel + 1, some node => if dead node then skipDead next dead fuel ((next node).getD none) else some node

/-- Store a link in a node that exists. -/
def setLink [DecidableEq α] (next : Links α) (node : α) (link : Option α) : Links α :=
  fun other => if other = node then (next node).map fun _ => link else next other

/-- Unlink the dead nodes after a head that is not dead itself. -/
def unlinkDead [DecidableEq α] (dead : α → Bool) (rounds : Nat) : Nat → Option α → Links α → Links α
  | 0, _, next => next
  | _ + 1, none, next => next
  | fuel + 1, some node, next =>
    match next node with
    | none => next
    | some link =>
      let link' := skipDead next dead rounds link
      unlinkDead dead rounds fuel link' (if link' ≠ link then setLink next node link' else next)

variable {next : Links α} {dead : α → Bool} {rounds fuel : Nat} {head : Option α} {nodes : List α}

theorem skipDead_chain (chain : Chain next head nodes) (enough : nodes.length < fuel) :
    Chain next (skipDead next dead fuel head) (nodes.dropWhile dead) := by
  induction chain generalizing fuel with
  | nil =>
    obtain ⟨fuel, rfl⟩ := Nat.exists_eq_succ_of_ne_zero (Nat.ne_zero_of_lt enough)
    exact .nil
  | @cons node link nodes found tail ih =>
    obtain ⟨fuel, rfl⟩ := Nat.exists_eq_succ_of_ne_zero (Nat.ne_zero_of_lt enough)
    rw [length_cons] at enough
    rw [skipDead, dropWhile_cons]
    split
    · rw [found, Option.getD_some]
      exact ih (by omega)
    · exact .cons found tail

theorem setLink_of_exists [DecidableEq α] (exists_ : next node = some old) (link : Option α) (other : α) :
    setLink next node link other = if other = node then some link else next other := by
  rw [setLink, exists_]
  rfl

theorem dropWhile_sublist_length (dead : α → Bool) (nodes : List α) : (nodes.dropWhile dead).length ≤ nodes.length :=
  (dropWhile_sublist dead).length_le

theorem filter_dropWhile (dead : α → Bool) (nodes : List α) :
    (nodes.dropWhile dead).filter (fun node => !dead node) = nodes.filter fun node => !dead node := by
  induction nodes with
  | nil => rfl
  | cons node rest ih =>
    rw [dropWhile_cons]
    by_cases gone : dead node = true
    · rw [if_pos gone, ih, filter_cons_of_neg (by simp [gone])]
    · rw [if_neg gone]

theorem dropWhile_head_alive (first : nodes.dropWhile dead = node :: rest) : dead node = false := by
  induction nodes with
  | nil => cases first
  | cons other others ih =>
    rw [dropWhile_cons] at first
    by_cases gone : dead other = true
    · rw [if_pos gone] at first
      exact ih first
    · rw [if_neg gone] at first
      cases first
      simpa using gone

/-- Unlinking leaves the chain of the nodes that are not dead, and touches no other links. By
induction on the steps; each step fixes one node's link before the walk moves on to it. -/
theorem unlinkDead_chain [DecidableEq α] (chain : Chain next head nodes) (distinct : nodes.Nodup)
    (alive : ∀ node rest, nodes = node :: rest → dead node = false) (enough : nodes.length < fuel)
    (ample : nodes.length < rounds) :
    Chain (unlinkDead dead rounds fuel head next) head (nodes.filter fun node => !dead node) ∧
      ∀ other, other ∉ nodes → unlinkDead dead rounds fuel head next other = next other := by
  induction fuel generalizing next head nodes with
  | zero => omega
  | succ fuel ih =>
    cases chain with
    | nil => exact ⟨.nil, fun _ _ => rfl⟩
    | @cons node link rest found tail =>
      have kept := alive node rest rfl
      rw [length_cons] at enough ample
      obtain ⟨fresh, distinctRest⟩ := nodup_cons.mp distinct
      have skipped : Chain next (skipDead next dead rounds link) (rest.dropWhile dead) := skipDead_chain tail (by omega)
      have shorter := dropWhile_sublist_length dead rest
      have sub : ∀ other ∈ rest.dropWhile dead, other ∈ rest :=
        fun other member => (dropWhile_sublist dead).subset member
      -- the store after this node's link is fixed, and the chain from its new successor in it
      obtain ⟨store, fixed, here, outside⟩ : ∃ store, (if skipDead next dead rounds link ≠ link then
          setLink next node (skipDead next dead rounds link) else next) = store ∧
          store node = some (skipDead next dead rounds link) ∧ ∀ other, other ≠ node → store other = next other := by
        by_cases moved : skipDead next dead rounds link ≠ link
        · refine ⟨_, if_pos moved, ?_, ?_⟩
          · rw [setLink_of_exists found, if_pos rfl]
          · intro other differs
            rw [setLink_of_exists found, if_neg differs]
        · refine ⟨_, if_neg moved, ?_, fun _ _ => rfl⟩
          rw [found, not_not.mp moved]
      have later : Chain store (skipDead next dead rounds link) (rest.dropWhile dead) := by
        apply skipped.congr
        intro other member
        exact outside other fun same => fresh (same ▸ sub other member)
      obtain ⟨cleaned, untouched⟩ := ih later ((dropWhile_sublist dead).nodup distinctRest)
        (fun first others starts => dropWhile_head_alive starts) (by omega) (by omega)
      have unfolded : unlinkDead dead rounds (fuel + 1) (some node) next =
          unlinkDead dead rounds fuel (skipDead next dead rounds link) store := by
        rw [unlinkDead, found, ← fixed]
      rw [unfolded]
      refine ⟨?_, ?_⟩
      · rw [filter_cons_of_pos (by rw [kept]; rfl), ← filter_dropWhile]
        refine .cons ?_ cleaned
        rw [untouched node fun member => fresh (sub node member), here]
      · intro other missing
        have differs : other ≠ node := fun same => missing (same ▸ (.head _))
        have gone : other ∉ rest.dropWhile dead := fun member => missing (.tail _ (sub other member))
        rw [untouched other gone, outside other differs]

end Unlinking

section Linking
variable [DecidableEq α] [DecidableEq β] (bucket : α → β)

/-- Put a node at the head of its bucket's chain. -/
def link (state : Links α × (β → Option α)) (node : α) : Links α × (β → Option α) :=
  (setLink state.1 node (state.2 (bucket node)), Function.update state.2 (bucket node) (some node))

variable {bucket}

/-- Linking distinct nodes one after the other: each bucket's chain grows by its own nodes. -/
theorem link_chains {next : Links α} {dir : β → Option α} {chains : β → List α}
    (before : ∀ b, Chain next (dir b) (chains b)) {nodes : List α} (distinct : nodes.Nodup)
    (fresh : ∀ node ∈ nodes, ∀ b, node ∉ chains b) (present : ∀ node ∈ nodes, ∃ old, next node = some old) :
    let after := nodes.foldl (link bucket) (next, dir)
    (∀ b, Chain after.1 (after.2 b) ((nodes.filter fun node => bucket node = b).reverse ++ chains b)) ∧
      ∀ other, other ∉ nodes → after.1 other = next other := by
  induction nodes generalizing next dir chains with
  | nil =>
    refine ⟨fun b => ?_, fun _ _ => rfl⟩
    exact before b
  | cons node rest ih =>
    obtain ⟨freshNode, distinctRest⟩ := nodup_cons.mp distinct
    obtain ⟨old, exists_⟩ := present node (.head _)
    have set := fun other => setLink_of_exists exists_ (dir (bucket node)) other
    let chains' : β → List α := fun b => if b = bucket node then node :: chains b else chains b
    have linked : ∀ b, Chain (setLink next node (dir (bucket node)))
        (Function.update dir (bucket node) (some node) b) (chains' b) := by
      intro b
      have kept : Chain (setLink next node (dir (bucket node))) (dir b) (chains b) := by
        apply (before b).congr
        intro other member
        have differs : other ≠ node := fun same => fresh node (.head _) b (same ▸ member)
        rw [set, if_neg differs]
      by_cases here : b = bucket node
      · subst here
        simp only [chains', if_true, Function.update_self]
        refine .cons ?_ kept
        rw [set, if_pos rfl]
      · simp only [chains', if_neg here, Function.update_of_ne here]
        exact kept
    obtain ⟨chained, untouched⟩ := ih linked distinctRest (by
        intro other member b
        simp only [chains']
        split
        · intro inside
          obtain same | inside := mem_cons.mp inside
          · exact freshNode (same ▸ member)
          · exact fresh other (.tail _ member) b inside
        · exact fresh other (.tail _ member) b) (by
        intro other member
        obtain ⟨old', found⟩ := present other (.tail _ member)
        have differs : other ≠ node := fun same => freshNode (same ▸ member)
        exact ⟨old', by rw [set, if_neg differs, found]⟩)
    refine ⟨?_, ?_⟩
    · intro b
      have chain := chained b
      simp only [chains'] at chain
      by_cases here : b = bucket node
      · rw [if_pos here] at chain
        rw [filter_cons_of_pos (by simp [here]), reverse_cons, append_assoc]
        exact chain
      · rw [if_neg here] at chain
        rw [filter_cons_of_neg (by simpa using fun same => here same.symm)]
        exact chain
    · intro other missing
      have differs : other ≠ node := fun same => missing (same ▸ (.head _))
      have kept := untouched other fun member => missing (.tail _ member)
      exact kept.trans (by rw [set, if_neg differs])

end Linking

end Classad.Chains
