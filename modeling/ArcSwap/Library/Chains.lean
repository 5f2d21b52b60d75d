import Mathlib.Data.List.Infix
import Mathlib.Data.List.Nodup

/-! Singly linked lists, given by a successor function and a first node. A list that ends has no
node twice, and it stays as it is when other nodes are prepended or written to.
-/

namespace Chains

variable {α : Type} {next next' : α → Option α} {head : Option α} {nodes nodes' : List α}
  {a : α}

/-- The successors from `head` on are `nodes`, and the list ends after them. -/
inductive Chain (next : α → Option α) : Option α → List α → Prop
  | nil : Chain next none []
  | cons {a rest} (tail : Chain next (next a) rest) : Chain next (some a) (a :: rest)

/-- A list has one sequence of nodes. -/
theorem Chain.unique (first : Chain next head nodes) (second : Chain next head nodes')
    : nodes = nodes' := by
  induction first generalizing nodes' with
  | nil =>
      cases second
      rfl
  | cons _ ih =>
      cases second with
      | cons tail => rw [ih tail]

/-- The nodes behind a node of the list. -/
theorem Chain.split (chain : Chain next head nodes) (inside : a ∈ nodes)
    : ∃ front back, nodes = front ++ a :: back ∧ Chain next (next a) back := by
  induction chain with
  | nil => cases inside
  | @cons b rest tail ih =>
      rcases List.mem_cons.mp inside with rfl | later
      · exact ⟨[], rest, rfl, tail⟩
      · obtain ⟨front, back, rfl, chain⟩ := ih later
        exact ⟨b :: front, back, rfl, chain⟩

/-- A list that ends has no cycle. -/
theorem Chain.nodup (chain : Chain next head nodes) : nodes.Nodup := by
  induction chain with
  | nil => exact List.nodup_nil
  | @cons a rest tail ih =>
      refine List.nodup_cons.mpr ⟨fun again => ?_, ih⟩
      -- Behind the second occurrence there would be as many nodes as behind the first.
      obtain ⟨front, back, rfl, chain⟩ := tail.split again
      have same := congrArg List.length (tail.unique chain)
      simp only [List.length_append, List.length_cons] at same
      omega

/-- Writes to other nodes do not change the list. -/
theorem Chain.keep (chain : Chain next head nodes) (same : ∀ a ∈ nodes, next' a = next a)
    : Chain next' head nodes := by
  induction chain with
  | nil => exact .nil
  | @cons a rest tail ih =>
      refine .cons ?_
      rw [same a (List.mem_cons_self ..)]
      exact ih fun b later => same b (List.mem_cons_of_mem _ later)

/-- The last node of the list was reached, or there is one more. -/
theorem Chain.head_cases (chain : Chain next head nodes)
    : (head = none ∧ nodes = [])
      ∨ ∃ a rest, head = some a ∧ nodes = a :: rest ∧ Chain next (next a) rest := by
  cases chain with
  | nil => exact .inl ⟨rfl, rfl⟩
  | cons tail => exact .inr ⟨_, _, rfl, rfl, tail⟩

end Chains
