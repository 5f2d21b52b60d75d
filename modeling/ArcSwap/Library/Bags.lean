import Mathlib.Algebra.BigOperators.Group.Finset.Basic
import Mathlib.Algebra.BigOperators.Group.List.Basic
import Mathlib.Data.Multiset.Count

/-! Resources of indexed owners. The bag of a family is the sum of the bags of its members;
replacing one member replaces its share. With multisets as bags a step that moves resources
is an equation between bags, and counting turns it into arithmetic.
-/

namespace Bags

open Finset

variable {α M : Type} [AddCommMonoid M]

/-- The bag of the first `n` members of a family. -/
def total (n : Nat) (bag : α → M) (f : Nat → α) : M :=
  ∑ i ∈ range n, bag (f i)

/-- The share of one member can be split off, and the rest does not depend on it. -/
theorem total_split (bag : α → M) (f : Nat → α) {n i : Nat} (inside : i < n)
    : ∃ rest, total n bag f = bag (f i) + rest
      ∧ ∀ a, total n bag (Function.update f i a) = bag a + rest := by
  have member : i ∈ range n := mem_range.mpr inside
  refine ⟨∑ j ∈ (range n).erase i, bag (f j), ?_, ?_⟩
  · exact (add_sum_erase _ _ member).symm
  · intro a
    rw [total, ← add_sum_erase _ _ member, Function.update_self]
    congr 1
    refine sum_congr rfl fun j other => ?_
    rw [Function.update_of_ne (ne_of_mem_erase other)]

/-- The shares of two members can be split off together. -/
theorem total_split_two (bag : α → M) (f : Nat → α) {n i j : Nat} (inside : i < n)
    (inside' : j < n) (other : i ≠ j)
    : ∃ rest, total n bag f = bag (f i) + (bag (f j) + rest) := by
  have member : i ∈ range n := mem_range.mpr inside
  have member' : j ∈ (range n).erase i := mem_erase.mpr ⟨other.symm, mem_range.mpr inside'⟩
  refine ⟨∑ k ∈ ((range n).erase i).erase j, bag (f k), ?_⟩
  rw [add_sum_erase _ (fun k => bag (f k)) member', add_sum_erase _ (fun k => bag (f k)) member,
    total]

/-- A new member adds its share. -/
theorem total_succ_update (bag : α → M) (f : Nat → α) (n : Nat) (a : α)
    : total (n + 1) bag (Function.update f n a) = total n bag f + bag a := by
  rw [total, sum_range_succ, Function.update_self]
  congr 1
  refine sum_congr rfl fun j inside => ?_
  rw [Function.update_of_ne (Nat.ne_of_lt (mem_range.mp inside))]

/-- What a member has, the family has. -/
theorem mem_total {β : Type} {bag : α → Multiset β} {f : Nat → α} {n : Nat} {b : β}
    : b ∈ total n bag f ↔ ∃ i < n, b ∈ bag (f i) := by
  simp [total, Multiset.mem_sum]

/-- Two sums that differ in one summand. -/
theorem sum_exchange {ι : Type} [DecidableEq ι] {s : Finset ι} {f g : ι → M} {i : ι}
    (inside : i ∈ s) (others : ∀ j ∈ s, j ≠ i → f j = g j)
    : ∑ j ∈ s, f j + g i = ∑ j ∈ s, g j + f i := by
  have rest : ∑ j ∈ s.erase i, f j = ∑ j ∈ s.erase i, g j := by
    refine sum_congr rfl fun j member => ?_
    exact others j (mem_of_mem_erase member) (ne_of_mem_erase member)
  rw [← add_sum_erase s f inside, ← add_sum_erase s g inside, rest]
  ac_rfl

/-- The total weight of a bag. -/
def tally {β : Type} (weight : β → Nat) (B : Multiset β) : Nat :=
  (B.map weight).sum

section tally

variable {β : Type} (weight : β → Nat)

@[simp]
theorem tally_zero : tally weight 0 = 0 := rfl

@[simp]
theorem tally_cons (b : β) (B : Multiset β)
    : tally weight (b ::ₘ B) = weight b + tally weight B := by
  simp [tally]

@[simp]
theorem tally_add (B C : Multiset β)
    : tally weight (B + C) = tally weight B + tally weight C := by
  simp [tally]

/-- A bag weighs at least as much as what is in it. -/
theorem le_tally {b : β} {B : Multiset β} (inside : b ∈ B) : weight b ≤ tally weight B := by
  obtain ⟨rest, rfl⟩ := Multiset.exists_cons_of_mem inside
  simp

theorem tally_eq_zero {B : Multiset β} (none : ∀ b ∈ B, weight b = 0)
    : tally weight B = 0 := by
  induction B using Multiset.induction with
  | empty => rfl
  | cons b B ih =>
      rw [tally_cons, none b (by simp), ih fun b inside => none b (by simp [inside])]

/-- The weight of a family is the sum of the weights of its members. -/
theorem tally_total (bag : α → Multiset β) (f : Nat → α) (n : Nat)
    : tally weight (total n bag f) = ∑ i ∈ range n, tally weight (bag (f i)) := by
  induction n with
  | zero => rfl
  | succ n ih =>
      rw [sum_range_succ, ← ih, total, total, sum_range_succ, tally_add]

end tally

/-- The bag of a list of resources. -/
def listed (bag : α → M) (l : List α) : M :=
  (l.map bag).sum

@[simp]
theorem listed_nil (bag : α → M) : listed bag [] = 0 := rfl

@[simp]
theorem listed_cons (bag : α → M) (a : α) (l : List α)
    : listed bag (a :: l) = bag a + listed bag l := rfl

@[simp]
theorem listed_append (bag : α → M) (l l' : List α)
    : listed bag (l ++ l') = listed bag l + listed bag l' := by
  simp [listed]

theorem mem_listed {β : Type} {bag : α → Multiset β} {l : List α} {b : β}
    : b ∈ listed bag l ↔ ∃ a ∈ l, b ∈ bag a := by
  induction l with
  | nil => simp
  | cons a l ih => simp [ih]

/-- Names that are taken from a clock stay apart: a step passes names on, or takes the time as a new
one.
-/
theorem fresh_step {old new others : Multiset Nat} {time : Nat} (once : (old + others).Nodup)
    (past : ∀ n ∈ old + others, n < time) (moves : new ≤ old ∨ new = {time} ∧ old = 0)
    : (new + others).Nodup ∧ ∀ n ∈ new + others, n < time + 1 := by
  rcases moves with fewer | ⟨rfl, rfl⟩
  · have le : new + others ≤ old + others := add_le_add fewer le_rfl
    exact ⟨Multiset.nodup_of_le le once, fun n inside =>
      Nat.lt_succ_of_lt (past n (Multiset.mem_of_le le inside))⟩
  · rw [zero_add] at once past
    rw [Multiset.singleton_add, Multiset.nodup_cons]
    refine ⟨⟨fun inside => Nat.lt_irrefl _ (past _ inside), once⟩, fun n inside => ?_⟩
    rcases Multiset.mem_cons.mp inside with rfl | inside
    · exact Nat.lt_succ_self _
    · exact Nat.lt_succ_of_lt (past n inside)

end Bags
