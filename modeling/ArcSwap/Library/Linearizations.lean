import ArcSwap.Library.Registers
import Mathlib.Data.List.Sort

/-! Operations that overlap in time, and an order in which they could have been carried out one
after the other. A read must have found what the register held at an instant between its call and
its end.
-/

namespace Registers

-----------------------------------------------------------------------------------------
-- One after the other
-----------------------------------------------------------------------------------------

variable {T α : Type}

/-- When an operation was called and when it ended, what it has found in the register and what it
has put there, if anything.
-/
structure Operation (T α : Type) where
  began : T
  ended : T
  found : α
  put : Option α

/-- One after the other, the operations find what the register holds, which holds `a` first and
`b` at the end.
-/
def Runs (same : α → α → Prop) : α → List (Operation T α) → α → Prop
  | a, [], b => a = b
  | a, o :: rest, b => same o.found a ∧ Runs same (o.put.getD a) rest b

section runs

variable {same : α → α → Prop} {a b d : α} {l l' : List (Operation T α)}

theorem Runs.append (start : Runs same a l b) (rest : Runs same b l' d)
    : Runs same a (l ++ l') d := by
  induction l generalizing a with
  | nil =>
      cases start
      exact rest
  | cons o l ih => exact ⟨start.1, ih start.2⟩

/-- Reads leave the register as it is. -/
theorem Runs.unchanged (holds : ∀ o ∈ l, o.put = none ∧ same o.found a)
    : Runs same a l a := by
  induction l with
  | nil => rfl
  | cons o l ih =>
      obtain ⟨none, found⟩ := holds o List.mem_cons_self
      refine ⟨found, ?_⟩
      rw [none]
      exact ih fun o' inside => holds o' (List.mem_cons_of_mem o inside)

end runs

-----------------------------------------------------------------------------------------
-- At the same time
-----------------------------------------------------------------------------------------

variable [LinearOrder T]

/-- No operation comes after one that was called when it had ended. -/
def InTime (order : List (Operation T α)) : Prop :=
  order.Pairwise fun o o' => ¬ o'.ended < o.began

/-- Writes, latest first, each at its end in the place of what the one before has put. -/
def Chain (now : α) : List (Operation T α) → Prop
  | [] => True
  | w :: earlier =>
      w.put = some now ∧ w.began ≤ w.ended ∧ (∀ w' ∈ earlier, w'.ended < w.ended)
        ∧ Chain w.found earlier

/-- What the register held before all writes. -/
def first (now : α) : List (Operation T α) → α
  | [] => now
  | w :: earlier => first w.found earlier

def Operation.write (w : Operation T α) : Write T α := ⟨w.ended, w.found⟩

variable {same : α → α → Prop} {now : α} {reads writes : List (Operation T α)}

theorem Chain.began (chain : Chain now writes) : ∀ w ∈ writes, w.began ≤ w.ended := by
  induction writes generalizing now with
  | nil =>
      intro w inside
      cases inside
  | cons w earlier ih =>
      intro w' inside
      rcases List.mem_cons.mp inside with rfl | there
      · exact chain.2.1
      · exact ih chain.2.2.2 w' there

/-- Operations in the order of instants that lie in them are in time. -/
theorem InTime.of_instants {order : List (T × Operation T α)}
    (sorted : order.Pairwise fun x y => x.1 ≤ y.1)
    (inside : ∀ x ∈ order, x.2.began ≤ x.1 ∧ x.1 ≤ x.2.ended)
    : InTime (order.map Prod.snd) := by
  refine List.pairwise_map.mpr (sorted.imp_of_mem fun {x y} there there' le => ?_)
  exact not_lt.mpr ((inside x there).1.trans (le.trans (inside y there').2))

/-- Every read after the last write finds what it has put, and the reads before it find what the
register held before, by induction on the writes.
-/
theorem exists_order (refl : ∀ a, same a a) (chain : Chain now writes)
    {reads : List (T × Operation T α)}
    (held
      : ∀ r ∈ reads, r.2.put = none
        ∧ same r.2.found (valueAt now r.1 (writes.map Operation.write)))
    : ∃ order : List (T × Operation T α), order.Perm (reads ++ writes.map fun w => (w.ended, w))
        ∧ order.Pairwise (fun x y => x.1 ≤ y.1)
        ∧ Runs same (first now writes) (order.map Prod.snd) now := by
  let le (x y : T × Operation T α) : Bool := decide (x.1 ≤ y.1)
  have trans (x y z) (first : le x y) (second : le y z) : le x z := by
    simp only [le, decide_eq_true_eq] at *
    exact first.trans second
  have total (x y) : le x y || le y x := by
    simpa [le] using le_total x.1 y.1
  have sorted (l : List (T × Operation T α))
      : (l.mergeSort le).Pairwise fun x y => x.1 ≤ y.1 := by
    simpa [le] using List.pairwise_mergeSort trans total l
  have settled (l : List (T × Operation T α)) {a : α}
      (holds : ∀ r ∈ l, r.2.put = none ∧ same r.2.found a)
      : Runs same a ((l.mergeSort le).map Prod.snd) a := by
    apply Runs.unchanged
    intro o inside
    obtain ⟨r, there, rfl⟩ := List.mem_map.mp inside
    exact holds r ((List.mergeSort_perm l le).mem_iff.mp there)
  induction writes generalizing now reads with
  | nil =>
      refine ⟨reads.mergeSort le, ?_, sorted reads, settled reads held⟩
      simpa using List.mergeSort_perm reads le
  | cons w earlier ih =>
      obtain ⟨put, began, before, chain⟩ := chain
      let early := reads.filter fun r => !decide (w.ended ≤ r.1)
      let late := reads.filter fun r => decide (w.ended ≤ r.1)
      have early_held
          : ∀ r ∈ early,
              r.2.put = none ∧ same r.2.found
                (valueAt w.found r.1 (earlier.map Operation.write)) := by
        intro r inside
        obtain ⟨there, past⟩ := List.mem_filter.mp inside
        have past : r.1 < w.ended := by simpa using past
        obtain ⟨none, found⟩ := held r there
        refine ⟨none, ?_⟩
        rw [← valueAt_write past]
        exact found
      obtain ⟨order, perm, ordered, runs⟩ := ih chain early_held
      have late_held : ∀ r ∈ late, r.2.put = none ∧ same r.2.found now := by
        intro r inside
        obtain ⟨there, past⟩ := List.mem_filter.mp inside
        have past : w.ended ≤ r.1 := by simpa using past
        obtain ⟨none, found⟩ := held r there
        have now_held : valueAt now r.1 ((w :: earlier).map Operation.write) = now := if_pos past
        exact ⟨none, now_held ▸ found⟩
      have split : (early ++ late).Perm reads := by
        have halves := List.filter_append_perm (fun r => !decide (w.ended ≤ r.1)) reads
        simpa [early, late] using halves
      -- Early reads and earlier writes, then the write, then the late reads.
      refine ⟨order ++ (w.ended, w) :: late.mergeSort le, ?_, ?_, ?_⟩
      · rw [List.map_cons]
        refine (perm.append ((List.mergeSort_perm late le).cons _)).trans ?_
        refine List.Perm.trans ?_ (split.append_right _)
        simp only [List.append_assoc]
        refine List.Perm.append_left early ?_
        refine List.perm_append_comm.trans ?_
        exact List.Perm.trans (by simp) List.perm_middle.symm
      · have bound : ∀ x ∈ order, x.1 < w.ended := by
          intro x inside
          rcases List.mem_append.mp (perm.mem_iff.mp inside) with read | written
          · simpa using (List.mem_filter.mp read).2
          · obtain ⟨w', there, rfl⟩ := List.mem_map.mp written
            exact before w' there
        have after : ∀ y ∈ late.mergeSort le, w.ended ≤ y.1 := by
          intro y inside
          have there := (List.mergeSort_perm late le).mem_iff.mp inside
          simpa using (List.mem_filter.mp there).2
        refine List.pairwise_append.mpr
          ⟨ordered, List.pairwise_cons.mpr ⟨after, sorted late⟩, ?_⟩
        intro x inside y there
        rcases List.mem_cons.mp there with rfl | there
        · exact (bound x inside).le
        · exact (bound x inside).le.trans (after y there)
      · rw [List.map_append]
        refine runs.append ⟨refl _, ?_⟩
        rw [put]
        exact settled late late_held

/-- Reads that have found what the register held at some instant between their call and their end,
and the writes, could have been carried out one after the other.
-/
theorem exists_runs (refl : ∀ a, same a a) (chain : Chain now writes)
    (held
      : ∀ r ∈ reads, r.put = none
        ∧ ∃ t, r.began ≤ t ∧ t ≤ r.ended
          ∧ same r.found (valueAt now t (writes.map Operation.write)))
    : ∃ order, order.Perm (reads ++ writes) ∧ InTime order
      ∧ Runs same (first now writes) order now := by
  have instant (r : Operation T α)
      : ∃ t, r ∈ reads
        → r.began ≤ t ∧ t ≤ r.ended
          ∧ same r.found (valueAt now t (writes.map Operation.write)) := by
    by_cases inside : r ∈ reads
    · obtain ⟨_, t, found⟩ := held r inside
      exact ⟨t, fun _ => found⟩
    · exact ⟨r.began, fun there => absurd there inside⟩
  choose time spec using instant
  have timed
      : ∀ x ∈ reads.map fun r => (time r, r),
          x.2.put = none ∧ same x.2.found (valueAt now x.1 (writes.map Operation.write)) := by
    intro x inside
    obtain ⟨r, there, rfl⟩ := List.mem_map.mp inside
    exact ⟨(held r there).1, (spec r there).2.2⟩
  obtain ⟨order, perm, sorted, runs⟩ := exists_order refl chain timed
  refine ⟨order.map Prod.snd, ?_, ?_, runs⟩
  · simpa [Function.comp_def] using perm.map Prod.snd
  · refine InTime.of_instants sorted fun x inside => ?_
    rcases List.mem_append.mp (perm.mem_iff.mp inside) with read | written
    · obtain ⟨r, there, rfl⟩ := List.mem_map.mp read
      exact ⟨(spec r there).1, (spec r there).2.1⟩
    · obtain ⟨w, there, rfl⟩ := List.mem_map.mp written
      exact ⟨chain.began w there, le_refl _⟩

end Registers
