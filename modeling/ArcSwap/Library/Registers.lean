import Mathlib.Order.Lattice

/-! A register that several parties write to, and what it held at any time. The history lists the
writes, latest first, each with the content that it has replaced.
-/

namespace Registers

variable {T α : Type} [LinearOrder T]

/-- A write took effect at `time` and has replaced `old`. -/
structure Write (T α : Type) where
  time : T
  old : α

/-- The content at the time `t` of a register that holds `now`. -/
def valueAt (now : α) (t : T) : List (Write T α) → α
  | [] => now
  | w :: earlier => if w.time ≤ t then now else valueAt w.old t earlier

variable {now : α} {t t' : T} {history : List (Write T α)}

/-- A write does not change what was held before. -/
theorem valueAt_write {time old} (before : t < time)
    : valueAt now t (⟨time, old⟩ :: history) = valueAt old t history :=
  if_neg (not_le.mpr before)

/-- Since the last write the register holds the same. -/
theorem valueAt_now (past : ∀ w ∈ history, w.time ≤ t) : valueAt now t history = now := by
  cases history with
  | nil => rfl
  | cons w earlier => exact if_pos (past w List.mem_cons_self)

/-- What was held is held now, or it was replaced. -/
theorem valueAt_cases (now : α) (t : T) (history : List (Write T α))
    : valueAt now t history = now ∨ ∃ w ∈ history, valueAt now t history = w.old := by
  induction history generalizing now with
  | nil => exact .inl rfl
  | cons w earlier ih =>
      by_cases past : w.time ≤ t
      · exact .inl (if_pos past)
      · have eq : valueAt now t (w :: earlier) = valueAt w.old t earlier := if_neg past
        rw [eq]
        right
        rcases ih w.old with same | ⟨w', inside, same⟩
        · exact ⟨w, List.mem_cons_self, same⟩
        · exact ⟨w', List.mem_cons_of_mem w inside, same⟩

/-- What was held has been written to in between, if something else is held later. -/
theorem exists_write_of_ne (le : t ≤ t')
    (other : valueAt now t history ≠ valueAt now t' history)
    : ∃ w ∈ history, t < w.time ∧ w.time ≤ t' := by
  induction history generalizing now with
  | nil => exact absurd rfl other
  | cons w earlier ih =>
      by_cases past : w.time ≤ t
      · have same : valueAt now t (w :: earlier) = now := if_pos past
        have same' : valueAt now t' (w :: earlier) = now := if_pos (le_trans past le)
        exact absurd (same.trans same'.symm) other
      · by_cases between : w.time ≤ t'
        · exact ⟨w, List.mem_cons_self, not_le.mp past, between⟩
        · rw [valueAt_write (not_le.mp past), valueAt_write (not_le.mp between)] at other
          obtain ⟨w', inside, bounds⟩ := ih other
          exact ⟨w', List.mem_cons_of_mem w inside, bounds⟩

end Registers
