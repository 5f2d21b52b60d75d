import Mathlib.Data.Multiset.MapFold
import Mathlib.Data.Multiset.UnionInter
import Mathlib.Tactic.Common

/-! Keys of which each has at most one value in a bag. A condition on every key and its
value, or on the lack of one, is kept when one key changes and the others do not notice.
-/

namespace Assignments

variable {α β : Type}

/-- The key has the value in the bag, or none. -/
def Has (S : Multiset (α × β)) (a : α) : Option β → Prop
  | some b => (a, b) ∈ S
  | none => a ∉ S.map Prod.fst

/-- No key has two values, and `good` holds of every key with the value it has. -/
structure Assigns (good : α → Option β → Prop) (S : Multiset (α × β)) : Prop where
  one : (S.map Prod.fst).Nodup
  all : ∀ a v, Has S a v → good a v

variable {good good' : α → Option β → Prop} {S : Multiset (α × β)} {a : α} {b b' : β}

theorem Assigns.head (inv : Assigns good ((a, b) ::ₘ S)) : good a (some b) :=
  inv.all a (some b) (Multiset.mem_cons_self _ _)

/-- The other values belong to other keys. -/
theorem Assigns.absent (inv : Assigns good ((a, b) ::ₘ S)) : a ∉ S.map Prod.fst := by
  have one := inv.one
  rw [Multiset.map_cons, Multiset.nodup_cons] at one
  exact one.1

/-- The values stay as they are. -/
theorem Assigns.keep (inv : Assigns good S) (kept : ∀ a v, Has S a v → good a v → good' a v)
    : Assigns good' S :=
  ⟨inv.one, fun a v has => kept a v has (inv.all a v has)⟩

/-- A key without a value gets one. -/
theorem Assigns.start (inv : Assigns good S) (absent : a ∉ S.map Prod.fst)
    (others : ∀ a' v, a' ≠ a → Has S a' v → good a' v → good' a' v)
    (own : good' a (some b))
    : Assigns good' ((a, b) ::ₘ S) := by
  refine ⟨?_, ?_⟩
  · rw [Multiset.map_cons, Multiset.nodup_cons]
    exact ⟨absent, inv.one⟩
  · intro a' v has
    cases v with
    | some b' =>
        rcases Multiset.mem_cons.mp has with eq | there
        · cases eq
          exact own
        · apply others a' (some b') _ there (inv.all a' (some b') there)
          rintro rfl
          exact absent (Multiset.mem_map_of_mem Prod.fst there)
    | none =>
        simp only [Has, Multiset.map_cons, Multiset.mem_cons, not_or] at has
        exact others a' none has.1 has.2 (inv.all a' none has.2)

/-- A key loses its value. -/
theorem Assigns.stop (inv : Assigns good ((a, b) ::ₘ S))
    (others : ∀ a' v, a' ≠ a → Has S a' v → good a' v → good' a' v) (own : good' a none)
    : Assigns good' S := by
  have one := inv.one
  rw [Multiset.map_cons, Multiset.nodup_cons] at one
  refine ⟨one.2, ?_⟩
  intro a' v has
  cases v with
  | some b' =>
      apply others a' (some b') _ has (inv.all a' (some b') (Multiset.mem_cons_of_mem has))
      rintro rfl
      exact inv.absent (Multiset.mem_map_of_mem Prod.fst has)
  | none =>
      by_cases eq : a' = a
      · exact eq ▸ own
      · apply others a' none eq has (inv.all a' none _)
        have has : a' ∉ S.map Prod.fst := has
        simp [Has, eq, has]

/-- A key changes its value. -/
theorem Assigns.change (inv : Assigns good ((a, b) ::ₘ S))
    (others : ∀ a' v, a' ≠ a → Has S a' v → good a' v → good' a' v)
    (own : good' a (some b'))
    : Assigns good' ((a, b') ::ₘ S) := by
  have rest : Assigns (fun a' v => a' ≠ a → good a' v) S :=
    inv.stop (fun a' v _ _ ok _ => ok) fun other => absurd rfl other
  exact rest.start inv.absent (fun a' v other has ok => others a' v other has (ok other)) own

end Assignments
