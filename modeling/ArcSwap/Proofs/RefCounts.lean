import ArcSwap.Proofs.PointerTypes
import ArcSwap.Proofs.Ledger

/-! `T::inc` and `T::dec` for every content of a storage. The whole program counts every object with
one number at the address of its pointee; this is what the counts of the standard library amount to,
the strong one for strong pointers and the weak one for weak pointers.
-/

namespace ArcSwap.RefCounting

-----------------------------------------------------------------------------------------
-- One pointer
-----------------------------------------------------------------------------------------

instance Pointer.cloned (L : Layout) : (k : Pointer) → Cloned L k.Value
  | .arc => inferInstanceAs (Cloned L Arc)
  | .rc => inferInstanceAs (Cloned L Rc)
  | .pinArc => inferInstanceAs (Cloned L (Pin Arc))
  | .pinRc => inferInstanceAs (Cloned L (Pin Rc))
  | .weak => inferInstanceAs (Cloned L Weak)
  | .rcWeak => inferInstanceAs (Cloned L RcWeak)

instance Content.cloned (L : Layout) : (k : Content) → Cloned L k.Value
  | .plain k => Pointer.cloned L k
  | .option k =>
      have := Pointer.cloned L k
      inferInstanceAs (Cloned L (Option k.Value))

/-- The count that pointers of this kind have a share in. -/
def Pointer.count (k : Pointer) (c : Counts) : Nat := if k.isWeak then c.weak else c.strong

/-- The allocation that a pointer has a count of. -/
def Pointer.home (L : Layout) (k : Pointer) (v : k.Value) : Option Nat :=
  if k.isWeak && k.inner v == L.dangling then none else some (k.inner v)

variable {L : Layout}

/-- The count of an allocation, which is 0 when it is gone. -/
def Heap.countAt (h : Heap L) (k : Pointer) (a : Nat) : Nat := ((h.counts a).map k.count).getD 0

/-- A count more. -/
def Heap.raise (h : Heap L) (k : Pointer) : Option Nat → Heap L
  | none => h
  | some a => (if k.isWeak then cloneWeak L a h else cloneStrong L a h).2

/-- A count less. -/
def Heap.lower (h : Heap L) (k : Pointer) : Option Nat → Heap L
  | none => h
  | some a => (if k.isWeak then dropWeak L a h else dropStrong L a h).2

section pointers

variable {h : Heap L} {k : Pointer} {v : k.Value} {a b : Nat}

theorem Pointer.clone_eq (k : Pointer) (v : k.Value) (h : Heap L)
    : Cloned.clone v h = (v, h.raise k (k.home L v)) := by
  cases k with
  | arc | rc | pinArc | pinRc => rfl
  | weak | rcWeak =>
      by_cases empty : v.inner = L.dangling
      · simp only [Pointer.home, Pointer.isWeak, Pointer.inner, empty]
        simp [Cloned.clone, cloneWeak, empty, Heap.raise]
        rfl
      · simp only [Pointer.home, Pointer.isWeak, Pointer.inner]
        simp [Cloned.clone, cloneWeak, empty, Heap.raise, Pointer.isWeak]
        rfl

theorem Pointer.drop_eq (k : Pointer) (v : k.Value) (h : Heap L)
    : Cloned.drop v h = ((), h.lower k (k.home L v)) := by
  cases k with
  | arc | rc | pinArc | pinRc => rfl
  | weak | rcWeak =>
      by_cases empty : v.inner = L.dangling
      · simp only [Pointer.home, Pointer.isWeak, Pointer.inner, empty]
        simp [Cloned.drop, Weak.drop, RcWeak.drop, dropWeak, empty, Heap.lower]
        rfl
      · simp only [Pointer.home, Pointer.isWeak, Pointer.inner]
        simp [Cloned.drop, Weak.drop, RcWeak.drop, dropWeak, empty, Heap.lower, Pointer.isWeak]
        rfl

/-- `T::inc` counts one more, and returns the raw pointer. -/
theorem Pointer.inc_eq (k : Pointer) (v : k.Value) (h : Heap L)
    : RefCnt.inc v h = (k.raw L v, h.raise k (k.home L v)) := by
  show (RefCnt.intoPtr (Cloned.clone v h).1 : Counted L Nat) (Cloned.clone v h).2 = _
  rw [k.clone_eq, k.intoPtr_eq]
  rfl

/-- `T::dec` counts one less. -/
theorem Pointer.dec_eq (valid : k.Valid h v)
    : RefCnt.dec L k.Value (k.raw L v) h = ((), h.lower k (k.home L v)) := by
  rw [RefCnt.dec, fromPtr_raw valid, pure_bind]
  exact k.drop_eq v h

theorem Heap.counted (used : 1 ≤ h.countAt k a)
    : ∃ c, h.counts a = some c ∧ k.count c = h.countAt k a := by
  cases counts : h.counts a with
  | none => simp [countAt, counts] at used
  | some c => exact ⟨c, rfl, by simp [countAt, counts]⟩

theorem Heap.countAt_set {f : Counts → Option Counts} {c} (counts : h.counts a = some c) (b : Nat)
    : (h.set a f).countAt k b = if b = a then ((f c).map k.count).getD 0 else h.countAt k b := by
  by_cases same : b = a
  · simp [countAt, set, same, counts]
  · simp [countAt, set, same]

theorem cloneStrong_eq (h : Heap L)
    : cloneStrong L a h = ((), h.set a fun c => some { c with strong := c.strong + 1 }) :=
  rfl

theorem cloneWeak_eq (real : a ≠ L.dangling) (h : Heap L)
    : cloneWeak L a h = ((), h.set a fun c => some { c with weak := c.weak + 1 }) := by
  rw [cloneWeak, if_neg real]
  rfl

theorem dropWeak_eq (real : a ≠ L.dangling) (h : Heap L)
    : dropWeak L a h
      = ((), h.set a fun c =>
          if c.weak ≤ 1 then none else some { c with weak := c.weak - 1 }) := by
  rw [dropWeak, if_neg real]
  rfl

theorem dropStrong_eq {c} (counts : h.counts a = some c)
    : dropStrong L a h
      = if c.strong - 1 = 0 then
          dropWeak L a (h.set a fun c => some { c with strong := c.strong - 1 })
        else ((), h.set a fun c => some { c with strong := c.strong - 1 }) := by
  let left := h.set a fun c => some { c with strong := c.strong - 1 }
  have strong : (left.counts a).map Counts.strong = some (c.strong - 1) := by
    simp [left, Heap.set, counts]
  show (if (left.counts a).map Counts.strong = some 0 then dropWeak L a else pure ()) left = _
  simp only [strong, Option.some_inj]
  split <;> rfl

/-- One more count changes no other one. -/
theorem Heap.countAt_raise (used : 1 ≤ h.countAt k a) (b : Nat)
    : (h.raise k (some a)).countAt k b = if b = a then h.countAt k b + 1 else h.countAt k b := by
  obtain ⟨c, counts, count⟩ := h.counted used
  have real : a ≠ L.dangling := (h.not_dangling (by simp [counts])).1
  have more : (h.raise k (some a)).countAt k b
      = if b = a then k.count c + 1 else h.countAt k b := by
    simp only [raise, Pointer.count]
    split
    · rw [cloneWeak_eq real, countAt_set counts]
      simp [Pointer.count, *]
    · rw [cloneStrong_eq, countAt_set counts]
      simp [Pointer.count, *]
  rw [more, count]
  split
  · rename_i same
    rw [same]
  · rfl

/-- One count less changes no other one, also when the allocation goes with it. -/
theorem Heap.countAt_lower (used : 1 ≤ h.countAt k a) (b : Nat)
    : (h.lower k (some a)).countAt k b = if b = a then h.countAt k b - 1 else h.countAt k b := by
  obtain ⟨c, counts, count⟩ := h.counted used
  have real : a ≠ L.dangling := (h.not_dangling (by simp [counts])).1
  have less : (h.lower k (some a)).countAt k b
      = if b = a then k.count c - 1 else h.countAt k b := by
    simp only [lower, Pointer.count]
    split
    · rename_i weak
      rw [dropWeak_eq real, countAt_set counts]
      by_cases last : c.weak ≤ 1
      · have gone : c.weak - 1 = 0 := by omega
        simp [last, gone]
      · simp [last, Pointer.count, weak]
    · rename_i strong
      let left := h.set a fun c => some { c with strong := c.strong - 1 }
      have kept : left.counts a = some { c with strong := c.strong - 1 } := by
        simp [left, Heap.set, counts]
      have one : left.countAt k b = if b = a then c.strong - 1 else h.countAt k b := by
        rw [countAt_set counts]
        simp [Pointer.count, strong]
      rw [dropStrong_eq counts]
      split
      · rename_i last
        show (dropWeak L a left).2.countAt k b = _
        rw [dropWeak_eq real, countAt_set kept, one, last]
        split
        · split <;> simp [Pointer.count, strong]
        · rfl
      · exact one
  rw [less, count]
  split
  · rename_i same
    rw [same]
  · rfl

end pointers

-----------------------------------------------------------------------------------------
-- All supported types
-----------------------------------------------------------------------------------------

/-- The kind of the smart pointers in a content. -/
def Content.pointer : Content → Pointer
  | .plain k | .option k => k

/-- The allocation that a value has a count of. -/
def Content.home (L : Layout) : (k : Content) → k.Value → Option Nat
  | .plain k, v => k.home L v
  | .option k, v => v.bind (k.home L)

/-- What the storage holds for a value. -/
def Content.raw (L : Layout) : (k : Content) → k.Value → Nat
  | .plain k, v => k.raw L v
  | .option k, v => k.rawOption L v

section contents

variable {h : Heap L} {k : Content} {v : k.Value} {a : Nat}

theorem Pointer.raw_eq (k : Pointer) (v : k.Value)
    : k.raw L v = ((k.home L v).map (· + L.offset)).getD null := by
  simp only [Pointer.raw, Pointer.home]
  split <;> rfl

theorem Content.raw_eq (k : Content) (v : k.Value)
    : k.raw L v = ((k.home L v).map (· + L.offset)).getD null := by
  cases k with
  | plain k => exact k.raw_eq v
  | option k =>
      cases v with
      | none => rfl
      | some me => exact k.raw_eq me

theorem Content.asPtr_eq (k : Content) (v : k.Value)
    : (RefCnt.asPtr v : Counted L Nat) = pure (k.raw L v) := by
  cases k with
  | plain k => exact k.asPtr_eq v
  | option k => exact k.option_asPtr v

theorem Content.inc_eq (k : Content) (v : k.Value) (h : Heap L)
    : RefCnt.inc v h = (k.raw L v, h.raise k.pointer (k.home L v)) := by
  cases k with
  | plain k => exact k.inc_eq v h
  | option k =>
      cases v with
      | none => rfl
      | some me => exact k.inc_eq me h

/-- A value is in use as long as its allocation counts it. -/
theorem Pointer.valid_of_counted {k : Pointer} {v : k.Value}
    (used : ∀ a, k.home L v = some a → 1 ≤ h.countAt k a)
    : k.Valid h v := by
  by_cases empty : k.isWeak = true ∧ k.inner v = L.dangling
  · exact .inl empty
  · have home : k.home L v = some (k.inner v) := by
      simp only [Pointer.home, Bool.and_eq_true, beq_iff_eq, if_neg empty]
    obtain ⟨c, counts, _⟩ := h.counted (used _ home)
    exact .inr (by simp [counts])

theorem Content.dec_eq (used : ∀ a, k.home L v = some a → 1 ≤ h.countAt k.pointer a)
    : RefCnt.dec L k.Value (k.raw L v) h = ((), h.lower k.pointer (k.home L v)) := by
  cases k with
  | plain k => exact Pointer.dec_eq (Pointer.valid_of_counted used)
  | option k =>
      cases v with
      | none => rfl
      | some me =>
          have valid : k.Valid h me := Pointer.valid_of_counted used
          have back : (RefCnt.fromPtr (k.rawOption L (some me)) : Counted L (Option k.Value))
              = pure (if k.raw L me = null then none else some me) :=
            Pointer.option_fromPtr valid
          show RefCnt.dec L (Option k.Value) (k.rawOption L (some me)) h = _
          rw [RefCnt.dec, back, pure_bind]
          split
          · rename_i isNull
            obtain ⟨weak, empty⟩ := (Pointer.raw_null valid).mp isNull
            have home : k.home L me = none := by simp [Pointer.home, weak, empty]
            simp only [Content.home, Option.bind_some, home]
            rfl
          · exact k.drop_eq me h

end contents

-----------------------------------------------------------------------------------------
-- The counts of the whole program
-----------------------------------------------------------------------------------------

/-- The pointer that the whole program has for a value. -/
def Content.ptr (L : Layout) (k : Content) (v : k.Value) : Ptr := ⟨k.raw L v, 0, 0⟩

/-- The whole program counts the objects in these allocations as pointers of this kind do. -/
def Agrees (objects : Set Nat) (p : Pointer) (h : Heap L) (sh : Shared) : Prop :=
  ∀ a ∈ objects, sh.strong (a + L.offset) = h.countAt p a

/-- A call of `T::inc` or `T::dec` for a value with pointers of this kind. -/
inductive CountCall (p : Pointer)
  | inc (k : Content) (kind : k.pointer = p) (v : k.Value)
  | dec (k : Content) (kind : k.pointer = p) (v : k.Value)

def CountCall.home (L : Layout) {p : Pointer} : CountCall p → Option Nat
  | .inc k _ v | .dec k _ v => k.home L v

/-- The call of the trait's function. -/
def CountCall.run {p : Pointer} (h : Heap L) : CountCall p → Heap L
  | .inc _ _ v => (RefCnt.inc v h).2
  | .dec k _ v => (RefCnt.dec L k.Value (k.raw L v) h).2

/-- The step of the whole program. -/
def CountCall.exec (L : Layout) (tls : Tls) {p : Pointer} (sh : Shared) : CountCall p → Shared
  | .inc k _ v => (incAct (k.ptr L v)).exec sh
  | .dec k _ v => (stepDec sh tls (k.ptr L v)).act.exec sh

/-- The call returns the raw pointer, and the whole program goes on with the destructor exactly if
no count is left.
-/
def CountCall.Alike (tls : Tls) {p : Pointer} (h : Heap L) (sh : Shared) : CountCall p → Prop
  | .inc k _ v => (RefCnt.inc v h).1 = (RefCnt.asPtr v h).1 ∧ (RefCnt.inc v h).1 = k.raw L v
  | .dec k kind v =>
      (stepDec sh tls (k.ptr L v)).frames = [.destructor (k.ptr L v)]
        ↔ ∃ a, k.home L v = some a ∧ ((CountCall.dec k kind v).run h).countAt p a = 0

/-- Every call is for a value of these objects that has a count when it is made, or for an empty
one.
-/
def InUse (objects : Set Nat) {p : Pointer} : List (CountCall p) → Heap L → Prop
  | [], _ => True
  | c :: rest, h =>
      (∀ a, c.home L = some a → a ∈ objects ∧ 1 ≤ h.countAt p a)
        ∧ InUse objects rest (c.run h)

/-- Both count alike before and after every call. -/
def Simulated (objects : Set Nat) (tls : Tls) {p : Pointer}
    : List (CountCall p) → Heap L → Shared → Prop
  | [], h, sh => Agrees objects p h sh
  | c :: rest, h, sh =>
      Agrees objects p h sh ∧ c.Alike tls h sh
        ∧ Simulated objects tls rest (c.run h) (c.exec L tls sh)

section calls

variable {objects : Set Nat} {p : Pointer} {h : Heap L} {sh : Shared} {tls : Tls} {c : CountCall p}
  {k : Content} {v : k.Value} {a : Nat}

/-- The object of a counted value has an address. -/
theorem Content.ptr_counted (home : k.home L v = some a) (used : 1 ≤ h.countAt k.pointer a)
    : (k.ptr L v).addr = a + L.offset ∧ (k.ptr L v).addr ≠ 0 := by
  obtain ⟨c, counts, _⟩ := h.counted used
  have addr : (k.ptr L v).addr = a + L.offset := by
    rw [Content.ptr, k.raw_eq, home]
    rfl
  rw [addr]
  exact ⟨rfl, (h.not_dangling (by simp [counts])).2.2⟩

theorem Content.ptr_empty (home : k.home L v = none) : (k.ptr L v).addr = 0 := by
  rw [Content.ptr, k.raw_eq, home]
  rfl

/-- The count of one object changes alike. -/
theorem Agrees.change {f : Nat → Nat} {h' : Heap L} {act : Act} (agrees : Agrees objects p h sh)
    (inside : a ∈ objects) (used : 1 ≤ h.countAt p a)
    (heap : (act.exec sh).heap = sh.count (a + L.offset) f)
    (counts : ∀ b, h'.countAt p b = if b = a then f (h.countAt p b) else h.countAt p b)
    : Agrees objects p h' (act.exec sh) := by
  intro b other
  have strong := agrees a inside
  obtain ⟨o, there, _⟩ := Shared.of_strong (strong ▸ used)
  rw [Shared.strong_count there heap, counts b]
  by_cases same : b = a
  · simp [same, strong]
  · simp [same, agrees b other]

theorem CountCall.agrees (agrees : Agrees objects p h sh)
    (used : ∀ a, c.home L = some a → a ∈ objects ∧ 1 ≤ h.countAt p a)
    : Agrees objects p (c.run h) (c.exec L tls sh) := by
  cases c with
  | inc k kind v =>
      cases kind
      simp only [run, exec, k.inc_eq, incAct]
      cases home : k.home L v with
      | none =>
          rw [if_pos (k.ptr_empty home)]
          exact agrees
      | some a =>
          obtain ⟨inside, used⟩ := used a home
          obtain ⟨addr, real⟩ := k.ptr_counted home used
          rw [if_neg real, addr]
          exact agrees.change inside used rfl (h.countAt_raise used)
  | dec k kind v =>
      cases kind
      have counted a (home : k.home L v = some a) := (used a home).2
      simp only [run, exec, k.dec_eq counted, stepDec]
      cases home : k.home L v with
      | none =>
          rw [if_pos (k.ptr_empty home)]
          exact agrees
      | some a =>
          obtain ⟨inside, used⟩ := used a home
          obtain ⟨addr, real⟩ := k.ptr_counted home used
          rw [if_neg real, addr]
          exact agrees.change (f := (· - 1)) inside used rfl (h.countAt_lower used)

theorem CountCall.alike (agrees : Agrees objects p h sh)
    (used : ∀ a, c.home L = some a → a ∈ objects ∧ 1 ≤ h.countAt p a)
    : c.Alike tls h sh := by
  cases c with
  | inc k kind v =>
      rw [Alike, k.inc_eq, k.asPtr_eq]
      exact ⟨rfl, rfl⟩
  | dec k kind v =>
      cases kind
      have counted a (home : k.home L v = some a) := (used a home).2
      simp only [Alike, run, k.dec_eq counted, stepDec]
      cases home : k.home L v with
      | none => simp [k.ptr_empty home]
      | some a =>
          obtain ⟨inside, used⟩ := used a home
          obtain ⟨addr, real⟩ := k.ptr_counted home used
          have strong := agrees a inside
          obtain ⟨o, there, _⟩ := Shared.of_strong (strong ▸ used)
          have one : o.strong = h.countAt k.pointer a := by
            rw [← strong, Shared.strong, there]
            rfl
          have last : h.countAt k.pointer a - 1 = 0 ↔ h.countAt k.pointer a = 1 := by omega
          rw [if_neg real, addr, there]
          simp [one, h.countAt_lower used, last]

end calls

/-- `T::inc` and `T::dec` of the whole program are those of the trait `RefCnt`, for every content
of a storage and any number of calls, as long as every value has a count when it is used.
-/
theorem counts_refine (L : Layout) (objects : Set Nat) (tls : Tls) (p : Pointer) (h : Heap L)
    (sh : Shared) (calls : List (CountCall p)) (agrees : Agrees objects p h sh)
    (used : InUse objects calls h)
    : Simulated objects tls calls h sh := by
  induction calls generalizing h sh with
  | nil => exact agrees
  | cons c rest ih =>
      obtain ⟨used, later⟩ := used
      have agrees' : Agrees objects p (c.run h) (c.exec L tls sh) := c.agrees agrees used
      exact ⟨agrees, c.alike agrees used, ih (c.run h) (c.exec L tls sh) agrees' later⟩

/-- A clone of an `Option<Arc>` and its end, which is not the end of the object, and then the end
of the last pointer to it.
-/
theorem counts_refine_last
    : ∃ (h : Heap usize64) (sh : Shared) (v : Option Arc),
        (Content.option .arc).home usize64 v = some 4096 ∧ h.countAt .arc 4096 = 1
          ∧ Simulated {4096} ⟨true, none, 0, 0⟩
              [.inc (.option .arc) rfl v, .dec (.plain .arc) rfl ⟨4096⟩,
                .dec (.option .arc) rfl v]
              h sh := by
  let h : Heap usize64 := .single usize64 4096 ⟨1, 1⟩ (by decide)
  let sh : Shared := {
    Shared.init with
    heap := fun b => if b = 4112 then some ⟨0, 0, 1⟩ else none
  }
  refine ⟨h, sh, some ⟨4096⟩, by decide, by decide, ?_⟩
  apply counts_refine
  · intro a inside
    cases inside
    rfl
  · refine ⟨?_, ?_, ?_, trivial⟩ <;>
    · intro a home
      cases home
      exact ⟨rfl, by decide⟩

end ArcSwap.RefCounting
