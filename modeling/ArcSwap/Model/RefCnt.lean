import Mathlib.Algebra.Group.Nat.Defs
import Mathlib.Tactic.Common

/-! The smart pointers that can be put into a storage and their conversions to and from raw
pointers: the trait `RefCnt` with all its implementations. The standard library's pointers are
addresses of allocations with two counts; `Weak::new` has an address that no allocation has.
-/

namespace ArcSwap.RefCounting

-----------------------------------------------------------------------------------------
-- Allocations
-----------------------------------------------------------------------------------------

/-- What the layout of an allocation depends on: the width of `usize`, and where the pointee
lies in its allocation.
-/
structure Layout where
  width : Nat
  offset : Nat
  wide : 0 < width
  /-- The pointee comes after two aligned counters. -/
  aligned : offset % 2 = 0

/-- `usize::MAX`, the address in a weak pointer without an allocation. -/
def Layout.dangling (L : Layout) : Nat := 2 ^ L.width - 1

/-- The counts of an allocation. A pointee is gone when `strong` is 0, the allocation when
`weak` is 0, in which all strong pointers together count as one.
-/
structure Counts where
  strong : Nat
  weak : Nat
deriving DecidableEq

/-- The allocations by their addresses, which are aligned and in the address space. -/
structure Heap (L : Layout) where
  counts : Nat → Option Counts
  placed
    : ∀ a, counts a ≠ none → 0 < a ∧ a % 2 = 0 ∧ a + L.offset < L.dangling

/-- A computation that may change counts. -/
abbrev Counted (L : Layout) := StateM (Heap L)

/-- Replace or remove the counts of an allocation. -/
def Heap.set {L : Layout} (h : Heap L) (a : Nat) (f : Counts → Option Counts) : Heap L where
  counts b := if b = a then (h.counts a).bind f else h.counts b
  placed := by
    intro b used
    by_cases same : b = a
    · subst same
      refine h.placed b fun free => used ?_
      simp [free]
    · simp only [same, ↓reduceIte] at used
      exact h.placed b used

-----------------------------------------------------------------------------------------
-- std::sync and std::rc
-----------------------------------------------------------------------------------------

/-- `Arc<T>`, an address of an allocation. -/
structure Arc where
  inner : Nat
deriving DecidableEq

structure Rc where
  inner : Nat
deriving DecidableEq

/-- `Pin<P>`. -/
structure Pin (P : Type) where
  pointer : P
deriving DecidableEq

/-- `sync::Weak<T>`, an address of an allocation or the dangling one. -/
structure Weak where
  inner : Nat
deriving DecidableEq

/-- `rc::Weak<T>`. -/
structure RcWeak where
  inner : Nat
deriving DecidableEq

section std

variable (L : Layout)

/-- `into_raw` forgets the pointer without giving its count back. -/
def Arc.intoRaw (this : Arc) : Counted L Nat := pure (this.inner + L.offset)

def Arc.fromRaw (ptr : Nat) : Counted L Arc := pure ⟨ptr - L.offset⟩

def Rc.intoRaw (this : Rc) : Counted L Nat := pure (this.inner + L.offset)

def Rc.fromRaw (ptr : Nat) : Counted L Rc := pure ⟨ptr - L.offset⟩

/-- The end of a weak pointer, the last of which frees the allocation. -/
def dropWeak (inner : Nat) : Counted L Unit :=
  if inner = L.dangling then pure ()
  else
    modify fun h => h.set inner fun c =>
      if c.weak ≤ 1 then none else some { c with weak := c.weak - 1 }

def Weak.new : Counted L Weak := pure ⟨L.dangling⟩

def Weak.drop (this : Weak) : Counted L Unit := dropWeak L this.inner

def Weak.ptrEq (this other : Weak) : Bool := this.inner == other.inner

def Weak.asPtr (this : Weak) : Nat :=
  if this.inner = L.dangling then this.inner else this.inner + L.offset

def Weak.intoRaw (this : Weak) : Counted L Nat := pure (this.asPtr L)

def Weak.fromRaw (ptr : Nat) : Counted L Weak :=
  pure ⟨if ptr = L.dangling then ptr else ptr - L.offset⟩

def RcWeak.new : Counted L RcWeak := pure ⟨L.dangling⟩

def RcWeak.drop (this : RcWeak) : Counted L Unit := dropWeak L this.inner

def RcWeak.ptrEq (this other : RcWeak) : Bool := this.inner == other.inner

def RcWeak.asPtr (this : RcWeak) : Nat :=
  if this.inner = L.dangling then this.inner else this.inner + L.offset

def RcWeak.intoRaw (this : RcWeak) : Counted L Nat := pure (this.asPtr L)

def RcWeak.fromRaw (ptr : Nat) : Counted L RcWeak :=
  pure ⟨if ptr = L.dangling then ptr else ptr - L.offset⟩

end std

/-- `mem::forget`. -/
def forget {L : Layout} {T : Type} (_ : T) : Counted L Unit := pure ()

/-- `ptr::null_mut()`. -/
def null : Nat := 0

-----------------------------------------------------------------------------------------
-- ref_cnt.rs and weak.rs
-----------------------------------------------------------------------------------------

/-- The trait `RefCnt`, with raw pointers as addresses. -/
class RefCnt (L : Layout) (T : Type) where
  intoPtr : T → Counted L Nat
  asPtr : T → Counted L Nat
  fromPtr : Nat → Counted L T

instance (L : Layout) : RefCnt L Arc where
  intoPtr me := me.intoRaw L
  asPtr me := do
    let ptr ← me.intoRaw L
    let shallow ← Arc.fromRaw L ptr
    forget shallow
    pure ptr
  fromPtr ptr := Arc.fromRaw L ptr

instance (L : Layout) : RefCnt L Rc where
  intoPtr me := me.intoRaw L
  asPtr me := do
    let ptr ← me.intoRaw L
    let shallow ← Rc.fromRaw L ptr
    forget shallow
    pure ptr
  fromPtr ptr := Rc.fromRaw L ptr

instance (L : Layout) : RefCnt L (Pin Arc) where
  intoPtr me := me.pointer.intoRaw L
  asPtr me := do
    let ptr ← me.pointer.intoRaw L
    let shallow ← Arc.fromRaw L ptr
    forget shallow
    pure ptr
  fromPtr ptr := do
    let pointer ← Arc.fromRaw L ptr
    pure ⟨pointer⟩

instance (L : Layout) : RefCnt L (Pin Rc) where
  intoPtr me := me.pointer.intoRaw L
  asPtr me := do
    let ptr ← me.pointer.intoRaw L
    let shallow ← Rc.fromRaw L ptr
    forget shallow
    pure ptr
  fromPtr ptr := do
    let pointer ← Rc.fromRaw L ptr
    pure ⟨pointer⟩

instance (L : Layout) : RefCnt L Weak where
  asPtr me := do
    let empty ← Weak.new L
    let same := empty.ptrEq me
    empty.drop L
    if same then pure null else pure (me.asPtr L)
  intoPtr me := do
    let empty ← Weak.new L
    let same := empty.ptrEq me
    empty.drop L
    if same then
      -- `me` is not moved in this branch and dropped at its end.
      me.drop L
      pure null
    else me.intoRaw L
  fromPtr ptr := if ptr = null then Weak.new L else Weak.fromRaw L ptr

instance (L : Layout) : RefCnt L RcWeak where
  asPtr me := do
    let empty ← RcWeak.new L
    let same := empty.ptrEq me
    empty.drop L
    if same then pure null else pure (me.asPtr L)
  intoPtr me := do
    let empty ← RcWeak.new L
    let same := empty.ptrEq me
    empty.drop L
    if same then
      me.drop L
      pure null
    else me.intoRaw L
  fromPtr ptr := if ptr = null then RcWeak.new L else RcWeak.fromRaw L ptr

/-- The layer that stores `None` as null. -/
instance (L : Layout) (T : Type) [RefCnt L T] : RefCnt L (Option T) where
  intoPtr
    | none => pure null
    | some me => RefCnt.intoPtr me
  asPtr
    | none => pure null
    | some me => RefCnt.asPtr me
  fromPtr ptr :=
    if ptr = null then pure none
    else do
      let me : T ← RefCnt.fromPtr ptr
      pure (some me)

/-- A value that is put into a storage and taken out again with no write in between. -/
def storeAndLoad {T : Type} (L : Layout) [RefCnt L T] (v : T) : Counted L T := do
  let stored ← RefCnt.intoPtr v
  RefCnt.fromPtr stored

-----------------------------------------------------------------------------------------
-- Counting
-----------------------------------------------------------------------------------------

section std

variable (L : Layout)

/-- `Arc::clone` and `Rc::clone`. -/
def cloneStrong (inner : Nat) : Counted L Unit :=
  modify fun h => h.set inner fun c => some { c with strong := c.strong + 1 }

/-- The end of a strong pointer. The last one destroys the pointee, and then drops the weak pointer
that all strong ones have together.
-/
def dropStrong (inner : Nat) : Counted L Unit := do
  modify fun h => h.set inner fun c => some { c with strong := c.strong - 1 }
  let h ← get
  if (h.counts inner).map Counts.strong = some 0 then dropWeak L inner else pure ()

/-- `Weak::clone`. Nothing is counted without an allocation. -/
def cloneWeak (inner : Nat) : Counted L Unit :=
  if inner = L.dangling then pure ()
  else modify fun h => h.set inner fun c => some { c with weak := c.weak + 1 }

end std

/-- `Clone::clone` and the drop of a pointer. -/
class Cloned (L : Layout) (T : Type) where
  clone : T → Counted L T
  drop : T → Counted L Unit

instance (L : Layout) : Cloned L Arc where
  clone me := do
    cloneStrong L me.inner
    pure me
  drop me := dropStrong L me.inner

instance (L : Layout) : Cloned L Rc where
  clone me := do
    cloneStrong L me.inner
    pure me
  drop me := dropStrong L me.inner

instance (L : Layout) (P : Type) [Cloned L P] : Cloned L (Pin P) where
  clone me := do
    let pointer ← Cloned.clone me.pointer
    pure ⟨pointer⟩
  drop me := Cloned.drop me.pointer

instance (L : Layout) : Cloned L Weak where
  clone me := do
    cloneWeak L me.inner
    pure me
  drop me := me.drop L

instance (L : Layout) : Cloned L RcWeak where
  clone me := do
    cloneWeak L me.inner
    pure me
  drop me := me.drop L

instance (L : Layout) (T : Type) [Cloned L T] : Cloned L (Option T) where
  clone
    | none => pure none
    | some me => do
        let me ← Cloned.clone me
        pure (some me)
  drop
    | none => pure ()
    | some me => Cloned.drop me

/-- `RefCnt::inc`. -/
def RefCnt.inc {L : Layout} {T : Type} [RefCnt L T] [Cloned L T] (me : T) : Counted L Nat := do
  let me ← Cloned.clone me
  RefCnt.intoPtr me

/-- `RefCnt::dec`. -/
def RefCnt.dec (L : Layout) (T : Type) [RefCnt L T] [Cloned L T] (ptr : Nat) : Counted L Unit := do
  let me : T ← RefCnt.fromPtr ptr
  Cloned.drop me

end ArcSwap.RefCounting
