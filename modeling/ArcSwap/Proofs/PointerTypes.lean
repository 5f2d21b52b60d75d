import ArcSwap.Model.RefCnt

/-! Which values survive being stored and loaded. Every pointer of the standard library has its
own address, and an empty weak pointer is null; the `Option` layer loses a value exactly when
the layer below makes it null.
-/

namespace ArcSwap.RefCounting

-----------------------------------------------------------------------------------------
-- The supported types
-----------------------------------------------------------------------------------------

/-- The smart pointers that `RefCnt` is implemented for. -/
inductive Pointer
  | arc
  | rc
  | pinArc
  | pinRc
  | weak
  | rcWeak
deriving DecidableEq

/-- The contents of a storage: a smart pointer, or an `Option` of one. -/
inductive Content
  | plain (k : Pointer)
  | option (k : Pointer)
deriving DecidableEq

abbrev Pointer.Value : Pointer → Type
  | .arc => Arc
  | .rc => Rc
  | .pinArc => Pin Arc
  | .pinRc => Pin Rc
  | .weak => Weak
  | .rcWeak => RcWeak

instance Pointer.refCnt (L : Layout) : (k : Pointer) → RefCnt L k.Value
  | .arc => inferInstanceAs (RefCnt L Arc)
  | .rc => inferInstanceAs (RefCnt L Rc)
  | .pinArc => inferInstanceAs (RefCnt L (Pin Arc))
  | .pinRc => inferInstanceAs (RefCnt L (Pin Rc))
  | .weak => inferInstanceAs (RefCnt L Weak)
  | .rcWeak => inferInstanceAs (RefCnt L RcWeak)

abbrev Content.Value : Content → Type
  | .plain k => k.Value
  | .option k => Option k.Value

instance Content.refCnt (L : Layout) : (k : Content) → RefCnt L k.Value
  | .plain k => Pointer.refCnt L k
  | .option k =>
      have := Pointer.refCnt L k
      inferInstanceAs (RefCnt L (Option k.Value))

/-- The allocation that a pointer refers to. -/
def Pointer.inner : (k : Pointer) → k.Value → Nat
  | .arc, v => v.inner
  | .rc, v => v.inner
  | .pinArc, v => v.pointer.inner
  | .pinRc, v => v.pointer.inner
  | .weak, v => v.inner
  | .rcWeak, v => v.inner

/-- Weak pointers can be without an allocation. -/
def Pointer.isWeak : Pointer → Bool
  | .weak | .rcWeak => true
  | _ => false

variable {L : Layout}

/-- An empty weak pointer. -/
def Pointer.Empty (L : Layout) (k : Pointer) (v : k.Value) : Prop :=
  k.isWeak = true ∧ k.inner v = L.dangling

/-- A pointer that a program can have: its allocation is there, or it is an empty weak pointer.
-/
def Pointer.Valid (h : Heap L) (k : Pointer) (v : k.Value) : Prop :=
  k.Empty L v ∨ h.counts (k.inner v) ≠ none

def Content.Valid (h : Heap L) : (k : Content) → k.Value → Prop
  | .plain k, v => k.Valid h v
  | .option k, v => ∀ me, v = some me → k.Valid h me

/-- `Some` of an empty weak pointer. -/
def Content.SomeEmpty (L : Layout) : (k : Content) → k.Value → Prop
  | .plain _, _ => False
  | .option k, v => ∃ me, v = some me ∧ k.Empty L me

def Content.IsNone : (k : Content) → k.Value → Prop
  | .plain _, _ => False
  | .option _, v => v = none

-----------------------------------------------------------------------------------------
-- One layer
-----------------------------------------------------------------------------------------

/-- The raw pointer of a smart pointer. -/
def Pointer.raw (L : Layout) (k : Pointer) (v : k.Value) : Nat :=
  if k.isWeak && k.inner v == L.dangling then null else k.inner v + L.offset

theorem Heap.not_dangling {h : Heap L} {a : Nat} (used : h.counts a ≠ none)
    : a ≠ L.dangling ∧ a + L.offset ≠ L.dangling ∧ a + L.offset ≠ null := by
  obtain ⟨positive, _, below⟩ := h.placed a used
  refine ⟨?_, ?_, ?_⟩
  · omega
  · omega
  · simp only [null]
    omega

/-- An empty weak pointer is dropped without an effect. -/
theorem dropWeak_dangling : dropWeak L L.dangling = pure () := by
  simp [dropWeak]

theorem Pointer.asPtr_eq (k : Pointer) (v : k.Value)
    : (RefCnt.asPtr v : Counted L Nat) = pure (k.raw L v) := by
  cases k with
  | arc | rc | pinArc | pinRc => rfl
  | weak =>
      by_cases empty : v.inner = L.dangling
      · simp [RefCnt.asPtr, raw, isWeak, inner, Weak.new, Weak.ptrEq, Weak.drop,
          dropWeak_dangling, empty]
      · simp [RefCnt.asPtr, raw, isWeak, inner, Weak.new, Weak.ptrEq, Weak.drop, Weak.asPtr,
          dropWeak_dangling, empty, Ne.symm empty]
  | rcWeak =>
      by_cases empty : v.inner = L.dangling
      · simp [RefCnt.asPtr, raw, isWeak, inner, RcWeak.new, RcWeak.ptrEq, RcWeak.drop,
          dropWeak_dangling, empty]
      · simp [RefCnt.asPtr, raw, isWeak, inner, RcWeak.new, RcWeak.ptrEq, RcWeak.drop,
          RcWeak.asPtr, dropWeak_dangling, empty, Ne.symm empty]

theorem Pointer.intoPtr_eq (k : Pointer) (v : k.Value)
    : (RefCnt.intoPtr v : Counted L Nat) = pure (k.raw L v) := by
  cases k with
  | arc | rc | pinArc | pinRc => rfl
  | weak =>
      by_cases empty : v.inner = L.dangling
      · simp [RefCnt.intoPtr, raw, isWeak, inner, Weak.new, Weak.ptrEq, Weak.drop,
          dropWeak_dangling, empty]
      · simp [RefCnt.intoPtr, raw, isWeak, inner, Weak.new, Weak.ptrEq, Weak.drop,
          Weak.intoRaw, Weak.asPtr, dropWeak_dangling, empty, Ne.symm empty]
  | rcWeak =>
      by_cases empty : v.inner = L.dangling
      · simp [RefCnt.intoPtr, raw, isWeak, inner, RcWeak.new, RcWeak.ptrEq, RcWeak.drop,
          dropWeak_dangling, empty]
      · simp [RefCnt.intoPtr, raw, isWeak, inner, RcWeak.new, RcWeak.ptrEq, RcWeak.drop,
          RcWeak.intoRaw, RcWeak.asPtr, dropWeak_dangling, empty, Ne.symm empty]

/-- Every smart pointer comes back from its raw pointer. -/
theorem Pointer.fromPtr_raw {h : Heap L} {k : Pointer} {v : k.Value} (valid : k.Valid h v)
    : (RefCnt.fromPtr (k.raw L v) : Counted L k.Value) = pure v := by
  rcases valid with ⟨weak, empty⟩ | used
  · cases k with
    | arc | rc | pinArc | pinRc => cases weak
    | weak =>
        have same : v = ⟨L.dangling⟩ := congrArg Weak.mk empty
        simp [same, raw, isWeak, inner, RefCnt.fromPtr, Weak.new]
    | rcWeak =>
        have same : v = ⟨L.dangling⟩ := congrArg RcWeak.mk empty
        simp [same, raw, isWeak, inner, RefCnt.fromPtr, RcWeak.new]
  · obtain ⟨other, data, real⟩ := h.not_dangling used
    cases k with
    | arc | rc | pinArc | pinRc =>
        simp [raw, isWeak, inner, RefCnt.fromPtr, Arc.fromRaw, Rc.fromRaw]
    | weak =>
        have other : v.inner ≠ L.dangling := other
        have data : v.inner + L.offset ≠ L.dangling := data
        have real : v.inner + L.offset ≠ null := real
        simp [raw, isWeak, inner, RefCnt.fromPtr, Weak.fromRaw, other, data, real]
    | rcWeak =>
        have other : v.inner ≠ L.dangling := other
        have data : v.inner + L.offset ≠ L.dangling := data
        have real : v.inner + L.offset ≠ null := real
        simp [raw, isWeak, inner, RefCnt.fromPtr, RcWeak.fromRaw, other, data, real]

/-- The raw pointer is null for an empty weak pointer only. -/
theorem Pointer.raw_null {h : Heap L} {k : Pointer} {v : k.Value} (valid : k.Valid h v)
    : k.raw L v = null ↔ k.Empty L v := by
  constructor
  · intro isNull
    rcases valid with empty | used
    · exact empty
    · obtain ⟨other, _, real⟩ := h.not_dangling used
      simp only [raw, Bool.and_eq_true, beq_iff_eq] at isNull
      split at isNull
      · exact absurd (And.right ‹_›) other
      · exact absurd isNull real
  · intro empty
    simp [raw, empty.1, empty.2]

/-- What storing, loading and comparing rely on, for a value and another one in use: the value
comes back, `as_ptr` and `into_ptr` agree and change no count, and equal pointers are the same
value.
-/
structure Preserved {T : Type} (L : Layout) [RefCnt L T] (h : Heap L) (v w : T) : Prop where
  roundTrip : storeAndLoad L v h = (v, h)
  asPtr : RefCnt.asPtr v h = RefCnt.intoPtr v h
  counts : (RefCnt.intoPtr v h).2 = h
  identity : (RefCnt.asPtr v h).1 = (RefCnt.asPtr w h).1 → v = w

/-- Smart pointers without an `Option` layer keep their values. -/
theorem Pointer.preserved {h : Heap L} {k : Pointer} {v w : k.Value} (valid : k.Valid h v)
    (valid' : k.Valid h w)
    : Preserved L h v w where
  roundTrip := by
    simp [storeAndLoad, k.intoPtr_eq, fromPtr_raw valid]
    rfl
  asPtr := by rw [k.asPtr_eq, k.intoPtr_eq]
  counts := by
    rw [k.intoPtr_eq]
    rfl
  identity := by
    rw [k.asPtr_eq, k.asPtr_eq]
    intro same
    have same : k.raw L v = k.raw L w := same
    have back := fromPtr_raw valid'
    rw [← same, fromPtr_raw valid] at back
    exact congrArg Prod.fst (congrFun back h)

-----------------------------------------------------------------------------------------
-- The Option layer
-----------------------------------------------------------------------------------------

/-- The raw pointer of an optional smart pointer. -/
def Pointer.rawOption (L : Layout) (k : Pointer) : Option k.Value → Nat
  | none => null
  | some me => k.raw L me

theorem Pointer.option_asPtr (k : Pointer) (v : Option k.Value)
    : (RefCnt.asPtr v : Counted L Nat) = pure (k.rawOption L v) := by
  cases v with
  | none => rfl
  | some me => exact k.asPtr_eq me

theorem Pointer.option_intoPtr (k : Pointer) (v : Option k.Value)
    : (RefCnt.intoPtr v : Counted L Nat) = pure (k.rawOption L v) := by
  cases v with
  | none => rfl
  | some me => exact k.intoPtr_eq me

/-- What comes back from the raw pointer of an optional smart pointer. -/
theorem Pointer.option_fromPtr {h : Heap L} {k : Pointer} {me : k.Value} (valid : k.Valid h me)
    : (RefCnt.fromPtr (k.rawOption L (some me)) : Counted L (Option k.Value))
      = pure (if k.raw L me = null then none else some me) := by
  have back := fromPtr_raw valid
  by_cases isNull : k.raw L me = null
  · simp [RefCnt.fromPtr, rawOption, isNull]
  · simp only [RefCnt.fromPtr, rawOption, isNull, ↓reduceIte] at back ⊢
    rw [back, pure_bind]

/-- Exactly `Some` of an empty weak pointer does not come back: it comes back as `None`. -/
theorem Pointer.option_roundTrip {h : Heap L} {k : Pointer} {v : Option k.Value}
    (valid : (Content.option k).Valid h v)
    : storeAndLoad L v h = (v, h) ↔ ¬ (Content.option k).SomeEmpty L v := by
  have stored : storeAndLoad L v = (RefCnt.fromPtr (k.rawOption L v) : Counted L _) := by
    rw [storeAndLoad, k.option_intoPtr, pure_bind]
  rw [stored]
  cases v with
  | none =>
      constructor
      · rintro _ ⟨me, ⟨⟩, _⟩
      · intro _
        rfl
  | some me =>
      have valid : k.Valid h me := valid me rfl
      rw [option_fromPtr valid]
      constructor
      · rintro back ⟨me', ⟨⟩, empty⟩
        rw [if_pos ((raw_null valid).mpr empty)] at back
        cases congrArg Prod.fst back
      · intro full
        rw [if_neg fun isNull => full ⟨me, rfl, (raw_null valid).mp isNull⟩]
        rfl

/-- Exactly `None` and `Some` of an empty weak pointer are different and look the same. -/
theorem Pointer.option_identity {h : Heap L} {k : Pointer} {v w : Option k.Value}
    (valid : (Content.option k).Valid h v) (valid' : (Content.option k).Valid h w)
    (full : ¬ (Content.option k).SomeEmpty L v)
    : (k.rawOption L v = k.rawOption L w → v = w)
      ↔ ¬ ((Content.option k).IsNone v ∧ (Content.option k).SomeEmpty L w) := by
  constructor
  · rintro identity ⟨rfl, me, rfl, empty⟩
    exact nomatch identity ((raw_null (valid' me rfl)).mpr empty).symm
  · intro apart same
    cases v with
    | none =>
        cases w with
        | none => rfl
        | some me => exact absurd ⟨rfl, me, rfl, (raw_null (valid' me rfl)).mp same.symm⟩ apart
    | some me =>
        cases w with
        | none => exact absurd ⟨me, rfl, (raw_null (valid me rfl)).mp same⟩ full
        | some me' =>
            exact congrArg some
              ((preserved (valid me rfl) (valid' me' rfl)).identity (by
                rw [k.asPtr_eq, k.asPtr_eq]
                exact same))

-----------------------------------------------------------------------------------------
-- All supported types
-----------------------------------------------------------------------------------------

/-- Values of every supported type are preserved and told apart, except for `Some` of an empty
weak pointer, which becomes `None`.
-/
theorem preserved_iff (L : Layout) (h : Heap L) (k : Content) (v w : k.Value)
    (valid : k.Valid h v) (valid' : k.Valid h w)
    : Preserved L h v w ↔ ¬ (k.SomeEmpty L v ∨ k.IsNone v ∧ k.SomeEmpty L w) := by
  cases k with
  | plain k => simpa [Content.SomeEmpty, Content.IsNone] using Pointer.preserved valid valid'
  | option k =>
      have trip := Pointer.option_roundTrip valid
      have same (u : Option k.Value) : (RefCnt.asPtr u h).1 = k.rawOption L u := by
        rw [k.option_asPtr]
        rfl
      rw [not_or]
      constructor
      · intro kept
        have full := trip.mp kept.roundTrip
        refine ⟨full, (Pointer.option_identity valid valid' full).mp fun eq => ?_⟩
        exact kept.identity (by rw [same, same, eq])
      · rintro ⟨full, apart⟩
        refine ⟨trip.mpr full, ?_, ?_, ?_⟩
        · rw [k.option_asPtr, k.option_intoPtr]
        · rw [k.option_intoPtr]
          rfl
        · rw [same, same]
          exact (Pointer.option_identity valid valid' full).mpr apart

/-- A 64-bit platform, and a pointee that follows its two counters directly. -/
def usize64 : Layout := ⟨64, 16, by decide, by decide⟩

/-- A heap with one allocation. -/
def Heap.single (L : Layout) (a : Nat) (c : Counts)
    (fits : 0 < a ∧ a % 2 = 0 ∧ a + L.offset < L.dangling)
    : Heap L where
  counts b := if b = a then some c else none
  placed b used := by
    have same : b = a := by
      by_contra other
      simp [other] at used
    exact same ▸ fits

theorem preserved_iff_some_none
    : Preserved usize64 (.single usize64 4096 ⟨1, 2⟩ (by decide))
      (some (Weak.mk 4096)) none := by
  refine (preserved_iff usize64 _ (.option .weak) _ _ ?_ ?_).mpr ?_
  · rintro me ⟨⟩
    exact .inr (by simp [Heap.single, Pointer.inner])
  · rintro me ⟨⟩
  · rintro (⟨me, ⟨⟩, _, empty⟩ | ⟨⟨⟩, _⟩)
    have other : 4096 ≠ usize64.dangling := by decide
    exact other empty

/-- An `Option<Weak>` that holds `Some(Weak::new())` is `None` when it is loaded. -/
theorem some_empty_lost
    : (Content.option .weak).Valid (.single usize64 4096 ⟨1, 2⟩ (by decide))
          (some (Weak.mk usize64.dangling))
        ∧ storeAndLoad usize64 (some (Weak.mk usize64.dangling))
            (.single usize64 4096 ⟨1, 2⟩ (by decide))
          = (none, .single usize64 4096 ⟨1, 2⟩ (by decide)) := by
  refine ⟨?_, rfl⟩
  rintro me ⟨⟩
  exact .inl ⟨rfl, rfl⟩

end ArcSwap.RefCounting
