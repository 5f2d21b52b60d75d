import ArcSwap.Library.Bags
import ArcSwap.Proofs.Steps

/-! What all threads and user code hold together, for any notion of a share that frames,
thread-local nodes and values have. One step replaces the shares of the frames and values it
changes and keeps the rest.
-/

namespace ArcSwap

open Bags

/-- A notion of a share. -/
structure Share (M : Type) where
  frame : Frame → M
  tls : Tls → M
  val : UserVal → M

variable {M : Type} [AddCommMonoid M]

/-- The share of an entry of the pool of values. -/
def Share.entry (sh : Share M) : Option UserVal → M
  | none => 0
  | some u => sh.val u

/-- The share of a thread. -/
def Share.thread (sh : Share M) (th : Thread) : M :=
  sh.tls th.tls + listed sh.frame th.stack

/-- All shares of a state. -/
def State.shares (s : State) (sh : Share M) : M :=
  total s.nThr sh.thread s.thr + total s.nVals sh.entry s.vals

/-- The shares that a change takes out of a state. -/
def Share.lost (sh : Share M) (tls : Tls) (δ : Change) : M :=
  sh.tls tls + listed sh.frame δ.old + sh.entry (δ.taken.map Prod.snd)

/-- The shares that a change puts into a state. -/
def Share.gained (sh : Share M) (δ : Change) : M :=
  sh.tls δ.tls + listed sh.frame δ.new + sh.entry δ.given

/-- The pool has no values beyond its bound. -/
def State.Pooled (s : State) : Prop :=
  ∀ v, s.nVals ≤ v → s.vals v = none

/-- A change takes only values that are there. -/
theorem Move.taken {cfg s tls rest δ} (move : Move cfg s tls rest δ) {v u}
    (taken : δ.taken = some (v, u))
    : s.vals v = some u := by
  cases move with
  | frame | resume | deliver => cases taken
  | call below step => cases step <;> cases taken <;> assumption

theorem State.Pooled.after {s : State} {t δ rest} (pooled : s.Pooled)
    : (s.after t δ rest).Pooled := by
  intro v beyond
  have kept (taken : Option (Nat × UserVal)) {v} (beyond : s.nVals ≤ v)
      : (s.without taken).vals v = none := by
    cases taken with
    | none => exact pooled v beyond
    | some vu =>
        simp only [State.without, State.take, Function.update_apply]
        split
        · rfl
        · exact pooled v beyond
  have bound (taken : Option (Nat × UserVal)) : (s.without taken).nVals = s.nVals := by
    cases taken <;> rfl
  cases given : δ.given with
  | none =>
      simp only [State.after, given, State.with, bound] at beyond ⊢
      exact kept δ.taken beyond
  | some u =>
      simp only [State.after, given, State.with, State.give, bound] at beyond ⊢
      rw [Function.update_of_ne (by omega)]
      exact kept δ.taken (by omega)

section mem

variable {β : Type} {S : Share (Multiset β)} {s : State} {t : ThreadId} {b : β}

theorem State.mem_shares_of_frame {fr} (member : t < s.nThr) (inside : fr ∈ (s.thr t).stack)
    (held : b ∈ S.frame fr)
    : b ∈ s.shares S := by
  refine Multiset.mem_add.mpr (Or.inl (mem_total.mpr ⟨t, member, ?_⟩))
  exact Multiset.mem_add.mpr (Or.inr (mem_listed.mpr ⟨fr, inside, held⟩))

theorem State.mem_shares_of_tls (member : t < s.nThr) (held : b ∈ S.tls (s.thr t).tls)
    : b ∈ s.shares S :=
  Multiset.mem_add.mpr
    (Or.inl (mem_total.mpr ⟨t, member, Multiset.mem_add.mpr (Or.inl held)⟩))

theorem State.mem_shares_of_val {v u} (pooled : s.Pooled) (there : s.vals v = some u)
    (held : b ∈ S.val u)
    : b ∈ s.shares S := by
  have inside : v < s.nVals := by
    by_contra beyond
    rw [pooled v (by omega)] at there
    cases there
  exact Multiset.mem_add.mpr (Or.inr (mem_total.mpr ⟨v, inside, by rwa [there]⟩))

/-- What a state has, a thread or a value of user code has. -/
theorem State.mem_shares (held : b ∈ s.shares S)
    : (∃ t < s.nThr, b ∈ S.tls (s.thr t).tls
        ∨ ∃ fr ∈ (s.thr t).stack, b ∈ S.frame fr)
      ∨ ∃ v < s.nVals, ∃ u, s.vals v = some u ∧ b ∈ S.val u := by
  rcases Multiset.mem_add.mp held with held | held
  · obtain ⟨t, member, held⟩ := mem_total.mp held
    refine Or.inl ⟨t, member, ?_⟩
    rcases Multiset.mem_add.mp held with held | held
    · exact Or.inl held
    · exact Or.inr (mem_listed.mp held)
  · obtain ⟨v, inside, held⟩ := mem_total.mp held
    refine Or.inr ⟨v, inside, ?_⟩
    cases there : s.vals v with
    | none => simp [there, Share.entry] at held
    | some u => exact ⟨u, rfl, by simpa [there, Share.entry] using held⟩

end mem

/-- The part of a state that a change does not involve. -/
def State.aside (s : State) (t : ThreadId) (δ : Change) (rest : List Frame) : State :=
  {
    s.without δ.taken with
    thr := Function.update s.thr t ⟨{ (s.thr t).tls with node := none }, rest⟩
  }

@[simp]
theorem State.aside_sh (s : State) (t : ThreadId) (δ : Change) (rest : List Frame)
    : (s.aside t δ rest).sh = s.sh := by
  obtain ⟨taken, old, act, tls, new, given⟩ := δ
  cases taken <;> rfl

@[simp]
theorem State.aside_nThr (s : State) (t : ThreadId) (δ : Change) (rest : List Frame)
    : (s.aside t δ rest).nThr = s.nThr := by
  obtain ⟨taken, old, act, tls, new, given⟩ := δ
  cases taken <;> rfl

@[simp]
theorem State.aside_thr (s : State) (t : ThreadId) (δ : Change) (rest : List Frame)
    : (s.aside t δ rest).thr
      = Function.update s.thr t ⟨{ (s.thr t).tls with node := none }, rest⟩ := rfl

/-- One step replaces the shares of what it changes and keeps the rest. -/
theorem State.shares_after {cfg} {s : State} {t δ rest} (sh : Share M)
    (bare : ∀ tls, tls.node = none → sh.tls tls = 0) (pooled : s.Pooled)
    (member : t < s.nThr) (top : (s.thr t).stack = δ.old ++ rest)
    (move : Move cfg s (s.thr t).tls rest δ)
    : s.shares sh = sh.lost (s.thr t).tls δ + (s.aside t δ rest).shares sh
      ∧ (s.after t δ rest).shares sh = sh.gained δ + (s.aside t δ rest).shares sh := by
  obtain ⟨others, split, update⟩ := total_split sh.thread s.thr member
  have bound : (s.without δ.taken).nVals = s.nVals := by
    cases δ.taken <;> rfl
  have pool
      : total s.nVals sh.entry s.vals
        = sh.entry (δ.taken.map Prod.snd)
          + total (s.without δ.taken).nVals sh.entry (s.without δ.taken).vals := by
    cases taken : δ.taken with
    | none => exact (zero_add _).symm
    | some vu =>
        obtain ⟨v, u⟩ := vu
        have there := move.taken taken
        have inside : v < s.nVals := by
          by_contra beyond
          rw [pooled v (by omega)] at there
          cases there
        obtain ⟨pool, split, update⟩ := total_split sh.entry s.vals inside
        have eq := update none
        simp only [Share.entry, zero_add] at eq
        rw [split, there]
        exact congrArg _ eq.symm
  have given
      : total (s.after t δ rest).nVals sh.entry (s.after t δ rest).vals
        = total (s.without δ.taken).nVals sh.entry (s.without δ.taken).vals
          + sh.entry δ.given := by
    cases given : δ.given with
    | none => simp only [State.after, given, State.with, Share.entry, add_zero]
    | some u =>
        simp only [State.after, given, State.with, State.give]
        rw [total_succ_update]
  have kept
      : (s.aside t δ rest).shares sh
        = listed sh.frame rest + others
          + total (s.without δ.taken).nVals sh.entry (s.without δ.taken).vals := by
    have threads
        : total (s.aside t δ rest).nThr sh.thread (s.aside t δ rest).thr
          = listed sh.frame rest + others := by
      rw [aside_nThr, aside_thr, update, Share.thread, bare _ rfl, zero_add]
    rw [State.shares, threads]
    rfl
  refine ⟨?_, ?_⟩
  · rw [State.shares, kept, split, pool, Share.thread, top, Share.lost, listed_append]
    ac_rfl
  · have threads
        : total (s.after t δ rest).nThr sh.thread (s.after t δ rest).thr
          = sh.thread ⟨δ.tls, δ.new ++ rest⟩ + others := by
      rw [← update, State.after_nThr, State.after_thr]
    rw [State.shares, kept, threads, given, Share.thread, Share.gained, listed_append]
    ac_rfl

end ArcSwap
