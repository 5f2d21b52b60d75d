import ArcSwap.Proofs.LockSafety
import ArcSwap.Proofs.Updates

/-! Loads, `compare_and_swap` and `rcu` under the strategy `RwLock<()>`. They say of themselves what
they say under the default strategy, here in every run.
-/

namespace ArcSwap.Locked

open Bags GuardedRuns Registers

-----------------------------------------------------------------------------------------
-- What frames know
-----------------------------------------------------------------------------------------

/-- The storage has held the object at some instant since the call. -/
abbrev HeldSince (mem : ArcSwap.Shared) (c : CellId) (since : Nat) (p : Ptr) : Prop :=
  mem.Held Ptr.Alike c since mem.time p

/-- The outcome of `compare_and_swap`. -/
def Outcome (mem : ArcSwap.Shared) (c op cur : Nat) (new p : Ptr) : Prop :=
  p.addr = cur ∧ mem.WroteFor c op p new
    ∨ p.addr ≠ cur ∧ mem.Wrote c op [] ∧ HeldSince mem c op p

def specTracks (mem : ArcSwap.Shared) : Spec → Ret → Prop
  | .load c began, .ptr p => HeldSince mem c began p
  | .load c began, .prot g => HeldSince mem c began g.ptr
  | .swapped c op cur new, .prot g => Outcome mem c op cur new g.ptr
  | _, _ => True

def LoadPc.Tracks (mem : ArcSwap.Shared) (c began : Nat) : LoadPc → Prop
  | .inc p | .unlock p => HeldSince mem c began p
  | _ => began ≤ mem.time

def CasPc.Tracks (mem : ArcSwap.Shared) (c op cur : Nat) (new : Ptr) : CasPc → Prop
  | .lock | .exchange => op ≤ mem.time ∧ mem.Wrote c op []
  | .inc old | .newWait old => old.addr ≠ cur ∧ mem.Wrote c op [] ∧ HeldSince mem c op old
  | .currentWait old | .unlock old => Outcome mem c op cur new old

def rcuTracks (P : Results) (mem : ArcSwap.Shared) (c op : Nat) : RcuPc → Prop
  | .casWait cur new _ => P op cur.ptr new
  | .doneWait r _ => ∃ p new, r.Alike p ∧ mem.WroteFor c op p new ∧ P op p new
  | _ => mem.Wrote c op []

def Frame.Tracks (P : Results) (mem : ArcSwap.Shared) : Frame → Prop
  | .ret spec v => specTracks mem spec v
  | .load c began pc => pc.Tracks mem c began
  | .swap c op _ => mem.Wrote c op []
  | .cas c op cur new pc => pc.Tracks mem c op cur.asRaw new
  | .rcu c op pc => rcuTracks P mem c op pc
  | _ => True

/-- The operations that may still write, or have just returned. -/
def Frame.ops : Frame → Multiset Nat
  | .ret spec _ => spec.ops
  | .swap _ op _ | .cas _ op _ _ _ => {op}
  | .rcu _ op pc => pc.ops op
  | _ => 0

/-- The frame is the closure of an operation, called with `p`, or its result. -/
def Frame.Answers (P : Results) (op : Nat) (p : Ptr) : Frame → Prop
  | .closure q => q = p
  | .ret _ (.ptr q) => P op p q
  | .ret _ .unwound => True
  | _ => False

def Frame.Over (P : Results) (fr : Frame) : List Frame → Prop
  | .rcu _ op (.closureWait cur _) :: _ => fr.Answers P op cur.ptr
  | _ => True

def StackOver (P : Results) : List Frame → Prop
  | [] => True
  | fr :: rest => fr.Over P rest ∧ StackOver P rest

section frames

variable {P : Results} {sh : Shared} {mem : ArcSwap.Shared} {act : ArcSwap.Act} {fr caller : Frame}
  {frames rest : List Frame} {spec : Spec} {v : Ret} {c op cur : Nat} {new p : Ptr}

theorem Outcome.after (outcome : Outcome mem c op cur new p)
    (alone : ∀ e q, act ≠ .write e op q)
    : Outcome (mem.after act) c op cur new p := by
  rcases outcome with ⟨same, wrote⟩ | ⟨differs, wrote, held⟩
  · exact .inl ⟨same, wrote.after alone⟩
  · exact .inr ⟨differs, wrote.after alone, held.next act⟩

/-- Only the operation itself changes what its frame knows. -/
theorem Frame.Tracks.after (tracks : fr.Tracks P mem)
    (other : ∀ op ∈ fr.ops, ∀ e q, act ≠ .write e op q)
    : fr.Tracks P (mem.after act) := by
  cases fr with
  | ret spec v =>
      cases spec with
      | load =>
          cases v with
          | ptr | prot => exact Shared.Held.next tracks act
          | _ => trivial
      | swapped =>
          cases v with
          | prot g => exact Outcome.after tracks (other _ (Multiset.mem_singleton_self _))
          | _ => trivial
      | _ => trivial
  | load c began pc =>
      cases pc with
      | inc | unlock => exact Shared.Held.next tracks act
      | _ => exact Nat.le_succ_of_le tracks
  | swap => exact Shared.Wrote.after tracks (other _ (Multiset.mem_singleton_self _))
  | cas c op cur new pc =>
      have alone := other op (Multiset.mem_singleton_self _)
      cases pc with
      | lock | exchange => exact ⟨Nat.le_succ_of_le tracks.1, tracks.2.after alone⟩
      | inc | newWait => exact ⟨tracks.1, tracks.2.1.after alone, tracks.2.2.next act⟩
      | currentWait | unlock => exact Outcome.after tracks alone
  | rcu c op pc =>
      cases pc with
      | casWait => exact tracks
      | doneWait =>
          obtain ⟨p, new, alike, wrote, result⟩ := tracks
          exact ⟨p, new, alike, wrote.after (other op (Multiset.mem_singleton_self _)), result⟩
      | _ => exact Shared.Wrote.after tracks (other op (Multiset.mem_singleton_self _))
  | _ => trivial

/-- The outcome is settled before `current` is dropped. -/
theorem dropCurrent_tracks {cur : Current} {old : Ptr}
    (outcome : Outcome mem c op cur.asRaw new old)
    : (dropCurrent c op cur new old).Forall (Frame.Tracks P mem) := by
  cases cur with
  | raw => exact outcome
  | guard => exact ⟨trivial, outcome⟩

/-- The steps of frames that write nothing. -/
theorem FrameStep.tracks {act : Act} (step : FrameStep sh fr act frames)
    (quiet : ∀ e op q, act.onMem ≠ .write e op q) (sited : fr.Sited sh.mem)
    (bound : ∀ c, sh.mem.status c ≠ .gone → c < sh.mem.nCells) (recorded : sh.mem.Recorded)
    (tracks : fr.Tracks P sh.mem)
    : frames.Forall (Frame.Tracks P sh.mem) := by
  have now {c since} (uses : fr.uses = some c) (le : since ≤ sh.mem.time)
      : HeldSince sh.mem c since (sh.mem.ptr c) := by
    refine recorded.now comparison_alike (bound c ?_) le
    simp [sited.live c uses]
  cases step with
  | loadRead => exact now rfl tracks
  | casReject other => exact ⟨other, tracks.2, now rfl tracks.1⟩
  | casInc => exact ⟨trivial, tracks⟩
  | casUnlock => exact tracks
  | casLock | loadLock | loadInc | loadUnlock => exact tracks
  | cacheMiss => exact ⟨Nat.le_refl _, trivial, trivial⟩
  | swap | casExchange => exact absurd rfl (quiet _ _ _)
  | _ => trivial

/-- A caller knows from the answer what its operation has written. -/
theorem ResumeStep.tracks (step : ResumeStep caller v frames)
    (ok : StackOk (.ret spec v :: caller :: rest))
    (past : ∀ op ∈ caller.ops, op < mem.time) (result : specTracks mem spec v)
    (tracks : caller.Tracks P mem) (outer : StackOver P (.ret spec v :: caller :: rest))
    (alike
      : ∀ c op cur new calls prev, caller = .rcu c op (.casWait cur new calls) → v = .prot prev
        → cur.ptr.addr = prev.ptr.addr → prev.ptr.Alike cur.ptr)
    : frames.Forall (Frame.Tracks P mem) := by
  have answers (σ) (awaits : caller.awaits = some σ) : spec = σ := by
    have eq := ok.1.answers caller rfl σ awaits
    exact Option.some.inj eq
  cases step with
  | loadFull =>
      cases answers _ rfl
      exact result
  | casRejected => exact dropCurrent_tracks (.inr tracks)
  | casDropped => exact tracks
  | rcuLoad | rcuPanic | rcuAgain => exact ⟨trivial, tracks⟩
  | rcuTry =>
      refine ⟨⟨?_, tracks⟩, outer.1⟩
      exact Nat.le_of_lt (past _ (Multiset.mem_singleton_self _))
  | @rcuSwapped c op cur new calls prev same =>
      cases answers _ rfl
      have object := alike c op cur new calls prev rfl rfl same
      rcases result with ⟨_, m, wrote, late, old, rfl⟩ | ⟨differs, _⟩
      · have old : m.old.Alike cur.ptr :=
          ⟨old.addr.trans object.addr, old.prov.trans object.prov⟩
        exact ⟨trivial, cur.ptr, m.new, object, ⟨m, wrote, late, old, rfl⟩, tracks⟩
      · exact absurd same.symm differs
  | rcuLost other =>
      cases answers _ rfl
      rcases result with ⟨same, _⟩ | ⟨_, none, _⟩
      · exact absurd same.symm other
      · exact ⟨trivial, none⟩
  | _ => trivial

/-- Operations that are called now have written nothing. -/
theorem Entry.tracks {a} (entry : Entry sh c a frames) (live : c < sh.mem.nCells)
    (past : ∀ d, ∀ m ∈ sh.mem.commits d, m.op < sh.mem.time)
    : frames.Forall (Frame.Tracks P sh.mem) := by
  have fresh : sh.mem.Wrote c sh.mem.time [] := .fresh past live
  cases entry with
  | load => exact Nat.le_refl _
  | loadFull => exact ⟨Nat.le_refl _, trivial⟩
  | rcu => exact ⟨Nat.le_refl _, fresh⟩
  | swap => exact fresh
  | store => exact ⟨fresh, trivial⟩
  | cas => exact ⟨Nat.le_refl _, fresh⟩
  | cache => trivial

-- What an `rcu` is told by its closure.

theorem Frame.Over.plain (other : ∀ c op cur calls, fr ≠ .rcu c op (.closureWait cur calls))
    {above : Frame}
    : above.Over P (fr :: rest) := by
  unfold Frame.Over
  split
  · rename_i eq
    cases eq
    exact absurd rfl (other _ _ _ _)
  · trivial

/-- Code that waits for nothing from `fr` may take its place. -/
theorem Frame.Over.replace {f f' : Frame} (outer : f.Over P rest)
    (silent : ∀ op p, ¬ f.Answers P op p)
    : f'.Over P rest := by
  unfold Frame.Over at outer ⊢
  split at outer
  · exact absurd outer (silent _ _)
  · trivial

theorem dropCurrent_outer {cur : Current} {old : Ptr}
    (last : ∀ pc, (Frame.cas c op cur new pc).Over P rest) (below : StackOver P rest)
    : StackOver P (dropCurrent c op cur new old ++ rest) := by
  cases cur with
  | raw => exact ⟨last _, below⟩
  | guard => exact ⟨.plain (by simp), last _, below⟩

theorem FrameStep.outer {act : Act} (step : FrameStep sh fr act frames)
    (outer : StackOver P (fr :: rest))
    : StackOver P (frames ++ rest) := by
  obtain ⟨head, below⟩ := outer
  have silent (op p) : ¬ fr.Answers P op p := by
    cases step <;> exact id
  have last (f : Frame) : f.Over P rest := head.replace silent
  cases step with
  | casExchange => exact dropCurrent_outer (fun _ => last _) below
  | swap | casInc => exact ⟨.plain (by simp), last _, below⟩
  | cacheMiss => exact ⟨.plain (by simp), .plain (by simp), last _, below⟩
  | _ => exact ⟨last _, below⟩

theorem ResumeStep.outer (step : ResumeStep caller v frames)
    (outer : StackOver P (.ret spec v :: caller :: rest))
    : StackOver P (frames ++ rest) := by
  obtain ⟨_, head, below⟩ := outer
  have silent (op p) : ¬ caller.Answers P op p := by
    cases step <;> exact id
  have last (f : Frame) : f.Over P rest := head.replace silent
  cases step with
  | casRejected => exact dropCurrent_outer (fun _ => last _) below
  | rcuLoad | rcuAgain => exact ⟨rfl, last _, below⟩
  | rcuTry | rcuPanic | rcuSwapped | rcuLost | cacheLoad | dropWaited =>
      exact ⟨.plain (by simp), last _, below⟩
  | _ => exact ⟨last _, below⟩

theorem Frame.Over.user {above : Frame} (user : belowUser rest) : above.Over P rest := by
  unfold Frame.Over
  split
  · cases user
  · trivial

theorem Entry.outer {a} (entry : Entry sh c a frames) (user : belowUser rest)
    (outer : StackOver P rest)
    : StackOver P (frames ++ rest) := by
  cases entry with
  | store | loadFull => exact ⟨.plain (by simp), .user user, outer⟩
  | rcu => exact ⟨.plain (by simp), .user user, outer⟩
  | _ => exact ⟨.user user, outer⟩

/-- A closure gives a result. -/
theorem CallStep.outer {s : State} {δ : Change} (step : CallStep s rest δ)
    (user : δ.old = [] → belowUser rest)
    (results
      : ∀ p q op c cur calls others, δ.old = [.closure p] → δ.new = [.ret .plain (.ptr q)]
        → rest = .rcu c op (.closureWait cur calls) :: others → P op p q)
    (outer : StackOver P (δ.old ++ rest))
    : StackOver P (δ.new ++ rest) := by
  cases step with
  | start live entry | startWith val live entry => exact entry.outer (user rfl) outer
  | drop | casGuard => exact ⟨.user (user rfl), outer⟩
  | intoInner | dropCell => exact ⟨.plain (by simp), .user (user rfl), outer⟩
  | @closureRet v p q =>
      refine ⟨?_, outer.2⟩
      have head := outer.1
      unfold Frame.Over at head ⊢
      split at head
      · rename_i c op cur calls others eq
        have same : p = cur.ptr := head
        exact same ▸ results p q op c cur calls others rfl rfl eq
      · trivial
  | closurePanic =>
      refine ⟨?_, outer.2⟩
      unfold Frame.Over
      split <;> trivial
  | destructorRet =>
      refine ⟨outer.1.replace fun _ _ => id, outer.2⟩
  | _ => exact outer

end frames

-----------------------------------------------------------------------------------------
-- Who writes
-----------------------------------------------------------------------------------------

section writes

variable {s : State} {t : ThreadId} {δ : Change} {rest : List Frame} {c op : Nat} {p : Ptr}

/-- A storage is written to by `swap` and, under the lock, by `compare_and_swap`. -/
theorem Move.writes (move : Move s rest δ) (writes : δ.act.onMem = .write c op p)
    : (δ.old = [.swap c op p] ∧ δ.new = [.wait c (s.sh.mem.ptr c) .lock, .swapWait c])
      ∨ ∃ cur : Current, (s.sh.mem.ptr c).addr = cur.asRaw
        ∧ δ.old = [.cas c op cur p .exchange]
        ∧ δ.new = dropCurrent c op cur p (s.sh.mem.ptr c) := by
  have inc {q} (writes : incAct q = .write c op p) : False := by
    unfold incAct at writes
    split at writes <;> cases writes
  cases move with
  | frame step =>
      cases step with
      | swap =>
          cases writes
          exact .inl ⟨rfl, rfl⟩
      | casExchange same =>
          cases writes
          exact .inr ⟨_, same, rfl, rfl⟩
      | loadInc | casInc => exact (inc writes).elim
      | _ => cases writes
  | resume | deliver => cases writes
  | call below step =>
      cases step with
      | clone | cloneArg => exact (inc writes).elim
      | _ => cases writes

theorem dropCurrent_ops {cur : Current} {new old : Ptr}
    : listed Frame.ops (dropCurrent c op cur new old) = {op} := by
  cases cur <;> simp [dropCurrent, Frame.ops]

/-- Only a call starts an operation, whose name is the time. -/
theorem Move.ops (move : Move s rest δ) (ok : StackOk (δ.old ++ rest))
    : listed Frame.ops δ.new ≤ listed Frame.ops δ.old
      ∨ listed Frame.ops δ.new = {s.sh.mem.time} ∧ listed Frame.ops δ.old = 0 := by
  cases move with
  | frame step => exact .inl (by cases step <;> simp [dropCurrent_ops, Frame.ops, Spec.ops])
  | @resume spec v caller frames waits step =>
      left
      have answers (σ) (awaits : caller.awaits = some σ) : spec = σ :=
        Option.some.inj (ok.1.answers caller rfl σ awaits)
      cases step with
      | rcuSwapped | rcuLost =>
          cases answers _ rfl
          simp [Frame.ops, Spec.ops, RcuPc.ops]
      | loadFull =>
          cases answers _ rfl
          simp [Frame.ops, Spec.ops]
      | _ => simp [dropCurrent_ops, Frame.ops, RcuPc.ops, Spec.ops]
  | deliver => exact .inl (Multiset.zero_le _)
  | call below step =>
      cases step with
      | start _ entry =>
          cases entry with
          | rcu => exact .inr ⟨rfl, rfl⟩
          | _ => exact .inl (Multiset.zero_le _)
      | startWith _ _ entry =>
          cases entry with
          | cache => exact .inl (Multiset.zero_le _)
          | _ => exact .inr ⟨rfl, rfl⟩
      | casGuard => exact .inr ⟨rfl, rfl⟩
      | _ => exact .inl (Multiset.zero_le _)

end writes

-----------------------------------------------------------------------------------------
-- Every run
-----------------------------------------------------------------------------------------

/-- Whenever the closure of an operation returns, its result is one of the given ones. -/
def Returns (P : Results) (s : State) (l : Label) : Prop :=
  ∀ s' c op pc p q rest, step s l = some s'
    → s.stack l.thread = .closure p :: .rcu c op pc :: rest
    → s'.stack l.thread = .ret .plain (.ptr q) :: .rcu c op pc :: rest → P op p q

/-- Every frame knows what its operation has written. -/
structure State.Tracked (P : Results) (s : State) : Prop where
  once : (s.shares Frame.ops fun _ => 0).Nodup
  past : ∀ op ∈ s.shares Frame.ops fun _ => 0, op < s.sh.mem.time
  recorded : s.sh.mem.Recorded
  writers : ∀ d, ∀ m ∈ s.sh.mem.commits d, m.op < s.sh.mem.time
  frames : ∀ t < s.nThr, ∀ fr ∈ s.stack t, fr.Tracks P s.sh.mem
  outer : ∀ t < s.nThr, StackOver P (s.stack t)

section runs

variable {P : Results} {s : State} {t : ThreadId} {δ : Change} {rest : List Frame} {n : Nat}

theorem State.Tracked.init (n : Nat) : (State.init n).Tracked P := by
  have none : (State.init n).shares Frame.ops (fun _ => 0) = 0 := by
    simp [State.shares, total, State.init, entryShare]
  refine ⟨?_, ?_, ?_, ?_, ?_, fun _ _ => trivial⟩
  · simp [none]
  · simp [none]
  · intro c m inside
    simp [State.init, Shared.init] at inside
  · intro c m inside
    simp [State.init, Shared.init] at inside
  · intro t member fr inside
    cases inside

theorem State.mem_ops {fr op} (member : t < s.nThr) (inside : fr ∈ s.stack t)
    (own : op ∈ fr.ops)
    : op ∈ s.shares Frame.ops fun _ => 0 :=
  Multiset.mem_add.mpr (.inl (mem_total.mpr ⟨t, member, mem_listed.mpr ⟨fr, inside, own⟩⟩))

/-- Operations in other frames than the ones that move stay apart from those. -/
theorem State.Tracked.apart (tracked : s.Tracked P) (member : t < s.nThr)
    (top : s.stack t = δ.old ++ rest) {t' fr op} (member' : t' < s.nThr)
    (kept : t' = t ∧ fr ∈ rest ∨ t' ≠ t ∧ fr ∈ s.stack t') (own : op ∈ fr.ops)
    : op ∉ listed Frame.ops δ.old := by
  intro writer
  have once := tracked.once
  rw [State.shares] at once
  have threads := (Multiset.nodup_add.mp once).1
  rcases kept with ⟨rfl, below⟩ | ⟨other, there⟩
  · obtain ⟨others, split, _⟩ := total_split (listed Frame.ops) s.stack member
    rw [split, top, listed_append] at threads
    have own : op ∈ listed Frame.ops rest := mem_listed.mpr ⟨fr, below, own⟩
    exact Multiset.disjoint_left.mp
      (Multiset.nodup_add.mp (Multiset.nodup_add.mp threads).1).2.2 writer own
  · obtain ⟨others, split⟩ := total_split_two (listed Frame.ops) s.stack member' member other
    rw [split, top, listed_append] at threads
    have own : op ∈ listed Frame.ops (s.stack t') := mem_listed.mpr ⟨fr, there, own⟩
    refine Multiset.disjoint_left.mp (Multiset.nodup_add.mp threads).2.2 own ?_
    exact Multiset.mem_add.mpr (.inl (Multiset.mem_add.mpr (.inl writer)))

theorem State.Tracked.after (tracked : s.Tracked P) (safe : s.Safe) (member : t < s.nThr)
    (top : s.stack t = δ.old ++ rest) (move : Move s rest δ)
    (results
      : ∀ p q op c cur calls others, δ.old = [.closure p] → δ.new = [.ret .plain (.ptr q)]
        → rest = .rcu c op (.closureWait cur calls) :: others → P op p q)
    : (s.after t δ rest).Tracked P := by
  have bound := safe.inv.ledger.bound
  have linked : StackOk (δ.old ++ rest) := top ▸ safe.linked t member
  have outer : StackOver P (δ.old ++ rest) := top ▸ tracked.outer t member
  have old (fr) (inside : fr ∈ δ.old) : fr ∈ s.stack t := top ▸ List.mem_append_left _ inside
  have past (op) (own : op ∈ listed Frame.ops δ.old) : op < s.sh.mem.time := by
    obtain ⟨fr, inside, own⟩ := mem_listed.mp own
    exact tracked.past op (State.mem_ops member (old fr inside) own)
  have writer {e op q} (writes : δ.act.onMem = .write e op q)
      : op ∈ listed Frame.ops δ.old := by
    rcases move.writes writes with ⟨eq, _⟩ | ⟨_, _, eq, _⟩ <;> simp [eq, Frame.ops]
  obtain ⟨r, before, after⟩ :=
    State.shares_after Frame.ops (fun _ => 0) safe.pooled member top move
  have bare (o : Option UserVal) : entryShare (fun _ => (0 : Multiset Nat)) o = 0 := by
    cases o <;> rfl
  have none : takenShares (fun _ => (0 : Multiset Nat)) δ.taken = 0 := by
    induction δ.taken with
    | nil => rfl
    | cons vu taken ih => exact (zero_add _).trans ih
  rw [none, zero_add] at before
  rw [bare, zero_add] at after
  obtain ⟨once', past'⟩ :=
    fresh_step (before ▸ tracked.once) (before ▸ tracked.past) (move.ops linked)
  refine ⟨?_, ?_, tracked.recorded.after _, ?_, ?_, ?_⟩
  · rw [after]
    exact once'
  · rw [after]
    exact past'
  · intro d m inside
    rcases Shared.commits_after inside with before | ⟨op, q, writes, rfl⟩
    · exact Nat.lt_succ_of_lt (tracked.writers d m before)
    · exact Nat.lt_succ_of_lt (past op (writer writes))
  · have kept {t' fr} (member' : t' < s.nThr)
        (inside : t' = t ∧ fr ∈ rest ∨ t' ≠ t ∧ fr ∈ s.stack t')
        : fr.Tracks P (s.sh.mem.after δ.act.onMem) := by
      have there : fr ∈ s.stack t' := by
        rcases inside with ⟨rfl, below⟩ | ⟨_, there⟩
        · exact top ▸ List.mem_append_right _ below
        · exact there
      refine (tracked.frames t' member' fr there).after fun op own e q writes => ?_
      exact tracked.apart member top member' inside own (writer writes)
    have new : δ.new.Forall (Frame.Tracks P (s.sh.mem.after δ.act.onMem)) := by
      by_cases quiet : ∀ e op q, δ.act.onMem ≠ .write e op q
      · have same : δ.new.Forall (Frame.Tracks P s.sh.mem) := by
          cases move with
          | @frame fr act frames step =>
              have inside := old fr (List.mem_singleton_self _)
              exact step.tracks quiet (safe.sited t member fr inside) bound tracked.recorded
                (tracked.frames t member fr inside)
          | @resume spec v caller frames waits step =>
              have result := tracked.frames t member _ (old (.ret spec v) (by simp))
              have inside := old caller (by simp)
              refine step.tracks linked (fun op own => past op ?_) result
                (tracked.frames t member caller inside) outer ?_
              · simp [own]
              · rintro c op cur new calls prev rfl rfl same
                have mine : .own cur.ptr ∈ s.tokens :=
                  State.mem_tokens_of_frame member inside (Multiset.mem_singleton_self _)
                have its : .own prev.ptr ∈ s.tokens :=
                  State.mem_tokens_of_frame member (old (.ret spec (.prot prev)) (by simp))
                    (Multiset.mem_singleton_self _)
                have fine := safe.inv.ledger.fine
                exact (fine _ its _ rfl).alike (fine _ mine _ rfl) same.symm
          | deliver => trivial
          | call below step =>
              have live {c} (live : s.sh.mem.status c = .live) : c < s.sh.mem.nCells :=
                bound c (by simp [live])
              cases step with
              | start used entry | startWith val used entry =>
                  exact entry.tracks (live used) tracked.writers
              | casGuard val there used =>
                  exact ⟨Nat.le_refl _, .fresh tracked.writers (live used)⟩
              | intoInner | dropCell => exact ⟨trivial, trivial⟩
              | _ => trivial
        exact same.imp fun fr tracks => tracks.after fun op _ => (quiet · op)
      · simp only [ne_eq, not_forall, not_not] at quiet
        obtain ⟨c, op, p, writes⟩ := quiet
        rw [writes]
        rcases move.writes writes with ⟨_, new⟩ | ⟨cur, same, eq, new⟩
        · rw [new]
          exact ⟨trivial, trivial⟩
        · have tracks : CasPc.Tracks s.sh.mem c op cur.asRaw p .exchange :=
            tracked.frames t member (.cas c op cur p .exchange) (old _ (by simp [eq]))
          rw [new]
          refine dropCurrent_tracks (.inl ⟨same, _, tracks.2.write p, ?_, ⟨rfl, rfl⟩, rfl⟩)
          exact Nat.lt_succ_of_le tracks.1
    intro t' member' fr inside
    rw [State.after_nThr] at member'
    rw [State.after_stack] at inside
    rw [State.after_sh, Shared.after_mem]
    by_cases same : t' = t
    · subst same
      rw [Function.update_self] at inside
      rcases List.mem_append.mp inside with inside | inside
      · exact List.forall_iff_forall_mem.mp new fr inside
      · exact kept member' (.inl ⟨rfl, inside⟩)
    · rw [Function.update_of_ne same] at inside
      exact kept member' (.inr ⟨same, inside⟩)
  · intro t' member'
    rw [State.after_nThr] at member'
    rw [State.after_stack]
    by_cases same : t' = t
    · subst same
      rw [Function.update_self]
      cases move with
      | frame step => exact step.outer outer
      | resume waits step => exact step.outer outer
      | deliver below => exact outer.2
      | call below step => exact step.outer below results outer
    · rw [Function.update_of_ne same]
      exact tracked.outer t' member'

/-- What frames know holds in every run in which closures return given results. -/
theorem tracked_of_run (run : Reaches step (Returns P) (State.init n) s) : s.Tracked P := by
  refine run.invariant (.init n) ?_
  intro s l s' before tracked returns taken
  obtain ⟨member, δ, rest, top, move, rfl⟩ := step_moves taken
  refine tracked.after (safe_of_run (before.mono fun _ _ _ => trivial)) member top move ?_
  intro p q op c cur calls others old new below
  have before : s.stack l.thread = .closure p :: .rcu c op (.closureWait cur calls) :: others := by
    rw [top, old, below]
    rfl
  refine returns _ c op (.closureWait cur calls) p q others taken before ?_
  rw [State.after_stack, Function.update_self, new, below]
  rfl

theorem tracked_of_any (run : Run n s) : s.Tracked fun _ _ _ => True :=
  tracked_of_run (run.mono fun _ _ _ => fun _ _ _ _ _ _ _ _ _ _ => trivial)

-----------------------------------------------------------------------------------------
-- Loads and compare_and_swap
-----------------------------------------------------------------------------------------

/-- Every load returns an object that the storage has held at some instant during the call, and the
object is still there.
-/
theorem lock_loads_held (run : Run n s) (member : t < s.nThr) {c began}
    : (∀ g, .ret (.load c began) (.prot g) ∈ s.stack t
        → s.sh.mem.HeldObject c began s.sh.mem.time g.ptr ∧ s.sh.mem.Alive g.ptr)
      ∧ ∀ p, .ret (.load c began) (.ptr p) ∈ s.stack t
        → s.sh.mem.HeldObject c began s.sh.mem.time p ∧ s.sh.mem.Alive p := by
  have safe := safe_of_run run
  have tracked := tracked_of_any run
  refine ⟨?_, ?_⟩
  · intro g inside
    have held : HeldSince s.sh.mem c began g.ptr := tracked.frames t member _ inside
    exact ⟨held.instant, safe.alive (.frame member inside (Multiset.mem_singleton_self _) rfl)⟩
  · intro p inside
    have held : HeldSince s.sh.mem c began p := tracked.frames t member _ inside
    exact ⟨held.instant, safe.alive (.frame member inside (Multiset.mem_singleton_self _) rfl)⟩

/-- A load ends after the pointer that it has read was taken out. -/
theorem lock_loads_held_removed
    : ∃ s : State, s.sh.mem.ptr 0 = ⟨0, 0, 0⟩
      ∧ s.sh.mem.HeldObject 0 2 s.sh.mem.time ⟨16, 0, 1⟩
        ∧ s.sh.mem.Alive ⟨16, 0, 1⟩ := by
  let g : Prot := ⟨⟨16, 0, 1⟩, none, some ⟨0, 2, 9⟩⟩
  have ran
      : (runChecked step (fun _ _ => true)
          (State.init 2) (readSchedule ++ [.run 0 false, .run 0 false])).map
            (fun s => (s.nThr, s.sh.mem.ptr 0, s.stack 0))
          = some (2, ⟨0, 0, 0⟩, [.ret (.load 0 2) (.prot g)]) := by
    decide +kernel
  obtain ⟨s, ran, eq⟩ := Option.map_eq_some_iff.mp ran
  simp only [Prod.mk.injEq] at eq
  obtain ⟨threads, ptr, stack⟩ := eq
  have run : Run 2 s := reaches_of_runChecked (fun _ _ _ => trivial) ran
  have member : 0 < s.nThr := by omega
  have returned : .ret (.load 0 2) (.prot g) ∈ s.stack 0 := by simp [stack]
  exact ⟨s, ptr, (lock_loads_held run member).1 g returned⟩

/-- When `compare_and_swap` returns, either it has made one write, which put `new` in the place of
the very object that is returned and whose address is the expected one; or it has written nothing,
and the storage held the very object that is returned, which is not at the expected address, at
some instant during the call. In both cases the object is still there.
-/
theorem lock_compare_and_swap_truthful (run : Run n s) (member : t < s.nThr) {c op cur new g}
    (returned : .ret (.swapped c op cur new) (.prot g) ∈ s.stack t)
    : (g.ptr.addr = cur
          ∧ (∃ m, s.sh.mem.Wrote c op [m] ∧ op < m.time ∧ m.old.Alike g.ptr ∧ m.new = new)
        ∨ g.ptr.addr ≠ cur ∧ s.sh.mem.Wrote c op []
          ∧ s.sh.mem.HeldObject c op s.sh.mem.time g.ptr)
      ∧ s.sh.mem.Alive g.ptr := by
  have safe := safe_of_run run
  have outcome : Outcome s.sh.mem c op cur new g.ptr :=
    (tracked_of_any run).frames t member _ returned
  refine ⟨?_, safe.alive (.frame member returned (Multiset.mem_singleton_self _) rfl)⟩
  rcases outcome with wrote | ⟨differs, wrote, held⟩
  · exact .inl wrote
  · exact .inr ⟨differs, wrote, held.instant⟩

/-- A pointer is replaced by `compare_and_swap`. -/
def casSchedule : List Label :=
  ([.call 0 (.alloc 16 0), .call 0 (.new 0 100 true), .call 0 (.alloc 20 0),
      .call 0 (.compareAndSwap 0 16 1)]
    : List Label)
    ++ List.replicate 3 (Label.run 0 false)

theorem lock_compare_and_swap_truthful_swapped
    : ∃ (s : State) (m : Commit),
        s.sh.mem.Wrote 0 3 [m] ∧ m.old.Alike ⟨16, 0, 1⟩ ∧ m.new = ⟨20, 0, 2⟩ := by
  let g : Prot := ⟨⟨16, 0, 1⟩, none, none⟩
  have ran
      : (runChecked step (fun _ _ => true) (State.init 1) casSchedule).map
            (fun s => (s.nThr, s.stack 0))
          = some (1, [.ret (.swapped 0 3 16 ⟨20, 0, 2⟩) (.prot g)]) := by
    decide +kernel
  obtain ⟨s, ran, eq⟩ := Option.map_eq_some_iff.mp ran
  simp only [Prod.mk.injEq] at eq
  obtain ⟨threads, stack⟩ := eq
  have run : Run 1 s := reaches_of_runChecked (fun _ _ _ => trivial) ran
  have member : 0 < s.nThr := by omega
  have returned : .ret (.swapped 0 3 16 ⟨20, 0, 2⟩) (.prot g) ∈ s.stack 0 := by simp [stack]
  have outcome := (lock_compare_and_swap_truthful run member returned).1
  rcases outcome with ⟨_, m, wrote, _, old, new⟩ | ⟨other, _⟩
  · exact ⟨s, m, wrote, old, new⟩
  · exact absurd rfl other

-----------------------------------------------------------------------------------------
-- rcu
-----------------------------------------------------------------------------------------

/-- A call of `rcu` that returns has made one write, which replaced the very object that is
returned by a result of its closure for this object. As long as its closure runs, and when the
closure has panicked, it has written nothing.
-/
theorem lock_rcu_writes_once (run : Reaches step (Returns P) (State.init n) s) (member : t < s.nThr)
    {c op pc} (inside : .rcu c op pc ∈ s.stack t)
    : (∀ r calls, pc = .doneWait r calls
        → ∃ m p, s.sh.mem.Wrote c op [m] ∧ op < m.time ∧ m.old.Alike p ∧ r.Alike p
          ∧ P op p m.new)
      ∧ (pc.unwritten → s.sh.mem.Wrote c op []) := by
  have tracks : rcuTracks P s.sh.mem c op pc := (tracked_of_run run).frames t member _ inside
  refine ⟨?_, ?_⟩
  · rintro r calls rfl
    obtain ⟨p, _, alike, ⟨m, wrote, late, old, rfl⟩, result⟩ := tracks
    exact ⟨m, p, wrote, late, old, alike, result⟩
  · intro unwritten
    cases pc with
    | loadWait | closureWait | againWait | unwindWait => exact tracks
    | _ => exact unwritten.elim

end runs

/-- Whether the result of a closure passes a test. -/
def returnsChecked (check : Nat → Ptr → Ptr → Bool) (s : State) (l : Label) : Bool :=
  match s.stack l.thread, (step s l).map fun s' : State => s'.stack l.thread with
  | .closure p :: .rcu _ op _ :: _, some (.ret .plain (.ptr q) :: _) => check op p q
  | _, _ => true

theorem returnsChecked_sound {check s l} (checked : returnsChecked check s l = true)
    : Returns (fun op p q => check op p q = true) s l := by
  intro s' c op pc p q rest taken top after
  simpa [returnsChecked, top, taken, after] using checked

/-- An object is replaced by one that was made from it. -/
def rcuSchedule : List Label :=
  ([.call 0 (.alloc 16 0), .call 0 (.new 0 100 true), .call 0 (.rcu 0)] : List Label)
    ++ List.replicate 5 (Label.run 0 false)
    ++ ([.call 0 (.alloc 20 0), .call 0 (.closureRet 1)] : List Label)
    ++ List.replicate 6 (Label.run 0 false)

theorem lock_rcu_writes_once_returned
    : ∃ (s : State) (m : Commit) (p : Ptr),
        s.sh.mem.Wrote 0 2 [m] ∧ m.old.Alike p ∧ m.new.prov = p.prov + 1 := by
  let check (_ : Nat) (p q : Ptr) : Bool := q.prov == p.prov + 1
  have ran
      : (runChecked step (returnsChecked check) (State.init 1) rcuSchedule).map
            (fun s => (s.nThr, (s.stack 0).getLast?))
          = some (1, some (.rcu 0 2 (.doneWait ⟨16, 0, 1⟩ 1))) := by
    decide +kernel
  obtain ⟨s, ran, eq⟩ := Option.map_eq_some_iff.mp ran
  simp only [Prod.mk.injEq] at eq
  obtain ⟨threads, last⟩ := eq
  have run := reaches_of_runChecked (fun _ _ => returnsChecked_sound) ran
  have member : 0 < s.nThr := by omega
  obtain ⟨m, p, wrote, _, old, _, result⟩ :=
    (lock_rcu_writes_once run member (List.mem_of_getLast? last)).1 _ 1 rfl
  exact ⟨s, m, p, wrote, old, by simpa [check] using result⟩

section composed

variable {V : Type} {val : Nat → V} {f : Nat → V → V} {c : CellId} {P : Results}
  {s : State} {n : Nat}

/-- The storage that the next step of the frame may write to. -/
def Frame.writesTo : Frame → Option CellId
  | .swap c _ _ | .cas c _ _ _ .exchange => some c
  | _ => none

/-- Whatever writes to the storage has been called by an `rcu` that waits for it. -/
def OnlyRcu (c : CellId) (s : State) (l : Label) : Prop :=
  ∀ fr rest, s.stack l.thread = fr :: rest → fr.writesTo = some c
    → ∃ op cur new calls others, rest = .rcu c op (.casWait cur new calls) :: others

/-- The write of an `rcu` puts a result of its closure in the place of the closure's argument. -/
theorem State.Tracked.result {P : Results} {t δ rest op p} (tracked : s.Tracked P) (safe : s.Safe)
    (member : t < s.nThr) (top : s.stack t = δ.old ++ rest) (move : Move s rest δ)
    (writes : δ.act.onMem = .write c op p)
    (only
      : ∀ fr, δ.old = [fr] → fr.writesTo = some c
        → ∃ op cur new calls others, rest = .rcu c op (.casWait cur new calls) :: others)
    : s.sh.mem.Wrote c op [] ∧ ∃ q, P op q p ∧ (s.sh.mem.ptr c).Alike q := by
  have linked : StackOk (δ.old ++ rest) := top ▸ safe.linked t member
  rcases move.writes writes with ⟨old, _⟩ | ⟨cur, same, old, _⟩
  · -- `rcu` waits for a `compare_and_swap`.
    obtain ⟨op', read, new, calls, others, rfl⟩ := only _ old rfl
    rw [old] at linked
    have eq := linked.1.answers _ rfl _ rfl
    cases eq
  · obtain ⟨op', read, new, calls, others, rfl⟩ := only _ old rfl
    rw [old] at linked
    have eq : some (Spec.swapped c op cur.asRaw p) = some (.swapped c op' read.ptr.addr new) :=
      linked.1.answers _ rfl _ rfl
    obtain ⟨rfl, asRaw, rfl⟩ : op = op' ∧ cur.asRaw = read.ptr.addr ∧ p = new := by
      simpa using eq
    have inside : .cas c op cur p .exchange ∈ s.stack t := by simp [top, old]
    have below : .rcu c op (.casWait read p calls) ∈ s.stack t := by simp [top]
    have tracks : CasPc.Tracks s.sh.mem c op cur.asRaw p .exchange :=
      tracked.frames t member _ inside
    have result : P op read.ptr p := tracked.frames t member _ below
    have ledger := safe.inv.ledger
    have held : .own read.ptr ∈ s.tokens :=
      State.mem_tokens_of_frame member below (Multiset.mem_singleton_self _)
    have stored := ledger.cells c ((safe.sited t member _ inside).live c rfl)
    exact ⟨tracks.2, read.ptr, result,
      stored.alike (ledger.fine _ held _ rfl) (same.trans asRaw)⟩

/-- No update is lost under the lock either: the content of a storage that only `rcu` writes to is
what the functions of all calls that have written make of the first content, in the order of the
writes, and the calls that return are among them.
-/
theorem lock_rcu_composes
    (run
      : Reaches step
          (fun s l => Returns (fun op p q => val q.prov = f op (val p.prov)) s l ∧ OnlyRcu c s l)
          (State.init n) s)
    : val (s.sh.mem.ptr c).prov
        = (s.sh.mem.commits c).foldr (fun m v => f m.op v) (val (s.sh.mem.initial c).prov)
      ∧ ((s.sh.mem.commits c).map Commit.op).Nodup
      ∧ ∀ t < s.nThr, ∀ op r calls, .rcu c op (.doneWait r calls) ∈ s.stack t
        → op ∈ (s.sh.mem.commits c).map Commit.op := by
  have composed : s.sh.mem.Composed val f c := by
    refine run.invariant (I := fun s => s.sh.mem.Composed val f c) ⟨rfl, List.nodup_nil⟩ ?_
    intro s l s' before composed allowed taken
    have tracked := tracked_of_run (before.mono fun _ _ => And.left)
    have safe := safe_of_run (before.mono fun _ _ _ => trivial)
    obtain ⟨member, δ, rest, top, move, rfl⟩ := step_moves taken
    rw [State.after_sh, Shared.after_mem]
    by_cases quiet : ∀ op p, δ.act.onMem ≠ .write c op p
    · exact composed.after quiet
    · simp only [ne_eq, not_forall, not_not] at quiet
      obtain ⟨op, p, writes⟩ := quiet
      have only (fr) (old : δ.old = [fr]) := allowed.2 fr rest (by rw [top, old]; rfl)
      obtain ⟨none, q, result, alike⟩ := tracked.result safe member top move writes only
      rw [writes]
      exact composed.write none (result.trans (by rw [alike.prov]))
  refine ⟨composed.value, composed.once, ?_⟩
  intro t member op r calls inside
  have tracked := tracked_of_run (run.mono fun _ _ => And.left)
  obtain ⟨_, _, _, ⟨m, wrote, _⟩, _⟩ :
      rcuTracks (fun op p q => val q.prov = f op (val p.prov)) s.sh.mem c op (.doneWait r calls) :=
    tracked.frames t member _ inside
  have own : m ∈ s.sh.mem.writes c op := by
    rw [wrote.own]
    exact List.mem_singleton_self m
  obtain ⟨there, same⟩ := List.mem_filter.mp own
  exact List.mem_map.mpr ⟨m, there, by simpa using same⟩

end composed

/-- Whether nobody but `rcu` writes to the storage, computed. -/
def onlyRcuChecked (c : CellId) (s : State) (l : Label) : Bool :=
  match s.stack l.thread with
  | fr :: .rcu d _ (.casWait _ _ _) :: _ => fr.writesTo != some c || d == c
  | fr :: _ => fr.writesTo != some c
  | [] => true

theorem onlyRcuChecked_sound {c s l} (checked : onlyRcuChecked c s l = true) : OnlyRcu c s l := by
  intro fr rest top writes
  unfold onlyRcuChecked at checked
  split at checked
  · rename_i fr' d op cur new calls others eq
    rw [top] at eq
    cases eq
    have same : d = c := by simpa [writes] using checked
    subst same
    exact ⟨op, cur, new, calls, others, rfl⟩
  · rename_i eq
    rw [top] at eq
    cases eq
    simp [writes] at checked
  · rename_i eq
    rw [top] at eq
    cases eq

/-- Each call makes an object with the next number. -/
theorem lock_rcu_composes_returned
    : ∃ s : State, (s.sh.mem.commits 0).length = 1
        ∧ (s.sh.mem.ptr 0).prov
          = (s.sh.mem.commits 0).foldr (fun _ v => v + 1) (s.sh.mem.initial 0).prov := by
  let check (_ : Nat) (p q : Ptr) : Bool := q.prov == p.prov + 1
  have ran
      : (runChecked step (fun s l => returnsChecked check s l && onlyRcuChecked 0 s l)
            (State.init 1) rcuSchedule).map
            (fun s => (s.sh.mem.commits 0).length)
          = some 1 := by
    decide +kernel
  obtain ⟨s, ran, length⟩ := Option.map_eq_some_iff.mp ran
  have run
      : Reaches step
          (fun s l =>
            Returns (fun op p q => id q.prov = (fun _ v => v + 1) op (id p.prov)) s l
              ∧ OnlyRcu 0 s l)
          (State.init 1) s := by
    refine reaches_of_runChecked (fun s l checked => ?_) ran
    simp only [Bool.and_eq_true] at checked
    refine ⟨?_, onlyRcuChecked_sound checked.2⟩
    intro s' c op pc p q rest taken top after
    simpa [check] using returnsChecked_sound checked.1 s' c op pc p q rest taken top after
  exact ⟨s, length, (lock_rcu_composes run).1⟩

end ArcSwap.Locked
