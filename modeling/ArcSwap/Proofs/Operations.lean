import ArcSwap.Proofs.Loads

/-! What every operation has written so far. An operation is known by the time of its call; as long
as it has not returned, a frame of its thread holds it, and says whether the operation has made its
write.
-/

namespace ArcSwap

open Bags GuardedRuns Registers

-----------------------------------------------------------------------------------------
-- The writes of one operation
-----------------------------------------------------------------------------------------

/-- The writes of an operation to a storage. -/
def Shared.writes (sh : Shared) (c : CellId) (op : Nat) : List Commit :=
  (sh.commits c).filter fun m => m.op == op

/-- The operation has made these writes, all of them to one storage. -/
structure Shared.Wrote (sh : Shared) (c : CellId) (op : Nat) (l : List Commit) : Prop where
  cell : c < sh.nCells
  own : sh.writes c op = l
  others : ∀ d, d ≠ c → sh.writes d op = []

/-- The operation has made one write, which replaced the object of `p` by `new`. -/
def Shared.WroteFor (sh : Shared) (c : CellId) (op : Nat) (p new : Ptr) : Prop :=
  ∃ m, sh.Wrote c op [m] ∧ op < m.time ∧ m.old.Alike p ∧ m.new = new

/-- How many writes others have made to the storage since the call of `op`, up to a time. -/
def Shared.foreign (sh : Shared) (c : CellId) (op upTo : Nat) : Nat :=
  (sh.commits c).countP fun m => op < m.time ∧ m.time ≤ upTo ∧ m.op ≠ op

section writes

variable {sh : Shared} {act : Act} {c d : CellId} {op : Nat} {l : List Commit} {p new : Ptr}

theorem Shared.writes_after (other : ∀ e q, act ≠ .write e op q)
    (bound : d < sh.nCells ∨ sh.writes d op = [])
    : (sh.after act).writes d op = sh.writes d op := by
  cases act with
  | write e op' q =>
      have apart : op' ≠ op := by
        rintro rfl
        exact other e q rfl
      by_cases eq : d = e
      · subst eq
        simp [writes, after, Act.exec, apart]
      · simp [writes, after, Act.exec, eq]
  | newCell q b useFast =>
      by_cases eq : d = sh.nCells
      · subst eq
        have none : sh.writes sh.nCells op = [] := bound.resolve_left (Nat.lt_irrefl _)
        rw [none]
        simp [writes, after, Act.exec]
      · simp [writes, after, Act.exec, eq]
  | _ => rfl

theorem Shared.Wrote.after (wrote : sh.Wrote c op l) (other : ∀ e q, act ≠ .write e op q)
    : (sh.after act).Wrote c op l where
  cell := Nat.lt_of_lt_of_le wrote.cell (act.nCells_le sh)
  own := (Shared.writes_after other (.inl wrote.cell)).trans wrote.own
  others d apart :=
    (Shared.writes_after other (.inr (wrote.others d apart))).trans (wrote.others d apart)

/-- An operation that is called now has written nothing. -/
theorem Shared.Wrote.fresh (past : ∀ d, ∀ m ∈ sh.commits d, m.op < sh.time)
    (cell : c < sh.nCells)
    : sh.Wrote c sh.time [] := by
  have none (d) : sh.writes d sh.time = [] := by
    refine List.filter_eq_nil_iff.mpr fun m inside => ?_
    have before := past d m inside
    simp only [beq_iff_eq]
    omega
  exact ⟨cell, none c, fun d _ => none d⟩

/-- An operation makes its write. -/
theorem Shared.Wrote.write (wrote : sh.Wrote c op []) (p : Ptr)
    : (sh.after (.write c op p)).Wrote c op [⟨sh.time + 1, op, sh.ptr c, p⟩] where
  cell := wrote.cell
  own := by
    have own := wrote.own
    simp only [Shared.writes] at own
    simp [Shared.writes, Shared.after, Act.exec, own]
  others d apart := by
    have others := wrote.others d apart
    simp only [Shared.writes] at others
    simp [Shared.writes, Shared.after, Act.exec, apart, others]

theorem Shared.WroteFor.after (wrote : sh.WroteFor c op p new)
    (other : ∀ e q, act ≠ .write e op q)
    : (sh.after act).WroteFor c op p new := by
  obtain ⟨m, wrote, rest⟩ := wrote
  exact ⟨m, wrote.after other, rest⟩

/-- The past does not change. -/
theorem Shared.foreign_after (act : Act) (cell : c < sh.nCells) {upTo} (past : upTo ≤ sh.time)
    : (sh.after act).foreign c op upTo = sh.foreign c op upTo := by
  cases act with
  | write d op' q =>
      by_cases eq : c = d
      · subst eq
        have late : ¬ sh.time + 1 ≤ upTo := by omega
        simp [foreign, after, Act.exec, late]
      · simp [foreign, after, Act.exec, eq]
  | newCell => simp [foreign, after, Act.exec, Nat.ne_of_lt cell]
  | _ => rfl

theorem Shared.foreign_mono {upTo upTo'} (le : upTo ≤ upTo')
    : sh.foreign c op upTo ≤ sh.foreign c op upTo' := by
  apply List.countP_mono_left
  intro m _ counted
  simp only [decide_eq_true_eq] at counted ⊢
  omega

/-- A write of another operation is counted. -/
theorem Shared.foreign_lt {upTo upTo'} (le : upTo ≤ upTo') {m} (inside : m ∈ sh.commits c)
    (began : op ≤ upTo) (late : upTo < m.time) (past : m.time ≤ upTo') (other : m.op ≠ op)
    : sh.foreign c op upTo < sh.foreign c op upTo' := by
  have mono (l : List Commit)
      : l.countP (fun m => op < m.time ∧ m.time ≤ upTo ∧ m.op ≠ op)
        ≤ l.countP fun m => op < m.time ∧ m.time ≤ upTo' ∧ m.op ≠ op := by
    apply List.countP_mono_left
    intro m _ counted
    simp only [decide_eq_true_eq] at counted ⊢
    omega
  obtain ⟨front, back, eq⟩ := List.append_of_mem inside
  have uncounted : ¬ (op < m.time ∧ m.time ≤ upTo ∧ m.op ≠ op) := by omega
  have counted : op < m.time ∧ m.time ≤ upTo' ∧ m.op ≠ op := by omega
  have before := mono front
  have behind := mono back
  rw [foreign, foreign, eq, List.countP_append, List.countP_append, List.countP_cons,
    List.countP_cons]
  rw [if_neg (by simpa using uncounted), if_pos (by simpa using counted)]
  omega

end writes

-----------------------------------------------------------------------------------------
-- Who stands for an operation
-----------------------------------------------------------------------------------------

def Spec.ops : Spec → Multiset Nat
  | .swapped _ op _ _ => {op}
  | _ => 0

/-- While `rcu` waits for its `compare_and_swap`, this stands for the operation. -/
def RcuPc.ops (op : Nat) : RcuPc → Multiset Nat
  | .casWait _ _ _ => 0
  | _ => {op}

/-- The operations that may still write, or have just returned. -/
def Frame.ops : Frame → Multiset Nat
  | .ret spec _ | .into _ spec _ => spec.ops
  | .swap _ op _ | .cas _ op _ _ _ => {op}
  | .rcu _ op pc => pc.ops op
  | _ => 0

def opShare : Share (Multiset Nat) where
  frame := Frame.ops
  tls := fun _ => 0
  val := fun _ => 0

/-- Every operation is held once, and it was called before now. -/
structure State.OpsOk (s : State) : Prop where
  once : (s.shares opShare).Nodup
  past : ∀ op ∈ s.shares opShare, op < s.sh.time

section ops

variable {cfg : Config} {s : State} {t : ThreadId} {tls : Tls} {δ : Change} {rest : List Frame}
  {sh : Shared} {c : CellId} {began : Nat} {loc : Loc}

attribute [local simp] Frame.ops RcuPc.ops Spec.ops

/-- The caller of a frame that returns a panic in a run without wrapped counters. -/
def Frame.bears (fr : Frame) : Prop :=
  fr.accepts (.ptr .plain) ∨ fr.accepts .unit

theorem Thread.Calm.bears {th : Thread} (calm : Thread.Calm sh th) {spec caller}
    (top : th.stack = .ret spec .unwound :: caller :: rest) (waits : caller.isUser = false)
    : caller.bears := by
  rcases calm.frames with all | ⟨spec', below, eq, bearing, _⟩
  · exact absurd rfl (all (.ret spec .unwound) (top ▸ .head _)).settled.1
  · rw [top] at eq
    cases eq
    rcases bearing with user | bearing
    · rw [waits] at user
      cases user
    · exact bearing

theorem finishLoad_ops {now g} : listed Frame.ops (finishLoad c began now loc g) = 0 := by
  cases loc with
  | tls => rfl
  | tmp node => cases node <;> rfl

/-- A frame that moves keeps the operation it stands for. -/
theorem FrameStep.ops {fr act tls' frames} (step : FrameStep cfg sh tls fr act tls' frames)
    : listed Frame.ops frames ≤ fr.ops := by
  cases step with
  | load step =>
      cases step with
      | confirmed | alreadyPaid | ownPaid | unusedPaid => exact finishLoad_ops.le
      | _ => exact Multiset.zero_le _
  | pay step =>
      cases step with
      | help _ dispatch | again _ dispatch => cases dispatch <;> exact Multiset.zero_le _
      | _ => exact Multiset.zero_le _
  | into step => cases step <;> simp
  | get step => cases step <;> exact Multiset.zero_le _
  | cool step => cases step <;> exact Multiset.zero_le _
  | dec step => cases step <;> exact Multiset.zero_le _
  | guardDrop step => cases step <;> exact Multiset.zero_le _
  | _ => simp

/-- An `rcu` that gets the answer of its `compare_and_swap` stands for the operation again. -/
theorem ResumeStep.ops {spec caller v frames} (step : ResumeStep sh caller v frames)
    (accepts : caller.accepts (v.answer spec)) (bears : v = .unwound → caller.bears)
    : listed Frame.ops frames ≤ spec.ops + caller.ops := by
  cases step with
  | loadDec => exact finishLoad_ops.le.trans (Multiset.zero_le _)
  | payLost dispatch => cases dispatch <;> exact Multiset.zero_le _
  | @payDec c p since loc =>
      cases loc with
      | tls => exact Multiset.zero_le _
      | tmp node => cases node <;> exact Multiset.zero_le _
  | loadUnwind step => cases step <;> exact Multiset.zero_le _
  | @rcuSwapped c op cur new | @rcuLost c op cur new =>
      have spec_eq
          : Answer.prot spec = .prot (.swapped c op cur.ptr.addr new)
            ∨ Answer.prot spec = .unwind :=
        accepts
      rcases spec_eq with eq | eq <;> cases eq
      simp
  | unwind step =>
      cases step with
      | rcuCas =>
          rcases bears rfl with accepts | accepts
          · rcases accepts with eq | eq <;> cases eq
          · rcases accepts with eq | eq <;> cases eq
      | _ => simp
  | _ => simp

/-- Only a call starts an operation, whose name is the time. -/
theorem Move.ops (move : Move cfg s tls rest δ) (linked : StackOk (δ.old ++ rest))
    (bears
      : ∀ spec caller, δ.old = [.ret spec .unwound, caller] → caller.isUser = false
        → caller.bears)
    : listed Frame.ops δ.new ≤ listed Frame.ops δ.old
      ∨ listed Frame.ops δ.new = {s.sh.time} ∧ listed Frame.ops δ.old = 0 := by
  cases move with
  | frame step => exact .inl (by simpa using step.ops)
  | @resume spec v caller frames waits step =>
      left
      have kept := step.ops linked.1 (by
        rintro rfl
        exact bears _ _ rfl waits)
      simpa using kept
  | deliver => exact .inl (Multiset.zero_le _)
  | call _ step =>
      cases step with
      | start _ entry =>
          cases entry with
          | rcu => exact .inr ⟨rfl, rfl⟩
          | _ => exact .inl (Multiset.zero_le _)
      | startWith _ _ _ entry =>
          cases entry with
          | cache => exact .inl (Multiset.zero_le _)
          | _ => exact .inr ⟨rfl, rfl⟩
      | exit =>
          left
          cases node : tls.node <;> exact Multiset.zero_le _
      | _ => exact .inl (Multiset.zero_le _)

theorem State.OpsOk.init (n : Nat) : (State.init n).OpsOk := by
  have none : (State.init n).shares opShare = 0 := by
    simp [State.shares, total, State.init, Thread.init, Share.thread, opShare, Share.entry]
  refine ⟨?_, ?_⟩ <;> simp [none]

theorem State.OpsOk.after (ok : s.OpsOk) (pooled : s.Pooled) (member : t < s.nThr)
    (top : (s.thr t).stack = δ.old ++ rest) (move : Move cfg s (s.thr t).tls rest δ)
    (linked : StackOk (s.thr t).stack) (calm : Thread.Calm s.sh (s.thr t))
    : (s.after t δ rest).OpsOk := by
  obtain ⟨before, after⟩ := s.shares_after opShare (fun _ _ => rfl) pooled member top move
  have bare (o : Option UserVal) : opShare.entry o = 0 := by
    cases o <;> rfl
  have tls (tls : Tls) : opShare.tls tls = 0 := rfl
  rw [Share.lost, bare, tls, zero_add, add_zero] at before
  rw [Share.gained, bare, tls, zero_add, add_zero] at after
  rw [top] at linked
  have bears (spec caller) (old : δ.old = [.ret spec .unwound, caller])
      (waits : caller.isUser = false)
      : caller.bears := by
    have shape : (s.thr t).stack = .ret spec .unwound :: caller :: rest := by
      rw [top, old]
      rfl
    exact calm.bears shape waits
  have once := ok.once
  have past := ok.past
  rw [before] at once past
  obtain ⟨once', past'⟩ := fresh_step once past (move.ops linked bears)
  refine ⟨?_, ?_⟩
  · rw [after]
    exact once'
  · rw [after]
    exact past'

/-- A storage is written to by `swap` or by `compare_and_swap`. -/
theorem Move.writes (move : Move cfg s tls rest δ) {op p} (writes : δ.act = .write c op p)
    : (δ.old = [.swap c op p]
        ∧ δ.new = [.pay c (s.sh.ptr c) (s.sh.time + 1) .tls .enter, .swapWait c])
      ∨ ∃ cur old, (s.sh.ptr c).addr = cur ∧ δ.old = [.cas c op cur p (.exchange old)]
        ∧ δ.new = [.pay c old.ptr (s.sh.time + 1) .tls .enter,
          .cas c op cur p (.payWait old)] := by
  have inc {q} (writes : incAct q = .write c op p) : False := by
    unfold incAct at writes
    split at writes <;> cases writes
  cases move with
  | resume | deliver => cases writes
  | frame step =>
      cases step with
      | swap =>
          cases writes
          exact .inl ⟨rfl, rfl⟩
      | casExchange same =>
          cases writes
          exact .inr ⟨_, _, same, rfl, rfl⟩
      | get step => cases step <;> cases writes
      | cool step => cases step <;> cases writes
      | dec step => cases step <;> cases writes
      | into step => cases step <;> first | exact (inc writes).elim | cases writes
      | guardDrop step => cases step <;> cases writes
      | load step => cases step <;> first | exact (inc writes).elim | cases writes
      | pay step => cases step <;> first | exact (inc writes).elim | cases writes
      | _ => cases writes
  | call _ step =>
      cases step with
      | clone | cloneArg => exact (inc writes).elim
      | _ => cases writes

/-- A frame that the step does not change stands for other operations than the step. -/
theorem State.OpsOk.apart (ok : s.OpsOk) (pooled : s.Pooled) (member : t < s.nThr)
    (top : (s.thr t).stack = δ.old ++ rest) (move : Move cfg s (s.thr t).tls rest δ)
    {t' fr op op'}
    (member' : t' < s.nThr) (kept : t' = t ∧ fr ∈ rest ∨ t' ≠ t ∧ fr ∈ (s.thr t').stack)
    (own : op ∈ listed Frame.ops δ.old) (other : op' ∈ fr.ops)
    : op' ≠ op := by
  have split := (s.shares_after opShare (fun _ _ => rfl) pooled member top move).1
  have once := ok.once
  rw [split] at once
  have lost : op ∈ opShare.lost (s.thr t).tls δ :=
    Multiset.mem_add.mpr (.inl (Multiset.mem_add.mpr (.inr own)))
  have aside : op' ∈ (s.aside t δ rest).shares opShare := by
    refine State.mem_shares_of_frame (t := t') (by rwa [State.aside_nThr]) ?_ other
    rw [State.aside_thr, Function.update_apply]
    rcases kept with ⟨rfl, below⟩ | ⟨apart, inside⟩
    · rwa [if_pos rfl]
    · rwa [if_neg apart]
  rintro rfl
  exact Multiset.disjoint_left.mp (Multiset.nodup_add.mp once).2.2 lost aside

/-- A new commit is the write of the step. -/
theorem Shared.commits_after {sh : Shared} {act : Act} {m d}
    (inside : m ∈ (sh.after act).commits d)
    : m ∈ sh.commits d
      ∨ ∃ op p, act = .write d op p ∧ m = ⟨sh.time + 1, op, sh.ptr d, p⟩ := by
  cases act with
  | write e op p =>
      by_cases eq : d = e
      · subst eq
        simp only [after, Act.exec, Function.update_self] at inside
        rcases List.mem_cons.mp inside with rfl | before
        · exact .inr ⟨op, p, rfl, rfl⟩
        · exact .inl before
      · exact .inl (by simpa [after, Act.exec, eq] using inside)
  | newCell =>
      simp only [after, Act.exec, Function.update_apply] at inside
      split at inside
      · cases inside
      · exact .inl inside
  | _ => exact .inl inside

end ops

end ArcSwap
