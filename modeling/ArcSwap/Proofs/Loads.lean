import ArcSwap.Library.Registers
import ArcSwap.Proofs.Accounting
import ArcSwap.Proofs.Transactions

/-! Where the results of loads come from. Every load returns what its storage has held at some
instant during the call, as long as no load that finds its slot paid is misled by an address that
has been given to another object.
-/

namespace ArcSwap

open GuardedRuns Registers

-----------------------------------------------------------------------------------------
-- What a storage has held
-----------------------------------------------------------------------------------------

def Commit.write (m : Commit) : Write Nat Ptr := ⟨m.time, m.old⟩

/-- The content of a storage at the time `t`. -/
def Shared.heldAt (sh : Shared) (c : CellId) (t : Nat) : Ptr :=
  valueAt (sh.ptr c) t ((sh.commits c).map Commit.write)

/-- The writes on record are not later than now. -/
def Shared.Recorded (sh : Shared) : Prop :=
  ∀ c, ∀ m ∈ sh.commits c, m.time ≤ sh.time

/-- A way to compare a pointer that was returned with one that was held. Pointers to the same
object are not told apart.
-/
structure Comparison (same : Ptr → Ptr → Prop) : Prop where
  refl : ∀ p, same p p
  alike : ∀ p q r, p.Alike q → same q r → same p r

/-- The storage held the pointer at some instant of the interval. -/
structure Shared.Held (same : Ptr → Ptr → Prop) (sh : Shared) (c : CellId) (since upTo : Nat)
    (p : Ptr)
    : Prop where
  cell : c < sh.nCells
  past : upTo ≤ sh.time
  instant : ∃ t, since ≤ t ∧ t ≤ upTo ∧ same p (sh.heldAt c t)

section held

variable {same : Ptr → Ptr → Prop} {sh : Shared} {c : CellId} {since upTo : Nat} {p q : Ptr}

theorem Shared.heldAt_after (sh : Shared) (act : Act) (cell : c < sh.nCells) {t}
    (past : t ≤ sh.time)
    : (sh.after act).heldAt c t = sh.heldAt c t := by
  cases act with
  | write d op p =>
      by_cases eq : c = d
      · subst eq
        simp only [heldAt, after, Act.exec, Function.update_self, List.map_cons]
        exact valueAt_write (Nat.lt_succ_of_le past)
      · simp [heldAt, after, Act.exec, eq]
  | newCell => simp [heldAt, after, Act.exec, Nat.ne_of_lt cell]
  | _ => rfl

theorem Act.nCells_le (sh : Shared) (act : Act) : sh.nCells ≤ (act.exec sh).nCells := by
  cases act with
  | newCell => exact Nat.le_succ _
  | _ => exact Nat.le_refl _

theorem Shared.Recorded.after (recorded : sh.Recorded) (act : Act) : (sh.after act).Recorded := by
  intro c m inside
  have old (inside : m ∈ sh.commits c) : m.time ≤ sh.time + 1 :=
    Nat.le_succ_of_le (recorded c m inside)
  have next : (sh.after act).time = sh.time + 1 := rfl
  rw [next]
  cases act with
  | write d op p =>
      simp only [Shared.after, Act.exec, Function.update_apply] at inside
      split at inside
      · rcases List.mem_cons.mp inside with rfl | before
        · exact Nat.le_refl _
        · subst c
          exact old before
      · exact old inside
  | newCell =>
      simp only [Shared.after, Act.exec, Function.update_apply] at inside
      split at inside
      · cases inside
      · exact old inside
  | _ => exact old inside

/-- The storage holds its content now. -/
theorem Shared.Recorded.now (recorded : sh.Recorded) (cmp : Comparison same) (cell : c < sh.nCells)
    (le : since ≤ sh.time)
    : sh.Held same c since sh.time (sh.ptr c) := by
  refine ⟨cell, Nat.le_refl _, sh.time, le, Nat.le_refl _, ?_⟩
  have held : sh.heldAt c sh.time = sh.ptr c := by
    refine valueAt_now ?_
    intro w inside
    obtain ⟨m, there, rfl⟩ := List.mem_map.mp inside
    exact recorded c m there
  rw [held]
  exact cmp.refl _

/-- What has been held stays on record. -/
theorem Shared.Held.after (held : sh.Held same c since upTo p) (act : Act)
    : (sh.after act).Held same c since upTo p := by
  obtain ⟨cell, past, t, le, le', eq⟩ := held
  refine ⟨Nat.lt_of_lt_of_le cell (act.nCells_le sh), Nat.le_succ_of_le past, t, le, le', ?_⟩
  rw [sh.heldAt_after act cell (Nat.le_trans le' past)]
  exact eq

theorem Shared.Held.extend {since' upTo'} (held : sh.Held same c since upTo p)
    (earlier : since' ≤ since) (later : upTo ≤ upTo') (past : upTo' ≤ sh.time)
    : sh.Held same c since' upTo' p := by
  obtain ⟨cell, _, t, le, le', eq⟩ := held
  exact ⟨cell, past, t, Nat.le_trans earlier le, Nat.le_trans le' later, eq⟩

theorem Shared.Held.alike (held : sh.Held same c since upTo p) (cmp : Comparison same)
    (alike : q.Alike p)
    : sh.Held same c since upTo q := by
  obtain ⟨cell, past, t, le, le', eq⟩ := held
  exact ⟨cell, past, t, le, le', cmp.alike q p _ alike eq⟩

/-- The same until now, one step later. -/
theorem Shared.Held.next (held : sh.Held same c since sh.time p) (act : Act)
    : (sh.after act).Held same c since (sh.after act).time p :=
  (held.after act).extend (Nat.le_refl _) (Nat.le_succ _) (Nat.le_refl _)

end held

-----------------------------------------------------------------------------------------
-- What frames know about their pointers
-----------------------------------------------------------------------------------------

section sourced

variable (same : Ptr → Ptr → Prop) (sh : Shared)

/-- The pointer of a protection is the result of the load that it names. -/
def Prot.Sourced (g : Prot) : Prop :=
  ∀ src, g.src = some src → sh.Held same src.cell src.began src.ended g.ptr

def Spec.Sourced : Spec → Ret → Prop
  | .load c began, .prot g =>
      ∃ ended, g.src = some ⟨c, began, ended⟩ ∧ sh.Held same c began ended g.ptr
  | .load c began, .ptr p => sh.Held same c began sh.time p
  | _, .prot g => g.Sourced same sh
  | _, _ => True

def LoadPc.Sourced (c began : Nat) : LoadPc → Prop
  | .scan _ p _ | .take _ p _ | .recheck _ p _ | .payBack _ p _ | .fill _ _ p
  | .confirm _ _ p | .ownInc _ p | .ownPay _ p => sh.Held same c began sh.time p
  | .restore _ _ _ r | .unused _ _ r => sh.Held same c began sh.time r
  | .decWait g => sh.Held same c began sh.time g.ptr
  | .coolWait g =>
      ∃ ended, g.src = some ⟨c, began, ended⟩ ∧ sh.Held same c began ended g.ptr
  | _ => True

def PayPc.Sourced (c : CellId) : PayPc → Prop
  | .theirSpace _ r | .mySpace _ r _ | .fillSpace _ r _ _ | .offer _ r _ _ =>
      sh.Held same c r.began r.ended r.ptr
  | _ => True

def CasPc.Sourced : CasPc → Prop
  | .exchange old | .payWait old | .decWait old | .rejectWait old => old.Sourced same sh
  | _ => True

def RcuPc.Sourced : RcuPc → Prop
  | .closureWait cur _ | .casWait cur _ _ | .intoWait cur _ _ => cur.Sourced same sh
  | .againWait prev _ => prev.Sourced same sh
  | _ => True

/-- The pointers of a frame that come from loads are what the storages have held. -/
def Frame.Sourced : Frame → Prop
  | .ret spec v => spec.Sourced same sh v
  | .into g spec _ => g.Sourced same sh ∧ spec.Sourced same sh (.ptr g.ptr)
  | .load c began _ pc => pc.Sourced same sh c began
  | .pay c _ _ _ pc => pc.Sourced same sh c
  | .cas _ _ _ _ pc => pc.Sourced same sh
  | .rcu _ _ pc => pc.Sourced same sh
  | _ => True

end sourced

section after

variable {same : Ptr → Ptr → Prop} {sh : Shared}

theorem Prot.Sourced.after {g : Prot} (sourced : g.Sourced same sh) (act : Act)
    : g.Sourced same (sh.after act) :=
  fun src eq => (sourced src eq).after act

theorem Spec.Sourced.after {spec : Spec} {v} (sourced : spec.Sourced same sh v) (act : Act)
    : spec.Sourced same (sh.after act) v := by
  cases v with
  | prot g =>
      cases spec with
      | load c began =>
          obtain ⟨ended, src, held⟩ := sourced
          exact ⟨ended, src, held.after act⟩
      | _ => exact Prot.Sourced.after sourced act
  | ptr p =>
      cases spec with
      | load c began => exact Shared.Held.next sourced act
      | _ => trivial
  | _ => cases spec <;> trivial

/-- What frames know stays true. -/
theorem Frame.Sourced.after {fr : Frame} (sourced : fr.Sourced same sh) (act : Act)
    : fr.Sourced same (sh.after act) := by
  cases fr with
  | ret spec v => exact Spec.Sourced.after sourced act
  | into g spec pc => exact ⟨sourced.1.after act, sourced.2.after act⟩
  | load c began loc pc =>
      cases pc with
      | coolWait g =>
          obtain ⟨ended, src, held⟩ := sourced
          exact ⟨ended, src, held.after act⟩
      | scan | take | recheck | payBack | fill | confirm | ownInc | ownPay | restore | unused
      | decWait => exact Shared.Held.next sourced act
      | _ => trivial
  | pay c p since loc pc =>
      cases pc with
      | theirSpace | mySpace | fillSpace | offer => exact Shared.Held.after sourced act
      | _ => trivial
  | cas c op cur new pc =>
      cases pc with
      | exchange | payWait | decWait | rejectWait => exact Prot.Sourced.after sourced act
      | _ => trivial
  | rcu c op pc =>
      cases pc with
      | closureWait | casWait | intoWait | againWait => exact Prot.Sourced.after sourced act
      | _ => trivial
  | _ => trivial

/-- A protection that is returned is what a storage has held. -/
theorem Spec.Sourced.prot {spec : Spec} {g} (sourced : spec.Sourced same sh (.prot g))
    : g.Sourced same sh := by
  cases spec with
  | load c began =>
      obtain ⟨ended, eq, held⟩ := sourced
      intro src eq'
      rw [eq] at eq'
      cases eq'
      exact held
  | _ => exact sourced

end after

-----------------------------------------------------------------------------------------
-- One step
-----------------------------------------------------------------------------------------

section step

variable {same : Ptr → Ptr → Prop} {cfg : Config} {s : State} {t : ThreadId} {l : Label}
  {tls : Tls} {δ : Change} {rest : List Frame} {sh : Shared} {c : CellId} {began : Nat}
  {loc : Loc}

theorem finishLoad_sourced {g} (held : sh.Held same c began sh.time g.ptr)
    : (finishLoad c began sh.time loc g).Forall (Frame.Sourced same sh) := by
  have finished
      : ∃ ended, (some (Src.mk c began sh.time)) = some ⟨c, began, ended⟩
          ∧ sh.Held same c began ended g.ptr :=
    ⟨sh.time, rfl, held⟩
  cases loc with
  | tls => exact finished
  | tmp node =>
      cases node with
      | none => exact finished
      | some n => exact ⟨trivial, finished⟩

/-- A load keeps what it has read from the storage, or reads it now, and what it finds in its
envelope, or in its slot, comes from the storage.
-/
theorem LoadStep.sourced {pc act tls' frames} (cmp : Comparison same)
    (step : LoadStep cfg sh tls c began loc pc act tls' frames)
    (sourced : pc.Sourced same sh c began) (now : sh.Held same c began sh.time (sh.ptr c))
    (adopts
      : ∀ n p i, pc = .payBack n p i → sh.slot n i ≠ p.addr
        → sh.Held same c began sh.time (sh.rebind p))
    (reads
      : ∀ n p e r, pc = .envelope n p e r
        → sh.Held same c began sh.time (sh.handover (handoverNode e)))
    : frames.Forall (Frame.Sourced same sh) := by
  cases step with
  | enter =>
      show LoadPc.Sourced same sh c began (if sh.useFast c then .first else .announce)
      split <;> trivial
  | first | candidate => exact now
  | scanFree | scanNext | take | changed | fill | unhelped | ownInc | restore => exact sourced
  | confirmed => exact finishLoad_sourced now
  | alreadyPaid other => exact finishLoad_sourced (adopts _ _ _ rfl other)
  | ownPaid | unusedPaid => exact finishLoad_sourced sourced
  | ownWasPaid | unusedWasPaid => exact ⟨trivial, sourced⟩
  | envelope => exact (reads _ _ _ _ rfl).alike cmp ⟨rfl, rfl⟩
  | _ => trivial

theorem PayPc.sourced_at (o : Option NodeId) : (PayPc.at o).Sourced same sh c := by
  cases o <;> trivial

theorem PayPc.sourced_nextSlot (n : NodeId) (period j : Nat)
    : (PayPc.nextSlot n period j).Sourced same sh c := by
  unfold nextSlot
  split <;> trivial

theorem Dispatch.sourced {p since h frames} (step : Dispatch c p since loc h frames)
    : frames.Forall (Frame.Sourced same sh) := by
  cases step <;> trivial

theorem PayStep.sourced {p since pc act frames}
    (step : PayStep cfg sh tls c p since loc pc act frames) (sourced : pc.Sourced same sh c)
    : frames.Forall (Frame.Sourced same sh) := by
  cases step with
  | help _ dispatch | again _ dispatch => exact dispatch.sourced
  | head | leave => exact PayPc.sourced_at _
  | skip | bump => exact PayPc.sourced_nextSlot _ _ _
  | theirSpace | mySpace | fillSpace => exact sourced
  | _ => trivial

theorem UnwindStep.sourced {caller frames} (step : UnwindStep sh caller frames)
    : frames.Forall (Frame.Sourced same sh) := by
  cases step <;> trivial

/-- A caller gets what its callee has found in the storage. -/
theorem ResumeStep.sourced {spec caller v frames} (step : ResumeStep sh caller v frames)
    (accepts : caller.accepts (v.answer spec)) (result : spec.Sourced same sh v)
    (sourced : caller.Sourced same sh)
    : frames.Forall (Frame.Sourced same sh) := by
  cases step with
  | @loadNode c began =>
      show LoadPc.Sourced same sh c began (if sh.useFast c then .first else .announce)
      split <;> trivial
  | loadDec => exact finishLoad_sourced sourced
  | loadCool => exact sourced
  | loadUnwind step | unwind step => exact step.sourced
  | @loadFull c began g =>
      have spec_eq
          : Answer.prot spec = .prot (.load c began) ∨ Answer.prot spec = .unwind := accepts
      rcases spec_eq with eq | eq
      · cases eq
        have guard := result.prot
        obtain ⟨ended, src, held⟩ := result
        exact ⟨guard, held.extend (Nat.le_refl _) held.past (Nat.le_refl _)⟩
      · cases eq
  | into => exact sourced.2
  | @payReplace d p since loc h began r =>
      have spec_eq : Answer.ptr spec = .ptr (.load d began) ∨ Answer.ptr spec = .unwind := accepts
      rcases spec_eq with eq | eq
      · cases eq
        exact result
      · cases eq
  | payLost dispatch => exact dispatch.sourced
  | @payDec c p since loc =>
      cases loc with
      | tls => trivial
      | tmp node => cases node <;> trivial
  | casTry => exact result.prot
  | casReject => exact ⟨trivial, result.prot⟩
  | casPaid => exact ⟨trivial, sourced⟩
  | casDone | casRejected => exact sourced
  | rcuLoad => exact ⟨trivial, result.prot⟩
  | rcuTry => exact ⟨trivial, trivial, sourced⟩
  | rcuSwapped => exact ⟨⟨result.prot, trivial⟩, sourced⟩
  | rcuLost => exact ⟨trivial, result.prot⟩
  | rcuAgain => exact ⟨trivial, sourced⟩
  | _ => trivial

theorem IntoStep.sourced {g spec pc act frames} (step : IntoStep sh g spec pc act frames)
    (sourced : g.Sourced same sh ∧ spec.Sourced same sh (.ptr g.ptr))
    : frames.Forall (Frame.Sourced same sh) := by
  cases step with
  | full | paid => exact sourced.2
  | inc => exact sourced
  | wasPaid => exact ⟨trivial, sourced⟩

theorem FrameStep.sourced {fr act tls' frames} (cmp : Comparison same)
    (step : FrameStep cfg sh tls fr act tls' frames) (sourced : fr.Sourced same sh)
    (now : ∀ c began loc pc, fr = .load c began loc pc
      → sh.Held same c began sh.time (sh.ptr c))
    (adopts
      : ∀ c began loc n p i, fr = .load c began loc (.payBack n p i) → sh.slot n i ≠ p.addr
        → sh.Held same c began sh.time (sh.rebind p))
    (reads
      : ∀ c began loc n p e r, fr = .load c began loc (.envelope n p e r)
        → sh.Held same c began sh.time (sh.handover (handoverNode e)))
    : frames.Forall (Frame.Sourced same sh) := by
  cases step with
  | @load c began loc pc _ _ _ step =>
      refine step.sourced cmp sourced (now c began loc pc rfl) ?_ ?_
      · rintro n p i rfl
        exact adopts c began loc n p i rfl
      · rintro n p e r rfl
        exact reads c began loc n p e r rfl
  | pay step => exact step.sourced sourced
  | into step => exact step.sourced sourced
  | get step => cases step <;> trivial
  | cool step => cases step <;> trivial
  | dec step => cases step <;> trivial
  | guardDrop step => cases step <;> trivial
  | casExchange => exact ⟨trivial, sourced⟩
  | _ => trivial

theorem CallStep.sourced (step : CallStep s tls rest δ)
    (vals : ∀ v g, s.vals v = some (.guard g) → g.Sourced same s.sh)
    : δ.new.Forall (Frame.Sourced same s.sh) := by
  cases step with
  | start _ entry | startWith _ _ _ entry => cases entry <;> trivial
  | exit => cases node : tls.node <;> trivial
  | guardIntoInner val => exact ⟨vals _ _ val, trivial⟩
  | _ => trivial

-----------------------------------------------------------------------------------------
-- When a transaction began
-----------------------------------------------------------------------------------------

/-- The transaction of a load was published during the load. -/
def LoadPc.Begun (sh : Shared) (began : Nat) : LoadPc → Prop
  | .candidate n _ | .fill n _ _ | .confirm n _ _ | .envelope n _ _ _ => began ≤ sh.txTime n
  | _ => True

def Frame.Begun (sh : Shared) : Frame → Prop
  | .load _ began _ pc => pc.Begun sh began
  | _ => True

theorem finishLoad_begun {began now g}
    : (finishLoad c began now loc g).Forall (Frame.Begun sh) := by
  cases loc with
  | tls => trivial
  | tmp node => cases node <;> trivial

theorem LoadStep.begun {pc act tls' frames}
    (step : LoadStep cfg sh tls c began loc pc act tls' frames) (le : began ≤ sh.time)
    (begun : pc.Begun sh began) (calm : pc.Calm (loc.node tls))
    : frames.Forall (Frame.Begun (act.exec sh)) := by
  have published {n gen} : began ≤ ((Act.publish n gen).exec sh).txTime n := by
    simpa [Act.exec] using le
  cases step with
  | enter =>
      show LoadPc.Begun sh began (if sh.useFast c then .first else .announce)
      split <;> trivial
  | confirmed | alreadyPaid | ownPaid | unusedPaid => exact finishLoad_begun
  | publish => exact published
  | candidate | helped => exact begun
  | fill node =>
      have same := calm.symm.trans node
      cases same
      exact begun
  | publishWrapped | publishWrappedTmp => exact ⟨trivial, trivial⟩
  | _ => trivial

theorem Move.begun (move : Move cfg s tls rest δ) (timed : δ.old.Forall (Frame.Timed s.sh.time))
    (begun : δ.old.Forall (Frame.Begun s.sh))
    (calm : ∀ c began loc pc, .load c began loc pc ∈ δ.old → pc.Calm (loc.node tls))
    : δ.new.Forall (Frame.Begun (δ.act.exec s.sh)) := by
  cases move with
  | frame step =>
      cases step with
      | load step => exact step.begun timed begun (calm _ _ _ _ List.mem_cons_self)
      | pay step =>
          cases step with
          | help _ dispatch | again _ dispatch => cases dispatch <;> trivial
          | _ => trivial
      | get step => cases step <;> trivial
      | cool step => cases step <;> trivial
      | dec step => cases step <;> trivial
      | into step => cases step <;> trivial
      | guardDrop step => cases step <;> trivial
      | _ => trivial
  | resume _ step =>
      cases step with
      | loadNode =>
          show LoadPc.Begun s.sh _ (if _ then .first else .announce)
          split <;> trivial
      | loadDiscard => exact (calm _ _ _ _ (.tail _ List.mem_cons_self)).elim
      | loadDec => exact finishLoad_begun
      | payLost dispatch => cases dispatch <;> trivial
      | @payDec c p since loc =>
          cases loc with
          | tls => trivial
          | tmp node => cases node <;> trivial
      | loadUnwind step | unwind step => cases step <;> trivial
      | _ => trivial
  | deliver => trivial
  | call _ step =>
      cases step with
      | start _ entry | startWith _ _ _ entry => cases entry <;> trivial
      | exit => cases node : tls.node <;> trivial
      | _ => trivial

/-- Nobody publishes on a node while a transaction runs on it. -/
theorem State.TxOk.notPublished (ok : s.TxOk) {t'} (member : t < s.nThr)
    (top : (s.thr t).stack = δ.old ++ rest) (move : Move cfg s tls rest δ)
    (member' : t' < s.nThr) {fr n k} (inside : fr ∈ (s.thr t').stack)
    (held : .session n k ∈ fr.tokens) (other : ∀ c g, k ≠ .announced c g)
    : (δ.act.exec s.sh).txTime n = s.sh.txTime n := by
  cases act : δ.act with
  | publish m gen =>
      have apart : n ≠ m := by
        rintro rfl
        obtain ⟨c, began, loc, g, old, _⟩ := move.publishes act
        have publisher : .load c began loc (.publish n g) ∈ (s.thr t).stack := by simp [top, old]
        have announced : .session n (.announced c g) ∈ s.tokens :=
          State.mem_shares_of_frame (S := tokenShare) member publisher (by
            simp [tokenShare, Frame.tokens, LoadPc.tokens])
        have there : .session n k ∈ s.tokens :=
          State.mem_shares_of_frame (S := tokenShare) member' inside held
        exact other c g (ok.tx.sessions.unique there announced)
      simp [Act.exec, apart]
  | _ => rfl

theorem Frame.Begun.keep {fr : Frame} (begun : fr.Begun s.sh) (ok : s.TxOk) (member : t < s.nThr)
    (top : (s.thr t).stack = δ.old ++ rest) (move : Move cfg s tls rest δ) {t'}
    (member' : t' < s.nThr) (inside : fr ∈ (s.thr t').stack)
    : fr.Begun (δ.act.exec s.sh) := by
  cases fr with
  | load c began loc pc =>
      cases pc with
      | candidate n gen =>
          have same := ok.notPublished member top move member' inside (n := n)
            (k := .published c gen) (by simp [Frame.tokens, LoadPc.tokens]) (by simp)
          exact Nat.le_trans begun (Nat.le_of_eq same.symm)
      | fill n gen p =>
          have same := ok.notPublished member top move member' inside (n := n)
            (k := .candidate c gen p) (by simp [Frame.tokens, LoadPc.tokens]) (by simp)
          exact Nat.le_trans begun (Nat.le_of_eq same.symm)
      | confirm n gen p =>
          have same := ok.notPublished member top move member' inside (n := n)
            (k := .filled c gen p) (by simp [Frame.tokens, LoadPc.tokens]) (by simp)
          exact Nat.le_trans begun (Nat.le_of_eq same.symm)
      | envelope n p e r =>
          have same := ok.notPublished member top move member' inside (n := n)
            (k := .helped c p e r) (by simp [Frame.tokens, LoadPc.tokens]) (by simp)
          exact Nat.le_trans begun (Nat.le_of_eq same.symm)
      | _ => trivial
  | _ => trivial

end step

-----------------------------------------------------------------------------------------
-- Every run
-----------------------------------------------------------------------------------------

/-- A load that finds its debt paid after the storage has changed goes on with a pointer that is
as good as the one that it has read.
-/
def Adopts (same : Ptr → Ptr → Prop) (s : State) (l : Label) : Prop :=
  ∀ c began loc n p i rest q, (s.thr l.thread).stack = .load c began loc (.payBack n p i) :: rest
    → s.sh.slot n i ≠ p.addr → same p q → same (s.sh.rebind p) q

/-- Frames, values and hand-overs have the pointers that the storages have held. -/
structure State.Sourced (same : Ptr → Ptr → Prop) (s : State) : Prop where
  recorded : s.sh.Recorded
  frames : ∀ t < s.nThr, ∀ fr ∈ (s.thr t).stack, fr.Sourced same s.sh
  begun : ∀ t < s.nThr, ∀ fr ∈ (s.thr t).stack, fr.Begun s.sh
  vals : ∀ v g, s.vals v = some (.guard g) → g.Sourced same s.sh
  helps : ∀ m, ∀ r ∈ s.sh.helps m, s.sh.Held same r.cell r.began r.ended r.val

section runs

variable {same : Ptr → Ptr → Prop} {cfg : Config} {s : State} {t : ThreadId} {δ : Change}
  {rest : List Frame} {c : CellId} {began : Nat} {loc : Loc} {n : Nat}

theorem State.Sourced.init (n : Nat) : (State.init n).Sourced same where
  recorded c m inside := by simp [State.init, Shared.init] at inside
  frames t member fr inside := by simp [State.init, Thread.init] at inside
  begun t member fr inside := by simp [State.init, Thread.init] at inside
  vals v g val := by simp [State.init] at val
  helps m r inside := by simp [State.init, Shared.init] at inside

/-- User code keeps its values or gives them away, and gets at most one. -/
theorem State.after_vals {v u} (val : (s.after t δ rest).vals v = some u)
    : s.vals v = some u ∨ δ.given = some u := by
  have kept (val : (s.without δ.taken).vals v = some u) : s.vals v = some u := by
    cases taken : δ.taken with
    | none => simpa [taken, State.without] using val
    | some w =>
        simp only [taken, State.without, State.take, Function.update_apply] at val
        split at val
        · cases val
        · exact val
  cases given : δ.given with
  | none =>
      simp only [State.after, given, State.with] at val
      exact .inl (kept val)
  | some w =>
      simp only [State.after, given, State.with, State.give, Function.update_apply] at val
      split at val
      · exact .inr val
      · exact .inl (kept val)

/-- What a reader finds in its envelope was held by its storage during the load. -/
theorem State.Sourced.reads (sourced : s.Sourced same) (cmp : Comparison same) (timed : s.Timed)
    (help : HelpInv s.sh s.tokens) (member : t < s.nThr) {m p e r}
    (inside : .load c began loc (.envelope m p e r) ∈ (s.thr t).stack)
    : s.sh.Held same c began s.sh.time (s.sh.handover (handoverNode e)) := by
  have held
      : .session m (.helped c p e r) ∈ (Frame.load c began loc (.envelope m p e r)).tokens := by
    simp [Frame.tokens, LoadPc.tokens]
  have there : .session m (.helped c p e r) ∈ s.tokens :=
    State.mem_shares_of_frame (S := tokenShare) member inside held
  obtain ⟨_, addr, prov⟩ := help.envelope member inside held
  obtain ⟨given, only, rfl, addr', prov'⟩ :=
    help.hands.all m (some (.helped c p e r)) (mem_sessions.mpr there)
  have given_mem : given ∈ s.sh.helps m := only ▸ List.mem_singleton_self given
  obtain ⟨published, _, ready, past⟩ := timed.helps m given given_mem
  have begun : began ≤ s.sh.txTime m := sourced.begun t member _ inside
  have loaded := sourced.helps m given given_mem
  refine (loaded.extend ?_ ?_ (Nat.le_refl _)).alike cmp ⟨addr.trans addr', prov.trans prov'⟩
  · omega
  · omega

theorem State.Sourced.after (sourced : s.Sourced same) (cmp : Comparison same) (ok : s.TxOk)
    (help : HelpInv s.sh s.tokens) (timed : s.Timed) (member : t < s.nThr)
    (top : (s.thr t).stack = δ.old ++ rest) (move : Move cfg s (s.thr t).tls rest δ)
    (adopts
      : ∀ c began loc n p i q, δ.old = [.load c began loc (.payBack n p i)]
        → s.sh.slot n i ≠ p.addr → same p q → same (s.sh.rebind p) q)
    : (s.after t δ rest).Sourced same where
  recorded := sourced.recorded.after δ.act
  frames := by
    refine State.stacks_after ?_ ?_
    · intro t' member' fr inside
      refine (sourced.frames t' member' fr ?_).after δ.act
      rcases inside with ⟨rfl, below⟩ | ⟨_, there⟩
      · exact top ▸ List.mem_append_right _ below
      · exact there
    · have new : δ.new.Forall (Frame.Sourced same s.sh) := by
        have old := State.old_of_stacks (sourced.frames t member) top
        cases move with
        | @frame fr act tls' frames step =>
            have inside : fr ∈ (s.thr t).stack := top ▸ List.mem_cons_self
            refine step.sourced cmp old ?_ ?_ ?_
            · rintro c began loc pc rfl
              have calm := (ok.calm t member).frame inside (by simp)
              have live : s.sh.status c = .live := calm.live c rfl
              exact sourced.recorded.now cmp (ok.tx.cells.bound c (by simp [live]))
                (timed.frames t member _ inside)
            · rintro c began loc n p i rfl other
              obtain ⟨cell, past, instant, le, le', eq⟩ := sourced.frames t member _ inside
              exact ⟨cell, past, instant, le, le', adopts c began loc n p i _ rfl other eq⟩
            · rintro c began loc m p e r rfl
              exact sourced.reads cmp timed help member inside
        | @resume spec v caller frames waits step =>
            have linked := (ok.pool.disciplined t).linked
            rw [top] at linked
            exact step.sourced linked.1 old.1 old.2
        | deliver => trivial
        | call _ step => exact step.sourced sourced.vals
      exact new.imp fun fr sourced => sourced.after δ.act
  begun := by
    refine State.stacks_after ?_ ?_
    · intro t' member' fr inside
      have there : fr ∈ (s.thr t').stack := by
        rcases inside with ⟨rfl, below⟩ | ⟨_, there⟩
        · exact top ▸ List.mem_append_right _ below
        · exact there
      exact (sourced.begun t' member' fr there).keep ok member top move member' there
    · refine move.begun (State.old_of_stacks (timed.frames t member) top)
        (State.old_of_stacks (sourced.begun t member) top) ?_
      intro c began loc pc inside
      have inside : .load c began loc pc ∈ (s.thr t).stack :=
        top ▸ List.mem_append_left _ inside
      exact ((ok.calm t member).frame inside (by simp)).settled
  vals v g val := by
    have kept (val : s.vals v = some (.guard g)) : g.Sourced same (s.sh.after δ.act) :=
      (sourced.vals v g val).after δ.act
    rcases State.after_vals val with before | given
    · exact kept before
    · cases move with
      | frame | resume => cases given
      | @deliver spec v below =>
          have inside : .ret spec v ∈ (s.thr t).stack := by simp [top]
          have result : spec.Sourced same s.sh v := sourced.frames t member _ inside
          cases v <;> cases given
          exact result.prot.after _
      | call _ step =>
          cases step with
          | guardFromInner =>
              cases given
              intro src eq
              cases eq
          | _ => cases given
  helps m r inside := by
    have keep (inside : r ∈ s.sh.helps m)
        : (s.sh.after δ.act).Held same r.cell r.began r.ended r.val :=
      (sourced.helps m r inside).after δ.act
    cases act : δ.act with
    | publish n gen =>
        have other : m ≠ n := by
          rintro rfl
          simp [act, Shared.after, Act.exec] at inside
        refine keep ?_
        simpa [act, Shared.after, Act.exec, other] using inside
    | handOver who self mine given =>
        by_cases eq : m = who
        · subst eq
          have inside : r = given ∨ r ∈ s.sh.helps m := by
            simpa [act, Shared.after, Act.exec] using inside
          rcases inside with rfl | inside
          · obtain ⟨c, p, since, loc, h, g, their, old, _, rfl, _⟩ := move.handsOver act
            have there : .pay c p since loc (.offer h g their mine) ∈ (s.thr t).stack := by
              simp [top, old]
            exact Shared.Held.after (sourced.frames t member _ there) δ.act
          · exact keep inside
        · refine keep ?_
          simpa [act, Shared.after, Act.exec, eq] using inside
    | _ =>
        refine keep ?_
        simpa [act, Shared.after, Act.exec] using inside

theorem sourced_of_reaches (cmp : Comparison same)
    (reached
      : Reaches (step cfg) (fun s l => Careful cfg s l ∧ Adopts same s l) (State.init n) s)
    : s.Sourced same := by
  refine reached.invariant (.init n) fun s l s' before sourced allowed taken => ?_
  have careful := before.mono fun _ _ => And.left
  have ok := txOk_of_reaches (fun _ _ => And.left) careful
  obtain ⟨δ, rest, member, top, move, rfl⟩ := step_moves taken
  refine sourced.after cmp ok (help_of_reaches careful) (timed_of_reaches careful)
    member top move ?_
  intro c began loc n p i q old
  exact allowed.2 c began loc n p i rest q (by rw [top, old]; rfl)

end runs

-----------------------------------------------------------------------------------------
-- Addresses
-----------------------------------------------------------------------------------------

/-- Pointers are compared as the source compares them. -/
def SameAddr (p q : Ptr) : Prop :=
  p.addr = q.addr

theorem comparison_sameAddr : Comparison SameAddr where
  refl _ := rfl
  alike _ _ _ alike same := alike.addr.trans same

/-- A load goes on with the address that it has read. -/
theorem adopts_sameAddr {cfg s l} (careful : Careful cfg s l)
    : Careful cfg s l ∧ Adopts SameAddr s l :=
  ⟨careful, fun _ _ _ _ _ _ _ _ _ _ same => same⟩

-----------------------------------------------------------------------------------------
-- Objects
-----------------------------------------------------------------------------------------

/-- A load that finds its debt paid after the storage has changed does so before the address that
it has read is given to another object.
-/
def Unreused (s : State) (l : Label) : Prop :=
  ∀ c began loc n p i rest, (s.thr l.thread).stack = .load c began loc (.payBack n p i) :: rest
    → s.sh.slot n i ≠ p.addr → (s.sh.rebind p).prov = p.prov

theorem comparison_alike : Comparison Ptr.Alike where
  refl _ := ⟨rfl, rfl⟩
  alike _ _ _ first second :=
    ⟨first.addr.trans second.addr, first.prov.trans second.prov⟩

theorem Unreused.adopts {s l} (unreused : Unreused s l) : Adopts Ptr.Alike s l := by
  intro c began loc n p i rest q top other alike
  exact ⟨alike.addr, (unreused c began loc n p i rest top other).trans alike.prov⟩

/-- The storage held the very object of the pointer at some instant of the interval. -/
def Shared.HeldObject (sh : Shared) (c : CellId) (since upTo : Nat) (p : Ptr) : Prop :=
  ∃ t, since ≤ t ∧ t ≤ upTo ∧ p.Alike (sh.heldAt c t)

/-- In a run in which no address is reused while a load that has read it may adopt it, every load
returns an object that the storage has held at some instant between the call and the return, and
the object is still there. Loads that follow each other take what the storage has held at
instants that follow each other.
-/
theorem loads_linearizable {cfg n s}
    (reached
      : Reaches (step cfg) (fun s l => Careful cfg s l ∧ Unreused s l) (State.init n) s)
    : (∀ t < s.nThr, ∀ c began g, .ret (.load c began) (.prot g) ∈ (s.thr t).stack
        → s.sh.HeldObject c began s.sh.time g.ptr ∧ s.sh.Alive g.ptr)
      ∧ (∀ t < s.nThr, ∀ c began p, .ret (.load c began) (.ptr p) ∈ (s.thr t).stack
        → s.sh.HeldObject c began s.sh.time p ∧ s.sh.Alive p)
      ∧ ∀ v v' g g' src src', s.vals v = some (.guard g) → s.vals v' = some (.guard g')
        → g.src = some src → g'.src = some src' → src.cell = src'.cell
          → src.ended ≤ src'.began
        → ∃ t t', src.began ≤ t ∧ t ≤ src.ended ∧ src'.began ≤ t'
          ∧ t' ≤ src'.ended ∧ t ≤ t'
          ∧ g.ptr.Alike (s.sh.heldAt src.cell t) ∧ g'.ptr.Alike (s.sh.heldAt src.cell t') := by
  have careful := reached.mono fun _ _ => And.left
  have sourced := sourced_of_reaches comparison_alike
    (reached.mono fun _ _ both => ⟨both.1, both.2.adopts⟩)
  have alive (p) (holds : s.Holds p) : s.sh.Alive p := alive_of_reaches careful holds
  refine ⟨?_, ?_, ?_⟩
  · intro t member c began g inside
    obtain ⟨ended, src, held⟩ : Spec.Sourced Ptr.Alike s.sh (.load c began) (.prot g) :=
      sourced.frames t member _ inside
    refine ⟨(held.extend (Nat.le_refl _) held.past (Nat.le_refl _)).instant, ?_⟩
    exact alive _ (.frame member inside (Multiset.mem_singleton_self _) g.token_keeps)
  · intro t member c began p inside
    have held : s.sh.Held Ptr.Alike c began s.sh.time p := sourced.frames t member _ inside
    refine ⟨held.instant, ?_⟩
    exact alive _ (.frame member inside (Multiset.mem_singleton_self _) rfl)
  · intro v v' g g' src src' val val' eq eq' same follows
    obtain ⟨_, _, t, le, le', held⟩ := sourced.vals v g val src eq
    obtain ⟨_, _, t', after, after', held'⟩ := sourced.vals v' g' val' src' eq'
    have order : t ≤ t' := Nat.le_trans le' (Nat.le_trans follows after)
    exact ⟨t, t', le, le', after, after', order, held, same ▸ held'⟩

/-- Whether a load that finds its debt paid adopts the object it has read, computed. -/
def adoptsItsOwn (s : State) (l : Label) : Bool :=
  match (s.thr l.thread).stack with
  | .load _ _ _ (.payBack n p i) :: _ =>
      s.sh.slot n i == p.addr || (s.sh.rebind p).prov == p.prov
  | _ => true

theorem unreused_of_adoptsItsOwn {s l} (checked : adoptsItsOwn s l = true) : Unreused s l := by
  intro c began loc n p i rest top other
  simpa [adoptsItsOwn, top, other] using checked

/-- A thread reads a storage and stops before it has written its slot. -/
def stoppedSchedule : List Label :=
  [.call 0 (.alloc 16 0), .call 0 (.new 0 100 true), .call 0 (.load 0)]
    ++ List.replicate 7 (.run 0 false)

/-- Its pointer is replaced and the slot written, then the writer pays it. -/
def paidSchedule : List Label :=
  stoppedSchedule
    ++ [.call 1 (.alloc 20 0), .call 1 (.store 0 1), .run 1 false]
    ++ List.replicate 2 (.run 0 false)
    ++ List.replicate 24 (.run 1 false)
    ++ [.run 0 false]

theorem loads_linearizable_paid
    : ∃ s : State, (s.sh.ptr 0).addr = 20 ∧ s.sh.HeldObject 0 2 s.sh.time ⟨16, 0, 1⟩ := by
  have ran
      : (runChecked (step ⟨64, true⟩)
            (fun s l => careful ⟨64, true⟩ s l && adoptsItsOwn s l)
            (State.init 2) paidSchedule).map
            (fun s => ((s.sh.ptr 0).addr, s.nThr, (s.thr 0).stack.head?))
          = some (20, 2, some
            (.ret (.load 0 2) (.prot ⟨⟨16, 0, 1⟩, none, some ⟨0, 2, 39⟩⟩))) := by
    decide +kernel
  obtain ⟨s, ran, eq⟩ := Option.map_eq_some_iff.mp ran
  simp only [Prod.mk.injEq] at eq
  obtain ⟨ptr, threads, top⟩ := eq
  have reached := reaches_of_runChecked (fun _ _ both => by
    obtain ⟨careful, adopts⟩ := Bool.and_eq_true_iff.mp both
    exact And.intro (careful_sound careful) (unreused_of_adoptsItsOwn adopts)) ran
  have member : 0 < s.nThr := by omega
  exact ⟨s, ptr, ((loads_linearizable reached).1 0 member 0 2 _ (List.mem_of_mem_head? top)).1⟩

/-- The object at the address is destroyed, the address given to an object of another type, and
this object put into another storage and taken out, which pays the slot.
-/
def reusedSchedule : List Label :=
  stoppedSchedule
    ++ [.call 1 (.alloc 20 0), .call 1 (.store 0 1)]
    ++ List.replicate 40 (.run 1 false)
    ++ [.call 1 .destructorRet, .run 1 false, .call 1 (.alloc 16 1), .call 1 (.new 2 200 true)]
    ++ List.replicate 2 (.run 0 false)
    ++ [.call 1 (.alloc 24 1), .call 1 (.store 1 3)]
    ++ List.replicate 36 (.run 1 false)
    ++ [.run 0 false]

/-- The load then returns an object that its storage has never held. -/
theorem reused_address_loaded
    : ∃ s g, Reaches (step ⟨64, true⟩) (Careful ⟨64, true⟩) (State.init 2) s
        ∧ (s.thr 0).stack = [.ret (.load 0 2) (.prot g)]
        ∧ ¬ s.sh.HeldObject 0 2 s.sh.time g.ptr := by
  let g : Prot := ⟨⟨16, 0, 3⟩, none, some ⟨0, 2, 96⟩⟩
  have ran
      : (runChecked (step ⟨64, true⟩) (careful ⟨64, true⟩)
          (State.init 2) reusedSchedule).map
            (fun s => ((s.thr 0).stack, s.sh.ptr 0, (s.sh.commits 0).map Commit.old))
          = some ([.ret (.load 0 2) (.prot g)], ⟨20, 0, 2⟩, [⟨16, 0, 1⟩]) := by
    decide +kernel
  obtain ⟨s, ran, eq⟩ := Option.map_eq_some_iff.mp ran
  simp only [Prod.mk.injEq] at eq
  obtain ⟨stack, ptr, olds⟩ := eq
  have reached := reaches_of_runChecked (fun _ _ => careful_sound) ran
  refine ⟨s, g, reached, stack, ?_⟩
  rintro ⟨t, _, _, addr, prov⟩
  rcases valueAt_cases (s.sh.ptr 0) t ((s.sh.commits 0).map Commit.write)
    with now | ⟨w, inside, old⟩
  · rw [Shared.heldAt, now, ptr] at prov
    cases prov
  · obtain ⟨m, there, rfl⟩ := List.mem_map.mp inside
    have before : m.old ∈ (s.sh.commits 0).map Commit.old := List.mem_map_of_mem there
    rw [olds] at before
    have same : s.sh.heldAt 0 t = m.old := old
    rw [same, List.mem_singleton.mp before] at prov
    cases prov

end ArcSwap
