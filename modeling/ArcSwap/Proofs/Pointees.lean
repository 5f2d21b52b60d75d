import ArcSwap.Proofs.Loads

/-! Pointee types. The debt slots are shared by instances of all pointee types and hold bare
addresses. Counts are nevertheless taken and released with the type an object was made with, as
long as no load that finds its debt paid is misled by an address that has been given to an object
of another type.
-/

namespace ArcSwap

open GuardedRuns

-----------------------------------------------------------------------------------------
-- Typed pointers
-----------------------------------------------------------------------------------------

/-- The pointer has the type that its object was made with, as long as the object is there. -/
structure Ptr.Typed (sh : Shared) (p : Ptr) : Prop where
  made : p.prov < sh.nextId
  object : ∀ o, sh.heap p.addr = some o → o.id = p.prov → o.ty = p.ty

/-- The pointer may be in the storage. -/
structure Shared.Admits (sh : Shared) (c : CellId) (p : Ptr) : Prop where
  cell : c < sh.nCells
  ty : p.ty = sh.cellTy c
  typed : p.Typed sh

/-- Objects are numbered from 1 on. -/
structure Shared.Numbered (sh : Shared) : Prop where
  started : 0 < sh.nextId
  object : ∀ a o, sh.heap a = some o → 0 < o.id ∧ o.id < sh.nextId

section typed

variable {sh : Shared} {c : CellId} {p q : Ptr}

/-- Objects keep their number and type until they are destroyed. -/
theorem Act.object (sh : Shared) (act : Act) {a o} (there : (act.exec sh).heap a = some o)
    : (∃ before, sh.heap a = some before ∧ before.id = o.id ∧ before.ty = o.ty)
      ∨ (o.id = sh.nextId ∧ (act.exec sh).nextId = sh.nextId + 1) := by
  have kept (there : sh.heap a = some o)
      : ∃ before, sh.heap a = some before ∧ before.id = o.id ∧ before.ty = o.ty :=
    ⟨o, there, rfl, rfl⟩
  have counted (b f) (now : sh.count b f a = some o)
      : ∃ before, sh.heap a = some before ∧ before.id = o.id ∧ before.ty = o.ty := by
    rw [Shared.count, Function.update_apply] at now
    split at now
    · subst a
      obtain ⟨before, was, rfl⟩ := Option.map_eq_some_iff.mp now
      exact ⟨before, was, rfl, rfl⟩
    · exact kept now
  cases act with
  | inc b => exact .inl (counted b (· + 1) there)
  | dec b => exact .inl (counted b (· - 1) there)
  | dealloc b =>
      simp only [Act.exec, Function.update_apply] at there
      split at there
      · cases there
      · exact .inl (kept there)
  | newObj b ty =>
      simp only [Act.exec, Function.update_apply] at there
      split at there
      · cases there
        exact .inr ⟨rfl, rfl⟩
      · exact .inl (kept there)
  | _ => exact .inl (kept there)

theorem Act.nextId_le (sh : Shared) (act : Act) : sh.nextId ≤ (act.exec sh).nextId := by
  cases act with
  | newObj => exact Nat.le_succ _
  | _ => exact Nat.le_refl _

theorem Act.cellTy (sh : Shared) (act : Act) (cell : c < sh.nCells)
    : (act.exec sh).cellTy c = sh.cellTy c := by
  cases act with
  | newCell => simp [Act.exec, Nat.ne_of_lt cell]
  | _ => rfl

theorem Shared.Numbered.after (numbered : sh.Numbered) (act : Act) : (sh.after act).Numbered where
  started := Nat.lt_of_lt_of_le numbered.started (act.nextId_le sh)
  object a o there := by
    rcases act.object sh there with ⟨before, was, id, _⟩ | ⟨id, next⟩
    · obtain ⟨real, given⟩ := numbered.object a before was
      exact id ▸ ⟨real, Nat.lt_of_lt_of_le given (act.nextId_le sh)⟩
    · rw [Shared.after, id, next]
      exact ⟨numbered.started, Nat.lt_succ_self _⟩

/-- A later object at the address has another number. -/
theorem Ptr.Typed.after (typed : p.Typed sh) (act : Act) : p.Typed (sh.after act) where
  made := Nat.lt_of_lt_of_le typed.made (act.nextId_le sh)
  object o there same := by
    rcases act.object sh there with ⟨before, was, id, ty⟩ | ⟨id, _⟩
    · exact ty ▸ typed.object before was (id.trans same)
    · have made := typed.made
      omega

theorem Shared.Admits.after (admits : sh.Admits c p) (act : Act) : (sh.after act).Admits c p where
  cell := Nat.lt_of_lt_of_le admits.cell (act.nCells_le sh)
  ty := admits.ty.trans (act.cellTy sh admits.cell).symm
  typed := admits.typed.after act

/-- A pointer to the same object, read as a pointer of the type of the storage. -/
theorem Shared.Admits.alike (admits : sh.Admits c q) (alike : p.Alike q)
    : sh.Admits c { p with ty := sh.cellTy c } where
  cell := admits.cell
  ty := rfl
  typed := by
    refine ⟨alike.prov ▸ admits.typed.made, fun o there same => ?_⟩
    have there : sh.heap q.addr = some o := alike.addr ▸ there
    exact (admits.typed.object o there (same.trans alike.prov)).trans admits.ty

/-- The pointer is good for whatever object is at its address now, if this has its type. -/
theorem Shared.Admits.rebind (admits : sh.Admits c p) (numbered : sh.Numbered)
    (kept : ∀ o, sh.heap p.addr = some o → o.id ≠ p.prov → o.ty = p.ty)
    : sh.Admits c (sh.rebind p) where
  cell := admits.cell
  ty := admits.ty
  typed := by
    constructor
    · cases there : sh.heap p.addr with
      | none => simpa [Shared.rebind, there] using numbered.started
      | some o => simpa [Shared.rebind, there] using (numbered.object _ o there).2
    · intro o there _
      by_cases own : o.id = p.prov
      · exact admits.typed.object o there own
      · exact kept o there own

end typed

-----------------------------------------------------------------------------------------
-- What frames know about the types of their pointers
-----------------------------------------------------------------------------------------

section frames

variable (sh : Shared)

/-- The result of an operation on a storage has the type of the storage. -/
def Spec.Typed : Spec → Ptr → Prop
  | .load c _, p | .swapped c _ _ _, p => sh.Admits c p
  | _, p => p.Typed sh

def Ret.Typed (spec : Spec) : Ret → Prop
  | .ptr p => spec.Typed sh p
  | .prot g => spec.Typed sh g.ptr
  | _ => True

def LoadPc.Typed (c : CellId) : LoadPc → Prop
  | .scan _ p _ | .take _ p _ | .recheck _ p _ | .payBack _ p _ | .fill _ _ p
  | .confirm _ _ p | .ownInc _ p | .ownPay _ p | .envelope _ p _ _ => sh.Admits c p
  | .restore _ p _ r | .unused _ p r => sh.Admits c p ∧ sh.Admits c r
  | .decWait g | .coolWait g => sh.Admits c g.ptr
  | _ => True

def PayPc.Typed (c : CellId) : PayPc → Prop
  | .theirSpace _ r | .mySpace _ r _ | .fillSpace _ r _ _ | .offer _ r _ _ => sh.Admits c r.ptr
  | _ => True

def CasPc.Typed (c : CellId) : CasPc → Prop
  | .exchange old | .payWait old | .decWait old | .rejectWait old => sh.Admits c old.ptr
  | _ => True

def RcuPc.Typed (c : CellId) : RcuPc → Prop
  | .closureWait cur _ | .casWait cur _ _ | .intoWait cur _ _ => sh.Admits c cur.ptr
  | .againWait prev _ => sh.Admits c prev.ptr
  | .doneWait r _ => r.Typed sh
  | _ => True

def CachePc.Typed : CachePc → Prop
  | .decWait r => r.Typed sh
  | _ => True

/-- The pointers of a frame have the types of their objects, and of their storages. -/
def Frame.Typed : Frame → Prop
  | .ret spec v => v.Typed sh spec
  | .closure p | .dec p => p.Typed sh
  | .into g spec _ => g.ptr.Typed sh ∧ spec.Typed sh g.ptr
  | .guardDrop g => g.ptr.Typed sh
  | .load c _ _ pc => pc.Typed sh c
  | .pay c p _ _ pc => p.Typed sh ∧ pc.Typed sh c
  | .swap c _ new => sh.Admits c new
  | .cas c _ _ new pc => sh.Admits c new ∧ pc.Typed sh c
  | .rcu c _ pc => pc.Typed sh c
  | .cache _ p pc => p.Typed sh ∧ pc.Typed sh
  | .cellInto c none => c < sh.nCells
  | .cellInto _ (some p) => p.Typed sh
  | _ => True

/-- The accesses that put a pointer into a storage or an envelope. -/
def Act.Typed : Act → Prop
  | .write c _ p => sh.Admits c p
  | .newCell p _ _ => p.Typed sh
  | .handOver _ _ _ given => sh.Admits given.cell given.val
  | _ => True

end frames

section after

variable {sh : Shared}

theorem Spec.Typed.after {spec : Spec} {p} (typed : spec.Typed sh p) (act : Act)
    : spec.Typed (sh.after act) p := by
  cases spec with
  | load | swapped => exact Shared.Admits.after typed act
  | _ => exact Ptr.Typed.after typed act

theorem Spec.Typed.ptr {spec : Spec} {p} (typed : spec.Typed sh p) : p.Typed sh := by
  cases spec with
  | load | swapped => exact Shared.Admits.typed typed
  | _ => exact typed

/-- What frames know stays true. -/
theorem Frame.Typed.after {fr : Frame} (typed : fr.Typed sh) (act : Act)
    : fr.Typed (sh.after act) := by
  cases fr with
  | ret spec v => cases v <;> first | exact Spec.Typed.after typed act | trivial
  | closure | dec | guardDrop => exact Ptr.Typed.after typed act
  | into => exact ⟨typed.1.after act, typed.2.after act⟩
  | load c began loc pc =>
      cases pc with
      | restore | unused => exact ⟨typed.1.after act, typed.2.after act⟩
      | scan | take | recheck | payBack | fill | confirm | ownInc | ownPay | envelope | decWait
      | coolWait => exact Shared.Admits.after typed act
      | _ => trivial
  | pay c p since loc pc =>
      refine ⟨typed.1.after act, ?_⟩
      cases pc with
      | theirSpace | mySpace | fillSpace | offer => exact Shared.Admits.after typed.2 act
      | _ => trivial
  | swap => exact Shared.Admits.after typed act
  | cas c op cur new pc =>
      refine ⟨typed.1.after act, ?_⟩
      cases pc with
      | exchange | payWait | decWait | rejectWait => exact Shared.Admits.after typed.2 act
      | _ => trivial
  | rcu c op pc =>
      cases pc with
      | closureWait | casWait | intoWait | againWait => exact Shared.Admits.after typed act
      | doneWait => exact Ptr.Typed.after typed act
      | _ => trivial
  | cache c p pc =>
      refine ⟨typed.1.after act, ?_⟩
      cases pc with
      | decWait => exact Ptr.Typed.after typed.2 act
      | _ => trivial
  | cellInto c p =>
      cases p with
      | none => exact Nat.lt_of_lt_of_le typed (act.nCells_le sh)
      | some p => exact Ptr.Typed.after typed act
  | _ => trivial

end after

-----------------------------------------------------------------------------------------
-- One step
-----------------------------------------------------------------------------------------

/-- The debt that a load is about to pay back, for a pointer it does not return. -/
def LoadPc.repays : LoadPc → Option (NodeId × Nat × Ptr)
  | .payBack n p i => some (n, i, p)
  | .unused n p _ => some (n, HELPING, p)
  | _ => none

section step

variable {cfg : Config} {s : State} {tls : Tls} {δ : Change} {rest : List Frame} {sh : Shared}
  {c : CellId} {began : Nat} {loc : Loc}

theorem finishLoad_typed {now g} (typed : sh.Admits c g.ptr)
    : (finishLoad c began now loc g).Forall (Frame.Typed sh) := by
  cases loc with
  | tls => exact typed
  | tmp node =>
      cases node with
      | none => exact typed
      | some n => exact ⟨trivial, typed⟩

theorem LoadStep.typed {pc act tls' frames}
    (step : LoadStep cfg sh tls c began loc pc act tls' frames) (typed : pc.Typed sh c)
    (now : sh.Admits c (sh.ptr c))
    (kept
      : ∀ n i p, pc.repays = some (n, i, p) → sh.slot n i ≠ p.addr → sh.Admits c p
        → sh.Admits c (sh.rebind p))
    (reads
      : ∀ n p e r, pc = .envelope n p e r
        → sh.Admits c { sh.handover (handoverNode e) with ty := sh.cellTy c })
    : frames.Forall (Frame.Typed sh) := by
  cases step with
  | enter =>
      show LoadPc.Typed sh c (if sh.useFast c then .first else .announce)
      split <;> trivial
  | first | candidate => exact now
  | scanFree | scanNext | take | changed | fill | unhelped | helped | ownInc | restore =>
      exact typed
  | confirmed => exact finishLoad_typed now
  | alreadyPaid other => exact finishLoad_typed (kept _ _ _ rfl other typed)
  | ownPaid => exact finishLoad_typed typed
  | ownWasPaid => exact ⟨Shared.Admits.typed typed, typed⟩
  | envelope => exact ⟨typed, reads _ _ _ _ rfl⟩
  | unusedPaid => exact finishLoad_typed typed.2
  | unusedWasPaid other => exact ⟨(kept _ _ _ rfl other typed.1).typed, typed.2⟩
  | _ => trivial

theorem PayPc.typed_at (o : Option NodeId) : (PayPc.at o).Typed sh c := by
  cases o <;> trivial

theorem PayPc.typed_nextSlot (n : NodeId) (period j : Nat)
    : (PayPc.nextSlot n period j).Typed sh c := by
  unfold nextSlot
  split <;> trivial

theorem Dispatch.typed {p since h frames} (step : Dispatch c p since loc h frames)
    (typed : p.Typed sh)
    : frames.Forall (Frame.Typed sh) := by
  cases step with
  | invalid => exact ⟨trivial, typed, trivial⟩
  | _ => exact ⟨typed, trivial⟩

theorem PayStep.typed {p since pc act frames}
    (step : PayStep cfg sh tls c p since loc pc act frames) (typed : p.Typed sh ∧ pc.Typed sh c)
    : frames.Forall (Frame.Typed sh) := by
  obtain ⟨taken, typed⟩ := typed
  cases step with
  | help _ dispatch | again _ dispatch => exact dispatch.typed taken
  | head | leave => exact ⟨taken, PayPc.typed_at _⟩
  | skip | bump => exact ⟨taken, PayPc.typed_nextSlot _ _ _⟩
  | theirSpace | mySpace | fillSpace => exact ⟨taken, typed⟩
  | agrees => exact ⟨trivial, trivial, taken, trivial⟩
  | lost => exact ⟨Shared.Admits.typed typed, taken, trivial⟩
  | dropVal | abandon => exact ⟨taken, taken, trivial⟩
  | _ => first | exact ⟨taken, trivial⟩ | exact ⟨trivial, taken, trivial⟩

theorem UnwindStep.typed {caller frames} (step : UnwindStep sh caller frames)
    (typed : caller.Typed sh) (cells : ∀ c < sh.nCells, sh.Admits c (sh.ptr c))
    : frames.Forall (Frame.Typed sh) := by
  cases step with
  | pay | payHelp => exact ⟨typed.1, trivial⟩
  | casLoad => exact ⟨typed.1.typed, typed.1, trivial⟩
  | casPay => exact ⟨typed.2.typed, typed.1, trivial⟩
  | rcuCas => exact ⟨Shared.Admits.typed typed, trivial⟩
  | cache => exact typed.1
  | cellInto => exact ⟨⟨(cells _ typed).typed, trivial⟩, trivial⟩
  | _ => trivial

theorem finishPay_typed {p since} (typed : p.Typed sh)
    : (finishPay c p since loc).Forall (Frame.Typed sh) := by
  cases loc with
  | tls => exact typed
  | tmp node =>
      cases node with
      | none => exact typed
      | some n => exact ⟨trivial, typed, trivial⟩

/-- A caller gets what its callee has for it; what a closure returns has the type of the storage.
-/
theorem ResumeStep.typed {spec caller v frames} (step : ResumeStep sh caller v frames)
    (accepts : caller.accepts (v.answer spec)) (result : v.Typed sh spec)
    (typed : caller.Typed sh) (cells : ∀ c < sh.nCells, sh.Admits c (sh.ptr c))
    (fed
      : ∀ c op cur calls new, caller = .rcu c op (.closureWait cur calls) → v = .ptr new
        → new.ty = sh.cellTy c)
    : frames.Forall (Frame.Typed sh) := by
  have ptr {p} (eq : v = .ptr p) : p.Typed sh := by
    rw [eq] at result
    exact Spec.Typed.ptr result
  cases step with
  | @loadNode c =>
      show LoadPc.Typed sh c (if sh.useFast c then .first else .announce)
      split <;> trivial
  | loadDec => exact finishLoad_typed typed
  | loadCool => exact typed
  | loadUnwind step | unwind step => exact step.typed typed cells
  | @loadFull c began g =>
      have spec_eq
          : Answer.prot spec = .prot (.load c began) ∨ Answer.prot spec = .unwind := accepts
      rcases spec_eq with eq | eq <;> cases eq
      exact ⟨Shared.Admits.typed result, result⟩
  | into => exact typed.2
  | payNode => exact ⟨typed.1, trivial⟩
  | payUnwindTmp => exact ⟨trivial, typed.1, trivial⟩
  | @payReplace d p since loc h began r =>
      have spec_eq : Answer.ptr spec = .ptr (.load d began) ∨ Answer.ptr spec = .unwind := accepts
      rcases spec_eq with eq | eq <;> cases eq
      exact ⟨typed.1, result⟩
  | payLost dispatch => exact dispatch.typed typed.1
  | payDec => exact finishPay_typed typed.1
  | payCool => exact typed.1
  | swap | store | intoPaid => exact ptr rfl
  | @casReject c op cur new began old =>
      have spec_eq
          : Answer.prot spec = .prot (.load c began) ∨ Answer.prot spec = .unwind := accepts
      rcases spec_eq with eq | eq <;> cases eq
      exact ⟨typed.1.typed, typed.1, result⟩
  | @casTry c op cur new began old =>
      have spec_eq
          : Answer.prot spec = .prot (.load c began) ∨ Answer.prot spec = .unwind := accepts
      rcases spec_eq with eq | eq <;> cases eq
      exact ⟨typed.1, result⟩
  | casRetry => exact ⟨trivial, typed.1, trivial⟩
  | casPaid => exact ⟨ptr rfl, typed.1, typed.2⟩
  | casDone | casRejected => exact typed.2
  | @rcuLoad c op began cur =>
      have spec_eq
          : Answer.prot spec = .prot (.load c began) ∨ Answer.prot spec = .unwind := accepts
      rcases spec_eq with eq | eq <;> cases eq
      exact ⟨Shared.Admits.typed result, result⟩
  | @rcuTry c op cur calls new =>
      have cur : sh.Admits c cur.ptr := typed
      have admits : sh.Admits c new := ⟨cur.cell, fed _ _ _ _ _ rfl rfl, ptr rfl⟩
      exact ⟨trivial, ⟨admits, trivial⟩, cur⟩
  | rcuPanic => exact ⟨Shared.Admits.typed typed, trivial⟩
  | @rcuSwapped c op cur new calls prev =>
      have spec_eq
          : Answer.prot spec = .prot (.swapped c op cur.ptr.addr new)
            ∨ Answer.prot spec = .unwind :=
        accepts
      rcases spec_eq with eq | eq <;> cases eq
      have typed' := Shared.Admits.typed result
      exact ⟨⟨typed', typed'⟩, typed⟩
  | @rcuLost c op cur new calls prev =>
      have spec_eq
          : Answer.prot spec = .prot (.swapped c op cur.ptr.addr new)
            ∨ Answer.prot spec = .unwind :=
        accepts
      rcases spec_eq with eq | eq <;> cases eq
      exact ⟨Shared.Admits.typed typed, result⟩
  | rcuInto => exact ⟨Shared.Admits.typed typed, ptr rfl⟩
  | rcuDone => exact typed
  | rcuAgain => exact ⟨Shared.Admits.typed typed, typed⟩
  | cacheLoad => exact ⟨typed.1, typed.1, ptr rfl⟩
  | cacheDone => exact typed.2
  | dropPaid => exact ⟨ptr rfl, trivial⟩
  | _ => trivial

theorem IntoStep.typed {g spec pc act frames} (step : IntoStep sh g spec pc act frames)
    (typed : g.ptr.Typed sh ∧ spec.Typed sh g.ptr)
    : frames.Forall (Frame.Typed sh) := by
  cases step with
  | full | paid => exact typed.2
  | inc => exact typed
  | wasPaid => exact ⟨typed.1, typed⟩

theorem FrameStep.typed {fr act tls' frames} (step : FrameStep cfg sh tls fr act tls' frames)
    (typed : fr.Typed sh) (cells : ∀ c < sh.nCells, sh.Admits c (sh.ptr c))
    (bound : ∀ c, fr.uses = some c → c < sh.nCells)
    (kept
      : ∀ c began loc pc n i p, fr = .load c began loc pc → pc.repays = some (n, i, p)
        → sh.slot n i ≠ p.addr → sh.Admits c p → sh.Admits c (sh.rebind p))
    (reads
      : ∀ c began loc n p e r, fr = .load c began loc (.envelope n p e r)
        → sh.Admits c { sh.handover (handoverNode e) with ty := sh.cellTy c })
    : frames.Forall (Frame.Typed sh) := by
  cases step with
  | @load c began loc pc _ _ _ step =>
      refine step.typed typed (cells c (bound c rfl)) ?_ ?_
      · intro n i p repays
        exact kept c began loc pc n i p rfl repays
      · rintro n p e r rfl
        exact reads c began loc n p e r rfl
  | pay step => exact step.typed typed
  | into step => exact step.typed typed
  | get step => cases step <;> trivial
  | cool step => cases step <;> trivial
  | dec step => cases step <;> trivial
  | guardDrop step => cases step <;> first | exact typed | trivial
  | swap =>
      have old := cells _ typed.cell
      exact ⟨⟨old.typed, trivial⟩, trivial⟩
  | casExchange => exact ⟨⟨typed.2.typed, trivial⟩, typed⟩
  | casRetry => exact ⟨typed.2.typed, typed.1, trivial⟩
  | cacheHit => exact typed.1
  | cacheMiss => exact ⟨trivial, trivial, typed.1, trivial⟩
  | intoFree => exact typed
  | _ => trivial

theorem CallStep.typed (step : CallStep s tls rest δ)
    (cells : ∀ c < s.sh.nCells, s.sh.Admits c (s.sh.ptr c))
    (bound : ∀ c, s.sh.status c = .live → c < s.sh.nCells)
    (vals : ∀ v u, s.vals v = some u → u.ptr.Typed s.sh)
    : δ.new.Forall (Frame.Typed s.sh) := by
  cases step with
  | dropHandle val | dropGuard val => exact vals _ _ val
  | start _ entry => cases entry <;> trivial
  | @startWith c v p frames val ty live entry =>
      have admits : s.sh.Admits c p := ⟨bound c live, ty, vals _ _ val⟩
      cases entry with
      | swap => exact admits
      | store => exact ⟨admits, trivial⟩
      | cas => exact ⟨trivial, admits, trivial⟩
      | cache => exact ⟨admits.typed, trivial⟩
  | guardIntoInner val =>
      have typed := vals _ _ val
      exact ⟨typed, typed⟩
  | @intoInner c addr live =>
      have cell := bound c live
      exact ⟨⟨(cells c cell).typed, trivial⟩, cell⟩
  | @dropCell c live => exact ⟨⟨(cells c (bound c live)).typed, trivial⟩, trivial⟩
  | closureRet val => exact vals _ _ val
  | exit => cases node : tls.node <;> trivial
  | _ => trivial

theorem incAct_typed {p : Ptr} : (incAct p).Typed sh := by
  unfold incAct
  split <;> trivial

/-- What is put into a storage or an envelope has the type of the storage. -/
theorem Move.stores (move : Move cfg s tls rest δ) (typed : δ.old.Forall (Frame.Typed s.sh))
    (vals : ∀ v u, s.vals v = some u → u.ptr.Typed s.sh)
    : δ.act.Typed s.sh := by
  cases move with
  | frame step =>
      cases step with
      | swap => exact typed
      | casExchange => exact typed.1
      | get step => cases step <;> trivial
      | cool step => cases step <;> trivial
      | dec step => cases step <;> trivial
      | into step => cases step <;> first | exact incAct_typed | trivial
      | guardDrop step => cases step <;> trivial
      | load step => cases step <;> first | exact incAct_typed | trivial
      | pay step =>
          cases step with
          | handOver => exact typed.2
          | inc | bump => exact incAct_typed
          | _ => trivial
      | _ => trivial
  | resume | deliver => trivial
  | call _ step =>
      cases step with
      | new val => exact vals _ _ val
      | clone | cloneArg => exact incAct_typed
      | _ => trivial

-----------------------------------------------------------------------------------------
-- Results of closures
-----------------------------------------------------------------------------------------

/-- The frame is a closure for pointers of this type, or its result. -/
def Frame.Yields (ty : Nat) : Frame → Prop
  | .closure p => p.ty = ty
  | .ret _ (.ptr q) => q.ty = ty
  | .ret _ _ => True
  | _ => False

/-- An `rcu` that waits for its closure gets a value of the type of its storage. -/
def Frame.Feeds (sh : Shared) (fr : Frame) : List Frame → Prop
  | .rcu c _ (.closureWait _ _) :: _ => c < sh.nCells ∧ fr.Yields (sh.cellTy c)
  | _ => True

def StackFed (sh : Shared) : List Frame → Prop
  | [] => True
  | fr :: rest => fr.Feeds sh rest ∧ StackFed sh rest

/-- The frame is not an `rcu` that waits for its closure. -/
def Frame.Sated : Frame → Prop
  | .rcu _ _ (.closureWait _ _) => False
  | _ => True

theorem Frame.Feeds.after {fr : Frame} {rest} (feeds : fr.Feeds sh rest) (act : Act)
    : fr.Feeds (sh.after act) rest := by
  unfold Feeds at feeds ⊢
  split at feeds
  · obtain ⟨cell, yields⟩ := feeds
    have ty : (sh.after act).cellTy _ = _ := act.cellTy sh cell
    exact ⟨Nat.lt_of_lt_of_le cell (act.nCells_le sh), ty ▸ yields⟩
  · trivial

theorem StackFed.after {stack : List Frame} (fed : StackFed sh stack) (act : Act)
    : StackFed (sh.after act) stack := by
  induction stack with
  | nil => trivial
  | cons fr rest ih => exact ⟨fed.1.after act, ih fed.2⟩

theorem Frame.Feeds.sated {fr fr' : Frame} {rest} (feeds : fr.Feeds sh rest)
    (other : ∀ ty, ¬ fr.Yields ty)
    : fr'.Feeds sh rest := by
  unfold Feeds at feeds ⊢
  split at feeds
  · exact absurd feeds.2 (other _)
  · trivial

theorem Frame.Sated.feeds {fr : Frame} (sated : fr.Sated) {above : Frame} {rest}
    : above.Feeds sh (fr :: rest) := by
  unfold Feeds
  split
  · rename_i eq
    cases eq
    exact sated.elim
  · trivial

/-- Frames that wait for no closure can be put where any frame may be. -/
theorem StackFed.push {new rest : List Frame} (sated : new.Forall Frame.Sated)
    (any : ∀ fr : Frame, fr.Feeds sh rest) (fed : StackFed sh rest)
    : StackFed sh (new ++ rest) := by
  induction new with
  | nil => exact fed
  | cons fr below ih =>
      rw [List.forall_cons] at sated
      refine ⟨?_, ih sated.2⟩
      cases below with
      | nil => exact any fr
      | cons next others =>
          rw [List.forall_cons] at sated
          exact Frame.Sated.feeds sated.2.1

theorem finishLoad_sated {now g} : (finishLoad c began now loc g).Forall Frame.Sated := by
  cases loc with
  | tls => trivial
  | tmp node => cases node <;> trivial

theorem FrameStep.sated {fr act tls' frames} (step : FrameStep cfg sh tls fr act tls' frames)
    : frames.Forall Frame.Sated := by
  cases step with
  | load step =>
      cases step with
      | confirmed | alreadyPaid | ownPaid | unusedPaid => exact finishLoad_sated
      | _ => trivial
  | pay step =>
      cases step with
      | help _ dispatch | again _ dispatch => cases dispatch <;> trivial
      | _ => trivial
  | into step => cases step <;> trivial
  | get step => cases step <;> trivial
  | cool step => cases step <;> trivial
  | dec step => cases step <;> trivial
  | guardDrop step => cases step <;> trivial
  | _ => trivial

theorem UnwindStep.sated {caller frames} (step : UnwindStep sh caller frames)
    : frames.Forall Frame.Sated := by
  cases step <;> trivial

/-- Frames that move have no closure or result in hand. -/
theorem FrameStep.idle {fr act tls' frames}
    (step : FrameStep cfg sh tls fr act tls' frames) (ty : Nat)
    : ¬ fr.Yields ty := by
  cases step <;> exact id

theorem ResumeStep.idle {caller v frames} (step : ResumeStep sh caller v frames) (ty : Nat)
    : ¬ caller.Yields ty := by
  cases step with
  | unwind step => cases step <;> exact id
  | _ => exact id

theorem ResumeStep.fed {spec caller v frames} (step : ResumeStep sh caller v frames)
    (accepts : caller.accepts (v.answer spec)) (result : v.Typed sh spec) (typed : caller.Typed sh)
    (fed : StackFed sh (caller :: rest))
    : StackFed sh (frames ++ rest) := by
  have any (fr : Frame) : fr.Feeds sh rest := fed.1.sated step.idle
  have push (sated : frames.Forall Frame.Sated) : StackFed sh (frames ++ rest) :=
    StackFed.push sated any fed.2
  cases step with
  | loadDec => exact push finishLoad_sated
  | loadUnwind step | unwind step => exact push step.sated
  | payLost dispatch => cases dispatch <;> exact push (by trivial)
  | @payDec c p since loc =>
      cases loc with
      | tls => exact push (by trivial)
      | tmp node => cases node <;> exact push (by trivial)
  | @rcuLoad c op began cur =>
      have spec_eq
          : Answer.prot spec = .prot (.load c began) ∨ Answer.prot spec = .unwind := accepts
      rcases spec_eq with eq | eq <;> cases eq
      have admits : sh.Admits c cur.ptr := result
      exact ⟨⟨admits.cell, admits.ty⟩, any _, fed.2⟩
  | @rcuAgain c op prev =>
      have admits : sh.Admits c prev.ptr := typed
      exact ⟨⟨admits.cell, admits.ty⟩, any _, fed.2⟩
  | _ => exact push (by trivial)

theorem belowUser.feeds (below : belowUser rest) (fr : Frame) : fr.Feeds sh rest := by
  unfold Frame.Feeds
  split
  · cases below
  · trivial

theorem CallStep.fed (step : CallStep s tls rest δ) (below : δ.old = [] → belowUser rest)
    (fed : StackFed sh (δ.old ++ rest))
    : StackFed sh (δ.new ++ rest) := by
  have push (none : δ.old = []) (sated : δ.new.Forall Frame.Sated)
      : StackFed sh (δ.new ++ rest) := by
    rw [none] at fed
    exact StackFed.push sated (below none).feeds fed
  cases step with
  | start _ entry | startWith _ _ _ entry => cases entry <;> exact push rfl (by trivial)
  | closureRet _ ty =>
      refine ⟨?_, fed.2⟩
      have feeds := fed.1
      unfold Frame.Feeds at feeds ⊢
      split at feeds
      · exact ⟨feeds.1, ty.trans feeds.2⟩
      · trivial
  | closurePanic =>
      refine ⟨?_, fed.2⟩
      have feeds := fed.1
      unfold Frame.Feeds at feeds ⊢
      split at feeds
      · exact ⟨feeds.1, trivial⟩
      · trivial
  | destructorRet => exact ⟨fed.1.sated fun _ => id, fed.2⟩
  | exit =>
      refine push rfl ?_
      cases node : tls.node <;> trivial
  | _ => exact push rfl (by trivial)

theorem Move.fed (move : Move cfg s tls rest δ) (linked : StackOk (δ.old ++ rest))
    (typed : δ.old.Forall (Frame.Typed s.sh)) (fed : StackFed s.sh (δ.old ++ rest))
    : StackFed s.sh (δ.new ++ rest) := by
  cases move with
  | frame step => exact StackFed.push step.sated (fun fr => fed.1.sated step.idle) fed.2
  | resume _ step => exact step.fed linked.1 typed.1 typed.2 fed.2
  | deliver => exact fed.2
  | call below step => exact step.fed below fed

end step

-----------------------------------------------------------------------------------------
-- Every run
-----------------------------------------------------------------------------------------

/-- A load that finds a debt paid, for a pointer it does not return, does so before the address
is given to an object of another type.
-/
def KeepsTypes (s : State) (l : Label) : Prop :=
  ∀ c began loc pc rest n i p o, (s.thr l.thread).stack = .load c began loc pc :: rest
    → pc.repays = some (n, i, p) → s.sh.slot n i ≠ p.addr → s.sh.heap p.addr = some o
    → o.id ≠ p.prov → o.ty = p.ty

/-- Frames, values, storages and hand-overs have the types of their objects. -/
structure State.Typed (s : State) : Prop where
  numbered : s.sh.Numbered
  frames : ∀ t < s.nThr, ∀ fr ∈ (s.thr t).stack, fr.Typed s.sh
  fed : ∀ t < s.nThr, StackFed s.sh (s.thr t).stack
  vals : ∀ v u, s.vals v = some u → u.ptr.Typed s.sh
  cells : ∀ c < s.sh.nCells, s.sh.Admits c (s.sh.ptr c)
  helps : ∀ m, ∀ r ∈ s.sh.helps m, s.sh.Admits r.cell r.val

section runs

variable {cfg : Config} {s : State} {t : ThreadId} {δ : Change} {rest : List Frame} {c : CellId}
  {began : Nat} {loc : Loc}

theorem State.Typed.init (n : Nat) : (State.init n).Typed where
  numbered := ⟨Nat.one_pos, fun a o there => by simp [State.init, Shared.init] at there⟩
  frames t member fr inside := by simp [State.init, Thread.init] at inside
  fed t member := trivial
  vals v u val := by simp [State.init] at val
  cells c inside := by simp [State.init, Shared.init] at inside
  helps m r inside := by simp [State.init, Shared.init] at inside

/-- What a reader finds in its envelope has the type of its storage. -/
theorem State.Typed.reads (typed : s.Typed) (help : HelpInv s.sh s.tokens) (member : t < s.nThr)
    {m p e r} (inside : .load c began loc (.envelope m p e r) ∈ (s.thr t).stack)
    : s.sh.Admits c { s.sh.handover (handoverNode e) with ty := s.sh.cellTy c } := by
  have held
      : .session m (.helped c p e r) ∈ (Frame.load c began loc (.envelope m p e r)).tokens := by
    simp [Frame.tokens, LoadPc.tokens]
  have there : .session m (.helped c p e r) ∈ s.tokens :=
    State.mem_shares_of_frame (S := tokenShare) member inside held
  obtain ⟨_, addr, prov⟩ := help.envelope member inside held
  obtain ⟨given, only, rfl, addr', prov'⟩ :=
    help.hands.all m (some (.helped c p e r)) (mem_sessions.mpr there)
  have admits := typed.helps m given (only ▸ List.mem_singleton_self given)
  exact admits.alike ⟨addr.trans addr', prov.trans prov'⟩

/-- What the storages hold after one step. -/
theorem State.Typed.cells_after (typed : s.Typed) (act : Act) (stores : act.Typed s.sh)
    : ∀ c < (s.sh.after act).nCells, (s.sh.after act).Admits c ((s.sh.after act).ptr c) := by
  intro c inside
  have keep (inside : c < s.sh.nCells) : (s.sh.after act).Admits c (s.sh.ptr c) :=
    (typed.cells c inside).after act
  cases act with
  | write d op p =>
      have admits : (s.sh.after (.write d op p)).Admits d p := Shared.Admits.after stores _
      show (s.sh.after (.write d op p)).Admits c (Function.update s.sh.ptr d p c)
      by_cases eq : c = d
      · rw [eq, Function.update_self]
        exact admits
      · rw [Function.update_of_ne eq]
        exact keep inside
  | newCell p a useFast =>
      show (s.sh.after (.newCell p a useFast)).Admits c (Function.update s.sh.ptr s.sh.nCells p c)
      by_cases eq : c = s.sh.nCells
      · rw [eq, Function.update_self]
        refine ⟨Nat.lt_succ_self _, ?_, Ptr.Typed.after stores _⟩
        exact (Function.update_self s.sh.nCells p.ty s.sh.cellTy).symm
      · rw [Function.update_of_ne eq]
        have below : c < s.sh.nCells + 1 := inside
        exact keep (by omega)
  | _ => exact keep inside

/-- What user code gets has the type of its object. -/
theorem State.Typed.given (typed : s.Typed) (member : t < s.nThr)
    (top : (s.thr t).stack = δ.old ++ rest) (move : Move cfg s (s.thr t).tls rest δ) {u}
    (given : δ.given = some u)
    : u.ptr.Typed (s.sh.after δ.act) := by
  have numbered := typed.numbered
  cases move with
  | frame | resume => cases given
  | @deliver spec v below =>
      have result : v.Typed s.sh spec := typed.frames t member (.ret spec v) (by simp [top])
      cases v <;> cases given <;> exact (Spec.Typed.ptr result).after _
  | call _ step =>
      cases step with
      | @alloc addr ty =>
          cases given
          refine ⟨Nat.lt_succ_self _, fun o there _ => ?_⟩
          have there : Function.update s.sh.heap addr (some ⟨s.sh.nextId, ty, 1⟩) addr
            = some o := there
          rw [Function.update_self] at there
          cases there
          rfl
      | null =>
          cases given
          refine ⟨numbered.started, fun o there id => ?_⟩
          exact absurd id (Nat.ne_of_gt (numbered.object 0 o there).1)
      | clone val =>
          cases given
          exact (typed.vals _ _ val).after _
      | guardFromInner val =>
          cases given
          exact Ptr.Typed.after (typed.vals _ _ val) _
      | @cloneArg p below =>
          cases given
          have inside : .closure p ∈ (s.thr t).stack := by
            rw [top]
            exact List.mem_of_mem_head? below
          exact Ptr.Typed.after (typed.frames t member _ inside) _
      | _ => cases given

/-- Replacements have the type of the storage that they were loaded from. -/
theorem State.Typed.helps_after (typed : s.Typed) (act : Act) (stores : act.Typed s.sh)
    : ∀ m, ∀ r ∈ (s.sh.after act).helps m, (s.sh.after act).Admits r.cell r.val := by
  intro m r inside
  have keep (inside : r ∈ s.sh.helps m) : (s.sh.after act).Admits r.cell r.val :=
    (typed.helps m r inside).after act
  cases act with
  | publish n gen =>
      simp only [Shared.after, Act.exec, Function.update_apply] at inside
      split at inside
      · cases inside
      · exact keep inside
  | handOver who self mine given =>
      simp only [Shared.after, Act.exec, Function.update_apply] at inside
      split at inside
      · rcases List.mem_cons.mp inside with rfl | before
        · exact Shared.Admits.after stores _
        · subst m
          exact keep before
      · exact keep inside
  | _ => exact keep inside

theorem State.Typed.after (typed : s.Typed) (ok : s.TxOk) (help : HelpInv s.sh s.tokens)
    (member : t < s.nThr) (top : (s.thr t).stack = δ.old ++ rest)
    (move : Move cfg s (s.thr t).tls rest δ)
    (keeps
      : ∀ c began loc pc n i p o, δ.old = [.load c began loc pc] → pc.repays = some (n, i, p)
        → s.sh.slot n i ≠ p.addr → s.sh.heap p.addr = some o → o.id ≠ p.prov
          → o.ty = p.ty)
    : (s.after t δ rest).Typed := by
  have old := State.old_of_stacks (typed.frames t member) top
  have linked : StackOk (δ.old ++ rest) := top ▸ (ok.pool.disciplined t).linked
  have fed : StackFed s.sh (δ.old ++ rest) := top ▸ typed.fed t member
  have stores := move.stores old typed.vals
  have bound (c) (live : s.sh.status c = .live) : c < s.sh.nCells :=
    ok.tx.cells.bound c (by simp [live])
  have new : δ.new.Forall (Frame.Typed s.sh) := by
    cases move with
    | @frame fr act tls' frames step =>
        have inside : fr ∈ (s.thr t).stack := top ▸ List.mem_cons_self
        refine step.typed old typed.cells ?_ ?_ ?_
        · intro c uses
          refine bound c (((ok.calm t member).frame inside ?_).live c uses)
          rintro spec rfl
          cases uses
        · rintro c began loc pc n i p rfl repays other admits
          refine admits.rebind typed.numbered ?_
          intro o there
          exact keeps c began loc pc n i p o rfl repays other there
        · rintro c began loc n p e r rfl
          exact typed.reads help member inside
    | @resume spec v caller frames waits step =>
        refine step.typed linked.1 old.1 old.2 typed.cells ?_
        rintro c op cur calls new rfl rfl
        exact fed.1.2
    | deliver => trivial
    | call _ step => exact step.typed typed.cells bound typed.vals
  refine ⟨typed.numbered.after δ.act, ?_, ?_, ?_, ?_, ?_⟩
  · refine State.stacks_after ?_ (new.imp fun fr typed => typed.after δ.act)
    intro t' member' fr inside
    refine (typed.frames t' member' fr ?_).after δ.act
    rcases inside with ⟨rfl, below⟩ | ⟨_, there⟩
    · exact top ▸ List.mem_append_right _ below
    · exact there
  · intro t' member'
    rw [State.after_nThr] at member'
    rw [State.after_thr, Function.update_apply]
    split
    · exact (move.fed linked old fed).after δ.act
    · exact (typed.fed t' member').after δ.act
  · intro v u val
    rcases State.after_vals val with before | given
    · exact (typed.vals v u before).after δ.act
    · exact typed.given member top move given
  · exact typed.cells_after δ.act stores
  · exact typed.helps_after δ.act stores

theorem typed_of_reaches
    (reached : Reaches (step cfg) (fun s l => Careful cfg s l ∧ KeepsTypes s l) (State.init n) s)
    : s.Typed := by
  refine reached.invariant (.init n) fun s l s' before typed allowed taken => ?_
  have careful := before.mono fun _ _ => And.left
  have ok := txOk_of_reaches (fun _ _ => And.left) careful
  obtain ⟨δ, rest, member, top, move, rfl⟩ := step_moves taken
  refine typed.after ok (help_of_reaches careful) member top move ?_
  intro c began loc pc n i p o old
  exact allowed.2 c began loc pc rest n i p o (by rw [top, old]; rfl)

/-- A pointer that is passed to `T::inc` or `T::dec` has the type of its object. -/
theorem State.Typed.counts (typed : s.Typed) {l p} (member : l.thread < s.nThr)
    (counts : s.counts l = some p)
    : p.Typed s.sh := by
  cases l with
  | run t spurious =>
      obtain ⟨fr, top, counts⟩ := Option.bind_eq_some_iff.mp counts
      have fine : fr.Typed s.sh := typed.frames t member fr (List.mem_of_mem_head? top)
      cases fr with
      | dec =>
          cases counts
          exact fine
      | into g spec pc =>
          cases pc with
          | inc =>
              obtain ⟨_, _, rfl⟩ := Option.map_eq_some_iff.mp counts
              exact fine.1
          | _ => cases counts
      | load c began loc pc =>
          cases pc with
          | ownInc =>
              cases counts
              exact Shared.Admits.typed fine
          | _ => cases counts
      | pay c q since loc pc =>
          cases pc with
          | inc | bump =>
              cases counts
              exact fine.1
          | _ => cases counts
      | _ => cases counts
  | call t k =>
      cases k with
      | clone v =>
          obtain ⟨u, val, rfl⟩ := Option.map_eq_some_iff.mp counts
          exact typed.vals v u val
      | cloneArg =>
          simp only [State.counts] at counts
          split at counts <;> cases counts
          rename_i rest top
          exact typed.frames t member (.closure p) (top ▸ .head _)
      | _ => cases counts

end runs

/-- In a run in which no load is misled by an address that was given to an object of another type,
whatever is passed to `T::inc` or `T::dec` is a pointer to an object of its own type.
-/
theorem pointees_agree {cfg n s}
    (reached : Reaches (step cfg) (fun s l => Careful cfg s l ∧ KeepsTypes s l) (State.init n) s)
    {l s' p} (taken : step cfg s l = some s') (counts : s.counts l = some p) (real : p.addr ≠ 0)
    : ∃ o, s.sh.heap p.addr = some o ∧ o.ty = p.ty := by
  have careful := reached.mono fun _ _ => And.left
  obtain ⟨o, there, id, _⟩ := alive_of_reaches careful (holds_of_counts taken counts) real
  obtain ⟨_, _, member, _⟩ := step_moves taken
  exact ⟨o, there, ((typed_of_reaches reached).counts member counts).object o there id⟩

/-- Whether a load finds its debt paid for an object of another type, computed. -/
def keepsTypes (s : State) (l : Label) : Bool :=
  match (s.thr l.thread).stack with
  | .load _ _ _ pc :: _ =>
      pc.repays.all fun (n, i, p) =>
        s.sh.slot n i == p.addr || (s.sh.heap p.addr).all fun o => o.id == p.prov || o.ty == p.ty
  | _ => true

theorem keepsTypes_sound {s l} (checked : keepsTypes s l = true) : KeepsTypes s l := by
  intro c began loc pc rest n i p o top repays other there own
  simpa [keepsTypes, top, repays, other, there, own] using checked

/-- The guard of a load that has found its debt paid is dropped. -/
theorem pointees_agree_paid
    : ∃ s : State, s.counts (.run 0 false) = some ⟨16, 0, 1⟩
        ∧ ∃ o, s.sh.heap 16 = some o ∧ o.ty = 0 := by
  let drops : List Label := [.run 0 false, .call 0 (.dropVal 2), .run 0 false]
  have ran
      : (runChecked (step ⟨64, true⟩)
            (fun s l => careful ⟨64, true⟩ s l && keepsTypes s l) (State.init 2)
            (paidSchedule ++ drops)).map
            (fun s => (s.counts (.run 0 false), (step ⟨64, true⟩ s (.run 0 false)).isSome))
          = some (some ⟨16, 0, 1⟩, true) := by
    decide +kernel
  obtain ⟨s, ran, eq⟩ := Option.map_eq_some_iff.mp ran
  simp only [Prod.mk.injEq] at eq
  obtain ⟨counts, moves⟩ := eq
  have reached := reaches_of_runChecked (fun _ _ both => by
    obtain ⟨careful, keeps⟩ := Bool.and_eq_true_iff.mp both
    exact And.intro (careful_sound careful) (keepsTypes_sound keeps)) ran
  obtain ⟨s', taken⟩ := Option.isSome_iff_exists.mp moves
  exact ⟨s, counts, pointees_agree reached taken counts (by decide)⟩

/-- A reader is helped after it has read its candidate. The candidate is destroyed, its address
given to an object of another type, and the reader's slot written and then paid by the writer that
takes this object out of its storage.
-/
def candidateSchedule : List Label :=
  [.call 0 (.alloc 16 0), .call 0 (.new 0 100 false), .call 0 (.load 0)]
    ++ List.replicate 8 (.run 0 false)
    ++ [.call 1 (.alloc 20 0), .call 1 (.store 0 1)]
    ++ List.replicate 57 (.run 1 false)
    ++ [.call 1 .destructorRet, .run 1 false, .call 1 (.alloc 16 1), .call 1 (.new 2 200 true)]
    ++ [.run 0 false, .call 1 (.alloc 24 1), .call 1 (.store 1 3)]
    ++ List.replicate 36 (.run 1 false)
    ++ List.replicate 4 (.run 0 false)

/-- The reader then releases a count of this object, with its own type. -/
theorem candidate_released_untyped
    : ∃ s s' p o, Reaches (step ⟨64, true⟩) (Careful ⟨64, true⟩) (State.init 2) s
        ∧ step ⟨64, true⟩ s (.run 0 false) = some s' ∧ s.counts (.run 0 false) = some p
        ∧ s.sh.heap p.addr = some o ∧ o.ty ≠ p.ty := by
  have ran
      : (runChecked (step ⟨64, true⟩) (careful ⟨64, true⟩)
          (State.init 2) candidateSchedule).map
            (fun s =>
              (s.counts (.run 0 false), s.sh.heap 16,
                (step ⟨64, true⟩ s (.run 0 false)).isSome))
          = some (some ⟨16, 0, 3⟩, some ⟨3, 1, 1⟩, true) := by
    decide +kernel
  obtain ⟨s, ran, eq⟩ := Option.map_eq_some_iff.mp ran
  simp only [Prod.mk.injEq] at eq
  obtain ⟨counts, there, moves⟩ := eq
  obtain ⟨s', taken⟩ := Option.isSome_iff_exists.mp moves
  have reached := reaches_of_runChecked (fun _ _ => careful_sound) ran
  exact ⟨s, s', _, _, reached, taken, counts, there, by decide⟩

end ArcSwap
