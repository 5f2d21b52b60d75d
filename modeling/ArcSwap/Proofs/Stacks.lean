import ArcSwap.Proofs.Steps

/-! The call discipline. What a frame returns is what the frame below waits for, and frames
know the node they work on. This holds in every run, panics included.
-/

namespace ArcSwap

-----------------------------------------------------------------------------------------
-- Answers
-----------------------------------------------------------------------------------------

/-- What a frame gives to the frame below it in the end. -/
inductive Answer
  | unit
  | node
  | ptr (spec : Spec)
  | prot (spec : Spec)
  /-- The result of a call of the closure of `rcu` with `p`. -/
  | closure (p : Ptr)
  /-- The result of an operation that only user code calls. -/
  | user
  | unwind

def Ret.answer (spec : Spec) : Ret → Answer
  | .unit => .unit
  | .node _ _ => .node
  | .ptr _ => .ptr spec
  | .prot _ => .prot spec
  | .unwound => .unwind

def LoadPc.answer (c : CellId) (began : Nat) : LoadPc → Answer
  | .unwind => .unwind
  | _ => .prot (.load c began)

def PayPc.answer (c : CellId) (p : Ptr) (since : Nat) : PayPc → Answer
  | .unwind _ | .abandon _ _ => .unwind
  | _ => .ptr (.walked c p since)

def CasPc.answer (spec : Spec) : CasPc → Answer
  | .unwind => .unwind
  | _ => .prot spec

def Frame.answer : Frame → Answer
  | .ret spec v => v.answer spec
  | .panicked _ => .unwind
  | .closure p => .closure p
  | .destructor _ | .cool _ _ | .dec _ | .guardDrop _ | .storeWait _ => .unit
  | .get _ _ => .node
  | .into _ spec _ => .ptr spec
  | .load c began _ pc => pc.answer c began
  | .loadFull c began => .ptr (.load c began)
  | .pay c p since _ pc => pc.answer c p since
  | .swap _ _ _ | .swapWait _ => .ptr .plain
  | .cas c op cur new pc => pc.answer (.swapped c op cur new)
  | .rcu _ _ _ | .cache _ _ _ => .ptr .plain
  | .cellDrop _ _ | .cellInto _ _ => .user

/-- User code takes any answer but a node or the end of a walk, and it calls no closure. -/
def Answer.toUser : Answer → Prop
  | .node | .closure _ | .ptr (.walked _ _ _) => False
  | _ => True

/-- Callers that wait for nothing but the end of a callee. -/
def Answer.ends : Answer → Prop
  | .unit | .unwind => True
  | _ => False

/-- The answer is the expected one, or a panic. -/
def Answer.is (expected : Answer) (a : Answer) : Prop :=
  a = expected ∨ a = .unwind

def LoadPc.accepts : LoadPc → Answer → Prop
  | .nodeWait, a => a = .node
  | .discardWait _ _, a | .decWait _, a | .coolWait _, a | .unwind, a => a.ends
  | _, _ => False

def PayPc.accepts (c : CellId) : PayPc → Answer → Prop
  | .nodeWait, a => a = .node
  | .replaceWait _ began, a => Answer.is (.ptr (.load c began)) a
  | .lostWait _, a | .decWait, a | .coolWait, a | .unwind _, a => a.ends
  | _, _ => False

def CasPc.accepts (c : CellId) : CasPc → Answer → Prop
  | .loadWait began, a => Answer.is (.prot (.load c began)) a
  | .payWait old, a => (∃ since, a = .ptr (.walked c old.ptr since)) ∨ a = .unwind
  | .exchange _, _ => False
  | _, a => a.ends

def RcuPc.accepts (c : CellId) (op : Nat) : RcuPc → Answer → Prop
  | .loadWait began, a => Answer.is (.prot (.load c began)) a
  | .closureWait cur _, a => a = .closure cur.ptr ∨ Answer.is (.ptr .plain) a
  | .casWait cur new _, a => Answer.is (.prot (.swapped c op cur.ptr.addr new)) a
  | .intoWait _ prev _, a => a = .ptr (.value prev)
  | .doneWait _ _, a | .againWait _ _, a | .unwindWait, a => a.ends

def IntoPc.accepts : IntoPc → Answer → Prop
  | .decWait, a => a.ends
  | _, _ => False

def CachePc.accepts (c : CellId) : CachePc → Answer → Prop
  | .loadWait began, a => Answer.is (.ptr (.load c began)) a
  | .decWait _, a => a.ends
  | .peek, _ => False

/-- The answer of a walk for `c`, or a panic. -/
def Answer.isWalk (c : CellId) (a : Answer) : Prop :=
  (∃ p since, a = .ptr (.walked c p since)) ∨ a = .unwind

def DropPc.accepts (c : CellId) : DropPc → Answer → Prop
  | .payWait, a => a.isWalk c
  | .decWait, a => a.ends
  | .free, _ => False

/-- The answers that a waiting frame can go on with. -/
def Frame.accepts : Frame → Answer → Prop
  | .closure _, a | .destructor _, a => a.toUser
  | .load _ _ _ pc, a => pc.accepts a
  | .loadFull c began, a => Answer.is (.prot (.load c began)) a
  | .into _ _ pc, a => pc.accepts a
  | .pay c _ _ _ pc, a => pc.accepts c a
  | .swapWait c, a => a.isWalk c
  | .storeWait _, a => Answer.is (.ptr .plain) a
  | .cas c _ _ _ pc, a => pc.accepts c a
  | .rcu c op pc, a => pc.accepts c op a
  | .cache c _ pc, a => pc.accepts c a
  | .cellDrop c pc, a => pc.accepts c a
  | .cellInto c p, a => p = none ∧ a.isWalk c
  | .ret _ _, _ | .panicked _, _ | .get _ _, _ | .cool _ _, _ | .dec _, _ | .guardDrop _, _
  | .swap _ _ _, _ => False

/-- The frames below, or user code, accept the answer. -/
def fits : List Frame → Answer → Prop
  | [], a => a.toUser
  | fr :: _, a => fr.accepts a

/-- Every frame answers what the frame below it waits for. -/
def StackOk : List Frame → Prop
  | [] => True
  | fr :: rest => fits rest fr.answer ∧ StackOk rest

section accepting

attribute [local simp] Answer.is Answer.isWalk Answer.ends Answer.toUser LoadPc.accepts
  PayPc.accepts CasPc.accepts RcuPc.accepts IntoPc.accepts CachePc.accepts DropPc.accepts
  Frame.accepts fits StackOk

/-- A panic can reach every frame that waits for a guard. -/
theorem Frame.accepts.unwind_of_prot {fr : Frame} {spec} (h : fr.accepts (.prot spec))
    : fr.accepts .unwind := by
  cases fr with
  | load _ _ _ pc | pay _ _ _ _ pc | cas _ _ _ _ pc | rcu _ _ pc | into _ _ pc
  | cache _ _ pc | cellDrop _ pc => cases pc <;> simp_all
  | _ => simp_all

/-- A panic can reach every frame that waits for the end of a callee. -/
theorem Frame.accepts.unwind_of_unit {fr : Frame} (h : fr.accepts .unit)
    : fr.accepts .unwind := by
  cases fr with
  | load _ _ _ pc | pay _ _ _ _ pc | cas _ _ _ _ pc | rcu _ _ pc | into _ _ pc
  | cache _ _ pc | cellDrop _ pc => cases pc <;> simp_all
  | _ => simp_all

/-- A panic can reach every frame that waits for a pointer, but for the end of `rcu`. -/
theorem Frame.accepts.unwind_of_ptr {fr : Frame} {spec} (h : fr.accepts (.ptr spec))
    (other : ∀ p, spec ≠ .value p)
    : fr.accepts .unwind := by
  cases fr with
  | load _ _ _ pc | pay _ _ _ _ pc | cas _ _ _ _ pc | rcu _ _ pc | into _ _ pc
  | cache _ _ pc | cellDrop _ pc => cases pc <;> simp_all
  | _ => simp_all

/-- A frame that waits for a closure takes its result. -/
theorem Frame.accepts.result {fr : Frame} {p} (h : fr.accepts (.closure p))
    : fr.accepts (.ptr .plain) ∧ fr.accepts .unwind := by
  cases fr with
  | load _ _ _ pc | pay _ _ _ _ pc | cas _ _ _ _ pc | rcu _ _ pc | into _ _ pc
  | cache _ _ pc | cellDrop _ pc => cases pc <;> simp_all
  | _ => simp_all

/-- What only user code calls can answer anything that user code takes. -/
theorem Frame.accepts.of_user {fr : Frame} {a} (h : fr.accepts .user) (fine : a.toUser)
    : fr.accepts a := by
  cases fr with
  | load _ _ _ pc | pay _ _ _ _ pc | cas _ _ _ _ pc | rcu _ _ pc | into _ _ pc
  | cache _ _ pc | cellDrop _ pc => cases pc <;> simp_all
  | _ => simp_all

/-- Who waits for the end of a walk borrows its storage. -/
theorem Frame.accepts.walked {fr : Frame} {c p since}
    (h : fr.accepts (.ptr (.walked c p since)))
    : fr.cell = some c := by
  cases fr with
  | load _ _ _ pc | pay _ _ _ _ pc | cas _ _ _ _ pc | rcu _ _ pc | into _ _ pc
  | cache _ _ pc | cellDrop _ pc => cases pc <;> simp_all [Frame.cell]
  | _ => simp_all [Frame.cell]

/-- Only `rcu` calls a closure. -/
theorem Frame.accepts.closure {fr : Frame} {p} (h : fr.accepts (.closure p))
    : ∃ c op cur calls, fr = .rcu c op (.closureWait cur calls) ∧ cur.ptr = p := by
  cases fr with
  | load _ _ _ pc | pay _ _ _ _ pc | cas _ _ _ _ pc | rcu _ _ pc | into _ _ pc
  | cache _ _ pc | cellDrop _ pc => cases pc <;> simp_all
  | _ => simp_all

end accepting

theorem fits.unwind_of_prot {rest spec} (h : fits rest (.prot spec)) : fits rest .unwind := by
  cases rest with
  | nil => trivial
  | cons fr rest => exact Frame.accepts.unwind_of_prot h

theorem fits.unwind_of_unit {rest} (h : fits rest .unit) : fits rest .unwind := by
  cases rest with
  | nil => trivial
  | cons fr rest => exact Frame.accepts.unwind_of_unit h

theorem fits.unwind_of_ptr {rest spec} (h : fits rest (.ptr spec))
    (other : ∀ p, spec ≠ .value p)
    : fits rest .unwind := by
  cases rest with
  | nil => trivial
  | cons fr rest => exact Frame.accepts.unwind_of_ptr h other

theorem fits.result {rest p} (h : fits rest (.closure p))
    : fits rest (.ptr .plain) ∧ fits rest .unwind := by
  cases rest with
  | nil => exact ⟨trivial, trivial⟩
  | cons fr rest => exact Frame.accepts.result h

theorem fits.of_user {rest a} (h : fits rest .user) (fine : a.toUser) : fits rest a := by
  cases rest with
  | nil => exact fine
  | cons fr rest => exact Frame.accepts.of_user h fine

theorem fits.of_belowUser {rest a} (below : belowUser rest) (fine : a.toUser)
    : fits rest a := by
  cases rest with
  | nil => exact fine
  | cons fr rest =>
      cases fr <;> first | exact fine | cases below

/-- What user code is given is fit for it. -/
theorem fits.toUser {rest a} (fit : fits rest a) (below : belowUser rest) : a.toUser := by
  cases rest with
  | nil => exact fit
  | cons fr rest =>
      cases fr <;> first | exact fit | cases below

-----------------------------------------------------------------------------------------
-- Frames and their nodes
-----------------------------------------------------------------------------------------

/-- The node that a temporary `LocalNode` holds. -/
def Loc.temp : Loc → Option NodeId
  | .tls => none
  | .tmp node => node

/-- The node whose fast slots or control word a load is working on. -/
def LoadPc.cached : LoadPc → Option NodeId
  | .scan n _ _ | .take n _ _ | .recheck n _ _ | .payBack n _ _ | .publish n _ => some n
  | _ => none

/-- The load has not got a node yet, or has given its temporary one away. -/
def LoadPc.bare : LoadPc → Prop
  | .enter | .nodeWait | .discardWait _ _ | .coolWait _ => True
  | _ => False

def PayPc.bare : PayPc → Prop
  | .enter | .nodeWait | .coolWait => True
  | _ => False

/-- What the frame at the top knows about the thread-local node. -/
def Frame.knows (tls : Tls) : Frame → Prop
  | .get false _ => tls.node = none
  | .ret _ (.node n false) => tls.node = some n
  | .load _ _ loc pc => ∀ n, pc.cached = some n → loc.node tls = some n
  | _ => True

/-- What a frame knows about its temporary node, wherever it is in the stack. -/
def Frame.settled : Frame → Prop
  | .load _ _ loc pc => pc.bare → loc.temp = none
  | .pay _ _ _ loc pc => pc.bare → loc.temp = none
  | _ => True

/-- The state of a thread that every step of the thread preserves. -/
structure Thread.Ok (th : Thread) : Prop where
  linked : StackOk th.stack
  knows : ∀ fr rest, th.stack = fr :: rest → fr.knows th.tls
  settled : ∀ fr ∈ th.stack, fr.settled

theorem Thread.ok_cons {tls fr rest}
    : Thread.Ok ⟨tls, fr :: rest⟩
      ↔ (fits rest fr.answer ∧ fr.knows tls ∧ fr.settled)
        ∧ StackOk rest ∧ ∀ fr' ∈ rest, fr'.settled := by
  constructor
  · intro ok
    obtain ⟨⟨fit, linked⟩, knows, settled⟩ := ok
    exact ⟨⟨fit, knows _ _ rfl, settled _ (by simp)⟩, linked,
      fun fr' inside => settled _ (by simp [inside])⟩
  · rintro ⟨⟨fit, knows, settled⟩, linked, below⟩
    refine ⟨⟨fit, linked⟩, ?_, ?_⟩
    · rintro _ _ ⟨⟩
      exact knows
    · intro fr' inside
      rcases List.mem_cons.mp inside with rfl | inside
      · exact settled
      · exact below _ inside

theorem GetStep.ok {sh tls tmp pc act tls' frames rest}
    (step : GetStep sh tls tmp pc act tls' frames)
    (ok : Thread.Ok ⟨tls, .get tmp pc :: rest⟩)
    : Thread.Ok ⟨tls', frames ++ rest⟩ := by
  obtain ⟨⟨fit, knows, -⟩, linked, below⟩ := Thread.ok_cons.mp ok
  have found {n} : Thread.Ok ⟨if tmp then tls else { tls with node := some n },
      .ret .plain (.node n tmp) :: rest⟩ := by
    refine Thread.ok_cons.mpr ⟨⟨fit, ?_, trivial⟩, linked, below⟩
    cases tmp
    · rfl
    · trivial
  have same {pc'} : Thread.Ok ⟨tls, .get tmp pc' :: rest⟩ :=
    Thread.ok_cons.mpr ⟨⟨fit, by cases tmp <;> exact knows, trivial⟩, linked, below⟩
  cases step
  case claim | link => exact found
  all_goals exact same

theorem CoolStep.ok {sh tls n pc act frames rest} (step : CoolStep sh n pc act frames)
    (ok : Thread.Ok ⟨tls, .cool n pc :: rest⟩)
    : Thread.Ok ⟨tls, frames ++ rest⟩ := by
  obtain ⟨⟨fit, -, -⟩, linked, below⟩ := Thread.ok_cons.mp ok
  cases step
  case notUsed =>
    exact Thread.ok_cons.mpr ⟨⟨fit.unwind_of_unit, trivial, trivial⟩, linked, below⟩
  all_goals exact Thread.ok_cons.mpr ⟨⟨fit, trivial, trivial⟩, linked, below⟩

/-- A callee that ends is put above its caller. -/
theorem Thread.Ok.push {tls f caller rest} (ok : Thread.Ok ⟨tls, caller :: rest⟩)
    (fit : caller.accepts f.answer) (knows : f.knows tls) (settled : f.settled)
    : Thread.Ok ⟨tls, f :: caller :: rest⟩ := by
  obtain ⟨⟨fit', -, settled'⟩, linked, below⟩ := Thread.ok_cons.mp ok
  refine Thread.ok_cons.mpr ⟨⟨fit, knows, settled⟩, ⟨fit', linked⟩, ?_⟩
  intro fr' inside
  rcases List.mem_cons.mp inside with rfl | inside
  · exact settled'
  · exact below _ inside

theorem DecStep.ok {sh tls p act frames rest} (step : DecStep sh p act frames)
    (ok : Thread.Ok ⟨tls, .dec p :: rest⟩)
    : Thread.Ok ⟨tls, frames ++ rest⟩ := by
  obtain ⟨⟨fit, -, -⟩, linked, below⟩ := Thread.ok_cons.mp ok
  cases step
  all_goals exact Thread.ok_cons.mpr ⟨⟨fit, trivial, trivial⟩, linked, below⟩

theorem IntoStep.ok {sh tls g spec pc act frames rest}
    (step : IntoStep sh g spec pc act frames)
    (ok : Thread.Ok ⟨tls, .into g spec pc :: rest⟩)
    : Thread.Ok ⟨tls, frames ++ rest⟩ := by
  obtain ⟨⟨fit, -, -⟩, linked, below⟩ := Thread.ok_cons.mp ok
  have same {pc'} : Thread.Ok ⟨tls, .into g spec pc' :: rest⟩ :=
    Thread.ok_cons.mpr ⟨⟨fit, trivial, trivial⟩, linked, below⟩
  cases step
  case inc => exact same
  case wasPaid => exact same.push trivial trivial trivial
  all_goals exact Thread.ok_cons.mpr ⟨⟨fit, trivial, trivial⟩, linked, below⟩

theorem GuardDropStep.ok {sh tls g act frames rest} (step : GuardDropStep sh g act frames)
    (ok : Thread.Ok ⟨tls, .guardDrop g :: rest⟩)
    : Thread.Ok ⟨tls, frames ++ rest⟩ := by
  obtain ⟨⟨fit, -, -⟩, linked, below⟩ := Thread.ok_cons.mp ok
  cases step
  all_goals exact Thread.ok_cons.mpr ⟨⟨fit, trivial, trivial⟩, linked, below⟩

@[simp]
theorem Loc.node_setOffset (loc : Loc) (tls : Tls) (v : Nat)
    : loc.node (loc.setOffset tls v) = loc.node tls := by
  cases loc <;> rfl

@[simp]
theorem Loc.node_setGeneration (loc : Loc) (tls : Tls) (v : Nat)
    : loc.node (loc.setGeneration tls v) = loc.node tls := by
  cases loc <;> rfl

theorem finishLoad_ok {tls c began now loc g rest} (fit : fits rest (.prot (.load c began)))
    (linked : StackOk rest) (below : ∀ fr ∈ rest, fr.settled)
    : Thread.Ok ⟨tls, finishLoad c began now loc g ++ rest⟩ := by
  unfold finishLoad
  split
  · have waits
        : Thread.Ok ⟨tls, .load c began (.tmp none)
            (.coolWait { g with src := some ⟨c, began, now⟩ }) :: rest⟩ :=
      Thread.ok_cons.mpr ⟨⟨fit, nofun, fun _ => rfl⟩, linked, below⟩
    exact waits.push trivial trivial trivial
  · exact Thread.ok_cons.mpr ⟨⟨fit, trivial, trivial⟩, linked, below⟩

theorem LoadStep.ok {cfg sh tls c began loc pc act tls' frames rest}
    (step : LoadStep cfg sh tls c began loc pc act tls' frames)
    (ok : Thread.Ok ⟨tls, .load c began loc pc :: rest⟩)
    : Thread.Ok ⟨tls', frames ++ rest⟩ := by
  obtain ⟨⟨fit, knows, settled⟩, linked, below⟩ := Thread.ok_cons.mp ok
  have fit : fits rest (.prot (.load c began)) := by
    cases step <;> first | exact fit | cases pc <;> first | exact fit | simp_all
  have goto {tls' loc'} {q : LoadPc} (answer : q.answer c began = .prot (.load c began))
      (knows' : ∀ n, q.cached = some n → loc'.node tls' = some n)
      (bare : q.bare → loc'.temp = none)
      : Thread.Ok ⟨tls', .load c began loc' q :: rest⟩ := by
    refine Thread.ok_cons.mpr ⟨⟨?_, ?_, ?_⟩, linked, below⟩
    · simpa only [Frame.answer, answer] using fit
    · exact knows'
    · exact bare
  have panic {tls' site}
      : Thread.Ok ⟨tls', .panicked site :: .load c began loc .unwind :: rest⟩ := by
    have unwind : Thread.Ok ⟨tls', .load c began loc .unwind :: rest⟩ :=
      Thread.ok_cons.mpr ⟨⟨fit.unwind_of_prot, nofun, nofun⟩, linked, below⟩
    exact unwind.push trivial trivial trivial
  cases step with
  | enter => exact goto (by split <;> rfl) (by split <;> nofun) (by split <;> nofun)
  | enterGet alive none =>
      exact (goto (q := .nodeWait) rfl nofun fun _ => rfl).push rfl none trivial
  | enterTmp => exact (goto (q := .nodeWait) rfl nofun fun _ => rfl).push rfl trivial trivial
  | noNode | takePanic | announcePanic | publishPanic | fillPanic | helpedPanic => exact panic
  | first node => exact goto rfl (fun _ h => by cases h; exact node) nofun
  | scanFree | scanNext | changed => exact goto rfl (fun _ h => knows _ h) nofun
  | take => exact goto rfl (fun _ h => by simpa using knows _ h) nofun
  | confirmed | alreadyPaid | ownPaid | unusedPaid => exact finishLoad_ok fit linked below
  | announce node => exact goto rfl (fun _ h => by cases h; simpa using node) nofun
  | publishWrapped =>
      exact (goto (q := .discardWait _ _) rfl nofun fun _ => rfl).push trivial trivial trivial
  | publishWrappedTmp =>
      exact (goto (q := .discardWait _ _) rfl nofun fun _ => rfl).push trivial trivial trivial
  | ownWasPaid =>
      exact (goto (q := .decWait _) rfl nofun nofun).push trivial trivial trivial
  | unusedWasPaid =>
      exact (goto (q := .decWait _) rfl nofun nofun).push trivial trivial trivial
  | scanFull | paidBack | publish | candidate | fill | unhelped | helped | ownInc
  | envelope | restore => exact goto rfl nofun nofun

section pay

variable {tls : Tls} {c : CellId} {p : Ptr} {since : Nat} {rest : List Frame}

/-- A walk goes on with any frame that gives the same answer. -/
theorem Thread.Ok.pay {loc pc} (fit : fits rest (.ptr (.walked c p since)))
    (linked : StackOk rest) (below : ∀ fr ∈ rest, fr.settled)
    (answer : pc.answer c p since = .ptr (.walked c p since)) (bare : pc.bare → loc.temp = none)
    : Thread.Ok ⟨tls, .pay c p since loc pc :: rest⟩ := by
  refine Thread.ok_cons.mpr ⟨⟨?_, trivial, bare⟩, linked, below⟩
  simpa only [Frame.answer, answer] using fit

/-- A walk panics. -/
theorem Thread.Ok.payPanic {loc site n} (fit : fits rest (.ptr (.walked c p since)))
    (linked : StackOk rest) (below : ∀ fr ∈ rest, fr.settled)
    : Thread.Ok ⟨tls, .panicked site :: .pay c p since loc (.unwind n) :: rest⟩ := by
  have unwind : Thread.Ok ⟨tls, .pay c p since loc (.unwind n) :: rest⟩ :=
    Thread.ok_cons.mpr ⟨⟨fit.unwind_of_ptr nofun, trivial, nofun⟩, linked, below⟩
  exact unwind.push trivial trivial trivial

theorem Dispatch.ok {loc h frames} (step : Dispatch c p since loc h frames)
    (fit : fits rest (.ptr (.walked c p since))) (linked : StackOk rest)
    (below : ∀ fr ∈ rest, fr.settled)
    : Thread.Ok ⟨tls, frames ++ rest⟩ := by
  cases step with
  | active | slots => exact .pay fit linked below rfl nofun
  | invalid => exact .payPanic fit linked below

theorem PayPc.answer_at (n : Option NodeId)
    : (PayPc.at n).answer c p since = .ptr (.walked c p since) := by
  cases n <;> rfl

theorem PayPc.answer_nextSlot (n : NodeId) (period j : Nat)
    : (PayPc.nextSlot n period j).answer c p since = .ptr (.walked c p since) := by
  unfold PayPc.nextSlot
  split <;> rfl

theorem PayPc.not_bare_at (n : Option NodeId) : ¬ (PayPc.at n).bare := by
  cases n <;> exact id

theorem PayPc.not_bare_nextSlot (n : NodeId) (period j : Nat)
    : ¬ (PayPc.nextSlot n period j).bare := by
  unfold PayPc.nextSlot
  split <;> exact id

theorem PayStep.ok {cfg sh loc pc act frames}
    (step : PayStep cfg sh tls c p since loc pc act frames)
    (ok : Thread.Ok ⟨tls, .pay c p since loc pc :: rest⟩)
    : Thread.Ok ⟨tls, frames ++ rest⟩ := by
  obtain ⟨⟨fit, -, -⟩, linked, below⟩ := Thread.ok_cons.mp ok
  cases step with
  | abandon =>
      have unwind {loc} : Thread.Ok ⟨tls, .pay c p since loc (.unwind none) :: rest⟩ :=
        Thread.ok_cons.mpr ⟨⟨fit, trivial, nofun⟩, linked, below⟩
      exact unwind.push trivial trivial trivial
  | enter => exact .pay fit linked below rfl fun _ => rfl
  | enterGet alive none =>
      have wait : Thread.Ok ⟨tls, .pay c p since .tls .nodeWait :: rest⟩ :=
        .pay fit linked below rfl fun _ => rfl
      exact wait.push rfl none trivial
  | enterTmp =>
      have wait : Thread.Ok ⟨tls, .pay c p since (.tmp none) .nodeWait :: rest⟩ :=
        .pay fit linked below rfl fun _ => rfl
      exact wait.push rfl trivial trivial
  | noNode | helpPanic | helpMyself | envelopeTag => exact .payPanic fit linked below
  | help _ dispatch | again _ dispatch => exact dispatch.ok fit linked below
  | @agrees h =>
      have wait : Thread.Ok ⟨tls, .pay c p since loc (.replaceWait h sh.time) :: rest⟩ :=
        .pay fit linked below rfl nofun
      have full := wait.push (f := .loadFull c sh.time) (Or.inl rfl) trivial trivial
      exact full.push (f := .load _ _ .tls .enter) (Or.inl rfl) nofun fun _ => rfl
  | @lost h =>
      have wait
          : Thread.Ok ⟨tls, .pay c p since loc
              (.lostWait
                { h with control := sh.control h.who, seen := sh.time, pass := h.pass + 1 })
              :: rest⟩ :=
        .pay fit linked below rfl nofun
      exact wait.push trivial trivial trivial
  | dropVal =>
      have wait {loc} : Thread.Ok ⟨tls, .pay c p since loc .decWait :: rest⟩ :=
        .pay fit linked below rfl nofun
      exact wait.push trivial trivial trivial
  | head | leave =>
      exact .pay fit linked below (PayPc.answer_at _) fun bare => absurd bare (PayPc.not_bare_at _)
  | skip | bump =>
      exact .pay fit linked below (PayPc.answer_nextSlot _ _ _)
        fun bare => absurd bare (PayPc.not_bare_nextSlot _ _ _)
  | inc | reserve | differs | unchanged | theirSpace | mySpace | fillSpace | handOver
  | exchange | settle => exact .pay fit linked below rfl nofun

end pay

theorem FrameStep.ok {cfg sh tls fr act tls' frames rest}
    (step : FrameStep cfg sh tls fr act tls' frames) (ok : Thread.Ok ⟨tls, fr :: rest⟩)
    : Thread.Ok ⟨tls', frames ++ rest⟩ := by
  have same {f : Frame} (answer : f.answer = fr.answer) (knows : f.knows tls')
      (settled : f.settled) : Thread.Ok ⟨tls', f :: rest⟩ := by
    obtain ⟨⟨fit, -, -⟩, linked, below⟩ := Thread.ok_cons.mp ok
    exact Thread.ok_cons.mpr ⟨⟨answer ▸ fit, knows, settled⟩, linked, below⟩
  cases step with
  | get step => exact step.ok ok
  | cool step => exact step.ok ok
  | dec step => exact step.ok ok
  | into step => exact step.ok ok
  | guardDrop step => exact step.ok ok
  | load step => exact step.ok ok
  | pay step => exact step.ok ok
  | panicked | cacheHit => exact same rfl trivial trivial
  | @swap c =>
      have wait := same (f := .swapWait c) rfl trivial trivial
      exact wait.push (f := .pay _ _ _ _ .enter) (Or.inl ⟨_, _, rfl⟩) trivial fun _ => rfl
  | @casExchange c op cur new old =>
      have wait := same (f := .cas c op cur new (.payWait old)) rfl trivial trivial
      exact wait.push (f := .pay _ _ _ _ .enter) (Or.inl ⟨_, rfl⟩) trivial fun _ => rfl
  | @casRetry c op cur new =>
      have wait := same (f := .cas c op cur new .retryWait) rfl trivial trivial
      exact wait.push (f := .guardDrop _) trivial trivial trivial
  | @cacheMiss c p =>
      have wait := same (f := .cache c p (.loadWait sh.time)) rfl trivial trivial
      have full := wait.push (f := .loadFull c sh.time) (Or.inl rfl) trivial trivial
      exact full.push (f := .load _ _ .tls .enter) (Or.inl rfl) nofun fun _ => rfl
  | dropFree | intoFree =>
      obtain ⟨⟨fit, -, -⟩, linked, below⟩ := Thread.ok_cons.mp ok
      exact Thread.ok_cons.mpr ⟨⟨fit.of_user trivial, trivial, trivial⟩, linked, below⟩

theorem UnwindStep.ok {sh tls caller frames rest} (step : UnwindStep sh caller frames)
    (fit : fits rest caller.answer) (linked : StackOk rest)
    (below : ∀ fr ∈ rest, fr.settled)
    : Thread.Ok ⟨tls, frames ++ rest⟩ := by
  have panic {spec} (fit : fits rest .unwind) : Thread.Ok ⟨tls, .ret spec .unwound :: rest⟩ :=
    Thread.ok_cons.mpr ⟨⟨fit, trivial, trivial⟩, linked, below⟩
  have wait {f : Frame} {a : Answer} (answer : f.answer = a) (knows : f.knows tls)
      (settled : f.settled) (fit : fits rest a) : Thread.Ok ⟨tls, f :: rest⟩ :=
    Thread.ok_cons.mpr ⟨⟨answer ▸ fit, knows, settled⟩, linked, below⟩
  cases step with
  | @loadTmp c began n =>
      have wait := wait (f := .load c began (.tmp none) .unwind) rfl nofun nofun fit
      exact wait.push (f := .cool n .reserve) trivial trivial trivial
  | load => exact panic fit
  | loadFull | swap | rcuLoad => exact panic (fit.unwind_of_ptr nofun)
  | store => exact panic fit.unwind_of_unit
  | pay => exact wait rfl trivial nofun fit
  | payHelp => exact wait rfl trivial nofun (fit.unwind_of_ptr nofun)
  | @casLoad c op cur new =>
      have wait := wait (f := .cas c op cur new .unwind) rfl trivial trivial
        fit.unwind_of_prot
      exact wait.push (f := .dec new) trivial trivial trivial
  | @casPay c op cur new old =>
      have wait := wait (f := .cas c op cur new .unwind) rfl trivial trivial
        fit.unwind_of_prot
      exact wait.push (f := .guardDrop old) trivial trivial trivial
  | @rcuCas c op cur =>
      have wait := wait (f := .rcu c op .unwindWait) rfl trivial trivial fit
      exact wait.push (f := .guardDrop cur) trivial trivial trivial
  | cache | cellDrop => exact wait rfl trivial trivial fit
  | @cellInto c =>
      have wait := wait (f := .cellDrop c .payWait) rfl trivial trivial fit
      exact wait.push (f := .pay _ _ _ .tls .enter) (Or.inl ⟨_, _, rfl⟩) trivial fun _ => rfl

theorem ResumeStep.ok {sh tls spec caller v frames rest}
    (step : ResumeStep sh caller v frames)
    (ok : Thread.Ok ⟨tls, .ret spec v :: caller :: rest⟩)
    : Thread.Ok ⟨tls, frames ++ rest⟩ := by
  obtain ⟨-, ⟨fit, linked⟩, all⟩ := Thread.ok_cons.mp ok
  have below : ∀ fr ∈ rest, fr.settled := fun fr inside => all fr (by simp [inside])
  have become {f : Frame} (answer : f.answer = caller.answer) (knows : f.knows tls)
      (settled : f.settled) : Thread.Ok ⟨tls, f :: rest⟩ :=
    Thread.ok_cons.mpr ⟨⟨answer ▸ fit, knows, settled⟩, linked, below⟩
  cases step with
  | @loadNode c _ _ _ tmp =>
      generalize sh.useFast c = fast
      cases tmp <;> cases fast <;> exact become rfl nofun nofun
  | loadDiscard => exact become rfl nofun nofun
  | payReplace => exact become rfl trivial nofun
  | loadDec => exact finishLoad_ok fit linked below
  | loadUnwind step => exact step.ok fit linked below
  | loadCool | into | payCool | swap | casDone | casRejected | casUnwind
  | rcuDone | cacheDone => exact become rfl trivial trivial
  | rcuUnwind =>
      exact Thread.ok_cons.mpr
        ⟨⟨fits.unwind_of_ptr fit nofun, trivial, trivial⟩, linked, below⟩
  | loadFull => exact become rfl trivial trivial
  | payNode => exact become rfl trivial nofun
  | payLost dispatch => exact dispatch.ok fit linked below
  | payDec =>
      rename_i c p since loc
      unfold finishPay
      split
      · have wait := become (f := .pay c p since (.tmp none) .coolWait) rfl trivial
          fun _ => rfl
        exact wait.push (f := .cool _ .reserve) trivial trivial trivial
      · exact become rfl trivial trivial
  | @payUnwindTmp c p since n =>
      have wait := become (f := .pay c p since (.tmp none) (.unwind none)) rfl trivial nofun
      exact wait.push (f := .cool n .reserve) trivial trivial trivial
  | payUnwind => exact become rfl trivial trivial
  | store => exact become rfl trivial trivial
  | @casReject c op cur new _ old =>
      have wait := become (f := .cas c op cur new (.rejectWait old)) rfl trivial trivial
      exact wait.push (f := .dec new) trivial trivial trivial
  | casTry => exact become rfl trivial trivial
  | @casRetry c op cur new =>
      have wait := become (f := .cas c op cur new (.loadWait sh.time)) rfl trivial trivial
      exact wait.push (f := .load _ _ .tls .enter) (Or.inl rfl) nofun fun _ => rfl
  | @casPaid c op cur new old p =>
      have wait := become (f := .cas c op cur new (.decWait old)) rfl trivial trivial
      exact wait.push (f := .dec p) trivial trivial trivial
  | @rcuLoad c op _ cur =>
      have wait := become (f := .rcu c op (.closureWait cur 1)) rfl trivial trivial
      exact wait.push (f := .closure cur.ptr) (Or.inl rfl) trivial trivial
  | @rcuTry c op cur calls new =>
      have wait := become (f := .rcu c op (.casWait cur new calls)) rfl trivial trivial
      have cas := wait.push
        (f := .cas c op cur.ptr.addr new (.loadWait sh.time)) (Or.inl rfl) trivial trivial
      exact cas.push (f := .load _ _ .tls .enter) (Or.inl rfl) nofun fun _ => rfl
  | @rcuPanic c op cur =>
      have wait : Thread.Ok ⟨tls, .rcu c op .unwindWait :: rest⟩ :=
        Thread.ok_cons.mpr ⟨⟨fit, trivial, trivial⟩, linked, below⟩
      exact wait.push (f := .guardDrop cur) trivial trivial trivial
  | @rcuSwapped c op cur _ calls prev =>
      have wait := become (f := .rcu c op (.intoWait cur prev.ptr calls)) rfl trivial trivial
      exact wait.push (f := .into prev _ .inc) rfl trivial trivial
  | @rcuLost c op cur _ calls prev =>
      have wait := become (f := .rcu c op (.againWait prev calls)) rfl trivial trivial
      exact wait.push (f := .guardDrop cur) trivial trivial trivial
  | @rcuInto c op cur _ calls r =>
      have wait := become (f := .rcu c op (.doneWait r calls)) rfl trivial trivial
      exact wait.push (f := .guardDrop cur) trivial trivial trivial
  | @rcuAgain c op prev calls =>
      have wait := become (f := .rcu c op (.closureWait prev (calls + 1))) rfl trivial trivial
      exact wait.push (f := .closure prev.ptr) (Or.inl rfl) trivial trivial
  | @cacheLoad c p _ r =>
      have wait := become (f := .cache c p (.decWait r)) rfl trivial trivial
      exact wait.push (f := .dec p) trivial trivial trivial
  | @dropPaid c p =>
      have wait := become (f := .cellDrop c .decWait) rfl trivial trivial
      exact wait.push (f := .dec p) trivial trivial trivial
  | dropDec | intoPaid => exact become rfl trivial trivial
  | unwind step => exact step.ok fit linked below

-----------------------------------------------------------------------------------------
-- User code
-----------------------------------------------------------------------------------------

theorem Thread.Ok.nil {tls} : Thread.Ok ⟨tls, []⟩ :=
  ⟨trivial, fun _ _ h => (nomatch h), fun _ h => (nomatch h)⟩

/-- What is below a frame is in order when user code is there. -/
theorem Thread.Ok.toUser {tls rest} (linked : StackOk rest)
    (settled : ∀ fr ∈ rest, fr.settled) (below : belowUser rest)
    : Thread.Ok ⟨tls, rest⟩ := by
  refine ⟨linked, ?_, settled⟩
  rintro fr rest' ⟨⟩
  cases fr <;> trivial

/-- User code puts a frame above its own. -/
theorem Thread.Ok.called {tls rest} {f : Frame} (ok : Thread.Ok ⟨tls, rest⟩)
    (below : belowUser rest) (fine : f.answer.toUser) (knows : f.knows tls)
    (settled : f.settled)
    : Thread.Ok ⟨tls, f :: rest⟩ :=
  Thread.ok_cons.mpr ⟨⟨.of_belowUser below fine, knows, settled⟩, ok.linked, ok.settled⟩

theorem Entry.ok {sh c p tls frames rest} (entry : Entry sh c p frames)
    (ok : Thread.Ok ⟨tls, rest⟩) (below : belowUser rest)
    : Thread.Ok ⟨tls, frames ++ rest⟩ := by
  have load {caller} (ok : Thread.Ok ⟨tls, caller :: rest⟩)
      (fit : caller.accepts (.prot (.load c sh.time)))
      : Thread.Ok ⟨tls, .load c sh.time .tls .enter :: caller :: rest⟩ :=
    ok.push fit nofun fun _ => rfl
  cases entry with
  | load => exact ok.called below trivial nofun fun _ => rfl
  | loadFull =>
      exact load (ok.called (f := .loadFull c sh.time) below trivial trivial trivial)
        (Or.inl rfl)
  | rcu =>
      exact load (ok.called (f := .rcu c sh.time (.loadWait sh.time)) below trivial trivial
        trivial) (Or.inl rfl)
  | swap | cache => exact ok.called below trivial trivial trivial
  | @store p =>
      have store := ok.called (f := .storeWait c) below trivial trivial trivial
      exact store.push (f := .swap c sh.time p) (Or.inl rfl) trivial trivial
  | @cas p cur =>
      exact load (ok.called (f := .cas c sh.time cur p (.loadWait sh.time)) below trivial
        trivial trivial) (Or.inl rfl)

theorem CallStep.ok {s tls rest δ} (step : CallStep s tls rest δ)
    (below : δ.old = [] → belowUser rest) (ok : Thread.Ok ⟨tls, δ.old ++ rest⟩)
    : Thread.Ok ⟨δ.tls, δ.new ++ rest⟩ := by
  cases step with
  | alloc | null | clone | cloneArg | new | moveCell | guardFromInner => exact ok
  | start _ entry => exact entry.ok ok (below rfl)
  | startWith _ _ _ entry => exact entry.ok ok (below rfl)
  | @dropHandle _ p => exact ok.called (f := .dec p) (below rfl) trivial trivial trivial
  | @dropGuard _ g => exact ok.called (f := .guardDrop g) (below rfl) trivial trivial trivial
  | @guardIntoInner _ g =>
      exact ok.called (f := .into g .plain .inc) (below rfl) trivial trivial trivial
  | @intoInner c =>
      have caller := ok.called (f := .cellInto c none) (below rfl) trivial trivial trivial
      exact caller.push (f := .pay _ _ _ .tls .enter) ⟨rfl, Or.inl ⟨_, _, rfl⟩⟩ trivial
        fun _ => rfl
  | @dropCell c =>
      have caller := ok.called (f := .cellDrop c .payWait) (below rfl) trivial trivial trivial
      exact caller.push (f := .pay _ _ _ .tls .enter) (Or.inl ⟨_, _, rfl⟩) trivial fun _ => rfl
  | closureRet =>
      obtain ⟨⟨fit, -, -⟩, linked, settled⟩ := Thread.ok_cons.mp ok
      exact Thread.ok_cons.mpr ⟨⟨fit.result.1, trivial, trivial⟩, linked, settled⟩
  | closurePanic =>
      obtain ⟨⟨fit, -, -⟩, linked, settled⟩ := Thread.ok_cons.mp ok
      exact Thread.ok_cons.mpr ⟨⟨fit.result.2, trivial, trivial⟩, linked, settled⟩
  | destructorRet =>
      obtain ⟨⟨fit, -, -⟩, linked, settled⟩ := Thread.ok_cons.mp ok
      exact Thread.ok_cons.mpr ⟨⟨fit, trivial, trivial⟩, linked, settled⟩
  | exit empty =>
      subst empty
      cases tls.node with
      | none => exact .nil
      | some n => exact Thread.Ok.nil.called (f := .cool n .reserve) trivial trivial trivial trivial

theorem Move.ok {cfg s tls rest δ} (move : Move cfg s tls rest δ)
    (ok : Thread.Ok ⟨tls, δ.old ++ rest⟩)
    : Thread.Ok ⟨δ.tls, δ.new ++ rest⟩ := by
  cases move with
  | frame step => exact step.ok ok
  | resume _ step => exact step.ok ok
  | deliver below =>
      exact .toUser ok.linked.2 (fun fr inside => ok.settled fr (.tail _ inside)) below
  | call below step => exact step.ok below ok

/-- All threads keep the call discipline. -/
def State.Disciplined (s : State) : Prop :=
  ∀ t, Thread.Ok (s.thr t)

theorem State.Disciplined.init (n : Nat) : (State.init n).Disciplined :=
  fun _ => .nil

theorem State.Disciplined.after {cfg} {s : State} {t δ rest} (disciplined : s.Disciplined)
    (top : (s.thr t).stack = δ.old ++ rest) (move : Move cfg s (s.thr t).tls rest δ)
    : (s.after t δ rest).Disciplined := by
  intro t'
  rw [State.after_thr, Function.update_apply]
  split
  · refine move.ok ?_
    rw [← top]
    exact disciplined t
  · exact disciplined t'

end ArcSwap
