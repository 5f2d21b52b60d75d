import ArcSwap.Proofs.LockSafety

/-! Who waits for whom under the strategy `RwLock<()>`. Whoever has a lock can go on, but for the
destructors that run in `compare_and_swap`, with the lock held: if one uses the same storage, its
thread stops for good. Here a lock that its own thread asks for again blocks, where the one of the
standard library may panic instead.
-/

namespace ArcSwap.Locked

open Bags GuardedRuns

-----------------------------------------------------------------------------------------
-- Callers and callees
-----------------------------------------------------------------------------------------

/-- What a frame gives to the frame below it. -/
inductive Kind
  /-- The end of a `T::dec`. -/
  | ends
  /-- The same, as long as the count is given back and the destructor runs. -/
  | drops (p : Ptr)
  | ptr
  | prot
  | closure
  | unwound
  /-- The result of an operation that only user code calls. -/
  | user

/-- The end of a `T::dec` of any value. -/
def Kind.isEnd : Kind → Prop
  | .ends | .drops _ => True
  | _ => False

def Ret.kind : Ret → Kind
  | .unit => .ends
  | .ptr _ => .ptr
  | .prot _ => .prot
  | .unwound => .unwound
  | .node _ _ => .user

def Frame.kind : Frame → Kind
  | .ret _ v => Ret.kind v
  | .closure _ => .closure
  | .destructor p | .dec p => .drops p
  | .load _ _ _ | .cas _ _ _ _ _ => .prot
  | .loadFull _ _ | .wait _ _ _ | .swap _ _ _ | .swapWait _ => .ptr
  | .storeWait _ | .rcu _ _ _ | .cache _ _ _ | .cellDrop _ _ | .cellInto _ _ => .user

/-- What a frame waits for. User code can be given anything. -/
def Frame.accepts : Frame → Kind → Prop
  | .closure _, _ | .destructor _, _ => True
  | .loadFull _ _, k => k = .prot
  | .swapWait _, k | .storeWait _, k => k = .ptr
  | .cas _ _ _ new (.newWait _), k => k = .ends ∨ k = .drops new
  | .cas _ _ cur _ (.currentWait _), k => k = .ends ∨ ∃ p, k = .drops p ∧ cur = .guard p
  | .rcu _ _ (.loadWait _), k | .rcu _ _ (.casWait _ _ _), k => k = .prot
  | .rcu _ _ (.closureWait _ _), k => k = .closure ∨ k = .ptr ∨ k = .unwound
  | .rcu _ _ (.doneWait _ _), k | .rcu _ _ (.againWait _ _), k | .rcu _ _ .unwindWait, k => k.isEnd
  | .cache _ _ (.loadWait _), k => k = .ptr
  | .cache _ _ (.decWait _), k => k.isEnd
  | .cellDrop _ .payWait, k => k = .ptr
  | .cellDrop _ .decWait, k => k.isEnd
  | .cellInto _ none, k => k = .ptr
  | _, _ => False

def fits : List Frame → Kind → Prop
  | [], _ => True
  | fr :: _, k => fr.accepts k

/-- Every frame gives what the one below it waits for. -/
def Linked : List Frame → Prop
  | [] => True
  | fr :: rest => fits rest fr.kind ∧ Linked rest

/-- The frame waits for a callee to return. -/
def Frame.isWaiting : Frame → Bool
  | .loadFull _ _ | .swapWait _ | .storeWait _ | .cas _ _ _ _ (.newWait _)
  | .cas _ _ _ _ (.currentWait _) | .rcu _ _ _ => true
  | .cache _ _ .peek | .cellDrop _ .free => false
  | .cache _ _ _ | .cellDrop _ _ | .cellInto _ none => true
  | _ => false

def readyTop : List Frame → Prop
  | [] => True
  | fr :: _ => fr.isWaiting = false

/-- The stack of a thread whose top frame is not one that waits. -/
structure StackReady (stack : List Frame) : Prop where
  top : readyTop stack
  linked : Linked stack

section linked

variable {s : State} {sh : Shared} {fr caller : Frame} {act : Act} {frames rest : List Frame}
  {spec : Spec} {v : Ret} {k : Kind} {δ : Change}

attribute [local simp] Linked fits Frame.kind Frame.accepts Ret.kind Kind.isEnd
  Frame.isWaiting readyTop

/-- User code is given any result. -/
theorem fits.user (fit : fits rest .user) (k : Kind) : fits rest k := by
  cases rest with
  | nil => trivial
  | cons fr rest =>
      cases fr with
      | closure | destructor => trivial
      | cas _ _ _ _ pc | rcu _ _ pc | cache _ _ pc | cellDrop _ pc => cases pc <;> simp at fit
      | cellInto _ p => cases p <;> simp at fit
      | _ => simp at fit

theorem fits.result (fit : fits rest .closure) : fits rest .ptr ∧ fits rest .unwound := by
  cases rest with
  | nil => exact ⟨trivial, trivial⟩
  | cons fr rest =>
      cases fr with
      | closure | destructor => exact ⟨trivial, trivial⟩
      | cas _ _ _ _ pc | rcu _ _ pc | cache _ _ pc | cellDrop _ pc => cases pc <;> simp_all
      | cellInto _ p => cases p <;> simp at fit
      | _ => simp at fit

/-- Whoever waits for a `T::dec` of a value goes on when it has ended. -/
theorem fits.ended {p} (fit : fits rest (.drops p)) : fits rest .ends := by
  cases rest with
  | nil => trivial
  | cons fr rest =>
      cases fr with
      | closure | destructor => trivial
      | cas _ _ _ _ pc | rcu _ _ pc | cache _ _ pc | cellDrop _ pc => cases pc <;> simp at fit ⊢
      | cellInto _ p => cases p <;> simp at fit
      | _ => simp at fit

theorem fits.below (user : belowUser rest) (k : Kind) : fits rest k := by
  cases rest with
  | nil => trivial
  | cons fr rest => cases fr <;> trivial

theorem dropCurrent_ready {c op cur new old} (fit : fits rest .prot) (below : Linked rest)
    : StackReady (dropCurrent c op cur new old ++ rest) := by
  cases cur with
  | raw => exact ⟨rfl, fit, below⟩
  | guard p => exact ⟨rfl, .inr ⟨p, rfl, rfl⟩, fit, below⟩

theorem FrameStep.ready (step : FrameStep sh fr act frames) (linked : Linked (fr :: rest))
    : StackReady (frames ++ rest) := by
  obtain ⟨fit, below⟩ := linked
  cases step with
  | cacheHit | dropFree | intoFree => exact ⟨rfl, fits.user fit _, below⟩
  | decNull | decMore => exact ⟨rfl, fits.ended fit, below⟩
  | cacheMiss => exact ⟨rfl, rfl, rfl, fit, below⟩
  | swap => exact ⟨rfl, rfl, fit, below⟩
  | casExchange => exact dropCurrent_ready fit below
  | casInc => exact ⟨rfl, .inr rfl, fit, below⟩
  | _ => exact ⟨rfl, fit, below⟩

theorem ResumeStep.ready (step : ResumeStep caller v frames)
    (linked : Linked (.ret spec v :: caller :: rest))
    : StackReady (frames ++ rest) := by
  obtain ⟨_, fit, below⟩ := linked
  cases step with
  | store | rcuDone | rcuUnwind | cacheDone => exact ⟨rfl, fits.user fit _, below⟩
  | rcuLoad | rcuAgain => exact ⟨rfl, .inl rfl, fit, below⟩
  | rcuTry => exact ⟨rfl, rfl, fit, below⟩
  | casRejected => exact dropCurrent_ready fit below
  | rcuPanic | rcuSwapped | rcuLost | cacheLoad | dropWaited => exact ⟨rfl, trivial, fit, below⟩
  | _ => exact ⟨rfl, fit, below⟩

theorem Entry.ready {c a} (entry : Entry sh c a frames) (user : belowUser rest)
    (below : Linked rest)
    : StackReady (frames ++ rest) := by
  cases entry with
  | loadFull | rcu | store => exact ⟨rfl, rfl, fits.below user _, below⟩
  | _ => exact ⟨rfl, fits.below user _, below⟩

theorem StackReady.user (user : belowUser rest) (below : Linked rest) : StackReady rest := by
  refine ⟨?_, below⟩
  cases rest with
  | nil => trivial
  | cons fr rest => cases fr <;> first | rfl | cases user

theorem CallStep.ready (step : CallStep s rest δ) (user : δ.old = [] → belowUser rest)
    (ready : StackReady (δ.old ++ rest))
    : StackReady (δ.new ++ rest) := by
  cases step with
  | start _ entry | startWith _ _ entry => exact entry.ready (user rfl) ready.linked
  | drop | casGuard => exact ⟨rfl, fits.below (user rfl) _, ready.linked⟩
  | intoInner | dropCell => exact ⟨rfl, rfl, fits.below (user rfl) _, ready.linked⟩
  | closureRet => exact ⟨rfl, (fits.result ready.linked.1).1, ready.linked.2⟩
  | closurePanic => exact ⟨rfl, (fits.result ready.linked.1).2, ready.linked.2⟩
  | destructorRet => exact ⟨rfl, fits.ended ready.linked.1, ready.linked.2⟩
  | _ => exact ready

theorem Move.ready (move : Move s rest δ) (ready : StackReady (δ.old ++ rest))
    : StackReady (δ.new ++ rest) := by
  cases move with
  | frame step => exact step.ready ready.linked
  | resume _ step => exact step.ready ready.linked
  | deliver below => exact .user below ready.linked.2
  | call below step => exact step.ready below ready

/-- A frame that waits goes on with what it waits for. -/
theorem resume_isSome (accepts : caller.accepts (Ret.kind v)) (code : caller.isUser = false)
    : (resume caller v).isSome := by
  cases caller with
  | closure | destructor => cases code
  | rcu c op pc =>
      cases pc with
      | casWait cur new calls =>
          cases v <;> simp at accepts
          simp only [resume]
          split <;> rfl
      | _ => cases v <;> simp at accepts <;> rfl
  | cas c op cur new pc =>
      cases pc <;> cases v <;> simp at accepts <;> rfl
  | cache c p pc => cases pc <;> cases v <;> simp at accepts <;> rfl
  | cellDrop c pc => cases pc <;> cases v <;> simp at accepts <;> rfl
  | cellInto c p =>
      cases p <;> cases v <;> simp at accepts
      rfl
  | _ => cases v <;> simp at accepts <;> rfl

end linked

theorem ready_of_run {n : Nat} {s : State} (run : Run n s) : ∀ t, StackReady (s.stack t) := by
  refine run.invariant (I := fun s => ∀ t, StackReady (s.stack t)) ?_ ?_
  · exact fun _ => ⟨trivial, trivial⟩
  · intro s l s' _ ready _ taken t
    obtain ⟨_, δ, rest, top, move, rfl⟩ := step_moves taken
    rw [State.after_stack, Function.update_apply]
    split
    · exact move.ready (top ▸ ready l.thread)
    · exact ready t

-----------------------------------------------------------------------------------------
-- Locks that are waited for
-----------------------------------------------------------------------------------------

/-- The storage whose lock the next step of the frame takes. -/
def Frame.locks : Frame → Option CellId
  | .load c _ .lock | .wait c _ .lock | .cas c _ _ _ .lock => some c
  | _ => none

/-- The frame has the lock of the storage. -/
def Frame.hasLock (c : CellId) : Frame → Prop
  | .load d _ pc => pc ≠ .lock ∧ d = c
  | .wait d _ pc => pc ≠ .lock ∧ d = c
  | .cas d _ _ _ pc => pc ≠ .lock ∧ d = c
  | _ => False

section waits

variable {s s' : State} {sh : Shared} {n : Nat} {t : ThreadId} {fr f : Frame}
  {rest above : List Frame} {c : CellId}

/-- Whoever is granted a lock, or needs none, can make a step. -/
theorem stepFrame_isSome (ready : fr.isWaiting = false) (code : fr.isUser = false)
    (busy : ∀ spec v, fr ≠ .ret spec v)
    (granted : ∀ c, fr.locks = some c → (sh.lock c).free = true)
    : (stepFrame sh fr).isSome := by
  cases fr with
  | ret spec v => exact absurd rfl (busy spec v)
  | closure | destructor => cases code
  | load c began pc =>
      cases pc with
      | lock =>
          have free := granted c rfl
          simp only [Lock.free, Bool.and_eq_true, Bool.not_eq_true'] at free
          simp [stepFrame, stepLoad, free.2]
      | _ => rfl
  | wait c p pc =>
      cases pc with
      | lock => simp [stepFrame, stepWait, granted c rfl]
      | unlock => rfl
  | cas c op cur new pc =>
      cases pc with
      | lock => simp [stepFrame, stepCas, granted c rfl]
      | exchange =>
          simp only [stepFrame, stepCas]
          split <;> rfl
      | newWait | currentWait => cases ready
      | _ => rfl
  | cache c p pc =>
      cases pc with
      | peek =>
          simp only [stepFrame, stepCache]
          split <;> rfl
      | _ => cases ready
  | cellDrop c pc =>
      cases pc with
      | free => rfl
      | _ => cases ready
  | cellInto c p =>
      cases p with
      | none => cases ready
      | some p => rfl
  | loadFull | swapWait | storeWait | rcu => cases ready
  | dec | swap => rfl

/-- A thread in the code of the crate that is not refused a lock can make a step. -/
theorem run_isSome (ready : StackReady (s.stack t)) (top : s.stack t = fr :: rest)
    (code : fr.isUser = false) (granted : ∀ c, fr.locks = some c → (s.sh.lock c).free = true)
    : (s.run t).isSome := by
  rw [top] at ready
  unfold State.run
  rw [top]
  split
  · rename_i eq
    cases eq
  · rfl
  · rename_i spec v caller others eq
    cases eq
    split
    · rfl
    · rename_i waits
      rw [Option.isSome_map]
      exact resume_isSome ready.linked.1 (by simpa using waits)
  · rename_i alone called eq
    cases eq
    rw [Option.isSome_map]
    refine stepFrame_isSome ready.top code ?_ granted
    intro spec v eq
    subst eq
    cases rest with
    | nil => exact alone spec v rfl rfl
    | cons caller others => exact called spec v caller others rfl rfl

theorem Linked.below (linked : Linked (above ++ rest)) : Linked rest := by
  induction above with
  | nil => exact linked
  | cons fr above ih => exact ih linked.2

/-- A frame that waits for nothing is at the top. -/
theorem Linked.top (linked : Linked (above ++ f :: rest)) (deaf : ∀ k, ¬ f.accepts k)
    : above = [] := by
  rcases List.eq_nil_or_concat above with none | ⟨others, fr, rfl⟩
  · exact none
  · rw [List.concat_eq_append, List.append_assoc] at linked
    exact absurd linked.below.1 (deaf _)

/-- The frame is a `compare_and_swap` that drops a value with the lock held: the one that was not
stored, or the guard that was passed as `current`.
-/
inductive Frame.Drops : Frame → Ptr → Prop
  | new {c op cur new old} : (Frame.cas c op cur new (.newWait old)).Drops new
  | current {c op p new old} : (Frame.cas c op (.guard p) new (.currentWait old)).Drops p

/-- A frame that has a lock is at the top, or it has it alone and waits for the end of a `T::dec`.
-/
theorem Linked.place (linked : Linked (above ++ f :: rest)) (has : f.hasLock c)
    : above = [] ∨ .exclusive c none ∈ f.tokens
        ∧ ∃ others fr, above = others ++ [fr]
          ∧ (fr.kind = .ends ∨ ∃ p, fr.kind = .drops p ∧ f.Drops p) := by
  rcases List.eq_nil_or_concat above with none | ⟨others, fr, rfl⟩
  · exact .inl none
  · rw [List.concat_eq_append, List.append_assoc] at linked
    have fit : f.accepts fr.kind := linked.below.1
    cases f with
    | cas d op cur new pc =>
        obtain ⟨_, rfl⟩ := has
        cases pc with
        | newWait old =>
            refine .inr ⟨Multiset.mem_cons_self _ _, others, fr, List.concat_eq_append, ?_⟩
            exact fit.imp id fun drops => ⟨new, drops, .new⟩
        | currentWait old =>
            have alone
                : .exclusive d none ∈ (Frame.cas d op cur new (.currentWait old)).tokens := by
              simp [Frame.tokens, CasPc.tokens]
            refine .inr ⟨alone, others, fr, List.concat_eq_append, ?_⟩
            refine fit.imp id fun drops => ?_
            obtain ⟨p, drops, rfl⟩ := drops
            exact ⟨p, drops, .current⟩
        | _ => exact fit.elim
    | load | wait => exact fit.elim
    | _ => exact has.elim

theorem Frame.hasLock.code (has : f.hasLock c) : f.isUser = false := by
  cases f <;> first | rfl | exact has.elim

theorem Frame.hasLock.locks (has : f.hasLock c) : f.locks = none := by
  cases f with
  | load _ _ pc | wait _ _ pc | cas _ _ _ _ pc =>
      cases pc with
      | lock => exact absurd rfl has.1
      | _ => rfl
  | _ => exact has.elim

theorem State.frame_of_lock {tok} (inside : tok ∈ s.tokens) (lock : tok.isLock = true)
    : ∃ t < s.nThr, ∃ fr ∈ s.stack t, tok ∈ fr.tokens := by
  rcases Multiset.mem_add.mp inside with frames | vals
  · obtain ⟨t, member, held⟩ := mem_total.mp frames
    obtain ⟨fr, there, own⟩ := mem_listed.mp held
    exact ⟨t, member, fr, there, own⟩
  · obtain ⟨v, _, held⟩ := mem_total.mp vals
    cases val : s.vals v with
    | none => simp [val, entryShare] at held
    | some u =>
        have eq : tok = .own u.ptr := by simpa [val, entryShare] using held
        rw [eq] at lock
        cases lock

/-- The storage whose lock the token is. -/
def Token.lockOf : Token → Option CellId
  | .shared c _ | .exclusive c _ => some c
  | _ => none

theorem Token.shares_of_lockOf {tok : Token} (other : tok.lockOf ≠ some c)
    : tok.shares c = 0 := by
  cases tok with
  | shared d seen =>
      have apart : d ≠ c := fun eq => other (congrArg some eq)
      simp [Token.shares, apart]
  | _ => rfl

theorem Token.excludes_of_lockOf {tok : Token} (other : tok.lockOf ≠ some c)
    : tok.excludes c = 0 := by
  cases tok with
  | exclusive d seen =>
      have apart : d ≠ c := fun eq => other (congrArg some eq)
      simp [Token.excludes, apart]
  | _ => rfl

theorem Current.lockOf_token {cur : Current} {tok} (own : tok ∈ cur.tokens)
    : tok.lockOf = none := by
  cases cur with
  | raw => simp [Current.tokens] at own
  | guard =>
      cases Multiset.mem_singleton.mp own
      rfl

theorem Frame.hasLock_of_token {tok} (own : tok ∈ fr.tokens) (lock : tok.lockOf = some c)
    : fr.hasLock c := by
  cases fr with
  | load d _ pc =>
      cases pc with
      | lock => simp [Frame.tokens, LoadPc.tokens] at own
      | read | inc =>
          cases Multiset.mem_singleton.mp own
          cases lock
          exact ⟨by simp, rfl⟩
      | unlock =>
          simp only [Frame.tokens, LoadPc.tokens, Multiset.mem_cons, Multiset.mem_singleton] at own
          rcases own with rfl | rfl <;> cases lock
          exact ⟨by simp, rfl⟩
  | wait d _ pc =>
      cases pc with
      | lock =>
          cases Multiset.mem_singleton.mp own
          cases lock
      | unlock =>
          simp only [Frame.tokens, WaitPc.tokens, Multiset.mem_cons, Multiset.mem_singleton] at own
          rcases own with rfl | rfl <;> cases lock
          exact ⟨by simp, rfl⟩
  | cas d _ cur _ pc =>
      have light (inside : tok ∈ cur.tokens) : False := by
        cases (Current.lockOf_token inside).symm.trans lock
      cases pc with
      | lock =>
          simp only [Frame.tokens, CasPc.tokens, Multiset.mem_cons] at own
          rcases own with rfl | current
          · cases lock
          · exact (light current).elim
      | exchange | inc | newWait =>
          simp only [Frame.tokens, CasPc.tokens, Multiset.mem_cons] at own
          rcases own with rfl | rfl | current
          · cases lock
            exact ⟨by simp, rfl⟩
          · cases lock
          · exact (light current).elim
      | currentWait | unlock =>
          simp only [Frame.tokens, CasPc.tokens, Multiset.mem_cons, Multiset.mem_singleton] at own
          rcases own with rfl | rfl <;> cases lock
          exact ⟨by simp, rfl⟩
  | ret _ v =>
      cases v with
      | ptr | prot =>
          cases Multiset.mem_singleton.mp own
          cases lock
      | _ => simp [Frame.tokens] at own
  | rcu _ _ pc =>
      cases pc with
      | loadWait | intoWait | unwindWait => simp [Frame.tokens, rcuTokens] at own
      | _ =>
          cases Multiset.mem_singleton.mp own
          cases lock
  | cache _ _ pc =>
      cases pc <;>
        cases Multiset.mem_singleton.mp own <;> cases lock
  | cellInto _ p =>
      cases p with
      | none => simp [Frame.tokens] at own
      | some p =>
          cases Multiset.mem_singleton.mp own
          cases lock
  | destructor | dec | swap =>
      cases Multiset.mem_singleton.mp own
      cases lock
  | _ => simp [Frame.tokens] at own

/-- A lock that is not free is in a frame. -/
theorem holder_of_run (run : Run n s) (taken : (s.sh.lock c).free = false)
    : ∃ t < s.nThr, ∃ fr ∈ s.stack t, fr.hasLock c := by
  have locks := (safe_of_run run).inv.locks
  have held : ∃ tok ∈ s.tokens, tok.lockOf = some c := by
    by_contra none
    simp only [not_exists, not_and] at none
    have readers := locks.readers c
    have writer := locks.writer c
    rw [tally_eq_zero _ fun tok inside => Token.shares_of_lockOf (none tok inside)] at readers
    rw [tally_eq_zero _ fun tok inside => Token.excludes_of_lockOf (none tok inside)] at writer
    have unwritten : (s.sh.lock c).writer = false := by
      by_contra other
      rw [if_pos (by simpa using other)] at writer
      cases writer
    simp [Lock.free, ← readers, unwritten] at taken
  obtain ⟨tok, inside, lock⟩ := held
  have isLock : tok.isLock = true := by
    cases tok with
    | shared | exclusive => rfl
    | _ => cases lock
  obtain ⟨t, member, fr, there, own⟩ := State.frame_of_lock inside isLock
  exact ⟨t, member, fr, there, Frame.hasLock_of_token own lock⟩

/-- A thread in the code of the crate can make a step, unless it waits for a lock. Then another
thread that can make a step has the lock, or a destructor runs while its thread has the lock:
`compare_and_swap` has called it for a value that was not stored, or for a guard that was passed
by value as `current`.
-/
theorem lock_waits_end (run : Run n s) (top : s.stack t = fr :: rest) (member : t < s.nThr)
    (code : fr.isUser = false) (spurious : Bool)
    : (∃ s', step s (.run t spurious) = some s')
      ∨ ∃ c, fr.locks = some c ∧ ∃ t' < s.nThr, ∃ holder ∈ s.stack t', holder.hasLock c
          ∧ ((∃ s', step s (.run t' spurious) = some s')
            ∨ ∃ above p below, s.stack t' = above ++ .destructor p :: holder :: below
              ∧ holder.Drops p) := by
  have ready := ready_of_run run
  have moves {t} (member : t < s.nThr) (enabled : (s.run t).isSome)
      : ∃ s', step s (.run t spurious) = some s' := by
    obtain ⟨s', taken⟩ := Option.isSome_iff_exists.mp enabled
    exact ⟨s'.tick, by simp [step, member, taken]⟩
  have goes {t f others} (member : t < s.nThr) (top : s.stack t = f :: others)
      (code : f.isUser = false) (unlocked : f.locks = none)
      : ∃ s', step s (.run t spurious) = some s' := by
    apply moves member
    apply run_isSome (ready t) top code
    intro d locks
    rw [unlocked] at locks
    cases locks
  by_cases granted : ∀ c, fr.locks = some c → (s.sh.lock c).free = true
  · exact .inl (moves member (run_isSome (ready t) top code granted))
  · simp only [not_forall, Bool.not_eq_true] at granted
    obtain ⟨c, locks, taken⟩ := granted
    obtain ⟨t', member', holder, there, has⟩ := holder_of_run run taken
    refine .inr ⟨c, locks, t', member', holder, there, has, ?_⟩
    obtain ⟨above, below, split⟩ := List.append_of_mem there
    have linked := (ready t').linked
    rw [split] at linked
    rcases linked.place has with rfl | ⟨_, others, fr', rfl, ends⟩
    · exact .inl (goes member' split has.code has.locks)
    · rw [List.append_assoc] at linked split
      cases fr' with
      | dec p =>
          obtain rfl := linked.top fun _ => id
          exact .inl (goes member' split rfl rfl)
      | ret spec v =>
          obtain rfl := linked.top fun _ => id
          exact .inl (goes member' split rfl rfl)
      | destructor p =>
          rcases ends with ends | ⟨q, drops, there⟩
          · cases ends
          · cases drops
            exact .inr ⟨others, p, below, split, there⟩
      | _ => rcases ends with ends | ⟨q, drops, _⟩ <;> first | cases ends | cases drops

end waits

/-- One thread runs the destructor of the guard that it has passed by value as `current`, when
another one is about to load from the storage.
-/
def guardSchedule : List Label :=
  ([.call 0 (.alloc 16 0), .call 0 (.new 0 100 true), .call 0 (.alloc 20 0),
      .call 0 (.guardFromInner 1), .call 0 (.null 0), .compareAndSwapGuard 0 0 2 3] : List Label)
    ++ List.replicate 6 (Label.run 0 false)
    ++ [.call 1 (.load 0)]

theorem lock_waits_end_guard
    : ∃ s : State, step s (.run 1 false) = none
        ∧ ∃ above p holder below, s.stack 0 = above ++ .destructor p :: holder :: below
          ∧ holder.hasLock 0 ∧ holder.Drops p := by
  let held : Frame := .cas 0 5 (.guard ⟨20, 0, 2⟩) ⟨0, 0, 0⟩ (.currentWait ⟨16, 0, 1⟩)
  let busy (s : State) : Bool := !(step s (.run 0 false)).isSome && !(step s (.run 1 false)).isSome
  have ran
      : (runChecked step (fun _ _ => true) (State.init 2) guardSchedule).map
            (fun s => (s.nThr, s.stack 0, s.stack 1, busy s))
          = some (2, [.destructor ⟨20, 0, 2⟩, held], [.load 0 12 .lock], true) := by
    decide +kernel
  obtain ⟨s, ran, eq⟩ := Option.map_eq_some_iff.mp ran
  simp only [Prod.mk.injEq] at eq
  obtain ⟨threads, first, second, stuck⟩ := eq
  have run : Run 2 s := reaches_of_runChecked (fun _ _ _ => trivial) ran
  have member : 1 < s.nThr := by omega
  obtain ⟨destroys, blocked⟩
      : step s (.run 0 false) = none ∧ step s (.run 1 false) = none := by
    simpa [busy] using stuck
  rcases lock_waits_end run second member rfl false
    with ⟨_, taken⟩ | ⟨c, locks, t, member, waits⟩
  · rw [blocked] at taken
    cases taken
  · cases locks
    obtain ⟨holder, there, has, moves⟩ := waits
    have first' : t = 0 := by
      by_contra other
      obtain rfl : t = 1 := by omega
      rw [second] at there
      cases List.mem_singleton.mp there
      exact has.1 rfl
    subst first'
    rcases moves with ⟨_, taken⟩ | ⟨above, p, below, split, drops⟩
    · rw [destroys] at taken
      cases taken
    · exact ⟨s, blocked, above, p, holder, below, split, has, drops⟩

-----------------------------------------------------------------------------------------
-- Re-entrancy
-----------------------------------------------------------------------------------------

section waits

variable {s s' : State} {n : Nat} {t : ThreadId} {fr f : Frame} {rest : List Frame} {c : CellId}

/-- A frame that has a lock and is not at the top has it alone. -/
theorem writer_of_run (run : Run n s) (member : t < s.nThr) (top : s.stack t = fr :: rest)
    (holder : f ∈ rest) (has : f.hasLock c)
    : (s.sh.lock c).writer = true := by
  have inside : f ∈ s.stack t := top ▸ List.mem_cons_of_mem fr holder
  obtain ⟨above, below, rfl⟩ := List.append_of_mem holder
  have linked : Linked ((fr :: above) ++ f :: below) := by
    have linked := (ready_of_run run t).linked
    rw [top] at linked
    exact linked
  rcases linked.place has with none | ⟨alone, _⟩
  · cases none
  · have own : .exclusive c none ∈ s.tokens := State.mem_tokens_of_frame member inside alone
    have excluded := le_tally (Token.excludes c) own
    rw [(safe_of_run run).inv.locks.writer] at excluded
    by_contra other
    simp [Token.excludes, other] at excluded

/-- A thread whose next step takes a lock makes no step as long as a writer has the lock. -/
theorem Move.refused {δ : Change} {rest'} (move : Move s rest' δ)
    (top : δ.old ++ rest' = fr :: rest)
    (locks : fr.locks = some c) (written : (s.sh.lock c).writer = true)
    : False := by
  have busy : (s.sh.lock c).free = false := by simp [Lock.free, written]
  cases move with
  | frame step =>
      cases top
      cases step <;> cases locks
      all_goals simp_all
  | resume =>
      cases top
      cases locks
  | deliver =>
      cases top
      cases locks
  | call below step =>
      have user : δ.old = [] → fr.isUser = true := by
        intro none
        have below := below none
        rw [none] at top
        obtain rfl : rest' = fr :: rest := top
        exact below
      have code : fr.isUser = false := by
        cases fr <;> first | rfl | cases locks
      cases step with
      | closureRet | closurePanic | destructorRet =>
          cases top
          cases locks
      | _ => simp [user rfl] at code

/-- A destructor that runs while its thread has the lock of a storage and that uses this storage
stops its thread for good.
-/
theorem lock_reentrancy_blocks (run : Run n s) (top : s.stack t = fr :: rest) (member : t < s.nThr)
    (locks : fr.locks = some c) (holder : f ∈ rest) (has : f.hasLock c)
    (later : Reaches step (fun _ _ => True) s s')
    : s'.stack t = fr :: rest ∧ ∀ l, l.thread = t → step s' l = none := by
  have stuck {s'} (run : Run n s') (top : s'.stack t = fr :: rest) (l : Label) (own : l.thread = t)
      : step s' l = none := by
    cases taken : step s' l with
    | none => rfl
    | some s'' =>
        subst own
        obtain ⟨member, δ, rest', top', move, _⟩ := step_moves taken
        have written := writer_of_run run member top holder has
        exact (move.refused (top'.symm.trans top) locks written).elim
  have same : s'.stack t = fr :: rest := by
    refine later.invariant (I := fun s => s.stack t = fr :: rest) top ?_
    intro s₁ l s₂ between top _ taken
    by_cases own : l.thread = t
    · rw [stuck (run.trans between) top l own] at taken
      cases taken
    · obtain ⟨_, δ, rest', _, _, rfl⟩ := step_moves taken
      rw [State.after_stack, Function.update_of_ne (Ne.symm own)]
      exact top
  exact ⟨same, stuck (run.trans later) same⟩

end waits

/-- The destructor of a value that was not stored loads from the storage. -/
def reentrySchedule : List Label :=
  [.call 0 (.alloc 16 0), .call 0 (.new 0 100 true), .call 0 (.alloc 20 0),
    .call 0 (.compareAndSwap 0 20 1), .run 0 false, .run 0 false, .run 0 false, .run 0 false,
    .call 0 (.load 0)]

theorem lock_reentrancy_blocks_load
    : ∃ s : State, ∀ s', Reaches step (fun _ _ => True) s s'
      → step s' (.run 0 false) = none := by
  let held : Frame := .cas 0 3 (.raw 20) ⟨20, 0, 2⟩ (.newWait ⟨16, 0, 1⟩)
  have ran
      : (runChecked step (fun _ _ => true) (State.init 1) reentrySchedule).map
            (fun s => (s.nThr, s.stack 0))
          = some (1, [.load 0 8 .lock, .destructor ⟨20, 0, 2⟩, held]) := by
    decide +kernel
  obtain ⟨s, ran, eq⟩ := Option.map_eq_some_iff.mp ran
  simp only [Prod.mk.injEq] at eq
  obtain ⟨threads, top⟩ := eq
  have run : Run 1 s := reaches_of_runChecked (fun _ _ _ => trivial) ran
  have member : 0 < s.nThr := by omega
  have has : held.hasLock 0 := ⟨by simp, rfl⟩
  refine ⟨s, fun s' later => ?_⟩
  exact (lock_reentrancy_blocks run top member rfl (by simp) has later).2 (.run 0 false) rfl

end ArcSwap.Locked
