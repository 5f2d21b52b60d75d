import ArcSwap.Proofs.LockRules

/-! Every run under the strategy `RwLock<()>`. What threads and user code hold is a bag of tokens,
which every step changes by a rule for its access; so nothing that is used has been destroyed, and
the counts are exact whenever no operation is in progress.
-/

namespace ArcSwap.Locked

open Bags Finset GuardedRuns

-----------------------------------------------------------------------------------------
-- What threads and user code hold
-----------------------------------------------------------------------------------------

section shares

variable {M : Type} [AddCommMonoid M]

/-- The share of an entry of the pool of values. -/
def entryShare (val : UserVal → M) : Option UserVal → M
  | none => 0
  | some u => val u

/-- All shares of a state. -/
def State.shares (s : State) (frame : Frame → M) (val : UserVal → M) : M :=
  total s.nThr (listed frame) s.stack + total s.nVals (entryShare val) s.vals

/-- The pool has no values beyond its bound. -/
def State.Pooled (s : State) : Prop :=
  ∀ v, s.nVals ≤ v → s.vals v = none

/-- A change takes only values that are there. -/
theorem Move.taken {s rest δ} (move : Move s rest δ) : s.Has δ.taken := by
  cases move with
  | frame | resume | deliver => trivial
  | call below step =>
      cases step with
      | @casGuard c g v cur p val there live =>
          have other : g ≠ v := by
            rintro rfl
            rw [val] at there
            cases there
          exact ⟨val, (Function.update_of_ne other _ _).trans there, trivial⟩
      | drop val | new val | startWith val | guardIntoInner val | guardFromInner val
      | closureRet val =>
          exact ⟨val, trivial⟩
      | _ => trivial

theorem State.Pooled.take {s : State} (pooled : s.Pooled) (v : Nat) : (s.take v).Pooled := by
  intro w beyond
  simp only [State.take, Function.update_apply]
  split
  · rfl
  · exact pooled w beyond

theorem State.Pooled.without {s : State} (pooled : s.Pooled) (taken)
    : (s.without taken).Pooled := by
  induction taken generalizing s with
  | nil => exact pooled
  | cons vu taken ih => exact ih (pooled.take vu.1)

theorem State.Pooled.after {s : State} {t δ rest} (pooled : s.Pooled)
    : (s.after t δ rest).Pooled := by
  intro v beyond
  have kept {v} (beyond : s.nVals ≤ v) : (s.without δ.taken).vals v = none := by
    apply pooled.without
    rwa [s.without_nVals]
  cases given : δ.given with
  | none =>
      simp only [State.after, given, State.with, s.without_nVals] at beyond ⊢
      exact kept beyond
  | some u =>
      simp only [State.after, given, State.with, State.give, s.without_nVals] at beyond ⊢
      rw [Function.update_of_ne (by omega)]
      exact kept (by omega)

/-- The shares of the values that user code gives up. -/
def takenShares (val : UserVal → M) (taken : List (Nat × UserVal)) : M :=
  listed (fun vu => val vu.2) taken

@[simp]
theorem takenShares_nil (val : UserVal → M) : takenShares val [] = 0 := rfl

@[simp]
theorem takenShares_cons (val : UserVal → M) (v : Nat) (u : UserVal) (taken)
    : takenShares val ((v, u) :: taken) = val u + takenShares val taken := rfl

/-- The pool without the values that user code gives up. -/
theorem State.Has.split {s : State} {taken} (has : s.Has taken) (pooled : s.Pooled)
    (val : UserVal → M)
    : total s.nVals (entryShare val) s.vals
      = takenShares val taken
        + total (s.without taken).nVals (entryShare val) (s.without taken).vals := by
  induction taken generalizing s with
  | nil => exact (zero_add _).symm
  | cons vu taken ih =>
      obtain ⟨v, u⟩ := vu
      obtain ⟨there, has⟩ := has
      have inside : v < s.nVals := by
        by_contra beyond
        rw [pooled v (by omega)] at there
        cases there
      obtain ⟨pool, split, update⟩ := total_split (entryShare val) s.vals inside
      have without : total (s.take v).nVals (entryShare val) (s.take v).vals = pool := by
        have eq := update none
        rwa [entryShare, zero_add] at eq
      rw [split, there, takenShares_cons, add_assoc, ← without]
      exact congrArg _ (ih has (pooled.take v))

/-- One step replaces the shares of what it changes and keeps the rest. -/
theorem State.shares_after {s : State} {t δ rest} (frame : Frame → M) (val : UserVal → M)
    (pooled : s.Pooled) (member : t < s.nThr) (top : s.stack t = δ.old ++ rest)
    (move : Move s rest δ)
    : ∃ r, s.shares frame val
          = (takenShares val δ.taken + listed frame δ.old) + r
        ∧ (s.after t δ rest).shares frame val
          = (entryShare val δ.given + listed frame δ.new) + r := by
  obtain ⟨others, split, update⟩ := total_split (listed frame) s.stack member
  have pool := move.taken.split pooled val
  have given
      : total (s.after t δ rest).nVals (entryShare val) (s.after t δ rest).vals
        = total (s.without δ.taken).nVals (entryShare val) (s.without δ.taken).vals
          + entryShare val δ.given := by
    cases given : δ.given with
    | none => simp only [State.after, given, State.with, entryShare, add_zero]
    | some u =>
        simp only [State.after, given, State.with, State.give]
        rw [total_succ_update]
  refine ⟨listed frame rest + others
    + total (s.without δ.taken).nVals (entryShare val) (s.without δ.taken).vals, ?_, ?_⟩
  · rw [State.shares, split, pool, top, listed_append]
    ac_rfl
  · rw [State.shares, given, State.after_nThr, State.after_stack, update, listed_append]
    ac_rfl

end shares

def LoadPc.tokens (c : CellId) : LoadPc → Tokens
  | .lock => 0
  | .read => {.shared c none}
  | .inc p => {.shared c (some p)}
  | .unlock p => .shared c none ::ₘ {.own p}

def WaitPc.tokens (c : CellId) (p : Ptr) : WaitPc → Tokens
  | .lock => {.retired c p}
  | .unlock => .exclusive c none ::ₘ {.own p}

def Current.tokens : Current → Tokens
  | .raw _ => 0
  | .guard p => {.own p}

def CasPc.tokens (c : CellId) (cur : Current) (new : Ptr) : CasPc → Tokens
  | .lock => .own new ::ₘ cur.tokens
  | .exchange => .exclusive c none ::ₘ .own new ::ₘ cur.tokens
  | .inc old => .exclusive c (some old) ::ₘ .own new ::ₘ cur.tokens
  | .newWait old => .exclusive c none ::ₘ .own old ::ₘ cur.tokens
  | .currentWait old | .unlock old => .exclusive c none ::ₘ {.own old}

def rcuTokens : RcuPc → Tokens
  | .loadWait _ | .intoWait _ _ _ | .unwindWait => 0
  | .closureWait cur _ | .casWait cur _ _ => {.own cur.ptr}
  | .doneWait r _ => {.own r}
  | .againWait prev _ => {.own prev.ptr}

def cacheTokens (p : Ptr) : CachePc → Tokens
  | .peek | .loadWait _ => {.own p}
  | .decWait r => {.own r}

def Frame.tokens : Frame → Tokens
  | .ret _ (.ptr p) => {.own p}
  | .ret _ (.prot g) => {.own g.ptr}
  | .destructor p => {.dying p}
  | .dec p => {.own p}
  | .load c _ pc => pc.tokens c
  | .wait c p pc => pc.tokens c p
  | .swap _ _ new => {.own new}
  | .cas c _ cur new pc => pc.tokens c cur new
  | .rcu _ _ pc => rcuTokens pc
  | .cache _ p pc => cacheTokens p pc
  | .cellInto _ (some p) => {.own p}
  | _ => 0

theorem dropCurrent_tokens {c op cur new old}
    : listed Frame.tokens (dropCurrent c op cur new old)
      = .exclusive c none ::ₘ .own old ::ₘ cur.tokens := by
  cases cur with
  | raw => rfl
  | guard p =>
      simp only [dropCurrent, listed_cons, listed_nil, add_zero, Frame.tokens, CasPc.tokens,
        Current.tokens, Multiset.singleton_add]
      rw [Multiset.cons_swap]
      exact congrArg _ (Multiset.pair_comm _ _)

/-- All tokens of a state. -/
def State.tokens (s : State) : Tokens :=
  s.shares Frame.tokens fun u => {.own u.ptr}

section mem

variable {s : State} {t : ThreadId} {tok : Token} {u : UserVal} {v : Nat}

theorem State.mem_tokens_of_frame {fr} (member : t < s.nThr) (inside : fr ∈ s.stack t)
    (held : tok ∈ fr.tokens)
    : tok ∈ s.tokens :=
  Multiset.mem_add.mpr
    (.inl (mem_total.mpr ⟨t, member, mem_listed.mpr ⟨fr, inside, held⟩⟩))

theorem State.mem_tokens_of_val (pooled : s.Pooled) (there : s.vals v = some u)
    : .own u.ptr ∈ s.tokens := by
  have inside : v < s.nVals := by
    by_contra beyond
    rw [pooled v (by omega)] at there
    cases there
  refine Multiset.mem_add.mpr (.inr (mem_total.mpr ⟨v, inside, ?_⟩))
  rw [there]
  exact Multiset.mem_singleton_self _

end mem

-----------------------------------------------------------------------------------------
-- Where frames are
-----------------------------------------------------------------------------------------

/-- The storage in use that the frame borrows. -/
def Frame.uses : Frame → Option CellId
  | .load c _ _ | .loadFull c _ | .swap c _ _ | .swapWait c | .storeWait c | .cas c _ _ _ _
  | .rcu c _ _ | .cache c _ _ => some c
  | _ => none

/-- The storage that the frame brings to its end. -/
def Frame.closes : Frame → Option CellId
  | .cellDrop c _ | .cellInto c _ => some c
  | _ => none

structure Frame.Sited (mem : ArcSwap.Shared) (fr : Frame) : Prop where
  live : ∀ c, fr.uses = some c → mem.status c = .live
  closed : ∀ c, fr.closes = some c → c < mem.nCells ∧ mem.status c ≠ .live

/-- What a frame returns to a caller that relies on it. -/
def Frame.spec : Frame → Option Spec
  | .ret spec _ => some spec
  | .load c began _ | .loadFull c began => some (.load c began)
  | .cas c op cur new _ => some (.swapped c op cur.asRaw new)
  | _ => none

/-- What a frame waits for. -/
def Frame.awaits : Frame → Option Spec
  | .loadFull c began | .rcu c _ (.loadWait began) | .cache c _ (.loadWait began) =>
      some (.load c began)
  | .rcu c op (.casWait cur new _) => some (.swapped c op cur.ptr.addr new)
  | _ => none

/-- A frame returns what the frame below waits for, and closures are called by `rcu`. -/
structure Frame.On (rest : List Frame) (fr : Frame) : Prop where
  answers : ∀ caller ∈ rest.head?, ∀ spec, caller.awaits = some spec → fr.spec = some spec
  closure
    : ∀ p, fr = .closure p
      → ∃ c op cur calls base, rest = .rcu c op (.closureWait cur calls) :: base ∧ cur.ptr = p

def StackOk : List Frame → Prop
  | [] => True
  | fr :: rest => fr.On rest ∧ StackOk rest

section frames

variable {sh : Shared} {mem : ArcSwap.Shared} {fr caller : Frame} {act : Act}
  {frames rest : List Frame} {spec : Spec} {v : Ret}

/-- The frame is for the same storage as `f`. -/
def Frame.Within (f fr : Frame) : Prop :=
  (∀ c, fr.uses = some c → f.uses = some c) ∧ ∀ c, fr.closes = some c → f.closes = some c

theorem dropCurrent_within {c op cur new old pc}
    : (dropCurrent c op cur new old).Forall (Frame.cas c op cur new pc).Within := by
  cases cur <;> simp [dropCurrent, Frame.Within, Frame.uses, Frame.closes]

theorem FrameStep.within (step : FrameStep sh fr act frames) : frames.Forall fr.Within := by
  cases step with
  | casExchange => exact dropCurrent_within
  | _ => simp [Frame.Within, Frame.uses, Frame.closes]

theorem ResumeStep.within (step : ResumeStep caller v frames) : frames.Forall caller.Within := by
  cases step with
  | casRejected => exact dropCurrent_within
  | _ => simp [Frame.Within, Frame.uses, Frame.closes]

theorem Frame.Sited.within {f : Frame} (sited : f.Sited mem) (within : f.Within fr)
    : fr.Sited mem :=
  ⟨fun c uses => sited.live c (within.1 c uses),
    fun c closes => sited.closed c (within.2 c closes)⟩

/-- Storages are closed by their owners only, and freed after they have been closed. -/
theorem Frame.Sited.after {act : ArcSwap.Act} (sited : fr.Sited mem)
    (bound : ∀ c, mem.status c ≠ .gone → c < mem.nCells)
    (unclosed : ∀ c a, act = .closeCell c a → fr.uses ≠ some c)
    (freed : ∀ c, act = .freeCell c → mem.status c ≠ .live)
    : fr.Sited (mem.after act) := by
  refine ⟨fun c uses => ?_, fun c closes => ?_⟩
  · have live := sited.live c uses
    cases act with
    | closeCell d a =>
        have other : c ≠ d := by
          rintro rfl
          exact unclosed c a rfl uses
        simpa [ArcSwap.Shared.after, ArcSwap.Act.exec, other] using live
    | freeCell d =>
        have other : c ≠ d := by
          rintro rfl
          exact freed c rfl live
        simpa [ArcSwap.Shared.after, ArcSwap.Act.exec, other] using live
    | newCell =>
        have other : c ≠ mem.nCells := Nat.ne_of_lt (bound c (by simp [live]))
        simpa [ArcSwap.Shared.after, ArcSwap.Act.exec, other] using live
    | _ => exact live
  · obtain ⟨inside, closed⟩ := sited.closed c closes
    cases act with
    | closeCell d a =>
        refine ⟨inside, ?_⟩
        by_cases same : c = d
        · simp [ArcSwap.Shared.after, ArcSwap.Act.exec, same]
        · simpa [ArcSwap.Shared.after, ArcSwap.Act.exec, same] using closed
    | freeCell d =>
        refine ⟨inside, ?_⟩
        by_cases same : c = d
        · simp [ArcSwap.Shared.after, ArcSwap.Act.exec, same]
        · simpa [ArcSwap.Shared.after, ArcSwap.Act.exec, same] using closed
    | newCell =>
        refine ⟨Nat.lt_succ_of_lt inside, ?_⟩
        have other : c ≠ mem.nCells := Nat.ne_of_lt inside
        simpa [ArcSwap.Shared.after, ArcSwap.Act.exec, other] using closed
    | _ => exact ⟨inside, closed⟩

/-- A frame may be replaced by one that returns the same. -/
theorem Frame.On.replace {new : Frame} (on : fr.On rest)
    (spec : ∀ σ, fr.spec = some σ → new.spec = some σ) (code : new.isUser = false)
    : new.On rest := by
  refine ⟨fun caller inside σ awaits => spec σ (on.answers caller inside σ awaits), ?_⟩
  rintro p rfl
  cases code

/-- A frame that waits for nothing in particular may be covered by any code. -/
theorem Frame.On.cover {new : Frame} (free : fr.awaits = none) (code : new.isUser = false)
    : new.On (fr :: rest) := by
  refine ⟨?_, ?_⟩
  · intro caller inside σ awaits
    cases inside
    rw [free] at awaits
    cases awaits
  · rintro p rfl
    cases code

theorem dropCurrent_stackOk {c op cur new old pc} (on : (Frame.cas c op cur new pc).On rest)
    (below : StackOk rest)
    : StackOk (dropCurrent c op cur new old ++ rest) := by
  have same {pc'} : (Frame.cas c op cur new pc').On rest := on.replace (fun _ eq => eq) rfl
  cases cur with
  | raw => exact ⟨same, below⟩
  | guard => exact ⟨.cover rfl rfl, same, below⟩

theorem FrameStep.stackOk (step : FrameStep sh fr act frames) (ok : StackOk (fr :: rest))
    : StackOk (frames ++ rest) := by
  obtain ⟨on, below⟩ := ok
  have bare (none : fr.spec = none) (σ) (eq : fr.spec = some σ) (new : Frame)
      : new.spec = some σ := by
    rw [none] at eq
    cases eq
  cases step with
  | decLast =>
      refine ⟨⟨?_, fun p eq => by cases eq⟩, below⟩
      exact fun caller inside σ awaits => bare rfl σ (on.answers caller inside σ awaits) _
  | decNull | decMore | waitUnlock | cacheHit | dropFree | intoFree =>
      exact ⟨on.replace (fun σ eq => bare rfl σ eq _) rfl, below⟩
  | swap => exact ⟨.cover rfl rfl, on.replace (fun σ eq => bare rfl σ eq _) rfl, below⟩
  | casExchange => exact dropCurrent_stackOk on below
  | casInc => exact ⟨.cover rfl rfl, on.replace (fun _ eq => eq) rfl, below⟩
  | cacheMiss =>
      refine ⟨⟨?_, fun p eq => by cases eq⟩, ⟨?_, fun p eq => by cases eq⟩,
        on.replace (fun σ eq => bare rfl σ eq _) rfl, below⟩
      · rintro caller ⟨⟩ σ awaits
        exact awaits
      · rintro caller ⟨⟩ σ awaits
        exact awaits
  | _ => exact ⟨on.replace (fun _ eq => eq) rfl, below⟩

theorem ResumeStep.stackOk (step : ResumeStep caller v frames)
    (ok : StackOk (.ret spec v :: caller :: rest))
    : StackOk (frames ++ rest) := by
  obtain ⟨-, on, below⟩ := ok
  have bare (none : caller.spec = none) (σ) (eq : caller.spec = some σ) (new : Frame)
      : new.spec = some σ := by
    rw [none] at eq
    cases eq
  have replace {new : Frame} (none : caller.spec = none) (code : new.isUser = false)
      : new.On rest :=
    on.replace (fun σ eq => bare none σ eq _) code
  cases step with
  | loadFull | casDropped => exact ⟨on.replace (fun _ eq => eq) rfl, below⟩
  | casRejected => exact dropCurrent_stackOk on below
  | swap | store | rcuDone | rcuUnwind | cacheDone | dropDec | intoWaited =>
      exact ⟨replace rfl rfl, below⟩
  | rcuLoad | rcuAgain =>
      refine ⟨⟨?_, ?_⟩, replace rfl rfl, below⟩
      · rintro caller ⟨⟩ σ awaits
        cases awaits
      · rintro p ⟨⟩
        exact ⟨_, _, _, _, _, rfl, rfl⟩
  | rcuTry =>
      refine ⟨⟨?_, fun p eq => by cases eq⟩, replace rfl rfl, below⟩
      rintro caller ⟨⟩ σ awaits
      exact awaits
  | rcuPanic | rcuSwapped | rcuLost | cacheLoad | dropWaited =>
      exact ⟨.cover rfl rfl, replace rfl rfl, below⟩

end frames

-----------------------------------------------------------------------------------------
-- Steps
-----------------------------------------------------------------------------------------

section steps

variable {s : State} {sh : Shared} {fr caller : Frame} {act : Act} {frames rest : List Frame}
  {r : Tokens} {v : Ret} {δ : Change}

/-- One step of a frame, by the rule for its access. -/
theorem FrameStep.inv (step : FrameStep sh fr act frames) (sited : fr.Sited sh.mem)
    (inv : Inv sh (fr.tokens + r))
    : Inv (sh.after act) (listed Frame.tokens frames + r) := by
  cases step with
  | decNull null =>
      simp only [listed_cons, listed_nil, add_zero, Frame.tokens, Multiset.singleton_add,
        zero_add] at inv ⊢
      exact inv.decNull null
  | decLast real one =>
      simp only [listed_cons, listed_nil, add_zero, Frame.tokens, Multiset.singleton_add] at inv ⊢
      exact inv.decLast real one
  | decMore real other =>
      simp only [listed_cons, listed_nil, add_zero, Frame.tokens, Multiset.singleton_add,
        zero_add] at inv ⊢
      exact inv.decMore real other
  | loadLock free =>
      simp only [listed_cons, listed_nil, add_zero, Frame.tokens, LoadPc.tokens,
        Multiset.singleton_add, zero_add] at inv ⊢
      exact inv.lockRead free
  | loadRead =>
      simp only [listed_cons, listed_nil, add_zero, Frame.tokens, LoadPc.tokens,
        Multiset.singleton_add] at inv ⊢
      exact (inv.read (sited.live _ rfl)).tick
  | loadInc =>
      simp only [listed_cons, listed_nil, add_zero, Frame.tokens, LoadPc.tokens,
        Multiset.singleton_add, Multiset.cons_add] at inv ⊢
      exact inv.incRead
  | loadUnlock =>
      simp only [listed_cons, listed_nil, add_zero, Frame.tokens, LoadPc.tokens,
        Multiset.singleton_add, Multiset.cons_add] at inv ⊢
      exact inv.unlockRead
  | waitLock free =>
      simp only [listed_cons, listed_nil, add_zero, Frame.tokens, WaitPc.tokens,
        Multiset.singleton_add, Multiset.cons_add] at inv ⊢
      exact (inv.settle free).lockWrite free
  | waitUnlock =>
      simp only [listed_cons, listed_nil, add_zero, Frame.tokens, WaitPc.tokens,
        Multiset.singleton_add, Multiset.cons_add] at inv ⊢
      exact inv.unlockWrite
  | swap =>
      simp only [listed_cons, listed_nil, add_zero, Frame.tokens, WaitPc.tokens,
        Multiset.singleton_add] at inv ⊢
      exact inv.swap (sited.live _ rfl)
  | casLock free =>
      simp only [listed_cons, listed_nil, add_zero, Frame.tokens, CasPc.tokens,
        Multiset.cons_add] at inv ⊢
      exact inv.lockWrite free
  | casExchange =>
      simp only [dropCurrent_tokens, Frame.tokens, CasPc.tokens, Multiset.cons_add] at inv ⊢
      exact inv.exchange (sited.live _ rfl)
  | casReject =>
      simp only [listed_cons, listed_nil, add_zero, Frame.tokens, CasPc.tokens,
        Multiset.cons_add] at inv ⊢
      exact (inv.readAlone (sited.live _ rfl)).tick
  | casInc =>
      simp only [listed_cons, listed_nil, add_zero, Frame.tokens, CasPc.tokens,
        Multiset.singleton_add, Multiset.cons_add] at inv ⊢
      have order (x y z : Token) (r : Tokens)
          : x ::ₘ y ::ₘ z ::ₘ r = z ::ₘ x ::ₘ y ::ₘ r := by
        rw [Multiset.cons_swap y z, Multiset.cons_swap x z]
      rw [← order]
      exact inv.incReadAlone
  | casUnlock =>
      simp only [listed_cons, listed_nil, add_zero, Frame.tokens, CasPc.tokens,
        Multiset.singleton_add, Multiset.cons_add] at inv ⊢
      exact inv.unlockWrite
  | cacheHit | cacheMiss =>
      simp only [listed_cons, listed_nil, add_zero, Frame.tokens, LoadPc.tokens, cacheTokens,
        zero_add] at inv ⊢
      exact inv.tick
  | dropFree =>
      simp only [listed_cons, listed_nil, add_zero, Frame.tokens] at inv ⊢
      exact inv.freeCell (sited.closed _ rfl).2
  | intoFree =>
      simp only [listed_cons, listed_nil, add_zero, Frame.tokens] at inv ⊢
      exact inv.freeCell (sited.closed _ rfl).2

/-- A caller that goes on holds what it had and what it gets. -/
theorem ResumeStep.tokens {spec} (step : ResumeStep caller v frames)
    : listed Frame.tokens [.ret spec v, caller] = listed Frame.tokens frames := by
  cases step with
  | casRejected => simp [dropCurrent_tokens, Frame.tokens, CasPc.tokens]
  | _ => simp [Frame.tokens, rcuTokens, cacheTokens, CasPc.tokens, Current.tokens, add_comm]

/-- Operations start without tokens but the one of their argument. -/
theorem Entry.tokens {c p} (entry : Entry sh c p frames)
    : listed Frame.tokens frames = p.elim 0 fun p => {.own p} := by
  cases entry <;>
    simp [Frame.tokens, LoadPc.tokens, CasPc.tokens, Current.tokens, rcuTokens, cacheTokens]

/-- What user code does, by the rule for its access. -/
theorem CallStep.inv (step : CallStep s rest δ)
    (held : ∀ v u, s.vals v = some u → .own u.ptr ∈ s.tokens)
    (argument : ∀ p, rest.head? = some (.closure p) → .own p ∈ s.tokens)
    (tokens
      : s.tokens
        = takenShares (fun u => {.own u.ptr}) δ.taken + listed Frame.tokens δ.old + r)
    (inv : Inv s.sh s.tokens)
    : Inv (s.sh.after δ.act)
        (entryShare (fun u => {.own u.ptr}) δ.given + listed Frame.tokens δ.new + r) := by
  have alive {p} (inside : .own p ∈ s.tokens) : p.Valid s.sh.mem ∧ s.sh.mem.Alive p :=
    ⟨inv.ledger.fine _ inside p rfl, inv.ledger.alive inside rfl⟩
  -- What is taken and what is given is one token at most.
  cases step with
  | alloc free real word =>
      simp only [takenShares_nil, entryShare, listed_nil, zero_add, add_zero] at tokens ⊢
      rw [Multiset.singleton_add, ← tokens]
      exact inv.newObj free real word
  | null =>
      simp only [takenShares_nil, entryShare, listed_nil, zero_add, add_zero] at tokens ⊢
      rw [Multiset.singleton_add, ← tokens]
      exact inv.newNull
  | clone val =>
      simp only [takenShares_nil, entryShare, listed_nil, zero_add, add_zero] at tokens ⊢
      obtain ⟨valid, alive⟩ := alive (held _ _ val)
      rw [Multiset.singleton_add, ← tokens]
      exact inv.inc valid alive
  | cloneArg top =>
      simp only [takenShares_nil, entryShare, listed_nil, zero_add, add_zero] at tokens ⊢
      obtain ⟨valid, alive⟩ := alive (argument _ top)
      rw [Multiset.singleton_add, ← tokens]
      exact inv.inc valid alive
  | drop val | guardIntoInner val | guardFromInner val | closureRet val ty =>
      simp only [takenShares_cons, takenShares_nil, entryShare, listed_cons, listed_nil,
        Frame.tokens, zero_add, add_zero, UserVal.ptr] at tokens ⊢
      rw [← tokens]
      exact inv.tick
  | casGuard val there live =>
      simp only [takenShares_cons, takenShares_nil, entryShare, listed_cons,
        listed_nil, Frame.tokens, CasPc.tokens, Current.tokens, zero_add, add_zero,
        UserVal.ptr] at tokens ⊢
      rw [← Multiset.singleton_add, ← tokens]
      exact inv.tick
  | new val free =>
      simp only [takenShares_cons, takenShares_nil, entryShare, listed_nil, zero_add, add_zero,
        UserVal.ptr] at tokens ⊢
      rw [tokens, Multiset.singleton_add] at inv
      exact inv.newCell
  | moveCell live =>
      simp only [takenShares_nil, entryShare, listed_nil, zero_add] at tokens ⊢
      rw [← tokens]
      exact inv.moveCell
  | start live entry =>
      simp only [takenShares_nil, entryShare, listed_nil, zero_add, entry.tokens,
        Option.elim] at tokens ⊢
      rw [← tokens]
      exact inv.tick
  | startWith val live entry =>
      simp only [takenShares_cons, takenShares_nil, entryShare, listed_nil, zero_add, add_zero,
        entry.tokens, Option.elim, UserVal.ptr] at tokens ⊢
      rw [← tokens]
      exact inv.tick
  | intoInner live unused | dropCell live unused =>
      simp only [takenShares_nil, entryShare, listed_cons, listed_nil, Frame.tokens, WaitPc.tokens,
        zero_add, add_zero] at tokens ⊢
      rw [Multiset.singleton_add, ← tokens]
      exact inv.closeCell live
  | closurePanic | exit =>
      simp only [takenShares_nil, entryShare, listed_cons, listed_nil, Frame.tokens,
        zero_add, add_zero]
        at tokens ⊢
      rw [← tokens]
      exact inv.tick
  | destructorRet =>
      simp only [takenShares_nil, entryShare, listed_cons, listed_nil, Frame.tokens,
        zero_add, add_zero]
        at tokens ⊢
      rw [tokens, Multiset.singleton_add] at inv
      exact inv.dealloc

/-- What every step preserves. -/
theorem Move.inv (move : Move s rest δ)
    (held : ∀ v u, s.vals v = some u → .own u.ptr ∈ s.tokens)
    (argument : ∀ p, rest.head? = some (.closure p) → .own p ∈ s.tokens)
    (sited : ∀ fr ∈ δ.old, fr.Sited s.sh.mem)
    (tokens
      : s.tokens
        = takenShares (fun u => {.own u.ptr}) δ.taken + listed Frame.tokens δ.old + r)
    (inv : Inv s.sh s.tokens)
    : Inv (s.sh.after δ.act)
        (entryShare (fun u => {.own u.ptr}) δ.given + listed Frame.tokens δ.new + r) := by
  cases move with
  | @frame fr act frames step =>
      simp only [takenShares_nil, entryShare, listed_cons, listed_nil, zero_add,
        add_zero] at tokens ⊢
      rw [tokens] at inv
      exact step.inv (sited fr (List.mem_singleton_self _)) inv
  | resume waits step =>
      simp only [takenShares_nil, entryShare, zero_add] at tokens ⊢
      rw [← step.tokens, ← tokens]
      exact inv.tick
  | @deliver spec v below =>
      have same : entryShare (fun u => {.own u.ptr}) v.val = listed Frame.tokens [.ret spec v] := by
        cases v <;> rfl
      simp only [takenShares_nil, zero_add] at tokens
      simp only [same, listed_nil, add_zero]
      rw [← tokens]
      exact inv.tick
  | call below step => exact step.inv held argument tokens inv

-- The frames of a step.

theorem Frame.On.user {new : Frame} (below : belowUser rest) (code : new.isUser = false)
    : new.On rest := by
  refine ⟨?_, ?_⟩
  · intro caller inside σ awaits
    cases rest with
    | nil => cases inside
    | cons fr others =>
        cases inside
        cases caller <;> cases below <;> cases awaits
  · rintro p rfl
    cases code

theorem Entry.stackOk {c p} (entry : Entry sh c p frames) (below : belowUser rest)
    (ok : StackOk rest)
    : StackOk (frames ++ rest) := by
  cases entry with
  | load | swap | cas | cache => exact ⟨.user below rfl, ok⟩
  | store => exact ⟨.cover rfl rfl, .user below rfl, ok⟩
  | loadFull | rcu =>
      refine ⟨⟨?_, fun p eq => by cases eq⟩, .user below rfl, ok⟩
      rintro caller ⟨⟩ σ awaits
      exact awaits

theorem Entry.uses {c p} (entry : Entry sh c p frames)
    : frames.Forall fun fr => fr.uses = some c ∧ fr.closes = none := by
  cases entry <;> simp [Frame.uses, Frame.closes]

theorem CallStep.stackOk (step : CallStep s rest δ) (below : δ.old = [] → belowUser rest)
    (ok : StackOk (δ.old ++ rest))
    : StackOk (δ.new ++ rest) := by
  cases step with
  | start live entry | startWith val live entry => exact entry.stackOk (below rfl) ok
  | drop | casGuard => exact ⟨.user (below rfl) rfl, ok⟩
  | intoInner | dropCell => exact ⟨.cover rfl rfl, .user (below rfl) rfl, ok⟩
  | closureRet | closurePanic =>
      obtain ⟨on, ok⟩ := ok
      obtain ⟨c, op, cur, calls, base, rfl, _⟩ := on.closure _ rfl
      exact ⟨.cover rfl rfl, ok⟩
  | destructorRet =>
      obtain ⟨on, ok⟩ := ok
      refine ⟨⟨fun caller inside σ awaits => ?_, fun p eq => by cases eq⟩, ok⟩
      cases on.answers caller inside σ awaits
  | _ => exact ok

theorem Move.stackOk (move : Move s rest δ) (ok : StackOk (δ.old ++ rest))
    : StackOk (δ.new ++ rest) := by
  cases move with
  | frame step => exact step.stackOk ok
  | resume waits step => exact step.stackOk ok
  | deliver below => exact ok.2
  | call below step => exact step.stackOk below ok

/-- A storage is closed when nobody borrows it. -/
theorem Move.closes (move : Move s rest δ) {c a} (closes : δ.act.onMem = .closeCell c a)
    : s.borrowed c = false := by
  cases move with
  | frame step =>
      cases step with
      | loadInc | casInc =>
          simp only [Act.onMem_mem, incAct] at closes
          split at closes <;> cases closes
      | _ => cases closes
  | resume | deliver => cases closes
  | call below step =>
      cases step with
      | intoInner live unused | dropCell live unused =>
          cases closes
          exact unused
      | clone | cloneArg =>
          simp only [Act.onMem_mem, incAct] at closes
          split at closes <;> cases closes
      | _ => cases closes

/-- A storage is freed by the frame that has closed it. -/
theorem Move.frees (move : Move s rest δ) {c} (frees : δ.act.onMem = .freeCell c)
    : ∃ fr ∈ δ.old, fr.closes = some c := by
  cases move with
  | frame step =>
      cases step with
      | dropFree | intoFree =>
          cases frees
          exact ⟨_, List.mem_singleton_self _, rfl⟩
      | loadInc | casInc =>
          simp only [Act.onMem_mem, incAct] at frees
          split at frees <;> cases frees
      | _ => cases frees
  | resume | deliver => cases frees
  | call below step =>
      cases step with
      | clone | cloneArg =>
          simp only [Act.onMem_mem, incAct] at frees
          split at frees <;> cases frees
      | _ => cases frees

/-- Operations start on storages in use, and owners close theirs. -/
theorem CallStep.sited (step : CallStep s rest δ) (old : ∀ fr ∈ δ.old, fr.Sited s.sh.mem)
    (bound : ∀ c, s.sh.mem.status c ≠ .gone → c < s.sh.mem.nCells)
    : ∀ fr ∈ δ.new, fr.Sited (s.sh.mem.after δ.act.onMem) := by
  have idle {fr : Frame} {mem} (uses : fr.uses = none) (closes : fr.closes = none) : fr.Sited mem :=
    ⟨fun c eq => by simp [uses] at eq, fun c eq => by simp [closes] at eq⟩
  have started {c} {frames : List Frame} (live : s.sh.mem.status c = .live)
      (uses : frames.Forall fun fr => fr.uses = some c ∧ fr.closes = none) (fr)
        (inside : fr ∈ frames)
      : fr.Sited (s.sh.mem.after .nop) := by
    obtain ⟨uses, closes⟩ := List.forall_iff_forall_mem.mp uses fr inside
    refine ⟨fun d eq => ?_, fun d eq => by simp [closes] at eq⟩
    cases uses.symm.trans eq
    exact live
  have closing {c a} (live : s.sh.mem.status c = .live) {fr : Frame} (uses : fr.uses = none)
      (closes : fr.closes = some c)
      : fr.Sited (s.sh.mem.after (.closeCell c a)) := by
    refine ⟨fun d eq => by simp [uses] at eq, fun d eq => ?_⟩
    cases closes.symm.trans eq
    refine ⟨bound c (by simp [live]), ?_⟩
    simp [ArcSwap.Shared.after, ArcSwap.Act.exec]
  cases step with
  | start live entry | startWith val live entry => exact started live entry.uses
  | casGuard val there live => exact started live ⟨rfl, rfl⟩
  | intoInner live unused | dropCell live unused =>
      intro fr inside
      rcases List.mem_cons.mp inside with rfl | inside
      · exact idle rfl rfl
      · rw [List.mem_singleton.mp inside]
        exact closing live rfl rfl
  | drop | closureRet | closurePanic | destructorRet =>
      rintro fr inside
      rw [List.mem_singleton.mp inside]
      exact idle rfl rfl
  | _ => simp

end steps

-----------------------------------------------------------------------------------------
-- Runs
-----------------------------------------------------------------------------------------

/-- What holds in every run. -/
structure State.Safe (s : State) : Prop where
  pooled : s.Pooled
  inv : Inv s.sh s.tokens
  linked : ∀ t < s.nThr, StackOk (s.stack t)
  sited : ∀ t < s.nThr, ∀ fr ∈ s.stack t, fr.Sited s.sh.mem

section runs

variable {s s' : State} {t : ThreadId} {δ : Change} {rest : List Frame} {n : Nat} {p : Ptr}

theorem State.Safe.init (n : Nat) : (State.init n).Safe := by
  have none : (State.init n).tokens = 0 := by
    simp [State.tokens, State.shares, total, State.init, entryShare]
  refine ⟨fun _ _ => rfl, ?_, fun _ _ => trivial, fun t _ fr inside => by cases inside⟩
  rw [none]
  refine ⟨?_, ?_, ?_⟩
  · exact {
      bound := fun c used => absurd rfl used
      fine := by simp
      cells := by simp [State.init, Shared.init]
      null := rfl
      dying := by simp [State.init, Shared.init]
      balanced := by simp [State.init, Shared.init, Shared.strong, Shared.cellsAt]
    }
  · exact ⟨fun _ => rfl, fun _ => rfl, fun _ held => by cases held⟩
  · simp

/-- The argument of a closure is kept by its `rcu`. -/
theorem State.Safe.argument (safe : s.Safe) (member : t < s.nThr)
    (inside : .closure p ∈ s.stack t)
    : .own p ∈ s.tokens := by
  have find {stack : List Frame} (ok : StackOk stack) (inside : .closure p ∈ stack)
      : ∃ fr ∈ stack, .own p ∈ fr.tokens := by
    induction stack with
    | nil => cases inside
    | cons fr rest ih =>
        rcases List.mem_cons.mp inside with rfl | below
        · obtain ⟨c, op, cur, calls, base, rfl, rfl⟩ := ok.1.closure p rfl
          exact ⟨_, .tail _ (.head _), Multiset.mem_singleton_self _⟩
        · obtain ⟨fr', there, held⟩ := ih ok.2 below
          exact ⟨fr', .tail _ there, held⟩
  obtain ⟨fr, there, held⟩ := find (safe.linked t member) inside
  exact State.mem_tokens_of_frame member there held

theorem State.Safe.after (safe : s.Safe) (member : t < s.nThr) (top : s.stack t = δ.old ++ rest)
    (move : Move s rest δ)
    : (s.after t δ rest).Safe := by
  have old (fr) (inside : fr ∈ δ.old) : fr ∈ s.stack t := top ▸ List.mem_append_left _ inside
  have bound := safe.inv.ledger.bound
  refine ⟨safe.pooled.after, ?_, ?_, ?_⟩
  · obtain ⟨r, before, after⟩ :=
      State.shares_after Frame.tokens (fun u => {.own u.ptr}) safe.pooled member top move
    rw [State.tokens, after]
    refine move.inv (fun v u val => State.mem_tokens_of_val safe.pooled val) ?_ ?_ before safe.inv
    · intro p head
      refine safe.argument member ?_
      rw [top]
      exact List.mem_append_right _ (List.mem_of_mem_head? head)
    · exact fun fr inside => safe.sited t member fr (old fr inside)
  · intro t' member'
    rw [State.after_stack]
    by_cases same : t' = t
    · subst same
      rw [Function.update_self]
      exact move.stackOk (top ▸ safe.linked t' member)
    · rw [Function.update_of_ne same]
      exact safe.linked t' (by simpa using member')
  · have kept {t' fr} (member' : t' < s.nThr) (inside : fr ∈ s.stack t')
        : fr.Sited (s.sh.mem.after δ.act.onMem) := by
      refine (safe.sited t' member' fr inside).after bound ?_ ?_
      · intro c a closes uses
        have unused := move.closes closes
        simp only [State.borrowed, List.any_eq_false, List.mem_range] at unused
        refine unused t' member' ?_
        simp only [List.any_eq_true, beq_iff_eq]
        refine ⟨fr, inside, ?_⟩
        cases fr <;> cases uses <;> rfl
      · intro c frees
        obtain ⟨fr', there, closes⟩ := move.frees frees
        exact ((safe.sited t member fr' (old fr' there)).closed c closes).2
    have new (fr) (inside : fr ∈ δ.new) : fr.Sited (s.sh.mem.after δ.act.onMem) := by
      cases move with
      | @frame f act frames step =>
          refine (kept member (old f (List.mem_singleton_self _))).within ?_
          exact List.forall_iff_forall_mem.mp step.within fr inside
      | @resume spec v caller frames waits step =>
          refine (kept member (old caller (by simp))).within ?_
          exact List.forall_iff_forall_mem.mp step.within fr inside
      | deliver => cases inside
      | call below step =>
          exact step.sited (fun f there => safe.sited t member f (old f there)) bound fr inside
    intro t' member' fr inside
    rw [State.after_stack] at inside
    rw [State.after_sh, Shared.after_mem]
    by_cases same : t' = t
    · subst same
      rw [Function.update_self] at inside
      rcases List.mem_append.mp inside with inside | inside
      · exact new fr inside
      · exact kept member (top ▸ List.mem_append_right _ inside)
    · rw [Function.update_of_ne same] at inside
      exact kept (by simpa using member') inside

/-- Every run. -/
abbrev Run (n : Nat) : State → Prop :=
  Reaches step (fun _ _ => True) (State.init n)

theorem safe_of_run (run : Run n s) : s.Safe := by
  refine run.invariant (.init n) ?_
  intro s l s' _ safe _ taken
  obtain ⟨member, δ, rest, top, move, rfl⟩ := step_moves taken
  exact safe.after member top move

end runs

/-- The pointer that the frame passes to `T::inc` or `T::dec` in its next step. -/
def Frame.counts : Frame → Option Ptr
  | .dec p | .load _ _ (.inc p) | .cas _ _ _ _ (.inc p) => some p
  | _ => none

/-- The pointer that a step passes to `T::inc` or `T::dec`. -/
def State.counts (s : State) : Label → Option Ptr
  | .run t _ => (s.stack t).head?.bind Frame.counts
  | .call _ (.clone v) => (s.vals v).map UserVal.ptr
  | .call t .cloneArg =>
      match s.stack t with
      | .closure p :: _ => some p
      | _ => none
  | _ => none

/-- The pointers that user code, storages, operations in progress and arguments of closures hold,
and those that have been read under a lock.
-/
inductive State.Holds (s : State) : Ptr → Prop
  | value {v u} (val : s.vals v = some u) : s.Holds u.ptr
  | cell {c} (live : s.sh.mem.status c = .live) : s.Holds (s.sh.mem.ptr c)
  | frame {t fr tok p} (member : t < s.nThr) (inside : fr ∈ s.stack t) (held : tok ∈ fr.tokens)
    (keeps : tok.keeps = some p)
    : s.Holds p
  | read {t fr tok c p} (member : t < s.nThr) (inside : fr ∈ s.stack t) (held : tok ∈ fr.tokens)
    (sees : tok.sees = some (c, p))
    : s.Holds p
  | argument {t p} (member : t < s.nThr) (inside : .closure p ∈ s.stack t) : s.Holds p

section holds

variable {s s' : State} {n : Nat} {p : Ptr}

theorem State.Safe.alive (safe : s.Safe) (holds : s.Holds p) : s.sh.mem.Alive p := by
  have ledger := safe.inv.ledger
  cases holds with
  | value val => exact ledger.alive (State.mem_tokens_of_val safe.pooled val) rfl
  | cell live => exact ledger.cellAlive live
  | frame member inside held keeps =>
      exact ledger.alive (State.mem_tokens_of_frame member inside held) keeps
  | read member inside held sees =>
      exact (safe.inv.alive (State.mem_tokens_of_frame member inside held) sees).2
  | argument member inside => exact ledger.alive (safe.argument member inside) rfl

/-- Whatever is passed to `T::inc` or `T::dec` is held. -/
theorem holds_of_counts {l : Label} (taken : step s l = some s') (counts : s.counts l = some p)
    : s.Holds p := by
  obtain ⟨member, _⟩ := step_moves taken
  cases l with
  | run t spurious =>
      obtain ⟨fr, top, counts⟩ := Option.bind_eq_some_iff.mp counts
      have inside := List.mem_of_mem_head? top
      cases fr with
      | dec q =>
          cases counts
          exact .frame member inside (Multiset.mem_singleton_self _) rfl
      | load c began pc =>
          cases pc <;> cases counts
          exact .read member inside (Multiset.mem_singleton_self _) rfl
      | cas c op cur new pc =>
          cases pc <;> cases counts
          have sees : (Token.exclusive c (some p)).sees = some (c, p) := rfl
          exact .read member inside (by simp [Frame.tokens, CasPc.tokens]) sees
      | _ => cases counts
  | compareAndSwapGuard => cases counts
  | call t k =>
      cases k with
      | clone v =>
          obtain ⟨u, val, rfl⟩ := Option.map_eq_some_iff.mp counts
          exact .value val
      | cloneArg =>
          simp only [State.counts] at counts
          split at counts <;> cases counts
          rename_i rest top
          exact .argument member (top ▸ .head _)
      | _ => cases counts

/-- Whatever user code, a storage or an operation in progress holds, whatever has been read under
a lock before it is counted, and whatever is passed to `T::inc` or `T::dec`, has a count and has
not been destroyed, although `swap` exchanges the pointer outside the lock.
-/
theorem lock_protects (run : Run n s)
    : (∀ p, s.Holds p → s.sh.mem.Alive p)
      ∧ ∀ l s' p, step s l = some s' → s.counts l = some p → s.sh.mem.Alive p := by
  have safe := safe_of_run run
  refine ⟨fun p holds => safe.alive holds, ?_⟩
  intro l s' p taken counts
  exact safe.alive (holds_of_counts taken counts)

end holds

/-- A reader has read the storage under its lock, and another thread takes the pointer out. -/
def readSchedule : List Label :=
  [.call 0 (.alloc 16 0), .call 0 (.new 0 100 true), .call 0 (.load 0), .run 0 false, .run 0 false,
    .call 1 (.null 0), .call 1 (.store 0 1), .run 1 false]

/-- The reader passes the pointer to `T::inc` while the storage holds another one. -/
theorem lock_protects_removed
    : ∃ s : State, s.sh.mem.ptr 0 = ⟨0, 0, 0⟩
      ∧ s.counts (.run 0 false) = some ⟨16, 0, 1⟩
        ∧ s.sh.mem.Alive ⟨16, 0, 1⟩ := by
  have ran
      : (runChecked step (fun _ _ => true) (State.init 2) readSchedule).map
            (fun s => (s.sh.mem.ptr 0, s.counts (.run 0 false), (step s (.run 0 false)).isSome))
          = some (⟨0, 0, 0⟩, some ⟨16, 0, 1⟩, true) := by
    decide +kernel
  obtain ⟨s, ran, eq⟩ := Option.map_eq_some_iff.mp ran
  simp only [Prod.mk.injEq] at eq
  obtain ⟨ptr, counts, enabled⟩ := eq
  obtain ⟨s', taken⟩ := Option.isSome_iff_exists.mp enabled
  have run : Run 2 s := reaches_of_runChecked (fun _ _ _ => trivial) ran
  exact ⟨s, ptr, counts, (lock_protects run).2 _ s' _ taken counts⟩

-----------------------------------------------------------------------------------------
-- The counts between operations
-----------------------------------------------------------------------------------------

section still

variable {s : State} {n a : Nat} {o : Obj}

/-- No operation is in progress. -/
def State.Still (s : State) : Prop :=
  ∀ t < s.nThr, s.stack t = []

/-- Handles and guards of the object at the address. -/
def State.valuesTo (s : State) (a : Nat) (o : Obj) : Nat :=
  ∑ v ∈ range s.nVals,
    match s.vals v with
    | some u => if u.ptr.Names a o then 1 else 0
    | none => 0

theorem State.Still.tokens (still : s.Still)
    : s.tokens = total s.nVals (entryShare fun u => {.own u.ptr}) s.vals := by
  have none : total s.nThr (listed Frame.tokens) s.stack = 0 := by
    refine sum_eq_zero fun t member => ?_
    rw [still t (mem_range.mp member)]
    rfl
  rw [State.tokens, State.shares, none, zero_add]

/-- Between operations the claims are the values of user code. -/
theorem State.Still.claims (still : s.Still) (safe : s.Safe) (there : s.sh.mem.heap a = some o)
    (real : a ≠ 0)
    : tally (Token.claims a) s.tokens = s.valuesTo a o := by
  rw [still.tokens, tally_total, State.valuesTo]
  refine sum_congr rfl fun v _ => ?_
  cases val : s.vals v with
  | none => rfl
  | some u =>
      have valid : u.ptr.Valid s.sh.mem :=
        safe.inv.ledger.fine _ (State.mem_tokens_of_val safe.pooled val) _ rfl
      have single
          : entryShare (fun u : UserVal => ({.own u.ptr} : Tokens)) (some u) = .own u.ptr ::ₘ 0 :=
        rfl
      rw [single, tally_cons, tally_zero, Nat.add_zero, Token.claims_own]
      exact if_congr (valid.names there real).symm rfl rfl

/-- Whenever no operation is in progress, the strong count of every object is the number of its
handles, of its guards and of the storages in use that hold it, and this number is not 0: an
object is destroyed with the last reference to it. No lock is held.
-/
theorem lock_counts_add_up (run : Run n s) (still : s.Still) (there : s.sh.mem.heap a = some o)
    : o.strong
        = s.valuesTo a o
          + (∑ c ∈ range s.sh.mem.nCells,
              if s.sh.mem.status c = .live ∧ (s.sh.mem.ptr c).Names a o then 1 else 0)
      ∧ 1 ≤ o.strong ∧ ∀ c, s.sh.lock c = ⟨0, false⟩ := by
  have safe := safe_of_run run
  have ledger := safe.inv.ledger
  have locks := safe.inv.locks
  have real : a ≠ 0 := by
    rintro rfl
    rw [ledger.null] at there
    cases there
  have strong : s.sh.mem.strong a = o.strong := by simp [Shared.strong, there]
  have cells
      : s.sh.mem.cellsAt a
        = ∑ c ∈ range s.sh.mem.nCells,
            if s.sh.mem.status c = .live ∧ (s.sh.mem.ptr c).Names a o then 1 else 0 := by
    refine sum_congr rfl fun c _ => if_congr (and_congr_right fun live => ?_) rfl rfl
    exact ((ledger.cells c live).names there real).symm
  have value (tok) (inside : tok ∈ s.tokens) : ∃ u : UserVal, tok = .own u.ptr := by
    rw [still.tokens] at inside
    obtain ⟨v, _, held⟩ := mem_total.mp inside
    cases val : s.vals v with
    | none => simp [val, entryShare] at held
    | some u => exact ⟨u, by simpa [val, entryShare] using held⟩
  have weightless (weight : Token → Nat) (none : ∀ p, weight (.own p) = 0)
      : tally weight s.tokens = 0 := by
    refine tally_eq_zero _ fun tok inside => ?_
    obtain ⟨u, rfl⟩ := value tok inside
    exact none _
  refine ⟨?_, ?_, ?_⟩
  · rw [← strong, ledger.balanced a real, still.claims safe there real, cells]
  · have dying := ledger.dying a
    rw [weightless _ fun _ => rfl, there] at dying
    by_contra none
    simp only [Option.map_some, Option.some.injEq] at dying
    rw [if_pos (by omega)] at dying
    cases dying
  · intro c
    have readers := locks.readers c
    have writer := locks.writer c
    rw [weightless _ fun _ => rfl] at readers writer
    generalize s.sh.lock c = lock at readers writer
    obtain ⟨readers', writer'⟩ := lock
    cases writer' with
    | true => cases writer
    | false =>
        cases readers
        rfl

end still

/-- A guard has been loaded from a storage whose object has another handle. -/
def loadedSchedule : List Label :=
  ([.call 0 (.alloc 16 0), .call 0 (.clone 0), .call 0 (.new 0 100 true), .call 0 (.load 0)]
    : List Label)
    ++ List.replicate 5 (Label.run 0 false)

theorem lock_counts_add_up_loaded
    : ∃ s : State, s.sh.mem.heap 16 = some ⟨1, 0, 3⟩
        ∧ 3 = s.valuesTo 16 ⟨1, 0, 3⟩
          + ∑ c ∈ range s.sh.mem.nCells,
              if s.sh.mem.status c = .live ∧ (s.sh.mem.ptr c).Names 16 ⟨1, 0, 3⟩
              then 1 else 0 := by
  have ran
      : (runChecked step (fun _ _ => true) (State.init 1) loadedSchedule).map
            (fun s => (s.nThr, s.stack 0, s.sh.mem.heap 16))
          = some (1, [], some ⟨1, 0, 3⟩) := by
    decide +kernel
  obtain ⟨s, ran, eq⟩ := Option.map_eq_some_iff.mp ran
  simp only [Prod.mk.injEq] at eq
  obtain ⟨threads, idle, there⟩ := eq
  have still : s.Still := by
    intro t member
    have only : t = 0 := by omega
    rw [only, idle]
  have run : Run 1 s := reaches_of_runChecked (fun _ _ _ => trivial) ran
  exact ⟨s, there, (lock_counts_add_up run still there).1⟩

end ArcSwap.Locked
