import ArcSwap.Proofs.DebtRuns

/-! The strong counts of the whole program in careful runs. Nothing that is used has been
destroyed, and whenever no operation is in progress the counts are what user code can
expect of them.
-/

namespace ArcSwap

open Bags Finset GuardedRuns

-----------------------------------------------------------------------------------------
-- Nothing that is used has been destroyed
-----------------------------------------------------------------------------------------

/-- The very object that the pointer was made for is there, with a count. -/
def Shared.Alive (sh : Shared) (p : Ptr) : Prop :=
  p.addr ≠ 0 → ∃ o, sh.heap p.addr = some o ∧ o.id = p.prov ∧ 1 ≤ o.strong

/-- The pointer whose object the token keeps. -/
def Token.keeps : Token → Option Ptr
  | .own p | .debt p _ _ | .walk _ p _ _ | .finished _ p _ => some p
  | _ => none

/-- The pointer that the frame passes to `T::inc` or `T::dec` in its next step. -/
def Frame.counts : Frame → Option Ptr
  | .dec p => some p
  | .into g _ .inc => g.debt.map fun _ => g.ptr
  | .load _ _ _ (.ownInc _ p) => some p
  | .pay _ p _ _ .inc | .pay _ p _ _ (.bump _ _ _) => some p
  | _ => none

/-- The pointer that a step passes to `T::inc` or `T::dec`. -/
def State.counts (s : State) : Label → Option Ptr
  | .run t _ => (s.thr t).stack.head?.bind Frame.counts
  | .call _ (.clone v) => (s.vals v).map UserVal.ptr
  | .call t .cloneArg =>
      match (s.thr t).stack with
      | .closure p :: _ => some p
      | _ => none
  | _ => none

/-- The pointers that guards and handles, storages, operations in progress and arguments of
closures hold.
-/
inductive State.Holds (s : State) : Ptr → Prop
  | value {v u} (val : s.vals v = some u) : s.Holds u.ptr
  | cell {c} (live : s.sh.status c = .live) : s.Holds (s.sh.ptr c)
  | frame {t fr tok p} (member : t < s.nThr) (inside : fr ∈ (s.thr t).stack)
    (held : tok ∈ fr.tokens) (keeps : tok.keeps = some p)
    : s.Holds p
  | argument {t p} (member : t < s.nThr) (inside : .closure p ∈ (s.thr t).stack) : s.Holds p

theorem LedgerInv.alive {sh : Shared} {M : Tokens} {tok p} (inv : LedgerInv sh M)
    (bound : ∀ c, sh.status c ≠ .gone → c < sh.nCells) (inside : tok ∈ M)
    (keeps : tok.keeps = some p)
    : sh.Alive p := by
  intro real
  have object (valid : p.Valid sh) (counted : 1 ≤ sh.strong p.addr)
      : ∃ o, sh.heap p.addr = some o ∧ o.id = p.prov ∧ 1 ≤ o.strong := by
    obtain ⟨o, there, id⟩ := valid.object real
    refine ⟨o, there, id, ?_⟩
    simpa [Shared.strong, there] using counted
  have kept (kept : Kept p M)
      : ∃ o, sh.heap p.addr = some o ∧ o.id = p.prov ∧ 1 ≤ o.strong := by
    obtain ⟨valid, counted⟩ := inv.kept bound kept
    exact object valid (counted real)
  cases tok <;> cases keeps
  · exact kept (.inl inside)
  · exact kept (.inr (.inl ⟨_, _, inside⟩))
  · exact kept (.inr (.inr ⟨_, _, _, inside⟩))
  · exact object (inv.fine _ inside) (inv.told inside real)

theorem LedgerInv.cellAlive {sh : Shared} {M : Tokens} (inv : LedgerInv sh M)
    (bound : ∀ c, sh.status c ≠ .gone → c < sh.nCells) {c} (live : sh.status c = .live)
    : sh.Alive (sh.ptr c) := by
  intro real
  have valid := inv.cells c live
  obtain ⟨o, there, id⟩ := valid.object real
  have placed := inv.placed real valid.word
  have stored := Shared.cellsAt_pos bound ⟨c, live, rfl⟩
  have counted : 1 ≤ sh.strong (sh.ptr c).addr := by omega
  exact ⟨o, there, id, by simpa [Shared.strong, there] using counted⟩

theorem Prot.token_keeps (g : Prot) : g.token.keeps = some g.ptr := by
  rcases g.token_cases with eq | ⟨_, _, eq⟩ <;> rw [eq] <;> rfl

theorem UserVal.token_cases (u : UserVal)
    : u.token = .own u.ptr ∨ ∃ n i, u.token = .debt u.ptr n i := by
  cases u with
  | handle p => exact .inl rfl
  | guard g => exact g.token_cases

theorem UserVal.token_keeps (u : UserVal) : u.token.keeps = some u.ptr := by
  rcases u.token_cases with eq | ⟨_, _, eq⟩ <;> rw [eq] <;> rfl

/-- Who passes a pointer to `T::inc` or `T::dec` holds its object. -/
theorem Frame.counts_held {fr : Frame} {p} (counts : fr.counts = some p)
    : ∃ tok ∈ fr.tokens, tok.keeps = some p := by
  cases fr with
  | dec q =>
      cases counts
      exact ⟨_, Multiset.mem_singleton_self _, rfl⟩
  | into g spec pc =>
      cases pc with
      | inc =>
          obtain ⟨_, _, rfl⟩ := Option.map_eq_some_iff.mp counts
          exact ⟨_, Multiset.mem_singleton_self _, g.token_keeps⟩
      | _ => cases counts
  | load c began loc pc =>
      cases pc with
      | ownInc n q =>
          cases counts
          exact ⟨.debt p n HELPING, by simp [tokens, LoadPc.tokens], rfl⟩
      | _ => cases counts
  | pay c q since loc pc =>
      cases pc with
      | inc | bump =>
          cases counts
          exact ⟨_, Multiset.mem_singleton_self _, rfl⟩
      | _ => cases counts
  | _ => cases counts

/-- The argument of a closure is kept by the guard of its `rcu`. -/
theorem StackOk.closure {stack : List Frame} {p} (linked : StackOk stack)
    (inside : .closure p ∈ stack)
    : ∃ fr ∈ stack, ∃ g : Prot, g.token ∈ fr.tokens ∧ g.ptr = p := by
  induction stack with
  | nil => cases inside
  | cons f rest ih =>
      rcases List.mem_cons.mp inside with rfl | below
      · exact linked.argument rfl
      · obtain ⟨fr, there, held⟩ := ih linked.2 below
        exact ⟨fr, .tail _ there, held⟩

/-- Every object that is held has a count. -/
theorem State.Holds.alive {s : State} {p} (holds : s.Holds p) (ok : s.TxOk)
    (ledger : LedgerInv s.sh s.tokens)
    : s.sh.Alive p := by
  have bound := ok.tx.cells.bound
  have framed {t fr tok p} (member : t < s.nThr) (inside : fr ∈ (s.thr t).stack)
      (held : tok ∈ fr.tokens) (keeps : tok.keeps = some p)
      : s.sh.Alive p :=
    ledger.alive bound (State.mem_shares_of_frame (S := tokenShare) member inside held) keeps
  cases holds with
  | @value v u val =>
      have held : u.token ∈ s.tokens :=
        State.mem_shares_of_val ok.pool.pooled val (Multiset.mem_singleton_self _)
      exact ledger.alive bound held u.token_keeps
  | cell live => exact ledger.cellAlive bound live
  | frame member inside held keeps => exact framed member inside held keeps
  | @argument t p member inside =>
      obtain ⟨fr, there, g, held, rfl⟩ := (ok.pool.disciplined t).linked.closure inside
      exact framed member there held g.token_keeps

/-- Whatever is passed to `T::inc` or `T::dec` is held. -/
theorem holds_of_counts {cfg} {s s' : State} {l p} (taken : step cfg s l = some s')
    (counts : s.counts l = some p)
    : s.Holds p := by
  obtain ⟨_, _, member, _⟩ := step_moves taken
  cases l with
  | run t spurious =>
      obtain ⟨fr, top, counts⟩ := Option.bind_eq_some_iff.mp counts
      obtain ⟨tok, held, keeps⟩ := fr.counts_held counts
      exact .frame member (List.mem_of_mem_head? top) held keeps
  | call t k =>
      cases k with
      | clone v =>
          obtain ⟨u, val, rfl⟩ := Option.map_eq_some_iff.mp counts
          exact .value val
      | cloneArg =>
          simp only [State.counts] at counts
          split at counts <;> cases counts
          rename_i rest top
          exact .argument member (top ▸ .head _)
      | _ => cases counts

theorem alive_of_reaches {cfg n s p}
    (reached : Reaches (step cfg) (Careful cfg) (State.init n) s) (holds : s.Holds p)
    : s.sh.Alive p :=
  holds.alive (txOk_of_reaches (fun _ _ => And.left) reached) (ledger_of_reaches reached)

/-- Whatever a guard, a handle or a storage holds, and whatever is passed to `T::inc` or
`T::dec`, has a count and has not been destroyed.
-/
theorem no_use_after_free {cfg n s}
    (reached : Reaches (step cfg) (Careful cfg) (State.init n) s)
    : (∀ p, s.Holds p → s.sh.Alive p)
      ∧ ∀ l s' p, step cfg s l = some s' → s.counts l = some p → s.sh.Alive p := by
  refine ⟨fun p holds => alive_of_reaches reached holds, ?_⟩
  intro l s' p taken counts
  exact alive_of_reaches reached (holds_of_counts taken counts)

/-- A thread loads a guard whose count is owed by a fast slot. -/
def guardSchedule : List Label :=
  [.call 0 (.alloc 16 0), .call 0 (.new 0 100 true), .call 0 (.load 0)]
    ++ List.replicate 10 (.run 0 false)

set_option maxRecDepth 4000 in
/-- The guard after its pointer has been taken out of the storage, before the writer has come
to its slot.
-/
theorem no_use_after_free_removed
    : ∃ s : State, s.sh.ptr 0 = ⟨0, 0, 0⟩ ∧ s.sh.slot 0 0 = 16
      ∧ s.sh.Alive ⟨16, 0, 1⟩ := by
  let g : Prot := ⟨⟨16, 0, 1⟩, some (0, 0), some ⟨0, 2, 11⟩⟩
  let write : List Label := [.call 1 (.null 0), .call 1 (.store 0 2), .run 1 false]
  have ran
      : (runChecked (step ⟨64, true⟩) (careful ⟨64, true⟩)
          (State.init 2) (guardSchedule ++ write)).map
            (fun s => (s.sh.ptr 0, s.sh.slot 0 0, s.vals 1))
          = some (⟨0, 0, 0⟩, 16, some (.guard g)) := by
    decide +kernel
  obtain ⟨s, ran, eq⟩ := Option.map_eq_some_iff.mp ran
  simp only [Prod.mk.injEq] at eq
  obtain ⟨ptr, slot, val⟩ := eq
  have reached := reaches_of_runChecked (fun _ _ => careful_sound) ran
  exact ⟨s, ptr, slot, (no_use_after_free reached).1 _ (.value val)⟩

-----------------------------------------------------------------------------------------
-- The counts between operations
-----------------------------------------------------------------------------------------

/-- The pointer was made for the object at the address. -/
def Ptr.Names (p : Ptr) (a : Nat) (o : Obj) : Prop := p.addr = a ∧ p.prov = o.id

instance (p : Ptr) (a : Nat) (o : Obj) : Decidable (p.Names a o) :=
  inferInstanceAs (Decidable (_ ∧ _))

/-- Owned handles of the object at the address, outside the crate. -/
def State.handlesTo (s : State) (a : Nat) (o : Obj) : Nat :=
  ∑ v ∈ range s.nVals,
    match s.vals v with
    | some (.handle p) => if p.Names a o then 1 else 0
    | _ => 0

/-- Live guards over the object at the address. -/
def State.guardsTo (s : State) (a : Nat) (o : Obj) : Nat :=
  ∑ v ∈ range s.nVals,
    match s.vals v with
    | some (.guard g) => if g.ptr.Names a o then 1 else 0
    | _ => 0

/-- Containers that hold the object at the address. -/
def Shared.cellsTo (sh : Shared) (a : Nat) (o : Obj) : Nat :=
  ∑ c ∈ range sh.nCells, if sh.status c ≠ .gone ∧ (sh.ptr c).Names a o then 1 else 0

/-- No operation is in progress. -/
def State.Still (s : State) : Prop :=
  ∀ t < s.nThr, (s.thr t).stack = []

section still

variable {s : State} {a : Nat} {o : Obj}

/-- Pointers to the address of an object are pointers to this object. -/
theorem Ptr.Valid.names {sh : Shared} {p : Ptr} (valid : p.Valid sh) (there : sh.heap a = some o)
    (real : a ≠ 0)
    : p.Names a o ↔ p.addr = a := by
  refine ⟨And.left, ?_⟩
  rintro rfl
  obtain ⟨o', there', id⟩ := valid.object real
  rw [there] at there'
  cases there'
  exact ⟨rfl, id.symm⟩

/-- Between operations all tokens are values of user code. -/
theorem State.Still.tokens (still : s.Still)
    : s.tokens = total s.nVals tokenShare.entry s.vals := by
  have none : total s.nThr tokenShare.thread s.thr = 0 := by
    refine sum_eq_zero fun t member => ?_
    rw [Share.thread, still t (mem_range.mp member)]
    rfl
  rw [State.tokens, State.shares, none, zero_add]

theorem State.Still.token (still : s.Still) {tok} (inside : tok ∈ s.tokens)
    : ∃ v < s.nVals, ∃ u, s.vals v = some u ∧ tok = u.token := by
  rcases State.mem_tokens inside with ⟨t, member, fr, there, _⟩ | value
  · rw [still t member] at there
    cases there
  · exact value

/-- Between operations the containers are in use or gone. -/
theorem State.Still.status (still : s.Still) (cells : CellInv s.sh s.tokens) {c}
    (used : s.sh.status c ≠ .gone)
    : s.sh.status c = .live := by
  have weightless (weight : Token → Nat) (none : ∀ u : UserVal, weight u.token = 0)
      : tally weight s.tokens = 0 := by
    refine tally_eq_zero _ fun tok inside => ?_
    obtain ⟨_, _, u, _, rfl⟩ := still.token inside
    exact none u
  have closings := weightless (Token.closings c) fun u => by
    rcases u.token_cases with eq | ⟨_, _, eq⟩ <;> rw [eq] <;> rfl
  have closeds := weightless (Token.closeds c) fun u => by
    rcases u.token_cases with eq | ⟨_, _, eq⟩ <;> rw [eq] <;> rfl
  have close := cells.close c
  rw [closings, closeds] at close
  cases status : s.sh.status c with
  | live => rfl
  | dropping =>
      rw [status] at close
      exact absurd close.1 (by simp)
  | gone => exact absurd status used

/-- Between operations no hand-over is in flight. -/
theorem State.Still.gifts (still : s.Still) (sess : SessionInv s.sh (sessions s.tokens))
    : s.sh.giftsAt a = 0 := by
  refine sum_eq_zero fun n _ => ?_
  have absent : n ∉ (sessions s.tokens).map Prod.fst := by
    intro busy
    obtain ⟨⟨m, ses⟩, inside, rfl⟩ := Multiset.mem_map.mp busy
    obtain ⟨_, _, u, _, eq⟩ := still.token (mem_sessions.mp inside)
    cases u with
    | handle p => cases eq
    | guard g => exact g.token_ne_session _ _ eq
  simp [(sess.quiet n absent).gift]

/-- Between operations the claims are the handles and guards of user code. -/
theorem State.Still.claims (still : s.Still) (ledger : LedgerInv s.sh s.tokens) (pooled : s.Pooled)
    (there : s.sh.heap a = some o) (real : a ≠ 0)
    : tally (Token.claims a) s.tokens = s.handlesTo a o + s.guardsTo a o := by
  rw [still.tokens, tally_total, State.handlesTo, State.guardsTo, ← sum_add_distrib]
  refine sum_congr rfl fun v _ => ?_
  cases val : s.vals v with
  | none => rfl
  | some u =>
      have inside : u.token ∈ s.tokens :=
        State.mem_shares_of_val pooled val (Multiset.mem_singleton_self _)
      have valid : u.ptr.Valid s.sh := by
        have fine := ledger.fine _ inside
        rcases u.token_cases with eq | ⟨_, _, eq⟩ <;> rw [eq] at fine <;> exact fine
      have names := valid.names there real
      have claims : tally (Token.claims a) (tokenShare.entry (some u))
        = if u.ptr.addr = a then 1 else 0 := by
        have single : tokenShare.entry (some u) = u.token ::ₘ 0 := rfl
        rw [single, tally_cons]
        rcases u.token_cases with eq | ⟨_, _, eq⟩ <;> rw [eq] <;> rfl
      refine claims.trans ((if_congr names.symm rfl rfl).trans ?_)
      cases u with
      | handle p => rfl
      | guard g => exact (Nat.zero_add _).symm

end still

/-- Whenever no operation is in progress, the strong count of an object is the number of its
handles, of the containers that hold it and of its guards, less the slots that contain its
address. Without guards and containers it is the number of its handles.
-/
theorem counts_add_up {cfg n s a o}
    (reached : Reaches (step cfg) (Careful cfg) (State.init n) s) (still : s.Still)
    (there : s.sh.heap a = some o)
    : o.strong + s.sh.slotsAt a = s.handlesTo a o + s.sh.cellsTo a o + s.guardsTo a o
      ∧ ((∀ v g, s.vals v ≠ some (.guard g)) → (∀ c, s.sh.status c = .gone)
          → o.strong = s.handlesTo a o) := by
  have ok := txOk_of_reaches (fun _ _ => And.left) reached
  have ledger := ledger_of_reaches reached
  have real : a ≠ 0 := by
    rintro rfl
    rw [ledger.null] at there
    cases there
  have word : a ≠ NONE := by
    rintro rfl
    rw [ledger.word] at there
    cases there
  have strong : s.sh.strong a = o.strong := by simp [Shared.strong, there]
  have cells : s.sh.cellsAt a = s.sh.cellsTo a o := by
    refine sum_congr rfl fun c _ => ?_
    by_cases used : s.sh.status c = .gone
    · simp [used]
    · have live := still.status ok.tx.cells used
      simp [live, ((ledger.cells c live).names there real)]
  have balanced := ledger.balanced a real word
  rw [Balanced, strong, cells, still.gifts ok.tx.sessions,
    still.claims ledger ok.pool.pooled there real] at balanced
  refine ⟨by omega, ?_⟩
  intro noGuards noCells
  have guards : s.guardsTo a o = 0 := by
    refine sum_eq_zero fun v _ => ?_
    split
    · exact absurd ‹_› (noGuards v _)
    · rfl
  have empty : s.sh.cellsTo a o = 0 := sum_eq_zero fun c _ => by simp [noCells c]
  have slots : s.sh.slotsAt a = 0 := by
    refine sum_eq_zero fun x _ => if_neg ?_
    intro here
    obtain ⟨p, _, held⟩ := ledger.cover.owed x.1 x.2 (here ▸ word)
    have debt : ∃ v, ∃ g, s.vals v = some (.guard g) := by
      rcases held with held | held <;> obtain ⟨v, _, u, val, eq⟩ := still.token held
      all_goals
        cases u with
        | handle q => cases eq
        | guard g => exact ⟨v, g, val⟩
    obtain ⟨v, g, val⟩ := debt
    exact noGuards v g val
  omega

set_option maxRecDepth 4000 in
/-- A container and a guard share the one count of an object. -/
theorem counts_add_up_guard
    : ∃ s : State, s.sh.heap 16 = some ⟨1, 0, 1⟩ ∧ s.sh.slot 0 0 = 16
        ∧ 1 + s.sh.slotsAt 16
          = s.handlesTo 16 ⟨1, 0, 1⟩ + s.sh.cellsTo 16 ⟨1, 0, 1⟩
            + s.guardsTo 16 ⟨1, 0, 1⟩ := by
  let still (s : State) : Bool := (List.range s.nThr).all fun t => (s.thr t).stack.isEmpty
  have ran
      : (runChecked (step ⟨64, true⟩) (careful ⟨64, true⟩) (State.init 2) guardSchedule).map
            (fun s => (s.sh.heap 16, s.sh.slot 0 0, still s))
          = some (some ⟨1, 0, 1⟩, 16, true) := by
    decide +kernel
  obtain ⟨s, ran, eq⟩ := Option.map_eq_some_iff.mp ran
  simp only [Prod.mk.injEq] at eq
  obtain ⟨there, slot, idle⟩ := eq
  have empty : s.Still := by
    intro t member
    exact List.isEmpty_iff.mp (List.all_eq_true.mp idle t (List.mem_range.mpr member))
  have reached := reaches_of_runChecked (fun _ _ => careful_sound) ran
  exact ⟨s, there, slot, (counts_add_up reached empty there).1⟩

end ArcSwap
