import ArcSwap.Proofs.Calls
import ArcSwap.Proofs.Cooldowns
import ArcSwap.Proofs.Helping

/-! Fallback transactions. A transaction is ended by its reader, or by one helper that has
loaded the replacement from the storage of the reader while the transaction was running, and the
replacement brings its count along.
-/

namespace ArcSwap

open Bags GuardedRuns

-----------------------------------------------------------------------------------------
-- What comes after what
-----------------------------------------------------------------------------------------

/-- The order of what a writer in `help` remembers, up to the time `now`. -/
def PayPc.Timed (now : Nat) : PayPc → Prop
  | .activeLoad h | .recheck h | .lostWait h => h.seen ≤ now
  | .replaceWait h began => h.seen ≤ began ∧ began ≤ now
  | .theirSpace h r | .mySpace h r _ | .fillSpace h r _ _ | .offer h r _ _ =>
      h.seen ≤ r.began ∧ r.began ≤ r.ended ∧ r.ended ≤ now
  | _ => True

/-- The order of what a frame remembers. -/
def Frame.Timed (now : Nat) : Frame → Prop
  | .load _ began _ _ => began ≤ now
  | .pay _ _ _ _ pc => pc.Timed now
  | _ => True

/-- A replacement was loaded while the transaction was running that it has ended. -/
structure HelpRec.Timed (sh : Shared) (n : NodeId) (r : HelpRec) : Prop where
  published : sh.txTime n < r.began
  loaded : r.began ≤ r.ended
  ready : r.ended ≤ r.given
  past : r.given < sh.time

theorem Frame.Timed.mono {fr : Frame} {now now'} (timed : fr.Timed now) (later : now ≤ now')
    : fr.Timed now' := by
  cases fr with
  | load c began loc pc => exact Nat.le_trans timed later
  | pay c p since loc pc =>
      cases pc with
      | activeLoad | recheck | lostWait => exact Nat.le_trans timed later
      | replaceWait => exact ⟨timed.1, Nat.le_trans timed.2 later⟩
      | theirSpace | mySpace | fillSpace | offer =>
          exact ⟨timed.1, timed.2.1, Nat.le_trans timed.2.2 later⟩
      | _ => trivial
  | _ => trivial

section timed

variable {cfg : Config} {s : State} {t : ThreadId} {tls : Tls} {δ : Change} {rest : List Frame}
  {sh : Shared} {now : Nat}

/-- What all frames of a list remember is in order. -/
abbrev allTimed (now : Nat) (frames : List Frame) : Prop :=
  frames.Forall (Frame.Timed now)

theorem finishLoad_timed {c began loc g} (le : began ≤ now)
    : allTimed now (finishLoad c began sh.time loc g) := by
  cases loc with
  | tls => trivial
  | tmp node =>
      cases node with
      | none => trivial
      | some n => exact ⟨trivial, le⟩

theorem LoadStep.timed {c began loc pc act tls' frames}
    (step : LoadStep cfg sh tls c began loc pc act tls' frames) (le : began ≤ now)
    : allTimed now frames := by
  cases step with
  | confirmed | alreadyPaid | ownPaid | unusedPaid => exact finishLoad_timed le
  | _ => first | exact le | exact ⟨trivial, le⟩

theorem Dispatch.timed {c p since loc h frames} (step : Dispatch c p since loc h frames)
    (seen : h.seen ≤ now)
    : allTimed now frames := by
  cases step with
  | active => exact seen
  | slots => trivial
  | invalid => exact ⟨trivial, trivial⟩

theorem PayPc.timed_at (o : Option NodeId) : (PayPc.at o).Timed now := by
  cases o <;> trivial

theorem PayPc.timed_nextSlot (n : NodeId) (period j : Nat)
    : (PayPc.nextSlot n period j).Timed now := by
  unfold nextSlot
  split <;> trivial

theorem PayStep.timed {c p since loc pc act frames}
    (step : PayStep cfg sh tls c p since loc pc act frames) (timed : pc.Timed sh.time)
    : allTimed sh.time frames := by
  have now := Nat.le_refl sh.time
  cases step with
  | help _ dispatch | again _ dispatch => exact dispatch.timed now
  | head | leave => exact PayPc.timed_at _
  | skip | bump => exact PayPc.timed_nextSlot _ _ _
  | agrees => exact ⟨now, trivial, timed, now⟩
  | lost => exact ⟨trivial, now⟩
  | differs | theirSpace | mySpace | fillSpace => exact timed
  | _ => trivial

theorem UnwindStep.timed {caller frames} (step : UnwindStep sh caller frames)
    (timed : caller.Timed sh.time)
    : allTimed sh.time frames := by
  cases step with
  | loadTmp => exact ⟨trivial, timed⟩
  | _ => trivial

theorem ResumeStep.timed {caller v frames} (step : ResumeStep sh caller v frames)
    (timed : caller.Timed sh.time)
    : allTimed sh.time frames := by
  have now := Nat.le_refl sh.time
  cases step with
  | loadNode | loadDiscard => exact timed
  | loadDec => exact finishLoad_timed timed
  | loadUnwind step | unwind step => exact step.timed timed
  | payReplace => exact ⟨timed.1, timed.2, now⟩
  | payLost dispatch => exact dispatch.timed timed
  | @payDec c p since loc =>
      cases loc with
      | tls => trivial
      | tmp node => cases node <;> trivial
  | casRetry => exact ⟨now, trivial⟩
  | rcuTry => exact ⟨now, trivial, trivial⟩
  | _ => trivial

theorem Entry.timed {c p frames} (entry : Entry sh c p frames) : allTimed sh.time frames := by
  have now := Nat.le_refl sh.time
  cases entry with
  | load => exact now
  | loadFull | rcu | cas => exact ⟨now, trivial⟩
  | swap | cache | store => trivial

theorem CallStep.timed (step : CallStep s tls rest δ) : allTimed s.sh.time δ.new := by
  cases step with
  | start _ entry | startWith _ _ _ entry => exact entry.timed
  | exit => cases node : tls.node <;> trivial
  | _ => trivial

/-- What frames remember stays in order. -/
theorem Move.timed (move : Move cfg s tls rest δ) (timed : allTimed s.sh.time δ.old)
    : allTimed s.sh.time δ.new := by
  have now := Nat.le_refl s.sh.time
  cases move with
  | frame step =>
      cases step with
      | load step => exact step.timed timed
      | pay step => exact step.timed timed
      | get step => cases step <;> trivial
      | cool step => cases step <;> trivial
      | dec step => cases step <;> trivial
      | into step => cases step <;> trivial
      | guardDrop step => cases step <;> trivial
      | cacheMiss => exact ⟨now, trivial, trivial⟩
      | _ => trivial
  | resume _ step => exact step.timed timed.2
  | deliver => trivial
  | call _ step => exact step.timed

-----------------------------------------------------------------------------------------
-- Every run
-----------------------------------------------------------------------------------------

/-- What holds of the frames that are put on a stack, and of the ones that stay, holds of all. -/
theorem State.stacks_after {Q : Frame → Prop}
    (kept
      : ∀ t' < s.nThr, ∀ fr,
        (t' = t ∧ fr ∈ rest ∨ t' ≠ t ∧ fr ∈ (s.thr t').stack) → Q fr)
    (new : δ.new.Forall Q)
    : ∀ t' < (s.after t δ rest).nThr, ∀ fr ∈ ((s.after t δ rest).thr t').stack, Q fr := by
  intro t' member fr inside
  rw [State.after_nThr] at member
  rw [State.after_thr, Function.update_apply] at inside
  split at inside
  · rcases List.mem_append.mp inside with fresh | below
    · exact List.forall_iff_forall_mem.mp new fr fresh
    · exact kept t' member fr (.inl ⟨‹_›, below⟩)
  · exact kept t' member fr (.inr ⟨‹_›, inside⟩)

/-- The frames that are taken from a stack were on it. -/
theorem State.old_of_stacks {Q : Frame → Prop} (all : ∀ fr ∈ (s.thr t).stack, Q fr)
    (top : (s.thr t).stack = δ.old ++ rest)
    : δ.old.Forall Q :=
  List.forall_iff_forall_mem.mpr fun fr inside => all fr (top ▸ List.mem_append_left _ inside)

/-- A helper hands its replacement over when it has just found the word unchanged. -/
theorem Move.handsOver {who self mine given} (move : Move cfg s tls rest δ)
    (hands : δ.act = .handOver who self mine given)
    : ∃ c p since loc h r their, δ.old = [.pay c p since loc (.offer h r their mine)]
        ∧ who = h.who ∧ given = ⟨c, r.ptr, r.began, r.ended, s.sh.time⟩
        ∧ s.sh.control h.who = h.control := by
  have inc {p} (hands : incAct p = .handOver who self mine given) : False := by
    unfold incAct at hands
    split at hands <;> cases hands
  cases move with
  | resume | deliver => cases hands
  | frame step =>
      cases step with
      | get step => cases step <;> cases hands
      | cool step => cases step <;> cases hands
      | dec step => cases step <;> cases hands
      | into step => cases step <;> first | exact (inc hands).elim | cases hands
      | guardDrop step => cases step <;> cases hands
      | load step => cases step <;> first | exact (inc hands).elim | cases hands
      | pay step =>
          cases step with
          | handOver same =>
              cases hands
              exact ⟨_, _, _, _, _, _, _, rfl, rfl, rfl, same⟩
          | inc | bump => exact (inc hands).elim
          | _ => cases hands
      | _ => cases hands
  | call below step =>
      cases step with
      | clone | cloneArg => exact (inc hands).elim
      | _ => cases hands

/-- Loads, replacements and hand-overs come in order. -/
structure State.Timed (s : State) : Prop where
  frames : ∀ t < s.nThr, ∀ fr ∈ (s.thr t).stack, fr.Timed s.sh.time
  helps : ∀ m, ∀ r ∈ s.sh.helps m, r.Timed s.sh m

theorem State.Timed.init (n : Nat) : (State.init n).Timed where
  frames t member fr inside := by simp [State.init, Thread.init] at inside
  helps m r inside := by simp [State.init, Shared.init] at inside

/-- A replacement that is handed over was loaded after the transaction was published. -/
theorem State.TxOk.handedOver (ok : s.TxOk) (help : HelpInv s.sh s.tokens) (member : t < s.nThr)
    (timed : s.Timed) {c p since loc h r their mine}
    (inside : .pay c p since loc (.offer h r their mine) ∈ (s.thr t).stack)
    (same : s.sh.control h.who = h.control)
    : s.sh.txTime h.who < h.seen ∧ h.seen ≤ r.began ∧ r.began ≤ r.ended
        ∧ r.ended ≤ s.sh.time := by
  have walk : .walk c p since (.space h their) ∈ s.tokens :=
    State.mem_shares_of_frame (S := tokenShare) member inside (by
      simp [tokenShare, Frame.tokens, PayPc.tokens])
  have ok : (Pos.space h their).Ok s.sh c := ok.tx.walks.pos c p since _ walk
  have knows : (Pos.space h their).Knows s.sh c := help.pass.pos c p since _ walk
  exact ⟨knows.1.published ok.1.tag same, timed.frames t member _ inside⟩

theorem State.Timed.after (timed : s.Timed) (ok : s.TxOk) (help : HelpInv s.sh s.tokens)
    (member : t < s.nThr) (top : (s.thr t).stack = δ.old ++ rest)
    (move : Move cfg s (s.thr t).tls rest δ)
    : (s.after t δ rest).Timed where
  frames := by
    have next : s.sh.time ≤ (s.after t δ rest).sh.time := Nat.le_succ s.sh.time
    refine State.stacks_after ?_ ?_
    · intro t' member' fr inside
      refine (timed.frames t' member' fr ?_).mono next
      rcases inside with ⟨rfl, below⟩ | ⟨_, there⟩
      · exact top ▸ List.mem_append_right _ below
      · exact there
    · have new := move.timed (State.old_of_stacks (timed.frames t member) top)
      exact new.imp fun fr timed => timed.mono next
  helps m r inside := by
    have keep (inside : r ∈ s.sh.helps m) (same : (δ.act.exec s.sh).txTime m = s.sh.txTime m)
        : r.Timed (s.after t δ rest).sh m := by
      obtain ⟨published, loaded, ready, past⟩ := timed.helps m r inside
      refine ⟨?_, loaded, ready, Nat.lt_succ_of_lt past⟩
      rw [State.after_sh, Shared.after, same]
      exact published
    cases act : δ.act with
    | publish n gen =>
        have other : m ≠ n := by
          rintro rfl
          simp [act, Shared.after, Act.exec] at inside
        refine keep ?_ ?_
        · simpa [act, Shared.after, Act.exec, other] using inside
        · simp [act, Act.exec, other]
    | handOver who self mine given =>
        have same : (δ.act.exec s.sh).txTime m = s.sh.txTime m := by rw [act]; rfl
        by_cases eq : m = who
        · subst eq
          have inside : r = given ∨ r ∈ s.sh.helps m := by
            simpa [act, Shared.after, Act.exec] using inside
          rcases inside with rfl | inside
          · obtain ⟨c, p, since, loc, h, g, their, old, who, rfl, unchanged⟩ :=
              move.handsOver act
            subst who
            have there : .pay c p since loc (.offer h g their mine) ∈ (s.thr t).stack := by
              simp [top, old]
            obtain ⟨published, seen, loaded, ready⟩ :=
              ok.handedOver help member timed there unchanged
            refine ⟨?_, loaded, ready, Nat.lt_succ_self _⟩
            rw [State.after_sh, Shared.after, same]
            exact Nat.lt_of_lt_of_le published seen
          · exact keep inside same
        · refine keep ?_ same
          simpa [act, Shared.after, Act.exec, eq] using inside
    | _ =>
        refine keep ?_ ?_
        · simpa [act, Shared.after, Act.exec] using inside
        · simp [act, Act.exec]

theorem timed_of_reaches {n} (reached : Reaches (step cfg) (Careful cfg) (State.init n) s)
    : s.Timed := by
  refine reached.invariant (.init n) fun s l s' before timed allowed taken => ?_
  have ok := txOk_of_reaches (fun _ _ => And.left) before
  obtain ⟨δ, rest, member, top, move, rfl⟩ := step_moves taken
  exact timed.after ok (help_of_reaches before) member top move

end timed

-----------------------------------------------------------------------------------------
-- Readers
-----------------------------------------------------------------------------------------

/-- One helper has ended the last transaction of the node. It has loaded the replacement from
`c` since the transaction was published.
-/
structure HelpedBy (sh : Shared) (c : CellId) (n : NodeId) (r : HelpRec) : Prop where
  only : sh.helps n = [r]
  cell : r.cell = c
  timed : r.Timed sh n

/-- The transaction is the reader's, or one helper has ended it. -/
inductive EndedOnce (sh : Shared) (c : CellId) (n : NodeId) (gen : Nat) : Prop
  | running (control : sh.control n = gen) (none : sh.helps n = [])
  | helped {r} (replaced : tagOf (sh.control n) = REPLACEMENT_TAG)
    (gift : sh.gift n = some r.val) (by_ : HelpedBy sh c n r)

section readers

variable {cfg : Config} {s s' : State} {l : Label} {t : ThreadId} {rest : List Frame}
  {c d : CellId} {m : NodeId} {gen began : Nat} {loc : Loc} {p : Ptr}

/-- The frame of a session in a transaction. -/
theorem Frame.transaction_of_session {fr : Frame} {n ses} (held : .session n ses ∈ fr.tokens)
    (tx : ses.tx = some (c, gen))
    : fr.transaction = some (c, n, gen) := by
  cases fr with
  | load d began loc pc =>
      cases pc <;> simp [tokens, LoadPc.tokens] at held <;>
        (obtain ⟨rfl, rfl⟩ := held) <;> cases tx <;> rfl
  | pay d q since loc pc =>
      cases pc <;> simp [tokens, PayPc.tokens] at held <;>
        (obtain ⟨rfl, rfl⟩ := held) <;> cases tx
  | ret spec v => cases v <;> cases spec <;> simp [tokens, Ret.tokens] at held
  | into g _ pc => cases pc <;> simp [tokens, IntoPc.tokens] at held
  | cas _ _ _ _ pc => cases pc <;> simp [tokens, CasPc.tokens] at held
  | rcu _ _ pc => cases pc <;> simp [tokens, RcuPc.tokens] at held
  | cache _ _ pc => cases pc <;> simp [tokens, CachePc.tokens] at held
  | cellDrop _ pc => cases pc <;> simp [tokens, DropPc.tokens] at held
  | cellInto _ p => cases p <;> simp [tokens] at held
  | _ => simp [tokens] at held

/-- A running transaction has a reader. -/
theorem State.TxOk.reader (ok : s.TxOk) (tag : tagOf (s.sh.control m) = GEN_TAG)
    : ∃ t < s.nThr, ∃ fr ∈ (s.thr t).stack, ∃ c,
        fr.transaction = some (c, m, s.sh.control m) ∧ InTx s.sh m c (s.sh.control m) := by
  obtain ⟨ses, c, inside, cell, tx⟩ := ok.tx.sessions.tx tag
  have there := ok.tx.sessions.ok m ses inside
  rcases State.mem_tokens (mem_sessions.mp inside)
    with ⟨t, member, fr, there', held⟩ | ⟨_, _, u, _, eq⟩
  · have gen {g} (tx : InTx s.sh m c g) : g = s.sh.control m := by
      rcases tx.control with ⟨same, _⟩ | ⟨replaced, _⟩
      · exact same.symm
      · rw [tag] at replaced
        cases replaced
    have found {g} (known : ses.tx = some (c, g)) (tx' : InTx s.sh m c g)
        : ∃ t < s.nThr, ∃ fr ∈ (s.thr t).stack, ∃ c,
            fr.transaction = some (c, m, s.sh.control m) ∧ InTx s.sh m c (s.sh.control m) :=
      ⟨t, member, fr, there', c, gen tx' ▸ Frame.transaction_of_session held known, tx⟩
    cases ses with
    | published | candidate | filled =>
        cases cell
        exact found rfl there.1
    | announced =>
        rw [there.1.control] at tag
        cases tag
    | _ => cases cell
  · cases u <;> simp [UserVal.token] at eq

theorem HelpInv.endedOnce {fr : Frame} (help : HelpInv s.sh s.tokens) (ok : s.TxOk)
    (timed : s.Timed) (member : t < s.nThr) (inside : fr ∈ (s.thr t).stack)
    (tx : fr.transaction = some (c, m, gen))
    : EndedOnce s.sh c m gen := by
  have running := ok.transaction member inside tx
  have handed : Handed s.sh m c gen := by
    obtain ⟨ses, held, _⟩ := Frame.tx_of_transaction tx
    have hand := help.hands.all m (some ses)
      (mem_sessions.mpr (State.mem_shares_of_frame (S := tokenShare) member inside held))
    cases fr with
    | load _ _ _ pc =>
        cases pc <;> cases tx <;> simp [Frame.tokens, LoadPc.tokens] at held <;> subst held <;>
          exact hand
    | _ => cases tx
  rcases handed with ⟨control, none⟩ | ⟨r, only, gift, cell⟩
  · exact .running control none
  · have timed := timed.helps m r (only ▸ List.mem_singleton_self r)
    rcases running.control with ⟨_, none⟩ | ⟨replaced, _⟩
    · rw [none] at gift
      cases gift
    · exact .helped replaced gift ⟨only, cell, timed⟩

/-- What a reader has taken out of the envelope is what its helper has loaded. -/
theorem HelpInv.adopted {e q} (help : HelpInv s.sh s.tokens) (timed : s.Timed)
    (member : t < s.nThr) (inside : .load c began loc (.restore m p e q) ∈ (s.thr t).stack)
    : ∃ r, HelpedBy s.sh c m r ∧ q.Alike r.val := by
  have held
      : .session m (.helped c p e q) ∈ (Frame.load c began loc (.restore m p e q)).tokens := by
    simp [Frame.tokens, LoadPc.tokens]
  have there : .session m (.helped c p e q) ∈ s.tokens :=
    State.mem_shares_of_frame (S := tokenShare) member inside held
  obtain ⟨r, only, cell, addr, prov⟩ :=
    help.hands.all m (some (.helped c p e q)) (mem_sessions.mpr there)
  exact ⟨r, ⟨only, cell, timed.helps m r (only ▸ List.mem_singleton_self r)⟩, addr, prov⟩

-----------------------------------------------------------------------------------------
-- Counts on their way
-----------------------------------------------------------------------------------------

/-- The frames give one count of the object at `p` away, which goes into a control word. Nothing
is counted.
-/
structure State.Sends (s s' : State) (p : Ptr) : Prop where
  heap : s'.sh.heap = s.sh.heap
  frames
    : ∀ a, a ≠ 0 → a ≠ NONE
      → tally (Token.claims a) s.tokens
        = tally (Token.claims a) s'.tokens + (if p.addr = a then 1 else 0)
  gifts : ∀ a, s'.sh.giftsAt a = s.sh.giftsAt a + (if p.addr = a then 1 else 0)

/-- Where the ledger is in order, what does not go into control words stays with the frames. -/
theorem State.Sends.of_ledger (ledger : LedgerInv s.sh s.tokens)
    (ledger' : LedgerInv s'.sh s'.tokens) (heap : s'.sh.heap = s.sh.heap)
    (slots : ∀ a, s'.sh.slotsAt a = s.sh.slotsAt a)
    (cells : ∀ a, s'.sh.cellsAt a = s.sh.cellsAt a)
    (gifts : ∀ a, s'.sh.giftsAt a = s.sh.giftsAt a + (if p.addr = a then 1 else 0))
    : s.Sends s' p where
  heap := heap
  gifts := gifts
  frames a real word := by
    have balanced := ledger.balanced a real word
    have balanced' := ledger'.balanced a real word
    have strong : s'.sh.strong a = s.sh.strong a := by rw [Shared.strong, heap, Shared.strong]
    rw [Balanced] at balanced balanced'
    rw [strong, slots, cells, gifts] at balanced'
    omega

/-- A helper that finds the word unchanged hands its replacement over, and the count with it. -/
theorem HelpInv.sends {since h r their mine} (ok : s.TxOk) (help : HelpInv s.sh s.tokens)
    (timed : s.Timed) (ledger : LedgerInv s.sh s.tokens) (ledger' : LedgerInv s'.sh s'.tokens)
    (taken : step cfg s l = some s')
    (top : (s.thr l.thread).stack = .pay c p since loc (.offer h r their mine) :: rest)
    (same : s.sh.control h.who = h.control)
    : (s'.thr l.thread).stack = .pay c p since loc (.exchange h their) :: rest
      ∧ (∃ t < s.nThr, ∃ fr ∈ (s.thr t).stack, fr.transaction = some (c, h.who, h.control))
      ∧ s.sh.helps h.who = []
      ∧ HelpedBy s'.sh c h.who ⟨c, r.ptr, r.began, r.ended, s.sh.time⟩
      ∧ s.Sends s' r.ptr := by
  obtain ⟨_, _, member, _⟩ := step_moves taken
  have inside : .pay c p since loc (.offer h r their mine) ∈ (s.thr l.thread).stack :=
    top ▸ List.mem_cons_self
  have walk : .walk c p since (.space h their) ∈ s.tokens :=
    State.mem_shares_of_frame (S := tokenShare) member inside (by
      simp [tokenShare, Frame.tokens, PayPc.tokens])
  have knows : (Pos.space h their).Knows s.sh c := help.pass.pos c p since _ walk
  obtain ⟨own, live, _⟩ : (Pos.space h their).Ok s.sh c := ok.tx.walks.pos c p since _ walk
  have tag : tagOf (s.sh.control h.who) = GEN_TAG := same ▸ own.tag
  obtain ⟨t, there, fr, reads, d, transaction, tx⟩ := ok.reader tag
  have cell : c = d :=
    ok.tx.cells.alone c d (by simp [live]) (by simp [tx.live])
      ((knows.2 same).symm.trans tx.addr)
  subst cell
  have none : s.sh.helps h.who = [] := by
    cases help.endedOnce ok timed there reads transaction with
    | running _ none => exact none
    | helped replaced =>
        rw [tag] at replaced
        cases replaced
  obtain ⟨published, seen, loaded, ready⟩ := ok.handedOver help member timed inside same
  cases step_follows taken (above_nil top) rfl with
  | waits _ covered => exact absurd rfl (covered rfl).1
  | answered _ ret => cases ret
  | moves _ _ move after top' =>
      cases move with
      | pay move =>
          cases move with
          | lost other => exact absurd same other
          | handOver =>
              rw [same] at transaction
              refine ⟨top', ⟨t, there, fr, reads, transaction⟩, none, ⟨?_, rfl, ?_⟩, ?_⟩
              · simp [after, Shared.after, Act.exec, none]
              · refine ⟨?_, loaded, ready, ?_⟩
                · rw [after]
                  exact Nat.lt_of_lt_of_le published seen
                · rw [after]
                  exact Nat.lt_succ_self _
              · have empty := ok.tx.ungiven tag
                have node := ok.pool.pool.list.bound own.who
                refine .of_ledger ledger ledger' (by rw [after]; rfl) (fun a => by rw [after]; rfl)
                  (fun a => by rw [after]; rfl) fun a => ?_
                have gifts := Shared.giftsAt_change (a := a) s'.sh node (by rw [after]; rfl)
                  fun m other => by simp [after, Shared.after, Act.exec, other]
                simpa [after, Shared.after, Act.exec, empty] using gifts

/-- A helper that finds the word changed releases its replacement. -/
theorem loses {since h r their mine} (taken : step cfg s l = some s')
    (top : (s.thr l.thread).stack = .pay c p since loc (.offer h r their mine) :: rest)
    (other : s.sh.control h.who ≠ h.control)
    : s'.sh = s.sh.after .nop
      ∧ ∃ h', (s'.thr l.thread).stack
        = .dec r.ptr :: .pay c p since loc (.lostWait h') :: rest := by
  cases step_follows taken (above_nil top) rfl with
  | waits _ covered => exact absurd rfl (covered rfl).1
  | answered _ ret => cases ret
  | moves _ _ move after top' =>
      cases move with
      | pay move =>
          cases move with
          | handOver same => exact absurd same other
          | lost => exact ⟨after, _, top'⟩

/-- Nothing panics in the top frame. -/
theorem State.TxOk.noPanic (ok : s.TxOk) (member : t < s.nThr) (site : Site)
    : (s.thr t).stack.head? ≠ some (.panicked site) := by
  intro top
  rcases (ok.calm t member).frames with all | ⟨spec, rest, eq, _⟩
  · exact (all _ (List.mem_of_mem_head? top)).settled
  · rw [eq] at top
    cases top

/-- A reader whose transaction was ended by a helper takes the count of the replacement over. -/
theorem HelpInv.receives (ok : s.TxOk) (help : HelpInv s.sh s.tokens) (timed : s.Timed)
    (ledger : LedgerInv s.sh s.tokens) (ledger' : LedgerInv s'.sh s'.tokens)
    (ok' : s'.TxOk) (taken : step cfg s l = some s')
    (top : (s.thr l.thread).stack = .load c began loc (.confirm m gen p) :: rest)
    (other : s.sh.control m ≠ gen)
    : ∃ r e, HelpedBy s.sh c m r ∧ s'.Sends s r.val
        ∧ (s'.thr l.thread).stack = .load c began loc (.envelope m p e r.val) :: rest := by
  obtain ⟨δ, _, member, _, _, after⟩ := step_moves taken
  have noPanic := ok'.noPanic (t := l.thread) (by rw [after, State.after_nThr]; exact member)
  have inside : .load c began loc (.confirm m gen p) ∈ (s.thr l.thread).stack :=
    top ▸ List.mem_cons_self
  cases help.endedOnce ok timed member inside rfl with
  | running control => exact absurd control other
  | @helped r replaced gift helped =>
      cases step_follows taken (above_nil top) rfl with
      | waits _ covered => exact absurd rfl (covered rfl).1
      | answered _ ret => cases ret
      | moves _ _ move after top' =>
          cases move with
          | load move =>
              cases move with
              | noNode uses => simp at uses
              | unhelped same => exact absurd same other
              | helpedPanic => exact absurd (by rw [top']; rfl) (noPanic .replacementTag)
              | helped =>
                  rw [gift] at top'
                  refine ⟨r, _, helped, ?_, top'⟩
                  have node := ok.tx.giftNode ok.pool.pool.list gift
                  refine .of_ledger ledger' ledger (by rw [after]; rfl)
                    (fun a => by rw [after]; rfl) (fun a => by rw [after]; rfl) fun a => ?_
                  have gifts := Shared.giftsAt_change (a := a) s'.sh node (by rw [after]; rfl)
                    fun m other => by simp [after, Shared.after, Act.exec, other]
                  simpa [after, Shared.after, Act.exec, gift] using gifts.symm

/-- A replacement is what a complete load of the storage has returned. -/
theorem loads_replacement {since h r} (taken : step cfg s l = some s')
    (top
      : (s'.thr l.thread).stack = .pay c p since loc (.theirSpace h r) :: rest)
    (waits
      : ∃ above, (s.thr l.thread).stack
        = above ++ .pay c p since loc (.replaceWait h began) :: rest)
    (linked : StackOk (s.thr l.thread).stack)
    : (s.thr l.thread).stack
        = .ret (.load c began) (.ptr r.ptr) :: .pay c p since loc (.replaceWait h began) :: rest
      ∧ r.began = began ∧ r.ended = s.sh.time := by
  obtain ⟨above, stack⟩ := waits
  cases step_follows taken stack rfl with
  | @waits above' top' =>
      have lengths := congrArg List.length (top.symm.trans top')
      cases above' with
      | nil =>
          rw [List.nil_append, top] at top'
          cases top'
      | cons f above' =>
          simp only [List.length_append, List.length_cons] at lengths
          omega
  | moves _ empty move =>
      cases move with
      | pay move => cases move
  | @answered spec v frames _ ret move after top' =>
      subst ret
      rw [top] at top'
      cases move with
      | payReplace =>
          cases top'
          refine ⟨?_, rfl, rfl⟩
          rw [stack] at linked ⊢
          have fit
              : (Answer.ptr spec) = .ptr (.load c began) ∨ Answer.ptr spec = .unwind := linked.1
          rcases fit with eq | eq
          · cases eq
            rfl
          · cases eq
      | unwind move =>
          cases move
          cases top'

end readers

/-- Every fallback transaction is ended by its reader, or by exactly one helper. The reader then
gets what this helper has got from a load of the very storage, which began after the transaction
was published and was over before it was ended, and with it one count, which the helper gives
away. Every other helper releases the count of its own replacement.
-/
theorem handed_over_once {cfg n s}
    (reached : Reaches (step cfg) (Careful cfg) (State.init n) s)
    : (∀ t < s.nThr, ∀ fr ∈ (s.thr t).stack, ∀ c m gen, fr.transaction = some (c, m, gen)
        → EndedOnce s.sh c m gen)
      ∧ (∀ t < s.nThr, ∀ c began loc m p e q,
          .load c began loc (.restore m p e q) ∈ (s.thr t).stack
          → ∃ r, HelpedBy s.sh c m r ∧ q.Alike r.val)
      ∧ ∀ l s', Careful cfg s l → step cfg s l = some s'
        → (∀ c p since loc h began r rest above,
            (s.thr l.thread).stack = above ++ .pay c p since loc (.replaceWait h began) :: rest
            → (s'.thr l.thread).stack = .pay c p since loc (.theirSpace h r) :: rest
            → above = [.ret (.load c began) (.ptr r.ptr)] ∧ h.seen ≤ began
              ∧ r.began = began ∧ r.ended = s.sh.time)
          ∧ (∀ c p since loc h r their mine rest,
            (s.thr l.thread).stack = .pay c p since loc (.offer h r their mine) :: rest
            → (s.sh.control h.who = h.control
                → (s'.thr l.thread).stack = .pay c p since loc (.exchange h their) :: rest
                  ∧ (∃ t < s.nThr, ∃ fr ∈ (s.thr t).stack,
                      fr.transaction = some (c, h.who, h.control))
                  ∧ s.sh.helps h.who = []
                  ∧ HelpedBy s'.sh c h.who ⟨c, r.ptr, r.began, r.ended, s.sh.time⟩
                  ∧ s.Sends s' r.ptr)
              ∧ (s.sh.control h.who ≠ h.control
                → s'.sh = s.sh.after .nop
                  ∧ ∃ h', (s'.thr l.thread).stack
                      = .dec r.ptr :: .pay c p since loc (.lostWait h') :: rest))
          ∧ ∀ c began loc m gen p rest,
            (s.thr l.thread).stack = .load c began loc (.confirm m gen p) :: rest
            → s.sh.control m ≠ gen
            → ∃ r e, HelpedBy s.sh c m r ∧ s'.Sends s r.val
                ∧ (s'.thr l.thread).stack
                  = .load c began loc (.envelope m p e r.val) :: rest := by
  have ok := txOk_of_reaches (fun _ _ => And.left) reached
  have help := help_of_reaches reached
  have timed := timed_of_reaches reached
  refine ⟨?_, ?_, ?_⟩
  · intro t member fr inside c m gen tx
    exact help.endedOnce ok timed member inside tx
  · intro t member c began loc m p e q inside
    exact help.adopted timed member inside
  · intro l s' allowed taken
    have reached' := reached.step allowed taken
    have ledger := ledger_of_reaches reached
    have ledger' := ledger_of_reaches reached'
    refine ⟨?_, ?_, ?_⟩
    · intro c p since loc h began r rest above stack top
      obtain ⟨_, _, member, _⟩ := step_moves taken
      have inside : .pay c p since loc (.replaceWait h began) ∈ (s.thr l.thread).stack :=
        stack ▸ List.mem_append_right _ (.head _)
      have seen := (timed.frames l.thread member _ inside).1
      obtain ⟨stack', loaded⟩ :=
        loads_replacement taken top ⟨above, stack⟩ (ok.pool.disciplined l.thread).linked
      have split
          : above ++ .pay c p since loc (.replaceWait h began) :: rest
            = [.ret (.load c began) (.ptr r.ptr)]
              ++ .pay c p since loc (.replaceWait h began) :: rest :=
        stack.symm.trans stack'
      exact ⟨List.append_cancel_right split, seen, loaded⟩
    · intro c p since loc h r their mine rest top
      refine ⟨?_, ?_⟩
      · exact help.sends ok timed ledger ledger' taken top
      · exact loses taken top
    · intro c began loc m gen p rest top other
      have ok' := txOk_of_reaches (fun _ _ => And.left) reached'
      exact help.receives ok timed ledger ledger' ok' taken top other

set_option maxRecDepth 4000 in
/-- The reader's transaction at the moment a helper has ended it. -/
theorem handed_over_once_helped
    : ∃ (s : State) (r : HelpRec), s.sh.control 0 = 9 ∧ s.sh.gift 0 = some r.val
        ∧ HelpedBy s.sh 0 0 r := by
  have ran
      : (runChecked (step ⟨64, true⟩) (careful ⟨64, true⟩)
          (State.init 2) helpedSchedule).map
            (fun s => (s.sh.control 0, s.nThr, (s.thr 0).stack))
          = some (9, 2, [.load 0 2 .tls (.candidate 0 6)]) := by
    decide +kernel
  obtain ⟨s, ran, eq⟩ := Option.map_eq_some_iff.mp ran
  simp only [Prod.mk.injEq] at eq
  obtain ⟨control, threads, stack⟩ := eq
  have reached := reaches_of_runChecked (fun _ _ => careful_sound) ran
  have reads : Frame.load 0 2 .tls (.candidate 0 6) ∈ (s.thr 0).stack :=
    stack ▸ List.mem_cons_self
  cases (handed_over_once reached).1 0 (by omega) _ reads 0 0 6 rfl with
  | running same =>
      rw [control] at same
      cases same
  | @helped r _ gift helped => exact ⟨s, r, control, gift, helped⟩

end ArcSwap
