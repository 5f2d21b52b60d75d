import ArcSwap.Proofs.LockLedger

/-! What the holders of locks know. A pointer that has been read under the lock of a storage is its
content, or the count of its object belongs to somebody who still waits for this lock. One rule for
every access.
-/

namespace ArcSwap.Locked

open Bags

-----------------------------------------------------------------------------------------
-- Locks and their holders
-----------------------------------------------------------------------------------------

/-- Every lock that is taken has its holders, and a writer is alone. -/
structure Locks (lock : CellId → Lock) (M : Tokens) : Prop where
  readers : ∀ c, tally (Token.shares c) M = (lock c).readers
  writer : ∀ c, tally (Token.excludes c) M = if (lock c).writer then 1 else 0
  apart : ∀ c, (lock c).writer = true → (lock c).readers = 0

section locks

variable {lock : CellId → Lock} {M : Tokens} {tok : Token} {c : CellId} {seen : Option Ptr}

theorem Locks.plain (plain : tok.isLock = false) : Locks lock (tok ::ₘ M) ↔ Locks lock M := by
  have light : (∀ c, tok.shares c = 0) ∧ ∀ c, tok.excludes c = 0 := by
    cases tok <;> cases plain <;> exact ⟨fun _ => rfl, fun _ => rfl⟩
  constructor
  · intro locks
    refine ⟨fun c => ?_, fun c => ?_, locks.apart⟩
    · simpa [light.1] using locks.readers c
    · simpa [light.2] using locks.writer c
  · intro locks
    refine ⟨fun c => ?_, fun c => ?_, locks.apart⟩
    · simpa [light.1] using locks.readers c
    · simpa [light.2] using locks.writer c

/-- It does not matter what the holder has read. -/
theorem Locks.read {seen'} (locks : Locks lock (.shared c seen ::ₘ M))
    : Locks lock (.shared c seen' ::ₘ M) :=
  ⟨fun d => by simpa [Token.shares] using locks.readers d,
    fun d => by simpa [Token.excludes] using locks.writer d, locks.apart⟩

theorem Locks.readAlone {seen'} (locks : Locks lock (.exclusive c seen ::ₘ M))
    : Locks lock (.exclusive c seen' ::ₘ M) :=
  ⟨fun d => by simpa [Token.shares] using locks.readers d,
    fun d => by simpa [Token.excludes] using locks.writer d, locks.apart⟩

/-- Whoever has read something holds the lock. -/
theorem Locks.blind (shared : tally (Token.shares c) M = 0)
    (exclusive : tally (Token.excludes c) M = 0) (inside : tok ∈ M) (p : Ptr)
    : tok.sees ≠ some (c, p) := by
  intro sees
  have shares := le_tally (Token.shares c) inside
  have excludes := le_tally (Token.excludes c) inside
  cases tok with
  | shared d seen =>
      obtain ⟨_, _, eq⟩ := Option.map_eq_some_iff.mp sees
      cases eq
      simp only [Token.shares, ↓reduceIte] at shares
      omega
  | exclusive d seen =>
      obtain ⟨_, _, eq⟩ := Option.map_eq_some_iff.mp sees
      cases eq
      simp only [Token.excludes, ↓reduceIte] at excludes
      omega
  | _ => cases sees

/-- Nobody has read anything under a lock that is free. -/
theorem Locks.unseen (locks : Locks lock M) (free : (lock c).free = true) (inside : tok ∈ M)
    (p : Ptr)
    : tok.sees ≠ some (c, p) := by
  simp only [Lock.free, Bool.and_eq_true, beq_iff_eq, Bool.not_eq_true'] at free
  apply Locks.blind _ _ inside
  · rw [locks.readers, free.1]
  · rw [locks.writer, free.2]
    rfl

/-- Nobody else has read anything under a lock that a writer holds. -/
theorem Locks.alone (locks : Locks lock (.exclusive c seen ::ₘ M)) (inside : tok ∈ M) (p : Ptr)
    : tok.sees ≠ some (c, p) := by
  have readers := locks.readers c
  have writer := locks.writer c
  simp only [tally_cons, Token.shares, Token.excludes, ↓reduceIte, Nat.zero_add] at readers writer
  have held : (lock c).writer = true := by
    by_contra other
    rw [if_neg other] at writer
    omega
  rw [if_pos held] at writer
  have none := locks.apart c held
  exact Locks.blind (by omega) (by omega) inside p

theorem Locks.lockRead (locks : Locks lock M) (free : (lock c).writer = false)
    : Locks (Function.update lock c ⟨(lock c).readers + 1, (lock c).writer⟩)
      (.shared c none ::ₘ M) := by
  refine ⟨fun d => ?_, fun d => ?_, fun d => ?_⟩
  · rw [tally_cons, locks.readers]
    by_cases same : d = c
    · subst same
      simp [Token.shares, Nat.add_comm]
    · simp [Token.shares, Ne.symm same, same]
  · rw [tally_cons, locks.writer]
    by_cases same : d = c
    · subst same
      simp [Token.excludes]
    · simp [Token.excludes, same]
  · by_cases same : d = c
    · subst same
      simp [free]
    · simpa [same] using locks.apart d

theorem Locks.unlockRead (locks : Locks lock (.shared c seen ::ₘ M))
    : Locks (Function.update lock c ⟨(lock c).readers - 1, (lock c).writer⟩) M := by
  refine ⟨fun d => ?_, fun d => ?_, fun d => ?_⟩
  · have readers := locks.readers d
    by_cases same : d = c
    · subst same
      simp only [tally_cons, Token.shares, ↓reduceIte] at readers
      simp only [Function.update_self]
      omega
    · simpa [Token.shares, same, Ne.symm same] using readers
  · have writer := locks.writer d
    by_cases same : d = c
    · subst same
      simpa [Token.excludes] using writer
    · simpa [Token.excludes, same] using writer
  · have apart := locks.apart d
    by_cases same : d = c
    · subst same
      simp only [Function.update_self]
      exact fun held => by rw [apart held]
    · simpa [same] using apart

theorem Locks.lockWrite (locks : Locks lock M) (free : (lock c).free = true)
    : Locks (Function.update lock c ⟨(lock c).readers, true⟩) (.exclusive c none ::ₘ M) := by
  simp only [Lock.free, Bool.and_eq_true, beq_iff_eq, Bool.not_eq_true'] at free
  refine ⟨fun d => ?_, fun d => ?_, fun d => ?_⟩
  · rw [tally_cons, locks.readers]
    by_cases same : d = c
    · subst same
      simp [Token.shares]
    · simp [Token.shares, same]
  · rw [tally_cons, locks.writer]
    by_cases same : d = c
    · subst same
      simp [Token.excludes, free.2]
    · simp [Token.excludes, same, Ne.symm same]
  · by_cases same : d = c
    · subst same
      simp [free.1]
    · simpa [same] using locks.apart d

theorem Locks.unlockWrite (locks : Locks lock (.exclusive c seen ::ₘ M))
    : Locks (Function.update lock c ⟨(lock c).readers, false⟩) M := by
  refine ⟨fun d => ?_, fun d => ?_, fun d => ?_⟩
  · have readers := locks.readers d
    by_cases same : d = c
    · subst same
      simpa [Token.shares] using readers
    · simpa [Token.shares, same] using readers
  · have writer := locks.writer d
    by_cases same : d = c
    · subst same
      simp only [tally_cons, Token.excludes, ↓reduceIte] at writer
      simp only [Function.update_self, Bool.false_eq_true, ↓reduceIte]
      split at writer <;> omega
    · simpa [Token.excludes, same, Ne.symm same] using writer
  · by_cases same : d = c
    · subst same
      simp
    · simpa [same] using locks.apart d

end locks

-----------------------------------------------------------------------------------------
-- What has been read
-----------------------------------------------------------------------------------------

/-- The object is kept for the holders of the lock: by the storage, or by somebody who has taken the
pointer out and waits for them.
-/
def Kept (mem : ArcSwap.Shared) (M : Tokens) (c : CellId) (p : Ptr) : Prop :=
  (mem.status c = .live ∧ p.Alike (mem.ptr c)) ∨ ∃ q, .retired c q ∈ M ∧ p.Alike q

structure Inv (sh : Shared) (M : Tokens) : Prop where
  ledger : Ledger sh.mem M
  locks : Locks sh.lock M
  seen : ∀ tok ∈ M, ∀ c p, tok.sees = some (c, p) → Kept sh.mem M c p

section rules

variable {sh : Shared} {M r : Tokens} {tok tok' : Token} {c : CellId} {p q : Ptr} {a : Nat}
  {act : ArcSwap.Act}

theorem Kept.mono {mem mem' : ArcSwap.Shared} {M' : Tokens} (kept : Kept mem M c p)
    (content
      : mem.status c = .live → mem'.status c = .live ∧ mem'.ptr c = mem.ptr c)
    (retired : ∀ q, .retired c q ∈ M → .retired c q ∈ M')
    : Kept mem' M' c p := by
  rcases kept with ⟨live, alike⟩ | ⟨q, held, alike⟩
  · obtain ⟨live', ptr⟩ := content live
    exact .inl ⟨live', ptr ▸ alike⟩
  · exact .inr ⟨q, retired q held, alike⟩

/-- What has been read under a lock is alive. -/
theorem Inv.alive (inv : Inv sh M) (inside : tok ∈ M) (sees : tok.sees = some (c, p))
    : p.Valid sh.mem ∧ sh.mem.Alive p := by
  have same {q : Ptr} (alike : p.Alike q) (valid : q.Valid sh.mem) (alive : sh.mem.Alive q)
      : p.Valid sh.mem ∧ sh.mem.Alive p := by
    obtain ⟨addr, prov⟩ := alike
    refine ⟨⟨addr ▸ valid.word, ?_, ?_⟩, ?_⟩
    · rw [addr, prov]
      exact valid.null
    · rw [addr, prov]
      exact valid.object
    · intro real
      rw [addr, prov]
      exact alive (addr ▸ real)
  rcases inv.seen tok inside c p sees with ⟨live, alike⟩ | ⟨q, held, alike⟩
  · exact same alike (inv.ledger.cells c live) (inv.ledger.cellAlive live)
  · exact same alike (inv.ledger.fine _ held q rfl) (inv.ledger.alive held rfl)

/-- A token that sees nothing adds nothing to what has been read. -/
theorem reads_cons (blind : tok.sees = none)
    : ∀ tok' ∈ tok ::ₘ M, ∀ c p, tok'.sees = some (c, p) → tok' ∈ M := by
  intro tok' inside c p sees
  refine (Multiset.mem_cons.mp inside).resolve_left fun eq => ?_
  rw [eq, blind] at sees
  cases sees

/-- Accesses that leave the contents of all storages in use alone. -/
theorem Inv.access {M' : Tokens} (inv : Inv sh M) (ledger : Ledger (sh.mem.after act) M')
    (locks : Locks sh.lock M')
    (reads : ∀ tok ∈ M', ∀ c p, tok.sees = some (c, p) → tok ∈ M)
    (retired : ∀ c q, .retired c q ∈ M → .retired c q ∈ M')
    (content
      : ∀ c, sh.mem.status c = .live
        → (sh.mem.after act).status c = .live ∧ (sh.mem.after act).ptr c = sh.mem.ptr c)
    : Inv (sh.after (.mem act)) M' := by
  refine ⟨ledger, locks, ?_⟩
  intro tok inside c p sees
  exact (inv.seen tok (reads tok inside c p sees) c p sees).mono (content c) (retired c)

theorem Inv.tick (inv : Inv sh M) : Inv (sh.after (.mem .nop)) M :=
  inv.access (inv.ledger.same rfl rfl rfl rfl) inv.locks (fun _ inside _ _ _ => inside)
    (fun _ _ held => held) fun _ live => ⟨live, rfl⟩

theorem Inv.inc (inv : Inv sh M) (valid : p.Valid sh.mem) (alive : sh.mem.Alive p)
    : Inv (sh.after (.mem (incAct p))) (.own p ::ₘ M) := by
  refine inv.access (inv.ledger.inc valid alive) ((Locks.plain rfl).mpr inv.locks) ?_ ?_ ?_
  · exact reads_cons rfl
  · exact fun c q held => Multiset.mem_cons_of_mem held
  · intro c live
    unfold incAct
    split <;> exact ⟨live, rfl⟩

theorem Inv.decNull (inv : Inv sh (.own p ::ₘ r)) (null : p.addr = 0)
    : Inv (sh.after (.mem .nop)) r := by
  refine inv.access ((inv.ledger.dropNull null).same rfl rfl rfl rfl)
    ((Locks.plain rfl).mp inv.locks) ?_ ?_ fun _ live => ⟨live, rfl⟩
  · exact fun tok inside c p _ => Multiset.mem_cons_of_mem inside
  · simp

theorem Inv.decLast (inv : Inv sh (.own p ::ₘ r)) (real : p.addr ≠ 0)
    (one : (sh.mem.heap p.addr).map Obj.strong = some 1)
    : Inv (sh.after (.mem (.dec p.addr))) (.dying p ::ₘ r) := by
  have ledger := inv.ledger.dec real
  rw [if_pos one] at ledger
  have locks := (Locks.plain rfl).mp inv.locks
  refine inv.access ledger ((Locks.plain rfl).mpr locks) ?_ ?_ fun _ live => ⟨live, rfl⟩
  · intro tok inside c q sees
    rcases Multiset.mem_cons.mp inside with rfl | inside
    · cases sees
    · exact Multiset.mem_cons_of_mem inside
  · simp

theorem Inv.decMore (inv : Inv sh (.own p ::ₘ r)) (real : p.addr ≠ 0)
    (other : (sh.mem.heap p.addr).map Obj.strong ≠ some 1)
    : Inv (sh.after (.mem (.dec p.addr))) r := by
  have ledger := inv.ledger.dec real
  rw [if_neg other] at ledger
  refine inv.access ledger ((Locks.plain rfl).mp inv.locks) ?_ ?_ fun _ live => ⟨live, rfl⟩
  · exact fun tok inside c p _ => Multiset.mem_cons_of_mem inside
  · simp

theorem Inv.dealloc (inv : Inv sh (.dying p ::ₘ r))
    : Inv (sh.after (.mem (.dealloc p.addr))) r := by
  refine inv.access inv.ledger.dealloc ((Locks.plain rfl).mp inv.locks) ?_
    ?_ fun _ live => ⟨live, rfl⟩
  · exact fun tok inside c p _ => Multiset.mem_cons_of_mem inside
  · simp

theorem Inv.newObj {ty} (inv : Inv sh M) (free : sh.mem.heap a = none) (real : a ≠ 0)
    (word : a ≠ NONE)
    : Inv (sh.after (.mem (.newObj a ty))) (.own ⟨a, ty, sh.mem.nextId⟩ ::ₘ M) := by
  refine inv.access (inv.ledger.newObj free real word) ((Locks.plain rfl).mpr inv.locks) ?_ ?_
    fun _ live => ⟨live, rfl⟩
  · exact reads_cons rfl
  · exact fun c q held => Multiset.mem_cons_of_mem held

theorem Inv.newNull {ty} (inv : Inv sh M)
    : Inv (sh.after (.mem .nop)) (.own ⟨0, ty, 0⟩ ::ₘ M) := by
  refine inv.access (inv.ledger.newNull.same rfl rfl rfl rfl)
    ((Locks.plain rfl).mpr inv.locks) ?_ ?_
    fun _ live => ⟨live, rfl⟩
  · exact reads_cons rfl
  · exact fun c q held => Multiset.mem_cons_of_mem held

theorem Inv.newCell {useFast} (inv : Inv sh (.own p ::ₘ r))
    : Inv (sh.after (.mem (.newCell p a useFast))) r := by
  refine inv.access inv.ledger.newCell ((Locks.plain rfl).mp inv.locks) ?_ ?_ ?_
  · exact fun tok inside c p _ => Multiset.mem_cons_of_mem inside
  · simp
  · intro c live
    have other : c ≠ sh.mem.nCells := Nat.ne_of_lt (inv.ledger.bound c (by simp [live]))
    simpa [ArcSwap.Shared.after, ArcSwap.Act.exec, other] using live

theorem Inv.moveCell (inv : Inv sh M) : Inv (sh.after (.mem (.moveCell c a))) M :=
  inv.access (inv.ledger.same rfl rfl rfl rfl) inv.locks (fun _ inside _ _ _ => inside)
    (fun _ _ held => held) fun _ live => ⟨live, rfl⟩

theorem Inv.freeCell (inv : Inv sh M) (closed : sh.mem.status c ≠ .live)
    : Inv (sh.after (.mem (.freeCell c))) M := by
  refine inv.access (inv.ledger.freeCell closed) inv.locks (fun _ inside _ _ _ => inside)
    (fun _ _ held => held) ?_
  intro d live
  have other : d ≠ c := by
    rintro rfl
    exact closed live
  simpa [ArcSwap.Shared.after, ArcSwap.Act.exec, other] using live

/-- The owner of a storage that is closed keeps its content until he has waited. -/
theorem Inv.closeCell (inv : Inv sh M) (live : sh.mem.status c = .live)
    : Inv (sh.after (.mem (.closeCell c a))) (.retired c (sh.mem.ptr c) ::ₘ M) := by
  refine ⟨inv.ledger.closeCell live, (Locks.plain rfl).mpr inv.locks, ?_⟩
  intro tok inside d p sees
  rcases Multiset.mem_cons.mp inside with rfl | inside
  · cases sees
  rcases inv.seen tok inside d p sees with ⟨used, alike⟩ | ⟨q, held, alike⟩
  · by_cases same : d = c
    · exact .inr ⟨sh.mem.ptr c, same ▸ Multiset.mem_cons_self _ _, same ▸ alike⟩
    · refine .inl ⟨?_, alike⟩
      simpa [ArcSwap.Shared.after, ArcSwap.Act.exec, same] using used
  · exact .inr ⟨q, Multiset.mem_cons_of_mem held, alike⟩

/-- Whoever takes a pointer out without the lock keeps its object for the readers. -/
theorem Inv.swap {op} (inv : Inv sh (.own p ::ₘ r)) (live : sh.mem.status c = .live)
    : Inv (sh.after (.mem (.write c op p))) (.retired c (sh.mem.ptr c) ::ₘ r) := by
  have locks := (Locks.plain rfl).mp inv.locks
  refine ⟨(inv.ledger.write live).exchange rfl rfl, (Locks.plain rfl).mpr locks, ?_⟩
  intro tok inside d q sees
  rcases Multiset.mem_cons.mp inside with rfl | inside
  · cases sees
  have seen := inv.seen tok (Multiset.mem_cons_of_mem inside) d q sees
  rcases seen with ⟨used, alike⟩ | ⟨q', held, alike⟩
  · by_cases same : d = c
    · exact .inr ⟨sh.mem.ptr c, same ▸ Multiset.mem_cons_self _ _, same ▸ alike⟩
    · refine .inl ⟨used, ?_⟩
      simpa [ArcSwap.Shared.after, ArcSwap.Act.exec, same] using alike
  · exact .inr ⟨q', Multiset.mem_cons_of_mem (by simpa using held), alike⟩

/-- Whoever takes a pointer out with the exclusive lock need not wait: nobody has read it. -/
theorem Inv.exchange {op seen} (inv : Inv sh (.exclusive c seen ::ₘ .own p ::ₘ r))
    (live : sh.mem.status c = .live)
    : Inv (sh.after (.mem (.write c op p)))
      (.exclusive c none ::ₘ .own (sh.mem.ptr c) ::ₘ r) := by
  have ledger := (Ledger.lock rfl).mp inv.ledger
  have locks := inv.locks
  refine ⟨(Ledger.lock rfl).mpr (ledger.write live), ?_, ?_⟩
  · rw [Multiset.cons_swap, Locks.plain rfl] at locks ⊢
    exact locks.readAlone
  intro tok inside d q sees
  rcases Multiset.mem_cons.mp inside with rfl | inside
  · cases sees
  rcases Multiset.mem_cons.mp inside with rfl | inside
  · cases sees
  have before : tok ∈ .own p ::ₘ r := Multiset.mem_cons_of_mem inside
  have other : d ≠ c := by
    rintro rfl
    exact locks.alone before q sees
  refine (inv.seen tok (Multiset.mem_cons_of_mem before) d q sees).mono ?_ (by simp)
  intro used
  simpa [ArcSwap.Shared.after, ArcSwap.Act.exec, other] using used

/-- A reader reads the storage. -/
theorem Inv.read (inv : Inv sh (.shared c none ::ₘ r)) (live : sh.mem.status c = .live)
    : Inv sh (.shared c (some (sh.mem.ptr c)) ::ₘ r) := by
  refine ⟨(Ledger.lock rfl).mpr ((Ledger.lock rfl).mp inv.ledger), inv.locks.read, ?_⟩
  intro tok inside d q sees
  rcases Multiset.mem_cons.mp inside with rfl | inside
  · cases sees
    exact .inl ⟨live, ⟨rfl, rfl⟩⟩
  · exact (inv.seen tok (Multiset.mem_cons_of_mem inside) d q sees).mono
      (fun used => ⟨used, rfl⟩)
      (by simp)

theorem Inv.readAlone {seen} (inv : Inv sh (.exclusive c seen ::ₘ r))
    (live : sh.mem.status c = .live)
    : Inv sh (.exclusive c (some (sh.mem.ptr c)) ::ₘ r) := by
  refine ⟨(Ledger.lock rfl).mpr ((Ledger.lock rfl).mp inv.ledger), inv.locks.readAlone, ?_⟩
  intro tok inside d q sees
  rcases Multiset.mem_cons.mp inside with rfl | inside
  · cases sees
    exact .inl ⟨live, ⟨rfl, rfl⟩⟩
  · exact (inv.seen tok (Multiset.mem_cons_of_mem inside) d q sees).mono
      (fun used => ⟨used, rfl⟩)
      (by simp)

/-- What has been read gets a count of its own. -/
theorem Inv.incRead (inv : Inv sh (.shared c (some p) ::ₘ r))
    : Inv (sh.after (.mem (incAct p))) (.shared c none ::ₘ .own p ::ₘ r) := by
  obtain ⟨valid, alive⟩ := inv.alive (Multiset.mem_cons_self _ _) rfl
  have forgotten : Inv sh (.shared c none ::ₘ r) := by
    refine ⟨(Ledger.lock rfl).mpr ((Ledger.lock rfl).mp inv.ledger), inv.locks.read, ?_⟩
    intro tok inside d q sees
    rcases Multiset.mem_cons.mp inside with rfl | inside
    · cases sees
    · exact (inv.seen tok (Multiset.mem_cons_of_mem inside) d q sees).mono
        (fun used => ⟨used, rfl⟩) (by simp)
  rw [Multiset.cons_swap]
  exact forgotten.inc valid alive

theorem Inv.incReadAlone (inv : Inv sh (.exclusive c (some p) ::ₘ r))
    : Inv (sh.after (.mem (incAct p))) (.exclusive c none ::ₘ .own p ::ₘ r) := by
  obtain ⟨valid, alive⟩ := inv.alive (Multiset.mem_cons_self _ _) rfl
  have forgotten : Inv sh (.exclusive c none ::ₘ r) := by
    refine ⟨(Ledger.lock rfl).mpr ((Ledger.lock rfl).mp inv.ledger), inv.locks.readAlone, ?_⟩
    intro tok inside d q sees
    rcases Multiset.mem_cons.mp inside with rfl | inside
    · cases sees
    · exact (inv.seen tok (Multiset.mem_cons_of_mem inside) d q sees).mono
        (fun used => ⟨used, rfl⟩) (by simp)
  rw [Multiset.cons_swap]
  exact forgotten.inc valid alive

/-- Whoever gets the lock need not wait any longer. -/
theorem Inv.settle (inv : Inv sh (.retired c p ::ₘ r)) (free : (sh.lock c).free = true)
    : Inv sh (.own p ::ₘ r) := by
  have locks := (Locks.plain rfl).mp inv.locks
  refine ⟨inv.ledger.exchange rfl rfl, (Locks.plain rfl).mpr locks, ?_⟩
  intro tok inside d q sees
  rcases Multiset.mem_cons.mp inside with rfl | inside
  · cases sees
  have other : d ≠ c := by
    rintro rfl
    exact locks.unseen free inside q sees
  refine (inv.seen tok (Multiset.mem_cons_of_mem inside) d q sees).mono
    (fun used => ⟨used, rfl⟩) ?_
  intro q' held
  refine Multiset.mem_cons_of_mem ((Multiset.mem_cons.mp held).resolve_left fun eq => ?_)
  cases eq
  exact other rfl

/-- Accesses to locks. -/
theorem Inv.lockAccess {M' : Tokens} {act : Act} (inv : Inv sh M) (memory : act.onMem = .nop)
    (ledger : Ledger sh.mem M') (locks : Locks (sh.after act).lock M')
    (reads : ∀ tok ∈ M', ∀ c p, tok.sees = some (c, p) → tok ∈ M)
    (retired : ∀ c q, .retired c q ∈ M → .retired c q ∈ M')
    : Inv (sh.after act) M' := by
  have mem : (sh.after act).mem = sh.mem.after .nop := by rw [Shared.after_mem, memory]
  refine ⟨mem ▸ ledger.same rfl rfl rfl rfl, locks, ?_⟩
  intro tok inside c p sees
  rw [mem]
  exact (inv.seen tok (reads tok inside c p sees) c p sees).mono
    (fun used => ⟨used, rfl⟩) (retired c)

theorem Inv.lockRead (inv : Inv sh M) (free : (sh.lock c).writer = false)
    : Inv (sh.after (.lockRead c)) (.shared c none ::ₘ M) := by
  refine inv.lockAccess rfl ((Ledger.lock rfl).mpr inv.ledger) (inv.locks.lockRead free) ?_ ?_
  · exact reads_cons rfl
  · exact fun d q held => Multiset.mem_cons_of_mem held

theorem Inv.unlockRead {seen} (inv : Inv sh (.shared c seen ::ₘ r))
    : Inv (sh.after (.unlockRead c)) r := by
  refine inv.lockAccess rfl ((Ledger.lock rfl).mp inv.ledger) inv.locks.unlockRead ?_ ?_
  · exact fun tok inside _ _ _ => Multiset.mem_cons_of_mem inside
  · simp

theorem Inv.lockWrite (inv : Inv sh M) (free : (sh.lock c).free = true)
    : Inv (sh.after (.lockWrite c)) (.exclusive c none ::ₘ M) := by
  refine inv.lockAccess rfl ((Ledger.lock rfl).mpr inv.ledger) (inv.locks.lockWrite free) ?_ ?_
  · exact reads_cons rfl
  · exact fun d q held => Multiset.mem_cons_of_mem held

theorem Inv.unlockWrite {seen} (inv : Inv sh (.exclusive c seen ::ₘ r))
    : Inv (sh.after (.unlockWrite c)) r := by
  refine inv.lockAccess rfl ((Ledger.lock rfl).mp inv.ledger) inv.locks.unlockWrite ?_ ?_
  · exact fun tok inside _ _ _ => Multiset.mem_cons_of_mem inside
  · simp

end rules

end ArcSwap.Locked
