import ArcSwap.Library.Linearizations
import ArcSwap.Proofs.LockUpdates

/-! Both strategies are linearizable: what loads, `compare_and_swap` and `rcu` have returned in a
run is what they would have returned one after the other, in an order that agrees with the order
of the calls.
-/

namespace ArcSwap

open Bags GuardedRuns Registers

-----------------------------------------------------------------------------------------
-- What operations return
-----------------------------------------------------------------------------------------

/-- What a storage is asked for. -/
inductive Request
  | load
  | compareAndSwap (cur : Nat) (new : Ptr)
  | rcu

/-- What an operation that returns `p` has put in the place of it, if anything. -/
def Request.Puts (P : Results) (op : Nat) (p : Ptr) : Request → Option Ptr → Prop
  | .load, q => q = none
  | .compareAndSwap cur new, q => q = if p.addr = cur then some new else none
  | .rcu, q => ∃ old new, q = some new ∧ p.Alike old ∧ P op old new

/-- A request, when it was made and answered, and the answer. -/
structure Reply where
  request : Request
  began : Nat
  ended : Nat
  result : Ptr

/-- The operation on the storage says why the answer was given. -/
structure Reply.By (same : Ptr → Ptr → Prop) (P : Results) (a : Reply)
    (o : Operation Nat Ptr) : Prop where
  began : o.began = a.began
  ended : o.ended ≤ a.ended
  found : same a.result o.found
  put : a.request.Puts P a.began a.result o.put

/-- An operation is called before it writes, and has ended when it has written. -/
def Commit.operation (m : Commit) : Operation Nat Ptr := ⟨m.op, m.time, m.old, some m.new⟩

/-- A sequence of operations that explains the answers and the content of the storage: each finds
what the ones before it have left there, none comes after one that was called when it had ended,
and those that write are the writes of the storage.
-/
structure Shared.Linearization (same : Ptr → Ptr → Prop) (P : Results)
    (sh : Shared) (c : CellId) (answers : List Reply) (order : List (Operation Nat Ptr))
    : Prop where
  runs : Runs same (sh.initial c) order (sh.ptr c)
  inTime : InTime order
  writes : (order.filter fun o => o.put.isSome).Perm ((sh.commits c).map Commit.operation)
  answers : ∀ a ∈ answers, ∃ o ∈ order, a.By same P o

-----------------------------------------------------------------------------------------
-- The order
-----------------------------------------------------------------------------------------

/-- Every write has replaced what the one before has put. -/
structure Shared.Chained (sh : Shared) : Prop where
  recorded : sh.Recorded
  chain : ∀ c, Chain (sh.ptr c) ((sh.commits c).map Commit.operation)

/-- The storage was read when the answer could have been given, or written. -/
def Shared.Explains (same : Ptr → Ptr → Prop) (P : Results) (sh : Shared)
    (c : CellId) (a : Reply)
    : Prop :=
  sh.Held same c a.began a.ended a.result ∧ a.request.Puts P a.began a.result none
    ∨ c < sh.nCells ∧ ∃ m ∈ sh.commits c, a.By same P m.operation

section order

variable {same : Ptr → Ptr → Prop} {P : Results} {sh : Shared} {act : Act} {c : CellId}
  {a : Reply}

theorem Shared.Chained.init : Shared.init.Chained := by
  refine ⟨?_, fun _ => trivial⟩
  intro c m inside
  cases inside

theorem Shared.Chained.after (chained : sh.Chained)
    (late : ∀ c op p, act = .write c op p → op ≤ sh.time)
    : (sh.after act).Chained := by
  refine ⟨chained.recorded.after act, fun c => ?_⟩
  have chain := chained.chain c
  cases act with
  | write d op p =>
      by_cases same : c = d
      · subst same
        simp only [Shared.after, Act.exec, Function.update_self, List.map_cons]
        refine ⟨rfl, Nat.le_succ_of_le (late c op p rfl), ?_, chain⟩
        intro w inside
        obtain ⟨m, there, rfl⟩ := List.mem_map.mp inside
        exact Nat.lt_succ_of_le (chained.recorded c m there)
      · simpa [Shared.after, Act.exec, same] using chain
  | newCell p b useFast =>
      by_cases same : c = sh.nCells
      · subst same
        simp [Shared.after, Act.exec, Chain]
      · simpa [Shared.after, Act.exec, same] using chain
  | _ => exact chain

theorem Shared.Explains.after (explains : sh.Explains same P c a) (act : Act)
    : (sh.after act).Explains same P c a := by
  rcases explains with ⟨held, puts⟩ | ⟨cell, m, inside, given⟩
  · exact .inl ⟨held.after act, puts⟩
  · refine .inr ⟨Nat.lt_of_lt_of_le cell (act.nCells_le sh), m, ?_, given⟩
    cases act with
    | write d op p =>
        by_cases same : c = d
        · subst same
          simp [Shared.after, Act.exec, inside]
        · simpa [Shared.after, Act.exec, same] using inside
    | newCell => simpa [Shared.after, Act.exec, Nat.ne_of_lt cell] using inside
    | _ => exact inside

/-- Before the first write the storage held what it was created with. -/
theorem first_commits (now : Ptr) (commits : List Commit)
    : first now (commits.map Commit.operation) = (commits.getLast?.map Commit.old).getD now := by
  induction commits generalizing now with
  | nil => rfl
  | cons m earlier ih =>
      rw [List.map_cons, first, ih, List.getLast?_cons]
      cases earlier.getLast? <;> rfl

/-- The reads of the answers that no write explains. -/
theorem exists_reads (cmp : Comparison same) {answers : List Reply}
    (explained : ∀ a ∈ answers, sh.Explains same P c a)
    : ∃ reads : List (Operation Nat Ptr),
        (∀ r ∈ reads, r.put = none ∧ sh.Held same c r.began r.ended r.found)
        ∧ ∀ a ∈ answers,
            (∃ r ∈ reads, a.By same P r)
              ∨ ∃ m ∈ sh.commits c, a.By same P m.operation := by
  induction answers with
  | nil => exact ⟨[], by simp, by simp⟩
  | cons a answers ih =>
      obtain ⟨reads, held, given⟩ :=
        ih fun a' inside => explained a' (List.mem_cons_of_mem a inside)
      rcases explained a List.mem_cons_self with ⟨now, puts⟩ | ⟨_, written⟩
      · let r : Operation Nat Ptr := ⟨a.began, a.ended, a.result, none⟩
        have read : a.By same P r := ⟨rfl, Nat.le_refl _, cmp.refl _, puts⟩
        refine ⟨r :: reads, ?_, fun a' inside => ?_⟩
        · intro r' inside
          rcases List.mem_cons.mp inside with rfl | there
          · exact ⟨rfl, now⟩
          · exact held r' there
        · rcases List.mem_cons.mp inside with rfl | there
          · exact .inl ⟨r, List.mem_cons_self, read⟩
          · refine (given a' there).imp_left ?_
            intro ⟨r', inside, read⟩
            exact ⟨r', List.mem_cons_of_mem r inside, read⟩
      · refine ⟨reads, held, fun a' inside => ?_⟩
        rcases List.mem_cons.mp inside with rfl | there
        · exact .inr written
        · exact given a' there

/-- Answers that are explained can be put in an order with the writes. -/
theorem Shared.Chained.linearization (chained : sh.Chained) (cmp : Comparison same)
    {answers : List Reply} (explained : ∀ a ∈ answers, sh.Explains same P c a)
    : ∃ order, sh.Linearization same P c answers order := by
  obtain ⟨reads, held, given⟩ := exists_reads cmp explained
  have history
      : ((sh.commits c).map Commit.operation).map Operation.write
        = (sh.commits c).map Commit.write :=
    List.map_map
  have found
      : ∀ r ∈ reads, r.put = none
        ∧ ∃ t, r.began ≤ t ∧ t ≤ r.ended
            ∧ same r.found
                (valueAt (sh.ptr c) t
                  (((sh.commits c).map Commit.operation).map Operation.write)) := by
    intro r inside
    rw [history]
    exact ⟨(held r inside).1, (held r inside).2.instant⟩
  obtain ⟨order, perm, inTime, runs⟩ := exists_runs cmp.refl (chained.chain c) found
  refine ⟨order, ?_, inTime, ?_, ?_⟩
  · rw [first_commits] at runs
    exact runs
  · have none : reads.filter (fun o => o.put.isSome) = [] := by
      refine List.filter_eq_nil_iff.mpr fun r inside => ?_
      simp [(held r inside).1]
    have all
        : ((sh.commits c).map Commit.operation).filter (fun o => o.put.isSome)
          = (sh.commits c).map Commit.operation := by
      refine List.filter_eq_self.mpr fun w inside => ?_
      obtain ⟨m, _, rfl⟩ := List.mem_map.mp inside
      rfl
    have writers := perm.filter fun o => o.put.isSome
    rwa [List.filter_append, none, all, List.nil_append] at writers
  · intro a inside
    rcases given a inside with ⟨r, there, read⟩ | ⟨m, there, written⟩
    · exact ⟨r, perm.mem_iff.mpr (List.mem_append_left _ there), read⟩
    · refine ⟨m.operation, perm.mem_iff.mpr (List.mem_append_right _ ?_), written⟩
      exact List.mem_map_of_mem there

/-- The write of an operation explains its answer. -/
theorem Shared.WroteFor.explains {op r p new request} (wrote : sh.WroteFor c op p new)
    (cmp : Comparison same) (recorded : sh.Recorded) (alike : r.Alike p)
    (puts : request.Puts P op r (some new))
    : sh.Explains same P c ⟨request, op, sh.time, r⟩ := by
  obtain ⟨m, wrote, _, old, rfl⟩ := wrote
  have own : m ∈ sh.writes c op := by
    rw [wrote.own]
    exact List.mem_singleton_self m
  obtain ⟨inside, name⟩ := List.mem_filter.mp own
  have found : r.Alike m.old := ⟨alike.addr.trans old.addr.symm, alike.prov.trans old.prov.symm⟩
  refine .inr ⟨wrote.cell, m, inside, ?_⟩
  exact {
    began := beq_iff_eq.mp name
    ended := recorded c m inside
    found := cmp.alike r m.old m.old found (cmp.refl _)
    put := puts
  }

end order

-----------------------------------------------------------------------------------------
-- The default strategy
-----------------------------------------------------------------------------------------

/-- The answers that operations on the storage have just given. -/
inductive State.Replies (s : State) (c : CellId) : Reply → Prop
  | load {t began g} (member : t < s.nThr)
    (inside : .ret (.load c began) (.prot g) ∈ (s.thr t).stack)
    : s.Replies c ⟨.load, began, s.sh.time, g.ptr⟩
  | loadFull {t began p} (member : t < s.nThr)
    (inside : .ret (.load c began) (.ptr p) ∈ (s.thr t).stack)
    : s.Replies c ⟨.load, began, s.sh.time, p⟩
  | compareAndSwap {t op cur new g} (member : t < s.nThr)
    (inside : .ret (.swapped c op cur new) (.prot g) ∈ (s.thr t).stack)
    : s.Replies c ⟨.compareAndSwap cur new, op, s.sh.time, g.ptr⟩
  | rcu {t op r calls} (member : t < s.nThr)
    (inside : .rcu c op (.doneWait r calls) ∈ (s.thr t).stack)
    : s.Replies c ⟨.rcu, op, s.sh.time, r⟩

/-- No generation is confused, loads adopt what they may, and closures return the given results. -/
def Orderly (cfg : Config) (same : Ptr → Ptr → Prop) (P : Results) (s : State)
    (l : Label) : Prop :=
  Careful cfg s l ∧ Adopts same s l ∧ Returns cfg P s l

section runs

variable {cfg : Config} {same : Ptr → Ptr → Prop} {P : Results} {s s' : State} {n : Nat}
  {c : CellId} {a : Reply}

theorem explains_of_reaches {ok} (later : Reaches (step cfg) ok s s')
    (explains : s.sh.Explains same P c a)
    : s'.sh.Explains same P c a := by
  refine later.invariant (I := fun s => s.sh.Explains same P c a) explains ?_
  intro s₁ l s₂ _ explains _ taken
  obtain ⟨δ, rest, _, _, _, rfl⟩ := step_moves taken
  exact explains.after δ.act

theorem tracked_of_orderly (reached : Reaches (step cfg) (Orderly cfg same P) (State.init n) s)
    : s.Tracked P :=
  tracked_of_reaches (reached.mono fun _ _ orderly => ⟨orderly.1, orderly.2.2⟩)

theorem chained_of_reaches (reached : Reaches (step cfg) (Orderly cfg same P) (State.init n) s)
    : s.sh.Chained := by
  refine reached.invariant (I := fun s => s.sh.Chained) .init ?_
  intro s l s' before chained _ taken
  have tracked := tracked_of_orderly before
  obtain ⟨δ, rest, member, top, move, rfl⟩ := step_moves taken
  refine chained.after fun c op p writes => ?_
  have own : op ∈ listed Frame.ops δ.old := by
    rcases move.writes writes with ⟨eq, _⟩ | ⟨_, _, _, eq, _⟩ <;> simp [eq, Frame.ops]
  obtain ⟨fr, inside, own⟩ := mem_listed.mp own
  apply Nat.le_of_lt
  apply tracked.ops.past op
  exact State.mem_shares_of_frame (S := opShare) member (top ▸ List.mem_append_left _ inside) own

theorem State.Replies.explains (cmp : Comparison same)
    (reached : Reaches (step cfg) (Orderly cfg same P) (State.init n) s) (replies : s.Replies c a)
    : s.sh.Explains same P c a := by
  have tracked := tracked_of_orderly reached
  have sourced : s.Sourced same :=
    sourced_of_reaches cmp (reached.mono fun _ _ orderly => ⟨orderly.1, orderly.2.1⟩)
  have recorded := sourced.recorded
  cases replies with
  | load member inside =>
      obtain ⟨ended, _, held⟩ : Spec.Sourced same s.sh (.load c _) (.prot _) :=
        sourced.frames _ member _ inside
      exact .inl ⟨held.extend (Nat.le_refl _) held.past (Nat.le_refl _), rfl⟩
  | loadFull member inside => exact .inl ⟨sourced.frames _ member _ inside, rfl⟩
  | @compareAndSwap t op cur new g member inside =>
      obtain ⟨⟨src, source, cell, since⟩, outcome⟩ :
          Spec.Tracks s.sh (.swapped c op cur new) (.prot g) :=
        tracked.frames t member _ inside
      rcases outcome with ⟨expected, wrote⟩ | ⟨differs, _⟩
      · exact wrote.explains cmp recorded ⟨rfl, rfl⟩ (if_pos expected).symm
      · have result : Spec.Sourced same s.sh (.swapped c op cur new) (.prot g) :=
          sourced.frames t member _ inside
        have held := result.prot src source
        rw [cell] at held
        exact .inl ⟨held.extend since held.past (Nat.le_refl _), (if_neg differs).symm⟩
  | @rcu t op r calls member inside =>
      obtain ⟨⟨p, new, alike, wrote, result⟩, _⟩
          : RcuPc.Tracks P s.sh c op (.doneWait r calls) :=
        tracked.frames t member _ inside
      exact wrote.explains cmp recorded alike ⟨p, new, rfl, alike, result⟩

/-- The default strategy is linearizable. Pointers are compared by their addresses or, in a run in
which no load adopts an address that has been given to another object, by their objects.
-/
theorem linearizable (cmp : Comparison same)
    (reached : Reaches (step cfg) (Orderly cfg same P) (State.init n) s) {answers : List Reply}
    (given
      : ∀ a ∈ answers, ∃ s', Reaches (step cfg) (Orderly cfg same P) (State.init n) s'
          ∧ Reaches (step cfg) (Orderly cfg same P) s' s ∧ s'.Replies c a)
    : ∃ order, s.sh.Linearization same P c answers order := by
  apply (chained_of_reaches reached).linearization cmp
  intro a inside
  obtain ⟨s', before, later, replies⟩ := given a inside
  exact explains_of_reaches later (replies.explains cmp before)

end runs

/-- A load whose pointer was replaced before it could write its slot comes before the write. -/
theorem linearizable_paid
    : ∃ (s : State) (order : List (Operation Nat Ptr)), (s.sh.ptr 0).addr = 20
        ∧ s.sh.Linearization Ptr.Alike (fun _ _ _ => True) 0
          [⟨.load, 2, s.sh.time, ⟨16, 0, 1⟩⟩] order := by
  let g : Prot := ⟨⟨16, 0, 1⟩, none, some ⟨0, 2, 39⟩⟩
  have ran
      : (runChecked (step ⟨64, true⟩)
            (fun s l => careful ⟨64, true⟩ s l && adoptsItsOwn s l)
            (State.init 2) paidSchedule).map
            (fun s => ((s.sh.ptr 0).addr, s.nThr, (s.thr 0).stack.head?))
          = some (20, 2, some (.ret (.load 0 2) (.prot g))) := by
    decide +kernel
  obtain ⟨s, ran, eq⟩ := Option.map_eq_some_iff.mp ran
  simp only [Prod.mk.injEq] at eq
  obtain ⟨ptr, threads, top⟩ := eq
  have reached
      : Reaches (step ⟨64, true⟩) (Orderly ⟨64, true⟩ Ptr.Alike fun _ _ _ => True)
        (State.init 2) s := by
    refine reaches_of_runChecked (fun s l both => ?_) ran
    obtain ⟨careful, adopts⟩ := Bool.and_eq_true_iff.mp both
    refine ⟨careful_sound careful, (unreused_of_adoptsItsOwn adopts).adopts, ?_⟩
    exact fun _ _ _ _ _ _ _ _ _ _ => trivial
  have member : 0 < s.nThr := by omega
  have replies : s.Replies 0 ⟨.load, 2, s.sh.time, g.ptr⟩ :=
    .load member (List.mem_of_mem_head? top)
  obtain ⟨order, linearization⟩ := linearizable comparison_alike reached fun a inside => by
    cases List.mem_singleton.mp inside
    exact ⟨s, reached, .start, replies⟩
  exact ⟨s, order, ptr, linearization⟩

end ArcSwap

-----------------------------------------------------------------------------------------
-- The strategy RwLock
-----------------------------------------------------------------------------------------

namespace ArcSwap.Locked

open Bags GuardedRuns Registers

/-- The answers that operations on the storage have just given. -/
inductive State.Replies (s : State) (c : CellId) : Reply → Prop
  | load {t began g} (member : t < s.nThr)
    (inside : .ret (.load c began) (.prot g) ∈ s.stack t)
    : s.Replies c ⟨.load, began, s.sh.mem.time, g.ptr⟩
  | loadFull {t began p} (member : t < s.nThr)
    (inside : .ret (.load c began) (.ptr p) ∈ s.stack t)
    : s.Replies c ⟨.load, began, s.sh.mem.time, p⟩
  | compareAndSwap {t op cur new g} (member : t < s.nThr)
    (inside : .ret (.swapped c op cur new) (.prot g) ∈ s.stack t)
    : s.Replies c ⟨.compareAndSwap cur new, op, s.sh.mem.time, g.ptr⟩
  | rcu {t op r calls} (member : t < s.nThr)
    (inside : .rcu c op (.doneWait r calls) ∈ s.stack t)
    : s.Replies c ⟨.rcu, op, s.sh.mem.time, r⟩

section runs

variable {P : Results} {s s' : State} {n : Nat} {c : CellId} {a : Reply}

theorem explains_of_reaches {ok same} (later : Reaches step ok s s')
    (explains : s.sh.mem.Explains same P c a)
    : s'.sh.mem.Explains same P c a := by
  refine later.invariant (I := fun s => s.sh.mem.Explains same P c a) explains ?_
  intro s₁ l s₂ _ explains _ taken
  obtain ⟨_, δ, rest, _, _, rfl⟩ := step_moves taken
  rw [State.after_sh, Shared.after_mem]
  exact explains.after _

theorem chained_of_reaches (run : Reaches step (Returns P) (State.init n) s)
    : s.sh.mem.Chained := by
  refine run.invariant (I := fun s => s.sh.mem.Chained) .init ?_
  intro s l s' before chained _ taken
  have tracked := tracked_of_run before
  obtain ⟨member, δ, rest, top, move, rfl⟩ := step_moves taken
  rw [State.after_sh, Shared.after_mem]
  refine chained.after fun c op p writes => ?_
  have own : op ∈ listed Frame.ops δ.old := by
    rcases move.writes writes with ⟨eq, _⟩ | ⟨_, _, eq, _⟩ <;> simp [eq, Frame.ops]
  obtain ⟨fr, inside, own⟩ := mem_listed.mp own
  apply Nat.le_of_lt
  apply tracked.past op
  exact State.mem_ops member (top ▸ List.mem_append_left _ inside) own

theorem State.Replies.explains (run : Reaches step (Returns P) (State.init n) s)
    (replies : s.Replies c a)
    : s.sh.mem.Explains Ptr.Alike P c a := by
  have tracked := tracked_of_run run
  have recorded := tracked.recorded
  cases replies with
  | load member inside => exact .inl ⟨tracked.frames _ member _ inside, rfl⟩
  | loadFull member inside => exact .inl ⟨tracked.frames _ member _ inside, rfl⟩
  | @compareAndSwap t op cur new g member inside =>
      have outcome : Outcome s.sh.mem c op cur new g.ptr := tracked.frames t member _ inside
      rcases outcome with ⟨expected, wrote⟩ | ⟨differs, _, held⟩
      · exact wrote.explains comparison_alike recorded ⟨rfl, rfl⟩ (if_pos expected).symm
      · exact .inl ⟨held, (if_neg differs).symm⟩
  | @rcu t op r calls member inside =>
      obtain ⟨p, new, alike, wrote, result⟩ : rcuTracks P s.sh.mem c op (.doneWait r calls) :=
        tracked.frames t member _ inside
      exact wrote.explains comparison_alike recorded alike ⟨p, new, rfl, alike, result⟩

/-- The strategy `RwLock<()>` is linearizable, on objects and in every run. -/
theorem lock_linearizable (run : Reaches step (Returns P) (State.init n) s) {answers : List Reply}
    (given
      : ∀ a ∈ answers, ∃ s', Reaches step (Returns P) (State.init n) s'
          ∧ Reaches step (Returns P) s' s ∧ s'.Replies c a)
    : ∃ order, s.sh.mem.Linearization Ptr.Alike P c answers order := by
  apply (chained_of_reaches run).linearization comparison_alike
  intro a inside
  obtain ⟨s', before, later, replies⟩ := given a inside
  exact explains_of_reaches later (replies.explains before)

end runs

/-- A load that ends after its pointer was taken out comes before the write. -/
theorem lock_linearizable_removed
    : ∃ (s : State) (order : List (Operation Nat Ptr)), s.sh.mem.ptr 0 = ⟨0, 0, 0⟩
        ∧ s.sh.mem.Linearization Ptr.Alike (fun _ _ _ => True) 0
            [⟨.load, 2, s.sh.mem.time, ⟨16, 0, 1⟩⟩] order := by
  let g : Prot := ⟨⟨16, 0, 1⟩, none, some ⟨0, 2, 9⟩⟩
  have ran
      : (runChecked step (fun _ _ => true)
          (State.init 2) (readSchedule ++ [.run 0 false, .run 0 false])).map
            (fun s => (s.nThr, s.sh.mem.ptr 0, s.stack 0))
          = some (2, ⟨0, 0, 0⟩, [.ret (.load 0 2) (.prot g)]) := by
    decide +kernel
  obtain ⟨s, ran, eq⟩ := Option.map_eq_some_iff.mp ran
  simp only [Prod.mk.injEq] at eq
  obtain ⟨threads, ptr, stack⟩ := eq
  have run : Reaches step (Returns fun _ _ _ => True) (State.init 2) s :=
    reaches_of_runChecked (fun _ _ _ => fun _ _ _ _ _ _ _ _ _ _ => trivial) ran
  have member : 0 < s.nThr := by omega
  have replies : s.Replies 0 ⟨.load, 2, s.sh.mem.time, g.ptr⟩ := .load member (by simp [stack])
  obtain ⟨order, linearization⟩ := lock_linearizable run fun a inside => by
    cases List.mem_singleton.mp inside
    exact ⟨s, run, .start, replies⟩
  exact ⟨s, order, ptr, linearization⟩

end ArcSwap.Locked
