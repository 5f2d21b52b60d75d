import ArcSwap.Proofs.Passes
import ArcSwap.Proofs.Pointees

/-! Writers promote guards. Once the walk for an object that has been taken out of its storage is
over, and the object has not been put into a storage again, no slot owes a count of it any more
except to loads that are still going on, and all guards over it have counts of their own.
-/

namespace ArcSwap

open Bags GuardedRuns

-----------------------------------------------------------------------------------------
-- Objects that are out of all storages
-----------------------------------------------------------------------------------------

/-- The object was taken out of a storage at `since`, and has been in no storage from then on. -/
structure Shared.OutSince (sh : Shared) (since : Nat) (p : Ptr) : Prop where
  out : sh.lastOut p.prov = since
  absent : ∀ c, sh.status c = .live → ¬ (sh.ptr c).Alike p

/-- The object that the pointer was made for is there. -/
def Shared.Exists (sh : Shared) (p : Ptr) : Prop :=
  p.addr ≠ 0 ∧ ∃ o, sh.heap p.addr = some o ∧ o.id = p.prov

section out

variable {sh : Shared} {r old new M : Tokens} {act : Act} {p : Ptr} {since : Nat}

theorem Shared.Exists.valid (there : sh.Exists p) (word : p.addr ≠ NONE) : p.Valid sh :=
  ⟨word, fun null => absurd null there.1, fun _ => there.2⟩

/-- An object that exists after a step, and was made before it, existed before it. -/
theorem Shared.Exists.before (there : (sh.after act).Exists p) (made : p.prov < sh.nextId)
    : sh.Exists p := by
  obtain ⟨real, o, there, id⟩ := there
  refine ⟨real, ?_⟩
  rcases act.object sh there with ⟨o', was, same, _⟩ | ⟨fresh, _⟩
  · exact ⟨o', was, same.trans id⟩
  · omega

/-- A pointer that is taken out of a storage is taken out now. -/
theorem Act.lastOut (sh : Shared) (act : Act) (id : Nat)
    : (act.exec sh).lastOut id = sh.lastOut id ∨ (act.exec sh).lastOut id = sh.time + 1 := by
  cases act with
  | write | closeCell =>
      simp only [Act.exec, Function.update_apply]
      split
      · exact .inr rfl
      · exact .inl rfl
  | _ => exact .inl rfl

/-- What has been out of all storages since a time that is past was so before the last step. -/
theorem Shared.OutSince.before (out : (sh.after act).OutSince since p)
    (step : ProtoStep sh r old act new) (cells : CellInv sh old) (past : since ≤ sh.time)
    : sh.OutSince since p := by
  have untouched : (act.exec sh).lastOut p.prov ≠ sh.time + 1 := by
    have eq : (act.exec sh).lastOut p.prov = since := out.out
    omega
  have same := (act.lastOut sh p.prov).resolve_right untouched
  refine ⟨same.symm.trans out.out, fun c live alike => ?_⟩
  have kept (status : (act.exec sh).status c = .live) (ptr : (act.exec sh).ptr c = sh.ptr c)
      : False :=
    out.absent c status (ptr.symm ▸ alike)
  have taken (now : (act.exec sh).lastOut (sh.ptr c).prov = sh.time + 1) : False :=
    untouched (alike.prov ▸ now)
  cases step with
  | quiet quiet => cases act <;> first | exact kept live rfl | cases quiet
  | inc => unfold incAct at kept; split at kept <;> exact kept live rfl
  | newCell =>
      have bound := cells.bound c (by simp [live])
      exact kept (by simp [Act.exec, Nat.ne_of_lt bound, live])
        (by simp [Act.exec, Nat.ne_of_lt bound])
  | @closeCell d =>
      by_cases eq : c = d
      · subst eq
        exact taken (by simp [Act.exec])
      · exact kept (by simp [Act.exec, eq, live]) rfl
  | @freeCell d =>
      have other : c ≠ d := by
        rintro rfl
        rw [cells.of_closed] at live
        cases live
      exact kept (by simp [Act.exec, other, live]) rfl
  | @write d op q =>
      by_cases eq : c = d
      · subst eq
        exact taken (by simp [Act.exec])
      · exact kept live (by simp [Act.exec, eq])
  | _ => exact kept live rfl

/-- No storage in use has the address of an object that exists and is in none. -/
theorem Shared.OutSince.notStored (out : sh.OutSince since p) (valid : p.Valid sh)
    (ledger : LedgerInv sh M)
    : ¬ sh.Stored p.addr := by
  rintro ⟨c, live, addr⟩
  exact out.absent c live ((ledger.cells c live).alike valid addr)

end out

-----------------------------------------------------------------------------------------
-- Slots that loads in progress have registered
-----------------------------------------------------------------------------------------

/-- A load that is still going on has registered the address in the slot. -/
def Registered (M : Tokens) (n : NodeId) (i a : Nat) : Prop :=
  ∃ p : Ptr, p.addr = a ∧ (.pending p n i ∈ M ∨ i = HELPING ∧ .session n (.ended p) ∈ M)

section step

variable {sh : Shared} {r old new : Tokens} {act : Act} {a : Nat} {n : NodeId} {i : Nat}

/-- A load keeps the slot that it has registered as long as no storage has the address, in which
case it could return with a debt.
-/
theorem ProtoStep.registered (step : ProtoStep sh r old act new) (registered : Registered old n i a)
    (there : (act.exec sh).slot n i = a) (word : a ≠ NONE) (absent : ¬ sh.Stored a)
    : Registered new n i a := by
  obtain ⟨p, rfl, held⟩ := registered
  have settled {m j} (eq : n = m ∧ i = j) (settles : act = .settle m j) : False := by
    obtain ⟨rfl, rfl⟩ := eq
    subst settles
    simp [Act.exec, set₂] at there
    exact word there.symm
  rcases held with held | ⟨rfl, held⟩
  · have kept (held : .pending p n i ∈ r) : Registered new n i p.addr :=
      ⟨p, rfl, .inl (step.frameTo held)⟩
    cases step with
    | @confirmFast m j q c live same =>
        simp only [Multiset.mem_cons, reduceCtorEq, false_or, Token.pending.injEq] at held
        rcases held with ⟨rfl, rfl, rfl⟩ | held
        · exact absurd ⟨c, live, same.symm⟩ absent
        · exact kept held
    | unhelped =>
        simp only [Multiset.mem_cons, reduceCtorEq, false_or, Token.pending.injEq] at held
        rcases held with ⟨rfl, rfl, rfl⟩ | held
        · exact ⟨p, rfl, .inr ⟨rfl, by simp⟩⟩
        · exact kept held
    | payBack | unusedPaid =>
        simp only [Multiset.mem_cons, reduceCtorEq, false_or, Token.pending.injEq] at held
        rcases held with ⟨rfl, eq⟩ | held
        · exact (settled eq rfl).elim
        · exact kept held
    | adopt other | unusedWasPaid other =>
        simp only [Multiset.mem_cons, reduceCtorEq, false_or, Token.pending.injEq] at held
        rcases held with ⟨rfl, rfl, rfl⟩ | held
        · exact absurd there other
        · exact kept held
    | _ => exact ⟨p, rfl, .inl (by simp_all)⟩
  · have kept (held : .session n (.ended p) ∈ r) : Registered new n HELPING p.addr :=
      ⟨p, rfl, .inr ⟨rfl, step.frameTo held⟩⟩
    cases step with
    | ownPaid | unusedPaid =>
        simp only [Multiset.mem_cons, reduceCtorEq, false_or, Token.session.injEq,
          Session.ended.injEq] at held
        rcases held with ⟨rfl, rfl⟩ | held
        · exact (settled ⟨rfl, rfl⟩ rfl).elim
        · exact kept held
    | ownWasPaid other | unusedWasPaid other =>
        simp only [Multiset.mem_cons, reduceCtorEq, false_or, Token.session.injEq,
          Session.ended.injEq] at held
        rcases held with ⟨rfl, rfl⟩ | held
        · exact absurd there other
        · exact kept held
    | _ => exact ⟨p, rfl, .inr ⟨rfl, by simp_all⟩⟩

/-- An address that is out of all storages gets into a slot by a load that goes on. -/
theorem ProtoStep.slotOut (step : ProtoStep sh r old act new)
    (there : (act.exec sh).slot n i = a) (word : a ≠ NONE) (absent : ¬ sh.Stored a)
    : Registered new n i a ∨ sh.slot n i = a ∧ ¬ Registered old n i a := by
  rcases step.slotFrom (there ▸ word) with same | ⟨p, held, addr⟩
  · by_cases registered : Registered old n i a
    · exact .inl (step.registered registered there word absent)
    · exact .inr ⟨same.symm.trans there, registered⟩
  · exact .inl ⟨p, addr.trans there, .inl held⟩

-----------------------------------------------------------------------------------------
-- Walks
-----------------------------------------------------------------------------------------

/-- As long as the object is out of all storages, its slots are registered by loads in progress
or are still before the writer.
-/
def Promotes (sh : Shared) (M : Tokens) (since : Nat) (p : Ptr)
    (ahead : NodeId → Nat → Prop) : Prop :=
  sh.OutSince since p → ∀ n i, sh.slot n i = p.addr → Registered M n i p.addr ∨ ahead n i

structure PromoInv (sh : Shared) (M : Tokens) : Prop where
  walks
    : ∀ c p since pos, .walk c p since pos ∈ M
        → since ≤ sh.time ∧ Promotes sh M since p (fun n i => pos.ahead sh.rank n i)
  finished
    : ∀ c p since, .finished c p since ∈ M
        → since ≤ sh.time ∧ Promotes sh M since p fun _ _ => False

theorem ProtoStep.promotes (step : ProtoStep sh r old act new) (inv : TxInv sh old)
    (ledger : LedgerInv sh old) {p since} {ahead ahead' : NodeId → Nat → Prop}
    (valid : p.Valid sh) (past : since ≤ sh.time) (promotes : Promotes sh old since p ahead)
    (moved
      : ∀ n i, sh.linked n = true → i ≤ HELPING
        → (act.exec sh).slot n i = p.addr → ahead n i
        → ahead' n i)
    : Promotes (sh.after act) new since p ahead' := by
  intro out n i there
  have before := out.before step inv.cells past
  have there : (act.exec sh).slot n i = p.addr := there
  rcases step.slotOut there valid.word (before.notStored valid ledger)
    with registered | ⟨was, other⟩
  · exact .inl registered
  · obtain ⟨linked, bound⟩ := inv.walks.slots n i (was ▸ valid.word)
    exact .inr (moved n i linked bound there ((promotes before n i was).resolve_left other))

/-- A walk that is over has been at the end of the list. -/
theorem ProtoStep.finishedFrom (step : ProtoStep sh r old act new) {c p since}
    (inside : .finished c p since ∈ new)
    : .finished c p since ∈ old ∨ .walk c p since .done ∈ old := by
  have kept (inside : .finished c p since ∈ r)
      : .finished c p since ∈ old ∨ .walk c p since .done ∈ old :=
    .inl (step.frame inside)
  cases step with
  | finish =>
      rcases Multiset.mem_cons.mp inside with eq | inside
      · cases eq
        exact .inr (Multiset.mem_cons_self _ _)
      · exact kept inside
  | _ => exact kept (by simpa using inside)

theorem ProtoStep.promoInv (step : ProtoStep sh r old act new) (list : sh.ListOk)
    (inv : TxInv sh old) (ledger : LedgerInv sh old) (promo : PromoInv sh old)
    : PromoInv (sh.after act) new where
  walks c p since pos inside := by
    cases step.walkFrom inside with
    | kept there =>
        have walk := step.frame there
        obtain ⟨past, promotes⟩ := promo.walks c p since pos walk
        refine ⟨Nat.le_succ_of_le past,
          step.promotes inv ledger (ledger.fine _ walk) past promotes ?_⟩
        intro n i linked _ _ ahead
        exact ((Pos.ranks (inv.walks.pos c p since pos walk) (fun _ => step.rank) linked).1 i).mpr
          ahead
    | begun _ _ now => exact ⟨Nat.le_of_eq now, fun _ n i _ => .inr trivial⟩
    | @moved pos' pos walk move =>
        obtain ⟨past, promotes⟩ := promo.walks c p since pos' walk
        have valid : p.Valid sh := ledger.fine _ walk
        refine ⟨Nat.le_succ_of_le past, step.promotes inv ledger valid past promotes ?_⟩
        intro n i linked bound there ahead
        show pos.ahead (act.exec sh).rank n i
        rw [move.rank]
        exact move.ahead list (inv.walks.pos c p since pos' walk) linked bound there
          valid.word ahead
  finished c p since inside := by
    rcases step.finishedFrom inside with finished | walk
    · obtain ⟨past, promotes⟩ := promo.finished c p since finished
      exact ⟨Nat.le_succ_of_le past,
        step.promotes inv ledger (ledger.fine _ finished) past promotes
        fun _ _ _ _ _ => id⟩
    · obtain ⟨past, promotes⟩ := promo.walks c p since .done walk
      exact ⟨Nat.le_succ_of_le past, step.promotes inv ledger (ledger.fine _ walk) past promotes
        fun _ _ _ _ _ => id⟩

end step

theorem PromoInv.init : PromoInv .init 0 where
  walks _ _ _ _ inside := absurd inside (Multiset.notMem_zero _)
  finished _ _ _ inside := absurd inside (Multiset.notMem_zero _)

theorem promo_of_reaches {cfg n s} (reached : Reaches (step cfg) (Careful cfg) (State.init n) s)
    : PromoInv s.sh s.tokens := by
  have all : HelpInv s.sh s.tokens ∧ LedgerInv s.sh s.tokens ∧ PromoInv s.sh s.tokens := by
    refine protocol_invariant (I := fun sh M => HelpInv sh M ∧ LedgerInv sh M ∧ PromoInv sh M)
      ⟨.init, .init, .init⟩ ?_ reached
    intro sh r old act new step list inv fresh ⟨help, ledger, promo⟩
    exact ⟨step.helpInv list inv fresh help, (step.ledger list inv help.env ledger).tick _,
      step.promoInv list inv ledger promo⟩
  exact all.2.2

theorem numbered_of_reaches {cfg n s} {ok : State → Label → Prop}
    (reached : Reaches (step cfg) ok (State.init n) s)
    : s.sh.Numbered := by
  refine reached.invariant (I := fun s => s.sh.Numbered) ?_ fun s l s' _ numbered _ taken => ?_
  · exact ⟨Nat.one_pos, fun a o there => by simp [State.init, Shared.init] at there⟩
  · obtain ⟨δ, rest, _, _, _, rfl⟩ := step_moves taken
    exact numbered.after δ.act

/-- What a walk has brought about lasts as long as the object is out of all storages. -/
theorem promotes_later {cfg n s s' c p since}
    (reached : Reaches (step cfg) (Careful cfg) (State.init n) s)
    (finished : .finished c p since ∈ s.tokens) (later : Reaches (step cfg) (Careful cfg) s s')
    (there : s'.sh.Exists p)
    : Promotes s'.sh s'.tokens since p fun _ _ => False := by
  have valid : p.Valid s.sh := (ledger_of_reaches reached).fine _ finished
  obtain ⟨past, promotes⟩ := (promo_of_reaches reached).finished c p since finished
  obtain ⟨o, object, same⟩ := valid.object there.1
  have made : p.prov < s.sh.nextId := same ▸ ((numbered_of_reaches reached).object _ o object).2
  have all
      : since ≤ s'.sh.time ∧ p.prov < s'.sh.nextId
        ∧ (s'.sh.Exists p → Promotes s'.sh s'.tokens since p fun _ _ => False) := by
    refine later.invariant
      (I := fun s => since ≤ s.sh.time ∧ p.prov < s.sh.nextId
        ∧ (s.sh.Exists p → Promotes s.sh s.tokens since p fun _ _ => False))
      ⟨past, made, fun _ => promotes⟩ ?_
    rintro s₁ l s₂ before ⟨past, made, promotes⟩ allowed taken
    have before := reached.trans before
    have ok := txOk_of_reaches (fun _ _ => And.left) before
    have ledger := ledger_of_reaches before
    obtain ⟨δ, rest, member, top, move, rfl⟩ := step_moves taken
    obtain ⟨_, r, proto⟩ := ok.after member top move fun fr old =>
      allowed.1 fr rest (by rw [top, old]; rfl)
    refine ⟨Nat.le_succ_of_le past, Nat.lt_of_lt_of_le made (δ.act.nextId_le _),
      fun there => ?_⟩
    have there : s₁.sh.Exists p := Shared.Exists.before there made
    exact proto.promotes ok.tx ledger (there.valid valid.word) past (promotes there)
      fun _ _ _ _ _ => id
  exact all.2.2 there

-----------------------------------------------------------------------------------------
-- Loads in progress and guards
-----------------------------------------------------------------------------------------

/-- The slot that a load has registered a pointer in, until it gives it back or returns. -/
def LoadPc.registration : LoadPc → Option (NodeId × Nat × Ptr)
  | .recheck n p i | .payBack n p i => some (n, i, p)
  | .confirm n _ p | .ownInc n p | .ownPay n p | .envelope n p _ _ | .restore n p _ _
  | .unused n p _ => some (n, HELPING, p)
  | _ => none

def Frame.registration : Frame → Option (NodeId × Nat × Ptr)
  | .load _ _ _ pc => pc.registration
  | _ => none

/-- The guards that a frame holds. -/
def Frame.guards : Frame → List Prot
  | .ret _ (.prot g) | .guardDrop g | .into g _ .inc | .into g _ .pay
  | .load _ _ _ (.decWait g) | .load _ _ _ (.coolWait g) | .cas _ _ _ _ (.exchange g)
  | .cas _ _ _ _ (.payWait g) | .cas _ _ _ _ (.decWait g) | .cas _ _ _ _ (.rejectWait g)
  | .rcu _ _ (.closureWait g _) | .rcu _ _ (.casWait g _ _) | .rcu _ _ (.intoWait g _ _)
  | .rcu _ _ (.againWait g _) => [g]
  | _ => []

theorem Frame.registration_of_tokens {fr : Frame} {p n}
    : (∀ i, .pending p n i ∈ fr.tokens → fr.registration = some (n, i, p))
      ∧ (.session n (.ended p) ∈ fr.tokens → fr.registration = some (n, HELPING, p)) := by
  have token (g : Prot) i
      : Token.pending p n i ≠ g.token ∧ Token.session n (.ended p) ≠ g.token := by
    rcases g.token_cases with eq | ⟨_, _, eq⟩ <;> rw [eq] <;> simp
  cases fr with
  | load c began loc pc =>
      cases pc <;> simp +contextual
        [tokens, LoadPc.tokens, registration, LoadPc.registration, token]
  | pay c q since loc pc => cases pc <;> simp [tokens, PayPc.tokens]
  | ret spec v => cases v <;> cases spec <;> simp [tokens, Ret.tokens, token]
  | into g _ pc => cases pc <;> simp [tokens, IntoPc.tokens, token]
  | cas _ _ _ _ pc => cases pc <;> simp [tokens, CasPc.tokens, token]
  | rcu _ _ pc => cases pc <;> simp [tokens, RcuPc.tokens, token]
  | cache _ _ pc => cases pc <;> simp [tokens, CachePc.tokens]
  | cellDrop _ pc => cases pc <;> simp [tokens, DropPc.tokens]
  | cellInto _ p => cases p <;> simp [tokens]
  | _ => simp [tokens, token]

/-- A load in progress that has registered the address in the slot. -/
def State.Loading (s : State) (n : NodeId) (i a : Nat) : Prop :=
  ∃ t < s.nThr, ∃ fr ∈ (s.thr t).stack, ∃ p, fr.registration = some (n, i, p) ∧ p.addr = a

theorem Registered.loading {s : State} {n i a} (registered : Registered s.tokens n i a)
    : s.Loading n i a := by
  obtain ⟨p, addr, held⟩ := registered
  have value {u : UserVal}
      : Token.pending p n i ≠ u.token ∧ Token.session n (.ended p) ≠ u.token := by
    rcases u.token_cases with eq | ⟨_, _, eq⟩ <;> rw [eq] <;> simp
  rcases held with held | ⟨rfl, held⟩
  · rcases State.mem_tokens held with ⟨t, member, fr, inside, there⟩ | ⟨_, _, u, _, eq⟩
    · exact ⟨t, member, fr, inside, p, Frame.registration_of_tokens.1 i there, addr⟩
    · exact absurd eq value.1
  · rcases State.mem_tokens held with ⟨t, member, fr, inside, there⟩ | ⟨_, _, u, _, eq⟩
    · exact ⟨t, member, fr, inside, p, Frame.registration_of_tokens.2 there, addr⟩
    · exact absurd eq value.2

-----------------------------------------------------------------------------------------
-- Counting handles and guards
-----------------------------------------------------------------------------------------

section counts

variable {s : State} {a : Nat} {o : Obj}

theorem State.tally_shares {β : Type} (weight : β → Nat) (S : Share (Multiset β))
    : tally weight (s.shares S)
      = s.shares ⟨fun fr => tally weight (S.frame fr), fun tls => tally weight (S.tls tls),
          fun u => tally weight (S.val u)⟩ := by
  have stack (l : List Frame)
      : tally weight (listed S.frame l) = listed (fun fr => tally weight (S.frame fr)) l := by
    induction l with
    | nil => rfl
    | cons fr rest ih => rw [listed_cons, tally_add, ih, listed_cons]
  rw [State.shares, tally_add, tally_total, tally_total]
  congr 1
  · refine Finset.sum_congr rfl fun t _ => ?_
    rw [Share.thread, tally_add, stack]
    rfl
  · refine Finset.sum_congr rfl fun v _ => ?_
    cases s.vals v <;> rfl

theorem State.shares_le {A B C : Share Nat} (frame : ∀ fr, A.frame fr + B.frame fr ≤ C.frame fr)
    (tls : ∀ tls, A.tls tls + B.tls tls ≤ C.tls tls)
    (val : ∀ u, A.val u + B.val u ≤ C.val u)
    : s.shares A + s.shares B ≤ s.shares C := by
  have stack (l : List Frame) : listed A.frame l + listed B.frame l ≤ listed C.frame l := by
    induction l with
    | nil => exact Nat.le_refl _
    | cons fr rest ih =>
        have here := frame fr
        simp only [listed_cons]
        omega
  have threads : total s.nThr A.thread s.thr + total s.nThr B.thread s.thr
    ≤ total s.nThr C.thread s.thr := by
    rw [total, total, total, ← Finset.sum_add_distrib]
    refine Finset.sum_le_sum fun t _ => ?_
    have own := tls (s.thr t).tls
    have below := stack (s.thr t).stack
    simp only [Share.thread]
    omega
  have vals : total s.nVals A.entry s.vals + total s.nVals B.entry s.vals
    ≤ total s.nVals C.entry s.vals := by
    rw [total, total, total, ← Finset.sum_add_distrib]
    refine Finset.sum_le_sum fun v _ => ?_
    cases s.vals v with
    | none => exact Nat.le_refl _
    | some u => exact val u
  simp only [State.shares]
  omega

/-- The slots of the address that loads in progress have registered. -/
def loadingShare (a : Nat) : Share (Multiset (NodeId × Nat)) where
  frame fr :=
    match fr.registration with
    | some (n, i, p) => if p.addr = a then {(n, i)} else 0
    | none => 0
  tls _ := 0
  val _ := 0

/-- The handles and guards of user code, and the guards of operations in progress. -/
def keeperShare (a : Nat) (o : Obj) : Share Nat where
  frame fr := fr.guards.countP fun g => g.ptr.Names a o
  tls _ := 0
  val u := if u.ptr.Names a o then 1 else 0

/-- How many handles and guards there are over the object at the address. -/
def State.keepers (s : State) (a : Nat) (o : Obj) : Nat :=
  s.shares (keeperShare a o)

theorem Ptr.names_le (p : Ptr) (a : Nat) (o : Obj)
    : (if p.Names a o then 1 else 0) ≤ if p.addr = a then 1 else 0 := by
  split
  · rw [if_pos ‹p.Names a o›.1]
  · exact Nat.zero_le _

theorem Prot.claims (g : Prot) (a : Nat) : g.token.claims a = if g.ptr.addr = a then 1 else 0 := by
  rcases g.token_cases with eq | ⟨_, _, eq⟩ <;> rw [eq] <;> rfl

theorem loadingShare_le {fr : Frame} {n i p} (eq : fr.registration = some (n, i, p)) (a : Nat)
    : tally (fun _ => 1) ((loadingShare a).frame fr) ≤ Token.claims a (.own p) := by
  simp only [loadingShare, eq, Token.claims]
  split <;> simp [tally]

theorem keeperShare_le {fr : Frame} {g : Prot} (eq : fr.guards = [g]) (a : Nat) (o : Obj)
    : (keeperShare a o).frame fr ≤ g.token.claims a := by
  have names := g.ptr.names_le a o
  simpa [keeperShare, eq, g.claims, List.countP_cons] using names

/-- Registrations and guards of a frame are claimed by different tokens of it. -/
theorem Frame.claims_ge (fr : Frame) (a : Nat) (o : Obj)
    : tally (fun _ => 1) ((loadingShare a).frame fr) + (keeperShare a o).frame fr
      ≤ tally (Token.claims a) fr.tokens := by
  have guard {g : Prot} (none : fr.registration = none) (eq : fr.guards = [g])
      (held : g.token ∈ fr.tokens)
      : tally (fun _ => 1) ((loadingShare a).frame fr) + (keeperShare a o).frame fr
        ≤ tally (Token.claims a) fr.tokens := by
    have loading : tally (fun _ => 1) ((loadingShare a).frame fr) = 0 := by
      simp [loadingShare, none]
    have keeps := keeperShare_le eq a o
    have claimed := le_tally (Token.claims a) held
    omega
  have loading {n i p k} (eq : fr.registration = some (n, i, p)) (none : fr.guards = [])
      (held : k ∈ fr.tokens) (claims : k.claims a = Token.claims a (.own p))
      : tally (fun _ => 1) ((loadingShare a).frame fr) + (keeperShare a o).frame fr
        ≤ tally (Token.claims a) fr.tokens := by
    have keeps : (keeperShare a o).frame fr = 0 := by simp [keeperShare, none]
    have registered := loadingShare_le eq a
    have claimed := le_tally (Token.claims a) held
    omega
  have idle (none : fr.registration = none) (noGuard : fr.guards = [])
      : tally (fun _ => 1) ((loadingShare a).frame fr) + (keeperShare a o).frame fr
        ≤ tally (Token.claims a) fr.tokens := by
    have keeps : (keeperShare a o).frame fr = 0 := by simp [keeperShare, noGuard]
    have registered : tally (fun _ => 1) ((loadingShare a).frame fr) = 0 := by
      simp [loadingShare, none]
    omega
  cases fr with
  | load c began loc pc =>
      cases pc with
      | recheck n p i | payBack n p i =>
          exact loading rfl rfl (k := .pending p n i) (by simp [tokens, LoadPc.tokens]) rfl
      | confirm n gen p =>
          exact loading rfl rfl (k := .pending p n HELPING) (by simp [tokens, LoadPc.tokens]) rfl
      | envelope n p | restore n p | unused n p =>
          exact loading rfl rfl (k := .pending p n HELPING) (by simp [tokens, LoadPc.tokens]) rfl
      | ownInc n p | ownPay n p =>
          exact loading rfl rfl (k := .debt p n HELPING) (by simp [tokens, LoadPc.tokens]) rfl
      | decWait | coolWait => exact guard rfl rfl (Multiset.mem_singleton_self _)
      | _ => exact idle rfl rfl
  | ret spec v =>
      cases v with
      | prot g => exact guard rfl rfl (by cases spec <;> exact Multiset.mem_singleton_self _)
      | _ => exact idle rfl rfl
  | guardDrop => exact guard rfl rfl (Multiset.mem_singleton_self _)
  | into g spec pc =>
      cases pc with
      | inc => exact guard rfl rfl (Multiset.mem_singleton_self _)
      | pay => exact guard rfl rfl (by simp [tokens, IntoPc.tokens])
      | decWait => exact idle rfl rfl
  | cas c op cur new pc =>
      cases pc with
      | exchange => exact guard rfl rfl (by simp [tokens, CasPc.tokens])
      | payWait | decWait | rejectWait => exact guard rfl rfl (Multiset.mem_singleton_self _)
      | _ => exact idle rfl rfl
  | rcu c op pc =>
      cases pc with
      | closureWait | casWait | intoWait | againWait =>
          exact guard rfl rfl (Multiset.mem_singleton_self _)
      | _ => exact idle rfl rfl
  | _ => exact idle rfl rfl

/-- Handles and guards have counts of their own when slots owe counts to loads only. -/
theorem LedgerInv.keepers_le (ledger : LedgerInv s.sh s.tokens) (real : a ≠ 0) (word : a ≠ NONE)
    (slots : ∀ n i, s.sh.slot n i = a → s.Loading n i a)
    : s.keepers a o ≤ s.sh.strong a := by
  have loads : s.sh.slotsAt a ≤ tally (fun _ => 1) (s.shares (loadingShare a)) := by
    have card : tally (fun _ => 1) (s.shares (loadingShare a))
      = Multiset.card (s.shares (loadingShare a)) := by
      simp [tally]
    rw [card, Shared.slotsAt, ← Finset.card_filter]
    apply Multiset.card_le_card
    rw [Finset.val_le_iff_val_subset]
    intro x inside
    obtain ⟨t, member, fr, there, p, eq, addr⟩ := slots x.1 x.2 (Finset.mem_filter.mp inside).2
    refine State.mem_shares_of_frame member there ?_
    simp [loadingShare, eq, addr]
  have claims
      : tally (fun _ => 1) (s.shares (loadingShare a)) + s.keepers a o
        ≤ tally (Token.claims a) s.tokens := by
    rw [State.tally_shares, State.tokens, State.tally_shares]
    refine State.shares_le (fun fr => fr.claims_ge a o) (fun tls => Nat.zero_le _) fun u => ?_
    have names := u.ptr.names_le a o
    rcases u.token_cases with eq | ⟨_, _, eq⟩ <;>
      simpa [loadingShare, keeperShare, tokenShare, eq, tally, Token.claims] using names
  have balanced := ledger.balanced a real word
  rw [Balanced] at balanced
  omega

end counts

/-- When a walk ends, and as long as the object that was taken out of the storage for it is not put
into a storage again, only loads in progress have slots with its address. Every handle and every
guard over it, wherever it is, has a count of its own.
-/
theorem guards_promoted {cfg n s t c p since}
    (reached : Reaches (step cfg) (Careful cfg) (State.init n) s) (member : t < s.nThr)
    (ended : .ret (.walked c p since) (.ptr p) ∈ (s.thr t).stack)
    : s.sh.Alive p
      ∧ ∀ s' o, Reaches (step cfg) (Careful cfg) s s'
        → s'.sh.OutSince since p → p.addr ≠ 0
        → s'.sh.heap p.addr = some o → o.id = p.prov
        → (∀ n i, s'.sh.slot n i = p.addr → s'.Loading n i p.addr)
          ∧ s'.keepers p.addr o ≤ o.strong := by
  have ok := txOk_of_reaches (fun _ _ => And.left) reached
  have held : .finished c p since ∈ s.tokens :=
    State.mem_shares_of_frame (S := tokenShare) member ended (Multiset.mem_singleton_self _)
  refine ⟨(ledger_of_reaches reached).alive ok.tx.cells.bound held rfl, ?_⟩
  intro s' o later out real there same
  have ledger := ledger_of_reaches (reached.trans later)
  have word : p.addr ≠ NONE := by
    intro eq
    rw [eq, ledger.word] at there
    cases there
  have slots (n i) (here : s'.sh.slot n i = p.addr) : s'.Loading n i p.addr := by
    have promotes := promotes_later reached held later ⟨real, o, there, same⟩ out n i here
    exact (promotes.resolve_right id).loading
  refine ⟨slots, ?_⟩
  have keepers := ledger.keepers_le (o := o) real word slots
  simpa [Shared.strong, there] using keepers

set_option maxRecDepth 4000 in
/-- A guard whose slot the writer has paid, at the end of the walk. -/
theorem guards_promoted_paid
    : ∃ s : State, s.vals 1 = some (.guard ⟨⟨16, 0, 1⟩, some (0, 0), some ⟨0, 2, 11⟩⟩)
        ∧ s.sh.heap 16 = some ⟨1, 0, 2⟩ ∧ s.keepers 16 ⟨1, 0, 2⟩ ≤ 2 := by
  let g : Prot := ⟨⟨16, 0, 1⟩, some (0, 0), some ⟨0, 2, 11⟩⟩
  let write : List Label :=
    [.call 1 (.null 0), .call 1 (.store 0 2)] ++ List.replicate 38 (.run 1 false)
  have ran
      : (runChecked (step ⟨64, true⟩) (careful ⟨64, true⟩)
          (State.init 2) (guardSchedule ++ write)).map
            (fun s =>
              ((s.vals 1, (s.thr 1).stack.head?), ([s.nThr, s.sh.lastOut 1, s.sh.nCells],
                s.sh.ptr 0, s.sh.heap 16)))
          = some
            ((some (.guard g), some (.ret (.walked 0 ⟨16, 0, 1⟩ 16) (.ptr ⟨16, 0, 1⟩))),
              ([2, 16, 1], ⟨0, 0, 0⟩, some ⟨1, 0, 2⟩)) := by
    decide +kernel
  obtain ⟨s, ran, eq⟩ := Option.map_eq_some_iff.mp ran
  simp only [Prod.mk.injEq, List.cons.injEq, and_true] at eq
  obtain ⟨⟨val, top⟩, ⟨threads, lastOut, nCells⟩, ptr, there⟩ := eq
  have reached := reaches_of_runChecked (fun _ _ => careful_sound) ran
  have ok := txOk_of_reaches (fun _ _ => And.left) reached
  have out : s.sh.OutSince 16 ⟨16, 0, 1⟩ := by
    refine ⟨lastOut, fun c live alike => ?_⟩
    have bound := ok.tx.cells.bound c (by simp [live])
    obtain rfl := Nat.lt_one_iff.mp (nCells ▸ bound)
    rw [ptr] at alike
    cases alike.addr
  have member : 1 < s.nThr := by omega
  have promoted := (guards_promoted reached member (List.mem_of_mem_head? top)).2 s _ .start out
    (by decide) there rfl
  exact ⟨s, val, there, promoted.2⟩

end ArcSwap
