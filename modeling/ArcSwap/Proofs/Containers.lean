import ArcSwap.Proofs.NodePool
import ArcSwap.Proofs.Protocol

/-! The storages of the protocol. A container is closed down by one owner, which waits for
the end of the one walk that is left; containers in use have different addresses.
-/

namespace ArcSwap

open Bags

/-- The weight of the tokens of a storage that is closed down. -/
def Token.closings (c : CellId) : Token → Nat
  | .closing d => if d = c then 1 else 0
  | _ => 0

def Token.closeds (c : CellId) : Token → Nat
  | .closed d => if d = c then 1 else 0
  | _ => 0

/-- The walks for a storage whose callers have not been told that they are over. -/
def Token.walks (c : CellId) : Token → Nat
  | .walk d _ _ _ | .finished d _ _ => if d = c then 1 else 0
  | _ => 0

/-- A storage is closed down by one owner, after the end of its one walk. -/
def CloseOk : CellStatus → Nat → Nat → Nat → Prop
  | .live, closings, closeds, _ => closings = 0 ∧ closeds = 0
  | .dropping, closings, closeds, walks => closings + closeds = 1 ∧ walks = closings
  | .gone, closings, closeds, walks => closings = 0 ∧ closeds = 0 ∧ walks = 0

structure CellInv (sh : Shared) (M : Tokens) : Prop where
  bound : ∀ c, sh.status c ≠ .gone → c < sh.nCells
  alone : ∀ c d, sh.status c ≠ .gone → sh.status d ≠ .gone
    → sh.cellAddr c = sh.cellAddr d → c = d
  close
    : ∀ c, CloseOk (sh.status c) (tally (Token.closings c) M) (tally (Token.closeds c) M)
        (tally (Token.walks c) M)

/-- No token of a storage that nobody needs has a weight that only its tokens have. -/
theorem Unused.weightless {c r} (unused : Unused c r) {weight : Token → Nat}
    (only : ∀ tok, weight tok ≠ 0 → tok.cell = some c)
    : tally weight r = 0 := by
  refine tally_eq_zero _ fun tok inside => ?_
  by_contra heavy
  exact unused tok inside (only tok heavy)

theorem Token.closings_cell {c : CellId} (tok : Token) (heavy : tok.closings c ≠ 0)
    : tok.cell = some c := by
  cases tok <;> simp_all [closings, cell]

theorem Token.closeds_cell {c : CellId} (tok : Token) (heavy : tok.closeds c ≠ 0)
    : tok.cell = some c := by
  cases tok <;> simp_all [closeds, cell]

theorem Token.walks_cell {c : CellId} (tok : Token) (heavy : tok.walks c ≠ 0)
    : tok.cell = some c := by
  cases tok <;> simp_all [walks, cell]

/-- A storage that is not live has one owner, and its walk belongs to that owner. -/
theorem CellInv.of_closing {sh r c} (inv : CellInv sh (.closing c ::ₘ r))
    : sh.status c = .dropping := by
  have close := inv.close c
  revert close
  cases sh.status c <;> simp [CloseOk, Token.closings]

theorem CellInv.of_closed {sh r c} (inv : CellInv sh (.closed c ::ₘ r))
    : sh.status c = .dropping := by
  have close := inv.close c
  revert close
  cases sh.status c <;> simp [CloseOk, Token.closeds]

theorem CellInv.of_walk {sh M c p since pos} (inv : CellInv sh M)
    (walk : .walk c p since pos ∈ M)
    : sh.status c ≠ .gone := by
  intro gone
  have close := inv.close c
  have heavy := le_tally (Token.walks c) walk
  rw [gone] at close
  simp only [CloseOk, Token.walks, ↓reduceIte] at close heavy
  omega

/-- The storages and what belongs to them are as before. -/
theorem CellInv.keep {sh sh' M M'} (inv : CellInv sh M) (status : sh'.status = sh.status)
    (cellAddr : sh'.cellAddr = sh.cellAddr) (nCells : sh'.nCells = sh.nCells)
    (closings : ∀ c, tally (Token.closings c) M' = tally (Token.closings c) M)
    (closeds : ∀ c, tally (Token.closeds c) M' = tally (Token.closeds c) M)
    (walks : ∀ c, tally (Token.walks c) M' = tally (Token.walks c) M)
    : CellInv sh' M' := by
  refine ⟨?_, ?_, fun c => ?_⟩
  · rw [status, nCells]
    exact inv.bound
  · rw [status, cellAddr]
    exact inv.alone
  · rw [status, closings, closeds, walks]
    exact inv.close c

attribute [local simp] Token.closings Token.closeds Token.walks

/-- One storage changes, the other ones and what belongs to them are as before. -/
theorem CellInv.change {sh sh' M M' c} (inv : CellInv sh M)
    (others : ∀ d, d ≠ c → sh'.status d = sh.status d ∧ sh'.cellAddr d = sh.cellAddr d)
    (nCells : sh.nCells ≤ sh'.nCells) (bound : c < sh'.nCells)
    (alone : sh'.status c ≠ .gone → ∀ d, d ≠ c → sh.status d ≠ .gone
      → sh.cellAddr d ≠ sh'.cellAddr c)
    (tokens
      : ∀ d, d ≠ c
          → tally (Token.closings d) M' = tally (Token.closings d) M
            ∧ tally (Token.closeds d) M' = tally (Token.closeds d) M
            ∧ tally (Token.walks d) M' = tally (Token.walks d) M)
    (close
      : CloseOk (sh'.status c) (tally (Token.closings c) M') (tally (Token.closeds c) M')
          (tally (Token.walks c) M'))
    : CellInv sh' M' := by
  refine ⟨fun d there => ?_, fun d e there there' same => ?_, fun d => ?_⟩
  · by_cases eq : d = c
    · exact eq ▸ bound
    · rw [(others d eq).1] at there
      exact Nat.lt_of_lt_of_le (inv.bound d there) nCells
  · by_cases eq : d = c
    · subst eq
      by_contra other
      have other := Ne.symm other
      rw [(others e other).1] at there'
      rw [(others e other).2] at same
      exact alone there e other there' same.symm
    · rw [(others d eq).1] at there
      rw [(others d eq).2] at same
      by_cases eq' : e = c
      · subst eq'
        exact absurd same (alone there' d eq there)
      · rw [(others e eq').1] at there'
        rw [(others e eq').2] at same
        exact inv.alone d e there there' same
  · by_cases eq : d = c
    · exact eq ▸ close
    · obtain ⟨closings, closeds, walks⟩ := tokens d eq
      rw [(others d eq).1, closings, closeds, walks]
      exact inv.close d

/-- A live storage that nobody needs has no tokens. -/
theorem Unused.close {c r} (unused : Unused c r)
    : tally (Token.closings c) r = 0 ∧ tally (Token.closeds c) r = 0
      ∧ tally (Token.walks c) r = 0 :=
  ⟨unused.weightless Token.closings_cell, unused.weightless Token.closeds_cell,
    unused.weightless Token.walks_cell⟩

/-- A step keeps the storages in order. -/
theorem ProtoStep.cells {sh r old act new} (step : ProtoStep sh r old act new)
    (inv : CellInv sh old)
    : CellInv (act.exec sh) new := by
  have ⟨bound, alone, close⟩ := inv
  cases step with
  | quiet quiet => cases act <;> first | exact ⟨bound, alone, close⟩ | cases quiet
  | inc => unfold incAct; split <;> exact inv.keep rfl rfl rfl (by simp) (by simp) (by simp)
  | @newCell p a useFast free =>
      have next : sh.status sh.nCells = .gone := by
        by_contra there
        exact absurd (bound _ there) (Nat.lt_irrefl _)
      refine inv.change (c := sh.nCells) (fun d other => ?_) (Nat.le_succ _)
        (Nat.lt_succ_self _) (fun _ d other there => ?_) (by simp) ?_
      · simp [Act.exec, other]
      · simpa [Act.exec] using free d there
      · have close := close sh.nCells
        rw [next] at close
        simp [CloseOk, Act.exec] at close ⊢
        omega
  | @moveCell c a live unused free =>
      refine inv.change (c := c) (fun d other => ?_) (Nat.le_refl _) (bound c (by simp [live]))
        (fun _ d other there => ?_) (by simp) ?_
      · simp [Act.exec, other]
      · simpa [Act.exec] using free d there
      · simpa [Act.exec] using close c
  | @closeCell c a live unused free =>
      refine inv.change (c := c) (fun d other => ?_) (Nat.le_refl _) (bound c (by simp [live]))
        (fun _ d other there => ?_) (fun d other => by simp [Ne.symm other]) ?_
      · simp [Act.exec, other]
      · rcases free with rfl | free
        · simp only [Act.exec, Function.update_self]
          exact fun same => other (alone d c there (by simp [live]) same)
        · simpa [Act.exec] using free d there
      · obtain ⟨closings, closeds, walks⟩ := Unused.close unused
        simp [Act.exec, CloseOk, closings, closeds, walks]
  | @freeCell c =>
      have dropping := inv.of_closed
      have close := close c
      refine inv.change (c := c) (fun d other => ?_) (Nat.le_refl _)
        (bound c (by simp [dropping])) (fun there => ?_)
        (fun d other => by simp [Ne.symm other]) ?_
      · simp [Act.exec, other]
      · simp [Act.exec] at there
      · rw [dropping] at close
        simp [CloseOk, Act.exec] at close ⊢
        omega
  | @write c op new p live =>
      refine inv.change (c := c) (fun d other => ⟨rfl, rfl⟩) (Nat.le_refl _)
        (bound c (by simp [live])) (fun _ d other there same => ?_)
        (fun d other => by simp [Ne.symm other]) ?_
      · exact other (alone d c there (by simp [live]) same)
      · have close := close c
        simp only [Act.exec]
        rw [live] at close ⊢
        simpa [CloseOk] using close
  | @told c p since live =>
      refine inv.change (c := c) (fun d other => ⟨rfl, rfl⟩) (Nat.le_refl _)
        (bound c (by simp [live])) (fun _ d other there same => ?_)
        (fun d other => by simp [Ne.symm other]) ?_
      · exact other (alone d c there (by simp [live]) same)
      · have close := close c
        simp only [Act.exec]
        rw [live] at close ⊢
        simpa [CloseOk] using close
  | @toldClosing c p since =>
      have dropping : sh.status c = .dropping := by
        rw [Multiset.cons_swap] at inv
        exact inv.of_closing
      refine inv.change (c := c) (fun d other => ⟨rfl, rfl⟩) (Nat.le_refl _)
        (bound c (by simp [dropping])) (fun _ d other there same => ?_)
        (fun d other => by simp [Ne.symm other]) ?_
      · exact other (alone d c there (by simp [dropping]) same)
      · have close := close c
        simp only [Act.exec]
        rw [dropping] at close ⊢
        simp [CloseOk] at close ⊢
        omega
  | _ => exact inv.keep rfl rfl rfl (by simp) (by simp) (by simp)

/-- A live storage stays where it is as long as somebody needs it. -/
theorem ProtoStep.live {sh r old act new tok c} (step : ProtoStep sh r old act new)
    (inv : CellInv sh old) (inside : tok ∈ r) (needs : tok.cell = some c)
    (live : sh.status c = .live)
    : (act.exec sh).status c = .live ∧ (act.exec sh).cellAddr c = sh.cellAddr c := by
  cases step with
  | quiet quiet => cases act <;> first | exact ⟨live, rfl⟩ | cases quiet
  | inc => unfold incAct; split <;> exact ⟨live, rfl⟩
  | newCell =>
      have bound := inv.bound c (by simp [live])
      simp [Act.exec, Nat.ne_of_lt bound, live]
  | @moveCell d a _ unused =>
      have other : c ≠ d := fun eq => unused tok inside (eq ▸ needs)
      simp [Act.exec, other, live]
  | @closeCell d a _ unused =>
      have other : c ≠ d := fun eq => unused tok inside (eq ▸ needs)
      simp [Act.exec, other, live]
  | @freeCell d =>
      have other : c ≠ d := by
        rintro rfl
        rw [inv.of_closed] at live
        cases live
      simp [Act.exec, other, live]
  | _ => exact ⟨live, rfl⟩

end ArcSwap
