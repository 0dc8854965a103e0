import Vxldollar.Runs

/-!
# Conservation of the supply

The balances and the pending amounts of a reachable ledger add up to the
genesis amount. The balance arithmetic of the handlers and of the visitors is
listed as data, so that its exactness can be stated; its results are the amounts
and the balances that the ledger has for the blocks.
-/

namespace Vxldollar.Conservation
open Blocks Store Vxldollar.Lattice Chains Mirror Growth Totals Process ProcessSpec Commits
  Retractions Runs BitVec List

inductive BalanceOp where
  | add (a b : Amount)
  | sub (a b : Amount)

def BalanceOp.Exact : BalanceOp → Prop
  | .add a b => a.toNat+b.toNat < 2^128
  | .sub a b => b.toNat ≤ a.toNat

/-- The ledger has the result for a block: a sum is its balance, a difference its amount. -/
def BalanceOp.Gives (L : Ledger) (hash : BlockHash) : BalanceOp → Prop
  | .add a b => L.balance hash = some (a+b)
  | .sub a b => L.amount hash = some (a-b)

def differenceOp (a b : Amount) : BalanceOp := if a > b then .sub a b else .sub b a

/-- The balance arithmetic of `process` on a block that got past the checks
before it. -/
def processOps (L : Ledger) (b : Block) : List BalanceOp := match b.hashables with
  | .send h =>
    let info := L.accounts[L.frontierGet h.previous]?.getD {}
    if info.balance < h.balance then [] else [.sub info.balance h.balance]
  | .receive h =>
    let account := L.frontierGet h.previous
    let info := L.accounts[account]?.getD {}
    match L.pending[(⟨account,h.source⟩ : PendingKey)]? with
    | some pending => [.add info.balance pending.amount]
    | none => []
  | .state h => match L.accounts[h.account]? with
    | some info => if h.balance < info.balance then [.sub info.balance h.balance]
      else [.sub h.balance info.balance]
    | none => []
  | _ => []

/-- The balance arithmetic of the rollback visitor on a stored block. -/
def rollbackOps (C : Constants) (L : Ledger) (r : StoredBlock) : List BalanceOp :=
  let previous := (L.balance r.block.previous).getD 0
  match r.block.hashables with
  | .receive _ | .open_ _ => [differenceOp ((L.balance (C.blockHash r.block)).getD 0) previous]
  | .state h => if h.balance < previous then [] else [.sub h.balance previous]
  | _ => []

theorem differenceOp_exact (a b : Amount) : (differenceOp a b).Exact := by
  unfold differenceOp
  split_ifs with h
  · exact (lt_def.mp h).le
  · exact le_def.mp (BitVec.not_lt.mp h)

theorem rollbackOps_exact (C : Constants) (L : Ledger) (r : StoredBlock) :
    ∀ op ∈ rollbackOps C L r, op.Exact := by
  unfold rollbackOps
  dsimp only
  split
  · simpa using differenceOp_exact _ _
  · simpa using differenceOp_exact _ _
  · split_ifs with hlt
    · simp
    · simpa [BalanceOp.Exact] using le_def.mp (BitVec.not_lt.mp hlt)
  · simp

variable {L : Ledger}

theorem sum_fits (hs : supply L = 2^128-1) {a : Account} {k : PendingKey} {pending : PendingInfo}
    (hp : L.pending[k]? = some pending) :
    (L.accounts[a]?.getD {}).balance.toNat+pending.amount.toNat < 2^128 := by
  have h2 := Table.le_total (fun _ (i : PendingInfo) => i.amount.toNat) L.pending k pending hp
  have h1 : (L.accounts[a]?.getD {}).balance.toNat ≤
      Table.total (fun _ i => i.balance.toNat) L.accounts := by
    cases ha : L.accounts[a]? with
    | none => exact Nat.zero_le _
    | some i => exact Table.le_total (fun _ (i : AccountInfo) => i.balance.toNat) _ a i ha
  unfold supply at hs
  have h3 : pending.amount.toNat ≤ Table.total (fun _ i => i.amount.toNat) L.pending := h2
  have : (2:ℕ)^128-1 < 2^128 := by decide
  omega

theorem processOps_exact (hs : supply L = 2^128-1) (b : Block) :
    ∀ op ∈ processOps L b, op.Exact := by
  unfold processOps
  cases b.hashables with
  | send h =>
    dsimp only
    split_ifs with hlt
    · simp
    · simpa [BalanceOp.Exact] using le_def.mp (BitVec.not_lt.mp hlt)
  | receive h =>
    dsimp only
    cases hp : L.pending[(⟨L.frontierGet h.previous,h.source⟩ : PendingKey)]? with
    | none => simp
    | some pending => simpa [BalanceOp.Exact] using sum_fits hs hp
  | state h =>
    dsimp only
    cases L.accounts[h.account]? with
    | none => simp
    | some info =>
      dsimp only
      split_ifs with hlt
      · simpa [BalanceOp.Exact] using (lt_def.mp hlt).le
      · simpa [BalanceOp.Exact] using le_def.mp (BitVec.not_lt.mp hlt)
  | _ => simp

theorem differenceOp_le {x y : Amount} (h : x ≤ y) : differenceOp x y = .sub y x :=
  if_neg (BitVec.not_lt.mpr h)

theorem differenceOp_ge {x y : Amount} (h : y ≤ x) : differenceOp x y = .sub x y := by
  unfold differenceOp
  split_ifs with hlt
  · rfl
  · rw [BitVec.le_antisymm h (BitVec.not_lt.mp hlt)]

section
variable {C : Constants} {U : Set Hashables} {S : HashSound C U} {X : Nodes} {hash : BlockHash}
  {n : Node}

theorem differenceOp_gives {x y : Amount} (h : L.amount hash = some (difference x y)) :
    (differenceOp x y).Gives L hash := by
  unfold differenceOp
  unfold difference at h
  split_ifs at h ⊢ <;> exact h

variable (V : Valid S L X)
include V

/-- What `process` computed for an accepted block is what the ledger has for it. -/
theorem processOps_gives {b : Block} {verified : SignatureVerification} {result : ProcessReturn}
    {now : ℕ} {L' : Ledger} (hU : b.hashables ∈ U) (hh : Honest C L b verified)
    (ho : EpochOpens C L b) (hp : process C now L b verified = some (result,L'))
    (hc : result.code = .progress) : ∀ op ∈ processOps L b, op.Gives L' (C.blockHash b) := by
  obtain ⟨-,hk,ha,-,V'⟩ := (V.processed hU hh ho hp).resolve_left fun h => h.1 hc
  have hamount := reads_amount V'.mirrors V.built ha hk
  rw [justified_amount ha.toJustified,justified_balance ha.toJustified] at hamount
  obtain ⟨hs,sig,work⟩ := b
  intro op hop
  cases hs with
  | send h =>
    obtain ⟨p,t,hf,-,H⟩ := admits_legacyHead V.mirrors V.built ha nofun nofun
    have hf : L.frontierGet h.previous = p.account := hf
    rw [H.head.1] at hamount
    simp only [processOps,hf,H.info] at hop
    split_ifs at hop with hlt
    · cases hop
    · rw [mem_singleton.mp hop]
      exact differenceOp_le (BitVec.not_lt.mp hlt) ▸ differenceOp_gives hamount
  | receive h =>
    obtain ⟨p,t,hf,-,H⟩ := admits_legacyHead V.mirrors V.built ha nofun nofun
    have hf : L.frontierGet h.previous = p.account := hf
    simp only [processOps,hf,H.info] at hop
    split at hop
    · rename_i pending hpending
      obtain ⟨m,hu,rfl⟩ := (V.mirrors.pending _ _).mp hpending
      rw [mem_singleton.mp hop]
      refine (V'.mirrors.balance V'.built (added_head V.built ha hk).1).trans ?_
      rw [nodeFor_receive H.head.1 hu.1]
      rfl
    · cases hop
  | state h =>
    obtain ⟨-,-,hi⟩ | ⟨-,p,t,hX,-,-,hi⟩ := prior_info V.mirrors V.built ha
    all_goals
      have hi : L.accounts[h.account]? = _ := hi
      simp only [processOps,hi] at hop
    · cases hop
    · rw [hX] at hamount
      split_ifs at hop with hlt
      · rw [mem_singleton.mp hop]
        exact differenceOp_le (BitVec.le_of_lt hlt) ▸ differenceOp_gives hamount
      · rw [mem_singleton.mp hop]
        exact differenceOp_ge (BitVec.not_lt.mp hlt) ▸ differenceOp_gives hamount
  | _ => cases hop

/-- What the visitor computes for a block is what the ledger has for it. -/
theorem rollbackOps_gives {r : StoredBlock} (hr : L.blocks[hash]? = some r)
    (hg : hash ≠ C.genesisHash) : ∀ op ∈ rollbackOps C L r, op.Gives L hash := by
  obtain ⟨n,hX,hs⟩ := V.mirrors.block _ _ hr
  have hj := (built_justified V.built hX).resolve_left fun h => hg h.1
  have hgives := V.mirrors.amount V.built hX hj
  rw [justified_amount hj] at hgives
  replace hgives := differenceOp_gives hgives
  intro op hop
  simp only [rollbackOps,hs.previous,V.mirrors.previousBalance V.built hj,
    stored_hash V.mirrors V.built hr,V.mirrors.balance V.built hX,Option.getD_some] at hop
  split at hop
  · rwa [mem_singleton.mp hop]
  · rwa [mem_singleton.mp hop]
  · rename_i h hh
    rw [justified_balance hj,← hs.hashables,hh] at hgives
    split_ifs at hop with hlt
    · cases hop
    · rw [mem_singleton.mp hop]
      exact differenceOp_ge (BitVec.not_lt.mp hlt) ▸ hgives
  · cases hop

end

/-- In every reachable ledger the account balances and the pending amounts add
up to the genesis amount, and the balance arithmetic of the next `process` or
of any visitor is exact. -/
theorem supply_conserved {C : Constants} {U : Set Hashables} (S : HashSound C U) {L : Ledger}
    (hr : Reachable C U L) :
    supply L = 2^128-1 ∧ (∀ b, ∀ op ∈ processOps L b, op.Exact) ∧
      ∀ r, ∀ op ∈ rollbackOps C L r, op.Exact := by
  obtain ⟨X,V⟩ := reachable_valid S hr
  exact ⟨V.supply,processOps_exact V.supply,rollbackOps_exact C L⟩

theorem supply_conserved_sample : Reachable sample sampleBlocks sampleOpened ∧
    sampleOpened.cache.blockCount = 3 ∧ supply sampleOpened = 2^128-1 ∧
    (∀ b, ∀ op ∈ processOps sampleOpened b, op.Exact) ∧
    ∀ r, ∀ op ∈ rollbackOps sample sampleOpened r, op.Exact :=
  ⟨sampleOpened_reachable,by decide +kernel,supply_conserved sample_sound sampleOpened_reachable⟩

end Vxldollar.Conservation
