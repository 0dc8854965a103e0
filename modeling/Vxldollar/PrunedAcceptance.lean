import Vxldollar.Truncation
import Vxldollar.Acceptance
import Vxldollar.Voting

/-!
# Acceptance does not depend on what was pruned

A handler reads the predecessor of a block, the head of its account and the
pending entry of its source; of the source block itself only whether it was ever
there. A predecessor that is gone is not the head of its chain, so that both
ledgers refuse a block on top of it, for different reasons. Otherwise the
handlers take the same branches.
-/

namespace Vxldollar.PrunedAcceptance
open Blocks Store Vxldollar.Lattice Chains Process ProcessSpec Confirmation Runs Pruning Truncation
  Simulation Option Std.ExtTreeMap

variable {C : Constants} {loose : Prop} {gone : BlockHash → Prop} {L P : Ledger} {b : Block}
  {now : ℕ} {verified : SignatureVerification}

structure Intact (gone : BlockHash → Prop) (L : Ledger) : Prop where
  heads : ∀ (a : Account) (i : AccountInfo), L.accounts[a]? = some i → ¬ gone i.head
  frontiers : ∀ (h : BlockHash) (a : Account), L.frontiers[h]? = some a → ¬ gone h
  zero : ¬ gone 0

theorem Intact.truncated (I : Intact gone L) (T : Truncates loose gone L P) : Intact gone P where
  heads a i hi := I.heads a i (T.accounts ▸ hi)
  frontiers h a ha := I.frontiers h a (T.frontiers ▸ ha)
  zero := I.zero

/-- Both make progress or neither does, and the ledgers stay related. -/
def SameOutcome (loose : Prop) (gone : BlockHash → Prop) (x y : ProcessReturn × Ledger) : Prop :=
  (y.1.code = .progress ↔ x.1.code = .progress) ∧ Truncates loose gone x.2 y.2

section
variable {code code' : ProcessResult} {v v' : SignatureVerification} {pb pb' : Option Amount}
  {x y : Outcome}

theorem reject_follows (T : Truncates loose gone L P) (hc : code ≠ .progress := by decide)
    (hc' : code' ≠ .progress := by decide) :
    Follows (SameOutcome loose gone) (reject L code v pb) (reject P code' v' pb') :=
  .pure ⟨⟨fun e => absurd e hc',fun e => absurd e hc⟩,T⟩

theorem accept_follows {x y : Option Ledger} (h : Follows (Truncates loose gone) x y)
    (balance : Amount) :
    Follows (SameOutcome loose gone) (accept x v balance) (accept y v balance) := by
  apply h.map
  exact fun _ _ _ T => ⟨Iff.rfl,T⟩

theorem guard_follows {c d : Prop} [Decidable c] [Decidable d] (hcd : c ↔ d)
    (T : Truncates loose gone L P) (h : ¬ c → Follows (SameOutcome loose gone) x y)
    (hc : code ≠ .progress := by decide) :
    Follows (SameOutcome loose gone) (if c then reject L code v pb else x)
      (if d then reject P code v' pb' else y) :=
  Follows.ite hcd (fun _ => reject_follows T hc hc) h

theorem same_guard {c : Prop} [Decidable c] (T : Truncates loose gone L P)
    (h : ¬ c → Follows (SameOutcome loose gone) x y) (hc : code ≠ .progress := by decide) :
    Follows (SameOutcome loose gone) (if c then reject L code v pb else x)
      (if c then reject P code v' pb' else y) := guard_follows .rfl T h hc

def Refuses (L : Ledger) (x : Outcome) : Prop :=
  ∃ code v pb, code ≠ .progress ∧ x = reject L code v pb

theorem Refuses.follows (hx : Refuses L x) (hy : Refuses P y) (T : Truncates loose gone L P) :
    Follows (SameOutcome loose gone) x y := by
  obtain ⟨_,_,_,hc,rfl⟩ := hx
  obtain ⟨_,_,_,hc',rfl⟩ := hy
  exact reject_follows T hc hc'

theorem refuses_reject (hc : code ≠ .progress := by decide) : Refuses L (reject L code v pb) :=
  ⟨_,_,_,hc,rfl⟩

theorem refuses_guard {c : Prop} [Decidable c] (h : ¬ c → Refuses L x)
    (hc : code ≠ .progress := by decide) : Refuses L (if c then reject L code v pb else x) := by
  by_cases e : c
  · rw [if_pos e]
    exact refuses_reject hc
  · rw [if_neg e]
    exact h e

end

theorem new_guard (T : Truncates loose gone L P) {hash : BlockHash} {x y : Outcome}
    (h : ¬ gone hash → Follows (SameOutcome loose gone) x y) : Follows (SameOutcome loose gone)
      (if L.blockOrPrunedExists hash then reject L .old verified none else x)
      (if P.blockOrPrunedExists hash then reject P .old verified none else y) := by
  refine guard_follows (by rw [exists_eq T]) T fun hnew => h fun hg => hnew ?_
  rw [Ledger.blockOrPrunedExists,(T.removed hash hg).2,Bool.or_true]

section
variable {h : StateHashables} {info : AccountInfo}

section
variable (T : Truncates loose gone L P)
include T

theorem stateSource_eq (isSend : Bool) (amount : Amount) (epoch : Epoch) :
    stateSource P h isSend amount epoch = stateSource L h isSend amount epoch := by
  unfold stateSource
  rw [exists_eq T]
  rcases T.pending ⟨h.account,h.link⟩ with e | ⟨-,-,i,source,hi,hj⟩
  · rw [e]
  · rw [hi,hj]

theorem dropFrontier_follows (head : BlockHash) :
    Follows (Truncates loose gone) (dropFrontier L head) (dropFrontier P head) := by
  unfold dropFrontier
  rw [frontierGet_eq T]
  exact Follows.ite Iff.rfl (fun _ => frontierDel_follows T) (fun _ => .pure T)

theorem statePending_follows (hash : BlockHash) (details : BlockDetails) (amount : Amount) :
    Follows (Truncates loose gone)
      (statePending L h hash details amount) (statePending P h hash details amount) := by
  unfold statePending
  apply Follows.ite Iff.rfl
  · exact fun _ => .pure (pendingPut_truncates T _ (samePending_refl _ _))
  · intro _
    exact Follows.ite Iff.rfl (fun _ => pendingDel_follows T _) (fun _ => .pure T)

end

section
variable (T : Truncates loose gone L P) (hb : b.hashables = .state h) (hg : ¬ gone (C.blockHash b))
  (hp : h.previous ≠ 0 → ¬ gone h.previous)
include T hb hg hp

theorem stateCommit_follows (details : BlockDetails) (sourceEpoch : Epoch) (amount : Amount) :
    Follows (Truncates loose gone) (stateCommit C now L b h info details sourceEpoch amount)
      (stateCommit C now P b h info details sourceEpoch amount) := by
  have hprev : Ledger.hasPredecessor b = true → ¬ gone b.previous := by
    unfold Ledger.hasPredecessor Block.type Block.previous
    rw [hb]
    exact fun h0 => hp (of_decide_eq_true h0)
  apply (blockPut_follows T hg hprev).bind
  intro L₁ P₁ _ _ T₁
  have T₂ : Truncates loose gone
      (if info.head ≠ 0 then
        L₁.weightAddDual info.representative (0-info.balance) h.representative h.balance
      else L₁.weightAdd h.representative h.balance)
      (if info.head ≠ 0 then
        P₁.weightAddDual info.representative (0-info.balance) h.representative h.balance
      else P₁.weightAdd h.representative h.balance) := by
    split
    · exact weightAddDual_truncates T₁ _ _ _
    · exact weightAdd_truncates T₁ _
  refine (statePending_follows T₂ _ _ _).step fun T₃ => ?_
  refine (updateAccount_follows T₃ _ _).step fun T₄ => ?_
  exact dropFrontier_follows T₄ _

theorem stateTransfer_follows (isSend isReceive : Bool) (amount : Amount) :
    Follows (SameOutcome loose gone) (stateTransfer C now L b h info isSend isReceive amount)
      (stateTransfer C now P b h info isSend isReceive amount) := by
  unfold stateTransfer
  rw [stateSource_eq T]
  cases hs : stateSource L h isSend amount info.epoch with
  | error code => exact reject_follows T (stateSource_error hs) (stateSource_error hs)
  | ok e =>
    refine same_guard T fun _ => ?_
    exact accept_follows (stateCommit_follows T hb hg hp _ _ _) _

end

theorem stateBlockImpl_refuses (I : Intact gone L) (hg : gone h.previous) :
    Refuses L (stateBlockImpl C now L b h verified) := by
  have h0 : h.previous ≠ 0 := fun e => I.zero (e ▸ hg)
  refine refuses_guard fun _ => refuses_guard fun _ => refuses_guard fun _ => ?_
  cases hi : L.accounts[h.account]? with
  | some info =>
    have hhead : h.previous ≠ info.head := fun e => I.heads _ _ hi (e ▸ hg)
    dsimp only
    rw [if_pos hhead]
    refine refuses_guard fun _ => ?_
    exact refuses_guard (fun _ => refuses_reject)
  | none =>
    dsimp only
    rw [if_pos h0]
    exact refuses_reject

theorem stateBlockImpl_follows (T : Truncates loose gone L P) (hb : b.hashables = .state h)
    (hg : ¬ gone h.previous) : Follows (SameOutcome loose gone)
      (stateBlockImpl C now L b h verified) (stateBlockImpl C now P b h verified) := by
  unfold stateBlockImpl
  refine new_guard T fun hnew => ?_
  iterate 2 refine same_guard T fun _ => ?_
  rw [T.accounts]
  cases L.accounts[h.account]? with
  | some info =>
    refine same_guard T fun _ => guard_follows (by rw [contains_eq T hg]) T fun _ =>
      same_guard T fun _ => ?_
    exact stateTransfer_follows T hb hnew (fun _ => hg) _ _ _
  | none =>
    iterate 2 refine same_guard T fun _ => ?_
    exact stateTransfer_follows T hb hnew (fun _ => hg) _ _ _

theorem pendingAny_eq (T : Truncates loose gone L P) (a : Account) :
    P.pendingAny a = L.pendingAny a := by
  rw [Bool.eq_iff_iff,Acceptance.pendingAny_iff,Acceptance.pendingAny_iff]
  apply exists_congr
  intro g
  rcases T.pending ⟨a,g⟩ with e | ⟨-,-,i,source,hi,hj⟩
  · rw [e]
  · rw [hi,hj]
    exact ⟨fun _ => ⟨_,rfl⟩,fun _ => ⟨_,rfl⟩⟩

theorem predecessor_stays (hs : Hashables) (hb : b.hashables = hs) (hp : ¬ gone hs.previous) :
    Ledger.hasPredecessor b = true → ¬ gone b.previous := by
  rw [Block.previous,hb]
  exact fun _ => hp

structure Agree (L P : Ledger) : Prop where
  accounts : P.accounts = L.accounts
  pending : ∀ k : PendingKey, P.pending[k]? = L.pending[k]?
  frontiers : P.frontiers = L.frontiers
  confirmationHeight : P.confirmationHeight = L.confirmationHeight
  repWeights : P.cache.repWeights = L.cache.repWeights

theorem agree_of_truncates (T : Truncates False gone L P) : Agree L P where
  accounts := T.accounts
  pending k := (T.pending k).resolve_right (fun h => h.1)
  frontiers := T.frontiers
  confirmationHeight := T.confirmationHeight
  repWeights := by rw [T.cache]

section
variable (T : Truncates loose gone L P) (hb : b.hashables = .state h)
include T hb

section
variable (hg : ¬ gone (C.blockHash b)) (hp : ¬ gone h.previous)
include hg hp

theorem epochCommit_follows (details : BlockDetails) :
    Follows (Truncates loose gone) (epochCommit C now L b h info details)
      (epochCommit C now P b h info details) := by
  refine (blockPut_follows T hg (predecessor_stays (.state h) hb hp)).step fun T₁ => ?_
  refine (updateAccount_follows T₁ _ _).step fun T₂ => ?_
  exact dropFrontier_follows T₂ _

theorem epochUpgrade_follows (account : Option AccountInfo) (epoch : Epoch) :
    Follows (SameOutcome loose gone)
      (epochUpgrade C now L b h account epoch) (epochUpgrade C now P b h account epoch) := by
  unfold epochUpgrade
  iterate 3 refine same_guard T fun _ => ?_
  exact accept_follows (epochCommit_follows T hb hg hp _) _

end

theorem epochBlockImpl_follows (hp : ¬ gone h.previous) : Follows (SameOutcome loose gone)
      (epochBlockImpl C now L b h verified) (epochBlockImpl C now P b h verified) := by
  unfold epochBlockImpl
  refine new_guard T fun hnew => ?_
  refine Follows.read rfl fun signer _ => ?_
  iterate 2 refine same_guard T fun _ => ?_
  refine .read rfl fun epoch _ => ?_
  rw [T.accounts,pendingAny_eq T]
  cases L.accounts[h.account]? with
  | some info =>
    iterate 3 refine same_guard T fun _ => ?_
    exact epochUpgrade_follows T hb hnew hp _ _
  | none =>
    iterate 2 refine same_guard T fun _ => ?_
    exact epochUpgrade_follows T hb hnew hp _ _

end

section
variable (I : Intact gone L) (hb : b.hashables = .state h)
include I hb

theorem epochBlockImpl_refuses (he : C.isEpochLink h.link = true) (hh : Honest C L b verified)
    (ho : EpochOpens C L b) (hg : gone h.previous) :
    Refuses L (epochBlockImpl C now L b h verified) := by
  have h0 : h.previous ≠ 0 := fun e => I.zero (e ▸ hg)
  have hlink : b.link = h.link := by rw [Block.link,hb]; rfl
  have haccount : b.account = h.account := by rw [Block.account,hb]; rfl
  obtain ⟨-,signer,epoch,hs,hep⟩ := epoch_links h.link he
  unfold epochBlockImpl
  refine refuses_guard fun _ => ?_
  rw [hs,bind_eq_bind,bind_some]
  refine refuses_guard fun hsig => ?_
  have hsigned : EpochSigned C b := by
    by_cases hv : verified = .validEpoch
    · exact hh.2 hv
    · refine ⟨signer,by rw [hlink,hs],?_⟩
      simpa [badSignature,hv] using hsig
  refine refuses_guard fun _ => ?_
  rw [hep,bind_eq_bind,bind_some]
  cases hi : L.accounts[h.account]? with
  | some info =>
    have hhead : h.previous ≠ info.head := fun e => I.heads _ _ hi (e ▸ hg)
    refine refuses_guard fun _ => ?_
    rw [if_pos hhead]
    exact refuses_reject
  | none =>
    have hprevious : b.previous = h.previous := by rw [Block.previous,hb]; rfl
    refine absurd (ho hsigned ?_) (hprevious ▸ h0)
    rw [haccount,hi]

theorem stateBlock_refuses (hh : Honest C L b verified) (ho : EpochOpens C L b)
    (hg : gone h.previous) (hL : L.blocks.contains h.previous = true) :
    Refuses L (stateBlock C now L b h verified) := by
  have h0 : h.previous ≠ 0 := fun e => I.zero (e ▸ hg)
  unfold stateBlock
  by_cases he : C.isEpochLink h.link = true
  · rw [contains_eq_isSome_getElem?] at hL
    obtain ⟨r,hr⟩ := isSome_iff_exists.mp hL
    have hbalance : L.balance h.previous = some r.balanceCalculated := by
      rw [Ledger.balance,if_neg h0,hr,map_some]
    have hmiss : ¬ (h.previous ≠ 0 ∧ ¬ L.blocks.contains h.previous = true) := by
      rw [contains_eq_isSome_getElem?]
      exact fun hm => hm.2 hL
    rw [if_pos he,if_neg hmiss,hbalance,bind_eq_bind,bind_some]
    split
    · exact epochBlockImpl_refuses I hb he hh ho hg
    · exact stateBlockImpl_refuses I hg
  · rw [if_neg he]
    exact stateBlockImpl_refuses I hg

end

theorem stateBlock_follows (T : Truncates loose gone L P) (I : Intact gone L)
    (hb : b.hashables = .state h) (hh : Honest C L b verified) (ho : EpochOpens C L b) :
    Follows (SameOutcome loose gone) (stateBlock C now L b h verified)
      (stateBlock C now P b h verified) := by
  by_cases hg : gone h.previous
  · -- the pruned ledger misses the predecessor, the full one finds it off the head
    obtain ⟨hP,hL⟩ := T.removed _ hg
    have h0 : h.previous ≠ 0 := fun e => I.zero (e ▸ hg)
    refine Refuses.follows ?_ ?_ T
    · exact stateBlock_refuses I hb hh ho hg hL
    · by_cases he : C.isEpochLink h.link = true
      · obtain ⟨code,v,hgap,hc⟩ := gapEpochBlock_code b verified he
        have hmiss : h.previous ≠ 0 ∧ ¬ P.blocks.contains h.previous = true := by
          rw [contains_eq_isSome_getElem?,hP]
          exact ⟨h0,Bool.false_ne_true⟩
        rw [stateBlock,if_pos he,if_pos hmiss,hgap]
        exact refuses_reject hc
      · rw [stateBlock,if_neg he]
        exact stateBlockImpl_refuses (I.truncated T) hg
  · unfold stateBlock
    apply Follows.ite Iff.rfl
    · intro he
      obtain ⟨code,v,hgap,hc⟩ := gapEpochBlock_code b verified he
      apply Follows.ite (by rw [contains_eq T hg])
      · intro _
        rw [hgap]
        exact reject_follows T hc hc
      · intro _
        rw [balance_eq T hg]
        refine Follows.read rfl fun prevBalance _ => ?_
        apply Follows.ite Iff.rfl
        · exact fun _ => epochBlockImpl_follows T hb hg
        · exact fun _ => stateBlockImpl_follows T hb hg
    · exact fun _ => stateBlockImpl_follows T hb hg

end

structure Unaffected (C : Constants) (U : Set Hashables) (L P : Ledger) : Prop where
  process : ∀ (now : ℕ) (b : Block) (verified : SignatureVerification), b.hashables ∈ U →
    Honest C L b verified → EpochOpens C L b →
    ∃ r L' q P', process C now L b verified = some (r,L') ∧
      process C now P b verified = some (q,P') ∧
      (q.code = .progress ↔ r.code = .progress) ∧ Agree L' P'
  confirmed : ∀ h, P.blocks.contains h = true → P.blockConfirmed h = L.blockConfirmed h
  dependents : ∀ h b, Voting.blockGet P h = some b →
    Voting.dependentsConfirmed C P b = Voting.dependentsConfirmed C L b
  heads : ∀ (a : Account) (i : AccountInfo), P.accounts[a]? = some i →
    P.pruned.contains i.head = false
  cemented : ∀ (a : Account) (i : ConfirmationHeightInfo), P.confirmationHeight[a]? = some i →
    P.pruned.contains i.frontier = false

theorem frontierGet_gone (I : Intact gone L) {h : BlockHash} (hg : gone h) :
    L.frontierGet h = 0 := by
  unfold Ledger.frontierGet
  cases ha : L.frontiers[h]? with
  | none => rfl
  | some a => exact (I.frontiers h a ha hg).elim

section
variable (T : Truncates loose gone L P) {h : ReceiveHashables} {i j : PendingInfo}
include T

theorem predecessor_follows (I : Intact gone L) {previous : BlockHash}
    {k k' : StoredBlock → Outcome}
    (hk : ¬ gone previous → ∀ r, Follows (SameOutcome loose gone) (k r) (k' r))
    (hrefuse : L.frontierGet previous = 0 → ∀ r, Refuses L (k r)) : Follows (SameOutcome loose gone)
      (match L.blocks[previous]? with
        | none => reject L .gapPrevious verified none
        | some r => k r)
      (match P.blocks[previous]? with
        | none => reject P .gapPrevious verified none
        | some r => k' r) := by
  by_cases hg : gone previous
  · rw [(T.removed _ hg).1]
    cases L.blocks[previous]? with
    | none => exact reject_follows T
    | some r => exact (hrefuse (frontierGet_gone I hg) r).follows (refuses_reject) T
  · rw [blocks_eq T hg]
    cases L.blocks[previous]? with
    | none => exact reject_follows T
    | some r => exact hk hg r

theorem changeCommit_follows {h : ChangeHashables} (hb : b.hashables = .change h)
    (hg : ¬ gone (C.blockHash b)) (hp : ¬ gone h.previous) (account : Account)
    (info : AccountInfo) :
    Follows (Truncates loose gone)
      (changeCommit C now L b h account info) (changeCommit C now P b h account info) := by
  refine (blockPut_follows T hg (predecessor_stays (.change h) hb hp)).step fun T₁ => ?_
  rw [balance_eq T₁ hp]
  refine Follows.read rfl fun balance _ => ?_
  refine (updateAccount_follows (weightAddDual_truncates T₁ _ _ _) _ _).step fun T₂ => ?_
  refine (frontierDel_follows T₂).step fun T₃ => ?_
  exact .pure (frontierPut_truncates T₃)

theorem changeBlock_follows {h : ChangeHashables} (I : Intact gone L)
    (hb : b.hashables = .change h) :
    Follows (SameOutcome loose gone)
      (changeBlock C now L b verified h) (changeBlock C now P b verified h) := by
  refine new_guard T fun hnew => ?_
  refine predecessor_follows T I (fun hp r => ?_) (fun h0 r => ?_)
  · dsimp only
    rw [frontierGet_eq T,T.accounts]
    iterate 4 refine same_guard T fun _ => ?_
    exact accept_follows (changeCommit_follows T hb hnew hp _ _) _
  · refine refuses_guard fun _ => ?_
    dsimp only
    rw [if_pos h0]
    exact refuses_reject

theorem sendCommit_follows {h : SendHashables} (hb : b.hashables = .send h)
    (hg : ¬ gone (C.blockHash b)) (hp : ¬ gone h.previous) (account : Account)
    (info : AccountInfo) :
    Follows (Truncates loose gone)
      (sendCommit C now L b h account info) (sendCommit C now P b h account info) := by
  refine (blockPut_follows (weightAdd_truncates T _) hg (predecessor_stays (.send h) hb hp)).step
    fun T₁ => ?_
  refine (updateAccount_follows T₁ _ _).step fun T₂ => ?_
  refine (frontierDel_follows (pendingPut_truncates T₂ _ (samePending_refl _ _))).step fun T₃ => ?_
  exact .pure (frontierPut_truncates T₃)

theorem sendBlock_follows {h : SendHashables} (I : Intact gone L) (hb : b.hashables = .send h) :
    Follows (SameOutcome loose gone)
      (sendBlock C now L b verified h) (sendBlock C now P b verified h) := by
  refine new_guard T fun hnew => ?_
  refine predecessor_follows T I (fun hp r => ?_) (fun h0 r => ?_)
  · dsimp only
    rw [frontierGet_eq T,T.accounts]
    iterate 5 refine same_guard T fun _ => ?_
    exact accept_follows (sendCommit_follows T hb hnew hp _ _) _
  · refine refuses_guard fun _ => ?_
    dsimp only
    rw [if_pos h0]
    exact refuses_reject

theorem receiveCommit_follows (hb : b.hashables = .receive h) (hg : ¬ gone (C.blockHash b))
    (hp : ¬ gone h.previous) (account : Account) (info : AccountInfo) (hij : j.amount = i.amount) :
    Follows (Truncates loose gone) (receiveCommit C now L b h account info i)
      (receiveCommit C now P b h account info j) := by
  unfold receiveCommit
  rw [hij]
  refine (pendingDel_follows T _).step fun T₁ => ?_
  refine (blockPut_follows T₁ hg (predecessor_stays (.receive h) hb hp)).step fun T₂ => ?_
  refine (updateAccount_follows T₂ _ _).step fun T₃ => ?_
  refine (frontierDel_follows (weightAdd_truncates T₃ _)).step fun T₄ => ?_
  exact .pure (frontierPut_truncates T₄)

theorem pending_follows (key : PendingKey) {k k' : PendingInfo → Outcome}
    (hk : ∀ i j, j.amount = i.amount → j.epoch = i.epoch →
      Follows (SameOutcome loose gone) (k i) (k' j)) :
    Follows (SameOutcome loose gone)
      (match L.pending[key]? with
        | none => reject L .unreceivable .valid none
        | some i => k i)
      (match P.pending[key]? with
        | none => reject P .unreceivable .valid none
        | some i => k' i) := by
  rcases T.pending key with e | ⟨-,-,i,source,hi,hj⟩
  · rw [e]
    cases L.pending[key]? with
    | none => exact reject_follows T
    | some i => exact hk i i rfl rfl
  · rw [hi,hj]
    exact hk i _ rfl rfl

theorem receiveBlock_follows (I : Intact gone L) (hb : b.hashables = .receive h) :
    Follows (SameOutcome loose gone)
      (receiveBlock C now L b verified h) (receiveBlock C now P b verified h) := by
  refine new_guard T fun hnew => ?_
  refine predecessor_follows T I (fun hp r => ?_) (fun h0 r => ?_)
  · dsimp only
    rw [frontierGet_eq T,T.accounts,contains_eq T hp,exists_eq T]
    refine same_guard T fun _ => same_guard T (fun _ => ?_) (by split <;> decide)
    iterate 3 refine same_guard T fun _ => ?_
    apply pending_follows T
    intro i j hamount hepoch
    refine guard_follows (by rw [hepoch]) T fun _ => same_guard T fun _ => ?_
    exact accept_follows (receiveCommit_follows T hb hnew hp _ _ hamount) _
  · refine refuses_guard fun _ => ?_
    dsimp only
    rw [if_pos h0]
    exact refuses_reject (by split <;> decide)

theorem openCommit_follows {h : OpenHashables} (hb : b.hashables = .open_ h)
    (hg : ¬ gone (C.blockHash b)) (hij : j.amount = i.amount) :
    Follows (Truncates loose gone)
      (openCommit C now L b h i) (openCommit C now P b h j) := by
  have hprev : Ledger.hasPredecessor b = true → ¬ gone b.previous := by
    unfold Ledger.hasPredecessor Block.type
    rw [hb]
    exact fun h0 => nomatch h0
  unfold openCommit
  rw [hij]
  refine (pendingDel_follows T _).step fun T₁ => ?_
  refine (blockPut_follows T₁ hg hprev).step fun T₂ => ?_
  refine (updateAccount_follows T₂ _ _).step fun T₃ => ?_
  exact .pure (frontierPut_truncates (weightAdd_truncates T₃ _))

theorem openBlock_follows {h : OpenHashables} (hb : b.hashables = .open_ h) :
    Follows (SameOutcome loose gone)
      (openBlock C now L b verified h) (openBlock C now P b verified h) := by
  refine new_guard T fun hnew => ?_
  refine same_guard T fun _ => guard_follows (by rw [exists_eq T]) T fun _ =>
    guard_follows (by rw [T.accounts]) T fun _ => ?_
  apply pending_follows T
  intro i j hamount hepoch
  refine same_guard T fun _ => guard_follows (by rw [hepoch]) T fun _ =>
    same_guard T fun _ => ?_
  exact accept_follows (openCommit_follows T hb hnew hamount) _

end

section
variable (T : Truncates loose gone L P) (I : Intact gone L) (hh : Honest C L b verified)
  (ho : EpochOpens C L b)
include T I hh ho

theorem visit_follows : Follows (SameOutcome loose gone)
      (visit C now L b verified) (visit C now P b verified) := by
  unfold visit
  cases hb : b.hashables with
  | send h => exact sendBlock_follows T I hb
  | receive h => exact receiveBlock_follows T I hb
  | open_ h => exact openBlock_follows T hb
  | change h => exact changeBlock_follows T I hb
  | state h => exact stateBlock_follows T I hb hh ho

theorem process_follows : Follows (SameOutcome loose gone)
      (process C now L b verified) (process C now P b verified) := by
  apply (visit_follows T I hh ho).bind
  rintro ⟨r,L'⟩ ⟨q,P'⟩ _ _ ⟨hcode,T'⟩
  apply Follows.ite hcode.symm
  · intro _
    refine .pure ⟨hcode,{ T' with cache := ?_ }⟩
    rw [T'.cache]
  · exact fun _ => .pure ⟨hcode,T'⟩

end

variable {U : Set Hashables} {S : HashSound C U} {X : Nodes}

section
variable (V : Valid S L X) (I : Pruned L X P) {h : BlockHash}
include V I

theorem Pruned.head_kept {n : Node} (hh : Head X h n) : ¬ Gone P h := by
  intro hg
  obtain ⟨m,hm,hlt⟩ := I.deep h hg
  cases hh.1.symm.trans hm
  exact absurd (V.height_le hh) (Nat.not_le.mpr hlt)

theorem Pruned.intact : Intact (Gone P) L where
  heads a i hi := by
    obtain ⟨h,n,hh,-,e⟩ := V.mirrors.account a i hi
    rw [e]
    exact Pruned.head_kept V I hh
  frontiers h a ha := by
    obtain ⟨n,hh,-⟩ := (V.mirrors.frontier h a).mp ha
    exact Pruned.head_kept V I hh
  zero hg := by
    obtain ⟨n,hn,-⟩ := I.deep 0 hg
    rw [built_zero V.built] at hn
    cases hn

theorem Pruned.cemented_kept {a : Account} {i : ConfirmationHeightInfo}
    (hi : L.confirmationHeight[a]? = some i) : ¬ Gone P i.frontier := by
  intro hg
  obtain ⟨n,hn,hacc,hheight⟩ := V.frontier a i hi
  obtain ⟨m,hm,hlt⟩ := I.deep _ hg
  cases hn.symm.trans hm
  rw [hacc,Ledger.confirmationHeightGet,hi,getD_some,hheight] at hlt
  exact lt_irrefl _ hlt

theorem Pruned.blockConfirmed_eq (h : BlockHash) : P.blockConfirmed h = L.blockConfirmed h := by
  by_cases hg : Gone P h
  · obtain ⟨n,hn,hlt⟩ := I.deep h hg
    rw [(blockConfirmed_iff V.mirrors V.built).mpr ⟨n,hn,hlt.le⟩,Ledger.blockConfirmed,if_pos hg]
  · have hL : ¬ L.pruned.contains h = true := by
      rw [V.mirrors.pruned]
      simp
    rw [Ledger.blockConfirmed,Ledger.blockConfirmed,if_neg hg,if_neg hL,blocks_eq I.truncates hg]
    simp [confirmationHeightGet_eq I.truncates]

theorem Pruned.dependentsConfirmed_eq {b : Voting.Loaded} (hb : Voting.blockGet P h = some b) :
    Voting.dependentsConfirmed C P b = Voting.dependentsConfirmed C L b := by
  obtain ⟨r,-,rfl⟩ := map_eq_some_iff.mp hb
  unfold Voting.dependentsConfirmed Voting.sends
  simp [Pruned.blockConfirmed_eq V I]

end

theorem pruning_unaffecting (S : HashSound C U) (hr : Reachable C U L) {targets : List BlockHash}
    (hp : Prunes C L targets P) : Unaffected C U L P := by
  obtain ⟨X,V⟩ := reachable_valid S hr
  obtain ⟨I,-⟩ := prunes_pruned V hp
  have hI := Pruned.intact V I
  constructor
  · intro now b verified hU hh ho
    obtain ⟨r,L',hL,-⟩ := process_refines now V.mirrors V.built hU V.supply_lt hh ho
    obtain ⟨⟨q,P'⟩,hP,hcode,T⟩ := process_follows I.truncates hI hh ho _ hL
    exact ⟨r,L',q,P',hL,hP,hcode,agree_of_truncates T⟩
  · exact fun h _ => Pruned.blockConfirmed_eq V I h
  · exact fun h b hb => Pruned.dependentsConfirmed_eq V I hb
  · intro a i hi
    rw [I.truncates.accounts] at hi
    exact Bool.eq_false_iff.mpr (hI.heads a i hi)
  · intro a i hi
    rw [I.truncates.confirmationHeight] at hi
    exact Bool.eq_false_iff.mpr (Pruned.cemented_kept V I hi)

variable (C U) in
/-- A pruning node beside a full one. Both process the same blocks and raise the same
confirmation heights; in between the pruning node collects and prunes. -/
inductive Beside : List BlockHash → Ledger → Ledger → Prop
  | start {targets : List BlockHash} {L P : Ledger} : Reachable C U L → Prunes C L targets P →
      Beside targets L P
  | process {targets : List BlockHash} {L L' P P' : Ledger} {b : Block}
      {verified : SignatureVerification} {r q : ProcessReturn} {now : ℕ} :
      Beside targets L P → b.hashables ∈ U → Honest C L b verified → EpochOpens C L b →
      process C now L b verified = some (r,L') → process C now P b verified = some (q,P') →
      Beside targets L' P'
  | cement {targets : List BlockHash} {L L' P : Ledger} : Beside targets L P →
      Raised C L L' → Beside targets L' { P with
        confirmationHeight := L'.confirmationHeight
        cache.cementedCount := L'.cache.cementedCount
        cache.finalVotesConfirmationCanary := L'.cache.finalVotesConfirmationCanary }
  | collect {targets targets' : List BlockHash} {L P : Ledger} {last last' : Account}
      {finished : Bool} {batchReadSize maxDepth cutoffTime : ℕ} : Beside targets L P →
      1 ≤ maxDepth → collectLedgerPruningTargets P cutoffTime targets last batchReadSize maxDepth =
        some (targets',last',finished) → Beside targets' L P
  | prune {targets : List BlockHash} {L P P' : Ledger} {target : BlockHash} {fuel count : ℕ} :
      Beside targets L P → target ∈ targets →
      pruningAction C fuel P target = some (P',count) → Beside targets L P'

def changeAfterSend : Block := ⟨.change ⟨3,9⟩,0,0⟩

abbrev prunableBlocks : Set Hashables := sentWith changeAfterSend

theorem prunable_sound : HashSound sample prunableBlocks := sentWith_sound (by decide) (by decide)

def changed : Ledger := processed sample sampleSent changeAfterSend

theorem changed_reachable : Reachable sample prunableBlocks changed :=
  sentWith_reachable (by decide) (by decide) (epochOpens_none (by decide))

def prunable : Ledger := cementTo changed 1 3 5

theorem prunable_reachable : Reachable sample prunableBlocks prunable :=
  changed_reachable.cementTo prunable_sound (by decide +kernel)

theorem prunable_prunes : Prunes sample prunable [3] (prunedFrom sample prunable 3) :=
  prunes_prunedFrom (by decide +kernel) (by decide +kernel)

theorem pruning_unaffecting_sample : (prunedFrom sample prunable 3).pruned.contains 3 = true ∧
    Unaffected sample prunableBlocks prunable (prunedFrom sample prunable 3) :=
  ⟨by decide +kernel,pruning_unaffecting prunable_sound prunable_reachable prunable_prunes⟩

theorem eligible_mono {h : BlockHash} {L' : Ledger} {Y : Nodes}
    (hX : ∀ n, X h = some n → Y h = some n)
    (hL : ∀ a, (L.confirmationHeightGet a).height ≤ (L'.confirmationHeightGet a).height)
    (he : Eligible L X h) : Eligible L' Y h := by
  obtain ⟨n,hn,hlt⟩ := he
  exact ⟨n,hX n hn,hlt.trans_le (hL _)⟩

variable {targets : List BlockHash}

theorem beside_pruned (S : HashSound C U) (hs : Beside C U targets L P) :
    ∃ X, Valid S L X ∧ Pruned L X P ∧ ∀ t ∈ targets, Eligible L X t := by
  induction hs with
  | start hr hp =>
    obtain ⟨X,V⟩ := reachable_valid S hr
    exact ⟨X,V,prunes_pruned V hp⟩
  | @process targets L L' P P' b _ _ _ _ _ hU hh ho hL hP ih =>
    obtain ⟨X,V,I,ht⟩ := ih
    obtain ⟨_,hP',-,T⟩ := process_follows I.truncates (Pruned.intact V I) hh ho _ hL
    cases hP.symm.trans hP'
    have hgone : Gone P' = Gone P := funext fun h => propext (T.pruned h)
    rw [← hgone] at T
    obtain ⟨Y,V',hm⟩ : ∃ Y, Valid S L' Y ∧ ∀ h, Eligible L X h → Eligible L' Y h := by
      rcases V.processed hU hh ho hL with ⟨-,rfl⟩ | ⟨-,hk,-,G,V'⟩
      · exact ⟨X,V,fun _ => id⟩
      · refine ⟨_,V',fun h => eligible_mono (fun n hn => ?_) fun a => Nat.le_of_eq ?_⟩
        · exact add_old hk hn
        · unfold Ledger.confirmationHeightGet
          rw [G.confirmationHeight]
    exact ⟨Y,V',⟨T,fun h hg => hm h (I.deep h (hgone ▸ hg))⟩,fun t h => hm t (ht t h)⟩
  | @cement _ L L' P _ R ih =>
    obtain ⟨X,V,⟨T,hd⟩,ht⟩ := ih
    have hm : ∀ h, Eligible L X h → Eligible L' X h :=
      fun _ => eligible_mono (fun _ => id) R.raised
    refine ⟨X,V.raised R,⟨?_,fun h hg => hm h (hd h hg)⟩,fun t h => hm t (ht t h)⟩
    rw [R.rest]
    exact { T with confirmationHeight := rfl, cache := by rw [T.cache] }
  | collect _ hmax hc ih =>
    obtain ⟨X,V,I,ht⟩ := ih
    refine ⟨X,V,I,collectTargets_eligible V I.truncates hmax ?_ ht hc⟩
    rintro ⟨a,i⟩ he
    rw [← I.truncates.confirmationHeight]
    exact (Table.mem_entries _ _ _).mp (List.mem_of_mem_filter he)
  | prune _ ht hp ih =>
    obtain ⟨X,V,I,he⟩ := ih
    exact ⟨X,V,pruningAction_pruned V I (he _ ht) hp,he⟩

/-- In any order of the steps the two nodes agree and answer every block alike. -/
theorem beside_agrees (S : HashSound C U) (hs : Beside C U targets L P) : Agree L P ∧
    ∀ now b verified, b.hashables ∈ U → Honest C L b verified → EpochOpens C L b →
      ∃ r L' q P', process C now L b verified = some (r,L') ∧
        process C now P b verified = some (q,P') ∧ (q.code = .progress ↔ r.code = .progress) := by
  obtain ⟨X,V,I,-⟩ := beside_pruned S hs
  refine ⟨agree_of_truncates I.truncates,fun now b verified hU hh ho => ?_⟩
  obtain ⟨r,L',hL,-⟩ := process_refines now V.mirrors V.built hU V.supply_lt hh ho
  obtain ⟨⟨q,P'⟩,hP,hcode,-⟩ := process_follows I.truncates (Pruned.intact V I) hh ho _ hL
  exact ⟨r,L',q,P',hL,hP,hcode⟩

/-- The node that prunes, after the change and with the same blocks cemented. -/
def besideChanged : Ledger :=
  { processed sample { sampleSent with pruning := true } changeAfterSend with
    confirmationHeight := prunable.confirmationHeight
    cache.cementedCount := prunable.cache.cementedCount
    cache.finalVotesConfirmationCanary := prunable.cache.finalVotesConfirmationCanary }

theorem besideChanged_beside : Beside sample prunableBlocks [3] prunable besideChanged := by
  have hsent : Reachable sample prunableBlocks sampleSent :=
    reachable_processed prunable_sound (.start 0) (.inr (.inl rfl)) (epochOpens_none (by decide))
  obtain ⟨r,hL⟩ := process_processed (C := sample) (L := sampleSent) (b := changeAfterSend)
    (by decide +kernel)
  obtain ⟨q,hP⟩ := process_processed (C := sample) (L := { sampleSent with pruning := true })
    (b := changeAfterSend) (by decide +kernel)
  obtain ⟨X,V⟩ := reachable_valid prunable_sound changed_reachable
  have hraised : Raised sample changed prunable := raised_cementTo V (by decide +kernel)
  have hboth := ((Beside.start hsent .start).process (.inr (.inr rfl)) honest_unknown
    (epochOpens_none (by decide)) hL hP).cement hraised
  obtain ⟨⟨targets,last,finished⟩,ht,hmem⟩ := (any_eq_true _ _).mp (by decide +kernel :
    ((collectLedgerPruningTargets besideChanged 9 [] 0 9 1).any
      fun t => decide (t.1 = [3])) = true)
  obtain rfl := of_decide_eq_true hmem
  exact hboth.collect (Nat.le_refl 1) ht

theorem beside_agrees_sample : ∃ P count, pruningAction sample 9 besideChanged 3 = some (P,count) ∧
    P.pruned.contains 3 = true ∧ Agree prunable P := by
  obtain ⟨⟨P,count⟩,hp,hmem⟩ := (any_eq_true _ _).mp (by decide +kernel :
    ((pruningAction sample 9 besideChanged 3).any fun out => out.1.pruned.contains 3) = true)
  exact ⟨P,count,hp,hmem,
    (beside_agrees prunable_sound (besideChanged_beside.prune (by decide) hp)).1⟩

/-- A collected target is pruned to the end, whatever happened in between. -/
theorem pruningAction_returns (S : HashSound C U) (hs : Beside C U targets L P)
    {target : BlockHash} (ht : target ∈ targets) :
    ∃ n, ∀ fuel, n ≤ fuel → ∃ out, pruningAction C fuel P target = some out := by
  obtain ⟨X,V,I,he⟩ := beside_pruned S hs
  refine ⟨((X target).map Node.height).getD 0+1,fun fuel hfuel => ?_⟩
  obtain ⟨out,ho,-⟩ := Loop.loop_total (Walking L X) (fun _ => True) (pruningStep_total V) fuel _
    (P,target,0) ⟨I,.inr (he target ht),rfl⟩ hfuel
  exact ⟨out,ho⟩

theorem pruningAction_returns_sample : besideChanged.blocks.contains 3 = true ∧ ∃ n, ∀ fuel,
    n ≤ fuel → ∃ out, pruningAction sample fuel besideChanged 3 = some out :=
  ⟨by decide +kernel,pruningAction_returns prunable_sound besideChanged_beside (by decide)⟩

end Vxldollar.PrunedAcceptance
