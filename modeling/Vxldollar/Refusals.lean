import Vxldollar.Process
import Vxldollar.Library.Simulation

/-!
# What an answer of the ledger tells

On any ledger: what a handler has seen of the tables when it answers fork, gap
previous, gap source or progress, whose signature stands behind the tag it passes on,
and what its writes leave alone.
-/

namespace Vxldollar.Refusals
open Blocks Store Process Simulation Option Table Std.ExtTreeMap

section
variable {C : Constants} {L L' L'' M N : Ledger} {now : ℕ} {b : Block} {a : Account}
  {hash : BlockHash} {sig : Signature} {work : Work}

structure Spares (L L' : Ledger) : Prop where
  confirmationHeight : L'.confirmationHeight = L.confirmationHeight
  pruned : L'.pruned = L.pruned
  pruning : L'.pruning = L.pruning
  cementedCount : L'.cache.cementedCount = L.cache.cementedCount
  canary : L'.cache.finalVotesConfirmationCanary = L.cache.finalVotesConfirmationCanary

theorem Spares.refl (L : Ledger) : Spares L L := ⟨rfl,rfl,rfl,rfl,rfl⟩

theorem Spares.trans (h : Spares L L') (h' : Spares L' L'') : Spares L L'' where
  confirmationHeight := h'.confirmationHeight.trans h.confirmationHeight
  pruned := h'.pruned.trans h.pruned
  pruning := h'.pruning.trans h.pruning
  cementedCount := h'.cementedCount.trans h.cementedCount
  canary := h'.canary.trans h.canary

/-- The blocks stay as they are and no frontier is added. -/
structure Keeps (L M : Ledger) : Prop extends Spares L M where
  blocks : M.blocks = L.blocks
  frontiers : ∀ (h : BlockHash) (a : Account), M.frontiers[h]? = some a → L.frontiers[h]? = some a

theorem Keeps.refl (L : Ledger) : Keeps L L := ⟨.refl L,rfl,fun _ _ h => h⟩

theorem Keeps.trans (h : Keeps L M) (h' : Keeps M N) : Keeps L N :=
  ⟨h.toSpares.trans h'.toSpares,h'.blocks.trans h.blocks,
    fun g a ha => h.frontiers g a (h'.frontiers g a ha)⟩

theorem updateAccount_keeps (a : Account) (old new : AccountInfo) :
    Yields (Keeps L) (L.updateAccount a old new) := by
  refine Yields.ite (fun _ => ?_) (fun _ => ?_)
  · refine .ite (fun _ => ?_) (fun _ => ?_)
    · exact Yields.read fun _ _ => .pure { Keeps.refl L with }
    · exact .pure { Keeps.refl L with }
  · exact Yields.read fun _ _ => .pure { Keeps.refl L with }

theorem pendingDel_keeps (k : PendingKey) : Yields (Keeps L) (L.pendingDel k) :=
  Yields.read fun _ _ => .pure { Keeps.refl L with }

theorem frontierDel_keeps (hash : BlockHash) : Yields (Keeps L) (L.frontierDel hash) := by
  refine Yields.read fun F hF => .pure ⟨⟨rfl,rfl,rfl,rfl,rfl⟩,rfl,fun g a hg => ?_⟩
  unfold delete at hF
  split_ifs at hF
  cases hF
  dsimp only at hg
  rw [get_erase] at hg
  split_ifs at hg
  exact hg

theorem dropFrontier_keeps (head : BlockHash) : Yields (Keeps L) (dropFrontier L head) :=
  Yields.ite (fun _ => frontierDel_keeps head) (fun _ => .pure (.refl L))

theorem statePending_keeps (h : StateHashables) (hash : BlockHash) (details : BlockDetails)
    (amount : Amount) : Yields (Keeps L) (statePending L h hash details amount) := by
  refine Yields.ite (fun _ => ?_) (fun _ => Yields.ite (fun _ => ?_) (fun _ => ?_))
  · exact .pure { Keeps.refl L with }
  · exact pendingDel_keeps _
  · exact .pure (.refl L)

theorem blockPut_stores {r : StoredBlock} (h : L.blockPut hash r = some M) :
    (∃ q, M.blocks[hash]? = some q ∧ q.block = r.block ∧
      q.sideband.account = (r.sideband.stored r.block.type).account ∧
      q.sideband.details = (r.sideband.stored r.block.type).details) ∧
    M.frontiers = L.frontiers ∧ Spares L M := by
  have hself : ∀ B : Std.ExtTreeMap BlockHash StoredBlock, ∀ q,
      (B.insert hash q)[hash]? = some q := by
    intro B q
    rw [get_insert,if_pos rfl]
  unfold Ledger.blockPut at h
  split_ifs at h with hp
  · obtain ⟨p,hp,h⟩ := bind_eq_some_iff.mp h
    cases h
    refine ⟨?_,rfl,⟨rfl,rfl,rfl,rfl,rfl⟩⟩
    by_cases e : r.block.previous = hash
    · rw [e,hself] at hp
      cases hp
      refine ⟨StoredBlock.withSuccessor ⟨r.block,r.sideband.stored r.block.type⟩ hash,?_,
        rfl,rfl,rfl⟩
      rw [e,hself]
    · refine ⟨⟨r.block,r.sideband.stored r.block.type⟩,?_,rfl,rfl,rfl⟩
      rw [get_insert,if_neg (Ne.symm e),hself]
  · cases h
    exact ⟨⟨⟨r.block,r.sideband.stored r.block.type⟩,hself _ _,rfl,rfl,rfl⟩,rfl,
      ⟨rfl,rfl,rfl,rfl,rfl⟩⟩

/-- The block is recorded for `a`, which alone gets a new frontier. -/
structure Wrote (C : Constants) (L M : Ledger) (b : Block) (a : Account) (isEpoch : Bool) : Prop
    extends Spares L M where
  record : ∃ q, M.blocks[C.blockHash b]? = some q ∧ q.block = b ∧ q.accountCalculated = a ∧
    q.sideband.details.isEpoch = isEpoch
  frontiers : ∀ (h : BlockHash) (c : Account), M.frontiers[h]? = some c →
    L.frontiers[h]? = some c ∨ h = C.blockHash b ∧ c = a

theorem wrote_put {L₀ L₁ : Ledger} {s : Sideband} {isEpoch : Bool} (h0 : Keeps L L₀)
    (hp : L₀.blockPut (C.blockHash b) ⟨b,s⟩ = some L₁) (h1 : Keeps L₁ M)
    (ha : (if b.account = 0 then (s.stored b.type).account else b.account) = a)
    (he : (s.stored b.type).details.isEpoch = isEpoch) : Wrote C L M b a isEpoch := by
  obtain ⟨⟨q,hq,hblock,hacc,hdetails⟩,hf,hs⟩ := blockPut_stores hp
  refine ⟨h0.toSpares.trans (hs.trans h1.toSpares),⟨q,?_,hblock,?_,?_⟩,fun h c hc => .inl ?_⟩
  · rw [h1.blocks]
    exact hq
  · rw [StoredBlock.accountCalculated,hblock,hacc]
    exact ha
  · rw [hdetails]
    exact he
  · refine h0.frontiers h c ?_
    rw [← hf]
    exact h1.frontiers h c hc

theorem wrote_frontier {isEpoch : Bool} (h : Wrote C L M b a isEpoch) :
    Wrote C L (M.frontierPut (C.blockHash b) a) b a isEpoch := by
  refine ⟨{ h.toSpares with },h.record,fun g c hc => ?_⟩
  change (M.frontiers.insert (C.blockHash b) a)[g]? = some c at hc
  rw [get_insert] at hc
  split_ifs at hc with e
  · exact .inr ⟨e,(some.inj hc).symm⟩
  · exact h.frontiers g c hc

variable {info : AccountInfo} {h : StateHashables} {details : BlockDetails} {pending : PendingInfo}
  {amount : Amount}

theorem sendCommit_wrote {h : SendHashables} : Yields (Wrote C L · ⟨.send h,sig,work⟩ a false)
    (sendCommit C now L ⟨.send h,sig,work⟩ h a info) := by
  refine Yields.read fun L₁ h1 => Yields.read fun L₂ h2 => Yields.read fun L₃ h3 => .pure ?_
  have h0 : Keeps L (L.weightAdd info.representative (0-(info.balance-h.balance))) :=
    { Keeps.refl L with }
  have hk : Keeps L₂ L₃ := { frontierDel_keeps _ _ h3 with }
  exact wrote_frontier (wrote_put h0 h1 ((updateAccount_keeps _ _ _ _ h2).trans hk) rfl rfl)

theorem changeCommit_wrote {h : ChangeHashables} :
    Yields (Wrote C L · ⟨.change h,sig,work⟩ a false)
      (changeCommit C now L ⟨.change h,sig,work⟩ h a info) := by
  refine Yields.read fun L₁ h1 => Yields.read fun _ _ => ?_
  refine .read fun L₂ h2 => .read fun L₃ h3 => .pure ?_
  have hk : Keeps L₁ L₂ := { updateAccount_keeps _ _ _ _ h2 with }
  exact wrote_frontier (wrote_put (.refl L) h1 (hk.trans (frontierDel_keeps _ _ h3)) rfl rfl)

theorem receiveCommit_wrote {h : ReceiveHashables} :
    Yields (Wrote C L · ⟨.receive h,sig,work⟩ a false)
      (receiveCommit C now L ⟨.receive h,sig,work⟩ h a info pending) := by
  refine Yields.read fun L₀ h0 => Yields.read fun L₁ h1 => ?_
  refine .read fun L₂ h2 => .read fun L₃ h3 => .pure ?_
  have hk : Keeps L₂ L₃ := { frontierDel_keeps _ _ h3 with }
  exact wrote_frontier (wrote_put (pendingDel_keeps _ _ h0) h1
    ((updateAccount_keeps _ _ _ _ h2).trans hk) rfl rfl)

theorem openCommit_wrote {h : OpenHashables} (h0 : h.account ≠ 0) :
    Yields (Wrote C L · ⟨.open_ h,sig,work⟩ h.account false)
      (openCommit C now L ⟨.open_ h,sig,work⟩ h pending) := by
  refine Yields.read fun L₀ h1 => Yields.read fun L₁ h2 => Yields.read fun L₂ h3 => .pure ?_
  have hk : Keeps L₁ (L₂.weightAdd h.representative pending.amount) :=
    { updateAccount_keeps _ _ _ _ h3 with }
  exact wrote_frontier (wrote_put (pendingDel_keeps _ _ h1) h2 hk (if_neg h0) rfl)

variable (h0 : h.account ≠ 0)
include h0

theorem stateCommit_wrote {sourceEpoch : Epoch} :
    Yields (Wrote C L · ⟨.state h,sig,work⟩ h.account details.isEpoch)
      (stateCommit C now L ⟨.state h,sig,work⟩ h info details sourceEpoch amount) := by
  refine Yields.read fun L₁ h1 => Yields.read fun L₂ h2 => Yields.read fun L₃ h3 M h4 => ?_
  have hw : Keeps L₁ (if info.head ≠ 0
      then L₁.weightAddDual info.representative (0-info.balance) h.representative h.balance
      else L₁.weightAdd h.representative h.balance) := by
    split_ifs
    · exact { Keeps.refl L₁ with }
    · exact { Keeps.refl L₁ with }
  have hk : Keeps L₁ M := ((hw.trans (statePending_keeps _ _ _ _ _ h2)).trans
    (updateAccount_keeps _ _ _ _ h3)).trans (dropFrontier_keeps _ _ h4)
  exact wrote_put (.refl L) h1 hk (if_neg h0) rfl

theorem epochCommit_wrote : Yields (Wrote C L · ⟨.state h,sig,work⟩ h.account details.isEpoch)
    (epochCommit C now L ⟨.state h,sig,work⟩ h info details) := by
  refine Yields.read fun L₁ h1 => Yields.read fun L₂ h2 M h3 => ?_
  have hk : Keeps L₁ M := (updateAccount_keeps _ _ _ _ h2).trans (dropFrontier_keeps _ _ h3)
  exact wrote_put (.refl L) h1 hk (if_neg h0) rfl

end

variable (C : Constants) (L : Ledger)

/-- A fork is answered for an account that is open or on top of a block that is stored. -/
def TellsFork (b : Block) : Prop :=
  L.blocks.contains (C.blockHash b) = false ∧ match b.hashables with
    | .open_ h => L.accounts.contains h.account = true
    | .state h => h.previous = 0 ∧ L.accounts.contains h.account = true ∨
        L.blocks.contains h.previous = true
    | .send h => L.blocks.contains h.previous = true
    | .receive h => L.blocks.contains h.previous = true
    | .change h => L.blocks.contains h.previous = true

def TellsGapPrevious (b : Block) : Prop := match b.hashables with
  | .open_ _ => False
  | .state h => h.previous ≠ 0 ∧
      (L.blocks.contains h.previous = false ∨ L.accounts.contains h.account = false)
  | .receive h => L.blocks.contains h.previous = false ∨ L.frontierGet h.previous ≠ 0 ∧
      (L.accounts[L.frontierGet h.previous]?.getD {}).head ≠ h.previous
  | .send h => L.blocks.contains h.previous = false
  | .change h => L.blocks.contains h.previous = false

def Positioned (h : StateHashables) : Prop := match L.accounts[h.account]? with
  | none => h.previous = 0
  | some info => L.blocks.contains h.previous = true ∧ h.previous = info.head

def Lowers (h : StateHashables) : Prop := ∃ info, L.accounts[h.account]? = some info ∧
  h.previous = info.head ∧ h.balance < info.balance

def TellsGapSource (b : Block) : Prop := match b.hashables with
  | .open_ h => L.blockOrPrunedExists h.source = false
  | .receive h => L.blockOrPrunedExists h.source = false
  | .state h => Positioned L h ∧ (h.link = 0 ∨ L.blockOrPrunedExists h.link = false) ∧
      ¬ Lowers L h
  | _ => False

/-- What a block builds on is there; a state block that lowers the balance of its
account does not look at its link. -/
def TellsProgress (b : Block) : Prop := match b.hashables with
  | .open_ h => L.blockOrPrunedExists h.source = true
  | .receive h => L.blocks.contains h.previous = true ∧ L.blockOrPrunedExists h.source = true
  | .state h => (h.previous = 0 ∨ L.blocks.contains h.previous = true) ∧
      (C.isEpochLink h.link = true ∨ h.link = 0 ∨ L.blockOrPrunedExists h.link = true ∨
        Lowers L h)
  | .send h => L.blocks.contains h.previous = true
  | .change h => L.blocks.contains h.previous = true

def Tells (b : Block) : ProcessResult → Prop
  | .fork => TellsFork C L b
  | .gapPrevious => TellsGapPrevious L b
  | .gapSource => TellsGapSource L b
  | .progress => TellsProgress C L b
  | _ => True

/-- The account for which the handler of a block checks the signature. -/
def Claims (b : Block) (a : Account) : Prop := match b.hashables with
  | .open_ h => a = h.account
  | .state h => a = h.account
  | hs => a = L.frontierGet hs.previous ∧ a ≠ 0

/-- A tag that is handed on is the one that came in, or its signature was checked. -/
inductive Vetted (b : Block) (verified : SignatureVerification) : SignatureVerification → Prop
  | same : Vetted b verified verified
  | bad : Vetted b verified .invalid
  | owner {a : Account} : Claims L b a → badSignature C verified .valid a b = false →
      Vetted b verified .valid
  | epoch {signer : Account} : C.epochSigner b.link = some signer →
      badSignature C verified .validEpoch signer b = false → Vetted b verified .validEpoch

structure Told (b : Block) (verified : SignatureVerification) (o : ProcessReturn × Ledger) :
    Prop where
  tells : Tells C L b o.1.code
  vetted : Vetted C L b verified o.1.verified
  spares : Spares L o.2
  refused : o.1.code ≠ .progress → o.2 = L
  accepted : o.1.code = .progress → ∃ a isEpoch, Claims L b a ∧
    o.1.verified = (if isEpoch then .validEpoch else .valid) ∧ Wrote C L o.2 b a isEpoch

variable {C L} {now : ℕ} {b : Block} {verified : SignatureVerification} {sig : Signature}
  {work : Work}

section
variable {v : SignatureVerification} {code : ProcessResult} {pb : Option Amount} {k : BlockHash}

theorem reject_told (hv : Vetted C L b verified v) (h : Tells C L b code)
    (hc : code ≠ .progress := by decide) :
    Yields (Told C L b verified) (reject L code v pb) :=
  .pure ⟨h,hv,.refl L,fun _ => rfl,fun e => absurd e hc⟩

theorem accept_told {x : Option Ledger} {balance : Amount} {a : Account} (isEpoch : Bool)
    (hv : Vetted C L b verified (if isEpoch then .validEpoch else .valid)) (ha : Claims L b a)
    (hw : Yields (Wrote C L · b a isEpoch) x) (h : TellsProgress C L b) :
    Yields (Told C L b verified)
      (accept x (if isEpoch then .validEpoch else .valid) balance) := by
  intro o ho
  obtain ⟨M,hM,rfl⟩ := map_eq_some_iff.mp ho
  exact ⟨h,hv,(hw M hM).toSpares,fun e => absurd rfl e,fun _ => ⟨a,isEpoch,ha,rfl,hw M hM⟩⟩

theorem guard_told {c : Prop} [Decidable c] {x : Outcome} (hv : Vetted C L b verified v)
    (ht : c → Tells C L b code) (h : ¬ c → Yields (Told C L b verified) x)
    (hc : code ≠ .progress := by decide) :
    Yields (Told C L b verified) (if c then reject L code v pb else x) :=
  Yields.ite (fun e => reject_told hv (ht e) hc) h

theorem guard_plain {c : Prop} [Decidable c] {x : Outcome} (hv : Vetted C L b verified v)
    (h : ¬ c → Yields (Told C L b verified) x) (ht : Tells C L b code := by trivial)
    (hc : code ≠ .progress := by decide) :
    Yields (Told C L b verified) (if c then reject L code v pb else x) :=
  guard_told hv (fun _ => ht) h hc

theorem new_block (h : ¬ L.blockOrPrunedExists (C.blockHash b) = true) :
    L.blocks.contains (C.blockHash b) = false := by
  rw [Ledger.blockOrPrunedExists,Bool.or_eq_true,not_or] at h
  exact Bool.eq_false_iff.mpr h.2

theorem changeBlock_told (h : ChangeHashables) : Yields (Told C L ⟨.change h,sig,work⟩ verified)
      (changeBlock C now L ⟨.change h,sig,work⟩ verified h) := by
  refine guard_plain .same fun hnew => ?_
  cases hp : L.blocks[h.previous]? with
  | none => exact reject_told .same (not_contains_of_get hp)
  | some previous =>
    have hc := contains_of_get hp
    refine guard_plain .same fun _ => ?_
    refine guard_told .same (fun _ => ⟨new_block hnew,hc⟩) fun h0 => ?_
    have ha : Claims L ⟨.change h,sig,work⟩ _ := ⟨rfl,h0⟩
    refine guard_plain .same fun hg => guard_plain .same fun _ => ?_
    exact accept_told false (.owner ha (Bool.eq_false_iff.mpr hg)) ha changeCommit_wrote hc

theorem sendBlock_told (h : SendHashables) : Yields (Told C L ⟨.send h,sig,work⟩ verified)
    (sendBlock C now L ⟨.send h,sig,work⟩ verified h) := by
  refine guard_plain .same fun hnew => ?_
  cases hp : L.blocks[h.previous]? with
  | none => exact reject_told .same (not_contains_of_get hp)
  | some previous =>
    have hc := contains_of_get hp
    refine guard_plain .same fun _ => ?_
    refine guard_told .same (fun _ => ⟨new_block hnew,hc⟩) fun h0 => ?_
    have ha : Claims L ⟨.send h,sig,work⟩ _ := ⟨rfl,h0⟩
    refine guard_plain .same fun hg => guard_plain .same fun _ => ?_
    have hv := Vetted.owner ha (Bool.eq_false_iff.mpr hg)
    exact guard_plain hv fun _ => accept_told false hv ha sendCommit_wrote hc

theorem receiveBlock_told (h : ReceiveHashables) :
    Yields (Told C L ⟨.receive h,sig,work⟩ verified)
      (receiveBlock C now L ⟨.receive h,sig,work⟩ verified h) := by
  refine guard_plain .same fun hnew => ?_
  cases hp : L.blocks[h.previous]? with
  | none => exact reject_told .same (.inl (not_contains_of_get hp))
  | some previous =>
    have hc := contains_of_get hp
    refine guard_plain .same fun _ => Yields.ite (fun _ => ?_) fun h0 => ?_
    · rw [if_pos hc]
      exact reject_told .same ⟨new_block hnew,hc⟩
    have ha : Claims L ⟨.receive h,sig,work⟩ _ := ⟨rfl,h0⟩
    refine guard_plain .same fun hg => ?_
    have hv := Vetted.owner ha (Bool.eq_false_iff.mpr hg)
    refine guard_told hv (fun hs => ?_) fun hs => ?_
    · exact Bool.eq_false_iff.mpr (by simpa using hs)
    refine guard_told hv (fun hh => .inr ⟨h0,hh⟩) fun _ => ?_
    cases L.pending[(⟨L.frontierGet h.previous,h.source⟩ : PendingKey)]? with
    | none => exact reject_told hv trivial
    | some pending =>
      refine guard_plain hv fun _ => guard_plain hv fun _ => ?_
      exact accept_told false hv ha receiveCommit_wrote ⟨hc,by simpa using hs⟩

theorem openBlock_told (h : OpenHashables) : Yields (Told C L ⟨.open_ h,sig,work⟩ verified)
    (openBlock C now L ⟨.open_ h,sig,work⟩ verified h) := by
  refine guard_plain .same fun hnew => guard_plain .same fun hg => ?_
  have ha : Claims L ⟨.open_ h,sig,work⟩ _ := rfl
  have hv := Vetted.owner ha (Bool.eq_false_iff.mpr hg)
  refine guard_told hv (fun hs => ?_) fun hs =>
    guard_told hv (fun hc => ⟨new_block hnew,hc⟩) fun _ => ?_
  · exact Bool.eq_false_iff.mpr (by simpa using hs)
  cases L.pending[(⟨h.account,h.source⟩ : PendingKey)]? with
  | none => exact reject_told hv trivial
  | some pending =>
    refine guard_plain hv fun h0 => guard_plain hv fun _ => guard_plain hv fun _ => ?_
    have hs' : L.blockOrPrunedExists h.source = true := by simpa using hs
    exact accept_told false hv ha (openCommit_wrote h0) hs'

end

section
variable (h : StateHashables)

theorem Positioned.fits {h : StateHashables} (hp : Positioned L h) :
    h.previous = 0 ∨ L.blocks.contains h.previous = true := by
  unfold Positioned at hp
  split at hp
  · exact .inl hp
  · exact .inr hp.1

variable {amount : Amount} {epoch : Epoch} {isSend isReceive : Bool}

theorem stateSource_error {code : ProcessResult}
    (he : stateSource L h isSend amount epoch = .error code) : isSend = false ∧
      (code = .gapSource ∧ L.blockOrPrunedExists h.link = false ∨ code = .unreceivable ∨
        code = .balanceMismatch) := by
  unfold stateSource at he
  split at he
  · cases he
  next hs =>
    refine ⟨Bool.eq_false_iff.mpr hs,?_⟩
    split at he
    · split at he
      next hx =>
        cases he
        exact .inl ⟨rfl,by simpa using hx⟩
      · split at he
        · cases he
          exact .inr (.inl rfl)
        · split at he <;> cases he
          exact .inr (.inr rfl)
    · split at he <;> cases he
      exact .inr (.inr rfl)

theorem stateSource_ok {e : Epoch × Epoch} (he : stateSource L h isSend amount epoch = .ok e) :
    isSend = true ∨ h.link = 0 ∨ L.blockOrPrunedExists h.link = true := by
  unfold stateSource at he
  split at he
  next hs => exact .inl hs
  · split at he
    · split at he
      · cases he
      next hx => exact .inr (.inr (by simpa using hx))
    next hl => exact .inr (.inl (not_not.mp hl))

section
variable (h0 : h.account ≠ 0)
include h0

theorem stateTransfer_told {info : AccountInfo}
    (hv : Vetted C L ⟨.state h,sig,work⟩ verified .valid) (hp : Positioned L h)
    (hs : isSend = true ↔ Lowers L h) : Yields (Told C L ⟨.state h,sig,work⟩ verified)
      (stateTransfer C now L ⟨.state h,sig,work⟩ h info isSend isReceive amount) := by
  unfold stateTransfer
  cases ht : stateSource L h isSend amount info.epoch with
  | error code =>
    obtain ⟨hsend,⟨rfl,hx⟩ | rfl | rfl⟩ := stateSource_error h ht
    · exact reject_told hv ⟨hp,.inr hx,fun e => by simp [hs.mpr e] at hsend⟩
    · exact reject_told hv trivial
    · exact reject_told hv trivial
  | ok e =>
    refine guard_plain hv fun _ => accept_told false hv rfl (stateCommit_wrote h0) ⟨hp.fits,.inr ?_⟩
    rcases stateSource_ok h ht with hsend | hl | hx
    · exact .inr (.inr (hs.mp hsend))
    · exact .inl hl
    · exact .inr (.inl hx)

end

theorem stateBlockImpl_told : Yields (Told C L ⟨.state h,sig,work⟩ verified)
      (stateBlockImpl C now L ⟨.state h,sig,work⟩ h verified) := by
  refine guard_plain .same fun hnew => guard_plain .same fun hg => ?_
  have hv : Vetted C L ⟨.state h,sig,work⟩ verified _ := .owner rfl (Bool.eq_false_iff.mpr hg)
  refine guard_plain hv fun h0 => ?_
  have hnew := new_block hnew
  cases ha : L.accounts[h.account]? with
  | some info =>
    refine guard_told hv (fun hp => ⟨hnew,.inl ⟨hp,contains_of_get ha⟩⟩) fun hp => ?_
    refine guard_told hv (fun hc => ⟨hp,.inl (by simpa using hc)⟩) fun hc => ?_
    have hc : L.blocks.contains h.previous = true := by simpa using hc
    refine guard_told hv (fun _ => ⟨hnew,.inr hc⟩) fun hh => ?_
    have hh : h.previous = info.head := not_not.mp hh
    apply stateTransfer_told h h0 hv
    · rw [Positioned,ha]
      exact ⟨hc,hh⟩
    · rw [decide_eq_true_iff]
      constructor
      · exact fun hlt => ⟨info,ha,hh,hlt⟩
      · rintro ⟨info',ha',-,hlt⟩
        cases ha.symm.trans ha'
        exact hlt
  | none =>
    have hlow : ¬ Lowers L h := fun ⟨info,hi,_⟩ => by simp [ha] at hi
    refine guard_told hv (fun hp => ⟨hp,.inr (not_contains_of_get ha)⟩) fun hp => ?_
    have hp : Positioned L h := by
      rw [Positioned,ha]
      exact not_not.mp hp
    refine guard_told hv (fun hl => ⟨hp,.inl hl,hlow⟩) fun _ => ?_
    exact stateTransfer_told h h0 hv hp (iff_of_false Bool.false_ne_true hlow)

section
variable (hp : h.previous = 0 ∨ L.blocks.contains h.previous = true)
  (hl : C.isEpochLink h.link = true)
include hp hl

theorem epochUpgrade_told {info : Option AccountInfo} (h0 : h.account ≠ 0)
    (hv : Vetted C L ⟨.state h,sig,work⟩ verified .validEpoch) :
    Yields (Told C L ⟨.state h,sig,work⟩ verified)
      (epochUpgrade C now L ⟨.state h,sig,work⟩ h info epoch) := by
  refine guard_plain hv fun _ => guard_plain hv fun _ => guard_plain hv fun _ => ?_
  exact accept_told true hv rfl (epochCommit_wrote h0) ⟨hp,.inl hl⟩

theorem epochBlockImpl_told : Yields (Told C L ⟨.state h,sig,work⟩ verified)
      (epochBlockImpl C now L ⟨.state h,sig,work⟩ h verified) := by
  refine guard_plain .same fun hnew => Yields.read fun signer hs => ?_
  have hnew := new_block hnew
  refine guard_plain .same fun hg => ?_
  have hv : Vetted C L ⟨.state h,sig,work⟩ verified _ := .epoch hs (Bool.eq_false_iff.mpr hg)
  refine guard_plain hv fun h0 => ?_
  refine .read fun epoch _ => ?_
  cases ha : L.accounts[h.account]? with
  | some info =>
    refine guard_told hv (fun e => ⟨hnew,.inl ⟨e,contains_of_get ha⟩⟩) fun e => ?_
    refine guard_told hv (fun _ => ⟨hnew,.inr (hp.resolve_left e)⟩) fun _ => ?_
    exact guard_plain hv fun _ => epochUpgrade_told h hp hl h0 hv
  | none =>
    refine guard_plain hv fun _ => guard_plain hv fun _ => ?_
    exact epochUpgrade_told h hp hl h0 hv

end

theorem gapEpochBlock_told {o : ProcessResult × SignatureVerification}
    (ho : gapEpochBlock C ⟨.state h,sig,work⟩ h verified = some o) :
    (o.1 = .gapPrevious ∨ o.1 = .badSignature) ∧ Vetted C L ⟨.state h,sig,work⟩ verified o.2 := by
  unfold gapEpochBlock at ho
  split_ifs at ho with hu hg
  · cases ho
    exact ⟨.inl rfl,.same⟩
  · cases ho
    refine ⟨.inl rfl,.owner rfl ?_⟩
    rw [badSignature,(Bool.not_eq_true' _).mp hg,Bool.and_false]
  · obtain ⟨signer,hs,rfl⟩ := map_eq_some_iff.mp ho
    split_ifs with hg
    · exact ⟨.inr rfl,.bad⟩
    · refine ⟨.inl rfl,.epoch hs ?_⟩
      rw [badSignature,Bool.eq_false_iff.mpr hg,Bool.and_false]

theorem stateBlock_told : Yields (Told C L ⟨.state h,sig,work⟩ verified)
    (stateBlock C now L ⟨.state h,sig,work⟩ h verified) := by
  refine Yields.ite (fun hl => Yields.ite (fun hgap => ?_) fun hfit => ?_) fun _ => ?_
  · refine .read fun o ho => ?_
    obtain ⟨hc | hc,hv⟩ := gapEpochBlock_told h ho
    · refine reject_told hv ?_ (by rw [hc]; decide)
      rw [hc]
      exact ⟨hgap.1,.inl (Bool.eq_false_iff.mpr hgap.2)⟩
    · refine reject_told hv ?_ (by rw [hc]; decide)
      rw [hc]
      trivial
  · refine .read fun balance _ => .ite (fun _ => ?_) fun _ => stateBlockImpl_told h
    apply epochBlockImpl_told h _ hl
    by_cases h0 : h.previous = 0
    · exact .inl h0
    · exact .inr (not_not.mp fun hc => hfit ⟨h0,hc⟩)
  · exact stateBlockImpl_told h

end

theorem process_told : Yields (Told C L b verified) (process C now L b verified) := by
  have hvisit : Yields (Told C L b verified) (visit C now L b verified) := by
    obtain ⟨hashables,sig,work⟩ := b
    cases hashables with
    | send h => exact sendBlock_told h
    | receive h => exact receiveBlock_told h
    | open_ h => exact openBlock_told h
    | change h => exact changeBlock_told h
    | state h => exact stateBlock_told h
  refine Yields.bind hvisit fun o _ ho => Yields.ite (fun hc => .pure ?_) fun _ => .pure ho
  refine ⟨ho.tells,ho.vetted,{ ho.spares with },fun e => absurd hc e,fun _ => ?_⟩
  obtain ⟨a,isEpoch,ha,ht,hw⟩ := ho.accepted hc
  exact ⟨a,isEpoch,ha,ht,{ hw with }⟩

end Vxldollar.Refusals
