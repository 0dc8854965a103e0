import Vxldollar.Store

/-!
# Processing a block

`ledger.process`: one handler per block type. Every handler runs its checks in
the order of the source and leaves the ledger untouched when one fails; the
writes come after the last check, in a function of their own.
-/

namespace Vxldollar.Process
open Blocks Store

inductive ProcessResult where
  | progress
  | badSignature
  | old
  | negativeSpend
  | fork
  | unreceivable
  | gapPrevious
  | gapSource
  | gapEpochOpenPending
  | openedBurnAccount
  | balanceMismatch
  | representativeMismatch
  | blockPosition
  | insufficientWork
  deriving DecidableEq, Repr

inductive SignatureVerification where
  | unknown
  | invalid
  | valid
  | validEpoch
  deriving DecidableEq, Repr

/-- `previousBalance` is only set on the paths that reach its assignment. -/
structure ProcessReturn where
  code : ProcessResult
  verified : SignatureVerification
  previousBalance : Option Amount
  deriving DecidableEq, Repr

abbrev Outcome := Option (ProcessReturn × Ledger)

variable (C : Constants)

def reject (L : Ledger) (code : ProcessResult) (verified : SignatureVerification)
    (previousBalance : Option Amount) : Outcome :=
  some (⟨code,verified,previousBalance⟩,L)

def accept (commit : Option Ledger) (verified : SignatureVerification)
    (previousBalance : Amount) : Outcome :=
  commit.map (fun L => (⟨.progress,verified,some previousBalance⟩,L))

def sufficientWork (b : Block) (details : BlockDetails) : Bool :=
  decide (C.difficulty b ≥ C.work.threshold details)

/-- The signature is checked only when the caller did not vouch for it. -/
def badSignature (verified trusted : SignatureVerification) (account : Account) (b : Block) :
    Bool :=
  decide (verified ≠ trusted) && C.validateMessage account (C.blockHash b) b.signature

section
variable (now : ℕ) (L : Ledger) (b : Block) (h : StateHashables)

/-- The source of a block that is not a send: the epoch the account is left
with and the epoch of the source, or the reason to refuse. -/
def stateSource (isSend : Bool) (amount : Amount) (epoch : Epoch) :
    Except ProcessResult (Epoch × Epoch) :=
  if isSend then .ok (epoch,.epoch0)
  else if h.link ≠ 0 then
    if !L.blockOrPrunedExists h.link then .error .gapSource
    else match L.pending[(⟨h.account,h.link⟩ : PendingKey)]? with
      | none => .error .unreceivable
      | some pending =>
        if amount = pending.amount then .ok (epoch.max pending.epoch,pending.epoch)
        else .error .balanceMismatch
  else if amount = 0 then .ok (epoch,.epoch0)
  else .error .balanceMismatch

def dropFrontier (L : Ledger) (head : BlockHash) : Option Ledger :=
  if L.frontierGet head ≠ 0 then L.frontierDel head else some L

def statePending (L : Ledger) (h : StateHashables) (hash : BlockHash) (details : BlockDetails)
    (amount : Amount) : Option Ledger :=
  if details.isSend then some (L.pendingPut ⟨h.link,hash⟩ ⟨h.account,amount,details.epoch⟩)
  else if h.link ≠ 0 then L.pendingDel ⟨h.account,h.link⟩
  else some L

def stateCommit (info : AccountInfo) (details : BlockDetails) (sourceEpoch : Epoch)
    (amount : Amount) : Option Ledger := do
  let hash := C.blockHash b
  let L ← L.blockPut hash ⟨b,⟨0,h.account,0,info.blockCount+1,now,details,sourceEpoch⟩⟩
  let L := if info.head ≠ 0
    then L.weightAddDual info.representative (0-info.balance) h.representative h.balance
    else L.weightAdd h.representative h.balance
  let L ← statePending L h hash details amount
  let L ← L.updateAccount h.account info ⟨hash,h.representative,
    if info.openBlock = 0 then hash else info.openBlock,h.balance,now,info.blockCount+1,
    details.epoch⟩
  dropFrontier L info.head

/-- From the source check on, for an account whose position is right. -/
def stateTransfer (info : AccountInfo) (isSend isReceive : Bool) (amount : Amount) : Outcome :=
  match stateSource L h isSend amount info.epoch with
  | .error code => reject L code .valid (some info.balance)
  | .ok (epoch,sourceEpoch) =>
    let details : BlockDetails := ⟨epoch,isSend,isReceive,false⟩
    if !sufficientWork C b details then reject L .insufficientWork .valid (some info.balance)
    else accept (stateCommit C now L b h info details sourceEpoch amount) .valid info.balance

def stateBlockImpl (verified : SignatureVerification) : Outcome :=
  if L.blockOrPrunedExists (C.blockHash b) then reject L .old verified none
  else if badSignature C verified .valid h.account b then reject L .badSignature verified none
  else if h.account = 0 then reject L .openedBurnAccount .valid none
  else match L.accounts[h.account]? with
    | some info =>
      if h.previous = 0 then reject L .fork .valid (some info.balance)
      else if !L.blocks.contains h.previous then reject L .gapPrevious .valid (some info.balance)
      else if h.previous ≠ info.head then reject L .fork .valid (some info.balance)
      else
        let isSend := decide (h.balance < info.balance)
        let isReceive := !isSend && decide (h.link ≠ 0)
        stateTransfer C now L b h info isSend isReceive
          (if isSend then info.balance-h.balance else h.balance-info.balance)
    | none =>
      if h.previous ≠ 0 then reject L .gapPrevious .valid (some 0)
      else if h.link = 0 then reject L .gapSource .valid (some 0)
      else stateTransfer C now L b h {} false true h.balance

def epochCommit (info : AccountInfo) (details : BlockDetails) : Option Ledger := do
  let hash := C.blockHash b
  let L ← L.blockPut hash ⟨b,⟨0,h.account,0,info.blockCount+1,now,details,.epoch0⟩⟩
  let L ← L.updateAccount h.account info ⟨hash,h.representative,
    if info.openBlock = 0 then hash else info.openBlock,info.balance,now,info.blockCount+1,
    details.epoch⟩
  dropFrontier L info.head

/-- From the epoch check on. The epoch of the link is missing only for links
that are not epoch links, which `stateBlock` excludes. -/
def epochUpgrade (accountInfo : Option AccountInfo) (epoch : Epoch) : Outcome :=
  let info := accountInfo.getD {}
  let valid := match accountInfo with
    | none => decide (epoch.value > 0)
    | some info => isSequential info.epoch epoch
  if !valid then reject L .blockPosition .validEpoch (some info.balance)
  else if h.balance ≠ info.balance then reject L .balanceMismatch .validEpoch (some info.balance)
  else
    let details : BlockDetails := ⟨epoch,false,false,true⟩
    if !sufficientWork C b details then reject L .insufficientWork .validEpoch (some info.balance)
    else accept (epochCommit C now L b h info details) .validEpoch info.balance

def epochBlockImpl (verified : SignatureVerification) : Outcome := do
  if L.blockOrPrunedExists (C.blockHash b) then reject L .old verified none
  else
    let signer ← C.epochSigner h.link
    if badSignature C verified .validEpoch signer b then reject L .badSignature verified none
    else if h.account = 0 then reject L .openedBurnAccount .validEpoch none
    else
      let epoch ← C.epochOfLink h.link
      match L.accounts[h.account]? with
      | some info =>
        if h.previous = 0 then reject L .fork .validEpoch (some info.balance)
        else if h.previous ≠ info.head then reject L .fork .validEpoch (some info.balance)
        else if h.representative ≠ info.representative then
          reject L .representativeMismatch .validEpoch (some info.balance)
        else epochUpgrade C now L b h (some info) epoch
      | none =>
        if h.representative ≠ 0 then reject L .representativeMismatch .validEpoch (some 0)
        else if !L.pendingAny h.account then reject L .gapEpochOpenPending .validEpoch (some 0)
        else epochUpgrade C now L b h none epoch

/-- `validate_epoch_block` on a missing previous block: the code and the tag
with which the block is refused. -/
def gapEpochBlock (verified : SignatureVerification) :
    Option (ProcessResult × SignatureVerification) :=
  if verified ≠ .unknown then some (.gapPrevious,verified)
  else if !C.validateMessage h.account (C.blockHash b) b.signature then some (.gapPrevious,.valid)
  else (C.epochSigner h.link).map (fun signer =>
    if C.validateMessage signer (C.blockHash b) b.signature then (.badSignature,.invalid)
    else (.gapPrevious,.validEpoch))

def stateBlock (verified : SignatureVerification) : Outcome := do
  if C.isEpochLink h.link then
    if h.previous ≠ 0 ∧ ¬ L.blocks.contains h.previous then
      let (code,verified) ← gapEpochBlock C b h verified
      reject L code verified none
    else
      let prevBalance ← L.balance h.previous
      if h.balance = prevBalance then epochBlockImpl C now L b h verified
      else stateBlockImpl C now L b h verified
  else stateBlockImpl C now L b h verified

end

section
variable (now : ℕ) (L : Ledger) (b : Block) (verified : SignatureVerification)

def changeCommit (h : ChangeHashables) (account : Account) (info : AccountInfo) :
    Option Ledger := do
  let hash := C.blockHash b
  let L ← L.blockPut hash ⟨b,⟨0,account,info.balance,info.blockCount+1,now,{},.epoch0⟩⟩
  let balance ← L.balance h.previous
  let L := L.weightAddDual h.representative balance info.representative (0-balance)
  let L ← L.updateAccount account info ⟨hash,h.representative,info.openBlock,info.balance,now,
    info.blockCount+1,.epoch0⟩
  let L ← L.frontierDel h.previous
  return L.frontierPut hash account

def changeBlock (h : ChangeHashables) : Outcome :=
  if L.blockOrPrunedExists (C.blockHash b) then reject L .old verified none
  else match L.blocks[h.previous]? with
    | none => reject L .gapPrevious verified none
    | some previous =>
      if !b.validPredecessor previous.block then reject L .blockPosition verified none
      else
        let account := L.frontierGet h.previous
        if account = 0 then reject L .fork verified none
        else
          let info := L.accounts[account]?.getD {}
          if badSignature C verified .valid account b then reject L .badSignature verified none
          else if !sufficientWork C b {} then reject L .insufficientWork verified none
          else accept (changeCommit C now L b h account info) .valid info.balance

def sendCommit (h : SendHashables) (account : Account) (info : AccountInfo) : Option Ledger := do
  let hash := C.blockHash b
  let amount := info.balance-h.balance
  let L := L.weightAdd info.representative (0-amount)
  let L ← L.blockPut hash ⟨b,⟨0,account,h.balance,info.blockCount+1,now,{},.epoch0⟩⟩
  let L ← L.updateAccount account info ⟨hash,info.representative,info.openBlock,h.balance,now,
    info.blockCount+1,.epoch0⟩
  let L := L.pendingPut ⟨h.destination,hash⟩ ⟨account,amount,.epoch0⟩
  let L ← L.frontierDel h.previous
  return L.frontierPut hash account

def sendBlock (h : SendHashables) : Outcome :=
  if L.blockOrPrunedExists (C.blockHash b) then reject L .old verified none
  else match L.blocks[h.previous]? with
    | none => reject L .gapPrevious verified none
    | some previous =>
      if !b.validPredecessor previous.block then reject L .blockPosition verified none
      else
        let account := L.frontierGet h.previous
        if account = 0 then reject L .fork verified none
        else if badSignature C verified .valid account b then reject L .badSignature verified none
        else if !sufficientWork C b {} then reject L .insufficientWork verified none
        else
          let info := L.accounts[account]?.getD {}
          if info.balance < h.balance then reject L .negativeSpend .valid none
          else accept (sendCommit C now L b h account info) .valid info.balance

def receiveCommit (h : ReceiveHashables) (account : Account) (info : AccountInfo)
    (pending : PendingInfo) : Option Ledger := do
  let hash := C.blockHash b
  let newBalance := info.balance+pending.amount
  let L ← L.pendingDel ⟨account,h.source⟩
  let L ← L.blockPut hash ⟨b,⟨0,account,newBalance,info.blockCount+1,now,{},.epoch0⟩⟩
  let L ← L.updateAccount account info ⟨hash,info.representative,info.openBlock,newBalance,now,
    info.blockCount+1,.epoch0⟩
  let L := L.weightAdd info.representative pending.amount
  let L ← L.frontierDel h.previous
  return L.frontierPut hash account

/-- A missing frontier is refused as a fork when the previous block exists,
which it does on this path. -/
def receiveBlock (h : ReceiveHashables) : Outcome :=
  if L.blockOrPrunedExists (C.blockHash b) then reject L .old verified none
  else match L.blocks[h.previous]? with
    | none => reject L .gapPrevious verified none
    | some previous =>
      if !b.validPredecessor previous.block then reject L .blockPosition verified none
      else
        let account := L.frontierGet h.previous
        if account = 0 then
          reject L (if L.blocks.contains h.previous then .fork else .gapPrevious) verified none
        else if badSignature C verified .valid account b then reject L .badSignature verified none
        else if !L.blockOrPrunedExists h.source then reject L .gapSource .valid none
        else
          let info := L.accounts[account]?.getD {}
          if info.head ≠ h.previous then reject L .gapPrevious .valid none
          else match L.pending[(⟨account,h.source⟩ : PendingKey)]? with
            | none => reject L .unreceivable .valid none
            | some pending =>
              if pending.epoch ≠ .epoch0 then reject L .unreceivable .valid none
              else if !sufficientWork C b {} then reject L .insufficientWork .valid none
              else accept (receiveCommit C now L b h account info pending) .valid info.balance

def openCommit (h : OpenHashables) (pending : PendingInfo) : Option Ledger := do
  let hash := C.blockHash b
  let L ← L.pendingDel ⟨h.account,h.source⟩
  let L ← L.blockPut hash ⟨b,⟨0,h.account,pending.amount,1,now,{},.epoch0⟩⟩
  let L ← L.updateAccount h.account {} ⟨hash,h.representative,hash,pending.amount,now,1,.epoch0⟩
  let L := L.weightAdd h.representative pending.amount
  return L.frontierPut hash h.account

def openBlock (h : OpenHashables) : Outcome :=
  if L.blockOrPrunedExists (C.blockHash b) then reject L .old verified none
  else if badSignature C verified .valid h.account b then reject L .badSignature verified none
  else if !L.blockOrPrunedExists h.source then reject L .gapSource .valid none
  else if L.accounts.contains h.account then reject L .fork .valid none
  else match L.pending[(⟨h.account,h.source⟩ : PendingKey)]? with
    | none => reject L .unreceivable .valid none
    | some pending =>
      if h.account = Constants.burnAccount then reject L .openedBurnAccount .valid none
      else if pending.epoch ≠ .epoch0 then reject L .unreceivable .valid none
      else if !sufficientWork C b {} then reject L .insufficientWork .valid none
      else accept (openCommit C now L b h pending) .valid 0

end

def visit (now : ℕ) (L : Ledger) (b : Block) (verified : SignatureVerification) : Outcome :=
  match b.hashables with
  | .send h => sendBlock C now L b verified h
  | .receive h => receiveBlock C now L b verified h
  | .open_ h => openBlock C now L b verified h
  | .change h => changeBlock C now L b verified h
  | .state h => stateBlock C now L b h verified

def process (now : ℕ) (L : Ledger) (b : Block) (verified : SignatureVerification) : Outcome := do
  let (result,L) ← visit C now L b verified
  if result.code = .progress then
    return (result,{ L with cache.blockCount := L.cache.blockCount+1 })
  else return (result,L)

end Vxldollar.Process
