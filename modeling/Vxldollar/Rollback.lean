import Vxldollar.Store
import Vxldollar.Library.Simulation

/-!
# Rolling back a block

`ledger.rollback` and its visitor call each other across accounts. The visitor
takes the recursive call as an argument, and `rollback` ties the knot with a
depth bound; its loops and the visitor's run under the same bound.
-/

namespace Vxldollar.Rollback
open Blocks Store Option Simulation

abbrev RollbackList := List StoredBlock

abbrev Call := Ledger → BlockHash → RollbackList → Option (Bool × Ledger × RollbackList)

variable (C : Constants) (now : ℕ)

/-- The walk of `representative_visitor` down to a block that names a
representative. -/
def representativeCompute (L : Ledger) : ℕ → BlockHash → Option BlockHash
  | 0, _ => none
  | n+1, current => match L.blocks[current]? with
    | none => none
    | some r => match r.block.type with
      | .send | .receive => representativeCompute L n r.block.previous
      | _ => some (C.blockHash r.block)

def representative (L : Ledger) (h : BlockHash) : Option BlockHash :=
  representativeCompute C L ((L.blocks[h]?.map (fun r => r.sideband.height)).getD 0+1) h

section
variable (call : Call) (bound : ℕ)

/-- Roll back the destination's chain, latest block first, until the pending
entry of a send is back. The result is the entry, or none after a failure. -/
def untilPending (key : PendingKey) :
    Ledger × RollbackList → Option ((Ledger × RollbackList) ⊕
      (Option PendingInfo × Ledger × RollbackList))
  | (L,list) => match L.pending[key]? with
    | some pending => some (.inr (some pending,L,list))
    | none => do
      let (error,L,list) ← call L (L.latest key.account) list
      if error then return .inr (none,L,list) else return .inl (L,list)

def sendCommit (L : Ledger) (hash : BlockHash) (h : SendHashables) (pending : PendingInfo) :
    Option Ledger := do
  let info := L.accounts[pending.source]?.getD {}
  let L ← L.pendingDel ⟨h.destination,hash⟩
  let L := L.weightAdd info.representative pending.amount
  let balance ← L.balance h.previous
  let L ← L.updateAccount pending.source info ⟨h.previous,info.representative,info.openBlock,
    balance,now,info.blockCount-1,.epoch0⟩
  let L ← L.blockDel hash
  let L ← L.frontierDel hash
  let L := L.frontierPut h.previous pending.source
  L.successorClear h.previous

def sendBlock (L : Ledger) (list : RollbackList) (b : Block) (h : SendHashables) :
    Option (Bool × Ledger × RollbackList) := do
  let hash := C.blockHash b
  let (pending,L,list) ← Loop.loop (untilPending call ⟨h.destination,hash⟩) bound (L,list)
  match pending with
  | none => return (true,L,list)
  | some pending =>
    let L ← sendCommit now L hash h pending
    return (false,L,list)

def receiveBlock (L : Ledger) (b : Block) (h : ReceiveHashables) : Option Ledger := do
  let hash := C.blockHash b
  let amount ← L.amount hash
  let destinationAccount ← L.account hash
  let sourceAccount ← L.accountSafe h.source
  let info := L.accounts[destinationAccount]?.getD {}
  let L := L.weightAdd info.representative (0-amount)
  let balance ← L.balance h.previous
  let L ← L.updateAccount destinationAccount info ⟨h.previous,info.representative,info.openBlock,
    balance,now,info.blockCount-1,.epoch0⟩
  let L ← L.blockDel hash
  let L := L.pendingPut ⟨destinationAccount,h.source⟩ ⟨sourceAccount,amount,.epoch0⟩
  let L ← L.frontierDel hash
  let L := L.frontierPut h.previous destinationAccount
  L.successorClear h.previous

def openBlock (L : Ledger) (b : Block) (h : OpenHashables) : Option Ledger := do
  let hash := C.blockHash b
  let amount ← L.amount hash
  let destinationAccount ← L.account hash
  let sourceAccount ← L.accountSafe h.source
  let L := L.weightAdd h.representative (0-amount)
  let L ← L.updateAccount destinationAccount {} {}
  let L ← L.blockDel hash
  let L := L.pendingPut ⟨destinationAccount,h.source⟩ ⟨sourceAccount,amount,.epoch0⟩
  L.frontierDel hash

def changeBlock (L : Ledger) (b : Block) (h : ChangeHashables) : Option Ledger := do
  let hash := C.blockHash b
  let repBlock ← representative C L h.previous
  let account ← L.account h.previous
  let info := L.accounts[account]?.getD {}
  let balance ← L.balance h.previous
  let block ← L.blocks[repBlock]?
  let representative := block.block.representative
  let L := L.weightAddDual h.representative (0-balance) representative balance
  let L ← L.blockDel hash
  let L ← L.updateAccount account info ⟨h.previous,representative,info.openBlock,info.balance,now,
    info.blockCount-1,.epoch0⟩
  let L ← L.frontierDel hash
  let L := L.frontierPut h.previous account
  L.successorClear h.previous

def stateRepresentative (L : Ledger) (h : StateHashables) : Option (Option Account) :=
  if h.previous = 0 then some none
  else do
    let repBlock ← representative C L h.previous
    let block ← L.blocks[repBlock]?
    return some block.block.representative

def stateWeights (L : Ledger) (h : StateHashables) (previous : Option Account)
    (balance : Amount) : Ledger := match previous with
  | some representative => L.weightAddDual representative balance h.representative (0-h.balance)
  | none => L.weightAdd h.representative (0-h.balance)

/-- The loop of a state send. It is skipped when the sender's account is
missing, and its failure is forgotten. -/
def stateAwait (key : PendingKey) (L : Ledger) (list : RollbackList) (accountError : Bool) :
    Option (Ledger × RollbackList) :=
  if accountError then some (L,list)
  else (Loop.loop (untilPending call key) bound (L,list)).map Prod.snd

/-- The deletion of a send's entry is not guarded, so that a failure of the
loop aborts there. -/
def statePending (L : Ledger) (list : RollbackList) (r : StoredBlock) (h : StateHashables)
    (accountError : Bool) (balance : Amount) : Option (Ledger × RollbackList) := do
  let hash := C.blockHash r.block
  if h.balance < balance then
    let key : PendingKey := ⟨h.link,hash⟩
    let (L,list) ← stateAwait call bound key L list accountError
    let L ← L.pendingDel key
    return (L,list)
  else if h.link ≠ 0 ∧ ¬ C.isEpochLink h.link then
    let sourceAccount ← L.accountSafe h.link
    return (L.pendingPut ⟨h.account,h.link⟩ ⟨sourceAccount,h.balance-balance,
      r.sideband.sourceEpoch⟩,list)
  else return (L,list)

/-- A legacy predecessor gets its frontier back. -/
def restorePrevious (L : Ledger) (h : StateHashables) : Option Ledger :=
  match L.blocks[h.previous]? with
  | some previous => do
    let L ← L.successorClear h.previous
    return if previous.block.type = .state then L else L.frontierPut h.previous h.account
  | none => some L

def stateCommit (L : Ledger) (hash : BlockHash) (h : StateHashables) (info : AccountInfo)
    (representative : Account) (balance : Amount) : Option Ledger := do
  let L ← L.updateAccount h.account info ⟨h.previous,representative,info.openBlock,balance,now,
    info.blockCount-1,L.version h.previous⟩
  let L ← restorePrevious L h
  L.blockDel hash

def stateBlock (L : Ledger) (list : RollbackList) (r : StoredBlock) (h : StateHashables) :
    Option (Ledger × RollbackList) := do
  let previous ← stateRepresentative C L h
  let balance ← L.balance h.previous
  let L := stateWeights L h previous balance
  let info := L.accounts[h.account]?
  let (L,list) ← statePending C call bound L list r h info.isNone balance
  let L ← stateCommit now L (C.blockHash r.block) h (info.getD {}) (previous.getD 0) balance
  return (L,list)

/-- The error flag belongs to the legacy send alone: the state block's own
flag shadows the visitor's, and the others never fail. -/
def visit (L : Ledger) (list : RollbackList) (r : StoredBlock) :
    Option (Bool × Ledger × RollbackList) := match r.block.hashables with
  | .send h => sendBlock C now call bound L list r.block h
  | .receive h => do return (false,← receiveBlock C now L r.block h,list)
  | .open_ h => do return (false,← openBlock C L r.block h,list)
  | .change h => do return (false,← changeBlock C now L r.block h,list)
  | .state h => do
    let (L,list) ← stateBlock C now call bound L list r h
    return (false,L,list)

/-- One round of the loop of `rollback` on a block of the given account and
height. The account's info keeps its last value when the account is missing. -/
def rollbackRound (block : BlockHash) (account : Account) (height : ℕ) :
    Ledger × RollbackList × AccountInfo →
      Option ((Ledger × RollbackList × AccountInfo) ⊕ (Bool × Ledger × RollbackList))
  | (L,list,accountInfo) =>
    if ¬ L.blocks.contains block then some (.inr (false,L,list))
    else if height > (L.confirmationHeightGet account).height then do
      let accountInfo := L.accounts[account]?.getD accountInfo
      let r ← L.blocks[accountInfo.head]?
      let (error,L,list) ← visit C now call bound L (list++[r]) r
      if error then return .inr (true,L,list)
      else
        let L := { L with cache.blockCount := L.cache.blockCount-1 }
        return .inl (L,list,accountInfo)
    else some (.inr (true,L,list))

end

def rollback : ℕ → Call
  | 0 => fun _ _ _ => none
  | fuel+1 => fun L block list => do
    let account ← L.account block
    let r ← L.blocks[block]?
    Loop.loop (rollbackRound C now (rollback fuel) (fuel+1) block account r.sideband.height)
      (fuel+1) (L,list,{})

variable {C now} {call call' : Call} {bound bound' : ℕ}

/-- `call'` returns whatever `call` returns. -/
def Call.Extends (call call' : Call) : Prop :=
  ∀ L h list, Follows Eq (call L h list) (call' L h list)

theorem untilPending_extends (hc : call.Extends call') (key : PendingKey)
    (s : Ledger × RollbackList) :
    Follows Eq (untilPending call key s) (untilPending call' key s) := by
  obtain ⟨L,list⟩ := s
  unfold untilPending
  dsimp only
  cases L.pending[key]? with
  | some i => exact .of_eq rfl
  | none => exact (hc _ _ _).extend

section
variable (hc : call.Extends call') (hb : bound ≤ bound') (L : Ledger) (list : RollbackList)
include hc hb

theorem sendBlock_extends (b : Block) (h : SendHashables) :
    Follows Eq (sendBlock C now call bound L list b h)
      (sendBlock C now call' bound' L list b h) :=
  (Follows.loop_extends (untilPending_extends hc _) hb _).extend

theorem stateAwait_extends (key : PendingKey) (e : Bool) :
    Follows Eq (stateAwait call bound key L list e) (stateAwait call' bound' key L list e) := by
  refine .ite Iff.rfl (fun _ => .of_eq rfl) fun _ => ?_
  exact (Follows.loop_extends (untilPending_extends hc _) hb _).map
    fun _ _ _ e => congrArg Prod.snd e

theorem statePending_extends (q : StoredBlock) (h : StateHashables) (e : Bool)
    (balance : Amount) : Follows Eq (statePending C call bound L list q h e balance)
      (statePending C call' bound' L list q h e balance) :=
  .ite Iff.rfl (fun _ => (stateAwait_extends hc hb _ _ _ _).extend) fun _ => .of_eq rfl

theorem stateBlock_extends (q : StoredBlock) (h : StateHashables) :
    Follows Eq (stateBlock C now call bound L list q h)
      (stateBlock C now call' bound' L list q h) := by
  refine .read rfl fun rep _ => .read rfl fun balance _ => ?_
  exact (statePending_extends hc hb _ _ _ _ _ _).extend

theorem visit_extends (q : StoredBlock) : Follows Eq (visit C now call bound L list q)
    (visit C now call' bound' L list q) := by
  unfold visit
  cases q.block.hashables with
  | send h => exact sendBlock_extends hc hb L list q.block h
  | receive h => exact .of_eq rfl
  | open_ h => exact .of_eq rfl
  | change h => exact .of_eq rfl
  | state h => exact (stateBlock_extends hc hb L list q h).extend

theorem rollbackRound_extends (block : BlockHash) (account : Account) (height : ℕ)
    (s : Ledger × RollbackList × AccountInfo) :
    Follows Eq (rollbackRound C now call bound block account height s)
      (rollbackRound C now call' bound' block account height s) := by
  obtain ⟨L,list,info⟩ := s
  refine .ite Iff.rfl (fun _ => .of_eq rfl) fun _ => ?_
  refine .ite Iff.rfl (fun _ => .read rfl fun r _ => ?_) fun _ => .of_eq rfl
  exact (visit_extends hc hb L (list++[r]) r).extend

end

theorem rollback_extends {n m : ℕ} (h : n ≤ m) :
    (rollback C now n).Extends (rollback C now m) := by
  induction n generalizing m with
  | zero => exact fun _ _ _ => .none _
  | succ n ih =>
    obtain ⟨k,rfl⟩ : ∃ k, m = k+1 := ⟨m-1,by omega⟩
    intro L block list
    refine .read rfl fun account _ => .read rfl fun r _ => ?_
    exact Follows.loop_extends (rollbackRound_extends (ih (by omega)) h _ _ _) h _

end Vxldollar.Rollback
