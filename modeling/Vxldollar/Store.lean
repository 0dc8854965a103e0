import Vxldollar.Blocks
import Vxldollar.Library.Table

/-!
# The store and the ledger caches

The tables of the store as finite maps, the caches kept beside them, and the
store operations the ledger uses. `none` is a failed `release_assert` or a
null dereference: deleting a missing key, reading a missing block.
-/

namespace Vxldollar.Store
open Std Blocks

structure AccountInfo where
  head : BlockHash := 0
  representative : Account := 0
  openBlock : BlockHash := 0
  balance : Amount := 0
  modified : ℕ := 0
  blockCount : ℕ := 0
  epoch : Epoch := .epoch0
  deriving DecidableEq, Repr

structure PendingKey where
  account : Account
  hash : BlockHash
  deriving DecidableEq, Repr

structure PendingInfo where
  source : Account
  amount : Amount
  epoch : Epoch
  deriving DecidableEq, Repr

structure ConfirmationHeightInfo where
  height : ℕ := 0
  frontier : BlockHash := 0
  deriving DecidableEq, Repr

instance : Ord PendingKey where
  compare a b := compareLex (compareOn PendingKey.account) (compareOn PendingKey.hash) a b

instance : TransOrd PendingKey :=
  inferInstanceAs (TransCmp (compareLex (compareOn PendingKey.account)
    (compareOn PendingKey.hash)))

instance : LawfulEqOrd PendingKey where
  eq_of_compare := by
    rintro ⟨a,x⟩ ⟨b,y⟩ h
    obtain ⟨ha,hx⟩ := Table.compareLex_eq.mp h
    exact congrArg₂ PendingKey.mk ha hx

instance : Ord QualifiedRoot where
  compare a b := compareLex (compareOn QualifiedRoot.root) (compareOn QualifiedRoot.previous) a b

instance : TransOrd QualifiedRoot :=
  inferInstanceAs (TransCmp (compareLex (compareOn QualifiedRoot.root)
    (compareOn QualifiedRoot.previous)))

instance : LawfulEqOrd QualifiedRoot where
  eq_of_compare := by
    rintro ⟨a,x⟩ ⟨b,y⟩ h
    obtain ⟨ha,hx⟩ := Table.compareLex_eq.mp h
    exact congrArg₂ QualifiedRoot.mk ha hx

abbrev RepWeights := ExtTreeMap Account Amount

def representationGet (w : RepWeights) (a : Account) : Amount := w[a]?.getD 0

def representationPut (w : RepWeights) (a : Account) (x : Amount) : RepWeights := w.insert a x

/-- Amounts are added modulo `2^128`, so `0-x` takes `x` away. -/
def representationAdd (w : RepWeights) (a : Account) (x : Amount) : RepWeights :=
  representationPut w a (representationGet w a+x)

def representationAddDual (w : RepWeights) (a : Account) (x : Amount) (b : Account)
    (y : Amount) : RepWeights :=
  if a ≠ b then representationAdd (representationAdd w a x) b y
  else representationAdd w a (x+y)

structure Cache where
  repWeights : RepWeights := ∅
  cementedCount : ℕ := 0
  blockCount : ℕ := 0
  accountCount : ℕ := 0
  finalVotesConfirmationCanary : Bool := false

structure Ledger where
  blocks : ExtTreeMap BlockHash StoredBlock := ∅
  accounts : ExtTreeMap Account AccountInfo := ∅
  frontiers : ExtTreeMap BlockHash Account := ∅
  pending : ExtTreeMap PendingKey PendingInfo := ∅
  confirmationHeight : ExtTreeMap Account ConfirmationHeightInfo := ∅
  pruned : ExtTreeMap BlockHash Unit := ∅
  cache : Cache := {}
  pruning : Bool := false

namespace Ledger

def blockOrPrunedExists (L : Ledger) (h : BlockHash) : Bool :=
  L.pruned.contains h || L.blocks.contains h

def frontierGet (L : Ledger) (h : BlockHash) : Account := L.frontiers[h]?.getD 0

def confirmationHeightGet (L : Ledger) (a : Account) : ConfirmationHeightInfo :=
  L.confirmationHeight[a]?.getD {}

def pendingAny (L : Ledger) (a : Account) : Bool :=
  match Table.lowerBound L.pending ⟨a,0⟩ with
  | some (k,_) => decide (k.account = a)
  | none => false

def balance (L : Ledger) (h : BlockHash) : Option Amount :=
  if h = 0 then some 0 else L.blocks[h]?.map StoredBlock.balanceCalculated

def account (L : Ledger) (h : BlockHash) : Option Account :=
  L.blocks[h]?.map StoredBlock.accountCalculated

/-- With pruning enabled a missing block reads as the zero account. -/
def accountSafe (L : Ledger) (h : BlockHash) : Option Account :=
  if L.pruning then some ((L.account h).getD 0) else L.account h

theorem accountSafe_of_account {L : Ledger} {h : BlockHash} {a : Account}
    (e : L.account h = some a) : L.accountSafe h = some a := by
  rw [accountSafe,e]
  exact ite_self _

def version (L : Ledger) (h : BlockHash) : Epoch :=
  (L.blocks[h]?.map StoredBlock.version).getD .epoch0

def amount (L : Ledger) (h : BlockHash) : Option Amount := do
  let block ← L.blocks[h]?
  let blockBalance ← L.balance h
  let previousBalance ← L.balance block.block.previous
  return if blockBalance > previousBalance then blockBalance-previousBalance
    else previousBalance-blockBalance

def latest (L : Ledger) (a : Account) : BlockHash := (L.accounts[a]?.map AccountInfo.head).getD 0

def blockConfirmed (L : Ledger) (h : BlockHash) : Bool :=
  if L.pruned.contains h then true
  else match L.blocks[h]? with
    | some r => decide ((L.confirmationHeightGet r.accountCalculated).height ≥ r.sideband.height)
    | none => false

/-- Open blocks, and state blocks that open an account, have no predecessor
to fill in. -/
def hasPredecessor (b : Block) : Bool := match b.type with
  | .open_ => false
  | .state => decide (b.previous ≠ 0)
  | _ => true

/-- `block.put`: write the block with its sideband, then fill in its hash as
successor of the previous block. -/
def blockPut (L : Ledger) (hash : BlockHash) (r : StoredBlock) : Option Ledger :=
  let blocks := L.blocks.insert hash ⟨r.block,r.sideband.stored r.block.type⟩
  if hasPredecessor r.block then do
    let p ← blocks[r.block.previous]?
    return { L with blocks := blocks.insert r.block.previous (p.withSuccessor hash) }
  else some { L with blocks := blocks }

def blockDel (L : Ledger) (hash : BlockHash) : Option Ledger := do
  let blocks ← Table.delete L.blocks hash
  return { L with blocks := blocks }

def successorClear (L : Ledger) (hash : BlockHash) : Option Ledger := do
  let p ← L.blocks[hash]?
  return { L with blocks := L.blocks.insert hash (p.withSuccessor 0) }

def frontierPut (L : Ledger) (hash : BlockHash) (a : Account) : Ledger :=
  { L with frontiers := L.frontiers.insert hash a }

def frontierDel (L : Ledger) (hash : BlockHash) : Option Ledger := do
  let frontiers ← Table.delete L.frontiers hash
  return { L with frontiers := frontiers }

def pendingPut (L : Ledger) (k : PendingKey) (i : PendingInfo) : Ledger :=
  { L with pending := L.pending.insert k i }

def pendingDel (L : Ledger) (k : PendingKey) : Option Ledger := do
  let pending ← Table.delete L.pending k
  return { L with pending := pending }

def weightAdd (L : Ledger) (a : Account) (x : Amount) : Ledger :=
  { L with cache.repWeights := representationAdd L.cache.repWeights a x }

def weightAddDual (L : Ledger) (a : Account) (x : Amount) (b : Account) (y : Amount) : Ledger :=
  { L with cache.repWeights := representationAddDual L.cache.repWeights a x b y }

def updateAccount (L : Ledger) (a : Account) (old new : AccountInfo) : Option Ledger :=
  if new.head ≠ 0 then do
    let count := if old.head = 0 ∧ new.openBlock = new.head then L.cache.accountCount+1
      else L.cache.accountCount
    let accounts ← if old.head ≠ 0 ∧ old.epoch ≠ new.epoch then Table.delete L.accounts a
      else some L.accounts
    return { L with accounts := accounts.insert a new, cache.accountCount := count }
  else do
    let accounts ← Table.delete L.accounts a
    return { L with accounts := accounts, cache.accountCount := L.cache.accountCount-1 }

def previousOf (L : Ledger) (h : BlockHash) : BlockHash :=
  (L.blocks[h]?.map (fun r => r.block.previous)).getD 0

end Ledger

def genesisSideband (C : Constants) (now : ℕ) : Sideband where
  account := C.genesisAccount
  balance := Constants.genesisAmount
  height := 1
  timestamp := now

/-- `store.initialize`: the ledger that holds the genesis block alone, already
cemented. -/
def storeInitialize (C : Constants) (now : ℕ) : Ledger where
  blocks := (∅ : ExtTreeMap BlockHash StoredBlock).insert C.genesisHash
    ⟨C.genesis,(genesisSideband C now).stored .open_⟩
  accounts := (∅ : ExtTreeMap Account AccountInfo).insert C.genesisAccount
    ⟨C.genesisHash,C.genesisAccount,C.genesisHash,Constants.genesisAmount,now,1,.epoch0⟩
  frontiers := (∅ : ExtTreeMap BlockHash Account).insert C.genesisHash C.genesisAccount
  confirmationHeight := (∅ : ExtTreeMap Account ConfirmationHeightInfo).insert
    C.genesisAccount ⟨1,C.genesisHash⟩
  cache := {
    repWeights := representationPut ∅ C.genesisAccount Constants.genesisAmount
    cementedCount := 1
    blockCount := 1
    accountCount := 1
    finalVotesConfirmationCanary := decide (C.finalVotesCanaryAccount = C.genesisAccount) &&
      decide (1 ≥ C.finalVotesCanaryHeight) }

end Vxldollar.Store
