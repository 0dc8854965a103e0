import Mathlib.Data.BitVec
import Mathlib.Data.Nat.Notation

/-!
# Blocks, sidebands and network constants

The five block types with their hashed fields, the sideband stored beside a
block, and the constants of one network. Accounts, block hashes, links and
roots are the same 256-bit words in the source and are reinterpreted freely.
The hash, the signature check and the work value are functions of libraries
outside the repository, so they are fields of the constants.
-/

namespace Vxldollar.Blocks

abbrev Account := BitVec 256
abbrev BlockHash := BitVec 256
abbrev Link := BitVec 256
abbrev Root := BitVec 256
abbrev Amount := BitVec 128
abbrev Signature := BitVec 512
abbrev Work := BitVec 64

instance : Std.TransOrd BlockHash := inferInstance
instance : LawfulBEq BlockHash := inferInstance

-- without it the words themselves are enumerated
instance (priority := 2000) {p : BlockHash → Prop} [DecidablePred p] (l : List BlockHash) :
    Decidable (∀ h ∈ l, p h) := List.decidableBAll p l

inductive Epoch where
  | invalid
  | unspecified
  | epoch0
  | epoch1
  | epoch2
  deriving DecidableEq, Repr

def Epoch.value : Epoch → ℕ
  | .invalid => 0
  | .unspecified => 1
  | .epoch0 => 2
  | .epoch1 => 3
  | .epoch2 => 4

def Epoch.max (a b : Epoch) : Epoch := if a.value < b.value then b else a

def isSequential (epoch newEpoch : Epoch) : Bool :=
  decide (epoch.value ≥ Epoch.epoch0.value) && decide (newEpoch.value = epoch.value+1)

structure SendHashables where
  previous : BlockHash
  destination : Account
  balance : Amount
  deriving DecidableEq, Repr

structure ReceiveHashables where
  previous : BlockHash
  source : BlockHash
  deriving DecidableEq, Repr

structure OpenHashables where
  source : BlockHash
  representative : Account
  account : Account
  deriving DecidableEq, Repr

structure ChangeHashables where
  previous : BlockHash
  representative : Account
  deriving DecidableEq, Repr

structure StateHashables where
  account : Account
  previous : BlockHash
  representative : Account
  balance : Amount
  link : Link
  deriving DecidableEq, Repr

inductive Hashables where
  | send (h : SendHashables)
  | receive (h : ReceiveHashables)
  | open_ (h : OpenHashables)
  | change (h : ChangeHashables)
  | state (h : StateHashables)
  deriving DecidableEq, Repr

inductive BlockType where
  | send
  | receive
  | open_
  | change
  | state
  deriving DecidableEq, Repr

structure QualifiedRoot where
  root : Root
  previous : BlockHash
  deriving DecidableEq, Repr

namespace Hashables

def type : Hashables → BlockType
  | .send _ => .send
  | .receive _ => .receive
  | .open_ _ => .open_
  | .change _ => .change
  | .state _ => .state

def account : Hashables → Account
  | .open_ h => h.account
  | .state h => h.account
  | _ => 0

def previous : Hashables → BlockHash
  | .send h => h.previous
  | .receive h => h.previous
  | .open_ _ => 0
  | .change h => h.previous
  | .state h => h.previous

def source : Hashables → BlockHash
  | .receive h => h.source
  | .open_ h => h.source
  | _ => 0

def destination : Hashables → Account
  | .send h => h.destination
  | _ => 0

def link : Hashables → Link
  | .state h => h.link
  | _ => 0

def representative : Hashables → Account
  | .open_ h => h.representative
  | .change h => h.representative
  | .state h => h.representative
  | _ => 0

def root : Hashables → Root
  | .send h => h.previous
  | .receive h => h.previous
  | .open_ h => h.account
  | .change h => h.previous
  | .state h => if h.previous ≠ 0 then h.previous else h.account

end Hashables

structure Block where
  hashables : Hashables
  signature : Signature
  work : Work
  deriving DecidableEq, Repr

namespace Block

abbrev type (b : Block) : BlockType := b.hashables.type

abbrev account (b : Block) : Account := b.hashables.account

abbrev previous (b : Block) : BlockHash := b.hashables.previous

abbrev source (b : Block) : BlockHash := b.hashables.source

abbrev destination (b : Block) : Account := b.hashables.destination

abbrev link (b : Block) : Link := b.hashables.link

abbrev representative (b : Block) : Account := b.hashables.representative

abbrev root (b : Block) : Root := b.hashables.root

def qualifiedRoot (b : Block) : QualifiedRoot := ⟨b.root,b.previous⟩

/-- Legacy blocks other than `open` follow legacy blocks only. -/
def validPredecessor (b predecessor : Block) : Bool := match b.type with
  | .state => true
  | .open_ => false
  | _ => match predecessor.type with
    | .state => false
    | _ => true

end Block

structure BlockDetails where
  epoch : Epoch := .epoch0
  isSend : Bool := false
  isReceive : Bool := false
  isEpoch : Bool := false
  deriving DecidableEq, Repr

structure Sideband where
  successor : BlockHash := 0
  account : Account := 0
  balance : Amount := 0
  height : ℕ := 0
  timestamp : ℕ := 0
  details : BlockDetails := {}
  sourceEpoch : Epoch := .epoch0
  deriving DecidableEq, Repr

/-- What `deserialize` reads back after `serialize`: each block type stores
only some fields and the others come back as their defaults. -/
def Sideband.stored : BlockType → Sideband → Sideband
  | .send, s => {
      successor := s.successor, account := s.account, height := s.height,
      timestamp := s.timestamp }
  | .receive, s | .change, s => {
      successor := s.successor, account := s.account, balance := s.balance, height := s.height,
      timestamp := s.timestamp }
  | .open_, s => {
      successor := s.successor, balance := s.balance, height := 1, timestamp := s.timestamp }
  | .state, s => {
      successor := s.successor, height := s.height, timestamp := s.timestamp,
      details := s.details, sourceEpoch := s.sourceEpoch }

structure StoredBlock where
  block : Block
  sideband : Sideband
  deriving DecidableEq, Repr

namespace StoredBlock

def accountCalculated (r : StoredBlock) : Account :=
  if r.block.account = 0 then r.sideband.account else r.block.account

def balanceCalculated (r : StoredBlock) : Amount := match r.block.hashables with
  | .open_ _ | .receive _ | .change _ => r.sideband.balance
  | .send h => h.balance
  | .state h => h.balance

def version (r : StoredBlock) : Epoch := match r.block.type with
  | .state => r.sideband.details.epoch
  | _ => .epoch0

def withSuccessor (r : StoredBlock) (h : BlockHash) : StoredBlock :=
  { r with sideband := { r.sideband with successor := h } }

end StoredBlock

structure WorkThresholds where
  epoch1 : BitVec 64
  epoch2 : BitVec 64
  epoch2Receive : BitVec 64
  deriving DecidableEq, Repr

def WorkThresholds.threshold (w : WorkThresholds) (d : BlockDetails) : BitVec 64 :=
  match d.epoch with
  | .epoch2 => if d.isReceive || d.isEpoch then w.epoch2Receive else w.epoch2
  | .epoch1 | .epoch0 => w.epoch1
  | _ => BitVec.allOnes 64

structure EpochInfo where
  signer : Account
  link : Link
  deriving DecidableEq, Repr

def epochLinkV1 : Link := 0x65706f636820763120626c6f636b000000000000000000000000000000000000

def epochLinkV2 : Link := 0x65706f636820763220626c6f636b000000000000000000000000000000000000

/-- One network. `validateMessage` returns true on a bad signature, as the
library does. -/
structure Constants where
  hash : Hashables → BlockHash
  validateMessage : Account → BlockHash → Signature → Bool
  workValue : Root → Work → BitVec 64
  work : WorkThresholds
  genesisAccount : Account
  genesisSignature : Signature
  genesisWork : Work
  epochV2Signer : Account
  finalVotesCanaryAccount : Account
  finalVotesCanaryHeight : ℕ
  genesisAccount_ne_zero : genesisAccount ≠ 0

namespace Constants

variable (C : Constants)

def genesis : Block where
  hashables := .open_ ⟨C.genesisAccount,C.genesisAccount,C.genesisAccount⟩
  signature := C.genesisSignature
  work := C.genesisWork

def genesisHash : BlockHash := C.hash C.genesis.hashables

def genesisAmount : Amount := BitVec.allOnes 128

def burnAccount : Account := 0

def epochs : List (Epoch × EpochInfo) :=
  [(.epoch1,⟨C.genesisAccount,epochLinkV1⟩),(.epoch2,⟨C.epochV2Signer,epochLinkV2⟩)]

def isEpochLink (link : Link) : Bool := C.epochs.any (fun e => e.2.link == link)

/-- `find_if` over the epochs; the end iterator is dereferenced only when no
link matches, which the callers exclude. -/
def epochOfLink (link : Link) : Option Epoch :=
  (C.epochs.find? (fun e => e.2.link == link)).map Prod.fst

def signer (epoch : Epoch) : Option Account :=
  (C.epochs.find? (fun e => e.1 == epoch)).map (fun e => e.2.signer)

def epochSigner (link : Link) : Option Account := (C.epochOfLink link).bind C.signer

def blockHash (b : Block) : BlockHash := C.hash b.hashables

def difficulty (b : Block) : BitVec 64 := C.workValue b.root b.work

end Constants
end Vxldollar.Blocks
