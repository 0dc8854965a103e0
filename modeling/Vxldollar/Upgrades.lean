import Vxldollar.Library.Cursors
import Vxldollar.Runs

/-!
# Upgrades of the block tables

Databases of version 17 keep each block type in a table of its own, with a sideband
that has no source epoch and whose details hold the epoch only. Version 18 adds
what a state block does, computed from the balance before it; version 19 merges
the tables into one and adds the source epoch. The tables of a reachable ledger
become its block table, with the details `process` gave to each block. The tables
of accounts and pending entries are not touched.
-/

namespace Vxldollar.Upgrades
open Std Blocks

structure SidebandV18 where
  successor : BlockHash := 0
  account : Account := 0
  balance : Amount := 0
  height : ℕ := 0
  timestamp : ℕ := 0
  details : BlockDetails := {}
  deriving DecidableEq, Repr

def SidebandV18.storedState (s : SidebandV18) : SidebandV18 := {
  successor := s.successor, height := s.height, timestamp := s.timestamp, details := s.details }

structure RecordV18 (H : Type) where
  hashables : H
  signature : Signature
  work : Work
  sideband : SidebandV18
  deriving DecidableEq, Repr

variable {H : Type}

def RecordV18.block (kind : H → Hashables) (o : RecordV18 H) : Block :=
  ⟨kind o.hashables,o.signature,o.work⟩

def RecordV18.read (kind : H → Hashables) (o : RecordV18 H) : StoredBlock where
  block := o.block kind
  sideband := ⟨o.sideband.successor,o.sideband.account,o.sideband.balance,o.sideband.height,
    o.sideband.timestamp,o.sideband.details,.epoch0⟩

structure Tables where
  state : ExtTreeMap BlockHash (RecordV18 StateHashables) := ∅
  send : ExtTreeMap BlockHash (RecordV18 SendHashables) := ∅
  receive : ExtTreeMap BlockHash (RecordV18 ReceiveHashables) := ∅
  open_ : ExtTreeMap BlockHash (RecordV18 OpenHashables) := ∅
  change : ExtTreeMap BlockHash (RecordV18 ChangeHashables) := ∅

namespace Tables
variable (D : Tables)

def blockGetV18 (h : BlockHash) : Option StoredBlock :=
  D.state[h]?.map (RecordV18.read .state) <|> D.send[h]?.map (RecordV18.read .send) <|>
    D.receive[h]?.map (RecordV18.read .receive) <|> D.open_[h]?.map (RecordV18.read .open_) <|>
    D.change[h]?.map (RecordV18.read .change)

/-- A missing block fails an assertion. -/
def blockBalanceV18 (h : BlockHash) : Option Amount :=
  (D.blockGetV18 h).map StoredBlock.balanceCalculated

end Tables

variable (C : Constants)

def detailsOf (h : StateHashables) (prevBalance : Amount) (epoch : Epoch) : BlockDetails :=
  if h.balance = prevBalance ∧ C.isEpochLink h.link = true then ⟨epoch,false,false,true⟩
  else if h.balance < prevBalance then ⟨epoch,true,false,false⟩
  else if h.link ≠ 0 then ⟨epoch,false,true,false⟩
  else ⟨epoch,false,false,false⟩

def RecordV18.flagged (o : RecordV18 StateHashables) (prevBalance : Amount) :
    RecordV18 StateHashables :=
  { o with sideband := SidebandV18.storedState { o.sideband with
    details := detailsOf C o.hashables prevBalance o.sideband.details.epoch } }

def upgradeRecord (D : Tables) (o : RecordV18 StateHashables) :
    Option (RecordV18 StateHashables) :=
  if o.hashables.previous ≠ 0 then (D.blockBalanceV18 o.hashables.previous).map (o.flagged C)
  else some (o.flagged C 0)

/-- The cursor is at a key of the state table and replaces its value. -/
def upgradeAt (D : Tables) (h : BlockHash) : Option Tables := do
  let o ← D.state[h]?
  let o' ← upgradeRecord C D o
  some { D with state := D.state.insert h o' }

def upgradeV17ToV18 (D : Tables) : Option Tables := do
  let D' ← D.state.keys.foldlM (upgradeAt C) D
  if D.state.size = D'.state.size then some D' else none

def legacyRecord (kind : H → Hashables) (o : RecordV18 H) : StoredBlock where
  block := o.block kind
  sideband := ⟨o.sideband.successor,o.sideband.account,o.sideband.balance,o.sideband.height,
    o.sideband.timestamp,⟨.epoch0,false,false,false⟩,.epoch0⟩

def sourceEpochV19 (D : Tables) (o : RecordV18 StateHashables) : Epoch :=
  if o.sideband.details.isReceive then
    match D.state[o.hashables.link]? with
    | some source => source.sideband.details.epoch
    | none => .epoch0
  else .epoch0

def stateRecord (D : Tables) (o : RecordV18 StateHashables) : StoredBlock where
  block := o.block .state
  sideband := ⟨o.sideband.successor,o.sideband.account,o.sideband.balance,o.sideband.height,
    o.sideband.timestamp,o.sideband.details,sourceEpochV19 D o⟩

def written (r : StoredBlock) : StoredBlock := ⟨r.block,r.sideband.stored r.block.type⟩

def entries {V W : Type} (f : V → W) (t : ExtTreeMap BlockHash V) : List (BlockHash × W) :=
  t.toList.map fun e => (e.1,f e.2)

def legacyOpenReceiveChange (D : Tables) : ExtTreeMap BlockHash StoredBlock :=
  Cursors.insertAll (Cursors.insertAll (Cursors.insertAll ∅
    (entries (legacyRecord .change) D.change)) (entries (legacyRecord .open_) D.open_))
    (entries (legacyRecord .receive) D.receive)

/-- `first` compares the bytes of two values. The sideband of a send is written in the old
format, which is the same for this type. -/
def upgradeV18ToV19 (first : StoredBlock → StoredBlock → Bool) (D : Tables) :
    Option (ExtTreeMap BlockHash StoredBlock) := do
  let countPre := D.state.size+D.send.size+D.receive.size+D.change.size+D.open_.size
  let openReceiveChange ← Cursors.appendAll (entries written (legacyOpenReceiveChange D))
  let send ← Cursors.appendAll (entries (fun o => written (legacyRecord .send o)) D.send)
  let allLegacy ← Cursors.appendAll (Cursors.merge first openReceiveChange.toList send.toList)
  let state ← Cursors.appendAll (entries (fun o => written (stateRecord D o)) D.state)
  let blocks ← Cursors.appendAll (Cursors.merge first allLegacy.toList state.toList)
  if countPre = blocks.size then some blocks else none

end Vxldollar.Upgrades
