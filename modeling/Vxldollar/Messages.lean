import Vxldollar.Blocks
import Vxldollar.Library.Wire

/-!
# Messages

The messages nodes exchange, how they are written and read, and the length of
the payload as the header tells it. Words that are kept as bytes in memory are
written as they are, which is the most significant byte first; other numbers are
written in the order of a little-endian host unless the source converts them.
The digest a published block is filtered by is not part of the message.
-/

namespace Vxldollar.Messages
open Wire Blocks

structure NetworkConstants where
  currentNetwork : BitVec 16
  protocolVersion : BitVec 8
  protocolVersionMin : BitVec 8

inductive MessageType where
  | invalid
  | notAType
  | keepalive
  | publish
  | confirmReq
  | confirmAck
  | bulkPull
  | bulkPush
  | frontierReq
  | nodeIdHandshake
  | bulkPullAccount
  | telemetryReq
  | telemetryAck
  deriving DecidableEq, Repr

namespace MessageType

def value : MessageType → BitVec 8
  | .invalid => 0x00
  | .notAType => 0x01
  | .keepalive => 0x02
  | .publish => 0x03
  | .confirmReq => 0x04
  | .confirmAck => 0x05
  | .bulkPull => 0x06
  | .bulkPush => 0x07
  | .frontierReq => 0x08
  | .nodeIdHandshake => 0x0a
  | .bulkPullAccount => 0x0b
  | .telemetryReq => 0x0c
  | .telemetryAck => 0x0d

def all : List MessageType := [.invalid,.notAType,.keepalive,.publish,.confirmReq,.confirmAck,
  .bulkPull,.bulkPush,.frontierReq,.nodeIdHandshake,.bulkPullAccount,.telemetryReq,.telemetryAck]

def ofValue (v : BitVec 8) : Option MessageType := all.find? (fun t => t.value == v)

end MessageType

def invalidType : BitVec 16 := 0

def notABlock : BitVec 16 := 1

def typeValue : BlockType → BitVec 16
  | .send => 2
  | .receive => 3
  | .open_ => 4
  | .change => 5
  | .state => 6

def typeOf (v : BitVec 16) : Option BlockType :=
  [.send,.receive,.open_,.change,.state].find? (fun t => typeValue t == v)

def writeBlock (b : Block) : Bytes := match b.hashables with
  | .send h => [big h.previous,big h.destination,big h.balance,big b.signature,
      little b.work].flatten
  | .receive h => [big h.previous,big h.source,big b.signature,little b.work].flatten
  | .open_ h => [big h.source,big h.representative,big h.account,big b.signature,
      little b.work].flatten
  | .change h => [big h.previous,big h.representative,big b.signature,little b.work].flatten
  -- only state blocks convert the work
  | .state h => [big h.account,big h.previous,big h.representative,big h.balance,big h.link,
      big b.signature,big b.work].flatten

def readBlock : BlockType → Reader Block
  | .send => do
    let previous ← readBig 256
    let destination ← readBig 256
    let balance ← readBig 128
    let signature ← readBig 512
    let work ← readLittle 64
    pure ⟨.send ⟨previous,destination,balance⟩,signature,work⟩
  | .receive => do
    let previous ← readBig 256
    let source ← readBig 256
    let signature ← readBig 512
    let work ← readLittle 64
    pure ⟨.receive ⟨previous,source⟩,signature,work⟩
  | .open_ => do
    let source ← readBig 256
    let representative ← readBig 256
    let account ← readBig 256
    let signature ← readBig 512
    let work ← readLittle 64
    pure ⟨.open_ ⟨source,representative,account⟩,signature,work⟩
  | .change => do
    let previous ← readBig 256
    let representative ← readBig 256
    let signature ← readBig 512
    let work ← readLittle 64
    pure ⟨.change ⟨previous,representative⟩,signature,work⟩
  | .state => do
    let account ← readBig 256
    let previous ← readBig 256
    let representative ← readBig 256
    let balance ← readBig 128
    let link ← readBig 256
    let signature ← readBig 512
    let work ← readBig 64
    pure ⟨.state ⟨account,previous,representative,balance,link⟩,signature,work⟩

def deserializeBlock (type : BitVec 16) : Reader Block := match typeOf type with
  | some t => readBlock t
  | none => failure

def blockSize (type : BitVec 16) : ℕ := match typeOf type with
  | some .send => 32+32+16+64+8
  | some .receive => 32+32+64+8
  | some .change => 32+32+64+8
  | some .open_ => 32+32+32+64+8
  | some .state => 32+32+32+16+32+64+8
  | none => 0

structure Header where
  network : BitVec 16
  versionMax : BitVec 8
  versionUsing : BitVec 8
  versionMin : BitVec 8
  type : BitVec 8
  extensions : BitVec 16 := 0
  deriving DecidableEq, Repr

def blockTypeMask : BitVec 16 := 0x0f00
def countMask : BitVec 16 := 0xf000
def telemetrySizeMask : BitVec 16 := 0x3ff

namespace Header

def make (N : NetworkConstants) (type : MessageType) : Header where
  network := N.currentNetwork
  versionMax := N.protocolVersion
  versionUsing := N.protocolVersion
  versionMin := N.protocolVersionMin
  type := type.value

variable (h : Header)

def serialize : Bytes := [big h.network,little h.versionMax,little h.versionUsing,
  little h.versionMin,little h.type,little h.extensions].flatten

def deserialize : Reader Header := do
  let network ← readBig 16
  let versionMax ← readLittle 8
  let versionUsing ← readLittle 8
  let versionMin ← readLittle 8
  let type ← readLittle 8
  let extensions ← readLittle 16
  pure ⟨network,versionMax,versionUsing,versionMin,type,extensions⟩

def size : ℕ := 8

def blockType : BitVec 16 := (h.extensions &&& blockTypeMask) >>> 8

def blockTypeSet (type : BitVec 16) : Header :=
  { h with extensions := (h.extensions &&& ~~~blockTypeMask) ||| (type <<< 8) }

def countGet : ℕ := ((h.extensions &&& countMask) >>> 12).toNat

def countSet (count : ℕ) : Header := { h with
  extensions := (h.extensions &&& ~~~countMask) ||| (BitVec.ofNat 16 (count % 2^8) <<< 12) }

def flagSet (flag : ℕ) : Header :=
  { h with extensions := h.extensions ||| ((1 : BitVec 16) <<< flag) }

def bulkPullCountPresentFlag : ℕ := 0
def frontierReqOnlyConfirmed : ℕ := 1
def nodeIdHandshakeQueryFlag : ℕ := 0
def nodeIdHandshakeResponseFlag : ℕ := 1

def bulkPullIsCountPresent : Bool :=
  h.type == MessageType.bulkPull.value && h.extensions.getLsbD bulkPullCountPresentFlag

def nodeIdHandshakeIsQuery : Bool :=
  h.type == MessageType.nodeIdHandshake.value && h.extensions.getLsbD nodeIdHandshakeQueryFlag

def nodeIdHandshakeIsResponse : Bool :=
  h.type == MessageType.nodeIdHandshake.value && h.extensions.getLsbD nodeIdHandshakeResponseFlag

end Header

def confirmReqSize (type : BitVec 16) (count : ℕ) : ℕ :=
  if type ≠ invalidType ∧ type ≠ notABlock then blockSize type
  else if type = notABlock then count*(32+32) else 0

def confirmAckSize (type : BitVec 16) (count : ℕ) : ℕ :=
  (32+64+8)+(if type ≠ invalidType ∧ type ≠ notABlock then blockSize type
    else if type = notABlock then count*32 else 0)

def nodeIdHandshakeSize (h : Header) : ℕ :=
  (if h.nodeIdHandshakeIsQuery then 32 else 0)+(if h.nodeIdHandshakeIsResponse then 32+64 else 0)

def telemetryAckSize (h : Header) : ℕ := (h.extensions &&& telemetrySizeMask).toNat

def Header.typedLength (h : Header) : MessageType → ℕ
  | .bulkPull => 32+32+(if h.bulkPullIsCountPresent then 8 else 0)
  | .bulkPush | .telemetryReq => 0
  | .frontierReq => 32+4+4
  | .bulkPullAccount => 32+16+1
  | .keepalive => 8*(16+2)
  | .publish => blockSize h.blockType
  | .confirmAck => confirmAckSize h.blockType h.countGet
  | .confirmReq => confirmReqSize h.blockType h.countGet
  | .nodeIdHandshake => nodeIdHandshakeSize h
  | .telemetryAck => telemetryAckSize h
  | .invalid | .notAType => 0

def Header.payloadLengthBytes (h : Header) : ℕ := match MessageType.ofValue h.type with
  | some t => h.typedLength t
  | none => 0

/-- A vote is for blocks or for hashes. -/
structure Vote where
  timestamp : BitVec 64
  blocks : List (Block ⊕ BlockHash)
  account : Account
  signature : Signature
  deriving DecidableEq, Repr

def writeEntry (C : Constants) (type : BitVec 16) : Block ⊕ BlockHash → Bytes
  | .inr hash => big hash
  | .inl b => if type = notABlock then big (C.blockHash b) else writeBlock b

def Vote.serialize (C : Constants) (v : Vote) (type : BitVec 16) : Bytes :=
  [big v.account,big v.signature,little v.timestamp,v.blocks.flatMap (writeEntry C type)].flatten

def readEntry (type : BitVec 16) : Reader (Block ⊕ BlockHash) :=
  if type = notABlock then do
    let hash ← readBig 256
    pure (.inr hash)
  else do
    let b ← deserializeBlock type
    pure (.inl b)

/-- The entries go on to the end of the stream; there has to be one. -/
def Vote.deserialize (type : BitVec 16) : Reader Vote := do
  let account ← readBig 256
  let signature ← readBig 512
  let timestamp ← readLittle 64
  let blocks ← readAll (readEntry type)
  if blocks = [] then failure else pure ⟨timestamp,blocks,account,signature⟩

structure TelemetryData where
  signature : Signature := 0
  nodeId : Account := 0
  blockCount : BitVec 64 := 0
  cementedCount : BitVec 64 := 0
  uncheckedCount : BitVec 64 := 0
  accountCount : BitVec 64 := 0
  bandwidthCap : BitVec 64 := 0
  uptime : BitVec 64 := 0
  peerCount : BitVec 32 := 0
  protocolVersion : BitVec 8 := 0
  genesisBlock : BlockHash := 0
  majorVersion : BitVec 8 := 0
  minorVersion : BitVec 8 := 0
  patchVersion : BitVec 8 := 0
  preReleaseVersion : BitVec 8 := 0
  maker : BitVec 8 := 0
  /-- The nanoseconds of the system clock, signed. -/
  timestamp : BitVec 64 := 0
  activeDifficulty : BitVec 64 := 0
  unknownData : Bytes := []
  deriving DecidableEq, Repr

namespace TelemetryData

def size : ℕ := 64+32+8+8+8+8+8+4+1+8+32+1+1+1+1+1+8+8

def milliseconds (d : TelemetryData) : BitVec 64 := d.timestamp.sdiv 1000000

def serializeWithoutSignature (d : TelemetryData) : Bytes :=
  [big d.nodeId,big d.blockCount,big d.cementedCount,big d.uncheckedCount,big d.accountCount,
    big d.bandwidthCap,big d.peerCount,little d.protocolVersion,big d.uptime,big d.genesisBlock,
    little d.majorVersion,little d.minorVersion,little d.patchVersion,little d.preReleaseVersion,
    little d.maker,big d.milliseconds,big d.activeDifficulty,d.unknownData].flatten

def serialize (d : TelemetryData) : Bytes := [big d.signature,d.serializeWithoutSignature].flatten

/-- A longer payload ends with data of a later version. -/
def readUnknown (payloadLength : ℕ) : Reader Bytes :=
  if size < payloadLength then take (payloadLength-size) else pure []

def deserialize (payloadLength : ℕ) : Reader TelemetryData := do
  let signature ← readBig 512
  let nodeId ← readBig 256
  let blockCount ← readBig 64
  let cementedCount ← readBig 64
  let uncheckedCount ← readBig 64
  let accountCount ← readBig 64
  let bandwidthCap ← readBig 64
  let peerCount ← readBig 32
  let protocolVersion ← readLittle 8
  let uptime ← readBig 64
  let genesisBlock ← readBig 256
  let majorVersion ← readLittle 8
  let minorVersion ← readLittle 8
  let patchVersion ← readLittle 8
  let preReleaseVersion ← readLittle 8
  let maker ← readLittle 8
  let timestamp ← readBig 64
  let activeDifficulty ← readBig 64
  let unknownData ← readUnknown payloadLength
  pure {
    signature, nodeId, blockCount, cementedCount, uncheckedCount, accountCount, bandwidthCap,
    uptime, peerCount, protocolVersion, genesisBlock, majorVersion, minorVersion, patchVersion,
    preReleaseVersion, maker, timestamp := timestamp*1000000, activeDifficulty, unknownData }

end TelemetryData
structure Endpoint where
  address : BitVec 128
  port : BitVec 16
  deriving DecidableEq, Repr

def writeEndpoint (e : Endpoint) : Bytes := [big e.address,little e.port].flatten

def readEndpoint : Reader Endpoint := do
  let address ← readBig 128
  let port ← readLittle 16
  pure ⟨address,port⟩

inductive Payload where
  | keepalive (peers : List.Vector Endpoint 8)
  | publish (block : Block)
  | confirmReq (block : Option Block) (rootsHashes : List (BlockHash × Root))
  | confirmAck (vote : Vote)
  | bulkPull (start finish : BitVec 256) (count : BitVec 32)
  | bulkPush
  | frontierReq (start : Account) (age count : BitVec 32)
  | nodeIdHandshake (query : Option (BitVec 256)) (response : Option (Account × Signature))
  | bulkPullAccount (account : Account) (minimumAmount : Amount) (flags : BitVec 8)
  | telemetryReq
  | telemetryAck (data : TelemetryData)
  deriving DecidableEq

structure Message where
  header : Header
  payload : Payload
  deriving DecidableEq

def writePair (p : BlockHash × Root) : Bytes := [big p.1,big p.2].flatten

def readPair : Reader (BlockHash × Root) := do
  let hash ← readBig 256
  let root ← readBig 256
  pure (hash,root)

def writeResponse (r : Account × Signature) : Bytes := [big r.1,big r.2].flatten

/-- The bytes after the header. A null block cannot be written. -/
def Message.body (C : Constants) (m : Message) : Option Bytes := match m.payload with
  | .keepalive peers => some (peers.toList.flatMap writeEndpoint)
  | .publish b => some (writeBlock b)
  | .confirmReq block rootsHashes =>
    if m.header.blockType = notABlock then some (rootsHashes.flatMap writePair)
    else block.map writeBlock
  | .confirmAck v => some (v.serialize C m.header.blockType)
  | .bulkPull start finish count =>
    some [big start,big finish,
      -- the count stands in the middle of its parameters
      if m.header.extensions.getLsbD Header.bulkPullCountPresentFlag then
        [0]++little count++[0,0,0] else []].flatten
  | .bulkPush | .telemetryReq => some []
  | .frontierReq start age count => some [big start,little age,little count].flatten
  | .nodeIdHandshake query response =>
    some [(query.map big).getD [],(response.map writeResponse).getD []].flatten
  | .bulkPullAccount account minimumAmount flags =>
    some [big account,big minimumAmount,little flags].flatten
  | .telemetryAck data => some (if telemetryAckSize m.header ≠ 0 then data.serialize else [])

def Message.serialize (C : Constants) (m : Message) : Option Bytes :=
  (m.body C).map fun body => m.header.serialize++body

/-- The uniquers may put a value that they know in the place of what was read; none is
given by default. -/
structure Uniquers where
  block : Block → Block := id
  vote : Vote → Vote := id

def readConfirmReq (U : Uniquers) (h : Header) : Reader Payload :=
  if h.blockType = notABlock then do
    let pairs ← readCount readPair h.countGet
    let rootsHashes := pairs.filter fun p => p.1 ≠ 0 || p.2 ≠ 0
    if rootsHashes = [] ∨ rootsHashes.length ≠ h.countGet then failure
    else pure (.confirmReq none rootsHashes)
  else do
    let b ← deserializeBlock h.blockType
    pure (.confirmReq (some (U.block b)) [])

def readBulkPull (h : Header) : Reader Payload := do
  let start ← readBig 256
  let finish ← readBig 256
  if h.extensions.getLsbD Header.bulkPullCountPresentFlag then do
    let front ← readLittle 8
    let count ← readLittle 32
    let _ ← take 3
    if front ≠ 0 then failure else pure (.bulkPull start finish count)
  else pure (.bulkPull start finish 0)

def readResponse : Reader (Account × Signature) := do
  let account ← readBig 256
  let signature ← readBig 512
  pure (account,signature)

def readHandshake (h : Header) : Reader Payload := do
  let query ← readOptional h.nodeIdHandshakeIsQuery (readBig 256)
  let response ← readOptional h.nodeIdHandshakeIsResponse readResponse
  pure (.nodeIdHandshake query response)

def readTyped (U : Uniquers) (h : Header) : MessageType → Reader Payload
  | .keepalive => do
    let peers ← readVector readEndpoint 8
    pure (.keepalive peers)
  | .publish => do
    let b ← deserializeBlock h.blockType
    pure (.publish (U.block b))
  | .confirmReq => readConfirmReq U h
  | .confirmAck => do
    let v ← Vote.deserialize h.blockType
    pure (.confirmAck (U.vote v))
  | .bulkPull => readBulkPull h
  | .bulkPush => pure .bulkPush
  | .frontierReq => do
    let start ← readBig 256
    let age ← readLittle 32
    let count ← readLittle 32
    pure (.frontierReq start age count)
  | .nodeIdHandshake => readHandshake h
  | .bulkPullAccount => do
    let account ← readBig 256
    let minimumAmount ← readBig 128
    let flags ← readLittle 8
    pure (.bulkPullAccount account minimumAmount flags)
  | .telemetryReq => pure .telemetryReq
  | .telemetryAck =>
    if telemetryAckSize h ≠ 0 then do
      let data ← TelemetryData.deserialize h.extensions.toNat
      pure (.telemetryAck data)
    else pure (.telemetryAck {})
  | .invalid | .notAType => failure

def readPayload (U : Uniquers) (h : Header) : Reader Payload :=
  match MessageType.ofValue h.type with
  | some t => readTyped U h t
  | none => failure

def Message.deserialize (U : Uniquers) : Reader Message := do
  let h ← Header.deserialize
  let p ← readPayload U h
  pure ⟨h,p⟩

/-- The hash and the signature check of the libraries; the check returns true on a bad
signature. -/
structure Crypto where
  blake2b : Bytes → BlockHash
  validateMessage : Account → Bytes → Signature → Bool

def votePrefix : Bytes := [0x76,0x6f,0x74,0x65,0x20]

variable (K : Crypto) (C : Constants)

def entryHash : Block ⊕ BlockHash → BlockHash
  | .inl b => C.blockHash b
  | .inr hash => hash

def Vote.hash (v : Vote) : BlockHash :=
  let plain := v.blocks.length ≤ 1 ∧ (v.blocks.head?.all Sum.isLeft) = true
  K.blake2b ((if plain then [] else votePrefix)++
    (v.blocks.flatMap fun e => big (entryHash C e))++little v.timestamp)

def Vote.validate (v : Vote) : Bool :=
  K.validateMessage v.account (big (v.hash K C)) v.signature

def TelemetryData.validateSignature (d : TelemetryData) : Bool :=
  K.validateMessage d.nodeId d.serializeWithoutSignature d.signature

def Payload.signed : Payload → Bool
  | .confirmAck v => !v.validate K C
  | .telemetryAck d => !d.validateSignature K
  | _ => false

end Vxldollar.Messages
