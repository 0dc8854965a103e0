import Vxldollar.Cementing

/-!
# The bounded confirmation height processor

A walk up from the lowest uncemented block of a chain stops at the first
receive and goes on with its source. Pending receives and the checkpoints to
return to are kept in ring buffers, which forget their oldest entry when they
are full. The walk is modelled for any capacity of the buffers, the processor
for the one it has. A `none` is undefined behaviour or a failed assertion.
-/

namespace Vxldollar.Bounded
open Std Blocks Store Cementing

structure TopAndNextHash where
  top : BlockHash
  next : Option BlockHash
  nextHeight : ℕ
  deriving DecidableEq, Repr

structure ConfirmedInfo where
  confirmedHeight : ℕ
  iteratedFrontier : BlockHash
  deriving DecidableEq, Repr

structure WriteDetails where
  account : Account
  bottomHeight : ℕ
  bottomHash : BlockHash
  topHeight : ℕ
  topHash : BlockHash
  deriving DecidableEq, Repr

structure ReceiveChainDetails where
  account : Account
  height : ℕ
  hash : BlockHash
  topLevel : BlockHash
  next : Option BlockHash
  bottomHeight : ℕ
  bottomMost : BlockHash
  deriving DecidableEq, Repr

structure ReceiveSourcePair where
  receiveDetails : ReceiveChainDetails
  sourceHash : BlockHash
  deriving DecidableEq, Repr

structure Processor where
  trace : Trace
  pendingWrites : List WriteDetails := []
  accountsConfirmedInfo : ExtTreeMap Account ConfirmedInfo := ∅

def maxItems : ℕ := 131072

def pendingWritesMaxSize : ℕ := maxItems

def pushBack {α : Type} (capacity : ℕ) (x : α) (buffer : List α) : List α :=
  (x :: buffer).take capacity

def clearProcessVars (p : Processor) : Processor := { p with accountsConfirmedInfo := ∅ }

structure Walk where
  processor : Processor
  nextInReceiveChain : Option TopAndNextHash := none
  checkpoints : List BlockHash := []
  receiveSourcePairs : List ReceiveSourcePair := []
  firstIter : Bool := true

/-- The next block of the last receive's chain, the receive closest to
genesis, the last checkpoint, the added block, in this order. -/
def getNextBlock (original : BlockHash) (w : Walk) :
    TopAndNextHash × Option ReceiveChainDetails :=
  match w.nextInReceiveChain,w.receiveSourcePairs,w.checkpoints with
  | some next,_,_ => (next,none)
  | none,pair :: _,_ =>
    (⟨pair.sourceHash,pair.receiveDetails.next,pair.receiveDetails.height+1⟩,
      some pair.receiveDetails)
  | none,[],checkpoint :: _ => (⟨checkpoint,none,0⟩,none)
  | none,[],[] => (⟨original,none,0⟩,none)

def getLeastUnconfirmedHashFromTopLevel (L : Ledger) (hash : BlockHash) (account : Account)
    (info : ConfirmationHeightInfo) (blockHeight : ℕ) : Option (BlockHash × ℕ) :=
  if info.height ≠ 0 then
    if blockHeight > info.height then
      L.blocks[info.frontier]?.map (fun r => (r.sideband.successor,r.sideband.height+1))
    else some (hash,blockHeight)
  else L.accounts[account]?.map (fun i => (i.openBlock,1))

def bottom (L : Ledger) (w : Walk) (target : TopAndNextHash) (r : StoredBlock) (account : Account)
    (info : ConfirmationHeightInfo) : Option (BlockHash × ℕ) :=
  let height := r.sideband.height
  if info.height < height ∧ height-info.height > 1 then
    if height-info.height = 2 then some (r.block.previous,height-1)
    else if w.nextInReceiveChain.isNone then
      getLeastUnconfirmedHashFromTopLevel L target.top account info height
    else target.next.map (fun next => (next,target.nextHeight))
  else some (target.top,height)

section
variable (capacity : ℕ) (C : Constants) (L : Ledger) (account : Account) (topLevel : BlockHash)
  (bottomHeight : ℕ) (bottomHash : BlockHash)

structure Iteration where
  hash : BlockHash
  topMostNonReceive : BlockHash
  checkpoints : List BlockHash
  receiveSourcePairs : List ReceiveSourcePair

/-- A receive is stored with what is to be cemented below it; with a full
buffer a checkpoint is stored. -/
def hitReceive (r : StoredBlock) (source : BlockHash) (s : Iteration) : Iteration :=
  let successor := r.sideband.successor
  let next := if successor ≠ 0 ∧ successor ≠ topLevel then some successor else none
  let pairs := pushBack capacity
    ⟨⟨account,r.sideband.height,s.hash,topLevel,next,bottomHeight,bottomHash⟩,source⟩
    s.receiveSourcePairs
  { s with
    receiveSourcePairs := pairs
    checkpoints := if pairs.length % capacity = 0 then pushBack capacity topLevel s.checkpoints
      else s.checkpoints }

def iterateStep (s : Iteration) : Option (Iteration ⊕ (Bool × Iteration)) :=
  if s.hash = 0 then some (.inr (false,s))
  else L.blocks[s.hash]?.map (fun r => match receiveSource C L r.block with
    | some source =>
      .inr (true,hitReceive capacity account topLevel bottomHeight bottomHash r source s)
    | none =>
      if s.hash = topLevel then .inr (false,{ s with topMostNonReceive := s.hash })
      else .inl { s with topMostNonReceive := s.hash, hash := r.sideband.successor })

def iterate (fuel : ℕ) (s : Iteration) : Option (Bool × Iteration) :=
  Loop.loop (iterateStep capacity C L account topLevel bottomHeight bottomHash) fuel s

end

structure Preparation where
  topMostNonReceive : BlockHash
  alreadyCemented : Bool
  confirmationHeight : ℕ
  account : Account
  bottomHeight : ℕ
  bottomMost : BlockHash

structure Prepared where
  processor : Processor
  checkpoints : List BlockHash
  nextInReceiveChain : Option TopAndNextHash := none

def eraseCheckpoint (checkpoints : List BlockHash) (h : BlockHash) : List BlockHash :=
  checkpoints.filter (fun c => c ≠ h)

def prepareChain (s : Prepared) (d : Preparation) : Option Prepared :=
  if d.alreadyCemented then some s
  else s.processor.trace.ledger.blocks[d.topMostNonReceive]?.map (fun r =>
    let height := r.sideband.height
    if height > d.confirmationHeight then { s with
      checkpoints := eraseCheckpoint s.checkpoints d.topMostNonReceive
      processor := { s.processor with
        accountsConfirmedInfo := s.processor.accountsConfirmedInfo.insert d.account
          ⟨height,d.topMostNonReceive⟩
        pendingWrites := s.processor.pendingWrites ++
          [⟨d.account,d.bottomHeight,d.bottomMost,height,d.topMostNonReceive⟩] } }
    else s)

def prepareReceive (s : Prepared) (receive : ReceiveChainDetails) : Prepared where
  processor := { s.processor with
    accountsConfirmedInfo := s.processor.accountsConfirmedInfo.insert receive.account
      ⟨receive.height,receive.hash⟩
    pendingWrites := s.processor.pendingWrites ++ [⟨receive.account,receive.bottomHeight,
      receive.bottomMost,receive.height,receive.hash⟩] }
  checkpoints := if receive.next.isSome then s.checkpoints
    else eraseCheckpoint s.checkpoints receive.hash
  nextInReceiveChain := if receive.next.isSome
    then some ⟨receive.topLevel,receive.next,receive.height+1⟩ else none

def prepareIteratedBlocksForCementing (s : Prepared) (d : Preparation)
    (receive : Option ReceiveChainDetails) : Option Prepared :=
  (prepareChain s d).map (fun s => match receive with
    | some receive => prepareReceive s receive
    | none => s)

section
variable (env : Environment)

def maximumBatchWriteTime : ℕ := 250

def minimumBatchWriteSize : ℕ := 16384

def word : ℕ := 2^64

def reduce (batch change : ℕ) : ℕ := max minimumBatchWriteSize ((batch+(word-change))%word)

def batchLimit (batch : ℕ) : ℕ := (batch+batch/10)%word

def adjust (batch change time : ℕ) : ℕ :=
  if time > maximumBatchWriteTime then reduce batch change
  else if time < maximumBatchWriteTime-maximumBatchWriteTime/5 then (batch+change)%word
  else batch

/-- The write transaction: what was done so far, the blocks cemented since the
last notification, and whether the write guard is held. -/
structure Batch where
  trace : Trace
  cementedBlocks : List StoredBlock := []
  owned : Bool := true

/-- The counters of a pending write are `int`s, which wrap around. -/
structure Progress where
  batch : Batch
  frontier : BlockHash
  numBlocksIterated : Int32 := 0
  totalBlocksCemented : Int32 := 0

/-- A negative `int` in a sum of type `uint64_t`. -/
def unsigned (x : ℤ) : ℕ := (if x < 0 then x+word else x).toNat

def commitPartly (amountToChange : ℕ) (account : Account) (startHeight : ℕ) (renew : Bool)
    (s : Progress) : Progress :=
  let trace := s.batch.trace
  let num := s.numBlocksIterated-s.totalBlocksCemented+1
  let total := s.totalBlocksCemented+num
  let trace := (trace.put account (unsigned (startHeight+total.toInt-1)) s.frontier
    (unsigned num.toInt)).commit
  let trace := { trace with
    batchWriteSize := adjust trace.batchWriteSize amountToChange (env trace.tick).timeSpent }
  { s with
    totalBlocksCemented := total
    batch := ⟨(trace.notify s.batch.cementedBlocks).next,[],renew⟩ }

/-- One block of a pending write of `num` blocks, from the bottom up. The loop compares `num`
with its counter modulo 2^64, where no chain is long enough for other numbers to be equal. -/
def cementStep (amountToChange : ℕ) (account : Account) (startHeight num : ℕ) (last : Bool)
    (s : Progress) : Option (Progress ⊕ Progress) :=
  if (num : ℤ) = s.numBlocksIterated.toInt then some (.inr s)
  else s.batch.trace.ledger.blocks[s.frontier]?.map (fun r =>
    let lastIteration := decide ((num : ℤ)-s.numBlocksIterated.toInt = 1)
    let cemented := s.batch.cementedBlocks ++ [r]
    let s := { s with batch := { s.batch with cementedBlocks := cemented } }
    let s := if cemented.length > batchLimit s.batch.trace.batchWriteSize
      then commitPartly env amountToChange account startHeight (!(lastIteration && last)) s
      else s
    let s := if lastIteration then s else { s with frontier := r.sideband.successor }
    .inl { s with numBlocksIterated := s.numBlocksIterated+1 })

def cementChain (amountToChange : ℕ) (account : Account) (startHeight num : ℕ) (last : Bool)
    (s : Progress) : Option Progress :=
  Loop.loop (cementStep env amountToChange account startHeight num last) (num+1) s

/-- Where the cementing of a pending write starts, and how many blocks it
takes. -/
def cementStart (L : Ledger) (pending : WriteDetails) : Option (BlockHash × ℕ × ℕ) :=
  let info := L.confirmationHeightGet pending.account
  if pending.bottomHeight > info.height then
    some (pending.bottomHash,pending.topHeight-pending.bottomHeight+1,pending.bottomHeight)
  else L.blocks[info.frontier]?.map (fun r =>
    (r.sideband.successor,pending.topHeight-info.height,info.height+1))

def cementWrite (amountToChange : ℕ) (pending : WriteDetails) (last : Bool) (s : Batch) :
    Option Batch :=
  if pending.topHeight > (s.trace.ledger.confirmationHeightGet pending.account).height then do
    let (frontier,num,start) ← cementStart s.trace.ledger pending
    let t ← cementChain env amountToChange pending.account start num last ⟨s,frontier,0,0⟩
    let rest := unsigned (num-t.totalBlocksCemented.toInt)
    return if rest > 0 then { t.batch with
        trace := t.batch.trace.put pending.account pending.topHeight t.frontier rest }
      else t.batch
  else some s

/-- Cached heights are dropped when the write that set them is done. -/
def forget (infos : ExtTreeMap Account ConfirmedInfo) (pending : WriteDetails) :
    ExtTreeMap Account ConfirmedInfo := match infos[pending.account]? with
  | some i => if i.confirmedHeight = pending.topHeight then infos.erase pending.account else infos
  | none => infos

def cementWrites (amountToChange : ℕ) : List WriteDetails → ExtTreeMap Account ConfirmedInfo →
    Batch → Option (ExtTreeMap Account ConfirmedInfo × Batch)
  | [], infos, s => some (infos,s)
  | pending :: rest, infos, s =>
    (cementWrite env amountToChange pending rest.isEmpty s).bind
      (cementWrites amountToChange rest (forget infos pending))

def cementBlocks (p : Processor) : Option Processor :=
  let amountToChange := p.trace.batchWriteSize/10
  (cementWrites env amountToChange p.pendingWrites p.accountsConfirmedInfo ⟨p.trace,[],true⟩).map
    (fun (infos,s) =>
      let trace := s.trace.commit
      let trace := if s.owned && !s.cementedBlocks.isEmpty then trace.notify s.cementedBlocks
        else trace
      let batch := if (env trace.tick).timeSpent > maximumBatchWriteTime
        then reduce trace.batchWriteSize amountToChange else trace.batchWriteSize
      { trace := { trace.next with batchWriteSize := batch }
        pendingWrites := []
        accountsConfirmedInfo := infos })

/-- Whether what is pending is written out: it is due and the database is free, or too
much is pending. -/
def due (p : Processor) (finished : Bool) : Bool :=
  let reading := env p.trace.tick
  let total : ℕ := (p.pendingWrites.map (fun d => d.topHeight-d.bottomHeight+1)).sum
  let maxBatchWriteSizeReached := decide (total ≥ p.trace.batchWriteSize)
  let shouldOutput := finished && (reading.awaitingEmpty || reading.minTimeExceeded)
  let forceWrite := decide (p.pendingWrites.length ≥ pendingWritesMaxSize) ||
    decide (p.accountsConfirmedInfo.size ≥ pendingWritesMaxSize)
  (maxBatchWriteSizeReached || shouldOutput || forceWrite) && !p.pendingWrites.isEmpty &&
    (reading.queueFree || forceWrite)

def flush (p : Processor) (finished : Bool) : Option Processor :=
  let q := { p with trace := p.trace.next }
  if due env p finished then cementBlocks env q else some q

/-- The states that the transaction passes through while the pending writes are cemented. -/
inductive Writing (env : Environment) (amountToChange : ℕ) :
    List WriteDetails → Batch → Batch → Prop
  | here {pending : WriteDetails} {rest : List WriteDetails} {s : Batch} {frontier : BlockHash}
      {num start : ℕ} {t : Progress} :
      pending.topHeight > (s.trace.ledger.confirmationHeightGet pending.account).height →
      cementStart s.trace.ledger pending = some (frontier,num,start) →
      Loop.Comes (cementStep env amountToChange pending.account start num rest.isEmpty)
        ⟨s,frontier,0,0⟩ (.inl t) → Writing env amountToChange (pending :: rest) s t.batch
  | later {pending : WriteDetails} {rest : List WriteDetails} {s s' t : Batch} :
      cementWrite env amountToChange pending rest.isEmpty s = some s' →
      Writing env amountToChange rest s' t → Writing env amountToChange (pending :: rest) s t

/-- The states that `cement_blocks` passes through. -/
def Cements (p : Processor) : Batch → Prop :=
  Writing env (p.trace.batchWriteSize/10) p.pendingWrites ⟨p.trace,[],true⟩

end

section
variable (capacity : ℕ) (C : Constants) (env : Environment) (fuel : ℕ) (original : BlockHash)
  (originalBlock : StoredBlock)

structure Visit where
  processor : Processor
  target : TopAndNextHash
  receive : Option ReceiveChainDetails
  block : StoredBlock
  account : Account
  info : ConfirmationHeightInfo
  current : BlockHash
  bottomHeight : ℕ

def heightOf (w : Walk) (top : BlockHash) (r : StoredBlock) : Processor × ConfirmationHeightInfo :=
  let p := w.processor
  match p.accountsConfirmedInfo[r.accountCalculated]? with
  | some i => (p,⟨i.confirmedHeight,i.iteratedFrontier⟩)
  | none =>
    let info := p.trace.ledger.confirmationHeightGet r.accountCalculated
    (if w.firstIter && decide (info.height ≥ r.sideband.height) && decide (top = original)
      then { p with trace := p.trace.notifyAlreadyCemented original } else p,info)

def visit (w : Walk) : Option Visit :=
  let (target,receive) := getNextBlock original w
  let L := w.processor.trace.ledger
  (if w.firstIter then some originalBlock else L.blocks[target.top]?).bind (fun r =>
    let (p,info) := heightOf original w target.top r
    (bottom L w target r r.accountCalculated info).map (fun (current,bottomHeight) =>
      ⟨p,target,receive,r,r.accountCalculated,info,current,bottomHeight⟩))

def Visit.alreadyCemented (v : Visit) : Bool := decide (v.info.height ≥ v.block.sideband.height)

def iterateVisit (w : Walk) (v : Visit) : Option (Bool × Iteration) :=
  let s : Iteration := ⟨v.current,v.current,w.checkpoints,w.receiveSourcePairs⟩
  if v.alreadyCemented then some (false,s)
  else iterate capacity C v.processor.trace.ledger v.account v.target.top v.bottomHeight v.current
    fuel s

def prepare (v : Visit) (s : Iteration) : Option Prepared :=
  prepareIteratedBlocksForCementing ⟨v.processor,s.checkpoints,none⟩
    ⟨s.topMostNonReceive,v.alreadyCemented,v.info.height,v.account,v.bottomHeight,v.current⟩
    v.receive

/-- The pair at the back was used unless the round went on with the chain of the
last receive. -/
def leave (w : Walk) (s : Iteration) (t : Prepared) (p : Processor) : Walk where
  processor := p
  nextInReceiveChain := t.nextInReceiveChain
  checkpoints := t.checkpoints
  receiveSourcePairs := if w.nextInReceiveChain.isNone then s.receiveSourcePairs.tail
    else s.receiveSourcePairs
  firstIter := false

/-- Confirm what was walked over. -/
def confirm (w : Walk) (v : Visit) (s : Iteration) : Option Walk :=
  (prepare v s).bind (fun t =>
    (flush env t.processor (decide (v.current = original))).map (leave w s t))

/-- The walk reached its top level, or the plain blocks below its first receive
can go ahead; otherwise the receive that was hit comes first. -/
def Confirms (v : Visit) (hit : Bool) (s : Iteration) : Prop :=
  hit = false ∨ (s.receiveSourcePairs.length = 1 ∧ s.topMostNonReceive ≠ v.current)

instance (v : Visit) (hit : Bool) (s : Iteration) : Decidable (Confirms v hit s) :=
  inferInstanceAs (Decidable (_ ∨ _))

/-- The walk with the receive that was hit. -/
def stay (v : Visit) (s : Iteration) : Walk where
  processor := v.processor
  checkpoints := s.checkpoints
  receiveSourcePairs := s.receiveSourcePairs
  firstIter := false

def advance (w : Walk) (v : Visit) (hit : Bool) (s : Iteration) : Option Walk :=
  if Confirms v hit s then confirm env original w v s else some (stay v s)

def round (w : Walk) : Option (Walk ⊕ Walk) :=
  (visit original originalBlock w).bind (fun v =>
    (iterateVisit capacity C fuel w v).bind (fun (hit,s) =>
      (advance env original w v hit s).map (fun w' =>
        if w'.receiveSourcePairs.isEmpty = false ∨ v.current ≠ original then .inl w'
        else .inr w')))

def processStep (w : Walk) : Option (Walk ⊕ Processor) :=
  (round maxItems C env fuel original originalBlock w).map (Sum.map id Walk.processor)

end

def fresh (L : Ledger) (batchWriteSize : ℕ) : Processor where
  trace := { ledger := L, batchWriteSize := batchWriteSize }

variable (C : Constants) (env : Environment) (fuel : ℕ)

def begin (p : Processor) : Walk where
  processor := if p.pendingWrites.isEmpty then clearProcessVars p else p

/-- The `do` loop with buffers of a capacity. -/
def walk (capacity : ℕ) (p : Processor) (hash : BlockHash) : Option Walk :=
  p.trace.ledger.blocks[hash]?.bind (fun r =>
    Loop.loop (round capacity C env fuel hash r) fuel (begin p))

def process (p : Processor) (hash : BlockHash) : Option Processor :=
  p.trace.ledger.blocks[hash]?.bind (fun r =>
    Loop.loop (processStep C env fuel hash r) fuel (begin p))

def idle (p : Processor) : Option Processor :=
  (if p.pendingWrites.isEmpty then some p else cementBlocks env p).map clearProcessVars

def run (p : Processor) (ts : List Turn) : Option Processor :=
  turns (process C env fuel) (idle env) p ts

abbrev Reaches (ok : Processor → BlockHash → Prop) : Processor → Stage Processor Walk → Prop :=
  Cementing.Reaches (fun p => p.trace.ledger) (fun p _ => begin p) (processStep C env fuel)
    (idle env) ok

def stageTrace : Stage Processor Walk → Trace
  | .between p => p.trace
  | .within _ _ w => w.processor.trace

/-- What a run shows: where its stages stand, and where a write stands that an idle turn or a
round has begun. -/
inductive Shows (ok : Processor → BlockHash → Prop) (p₀ : Processor) : Trace → Prop
  | stage {s : Stage Processor Walk} : Reaches C env fuel ok p₀ s → Shows ok p₀ (stageTrace s)
  | idling {p : Processor} {s : Batch} : Reaches C env fuel ok p₀ (.between p) →
      Cements env p s → Shows ok p₀ s.trace
  | flushing {h : BlockHash} {r : StoredBlock} {w : Walk} {v : Visit} {hit : Bool}
      {i : Iteration} {t : Prepared} {s : Batch} : Reaches C env fuel ok p₀ (.within h r w) →
      visit h r w = some v → iterateVisit maxItems C fuel w v = some (hit,i) →
      Confirms v hit i → prepare v i = some t →
      due env t.processor (decide (v.current = h)) = true →
      Cements env { t.processor with trace := t.processor.trace.next } s → Shows ok p₀ s.trace

end Vxldollar.Bounded
