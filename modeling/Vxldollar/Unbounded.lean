import Vxldollar.Cementing

/-!
# The unbounded confirmation height processor

A walk down from the added block collects every receive of the chain on a
stack together with its source and goes on with the source nearest to genesis.
A chain without further receives is confirmed with the receive that waits for
it. The hashes to report are gathered on the way down and cut to length when
a chain is confirmed. A `none` is undefined behaviour or a failed assertion.
-/

namespace Vxldollar.Unbounded
open Std Blocks Store Cementing

structure ConfHeightDetails where
  account : Account
  hash : BlockHash
  height : ℕ
  numBlocksConfirmed : ℕ
  blockCallbackData : List BlockHash
  sourceBlockCallbackData : List BlockHash := []
  deriving DecidableEq, Repr

structure ConfirmedIteratedPair where
  confirmedHeight : ℕ
  iteratedHeight : ℕ
  deriving DecidableEq, Repr

/-- The details are shared with weak references, so they have an identity. -/
structure ReceiveSourcePair where
  id : ℕ
  receiveDetails : ConfHeightDetails
  sourceHash : BlockHash
  deriving DecidableEq, Repr

structure Processor where
  trace : Trace
  confirmedIteratedPairs : ExtTreeMap Account ConfirmedIteratedPair := ∅
  pendingWrites : List ConfHeightDetails := []
  implicitReceiveCementedMapping : ExtTreeMap BlockHash ℕ := ∅
  blockCache : ExtTreeMap BlockHash StoredBlock := ∅
  nextId : ℕ := 0

def clearProcessVars (p : Processor) : Processor :=
  { p with confirmedIteratedPairs := ∅, implicitReceiveCementedMapping := ∅, blockCache := ∅ }

/-- Unsigned subtraction whose wrapped result would be an iterator out of
range. -/
def checkedSub (a b : ℕ) : Option ℕ := if b ≤ a then some (a-b) else none

def trimTo (data : List BlockHash) (n : ℕ) : Option (List BlockHash) :=
  (checkedSub data.length n).map (fun _ => data.take n)

def cacheBlock (p : Processor) (hash : BlockHash) (r : StoredBlock) : Processor :=
  { p with blockCache := p.blockCache.insert hash r }

def getBlockAndSideband (p : Processor) (hash : BlockHash) : Option (StoredBlock × Processor) :=
  match p.blockCache[hash]? with
  | some r => some (r,p)
  | none => p.trace.ledger.blocks[hash]?.map (fun r => (r,cacheBlock p hash r))

def blockOf (p : Processor) (hash : BlockHash) (first : Option StoredBlock) :
    Option (StoredBlock × Processor) := match first with
  | some r => some (r,cacheBlock p hash r)
  | none => getBlockAndSideband p hash

section
variable (C : Constants)

structure Collected where
  processor : Processor
  receiveSourcePairs : List ReceiveSourcePair
  blockCallbackData : List BlockHash := []
  origBlockCallbackData : List BlockHash
  isOriginalBlock : Bool
  hitReceive : Bool := false

/-- The callbacks above the first receive go to the receive that waits for
this chain. -/
def handOver (c : Collected) : Option Collected :=
  if c.hitReceive = false ∧ c.blockCallbackData ≠ [] then match c.receiveSourcePairs with
    | [] => none
    | last :: rest => some { c with
        receiveSourcePairs := { last with receiveDetails := { last.receiveDetails with
          sourceBlockCallbackData := c.blockCallbackData } } :: rest
        blockCallbackData := [] }
  else some c

def collectReceive (account : Account) (height : ℕ) (hash source : BlockHash) (c : Collected) :
    Option Collected := (handOver c).map (fun c => { c with
  isOriginalBlock := false
  hitReceive := true
  processor := { c.processor with nextId := c.processor.nextId+1 }
  receiveSourcePairs :=
    ⟨c.processor.nextId,⟨account,hash,height,1,[hash],[]⟩,source⟩ :: c.receiveSourcePairs })

def collectOther (hash : BlockHash) (c : Collected) : Option Collected :=
  if c.isOriginalBlock then
    some { c with origBlockCallbackData := c.origBlockCallbackData ++ [hash] }
  else if c.hitReceive = false then
    some { c with blockCallbackData := c.blockCallbackData ++ [hash] }
  else match c.receiveSourcePairs with
    | [] => none
    | last :: rest => some { c with
        receiveSourcePairs := { last with receiveDetails := { last.receiveDetails with
          numBlocksConfirmed := last.receiveDetails.numBlocksConfirmed+1
          blockCallbackData := last.receiveDetails.blockCallbackData ++ [hash] } } :: rest
        processor := { c.processor with implicitReceiveCementedMapping :=
          c.processor.implicitReceiveCementedMapping.insert hash last.id } }

def collectBlock (account : Account) (height : ℕ) (hash : BlockHash) (r : StoredBlock)
    (c : Collected) : Option Collected :=
  match receiveSource C c.processor.trace.ledger r.block with
  | some source => collectReceive account height hash source c
  | none => collectOther hash c

/-- The walk over `num_to_confirm` blocks. A block that is missing is skipped
without moving on. -/
def collectLoop (account : Account) (confirmationHeight : ℕ) :
    ℕ → BlockHash → Option StoredBlock → Collected → Option Collected
  | 0, _, _, c => some c
  | n+1, hash, first, c =>
    if hash = 0 then some c
    else match blockOf c.processor hash first with
      | none => collectLoop account confirmationHeight n hash none c
      | some (r,p) =>
        (collectBlock C account (confirmationHeight+(n+1)) hash r { c with processor := p }).bind
          (collectLoop account confirmationHeight n r.block.previous none)

end

structure Preparation where
  blockHeight : ℕ
  confirmationHeight : ℕ
  iteratedHeight : ℕ
  account : Account
  alreadyTraversed : Bool
  current : BlockHash
  blockCallbackData : List BlockHash
  origBlockCallbackData : List BlockHash

/-- The part of a pending receive's callbacks for blocks below it that are now
confirmed on their own. The weak reference holds while the receive is on the
stack. -/
def implicitCallbackData (p : Processor) (pairs : List ReceiveSourcePair) (d : Preparation)
    (num : ℕ) : Option (List BlockHash) := do
  let id ← p.implicitReceiveCementedMapping[d.current]?
  let above ← pairs.find? (fun q => q.id == id)
  let gap ← checkedSub above.receiveDetails.height d.confirmationHeight
  let already ← checkedSub above.receiveDetails.numBlocksConfirmed gap
  let stop ← checkedSub above.receiveDetails.blockCallbackData.length already
  let start ← checkedSub stop num
  return (above.receiveDetails.blockCallbackData.take stop).drop start

def sourceCallbackData (p : Processor) (pairs : List ReceiveSourcePair) (d : Preparation)
    (num : ℕ) : Option (List BlockHash) :=
  if d.blockCallbackData ≠ [] then some d.blockCallbackData
  else match pairs with
    | [] => some d.origBlockCallbackData
    | top :: _ =>
      (if d.alreadyTraversed = true ∧ top.receiveDetails.sourceBlockCallbackData = [] then
        implicitCallbackData p pairs d num
      else some top.receiveDetails.sourceBlockCallbackData).bind (fun data => trimTo data num)

def setConfirmed (p : Processor) (d : Preparation) : Processor :=
  let iterated := match p.confirmedIteratedPairs[d.account]? with
    | some k => if d.blockHeight > d.iteratedHeight then d.blockHeight else k.iteratedHeight
    | none => d.blockHeight
  { p with confirmedIteratedPairs :=
      p.confirmedIteratedPairs.insert d.account ⟨d.blockHeight,iterated⟩ }

def prepareChain (p : Processor) (pairs : List ReceiveSourcePair) (d : Preparation) :
    Option Processor :=
  if d.blockHeight > d.confirmationHeight then
    let num := d.blockHeight-d.confirmationHeight
    (sourceCallbackData p pairs d num).map (fun data =>
      { setConfirmed p d with pendingWrites := p.pendingWrites ++
        [⟨d.account,d.current,d.blockHeight,num,data,[]⟩] })
  else some p

def prepareReceive (p : Processor) (receive : ConfHeightDetails) : Option Processor :=
  match p.confirmedIteratedPairs[receive.account]? with
  | some k => do
    let num ← checkedSub receive.height k.confirmedHeight
    let remove ← checkedSub receive.numBlocksConfirmed num
    let keep ← checkedSub receive.blockCallbackData.length remove
    return { p with
      confirmedIteratedPairs := p.confirmedIteratedPairs.insert receive.account
        { k with confirmedHeight := receive.height }
      pendingWrites := p.pendingWrites ++ [{ receive with
        numBlocksConfirmed := num, blockCallbackData := receive.blockCallbackData.take keep }] }
  | none => some { p with
      confirmedIteratedPairs := p.confirmedIteratedPairs.insert receive.account
        ⟨receive.height,receive.height⟩
      pendingWrites := p.pendingWrites ++ [receive] }

def prepareIteratedBlocksForCementing (p : Processor) (pairs : List ReceiveSourcePair)
    (d : Preparation) : Option Processor :=
  (prepareChain p pairs d).bind (fun p => match pairs with
    | [] => some p
    | top :: _ => prepareReceive p
        (if d.blockHeight > d.confirmationHeight ∧ d.blockCallbackData = [] then
          { top.receiveDetails with sourceBlockCallbackData := [] }
        else top.receiveDetails))

def cementWrite (cache : ExtTreeMap BlockHash StoredBlock) (s : Trace × List StoredBlock)
    (pending : ConfHeightDetails) : Option (Trace × List StoredBlock) :=
  if pending.height > (s.1.ledger.confirmationHeightGet pending.account).height then do
    let _ ← s.1.ledger.blocks[pending.hash]?
    let blocks ← pending.blockCallbackData.reverse.mapM (fun h => cache[h]?)
    return (s.1.put pending.account pending.height pending.hash pending.numBlocksConfirmed,
      s.2 ++ blocks)
  else some s

def cementBlocks (p : Processor) : Option Processor :=
  (p.pendingWrites.foldlM (cementWrite p.blockCache) (p.trace,[])).map (fun s =>
    { p with pendingWrites := [], trace := s.1.commit.notify s.2 })

def flush (env : Environment) (p : Processor) (finished : Bool) : Option Processor :=
  let reading := env p.trace.tick
  let p := { p with trace := p.trace.next }
  let maxWriteSizeReached := decide (p.pendingWrites.length ≥ unboundedCutoff)
  let shouldOutput := finished && (reading.awaitingEmpty || reading.minTimeExceeded)
  let forceWrite := decide ((p.pendingWrites.map ConfHeightDetails.numBlocksConfirmed).sum >
    p.trace.batchWriteSize)
  if (maxWriteSizeReached || shouldOutput || forceWrite) && !p.pendingWrites.isEmpty &&
      (reading.queueFree || forceWrite) then cementBlocks p
  else some p

section
variable (C : Constants) (env : Environment) (original : BlockHash) (originalBlock : StoredBlock)

/-- The variables of the `do` loop. `receive_details` is null or the back of
the stack, so only whether it was set is kept. -/
structure Walk where
  processor : Processor
  current : BlockHash
  receiveSet : Bool := false
  origBlockCallbackData : List BlockHash := []
  receiveSourcePairs : List ReceiveSourcePair := []
  firstIter : Bool := true

def Walk.target (w : Walk) : BlockHash := match w.receiveSourcePairs with
  | top :: _ => top.sourceHash
  | [] => if w.receiveSet then original else w.current

structure Visit where
  processor : Processor
  block : StoredBlock
  account : Account
  blockHeight : ℕ
  confirmationHeight : ℕ
  iteratedHeight : ℕ

def visit (w : Walk) : Option Visit :=
  (blockOf w.processor (w.target original)
    (if w.firstIter then some originalBlock else none)).map (fun (r,p) =>
    let account := r.accountCalculated
    let height := r.sideband.height
    match p.confirmedIteratedPairs[account]? with
    | some k => ⟨p,r,account,height,k.confirmedHeight,
        if k.iteratedHeight > k.confirmedHeight then k.iteratedHeight else k.confirmedHeight⟩
    | none =>
      let confirmed := (p.trace.ledger.confirmationHeightGet account).height
      let p := if w.firstIter && decide (confirmed ≥ height)
        then { p with trace := p.trace.notifyAlreadyCemented original } else p
      ⟨p,r,account,height,confirmed,confirmed⟩)

def collectUnconfirmedReceiveAndSourcesForAccount (w : Walk) (v : Visit) : Option Collected :=
  let c : Collected := {
    processor := v.processor
    receiveSourcePairs := w.receiveSourcePairs
    origBlockCallbackData := w.origBlockCallbackData
    isOriginalBlock := decide (w.target original = original) }
  if v.iteratedHeight ≥ v.blockHeight then some c
  else collectLoop C v.account v.iteratedHeight (v.blockHeight-v.iteratedHeight)
    (w.target original) (some v.block) c

def setIterated (p : Processor) (v : Visit) : Processor :=
  let k := match p.confirmedIteratedPairs[v.account]? with
    | some k => { k with iteratedHeight := v.blockHeight }
    | none => ⟨v.confirmationHeight,v.blockHeight⟩
  if v.blockHeight > v.iteratedHeight then
    { p with confirmedIteratedPairs := p.confirmedIteratedPairs.insert v.account k }
  else p

/-- No receive was added: the chain and the receive that waits for it are
confirmed. Otherwise the new receives come first. -/
def confirm (w : Walk) (v : Visit) (c : Collected) :
    Option (Processor × List ReceiveSourcePair) :=
  if c.receiveSourcePairs.length = w.receiveSourcePairs.length then
    (prepareIteratedBlocksForCementing c.processor c.receiveSourcePairs {
      blockHeight := v.blockHeight
      confirmationHeight := v.confirmationHeight
      iteratedHeight := v.iteratedHeight
      account := v.account
      alreadyTraversed := decide (v.iteratedHeight ≥ v.blockHeight)
      current := w.target original
      blockCallbackData := c.blockCallbackData
      origBlockCallbackData := c.origBlockCallbackData }).map
      (fun p => (p,c.receiveSourcePairs.tail))
  else some (setIterated c.processor v,c.receiveSourcePairs)

def processStep (w : Walk) : Option (Walk ⊕ Processor) := do
  let v ← visit original originalBlock w
  let c ← collectUnconfirmedReceiveAndSourcesForAccount C original w v
  let (p,pairs) ← confirm original w v c
  let p ← flush env p pairs.isEmpty
  return if pairs.isEmpty = false ∨ w.target original ≠ original then .inl {
      processor := p
      current := w.target original
      receiveSet := !w.receiveSourcePairs.isEmpty
      origBlockCallbackData := c.origBlockCallbackData
      receiveSourcePairs := pairs
      firstIter := false }
    else .inr p

end

def fresh (L : Ledger) (batchWriteSize : ℕ) : Processor where
  trace := { ledger := L, batchWriteSize := batchWriteSize }

variable (C : Constants) (env : Environment) (fuel : ℕ)

def begin (p : Processor) (hash : BlockHash) : Walk where
  processor := if p.pendingWrites.isEmpty then clearProcessVars p else p
  current := hash

def process (p : Processor) (hash : BlockHash) : Option Processor :=
  p.trace.ledger.blocks[hash]?.bind (fun r =>
    Loop.loop (processStep C env hash r) fuel (begin p hash))

def idle (p : Processor) : Option Processor :=
  (if p.pendingWrites.isEmpty then some p else cementBlocks p).map clearProcessVars

def run (p : Processor) (ts : List Turn) : Option Processor :=
  turns (process C env fuel) idle p ts

abbrev Reaches : Processor → Stage Processor Walk → Prop :=
  Cementing.Reaches (fun p => p.trace.ledger) begin (processStep C env) idle (fun _ _ => True)

def stageTrace : Stage Processor Walk → Trace
  | .between p => p.trace
  | .within _ _ w => w.processor.trace

end Vxldollar.Unbounded
