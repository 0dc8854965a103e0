import Vxldollar.Elections
import Vxldollar.Framing
import Vxldollar.Library.Ranges

/-!
# Generating final votes

The `final_votes` table, the local vote history and the vote spacing, the final
vote generator and the aggregator that answers requests. The aggregator, the
generator and the threads that change the ledger or the elections run
concurrently, so a block picked by `aggregate`, a queued candidate and a batch
taken for signing are kept in the state between the locked sections. The
generator of ordinary votes only shows in what it adds to the history.
-/

namespace Vxldollar.Voting
open Std Blocks Store Confirmation
open Elections (timestampMax)

structure Vote where
  account : Account
  timestamp : BitVec 64
  blocks : List BlockHash
  deriving DecidableEq, Repr

structure LocalVote where
  root : Root
  hash : BlockHash
  vote : Vote
  deriving DecidableEq, Repr

def historyVotes (history : List LocalVote) (root : Root) (hash : BlockHash) (isFinal : Bool) :
    List Vote :=
  (history.filter (fun e => e.root = root ∧ e.hash = hash ∧
    (isFinal → e.vote.timestamp = timestampMax))).map LocalVote.vote

def historyClean (maxCache : ℕ) (history : List LocalVote) : List LocalVote :=
  history.drop (history.length-maxCache)

def historyAdd (maxCache : ℕ) (history : List LocalVote) (root : Root) (hash : BlockHash)
    (vote : Vote) : List LocalVote :=
  let kept := (historyClean maxCache history).filter (fun e => ¬ (e.root = root ∧
    (e.hash ≠ hash ∨ (vote.account = e.vote.account ∧ e.vote.timestamp ≤ vote.timestamp))))
  if kept.any (fun e => e.root = root ∧ vote.account = e.vote.account ∧
      e.vote.timestamp > vote.timestamp) then kept
  else kept++[⟨root,hash,vote⟩]

def historyErase (history : List LocalVote) (root : Root) : List LocalVote :=
  history.filter (fun e => e.root ≠ root)

structure SpacingEntry where
  root : Root
  time : ℕ
  hash : BlockHash
  deriving DecidableEq, Repr

def votable (delay now : ℕ) (recent : List SpacingEntry) (root : Root) (hash : BlockHash) : Bool :=
  recent.all (fun e => e.root = root → hash = e.hash ∨ e.time+delay < now)

def trim (delay now : ℕ) (recent : List SpacingEntry) : List SpacingEntry :=
  recent.filter fun e => ¬ e.time+delay ≤ now

/-- The clock is read by `trim` and once more after it. -/
def flag (delay trimmed now : ℕ) (recent : List SpacingEntry) (root : Root) (hash : BlockHash) :
    List SpacingEntry :=
  let recent := trim delay trimmed recent
  if recent.any (fun e => e.root = root) then
    recent.map (fun e => if e.root = root then { e with time := now } else e)
  else recent++[⟨root,now,hash⟩]

abbrev FinalVotes := ExtTreeMap QualifiedRoot BlockHash

/-- The first hash written for a qualified root stays. -/
def finalVotePut (table : FinalVotes) (root : QualifiedRoot) (hash : BlockHash) :
    Bool × FinalVotes :=
  match table[root]? with
  | some h => (decide (h = hash),table)
  | none => (true,table.insert root hash)

def finalVoteGet (table : FinalVotes) (root : Root) : List BlockHash :=
  ((Ranges.entries table ⟨root,0⟩ none).takeWhile (fun e => decide (e.1.root = root))).map Prod.snd

def confirmAckHashesMax : ℕ := 12

def maxRequests : ℕ := 2048

structure Config where
  maxCache : ℕ
  delay : ℕ

/-- A block object. It has a sideband when the ledger has stored it. -/
structure Loaded where
  block : Block
  sideband : Option Sideband

abbrev Candidate := Root × BlockHash

/-- `winner` answers `active_transactions::winner`. `aggregated` holds the blocks
`aggregate` returned that have not reached the generator, `replying` what is left
of the request being answered, `batches` the hashes about to be signed, `signed`
the final votes of the node. -/
structure State where
  ledger : Ledger
  finalVotes : FinalVotes := ∅
  winner : BlockHash → Option Loaded := fun _ => none
  history : List LocalVote := []
  recent : List SpacingEntry := []
  candidates : List Candidate := []
  aggregated : List (List Loaded) := []
  requests : List (List Candidate) := []
  replying : List Candidate := []
  batches : List (List Candidate) := []
  signed : List Vote := []

variable (C : Constants) (P : Config)

def blockGet (L : Ledger) (h : BlockHash) : Option Loaded :=
  L.blocks[h]?.map (fun r => ⟨r.block,some r.sideband⟩)

/-- `ledger.is_send` as `dependent_blocks` asks it: a block without a sideband is
compared with its previous block, if that is present. -/
def sends (L : Ledger) (b : Loaded) : Bool := match b.sideband,b.block.hashables with
  | some s,_ => s.details.isSend
  | none,.state h => L.blocks[h.previous]?.any (fun p => decide (h.balance < p.balanceCalculated))
  | none,_ => false

def dependentsConfirmed (L : Ledger) (b : Loaded) : Bool :=
  let d := dependentBlocks C ⟨b.block,{ details.isSend := sends L b }⟩
  (decide (d.1 = 0) || L.blockConfirmed d.1) && (decide (d.2 = 0) || L.blockConfirmed d.2)

def add (s : State) (root : Root) (hash : BlockHash) : State :=
  if historyVotes s.history root hash true ≠ [] then s
  else match blockGet s.ledger hash with
    | none => s
    | some b =>
      if dependentsConfirmed C s.ledger b then
        let (ok,table) := finalVotePut s.finalVotes b.block.qualifiedRoot hash
        if ok then { s with finalVotes := table, candidates := s.candidates++[(root,hash)] }
        else { s with finalVotes := table }
      else s

def confirmed (L : Ledger) (r : StoredBlock) : Bool :=
  decide ((L.confirmationHeightGet r.accountCalculated).height ≥ r.sideband.height)

/-- The successor of the block with hash `root`, or the first block of the
account `root`; zero when there is neither. -/
def rootSuccessor (L : Ledger) (root : Root) : BlockHash :=
  let successor := (L.blocks[root]?.map (fun r => r.sideband.successor)).getD 0
  if successor = 0 then (L.accounts[root]?.map AccountInfo.openBlock).getD 0 else successor

/-- The ledger by hash, then by root. The flag says whether a final vote is
generated. -/
def ledgerBlock (s : State) (hash : BlockHash) (root : Root) : Option (Loaded × Bool) :=
  match s.ledger.blocks[hash]? with
  | some r => some (⟨r.block,some r.sideband⟩,confirmed s.ledger r)
  | none =>
    let successor := rootSuccessor s.ledger root
    if root = 0 ∨ successor = 0 then none
    else match s.ledger.blocks[successor]? with
      | some r =>
        if historyVotes s.history root successor false ≠ [] then none
        else some (⟨r.block,some r.sideband⟩,confirmed s.ledger r)
      | none => none

/-- One pair of `request_aggregator::aggregate`: the blocks to vote for and the
blocks to vote for with a final vote. The election winner is used with the flag
that the final votes have set. -/
def aggregateOne (s : State) (hash : BlockHash) (root : Root) : List Loaded × List Loaded :=
  if historyVotes s.history root hash false ≠ [] then ([],[])
  else
    let hashes := finalVoteGet s.finalVotes root
    let first := hashes.head?.bind (blockGet s.ledger)
    -- a block hash and an account may be the same root
    let (same,locked) := match first,hashes with
      | some b,_::h::_ => ([b],blockGet s.ledger h)
      | _,_ => ([],first)
    let choice := match locked <|> s.winner hash with
      | some b => some (b,decide (hashes ≠ []))
      | none => ledgerBlock s hash root
    match choice with
    | some (b,true) => ([],same++[b])
    | some (b,false) => ([b],same)
    | none => ([],same)

def aggregate (s : State) (pairs : List (BlockHash × Root)) : List Loaded × List Loaded :=
  (pairs.flatMap (fun p => (aggregateOne s p.1 p.2).1),
    pairs.flatMap (fun p => (aggregateOne s p.1 p.2).2))

def generate (s : State) (blocks : List Loaded) : State :=
  let candidates := (blocks.filter (dependentsConfirmed C s.ledger)).map
    (fun b => (b.block.root,C.blockHash b.block))
  let requests := s.requests++[candidates]
  { s with requests := requests.drop (requests.length-maxRequests) }

/-- The loop that `broadcast` and `reply` share: fill a batch with candidates
that have no cached vote, whose root is not in the batch and which the spacing
allows. -/
def fill (s : State) (now : ℕ) : List Candidate → List Candidate → List Candidate × List Candidate
  | batch,[] => (batch,[])
  | batch,(root,hash)::rest =>
    if batch.length ≥ confirmAckHashesMax then (batch,(root,hash)::rest)
    else if historyVotes s.history root hash true = [] ∧ root ∉ batch.map Prod.fst ∧
        votable P.delay now s.recent root hash then fill s now (batch++[(root,hash)]) rest
    else fill s now batch rest

def vote (s : State) (now : ℕ) (batch : List Candidate) (representatives : List Account) : State :=
  let votes := representatives.map (fun a => ⟨a,timestampMax,batch.map Prod.snd⟩)
  let entries := votes.flatMap (fun v => batch.map (fun c => (c,v)))
  { s with
    history := entries.foldl (fun h e => historyAdd P.maxCache h e.1.1 e.1.2 e.2) s.history
    recent := entries.foldl (fun r e => flag P.delay now now r e.1.1 e.1.2) s.recent
    signed := s.signed++votes }

inductive Event where
  | add (root : Root) (hash : BlockHash)
  | request (pairs : List (BlockHash × Root))
  | generate
  | broadcast (now : ℕ)
  | reply (now : ℕ)
  | vote (now : ℕ) (representatives : List Account)
  | winner (winner : BlockHash → Option Loaded)
  | erase (root : Root)
  | record (root : Root) (hash : BlockHash) (vote : Vote)

def act (s : State) : Event → State
  | .add root hash => add C s root hash
  | .request pairs => { s with aggregated := s.aggregated++[(aggregate s pairs).2] }
  | .generate => match s.aggregated with
    | blocks::rest => generate C { s with aggregated := rest } blocks
    | [] => s
  | .broadcast now =>
    let (batch,rest) := fill P s now [] s.candidates
    { s with candidates := rest, batches := s.batches++[batch] }
  | .reply now => match s.replying,s.requests with
    | [],[] => s
    | [],request::requests =>
      let (batch,rest) := fill P s now [] request
      { s with requests := requests, replying := rest, batches := s.batches++[batch] }
    | replying,_ =>
      let (batch,rest) := fill P s now [] replying
      { s with replying := rest, batches := s.batches++[batch] }
  | .vote now representatives => match s.batches with
    | batch::rest => vote P { s with batches := rest } now batch representatives
    | [] => s
  | .winner winner => { s with winner := winner }
  | .erase root => { s with history := historyErase s.history root }
  | .record root hash vote => { s with history := historyAdd P.maxCache s.history root hash vote }

/-- One step of the node. The blocks that are offered to the ledger satisfy `ok`. -/
inductive Step (U : Set Hashables) (ok : Framing.Offer → Prop) : State → State → Prop
  | act (s : State) (e : Event) : Step U ok s (act C P s e)
  | process {s : State} {L : Ledger} {b : Block} {verified : Process.SignatureVerification}
      {result : Process.ProcessReturn} {now : ℕ} : b.hashables ∈ U →
      ProcessSpec.Honest C s.ledger b verified → ok ⟨s.ledger,b,result,L⟩ →
      Process.process C now s.ledger b verified = some (result,L) →
      Step U ok s { s with ledger := L }
  | rollback {s : State} {L : Ledger} {h : BlockHash} {list list' : Rollback.RollbackList}
      {error : Bool} {fuel now : ℕ} : s.ledger.blocks.contains h = true →
      Rollback.rollback C now fuel s.ledger h list = some (error,L,list') →
      Step U ok s { s with ledger := L }
  | cement {s : State} {L : Ledger} : Raised C s.ledger L → Step U ok s { s with ledger := L }

end Vxldollar.Voting
