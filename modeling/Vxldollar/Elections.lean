import Vxldollar.Blocks
import Vxldollar.Library.Table

/-!
# An election

The votes and blocks of one election and the sections that run under its lock.
`confirm_if_quorum` gives the lock back while it asks for a final vote, so the
rest of such a call is a section of its own. A block of an election is its
hash. Weights are natural numbers: they add up to the supply at most, so that
their sums do not wrap. `publish` appears as the two sections that change the
election; which block it replaces depends on the inactive vote cache and is left
open. It asks whether the election is confirmed before it gives the lock back, so that a
block can be inserted after the confirmation.
-/

namespace Vxldollar.Elections
open Std Blocks

def timestampMax : BitVec 64 := BitVec.allOnes 64

def maxBlocks : ℕ := 10

structure VoteInfo where
  time : Option ℕ
  timestamp : BitVec 64
  hash : BlockHash
  deriving DecidableEq, Repr

inductive Phase where
  | passive
  | active
  | confirmed
  | expiredConfirmed
  | expiredUnconfirmed
  deriving DecidableEq, Repr

/-- What an election reads of the node. `voting` says whether the node votes, and
`generated` gives the accounts whose votes for a block of this root are in the
local history. `null` is the random account that stands for none. -/
structure Environment where
  null : Account
  weight : Account → ℕ
  delta : ℕ
  trended : ℕ
  canary : Bool
  voting : Bool
  devNetwork : Bool
  generated : BlockHash → List Account

abbrev Votes := ExtTreeMap Account VoteInfo

structure Election where
  lastVotes : Votes
  lastBlocks : List BlockHash
  winner : BlockHash
  finalWeight : ℕ := 0
  isQuorum : Bool := false
  phase : Phase := .passive

/-- `released` counts the calls of `confirm_if_quorum` that have given the lock
back. -/
structure State where
  env : Environment
  election : Election
  released : ℕ := 0

def Election.start (null : Account) (now : ℕ) (hash : BlockHash) : Election where
  lastVotes := (∅ : Votes).insert null ⟨some now,0,hash⟩
  lastBlocks := [hash]
  winner := hash

section
variable (w : Account → ℕ)

def blockWeight (votes : Votes) (h : BlockHash) : ℕ :=
  Table.total (fun a i => if i.hash = h then w a else 0) votes

def finalWeightOf (votes : Votes) (h : BlockHash) : ℕ :=
  Table.total (fun a i => if i.hash = h ∧ i.timestamp = timestampMax then w a else 0) votes

/-- Whether `final_weights` has an entry for the block. -/
def hasFinal (votes : Votes) (h : BlockHash) : Bool :=
  votes.toList.any (fun e => e.2.hash = h ∧ e.2.timestamp = timestampMax)

def voted (votes : Votes) : List BlockHash := (votes.toList.map (fun e => e.2.hash)).dedup

def emplace : List (ℕ × BlockHash) → ℕ → BlockHash → List (ℕ × BlockHash)
  | [],a,h => [(a,h)]
  | (b,g)::l,a,h =>
    if b = a then (b,g)::l else if b < a then (a,h)::(b,g)::l else (b,g)::emplace l a h

def tallyOf (votes : Votes) (blocks order : List BlockHash) : List (ℕ × BlockHash) :=
  order.foldl (fun t h => if h ∈ blocks then emplace t (blockWeight w votes h) h else t) []

/-- The final weight is left as it is when the first block has no final vote. -/
def refreshFinal (e : Election) : List (ℕ × BlockHash) → ℕ
  | (_,top)::_ =>
    if hasFinal e.lastVotes top then finalWeightOf w e.lastVotes top else e.finalWeight
  | [] => e.finalWeight

def tallyImpl (e : Election) (order : List BlockHash) : List (ℕ × BlockHash) × Election :=
  let tally := tallyOf w e.lastVotes e.lastBlocks order
  (tally,{ e with finalWeight := refreshFinal w e tally })

end

def haveQuorum (env : Environment) : List (ℕ × BlockHash) → Bool
  | (a,_)::(b,_)::_ => decide (a-b ≥ env.delta)
  | [(a,_)] => decide (a ≥ env.delta)
  | [] => false

def removeVotes (s : State) (hash : BlockHash) : State :=
  if s.env.voting then { s with
    env.generated := fun _ => []
    election.lastVotes := (s.env.generated hash).foldl (fun v a => v.erase a) s.election.lastVotes }
  else s

def decideFinal (s : State) : State × Bool :=
  if !s.env.canary || decide (s.election.finalWeight ≥ s.env.delta) then
    ({ s with election.phase := .confirmed },true)
  else (s,false)

/-- The block with the largest tally becomes the winner if enough weight has
voted. -/
def changeWinner (s : State) (tally : List (ℕ × BlockHash)) (top : BlockHash) : State :=
  if (tally.map Prod.fst).sum ≥ s.env.delta ∧ top ≠ s.election.winner then
    removeVotes { s with election.winner := top } s.election.winner
  else s

/-- `confirm_if_quorum` up to the point where it gives the lock back or returns.
The source reads past the end of an empty tally. -/
def confirmIfQuorum (s : State) (order : List BlockHash) : Option (State × Bool) :=
  let (tally,e) := tallyImpl s.env.weight s.election order
  match tally with
  | [] => none
  | (_,top)::_ =>
    let s := changeWinner { s with election := e } tally top
    if haveQuorum s.env tally then
      if s.env.canary then
        if !s.election.isQuorum && s.env.voting then
          some ({ s with election.isQuorum := true, released := s.released+1 },false)
        else some (decideFinal { s with election.isQuorum := true })
      else some (decideFinal s)
    else some (s,false)

def Election.confirmed (e : Election) : Bool :=
  e.phase = .confirmed || e.phase = .expiredConfirmed

def validChange : Phase → Phase → Bool
  | .passive,.active | .passive,.confirmed | .passive,.expiredUnconfirmed => true
  | .active,.confirmed | .active,.expiredUnconfirmed => true
  | .confirmed,.expiredConfirmed => true
  | _,_ => false

def cooldown (env : Environment) (weight : ℕ) : ℕ :=
  if weight < env.trended/100 then 15 else if weight < env.trended/20 then 5 else 1

def principalWeightFactor : ℕ := 1000

def shouldProcess (s : State) (now : ℕ) (rep : Account) (timestamp : BitVec 64)
    (hash : BlockHash) : Bool :=
  let weight := s.env.weight rep
  (s.env.devNetwork || decide (weight > s.env.trended/principalWeightFactor)) &&
  match s.election.lastVotes[rep]? with
  | none => true
  | some last =>
    if last.timestamp < timestamp ∨ (last.timestamp = timestamp ∧ last.hash < hash) then
      decide (timestamp = timestampMax ∧ last.timestamp < timestamp) ||
        last.time.all (fun time => decide (time+cooldown s.env weight ≤ now))
    else false

inductive Event where
  | vote (now : ℕ) (rep : Account) (timestamp : BitVec 64) (hash : BlockHash)
      (order : List BlockHash)
  | cached (voters : List (Account × BitVec 64)) (hash : BlockHash) (order : List BlockHash)
  | insertBlock (hash : BlockHash)
  | removeBlock (hash : BlockHash)
  | tally (order : List BlockHash)
  | resume
  | environment (env : Environment)
  | transition (phase : Phase)

/-- The state after the votes of an event are recorded, and the order in which
`confirm_if_quorum` is then called. -/
def record (s : State) : Event → State × Option (List BlockHash)
  | .vote now rep timestamp hash order =>
    if shouldProcess s now rep timestamp hash then
      let s := { s with
        election.lastVotes := s.election.lastVotes.insert rep ⟨some now,timestamp,hash⟩ }
      (s,if s.election.confirmed then none else some order)
    else (s,none)
  | .cached voters hash order =>
    let s := { s with
      election.lastVotes := voters.foldl (fun v x =>
        if v.contains x.1 then v else v.insert x.1 ⟨none,x.2,hash⟩) s.election.lastVotes }
    (s,if s.election.confirmed ∨ s.election.lastVotes.size ≤ 1 then none else some order)
  | .insertBlock hash =>
    if hash ∈ s.election.lastBlocks then (s,none)
    else ({ s with election.lastBlocks := s.election.lastBlocks++[hash] },none)
  | .removeBlock hash =>
    if hash ≠ s.election.winner ∧ hash ∈ s.election.lastBlocks then ({ s with
      election.lastVotes := s.election.lastVotes.filter (fun _ i => decide (i.hash ≠ hash))
      election.lastBlocks := s.election.lastBlocks.filter (fun h => decide (h ≠ hash)) },none)
    else (s,none)
  | .tally order => ({ s with election := (tallyImpl s.env.weight s.election order).2 },none)
  | .environment env => ({ s with env := env },none)
  | .transition phase =>
    if validChange s.election.phase phase then ({ s with election.phase := phase },none)
    else (s,none)
  | .resume => (s,none)

def step (s : State) (e : Event) : Option (State × Bool) := match e with
  | .resume =>
    if s.released = 0 then some (s,false)
    else some (decideFinal { s with released := s.released-1 })
  | e => match record s e with
    | (s,some order) => confirmIfQuorum s order
    | (s,none) => some (s,false)

theorem step_record {s : State} {e : Event} (he : e ≠ .resume) :
    step s e = (record s e).2.elim (some ((record s e).1,false))
      (confirmIfQuorum (record s e).1) := by
  cases e with
  | resume => exact absurd rfl he
  | _ =>
    dsimp only [step]
    generalize record s _ = o
    obtain ⟨u,_ | order⟩ := o <;> rfl
end Vxldollar.Elections
