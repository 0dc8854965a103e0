import Vxldollar.Elections
import Vxldollar.Store

/-!
# The index of active elections

`active_transactions` finds elections by qualified root and by block hash. The two
maps are guarded by one lock and the blocks of an election by another, and
`publish` alternates between the two. An event is one section that runs under a
lock; what a thread remembers between its sections is its program counter. A block
is its hash, which determines its qualified root. Elections are objects that
threads keep referring to after they have left the index.
-/

namespace Vxldollar.ActiveIndex
open Std Blocks
open Elections (maxBlocks)

structure Contest where
  root : QualifiedRoot
  lastBlocks : List BlockHash
  winner : BlockHash
  confirmed : Bool := false

/-- Where a thread stands in `publish`: it has found the election, has chosen a block
to replace, has taken that block from the index, or has added its own block to the
election but not to the index. -/
inductive Pc where
  | idle
  | publishing (hash : BlockHash) (election : ℕ)
  | replacing (hash : BlockHash) (election : ℕ) (replaced : BlockHash)
  | removing (hash : BlockHash) (election : ℕ) (replaced : BlockHash)
  | inserted (hash : BlockHash) (election : ℕ)
  deriving DecidableEq, Repr

/-- Elections are numbered in the order they are made; `order` lists the roots by
age. -/
structure State where
  elections : ℕ → Contest
  next : ℕ
  roots : ExtTreeMap QualifiedRoot ℕ
  order : List QualifiedRoot
  blocks : ExtTreeMap BlockHash ℕ
  threads : ℕ → Pc

def State.empty : State where
  elections := fun _ => ⟨⟨0,0⟩,[],0,false⟩
  next := 0
  roots := ∅
  order := []
  blocks := ∅
  threads := fun _ => .idle

variable (rootOf : BlockHash → QualifiedRoot)

def blocksEmplace (blocks : ExtTreeMap BlockHash ℕ) (hash : BlockHash) (e : ℕ) :
    ExtTreeMap BlockHash ℕ :=
  if blocks.contains hash then blocks else blocks.insert hash e

def insertImpl (s : State) (hash : BlockHash) (recentlyConfirmed : Bool) : State :=
  let root := rootOf hash
  if s.roots.contains root || recentlyConfirmed then s
  else { s with
    elections := Function.update s.elections s.next ⟨root,[hash],hash,false⟩
    next := s.next+1
    roots := s.roots.insert root s.next
    order := s.order++[root]
    blocks := blocksEmplace s.blocks hash s.next }

def erase (s : State) (root : QualifiedRoot) : State := match s.roots[root]? with
  | none => s
  | some e => { s with
    blocks := (s.elections e).lastBlocks.foldl (fun m h => m.erase h) s.blocks
    roots := s.roots.erase (s.elections e).root
    order := s.order.filter (fun q => decide (q ≠ (s.elections e).root)) }

def eraseOldest (s : State) : State := match s.order with
  | root::_ => erase s root
  | [] => s

def setThread (s : State) (t : ℕ) (pc : Pc) : State :=
  { s with threads := Function.update s.threads t pc }

def setBlocks (s : State) (e : ℕ) (blocks : List BlockHash) : State :=
  { s with elections := Function.update s.elections e { s.elections e with lastBlocks := blocks } }

def lookup (s : State) (t : ℕ) (hash : BlockHash) : State :=
  match s.threads t,s.roots[rootOf hash]? with
  | .idle,some e => setThread s t (.publishing hash e)
  | _,_ => s

/-- `election::publish` up to where it gives the lock back. A full election replaces a
block or refuses the new one. Votes of an election are for blocks with its root, so
that the block to replace has that root as well; it is not the winner. -/
def publish (s : State) (t : ℕ) (replaced : Option BlockHash) : State := match s.threads t with
  | .publishing hash e =>
    let c := s.elections e
    if c.confirmed then setThread s t .idle
    else if c.lastBlocks.length ≥ maxBlocks ∧ hash ∉ c.lastBlocks then match replaced with
      | some r =>
        if r ≠ c.winner ∧ rootOf r = c.root then setThread s t (.replacing hash e r)
        else setThread s t .idle
      | none => setThread s t .idle
    else if hash ∈ c.lastBlocks then setThread s t .idle
    else setThread (setBlocks s e (c.lastBlocks++[hash])) t (.inserted hash e)
  | _ => s

def eraseHash (s : State) (t : ℕ) : State := match s.threads t with
  | .replacing hash e r => setThread { s with blocks := s.blocks.erase r } t (.removing hash e r)
  | _ => s

def removeBlock (s : State) (t : ℕ) : State := match s.threads t with
  | .removing hash e r =>
    let c := s.elections e
    let kept := if r ≠ c.winner then c.lastBlocks.filter (fun h => decide (h ≠ r)) else c.lastBlocks
    if hash ∈ kept then setThread (setBlocks s e kept) t .idle
    else setThread (setBlocks s e (kept++[hash])) t (.inserted hash e)
  | _ => s

def emplace (s : State) (t : ℕ) : State := match s.threads t with
  | .inserted hash e => setThread { s with blocks := blocksEmplace s.blocks hash e } t .idle
  | _ => s

inductive Event where
  | insert (hash : BlockHash) (recentlyConfirmed : Bool)
  | erase (root : QualifiedRoot)
  | eraseOldest
  | winner (election : ℕ) (hash : BlockHash)
  | confirm (election : ℕ)
  | lookup (thread : ℕ) (hash : BlockHash)
  | publish (thread : ℕ) (replaced : Option BlockHash)
  | eraseHash (thread : ℕ)
  | removeBlock (thread : ℕ)
  | emplace (thread : ℕ)

def step (s : State) : Event → State
  | .insert hash recentlyConfirmed => insertImpl rootOf s hash recentlyConfirmed
  | .erase root => erase s root
  | .eraseOldest => eraseOldest s
  | .winner e hash =>
    if hash ∈ (s.elections e).lastBlocks then
      { s with elections := Function.update s.elections e { s.elections e with winner := hash } }
    else s
  | .confirm e =>
    { s with elections := Function.update s.elections e { s.elections e with confirmed := true } }
  | .lookup t hash => lookup rootOf s t hash
  | .publish t replaced => publish rootOf s t replaced
  | .eraseHash t => eraseHash s t
  | .removeBlock t => removeBlock s t
  | .emplace t => emplace s t

def run (s : State) (evs : List Event) : State := evs.foldl (step rootOf) s

end Vxldollar.ActiveIndex
