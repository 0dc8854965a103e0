import Vxldollar.Library.Loop
import Vxldollar.Store

/-!
# What the two confirmation height processors share

Both walk a block table that does not change while they run and differ only in
how they walk it. What they leave behind is the confirmation heights, the
transactions they commit and the vectors they hand to the observers. Clocks,
the length of the waiting queue and the database write queue are read from an
environment, one reading for each time they are asked.
-/

namespace Vxldollar.Cementing
open Blocks Store

structure Reading where
  minTimeExceeded : Bool
  awaitingEmpty : Bool
  queueFree : Bool
  timeSpent : ℕ
  deriving DecidableEq, Repr

abbrev Environment := ℕ → Reading

/-- What a run has done so far. Commits and notified vectors are listed oldest
first. -/
structure Trace where
  ledger : Ledger
  batchWriteSize : ℕ := 16384
  commits : List Ledger := []
  notified : List (List StoredBlock) := []
  alreadyCemented : List BlockHash := []
  tick : ℕ := 0

namespace Trace

def commit (t : Trace) : Trace := { t with commits := t.commits ++ [t.ledger] }

def notify (t : Trace) (blocks : List StoredBlock) : Trace :=
  { t with notified := t.notified ++ [blocks] }

def notifyAlreadyCemented (t : Trace) (h : BlockHash) : Trace :=
  { t with alreadyCemented := t.alreadyCemented ++ [h] }

def next (t : Trace) : Trace := { t with tick := t.tick+1 }

def put (t : Trace) (a : Account) (height : ℕ) (frontier : BlockHash) (num : ℕ) : Trace :=
  { t with ledger := { t.ledger with
      confirmationHeight := t.ledger.confirmationHeight.insert a ⟨height,frontier⟩
      cache.cementedCount := t.ledger.cache.cementedCount+num } }

end Trace

/-- The test both processors use for a receive: the source, or else the link,
is the hash of a block and not an epoch link. -/
def receiveSource (C : Constants) (L : Ledger) (b : Block) : Option BlockHash :=
  let source := if b.source = 0 then b.link else b.source
  if source ≠ 0 ∧ C.isEpochLink source = false ∧ L.blocks.contains source = true then some source
  else none

def unboundedCutoff : ℕ := 16384

/-- One turn of the `run` loop: the next added block is processed, or the
queue is empty and what is pending is flushed. -/
inductive Turn where
  | process (hash : BlockHash)
  | idle
  deriving DecidableEq, Repr

def turns {P : Type} (process : P → BlockHash → Option P) (idle : P → Option P) :
    P → List Turn → Option P
  | p, [] => some p
  | p, .process h :: ts => (process p h).bind (fun q => turns process idle q ts)
  | p, .idle :: ts => (idle p).bind (fun q => turns process idle q ts)

def added : List Turn → List BlockHash
  | [] => []
  | .process h :: ts => h :: added ts
  | .idle :: ts => added ts

section
variable {P W : Type}

inductive Stage (P W : Type) where
  | between (p : P)
  | within (hash : BlockHash) (block : StoredBlock) (w : W)

variable (ledger : P → Ledger) (begin : P → BlockHash → W)
  (round : BlockHash → StoredBlock → W → Option (W ⊕ P)) (idle : P → Option P)
  (ok : P → BlockHash → Prop)

/-- The stages that runs of a processor come to, whether or not their turns
end, when blocks are only added where `ok` holds. -/
inductive Reaches (p₀ : P) : Stage P W → Prop
  | start : Reaches p₀ (.between p₀)
  | added {p : P} {h : BlockHash} {r : StoredBlock} : Reaches p₀ (.between p) →
      (ledger p).blocks[h]? = some r → ok p h → Reaches p₀ (.within h r (begin p h))
  | round {h : BlockHash} {r : StoredBlock} {w w' : W} : Reaches p₀ (.within h r w) →
      round h r w = some (.inl w') → Reaches p₀ (.within h r w')
  | finished {h : BlockHash} {r : StoredBlock} {w : W} {p : P} : Reaches p₀ (.within h r w) →
      round h r w = some (.inr p) → Reaches p₀ (.between p)
  | idled {p q : P} : Reaches p₀ (.between p) → idle p = some q → Reaches p₀ (.between q)

variable {ledger begin round idle ok}

theorem turns_reaches {fuel : ℕ} {p₀ p q : P} {ts : List Turn} (hok : ∀ p h, ok p h)
    (h : Reaches ledger begin round idle ok p₀ (.between p))
    (hq : turns (fun p h => (ledger p).blocks[h]?.bind (fun r =>
      Loop.loop (round h r) fuel (begin p h))) idle p ts = some q) :
    Reaches ledger begin round idle ok p₀ (.between q) := by
  induction ts generalizing p with
  | nil =>
    cases hq
    exact h
  | cons t ts ih =>
    cases t with
    | process a =>
      obtain ⟨p',hp',hq⟩ := Option.bind_eq_some_iff.mp hq
      obtain ⟨r,hr,hp'⟩ := Option.bind_eq_some_iff.mp hp'
      refine ih ?_ hq
      exact Loop.loop_partial (fun w => Reaches ledger begin round idle ok p₀ (.within a r w))
        (fun p => Reaches ledger begin round idle ok p₀ (.between p))
        (fun w w' hw hs => hw.round hs) (fun w p hw hs => hw.finished hs) fuel _ p'
        (h.added hr (hok p a)) hp'
    | idle =>
      obtain ⟨p',hp',hq⟩ := Option.bind_eq_some_iff.mp hq
      exact ih (h.idled hp') hq

end
end Vxldollar.Cementing
