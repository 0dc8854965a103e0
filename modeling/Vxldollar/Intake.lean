import Vxldollar.Process
import Vxldollar.Library.Ranges

/-!
# The intake of blocks

The block processor, the signature verification in front of it and the
unchecked map behind it. Three threads share the queues: one verifies
signatures, one processes blocks, one writes the buffer of the unchecked map. An
event is one section that a thread runs under a lock; an event that finds
nothing to do changes nothing. The queue of forced blocks is left out, and so is
the arrival time in an entry, which only the clean-up reads.
-/

namespace Vxldollar.Intake
open Std Blocks Store Process List Ranges

structure UncheckedInfo where
  block : Block
  account : Account
  verified : SignatureVerification
  deriving DecidableEq, Repr

structure UncheckedKey where
  previous : BlockHash
  hash : BlockHash
  deriving DecidableEq, Repr

instance : Ord UncheckedKey where
  compare a b := compareLex (compareOn UncheckedKey.previous) (compareOn UncheckedKey.hash) a b

instance : TransOrd UncheckedKey :=
  inferInstanceAs (TransCmp (compareLex (compareOn UncheckedKey.previous)
    (compareOn UncheckedKey.hash)))

instance : LawfulEqOrd UncheckedKey where
  eq_of_compare := by
    rintro ⟨a,x⟩ ⟨b,y⟩ h
    obtain ⟨ha,hx⟩ := Table.compareLex_eq.mp h
    exact congrArg₂ UncheckedKey.mk ha hx

inductive Item where
  | insert (dependency : BlockHash) (info : UncheckedInfo)
  | query (dependency : BlockHash)
  deriving DecidableEq, Repr

/-- `found` and `deleteQueue` are what is left of the query being answered. -/
structure State where
  ledger : Ledger
  stateBlocks : List UncheckedInfo := []
  blocks : List UncheckedInfo := []
  buffer : List Item := []
  backBuffer : List Item := []
  unchecked : ExtTreeMap UncheckedKey UncheckedInfo := ∅
  found : List UncheckedInfo := []
  deleteQueue : List UncheckedKey := []

/-- Why a thread dies: a failed `release_assert`, or a value that is not
there. -/
inductive Abort where
  | releaseAssert
  | missing
  deriving DecidableEq, Repr

def put (s : State) (dependency : BlockHash) (info : UncheckedInfo) : State :=
  { s with buffer := s.buffer ++ [.insert dependency info] }

def trigger (s : State) (dependency : BlockHash) : State :=
  { s with buffer := s.buffer ++ [.query dependency] }

/-- The end key wraps around at the last hash, where the range is open. -/
def equalRange (table : ExtTreeMap UncheckedKey UncheckedInfo) (dependency : BlockHash) :
    List (UncheckedKey × UncheckedInfo) :=
  entries table ⟨dependency,0⟩
    (if dependency < dependency+1 then some ⟨dependency+1,0⟩ else none)

section
variable (C : Constants)

def add (s : State) (info : UncheckedInfo) : State :=
  if info.verified = .unknown ∧
      (info.block.type = .state ∨ info.block.type = .open_ ∨ info.account ≠ 0) then
    { s with stateBlocks := s.stateBlocks ++ [info] }
  else { s with blocks := s.blocks ++ [info] }

def hasEpochLink (b : Block) : Bool := decide (b.link ≠ 0) && C.isEpochLink b.link

def verifyingAccount (info : UncheckedInfo) : Option Account :=
  if hasEpochLink C info.block then C.epochSigner info.block.link
  else if info.account ≠ 0 then some info.account
  else some info.block.account

/-- The block with its tag as `process_verified_state_blocks` queues it, if it
does. -/
def verifiedInfo (info : UncheckedInfo) (good : Bool) : Option UncheckedInfo :=
  if hasEpochLink C info.block then
    some { info with verified := if good then .validEpoch else .unknown }
  else if good then some { info with verified := .valid }
  else none

def verifyStateBlock (s : State) : Except Abort State := match s.stateBlocks with
  | [] => .ok s
  | info :: rest => match verifyingAccount C info with
    | none => .error .missing
    | some account =>
      let good := !C.validateMessage account (C.blockHash info.block) info.block.signature
      .ok { s with
        stateBlocks := rest, blocks := s.blocks ++ (verifiedInfo C info good).toList }

end

section
variable (C : Constants)

def isSend (L : Ledger) (h : StateHashables) : Option Bool :=
  if h.previous = 0 then some false
  else (L.balance h.previous).map (fun balance => decide (h.balance < balance))

def blockSource (L : Ledger) (b : Block) : Option BlockHash := match b.hashables with
  | .state h => (isSend L h).map (fun send => if send then b.source else h.link)
  | _ => some b.source

def triggersDestination (r : StoredBlock) : Bool := match r.block.type with
  | .send => true
  | .state => r.sideband.details.isSend &&
      decide (r.sideband.details.epoch.value < Epoch.epoch2.value)
  | _ => false

/-- What follows progress: the block's dependents are woken. -/
def progressed (s : State) (info : UncheckedInfo) (stored : StoredBlock) : Except Abort State :=
  if info.account ≠ 0 ∧ info.account ≠ stored.accountCalculated then .error .releaseAssert
  else
    let s := trigger s (C.blockHash info.block)
    if triggersDestination stored then
      .ok (trigger s (if info.block.destination = 0 then info.block.link
        else info.block.destination))
    else .ok s

def processOne (now : ℕ) (s : State) (info : UncheckedInfo) : Except Abort State :=
  match process C now s.ledger info.block info.verified with
  | none => .error .missing
  | some (result,L) =>
    let s := { s with ledger := L }
    let parked := { info with verified := result.verified }
    match result.code with
    | .progress => match L.blocks[C.blockHash info.block]? with
      | none => .error .missing
      | some stored => progressed C s info stored
    | .gapPrevious => .ok (put s info.block.previous parked)
    | .gapSource => match blockSource L info.block with
      | none => .error .missing
      | some source => .ok (put s source parked)
    | .gapEpochOpenPending => .ok (put s info.block.account parked)
    | _ => .ok s

def processFront (now : ℕ) (s : State) : Except Abort State := match s.blocks with
  | [] => .ok s
  | info :: rest => processOne C now { s with blocks := rest } info

end

section
variable (C : Constants) (disableDelete : Bool)

def writing (s : State) : Bool :=
  !s.backBuffer.isEmpty || !s.found.isEmpty || !s.deleteQueue.isEmpty

def swap (s : State) : State :=
  if writing s then s else { s with backBuffer := s.buffer, buffer := [] }

/-- The next item of the back buffer: `item_visitor`. -/
def visitItem (s : State) : State :=
  if !s.found.isEmpty || !s.deleteQueue.isEmpty then s
  else match s.backBuffer with
    | [] => s
    | .insert dependency info :: rest => { s with
        backBuffer := rest
        unchecked := s.unchecked.insert ⟨dependency,C.blockHash info.block⟩ info }
    | .query dependency :: rest =>
      let range := equalRange s.unchecked dependency
      { s with
        backBuffer := rest
        found := range.map Prod.snd
        deleteQueue := if disableDelete then [] else range.map Prod.fst }

def satisfy (s : State) : State := match s.found with
  | [] => s
  | info :: rest => add { s with found := rest } info

def deleteKey (s : State) : State := match s.found,s.deleteQueue with
  | [],key :: rest => { s with deleteQueue := rest, unchecked := s.unchecked.erase key }
  | _,_ => s

end

inductive Event where
  | add (info : UncheckedInfo)
  | verify
  | process (now : ℕ)
  | swap
  | visit
  | satisfy
  | delete
  deriving DecidableEq, Repr

def Event.internal : Event → Bool
  | .add _ => false
  | _ => true

section
variable (C : Constants) (disableDelete : Bool)

def step (s : State) : Event → Except Abort State
  | .add info => .ok (add s info)
  | .verify => verifyStateBlock C s
  | .process now => processFront C now s
  | .swap => .ok (swap s)
  | .visit => .ok (visitItem C disableDelete s)
  | .satisfy => .ok (satisfy s)
  | .delete => .ok (deleteKey s)

def run : State → List Event → Except Abort State
  | s, [] => .ok s
  | s, e :: es => (step C disableDelete s e).bind (fun s' => run s' es)

def Quiet (s : State) : Prop :=
  s.stateBlocks = [] ∧ s.blocks = [] ∧ s.buffer = [] ∧ s.backBuffer = [] ∧ s.found = [] ∧
    s.deleteQueue = []

end
variable {s : State} {info : UncheckedInfo}

def items (s : State) : List Item := s.backBuffer ++ s.buffer

def queue (s : State) : List UncheckedInfo := s.stateBlocks ++ s.blocks ++ s.found

variable {x : UncheckedInfo}

theorem mem_queue_add : x ∈ queue (add s info) ↔ x ∈ queue s ∨ x = info := by
  unfold add queue
  split_ifs
  · simp only [mem_append]
    grind
  · simp only [mem_append]
    grind

theorem add_rest (s : State) (info : UncheckedInfo) :
    (add s info).ledger = s.ledger ∧ items (add s info) = items s ∧
      (add s info).unchecked = s.unchecked ∧
      (add s info).deleteQueue = s.deleteQueue := by
  unfold add
  split_ifs
  · exact ⟨rfl,rfl,rfl,rfl⟩
  · exact ⟨rfl,rfl,rfl,rfl⟩

theorem items_put (s : State) (d : BlockHash) (info : UncheckedInfo) :
    items (put s d info) = items s ++ [.insert d info] :=
  (append_assoc ..).symm

theorem queue_process {rest : List UncheckedInfo} (hs : s.blocks = info :: rest) :
    x ∈ queue s ↔ x ∈ queue { s with blocks := rest } ∨ x = info := by
  unfold queue
  rw [hs]
  simp only [mem_append,mem_cons]
  grind

theorem uncheckedKey_lt {k l : UncheckedKey} : compare k l = .lt ↔
    k.previous < l.previous ∨ k.previous = l.previous ∧ k.hash < l.hash :=
  Table.compareLex_lt

theorem mem_equalRange {table : ExtTreeMap UncheckedKey UncheckedInfo} {d : BlockHash}
    {k : UncheckedKey} : (k,x) ∈ equalRange table d ↔ table[k]? = some x ∧ k.previous = d := by
  have hlow : compare k ⟨d,0⟩ ≠ .lt ↔ d ≤ k.previous := by
    rw [ne_eq,uncheckedKey_lt]
    simp
  unfold equalRange
  rw [← Table.mem_entries]
  by_cases hd : d < d+1
  · have hle : ∀ e ∈ some (⟨d+1,0⟩ : UncheckedKey), compare (⟨d,0⟩ : UncheckedKey) e ≠ .gt := by
      rintro e ⟨⟩
      rw [uncheckedKey_lt.mpr (.inl hd)]
      rintro ⟨⟩
    have hhigh : compare k ⟨d+1,0⟩ = .lt ↔ k.previous < d+1 := by
      rw [uncheckedKey_lt]
      simp
    rw [if_pos hd,entries_eq_filter _ _ _ hle,mem_filter]
    simp only [within,Option.all_some,Bool.and_eq_true,bne_iff_ne,beq_iff_eq,hlow,hhigh]
    refine and_congr_right fun _ => ?_
    bv_omega
  · rw [if_neg hd,entries_eq_filter _ _ _ (by rintro _ ⟨⟩),mem_filter]
    simp only [within,Option.all_none,Bool.and_true,bne_iff_ne,hlow]
    refine and_congr_right fun _ => ?_
    bv_omega

def Present (s : State) (x : UncheckedInfo) : Prop :=
  x ∈ queue s ∨ (∃ d, .insert d x ∈ items s) ∨ ∃ k : UncheckedKey, s.unchecked[k]? = some x

theorem present_add (h : Present (add s info) x) : Present s x ∨ x = info := by
  obtain ⟨-,hi,hu,-⟩ := add_rest s info
  rcases h with h | h | h
  · rcases mem_queue_add.mp h with h | h
    · exact .inl (.inl h)
    · exact .inr h
  · rw [hi] at h
    exact .inl (.inr (.inl h))
  · rw [hu] at h
    exact .inl (.inr (.inr h))

theorem present_swap (h : Present (swap s) x) : Present s x := by
  unfold swap at h
  split_ifs at h with hw
  · exact h
  · refine h.imp_right (Or.imp_left ?_)
    rintro ⟨d,hd⟩
    refine ⟨d,mem_append_right _ ?_⟩
    simpa [items] using hd

theorem present_satisfy (h : Present (satisfy s) x) : Present s x := by
  unfold satisfy at h
  split at h
  · exact h
  · next rest hf =>
    have hold : ∀ y, y ∈ queue { s with found := rest } → y ∈ queue s := by
      intro y hy
      simp only [queue] at hy ⊢
      grind
    rcases present_add h with h | rfl
    · exact h.imp_left (hold x)
    · exact .inl (by simp [queue,hf])

theorem present_delete (h : Present (deleteKey s) x) : Present s x := by
  unfold deleteKey at h
  split at h
  · refine h.imp_right (Or.imp_right ?_)
    rintro ⟨k,hk⟩
    refine ⟨k,?_⟩
    simp only [Table.get_erase] at hk
    split_ifs at hk
    exact hk
  · exact h

theorem present_visit {C : Constants} {disableDelete : Bool}
    (h : Present (visitItem C disableDelete s) x) : Present s x := by
  unfold visitItem at h
  by_cases hw : (!s.found.isEmpty || !s.deleteQueue.isEmpty) = true
  · rwa [if_pos hw] at h
  rw [if_neg hw] at h
  cases hb : s.backBuffer with
  | nil =>
    rw [hb] at h
    exact h
  | cons item rest =>
    have hlater : ∀ i, i ∈ rest ++ s.buffer → i ∈ items s := by
      intro i hi
      rw [items,hb]
      exact mem_cons_of_mem _ hi
    rw [hb] at h
    cases item with
    | insert d info =>
      rcases h with h | ⟨e,he⟩ | ⟨k,hk⟩
      · exact .inl h
      · exact .inr (.inl ⟨e,hlater _ he⟩)
      · simp only [Table.get_insert] at hk
        split_ifs at hk with hkey
        · cases hk
          refine .inr (.inl ⟨d,?_⟩)
          rw [items,hb]
          exact mem_cons_self
        · exact .inr (.inr ⟨k,hk⟩)
    | query d =>
      rcases h with h | ⟨e,he⟩ | ⟨k,hk⟩
      · rcases mem_append.mp h with h | h
        · exact .inl (mem_append_left _ h)
        · obtain ⟨⟨k,y⟩,hy,rfl⟩ := mem_map.mp h
          exact .inr (.inr ⟨k,(mem_equalRange.mp hy).1⟩)
      · exact .inr (.inl ⟨e,hlater _ he⟩)
      · exact .inr (.inr ⟨k,hk⟩)

end Vxldollar.Intake
