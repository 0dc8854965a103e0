import Vxldollar.ActiveIndex
import Vxldollar.Quorum
import Vxldollar.Library.Machine

/-!
# The blocks of an election

`publish` inserts a block into an election that holds ten blocks only in place of another
one. It picks the block to replace from the winner and the tally that it has read, gives
the lock back, and does not look whether `remove_block` has removed anything. The number
of blocks stays within ten as long as the picked block is still there and has not become
the winner.
-/

namespace Vxldollar.Publishing
open Blocks Elections Quorum List Machine Option

abbrev Weights := List (BlockHash × ℕ)

/-- Where the thread that calls `publish` stands: it has read the winner and the tally, or
it has picked the block to replace, zero for none. -/
inductive Publisher where
  | idle
  | picking (block winner : BlockHash) (tally : Weights)
  | replacing (block replaced : BlockHash)
  deriving DecidableEq

structure State where
  core : Elections.State
  lastTally : Weights := []
  publisher : Publisher := .idle

def State.blocks (s : State) : List BlockHash := s.core.election.lastBlocks

def State.winner (s : State) : BlockHash := s.core.election.winner

/-- What `tally_impl` leaves in `last_tally`. -/
def tallyWeights (s : Elections.State) : Weights :=
  (voted s.election.lastVotes).map fun h => (h,blockWeight s.env.weight s.election.lastVotes h)

def tallies (s : Elections.State) (ev : Elections.Event) : Bool := match ev with
  | .tally _ => true
  | ev => (record s ev).2.isSome

/-- The choice of `replace_by_weight`: `inactive` is the tally of the new block in the
inactive vote cache, `sorted` the tally in ascending order, `order` the blocks of the
election as they are traversed. -/
def replacedBlock (winner : BlockHash) (inactive : ℕ) (sorted : Weights)
    (order : List BlockHash) : BlockHash :=
  if inactive > 0 ∧ sorted.length < maxBlocks then
    (order.find? fun h => !sorted.any (fun x => x.1 == h) && h != winner).getD 0
  else if inactive > 0 then match sorted with
    | (h,w)::rest =>
      if inactive > w then
        if h ≠ winner then h
        else match rest with
          | (g,v)::_ => if inactive > v then g else 0
          | [] => 0
      else 0
    | [] => 0
  else 0

def emplace (s : State) (block : BlockHash) : State :=
  if block ∈ s.blocks then s else { s with core.election.lastBlocks := s.blocks++[block] }

def removeBlock (s : State) (hash : BlockHash) : State :=
  { s with core := (record s.core (.removeBlock hash)).1 }

def publish (s : State) (block : BlockHash) : State :=
  if s.core.election.confirmed then s
  else if s.blocks.length ≥ maxBlocks ∧ block ∉ s.blocks then
    { s with publisher := .picking block s.winner s.lastTally }
  else emplace s block

def replace (s : State) (block replaced : BlockHash) : State :=
  if replaced ≠ 0 then { emplace (removeBlock s replaced) block with publisher := .idle }
  else { s with publisher := .idle }

inductive Event where
  | publish (block : BlockHash)
  | pick (inactive : ℕ) (sorted : Weights) (order : List BlockHash)
  | replace
  | voter (ev : Elections.Event)
  | confirmIfQuorum (order : List BlockHash)

def step (s : State) : Event → Option State
  | .publish block => match s.publisher with
    | .idle => some (publish s block)
    | _ => some s
  | .pick inactive sorted order => match s.publisher with
    | .picking block winner _ =>
      some { s with publisher := .replacing block (replacedBlock winner inactive sorted order) }
    | _ => some s
  | .replace => match s.publisher with
    | .replacing block replaced => some (replace s block replaced)
    | _ => some s
  | .voter ev => (Elections.step s.core ev).map fun o => { s with
      core := o.1
      lastTally := if tallies s.core ev then tallyWeights (record s.core ev).1 else s.lastTally }
  | .confirmIfQuorum order => (Elections.confirmIfQuorum s.core order).map fun o => { s with
      core := o.1
      lastTally := tallyWeights s.core }

/-- Only `publish` inserts and removes blocks; the lists of an event are what the source
can traverse. -/
def Possible (s : State) : Event → Prop
  | .voter (.insertBlock _) | .voter (.removeBlock _) => False
  | .voter ev => Traverses s.core ev
  | .confirmIfQuorum order => order.Perm (voted s.core.election.lastVotes)
  | .pick _ sorted order => match s.publisher with
    | .picking _ _ tally =>
        sorted.Perm tally ∧ sorted.Pairwise (fun x y => x.2 ≤ y.2) ∧ order.Perm s.blocks
    | _ => True
  | _ => True

instance (s : State) (ev : Event) : Decidable (Possible s ev) := by
  cases ev <;> unfold Possible
  case pick => dsimp only; split <;> infer_instance
  case voter ev => cases ev <;> infer_instance
  all_goals infer_instance

abbrev Runs := Machine.Runs step Possible

def start (env : Environment) (now : ℕ) (hash : BlockHash) : State :=
  { core := { env := env, election := .start env.null now hash } }

def Within (s : State) : Prop := s.publisher = .idle →
  s.blocks.length ≤ maxBlocks ∧ s.winner ∈ s.blocks

def Finds (s : State) : Event → Prop
  | .replace => match s.publisher with
    | .replacing _ replaced => replaced ≠ 0 → replaced ∈ s.blocks ∧ replaced ≠ s.winner
    | _ => True
  | _ => True

instance (s : State) (ev : Event) : Decidable (Finds s ev) := by
  cases ev <;> unfold Finds
  case replace => dsimp only; split <;> infer_instance
  all_goals infer_instance

variable {s s' : State} {ev : Event}

section
structure Keeps (t u : Elections.State) : Prop where
  blocks : u.election.lastBlocks = t.election.lastBlocks
  winner : t.election.winner ∈ t.election.lastBlocks → u.election.winner ∈ t.election.lastBlocks

variable {t u : Elections.State}

theorem Keeps.refl (t : Elections.State) : Keeps t t := ⟨rfl,id⟩

theorem Keeps.trans {v : Elections.State} (h : Keeps t u) (h' : Keeps u v) : Keeps t v where
  blocks := h'.blocks.trans h.blocks
  winner := fun hw => h.blocks ▸ h'.winner (h.blocks.symm ▸ h.winner hw)

theorem decideFinal_keeps (t : Elections.State) : Keeps t (decideFinal t).1 := by
  unfold decideFinal
  split <;> exact ⟨rfl,id⟩

theorem removeVotes_keeps (t : Elections.State) (h : BlockHash) : Keeps t (removeVotes t h) := by
  unfold removeVotes
  split <;> exact ⟨rfl,id⟩

theorem changeWinner_keeps (t : Elections.State) (tally : List (ℕ × BlockHash)) {top : BlockHash}
    (htop : top ∈ t.election.lastBlocks) : Keeps t (changeWinner t tally top) := by
  unfold changeWinner
  split
  · have h := removeVotes_keeps { t with election.winner := top } t.election.winner
    exact ⟨h.blocks,fun _ => h.winner htop⟩
  · exact .refl t

theorem confirmIfQuorum_keeps {order : List BlockHash} {o : Elections.State × Bool}
    (h : Elections.confirmIfQuorum t order = some o) : Keeps t o.1 := by
  unfold Elections.confirmIfQuorum at h
  cases ht : tallyOf t.env.weight t.election.lastVotes t.election.lastBlocks order with
  | nil => simp [tallyImpl,ht] at h
  | cons x rest =>
    obtain ⟨a,top⟩ := x
    simp only [tallyImpl,ht] at h
    have T := tallied_tallyOf t.env.weight t.election.lastVotes t.election.lastBlocks order
    rw [ht] at T
    have hkeep := changeWinner_keeps { t with election :=
      { t.election with finalWeight := refreshFinal t.env.weight t.election ((a,top)::rest) } }
      ((a,top)::rest) (T.entry _ mem_cons_self).1
    generalize changeWinner _ ((a,top)::rest) top = u at h hkeep
    have hk : Keeps t u := ⟨hkeep.blocks,hkeep.winner⟩
    have hset : Keeps u { u with election.isQuorum := true } := ⟨rfl,id⟩
    split_ifs at h
    · cases h
      exact ⟨hk.blocks,hk.winner⟩
    · cases h
      exact (hk.trans hset).trans (decideFinal_keeps _)
    · cases h
      exact hk.trans (decideFinal_keeps _)
    · cases h
      exact hk

theorem record_keeps {ev : Elections.Event} (hp : Possible s (.voter ev)) :
    Keeps t (record t ev).1 := by
  cases ev with
  | vote now rep timestamp hash order =>
    dsimp only [record]
    split <;> exact ⟨rfl,id⟩
  | insertBlock hash => exact hp.elim
  | removeBlock hash => exact hp.elim
  | transition phase =>
    dsimp only [record]
    split <;> exact ⟨rfl,id⟩
  | _ => exact ⟨rfl,id⟩

theorem voter_keeps {ev : Elections.Event} {o : Elections.State × Bool}
    (hp : Possible s (.voter ev)) (h : Elections.step t ev = some o) : Keeps t o.1 := by
  by_cases hres : ev = .resume
  · subst hres
    unfold Elections.step at h
    dsimp only at h
    split at h
    · cases h
      exact .refl t
    · cases h
      have hd := decideFinal_keeps { t with released := t.released-1 }
      exact ⟨hd.blocks,hd.winner⟩
  · have hr := record_keeps (t := t) hp
    rw [Elections.step_record hres] at h
    generalize record t ev = x at h hr
    obtain ⟨u,_ | order⟩ := x
    · cases h
      exact hr
    · exact hr.trans (confirmIfQuorum_keeps h)

end

section
structure Inv (s : State) : Prop where
  winner : s.winner ∈ s.blocks
  nodup : s.blocks.Nodup
  waiting : ∀ block, (∃ w tally, s.publisher = .picking block w tally) ∨
    (∃ replaced, s.publisher = .replacing block replaced) →
      block ∉ s.blocks ∧ maxBlocks ≤ s.blocks.length

theorem start_inv (env : Environment) (now : ℕ) (hash : BlockHash) : Inv (start env now hash) where
  winner := mem_singleton_self hash
  nodup := nodup_singleton hash
  waiting := by
    rintro block (⟨w,tally,h⟩ | ⟨replaced,h⟩) <;> cases h

theorem Inv.keeps (I : Inv s) {core : Elections.State} {tally : Weights} (h : Keeps s.core core) :
    Inv { s with core := core, lastTally := tally } := by
  have hb : ({ s with core := core, lastTally := tally } : State).blocks = s.blocks := h.blocks
  constructor
  · rw [hb]
    exact h.winner I.winner
  · rw [hb]
    exact I.nodup
  · rw [hb]
    exact I.waiting

theorem removeBlock_blocks (s : State) (hash : BlockHash) : (removeBlock s hash).blocks =
    if hash ∈ s.blocks ∧ hash ≠ s.winner then s.blocks.filter (fun h => decide (h ≠ hash))
    else s.blocks := by
  unfold removeBlock State.blocks State.winner record
  dsimp only
  by_cases h : hash ∈ s.core.election.lastBlocks ∧ hash ≠ s.core.election.winner
  · rw [if_pos h,if_pos h.symm]
  · rw [if_neg h,if_neg fun e => h e.symm]

theorem removeBlock_winner (s : State) (hash : BlockHash) :
    (removeBlock s hash).winner = s.winner := by
  unfold removeBlock State.winner record
  dsimp only
  split <;> rfl

section
open ActiveIndex (Contest Pc setThread setBlocks)

variable {a : ActiveIndex.State} {t e : ℕ} {block r : BlockHash} {root : QualifiedRoot}

def contest (root : QualifiedRoot) (e : Election) : Contest :=
  ⟨root,e.lastBlocks,e.winner,e.confirmed⟩

theorem removeBlock_contest : contest root (removeBlock s r).core.election =
    { contest root s.core.election with lastBlocks := (removeBlock s r).blocks } := by
  simp only [removeBlock,record,State.blocks]
  split <;> rfl

theorem emplace_contest (h : block ∉ s.blocks) : contest root (emplace s block).core.election =
    { contest root s.core.election with lastBlocks := s.blocks++[block] } := by
  rw [emplace,if_neg h]
  rfl

theorem setBlocks_elections (bs : List BlockHash) (pc : Pc) :
    (setThread (setBlocks a e bs) t pc).elections e = { a.elections e with lastBlocks := bs } := by
  simp [setThread,setBlocks]

variable (he : a.elections e = contest root s.core.election)
include he

/-- A thread of the index does to the blocks of the election what `publish` does. -/
theorem publish_contest {rootOf : BlockHash → QualifiedRoot}
    (ht : a.threads t = .publishing block e) (replaced : Option BlockHash) :
    (ActiveIndex.publish rootOf a t replaced).elections e =
      contest root (publish s block).core.election := by
  have hblocks : (a.elections e).lastBlocks = s.blocks := by rw [he]; rfl
  have hconfirmed : (a.elections e).confirmed = s.core.election.confirmed := by rw [he]; rfl
  simp only [ActiveIndex.publish,ht,publish,hblocks,hconfirmed]
  split_ifs with hc hf hb
  · exact he
  · cases replaced with
    | none => exact he
    | some r => dsimp only; split <;> exact he
  · rw [emplace,if_pos hb]
    exact he
  · rw [emplace_contest hb,setBlocks_elections,he]

theorem replace_contest (ht : a.threads t = .removing block e r) (h0 : r ≠ 0) :
    (ActiveIndex.removeBlock a t).elections e = contest root (replace s block r).core.election := by
  have hkept : (if r ≠ (a.elections e).winner then
      (a.elections e).lastBlocks.filter (fun h => decide (h ≠ r)) else (a.elections e).lastBlocks) =
      (removeBlock s r).blocks := by
    rw [removeBlock_blocks,he]
    by_cases hr : r ∈ s.blocks
    · simp only [hr,true_and]
      rfl
    · have hall : s.blocks.filter (fun h => decide (h ≠ r)) = s.blocks :=
        filter_eq_self.mpr fun h hh => decide_eq_true fun e : h = r => hr (e ▸ hh)
      simp only [hr,false_and,if_false]
      exact (congrArg₂ _ hall rfl).trans (ite_self _)
  simp only [ActiveIndex.removeBlock,ht,hkept,replace,if_pos h0]
  split_ifs with hb
  · rw [emplace,if_pos hb,setBlocks_elections,he,removeBlock_contest]
  · rw [emplace_contest hb,setBlocks_elections,he,removeBlock_contest]

end

theorem filter_length {l : List BlockHash} {h : BlockHash} (hd : l.Nodup) (hm : h ∈ l) :
    (l.filter (fun g => decide (g ≠ h))).length+1 = l.length := by
  have hbne : (fun g => decide (g ≠ h)) = (fun g => g != h) := by
    funext g
    rw [decide_not]
    rfl
  rw [hbne,← hd.erase_eq_filter,length_erase_of_mem hm]
  have := length_pos_of_mem hm
  omega

structure Grows (s s' : State) (finds : Prop) : Prop where
  inv : Inv s'
  grows : s.blocks.length ≤ s'.blocks.length
  within : finds → s.blocks.length ≤ maxBlocks → s'.blocks.length ≤ maxBlocks
  beyond : ¬ finds → s'.publisher = .idle ∧ maxBlocks < s'.blocks.length

variable {finds : Prop}

theorem Grows.same (hf : finds) (hb : s'.blocks = s.blocks) (I : Inv s') :
    Grows s s' finds where
  inv := I
  grows := hb ▸ le_rfl
  within := fun _ h => hb.symm ▸ h
  beyond := fun hn => absurd hf hn

variable {block replaced : BlockHash}

theorem emplaced_inv (hw : s.winner ∈ s.blocks) (hd : s.blocks.Nodup) (hb : block ∉ s.blocks) :
    Inv { emplace s block with publisher := .idle } ∧
      (emplace s block).blocks = s.blocks++[block] := by
  rw [emplace,if_neg hb]
  refine ⟨⟨mem_append_left _ hw,?_,?_⟩,rfl⟩
  · exact List.Nodup.append hd (nodup_singleton block) (by simpa using hb)
  · rintro block (⟨w,tally,h⟩ | ⟨replaced,h⟩) <;> cases h

theorem publish_grows (I : Inv s) (hi : s.publisher = .idle) (block : BlockHash) (hf : finds) :
    Grows s (publish s block) finds := by
  unfold publish
  split
  · exact .same hf rfl I
  split
  next hc => exact .same hf rfl ⟨I.winner,I.nodup,fun b hb => by
    rcases hb with ⟨w,tally,h⟩ | ⟨replaced,h⟩
    · obtain rfl := (Publisher.picking.inj h).1
      exact ⟨hc.2,hc.1⟩
    · cases h⟩
  next hc =>
    by_cases hb : block ∈ s.blocks
    · rw [emplace,if_pos hb]
      exact .same hf rfl I
    · obtain ⟨I',hb'⟩ := emplaced_inv I.winner I.nodup hb
      have hlt : s.blocks.length < maxBlocks := by
        by_contra hle
        exact hc ⟨not_lt.mp hle,hb⟩
      have hsame : { emplace s block with publisher := .idle } = emplace s block := by
        rw [emplace,if_neg hb,← hi]
      rw [hsame] at I'
      refine ⟨I',?_,fun _ _ => ?_,fun hn => absurd hf hn⟩
      · rw [hb',length_append]
        omega
      · rw [hb',length_append,length_singleton]
        omega

theorem replace_grows (I : Inv s) (hp : s.publisher = .replacing block replaced) :
    Grows s (replace s block replaced)
      (replaced ≠ 0 → replaced ∈ s.blocks ∧ replaced ≠ s.winner) := by
  obtain ⟨hblock,hfull⟩ := I.waiting block (.inr ⟨replaced,hp⟩)
  unfold replace
  by_cases h0 : replaced ≠ 0
  · rw [if_pos h0]
    by_cases hf : replaced ∈ s.blocks ∧ replaced ≠ s.winner
    · -- one block goes, one comes
      have hr : (removeBlock s replaced).blocks =
          s.blocks.filter (fun h => decide (h ≠ replaced)) := by
        rw [removeBlock_blocks,if_pos hf]
      have hw : (removeBlock s replaced).winner ∈ (removeBlock s replaced).blocks := by
        rw [hr,removeBlock_winner]
        exact mem_filter.mpr ⟨I.winner,decide_eq_true hf.2.symm⟩
      have hd : (removeBlock s replaced).blocks.Nodup := hr ▸ I.nodup.filter _
      have hb : block ∉ (removeBlock s replaced).blocks := by
        rw [hr]
        exact fun h => hblock (mem_filter.mp h).1
      obtain ⟨I',hb'⟩ := emplaced_inv hw hd hb
      have hlen : (emplace (removeBlock s replaced) block).blocks.length = s.blocks.length := by
        rw [hb',hr,length_append,length_singleton,filter_length I.nodup hf.1]
      exact ⟨I',hlen.ge,fun _ h => hlen.trans_le h,fun hn => absurd (fun _ => hf) hn⟩
    · -- nothing goes
      have hr : (removeBlock s replaced).blocks = s.blocks := by
        rw [removeBlock_blocks,if_neg hf]
      have hw : (removeBlock s replaced).winner ∈ (removeBlock s replaced).blocks := by
        rw [hr,removeBlock_winner]
        exact I.winner
      obtain ⟨I',hb'⟩ := emplaced_inv hw (hr ▸ I.nodup) (hr.symm ▸ hblock)
      have hlen : (emplace (removeBlock s replaced) block).blocks.length = s.blocks.length+1 := by
        rw [hb',hr,length_append,length_singleton]
      refine ⟨I',?_,fun h => absurd (h h0) hf,fun _ => ⟨rfl,?_⟩⟩
      · show s.blocks.length ≤ (emplace (removeBlock s replaced) block).blocks.length
        omega
      · show maxBlocks < (emplace (removeBlock s replaced) block).blocks.length
        omega
  · rw [if_neg h0]
    refine .same (fun h => absurd h h0) rfl ⟨I.winner,I.nodup,?_⟩
    rintro block (⟨w,tally,h⟩ | ⟨replaced,h⟩) <;> cases h

theorem step_grows (I : Inv s) (hp : Possible s ev) (h : step s ev = some s') :
    Grows s s' (Finds s ev) := by
  cases ev with
  | publish block =>
    have hf : Finds s (.publish block) := trivial
    cases hpub : s.publisher with
    | idle =>
      simp only [step,hpub] at h
      cases h
      exact publish_grows I hpub block hf
    | _ =>
      simp only [step,hpub] at h
      cases h
      exact .same hf rfl I
  | pick inactive sorted order =>
    have hf : Finds s (.pick inactive sorted order) := trivial
    cases hpub : s.publisher with
    | picking block w tally =>
      simp only [step,hpub] at h
      cases h
      refine .same hf rfl ⟨I.winner,I.nodup,?_⟩
      rintro b (⟨w',tally',e⟩ | ⟨replaced,e⟩)
      · cases e
      · obtain rfl := (Publisher.replacing.inj e).1
        exact I.waiting block (.inl ⟨w,tally,hpub⟩)
    | _ =>
      simp only [step,hpub] at h
      cases h
      exact .same hf rfl I
  | replace =>
    cases hpub : s.publisher with
    | replacing block replaced =>
      simp only [step,hpub] at h
      cases h
      simp only [Finds,hpub]
      exact replace_grows I hpub
    | _ =>
      simp only [step,hpub] at h
      cases h
      simp only [Finds,hpub]
      exact .same trivial rfl I
  | voter ev =>
    obtain ⟨o,ho,rfl⟩ := map_eq_some_iff.mp h
    have hk := voter_keeps hp ho
    exact .same trivial hk.blocks (I.keeps hk)
  | confirmIfQuorum order =>
    obtain ⟨o,ho,rfl⟩ := map_eq_some_iff.mp h
    have hk := confirmIfQuorum_keeps ho
    exact .same trivial hk.blocks (I.keeps hk)

end

section
variable {ms : List (State × Event)}

/-- An election that starts with one block holds at most ten blocks and its winner
whenever no `publish` is in progress, exactly if every block that is picked for
replacement is still there and not the winner when it is removed. -/
theorem ten_blocks_iff (env : Environment) (now : ℕ) (hash : BlockHash)
    (h : Runs (start env now hash) ms s) :
    ((∀ m ∈ ms, Within m.1) ∧ Within s) ↔ ∀ m ∈ ms, Finds m.1 m.2 := by
  apply h.wanted_iff (G := fun s => Inv s ∧ s.blocks.length ≤ maxBlocks)
  · exact ⟨start_inv env now hash,by show 1 ≤ maxBlocks; decide⟩
  · exact fun s hs _ => ⟨hs.2,hs.1.winner⟩
  · intro s ev s' hs hp hstep hf
    have G := step_grows hs.1 hp hstep
    exact ⟨G.inv,G.within hf hs.2⟩
  · intro s ev s' hs hp hstep hf hw
    obtain ⟨hidle,hlt⟩ := (step_grows hs.1 hp hstep).beyond hf
    exact absurd (hw hidle).1 (not_le.mpr hlt)

end

def crowdedRun : List Event :=
  [.publish 2,.publish 3,.publish 4,.publish 5,.publish 6,.publish 7,.publish 8,.publish 9,
    .publish 10,.publish 11,.pick 1 [] [2,1,3,4,5,6,7,8,9,10]]

theorem runs_of_exec (l : List Event) (c : List (State × Event) × State → Bool)
    (h : (exec step Possible (start sampleEnvironment 0 1) l).any c = true) :
    ∃ ms s, Runs (start sampleEnvironment 0 1) ms s ∧ c (ms,s) = true :=
  exec_any h

theorem ten_blocks_iff_sample : ∃ ms s, Runs (start sampleEnvironment 0 1) ms s ∧
    s.blocks = [1,3,4,5,6,7,8,9,10,11] ∧ (∀ m ∈ ms, Within m.1) ∧ Within s := by
  obtain ⟨ms,s,r,hcheck⟩ := runs_of_exec (crowdedRun++[.replace])
    (fun o => decide (o.2.blocks = [1,3,4,5,6,7,8,9,10,11]) &&
      o.1.all fun m => decide (Finds m.1 m.2)) (by decide +kernel)
  obtain ⟨hb,hall⟩ := Bool.and_eq_true_iff.mp hcheck
  refine ⟨ms,s,r,of_decide_eq_true hb,(ten_blocks_iff sampleEnvironment 0 1 r).mpr fun m hm => ?_⟩
  exact of_decide_eq_true (all_eq_true.mp hall m hm)

/-- Representative 1 votes for block 2 before it is removed. Block 2 becomes the winner and
stays, and block 11 is inserted. -/
theorem eleven_blocks : ∃ ms s, Runs (start sampleEnvironment 0 1) ms s ∧
    s.publisher = .idle ∧ s.blocks.length = maxBlocks+1 ∧ ¬ Within s := by
  obtain ⟨ms,s,r,hs⟩ := runs_of_exec (crowdedRun++[.voter (.vote 1 1 5 2 [1,2]),.replace])
    (fun o => decide (o.2.publisher = .idle ∧ o.2.blocks.length = maxBlocks+1)) (by decide +kernel)
  obtain ⟨hidle,hlen⟩ := of_decide_eq_true hs
  refine ⟨ms,s,r,hidle,hlen,fun hw => ?_⟩
  have hle : s.blocks.length ≤ maxBlocks := (hw hidle).1
  rw [show s.blocks.length = maxBlocks+1 from hlen] at hle
  omega
end Vxldollar.Publishing
