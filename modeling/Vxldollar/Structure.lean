import Vxldollar.Runs

/-!
# The structure of the tables

What the tables of a reachable ledger look like without any reference to the
lattice: the chains, the successors patched into the sidebands, the frontiers
of legacy heads and the pending entries of unreceived sends.
-/

namespace Vxldollar.Structure
open Blocks Store Vxldollar.Lattice Chains Mirror Heights Runs

section
variable (C : Constants) (L : Ledger)

/-- The walk from a head down `previous`, and what the account's info says
about it. -/
structure ChainOf (a : Account) (i : AccountInfo) : Prop where
  walk : ∀ k < i.blockCount, ∃ r, L.blocks[L.previousOf^[k] i.head]? = some r ∧
    r.accountCalculated = a ∧ r.sideband.height = i.blockCount-k ∧
    r.sideband.successor = if k = 0 then 0 else L.previousOf^[k-1] i.head
  positive : 1 ≤ i.blockCount
  opening : L.previousOf^[i.blockCount-1] i.head = i.openBlock
  ending : L.previousOf^[i.blockCount] i.head = 0
  balance : L.balance i.head = some i.balance
  epoch : L.version i.head = i.epoch
  representative : ∃ f r, Rollback.representative C L i.head = some f ∧ L.blocks[f]? = some r ∧
    r.block.representative = i.representative

def OnChain (h : BlockHash) (a : Account) : Prop :=
  ∃ i, L.accounts[a]? = some i ∧ ∃ k < i.blockCount, L.previousOf^[k] i.head = h

def sentTo (r : StoredBlock) : Option Account := match r.block.hashables with
  | .send h => some h.destination
  | .state h => if h.balance < (L.balance h.previous).getD 0 then some h.link else none
  | _ => none

def receivedFrom (r : StoredBlock) : Option BlockHash := match r.block.hashables with
  | .receive h => some h.source
  | .open_ h => some h.source
  | .state h =>
    if h.balance < (L.balance h.previous).getD 0 then none
    else if h.link = 0 then none
    else if C.isEpochLink h.link then none
    else some h.link
  | _ => none

def IsFrontier (h : BlockHash) (a : Account) : Prop :=
  ∃ i r, L.accounts[a]? = some i ∧ i.head = h ∧ L.blocks[h]? = some r ∧ r.block.type ≠ .state

/-- The entry of a send to the key's account that no block receives. -/
def IsPending (k : PendingKey) (i : PendingInfo) : Prop :=
  ∃ r, L.blocks[k.hash]? = some r ∧ sentTo L r = some k.account ∧
    (∀ (g : BlockHash) q, L.blocks[g]? = some q → receivedFrom C L q ≠ some k.hash) ∧
    L.account k.hash = some i.source ∧ L.amount k.hash = some i.amount ∧
    L.version k.hash = i.epoch

end

section
variable {C : Constants} {U : Set Hashables} {S : HashSound C U} {X : Nodes} {L : Ledger}
  {h g : BlockHash} {n m : Node} {r : StoredBlock} {s : BlockHash}

theorem previousOf_eq (M : Mirrors L X) : L.previousOf = back X := by
  funext h
  unfold Ledger.previousOf back
  cases hX : X h with
  | none =>
    rw [M.absent.mpr hX]
    rfl
  | some n =>
    obtain ⟨r,hr,hs⟩ := M.get hX
    rw [hr]
    exact hs.previous

theorem successor_of_head (hh : Head X h n) (hs : SuccessorOf X h s) : s = 0 := by
  rcases hs with ⟨e,-⟩ | ⟨m,hm,hp⟩
  · exact e
  · exact absurd hp (hh.2 s m hm)

theorem successor_of_next (hb : Built S X) (hg : X g = some m) (hp : m.previous = h) (h0 : h ≠ 0)
    (hs : SuccessorOf X h s) : s = g := by
  rcases hs with ⟨-,hno⟩ | ⟨x,hx,hxp⟩
  · exact absurd hp (hno g m hg)
  · exact one_successor hb hx hg (hxp.trans hp.symm) (hxp ▸ h0)

theorem walk_successor (hb : Built S X) (hh : Head X g n) (k : ℕ) (hk : k < n.height)
    (hs : SuccessorOf X ((back X)^[k] g) s) :
    s = if k = 0 then 0 else (back X)^[k-1] g := by
  cases k with
  | zero => exact successor_of_head hh hs
  | succ k =>
    obtain ⟨m,hm,-⟩ := back_iterate hb hh.1 k (by omega)
    obtain ⟨p,hp,-⟩ := back_iterate hb hh.1 (k+1) hk
    rw [Function.iterate_succ_apply',back_eq hm] at hs hp
    exact successor_of_next hb hm rfl (built_key_ne_zero hb hp) hs

section
variable (M : Mirrors L X) (hb : Built S X)
include M hb

theorem chain_of_account {a : Account} {i : AccountInfo} (hi : L.accounts[a]? = some i) :
    ChainOf C L a i := by
  obtain ⟨g,n,hh,rfl,e⟩ := M.account a i hi
  rw [e]
  have hend := back_opening hb hh.1
  refine ⟨?_,height_pos hb hh.1,?_,?_,M.balance hb hh.1,M.version hb hh.1,
    Retractions.representative_spec M hb hh.1⟩
  · intro k hk
    rw [previousOf_eq M]
    obtain ⟨m,hm,hacc,hheight,-⟩ := back_iterate hb hh.1 k hk
    obtain ⟨r,hr,hs⟩ := M.get hm
    refine ⟨r,hr,(stores_account hb hm hs).trans hacc,?_,walk_successor hb hh k hk hs.successor⟩
    rw [stores_height hb hm hs]
    change m.height = n.height-k
    omega
  · rw [previousOf_eq M]
    exact hend.1
  · rw [previousOf_eq M]
    exact hend.2

theorem one_chain (hr : L.blocks[h]? = some r) : ∃! a, OnChain L h a := by
  obtain ⟨n,hX,-⟩ := M.block h r hr
  obtain ⟨g,x,hh,hacc,-⟩ := head_exists hb hX
  obtain ⟨t,ht⟩ := M.head hb hh
  have hle := height_le_head hb hX hh hacc.symm
  have hpos := height_pos hb hX
  refine ⟨x.account,⟨_,ht,x.height-n.height,?_,?_⟩,?_⟩
  · change x.height-n.height < x.height
    omega
  · rw [previousOf_eq M]
    exact walk_reaches hb hX hh hacc.symm
  · rintro a ⟨i,hi,k,hk,hwalk⟩
    obtain ⟨g',x',hh',rfl,e⟩ := M.account a i hi
    rw [e] at hk hwalk
    rw [previousOf_eq M] at hwalk
    obtain ⟨m,hm,hma,-⟩ := back_iterate hb hh'.1 k hk
    rw [show (back X)^[k] g' = h from hwalk] at hm
    cases hX.symm.trans hm
    exact hma.symm.trans hacc.symm

theorem frontier_iff (h : BlockHash) (a : Account) :
    L.frontiers[h]? = some a ↔ IsFrontier L h a := by
  rw [M.frontier]
  constructor
  · rintro ⟨n,hh,hl,rfl⟩
    obtain ⟨t,ht⟩ := M.head hb hh
    obtain ⟨r,hr,hs⟩ := M.get hh.1
    refine ⟨_,r,ht,rfl,hr,?_⟩
    rw [Block.type,hs.hashables]
    exact hl
  · rintro ⟨i,r,hi,rfl,hr,ht⟩
    obtain ⟨g,n,hh,rfl,e⟩ := M.account a i hi
    rw [e] at hr ⊢
    obtain ⟨n',hn',hs⟩ := M.block _ r hr
    cases hh.1.symm.trans hn'
    refine ⟨n,hh,?_,rfl⟩
    rw [Block.type,hs.hashables] at ht
    exact ht

section
variable (hX : X h = some n) (hs : Stores X h n r)
include hX hs

theorem sentTo_eq (d : Account) :
    sentTo L r = some d ↔ n.move = .send d := by
  unfold sentTo
  rw [hs.hashables]
  rcases built_justified hb hX with ⟨-,rfl⟩ | hj
  · exact ⟨nofun,nofun⟩
  · rw [justified_move hj]
    have hbal := M.previousBalance hb hj
    cases hn : n.hashables with
    | state q =>
      rw [Node.previous,hn] at hbal
      have hbal' : L.balance q.previous = some (previousBalance (X q.previous)) := hbal
      simp only [moveOf,hbal',Option.getD_some,Node.previous,hn,Hashables.previous]
      split_ifs <;> simp
    | _ => simp [moveOf]

theorem receivedFrom_eq (hg : X g = some m) :
    receivedFrom C L r = some g ↔ n.move = .receive g := by
  unfold receivedFrom
  rw [hs.hashables]
  rcases built_justified hb hX with ⟨-,rfl⟩ | hj
  · obtain ⟨e,hU⟩ := built_hash hb hg
    have hne : C.genesisAccount ≠ g := by
      rw [← e]
      exact (S.ne_genesis _ hU).symm
    simp [genesisNode,Constants.genesis,hne]
  · rw [justified_move hj]
    have hbal := M.previousBalance hb hj
    cases hn : n.hashables with
    | state q =>
      rw [Node.previous,hn] at hbal
      have hbal' : L.balance q.previous = some (previousBalance (X q.previous)) := hbal
      simp only [moveOf,hbal',Option.getD_some,Node.previous,hn,Hashables.previous]
      split_ifs <;> simp
    | _ => simp [moveOf]

end

theorem pending_iff (k : PendingKey) (i : PendingInfo) :
    L.pending[k]? = some i ↔ IsPending C L k i := by
  rw [M.pending]
  constructor
  · rintro ⟨n,⟨hX,hmove,hno⟩,rfl⟩
    obtain ⟨r,hr,hs⟩ := M.get hX
    have hj : Justified C U X k.hash n := by
      refine (built_justified hb hX).resolve_left ?_
      rintro ⟨-,rfl⟩
      cases hmove
    refine ⟨r,hr,(sentTo_eq M hb hX hs _).mpr hmove,?_,M.owner hb hX,M.amount hb hX hj,
      M.version hb hX⟩
    intro g q hq hrec
    obtain ⟨m,hm,hms⟩ := M.block g q hq
    exact hno g m hm ((receivedFrom_eq M hb hm hms hX).mp hrec)
  · rintro ⟨r,hr,hsent,hno,hsrc,hamount,hepoch⟩
    obtain ⟨n,hX,hs⟩ := M.block _ r hr
    have hmove := (sentTo_eq M hb hX hs _).mp hsent
    have hj : Justified C U X k.hash n := by
      refine (built_justified hb hX).resolve_left ?_
      rintro ⟨-,rfl⟩
      cases hmove
    refine ⟨n,⟨hX,hmove,fun g m hm hrec => ?_⟩,?_⟩
    · obtain ⟨q,hq,hqs⟩ := M.get hm
      exact hno g q hq ((receivedFrom_eq M hb hm hqs hX).mpr hrec)
    · rw [M.owner hb hX] at hsrc
      rw [M.amount hb hX hj] at hamount
      rw [M.version hb hX] at hepoch
      cases i
      simp_all [pendingOf]

end

theorem one_entry {k k' : PendingKey} {i i' : PendingInfo} (M : Mirrors L X)
    (h : L.pending[k]? = some i) (h' : L.pending[k']? = some i') (he : k.hash = k'.hash) :
    k = k' := by
  obtain ⟨n,hu,-⟩ := (M.pending _ _).mp h
  obtain ⟨m,hu',-⟩ := (M.pending _ _).mp h'
  rw [← he] at hu'
  have hacc := (Growth.unreceived_destination hu hu').2
  cases k
  cases k'
  simp_all

end

/-- In every reachable ledger the tables are chains of blocks with their
frontiers and pending entries. -/
theorem chain_structure {C : Constants} {U : Set Hashables} (S : HashSound C U) {L : Ledger}
    (hr : Reachable C U L) :
    (∀ (a : Account) i, L.accounts[a]? = some i → ChainOf C L a i) ∧
    (∀ (h : BlockHash) r, L.blocks[h]? = some r → ∃! a, OnChain L h a) ∧
    (∀ (h : BlockHash) a, L.frontiers[h]? = some a ↔ IsFrontier L h a) ∧
    (∀ (k : PendingKey) i, L.pending[k]? = some i ↔ IsPending C L k i) ∧
    (∀ (k k' : PendingKey) i i', L.pending[k]? = some i → L.pending[k']? = some i' →
      k.hash = k'.hash → k = k') := by
  obtain ⟨X,V⟩ := reachable_valid S hr
  exact ⟨fun a i => chain_of_account V.mirrors V.built,fun h r => one_chain V.mirrors V.built,
    frontier_iff V.mirrors V.built,pending_iff V.mirrors V.built,
    fun _ _ _ _ => one_entry V.mirrors⟩

theorem chain_structure_sample : Reachable sample sampleBlocks sampleOpened ∧
    (∃ i, sampleOpened.accounts[(7 : Account)]? = some i ∧ ChainOf sample sampleOpened 7 i) := by
  have hi : ∃ i, sampleOpened.accounts[(7 : Account)]? = some i :=
    Option.isSome_iff_exists.mp (by decide +kernel)
  obtain ⟨i,hi⟩ := hi
  exact ⟨sampleOpened_reachable,i,hi,
    (chain_structure sample_sound sampleOpened_reachable).1 7 i hi⟩

end Vxldollar.Structure
