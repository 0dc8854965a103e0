import Vxldollar.Process
import Vxldollar.Totals
import Vxldollar.Writes
import Mathlib.Tactic.Ring

/-!
# What the commits write

Each commit of `process`, run for a block in the right position over tables
that mirror a lattice, succeeds and writes the growth by the block's node.
-/

namespace Vxldollar.Commits
open Blocks Store Vxldollar.Lattice Chains Mirror Growth Totals Writes Process Option Table

def nodeFor (C : Constants) (X : Nodes) (hs : Hashables) : Node :=
  build C (C.hash hs) hs (X hs.previous)
    ((moveOf C hs (previousBalance (X hs.previous))).source.bind X)

def counted (L : Ledger) : Ledger := { L with cache.blockCount := L.cache.blockCount+1 }

structure Extended (C : Constants) (U : Set Hashables) (X : Nodes) (L L' : Ledger) (b : Block)
    (now : ℕ) : Prop where
  absent : X (C.blockHash b) = none
  admits : Admits C U X (C.blockHash b) (nodeFor C X b.hashables)
  grows : Grows L (counted L') (C.blockHash b) b (nodeFor C X b.hashables) now
  shift : WeightShift L.cache.repWeights L'.cache.repWeights X (nodeFor C X b.hashables)

variable {C : Constants} {U : Set Hashables} {S : HashSound C U} {X : Nodes} {L : Ledger}
  {b : Block} {now : ℕ}

section
variable {hs : Hashables} {p n : Node} (hb : Built S X) (hU : hs ∈ U) (hn : nodeFor C X hs = n)
  (hcov : Covered X n)
  (hun : ∀ s, n.move = .receive s → ∀ g m, X g = some m → m.move ≠ .receive s)
include hb hU hn hcov hun

theorem admits_following (hh : Head X hs.previous p) (hacc : accountOf hs p.account = p.account)
    (hleg : hs.type ≠ .state → p.legacy) : Admits C U X (C.hash hs) n := by
  have h0 : n.previous ≠ 0 := hn ▸ built_key_ne_zero hb hh.1
  have ha : n.account = p.account := by
    simp [← hn,nodeFor,build,hh.1,hacc]
  subst hn
  exact {
    mem := hU
    hash_eq := rfl
    account_ne_zero := ha ▸ built_account_ne_zero hb hh.1
    node_eq := rfl
    opening := fun h => absurd h h0
    following := fun _ => ⟨p,hh.1,ha.symm,hleg⟩
    covered := hcov
    unopened := fun h => absurd h h0
    head := fun _ => hh.2
    unreceived := hun }

theorem admits_opening (M : Mirrors L X) (h0 : hs.previous = 0)
    (htype : hs.type = .open_ ∨ hs.type = .state) (hacc : n.account ≠ 0)
    (hfree : L.accounts[n.account]? = none) : Admits C U X (C.hash hs) n := by
  subst hn
  exact {
    mem := hU
    hash_eq := rfl
    account_ne_zero := hacc
    node_eq := rfl
    opening := fun _ => htype
    following := fun h => absurd h0 h
    covered := hcov
    unopened := fun _ => (M.unopened hb _).mp hfree
    head := fun h => absurd h0 h
    unreceived := hun }

end

/-- The predecessor of a legacy block, with its entries in the tables. -/
structure LegacyHead (L : Ledger) (X : Nodes) (previous : BlockHash) (p : Node) (t : ℕ) :
    Prop where
  head : Head X previous p
  legacy : p.legacy
  frontier : L.frontiers[previous]? = some p.account
  info : L.accounts[p.account]? = some (infoOf previous p t)

section
variable {previous : BlockHash}

theorem frontier_position (M : Mirrors L X) (hb : Built S X) (hf : L.frontierGet previous ≠ 0) :
    ∃ p t, L.frontierGet previous = p.account ∧ LegacyHead L X previous p t := by
  unfold Ledger.frontierGet at hf ⊢
  cases hget : L.frontiers[previous]? with
  | none =>
    rw [hget] at hf
    exact absurd rfl hf
  | some a =>
    obtain ⟨p,hh,hl,rfl⟩ := (M.frontier _ _).mp hget
    obtain ⟨t,ht⟩ := M.head hb hh
    exact ⟨p,t,rfl,hh,hl,hget,ht⟩

theorem admits_legacyHead (M : Mirrors L X) (hb : Built S X) {g : BlockHash} {n : Node}
    (ha : Admits C U X g n) (ho : n.hashables.type ≠ .open_) (hl : n.legacy) :
    ∃ p t, L.frontierGet n.previous = p.account ∧ p.account = n.account ∧
      LegacyHead L X n.previous p t := by
  have h0 : n.previous ≠ 0 := fun h0 => (ha.opening h0).elim ho hl
  obtain ⟨p,hp,hacc,hleg⟩ := ha.following h0
  have hh : Head X n.previous p := ⟨hp,ha.head h0⟩
  obtain ⟨t,ht⟩ := M.head hb hh
  refine ⟨p,t,?_,hacc,hh,hleg hl,(M.frontier _ _).mpr ⟨p,hh,hleg hl,rfl⟩,ht⟩
  rw [M.frontierGet hh,if_pos (hleg hl)]

theorem difference_of_le {a b : Amount} (h : a ≤ b) : difference a b = b-a := by
  rw [difference,if_neg (BitVec.not_lt.mpr h)]

variable {p : Node}

theorem nodeFor_send {h : SendHashables} (hX : X h.previous = some p)
    (hbal : h.balance ≤ p.balance) :
    nodeFor C X (.send h) = ⟨.send h,p.account,h.balance,
      p.balance-h.balance,p.height+1,p.representative,p.openBlock,.epoch0,.send h.destination,
      .epoch0⟩ := by
  simp only [nodeFor,Hashables.previous,hX,build,previousBalance,balanceOf,map_some,
    getD_some,difference_of_le hbal]
  rfl

theorem nodeFor_change {h : ChangeHashables} (hX : X h.previous = some p) :
    nodeFor C X (.change h) = ⟨.change h,p.account,p.balance,p.balance-p.balance,p.height+1,
      h.representative,p.openBlock,.epoch0,.keep,.epoch0⟩ := by
  simp only [nodeFor,Hashables.previous,hX,build,previousBalance,balanceOf,map_some,
    getD_some,difference_of_le (BitVec.le_refl p.balance)]
  rfl

variable {m : Node}

theorem nodeFor_receive {h : ReceiveHashables} (hX : X h.previous = some p)
    (hm : X h.source = some m) :
    nodeFor C X (.receive h) = ⟨.receive h,p.account,p.balance+m.amount,
      difference (p.balance+m.amount) p.balance,p.height+1,p.representative,p.openBlock,.epoch0,
      .receive h.source,.epoch0⟩ := by
  simp only [nodeFor,Hashables.previous,hX,moveOf,Move.source,bind_some,hm]
  rfl

theorem nodeFor_open {h : OpenHashables} (h0 : X 0 = none) (hm : X h.source = some m) :
    nodeFor C X (.open_ h) = ⟨.open_ h,h.account,m.amount,difference m.amount 0,1,
      h.representative,C.hash (.open_ h),.epoch0,.receive h.source,.epoch0⟩ := by
  simp only [nodeFor,Hashables.previous,h0,build,previousBalance,moveOf,balanceOf,Move.source,
    bind_some,hm,map_none,getD_none,zero_add]
  rfl

/-- The ledger after a commit, up to the block and frontier tables and the
weights. -/
def grown (L : Ledger) (hash : BlockHash) (n : Node) (now : ℕ)
    (B : Std.ExtTreeMap BlockHash StoredBlock) (F : Std.ExtTreeMap BlockHash Account)
    (w : RepWeights) : Ledger := { L with
  blocks := B
  accounts := L.accounts.insert n.account (infoOf hash n now)
  frontiers := F
  pending := pendingGrown n hash L.pending
  cache.repWeights := w
  cache.accountCount := L.cache.accountCount+if n.previous = 0 then 1 else 0 }

variable {F : Std.ExtTreeMap BlockHash Account}

/-- A commit extends the ledger once its node is admitted and its tables and
weights are right. -/
theorem grown_extends {hs : Hashables} {sig : Signature} {work : Work} {n : Node}
    (hn : nodeFor C X hs = n) (hk : X (C.hash hs) = none) (hadm : Admits C U X (C.hash hs) n)
    {B : Std.ExtTreeMap BlockHash StoredBlock} {w : RepWeights}
    (hB : ∀ g, B[g]? = if g = C.hash hs then some ⟨⟨hs,sig,work⟩,n.sideband 0 now⟩
      else if g = hs.previous then L.blocks[g]?.map (fun r => r.withSuccessor (C.hash hs))
      else L.blocks[g]?)
    (hF : ∀ g, F[g]? = if g = C.hash hs then (if n.legacy then some n.account else none)
      else if g = hs.previous then none else L.frontiers[g]?)
    (hw : WeightShift L.cache.repWeights w X n) :
    Extended C U X L (grown L (C.hash hs) n now B F w) ⟨hs,sig,work⟩ now := by
  subst hn
  exact ⟨hk,hadm,⟨hB,rfl,hF,rfl,rfl,rfl,rfl,rfl,rfl⟩,hw⟩

theorem legacy_frontiers {hash : BlockHash} {n : Node} (hl : n.legacy) (g : BlockHash) :
    ((F.erase previous).insert hash n.account)[g]? =
      if g = hash then (if n.legacy then some n.account else none)
      else if g = previous then none else F[g]? := by
  rw [get_insert,get_erase,if_pos hl]

section
variable (M : Mirrors L X) (hb : Built S X) {sig : Signature} {work : Work} {p : Node} {t : ℕ}

theorem previous_ne_hash {hash : BlockHash} (hh : Head X previous p) (hk : X hash = none) :
    previous ≠ hash := by
  intro e
  rw [← e,hh.1] at hk
  cases hk

include M hb in
theorem sendCommit_extends {h : SendHashables} (hU : .send h ∈ U)
    (hk : X (C.hash (.send h)) = none) (H : LegacyHead L X h.previous p t)
    (hbal : h.balance ≤ p.balance) :
    ∃ L', sendCommit C now L ⟨.send h,sig,work⟩ h p.account (infoOf h.previous p t) = some L' ∧
      Extended C U X L L' ⟨.send h,sig,work⟩ now := by
  have hX := H.head.1
  have hn := nodeFor_send (C := C) hX hbal
  obtain ⟨rp,hrp,-⟩ := M.get hX
  obtain ⟨B,hput,hB⟩ := blockPut_eq (L := L.weightAdd p.representative (0-(p.balance-h.balance)))
    (r := ⟨⟨.send h,sig,work⟩,⟨0,p.account,h.balance,p.height+1,now,{},.epoch0⟩⟩)
    (.inl ⟨rfl,rp,hrp⟩) (previous_ne_hash H.head hk)
  refine ⟨grown L (C.hash (.send h)) _ now B _
    (representationAdd L.cache.repWeights p.representative (0-(p.balance-h.balance))),?_,
    grown_extends hn hk (admits_following hb hU hn ?_ ?_ H.head rfl fun _ => H.legacy) hB
      (legacy_frontiers (by rintro ⟨⟩)) (shift_of_following hX fun a => ?_)⟩
  · simp only [sendCommit,infoOf,Constants.blockHash,hput,bind_eq_bind,bind_some]
    rw [updateAccount_put (S.ne_zero _ hU) (.inr ⟨built_key_ne_zero hb hX,_,by exact H.info⟩),
      bind_some,frontierDel_eq (by exact H.frontier)]
    rfl
  · change h.balance ≤ previousBalance (X h.previous)
    rwa [hX]
  · rintro _ ⟨⟩
  · rw [representationGet_add]
    simp only [share]
    split_ifs <;> ring

include M hb in
theorem changeCommit_extends {h : ChangeHashables} (hU : .change h ∈ U)
    (hk : X (C.hash (.change h)) = none) (H : LegacyHead L X h.previous p t) :
    ∃ L', changeCommit C now L ⟨.change h,sig,work⟩ h p.account (infoOf h.previous p t) = some L' ∧
      Extended C U X L L' ⟨.change h,sig,work⟩ now := by
  have hX := H.head.1
  have h0 : h.previous ≠ 0 := built_key_ne_zero hb hX
  have hn := nodeFor_change (C := C) hX
  have hne : h.previous ≠ C.hash (.change h) := previous_ne_hash H.head hk
  obtain ⟨rp,hrp,hrs⟩ := M.get hX
  obtain ⟨B,hput,hB⟩ := blockPut_eq
    (r := ⟨⟨.change h,sig,work⟩,⟨0,p.account,p.balance,p.height+1,now,{},.epoch0⟩⟩)
    (.inl ⟨rfl,rp,hrp⟩) hne
  have hbalance : Ledger.balance { L with blocks := B } h.previous = some p.balance := by
    have hBp : B[h.previous]? = some (rp.withSuccessor (C.hash (.change h))) := by
      rw [hB,if_neg hne]
      change (if h.previous = h.previous then _ else _) = _
      rw [if_pos rfl,hrp]
      rfl
    simp only [Ledger.balance,if_neg h0,hBp,map_some]
    rw [← stores_balance hb hX hrs]
    rfl
  refine ⟨grown L (C.hash (.change h)) _ now B _
    (representationAddDual L.cache.repWeights h.representative p.balance p.representative
      (0-p.balance)),?_,
    grown_extends hn hk (admits_following hb hU hn ?_ ?_ H.head rfl fun _ => H.legacy) hB
      (legacy_frontiers (by rintro ⟨⟩)) (shift_of_following hX fun a => ?_)⟩
  · simp only [changeCommit,infoOf,Constants.blockHash,hput,bind_eq_bind,bind_some,
      hbalance]
    rw [updateAccount_put (S.ne_zero _ hU) (.inr ⟨h0,_,by exact H.info⟩),bind_some,
      frontierDel_eq (by exact H.frontier)]
    rfl
  · change p.balance = previousBalance (X h.previous)
    rw [hX]
    rfl
  · rintro _ ⟨⟩
  · rw [representationGet_addDual]
    simp only [share]
    split_ifs <;> ring

theorem receivable_fits (hsup : supply L < 2^128) {a : Account} {i : AccountInfo}
    {k : PendingKey} {q : PendingInfo} (hi : L.accounts[a]? = some i)
    (hq : L.pending[k]? = some q) : i.balance.toNat+q.amount.toNat < 2^128 := by
  have h1 := le_total (fun _ (i : AccountInfo) => i.balance.toNat) L.accounts a i hi
  have h2 := le_total (fun _ (i : PendingInfo) => i.amount.toNat) L.pending k q hq
  unfold supply at hsup
  omega

include M hb in
theorem receiveCommit_extends {h : ReceiveHashables} (hU : .receive h ∈ U)
    (hk : X (C.hash (.receive h)) = none) (H : LegacyHead L X h.previous p t) {m : Node}
    (hm : Unreceived X h.source m p.account) (hep : m.epoch = .epoch0)
    (hsup : supply L < 2^128) :
    ∃ L', receiveCommit C now L ⟨.receive h,sig,work⟩ h p.account (infoOf h.previous p t)
        (pendingOf m) = some L' ∧
      Extended C U X L L' ⟨.receive h,sig,work⟩ now := by
  have hX := H.head.1
  have hn := nodeFor_receive (C := C) hX hm.1
  have hpend : L.pending[(⟨p.account,h.source⟩ : PendingKey)]? = some (pendingOf m) :=
    (M.pending _ _).mpr ⟨m,hm,rfl⟩
  have hfits : p.balance.toNat+m.amount.toNat < 2^128 := receivable_fits hsup H.info hpend
  obtain ⟨rp,hrp,-⟩ := M.get hX
  obtain ⟨B,hput,hB⟩ := blockPut_eq
    (L := { L with pending := L.pending.erase ⟨p.account,h.source⟩ })
    (r := ⟨⟨.receive h,sig,work⟩,⟨0,p.account,p.balance+m.amount,p.height+1,now,{},.epoch0⟩⟩)
    (.inl ⟨rfl,rp,hrp⟩) (previous_ne_hash H.head hk)
  refine ⟨grown L (C.hash (.receive h)) _ now B _
    (representationAdd L.cache.repWeights p.representative m.amount),?_,
    grown_extends hn hk (admits_following hb hU hn ?_ ?_ H.head rfl fun _ => H.legacy) hB
      (legacy_frontiers (by rintro ⟨⟩)) (shift_of_following hX fun a => ?_)⟩
  · simp only [receiveCommit,infoOf,pendingOf,Constants.blockHash,bind_eq_bind]
    rw [pendingDel_eq hpend,bind_some,hput,bind_some,updateAccount_put (S.ne_zero _ hU)
      (.inr ⟨built_key_ne_zero hb hX,_,by exact H.info⟩),bind_some,
      frontierDel_eq (by exact H.frontier)]
    rfl
  · refine ⟨m,hm.1,hm.2.1,?_,fun _ => hep⟩
    change (p.balance+m.amount).toNat = (previousBalance (X h.previous)).toNat+_
    rw [hX,BitVec.toNat_add,Nat.mod_eq_of_lt hfits]
    rfl
  · rintro s ⟨⟩
    exact hm.2.2
  · rw [representationGet_add]
    simp only [share]
    split_ifs <;> ring

end

theorem fresh_frontier (M : Mirrors L X) {g : BlockHash} (hg : X g = none) :
    L.frontiers[g]? = none := by
  by_contra hne
  obtain ⟨a,ha⟩ := ne_none_iff_exists'.mp hne
  obtain ⟨n,hh,-⟩ := (M.frontier _ _).mp ha
  have hX := hh.1
  rw [hg] at hX
  cases hX

theorem openCommit_extends (M : Mirrors L X) (hb : Built S X) {h : OpenHashables} {sig : Signature}
    {work : Work} (hU : .open_ h ∈ U) (hk : X (C.hash (.open_ h)) = none) (hacc : h.account ≠ 0)
    (hfree : L.accounts[h.account]? = none) (hm : Unreceived X h.source m h.account)
    (hep : m.epoch = .epoch0) :
    ∃ L', openCommit C now L ⟨.open_ h,sig,work⟩ h (pendingOf m) = some L' ∧
      Extended C U X L L' ⟨.open_ h,sig,work⟩ now := by
  have h0 : X 0 = none := built_zero hb
  have hn := nodeFor_open (C := C) h0 hm.1
  have hpend : L.pending[(⟨h.account,h.source⟩ : PendingKey)]? = some (pendingOf m) :=
    (M.pending _ _).mpr ⟨m,hm,rfl⟩
  obtain ⟨B,hput,hB⟩ := blockPut_eq
    (L := { L with pending := L.pending.erase ⟨h.account,h.source⟩ })
    (r := ⟨⟨.open_ h,sig,work⟩,⟨0,h.account,m.amount,1,now,{},.epoch0⟩⟩)
    (.inr ⟨rfl,M.absent.mpr h0⟩) (show 0 ≠ C.hash (.open_ h) from Ne.symm (S.ne_zero _ hU))
  refine ⟨grown L (C.hash (.open_ h)) _ now B (L.frontiers.insert (C.hash (.open_ h)) h.account)
    (representationAdd L.cache.repWeights h.representative m.amount),?_,
    grown_extends hn hk (admits_opening hb hU hn ?_ ?_ M rfl (.inl rfl) hacc hfree) hB
      (fun g => ?_) (shift_of_opening h0 fun a => ?_)⟩
  · simp only [openCommit,pendingOf,Constants.blockHash,bind_eq_bind]
    rw [pendingDel_eq hpend,bind_some,hput,bind_some,
      updateAccount_put (S.ne_zero _ hU) (.inl ⟨rfl,rfl⟩)]
    rfl
  · refine ⟨m,hm.1,hm.2.1,?_,fun _ => hep⟩
    change m.amount.toNat = (previousBalance (X 0)).toNat+_
    rw [h0]
    exact (Nat.zero_add _).symm
  · rintro s ⟨⟩
    exact hm.2.2
  · rw [get_insert]
    split_ifs with e1 hl e2
    · rfl
    · exact absurd (by rintro ⟨⟩) hl
    · rw [e2]
      exact fresh_frontier M h0
    · rfl
  · rw [representationGet_add]
    rfl

end

variable {h : StateHashables} {sig : Signature} {work : Work} {info new : AccountInfo} {L' : Ledger}

/-- The info `process` reads for a state block in the right position: that of
the predecessor, or the default one when the block opens its account. -/
def Position (L : Ledger) (X : Nodes) (h : StateHashables) (info : AccountInfo) : Prop :=
  (h.previous = 0 ∧ info = {} ∧ L.accounts[h.account]? = none) ∨
  ∃ p t, Head X h.previous p ∧ p.account = h.account ∧ info = infoOf h.previous p t ∧
    L.accounts[h.account]? = some info

theorem position_head (hp : Position L X h info) : info.head = h.previous := by
  rcases hp with ⟨h0,rfl,-⟩ | ⟨p,t,-,-,rfl,-⟩
  · exact h0.symm
  · rfl

theorem position_placed (M : Mirrors L X) (hb : Built S X) (hp : Position L X h info) :
    Placed L ⟨.state h,sig,work⟩ := by
  rcases hp with ⟨h0,-,-⟩ | ⟨p,t,hh,-,-,-⟩
  · refine .inr ⟨decide_eq_false (not_not.mpr h0),?_⟩
    change L.blocks[h.previous]? = none
    rw [h0]
    exact M.absent.mpr (built_zero hb)
  · obtain ⟨r,hr,-⟩ := M.get hh.1
    exact .inl ⟨decide_eq_true (built_key_ne_zero hb hh.1),r,hr⟩

theorem position_previous_ne (hU : .state h ∈ U) (S : HashSound C U)
    (hk : X (C.hash (.state h)) = none) (hp : Position L X h info) :
    h.previous ≠ C.hash (.state h) := by
  rcases hp with ⟨h0,-,-⟩ | ⟨p,t,hh,-,-,-⟩
  · rw [h0]
    exact Ne.symm (S.ne_zero _ hU)
  · exact previous_ne_hash hh hk

theorem position_update (hU : .state h ∈ U) (hb : Built S X) (hp : Position L X h info)
    (hL : L'.accounts = L.accounts) (hnew : new.head = C.hash (.state h))
    (hopen : new.openBlock = if info.openBlock = 0 then C.hash (.state h) else info.openBlock) :
    L'.updateAccount h.account info new = some { L' with
      accounts := L'.accounts.insert h.account new,
      cache.accountCount := L'.cache.accountCount+if h.previous = 0 then 1 else 0 } := by
  rw [← position_head hp]
  refine updateAccount_put (hnew ▸ S.ne_zero _ hU) ?_
  rcases hp with ⟨h0,rfl,-⟩ | ⟨p,t,hh,-,rfl,hi⟩
  · exact .inl ⟨rfl,by rw [hopen,hnew]; rfl⟩
  · exact .inr ⟨built_key_ne_zero hb hh.1,_,hL ▸ hi⟩

theorem built_openBlock_ne_zero (hb : Built S X) {g : BlockHash} {n : Node} (hX : X g = some n) :
    n.openBlock ≠ 0 := by
  induction hb generalizing g n with
  | seed =>
    obtain ⟨-,rfl⟩ := seed_eq_some.mp hX
    exact S.ne_zero _ S.genesis_mem
  | @add Y k m hY hk hadm ih =>
    rcases (add_eq_some hk).mp hX with ⟨rfl,rfl⟩ | hX'
    · rw [justified_openBlock hadm.toJustified]
      cases hp : Y n.previous with
      | none => exact hadm.key_ne_zero S
      | some p => exact ih hp
    · exact ih hX'

theorem nodeFor_state (hb : Built S X) (hp : Position L X h info) :
    nodeFor C X (.state h) =
      let move := moveOf C (.state h) info.balance
      let sourceEpoch := ((move.source.bind X).map Node.epoch).getD .epoch0
      ⟨.state h,h.account,h.balance,difference h.balance info.balance,info.blockCount+1,
        h.representative,if info.openBlock = 0 then C.hash (.state h) else info.openBlock,
        epochOf C (.state h) move info.epoch sourceEpoch,move,
        sourceEpochOf (.state h) move sourceEpoch⟩ := by
  rcases hp with ⟨h0,rfl,-⟩ | ⟨p,t,hh,-,rfl,-⟩
  · simp only [nodeFor,Hashables.previous,h0,built_zero hb]
    rfl
  · have ho : (infoOf h.previous p t).openBlock ≠ 0 := built_openBlock_ne_zero hb hh.1
    simp only [nodeFor,Hashables.previous,hh.1,if_neg ho]
    rfl

variable {n : Node} (hn : nodeFor C X (.state h) = n)
include hn

theorem position_admits (M : Mirrors L X) (hb : Built S X) (hU : .state h ∈ U)
    (hacc : h.account ≠ 0) (hp : Position L X h info) (hcov : Covered X n)
    (hun : ∀ s, n.move = .receive s → ∀ g m, X g = some m → m.move ≠ .receive s) :
    Admits C U X (C.hash (.state h)) n := by
  have ha : n.account = h.account := by rw [← hn,nodeFor_state hb hp]
  rcases hp with ⟨h0,-,hfree⟩ | ⟨p,t,hh,hpa,-,-⟩
  · rw [← ha] at hacc hfree
    exact admits_opening hb hU hn hcov hun M h0 (.inr rfl) hacc hfree
  · exact admits_following hb hU hn hcov hun hh hpa.symm (fun e => absurd rfl e)

theorem position_frontiers (M : Mirrors L X) (hk : X (C.hash (.state h)) = none)
    (hp : Position L X h info) (g : BlockHash) : (L.frontiers.erase info.head)[g]? =
      if g = C.hash (.state h) then (if n.legacy then some n.account else none)
      else if g = (Hashables.state h).previous then none else L.frontiers[g]? := by
  have hl : ¬ n.legacy := fun e => (hn ▸ e) rfl
  rw [get_erase,if_neg hl,position_head hp]
  change (if g = h.previous then _ else _) = if _ then _ else if g = h.previous then _ else _
  split_ifs with e1 e2 e2
  · rfl
  · rfl
  · rw [e2]
    exact fresh_frontier M hk
  · rfl

omit hn in
theorem frontier_ne_zero (M : Mirrors L X) (hb : Built S X) (g : BlockHash) (a : Account)
    (ha : L.frontiers[g]? = some a) : a ≠ 0 := by
  obtain ⟨n,hh,-,rfl⟩ := (M.frontier _ _).mp ha
  exact built_account_ne_zero hb hh.1

omit hn in
theorem details_epoch (m : Move) (e : Epoch) : (m.details e).epoch = e := by
  cases m <;> rfl

omit hn in
theorem dropFrontier_eq {head : BlockHash} (hne : ∀ a, L.frontiers[head]? = some a → a ≠ 0) :
    dropFrontier L head = some { L with frontiers := L.frontiers.erase head } := by
  unfold dropFrontier Ledger.frontierGet
  cases hf : L.frontiers[head]? with
  | none =>
    rw [erase_absent _ _ hf]
    simp
  | some a => rw [getD_some,if_pos (hne a hf),frontierDel_eq hf]

theorem statePending_eq (M : Mirrors L X) (hL : L'.pending = L.pending) (hp : Position L X h info)
    (hb : Built S X) (hadm : Admits C U X (C.hash (.state h)) n) (hmove : n.move ≠ .upgrade) :
    statePending L' h (C.hash (.state h)) (n.move.details n.epoch) n.amount =
      some { L' with pending := pendingGrown n (C.hash (.state h)) L.pending } := by
  have hacc : n.account = h.account := by rw [← hn,nodeFor_state hb hp]
  have hm : n.move = moveOf C (.state h) info.balance := by rw [← hn,nodeFor_state hb hp]
  unfold statePending pendingGrown
  rw [details_epoch]
  by_cases hs : h.balance < info.balance
  · have hm' : n.move = .send h.link := by simp [hm,moveOf,hs]
    rw [hm']
    simp only [Move.details,if_true,Ledger.pendingPut,pendingOf,hacc,hL]
  · by_cases hl : h.link = 0
    · have hm' : n.move = .keep := by simp only [hm,moveOf,if_neg hs,if_pos hl]
      rw [hm']
      simp only [Move.details,hl,ne_eq,not_true_eq_false,if_false,Bool.false_eq_true,← hL]
    · by_cases he : C.isEpochLink h.link = true
      · exact absurd (by simp only [hm,moveOf,if_neg hs,if_neg hl,if_pos he]) hmove
      · have hm' : n.move = .receive h.link := by
          simp only [hm,moveOf,if_neg hs,if_neg hl,if_neg he]
        obtain ⟨m,hu,-⟩ := admits_source hadm hm'
        rw [hacc] at hu
        have hpend : L'.pending[(⟨h.account,h.link⟩ : PendingKey)]? = some (pendingOf m) := by
          rw [hL]
          exact (M.pending _ _).mpr ⟨m,hu,rfl⟩
        rw [hm']
        simp only [Move.details,Bool.false_eq_true,if_false,if_pos hl,pendingDel_eq hpend,hL,hacc]

def stateWeights (w : RepWeights) (h : StateHashables) (info : AccountInfo) : RepWeights :=
  if info.head ≠ 0
    then representationAddDual w info.representative (0-info.balance) h.representative h.balance
    else representationAdd w h.representative h.balance

theorem stateWeights_shift (hb : Built S X) (hp : Position L X h info) (w : RepWeights) :
    WeightShift w (stateWeights w h info) X n := by
  subst hn
  unfold stateWeights
  rw [position_head hp]
  rcases hp with ⟨h0,rfl,-⟩ | ⟨p,t,hh,-,rfl,-⟩
  · have hX : X (nodeFor C X (.state h)).previous = none := by
      change X h.previous = none
      rw [h0]
      exact built_zero hb
    refine shift_of_opening hX fun a => ?_
    rw [if_neg (not_not.mpr h0),representationGet_add]
    rfl
  · refine shift_of_following hh.1 fun a => ?_
    rw [if_pos (built_key_ne_zero hb hh.1),representationGet_addDual]
    change _+(if p.representative = a then 0-p.balance else 0)+
      (if h.representative = a then h.balance else 0)+
        (if p.representative = a then p.balance else 0) =
      _+if h.representative = a then h.balance else 0
    split_ifs <;> ring

variable (M : Mirrors L X) (hb : Built S X) (hU : .state h ∈ U) (hk : X (C.hash (.state h)) = none)
  (hp : Position L X h info) (hadm : Admits C U X (C.hash (.state h)) n)
include M hb hU hk hp hadm

theorem stateCommit_extends (hmove : n.move ≠ .upgrade) :
    ∃ L', stateCommit C now L ⟨.state h,sig,work⟩ h info
        (n.move.details n.epoch)
        n.sourceEpoch n.amount = some L' ∧
      Extended C U X L L' ⟨.state h,sig,work⟩ now := by
  have hn' := hn.symm.trans (nodeFor_state hb hp)
  obtain ⟨B,hput,hB⟩ := blockPut_eq
    (r := ⟨⟨.state h,sig,work⟩,⟨0,h.account,0,info.blockCount+1,now,
      n.move.details n.epoch,
      n.sourceEpoch⟩⟩)
    (position_placed M hb hp) (position_previous_ne hU S hk hp)
  refine ⟨grown L (C.hash (.state h)) n now B (L.frontiers.erase info.head)
    (stateWeights L.cache.repWeights h info),?_,
    grown_extends hn hk hadm ?_ (position_frontiers hn M hk hp) (stateWeights_shift hn hb hp _)⟩
  · have hweights : (if info.head ≠ 0
        then Ledger.weightAddDual { L with blocks := B } info.representative (0-info.balance)
          h.representative h.balance
        else Ledger.weightAdd { L with blocks := B } h.representative h.balance) =
        { L with blocks := B, cache.repWeights := stateWeights L.cache.repWeights h info } := by
      unfold stateWeights
      split_ifs <;> rfl
    simp only [stateCommit,Constants.blockHash,hput,bind_eq_bind,bind_some,hweights]
    rw [statePending_eq hn M (by rfl) hp hb hadm hmove,bind_some,
      position_update hU hb hp (by rfl) (by rfl) (by rfl),bind_some,
      dropFrontier_eq (by exact frontier_ne_zero M hb _),details_epoch]
    rw [grown,hn']
    rfl
  · intro g
    rw [hB]
    congr 3
    rw [hn']
    rfl

theorem epochCommit_extends (hmove : n.move = .upgrade)
    (hbal : h.balance = info.balance) (hrep : h.representative = info.representative) :
    ∃ L', epochCommit C now L ⟨.state h,sig,work⟩ h info
        (Move.upgrade.details n.epoch) = some L' ∧
      Extended C U X L L' ⟨.state h,sig,work⟩ now := by
  have hn' := hn.symm.trans (nodeFor_state hb hp)
  have hse : n.sourceEpoch = .epoch0 := by
    rw [justified_sourceEpoch hadm.toJustified,hmove,← hn]
    rfl
  obtain ⟨B,hput,hB⟩ := blockPut_eq
    (r := ⟨⟨.state h,sig,work⟩,⟨0,h.account,0,info.blockCount+1,now,
      Move.upgrade.details n.epoch,.epoch0⟩⟩)
    (position_placed M hb hp) (position_previous_ne hU S hk hp)
  refine ⟨grown L (C.hash (.state h)) n now B (L.frontiers.erase info.head)
    L.cache.repWeights,?_,
    grown_extends hn hk hadm ?_ (position_frontiers hn M hk hp) ?_⟩
  · simp only [epochCommit,Constants.blockHash,hput,bind_eq_bind,bind_some]
    rw [position_update hU hb hp (by rfl) (by rfl) (by rfl),bind_some,
      dropFrontier_eq (by exact frontier_ne_zero M hb _),details_epoch]
    have hpend : pendingGrown n (C.hash (.state h)) L.pending =
        L.pending := by
      rw [pendingGrown,hmove]
    rw [grown,hpend,hn',← hbal]
    rfl
  · intro g
    subst hn
    rw [hB]
    congr 3
    change _ = Sideband.stored .state _
    rw [hmove,hse,hn']
    rfl
  · intro a
    have hw := stateWeights_shift hn hb hp L.cache.repWeights a
    rw [← hw]
    congr 1
    unfold stateWeights
    split_ifs with h0
    · rw [representationGet_addDual,hrep,hbal]
      split_ifs <;> ring
    · rcases hp with ⟨-,rfl,-⟩ | ⟨p,t,hh,-,rfl,-⟩
      · rw [representationGet_add,hbal]
        split_ifs
        · exact (add_zero _).symm
        · exact (add_zero _).symm
      · exact absurd (built_key_ne_zero hb hh.1) h0

end Vxldollar.Commits
