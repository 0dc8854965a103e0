import Vxldollar.Rollback
import Vxldollar.Totals
import Vxldollar.Writes
import Mathlib.Tactic.Ring

/-!
# What a rolled back block writes

Each visitor of `rollback`, run on a head that nothing depends on any more,
succeeds and shrinks the ledger by the head's node. The representative,
balance, epoch and pending entry it restores are recomputed from other blocks
and agree with those of the predecessor and the source.
-/

namespace Vxldollar.Retractions
open Blocks Store Vxldollar.Lattice Chains Mirror Growth Totals Writes Rollback Option Table

variable {C : Constants} {U : Set Hashables} {S : HashSound C U} {X : Nodes} {L : Ledger}
  {g : BlockHash} {n p : Node} {now : ℕ}

section
variable {h : BlockHash} {m : Node}

theorem representativeCompute_spec (M : Mirrors L X) (hb : Built S X) (k : ℕ) (hX : X h = some m)
    (hk : m.height ≤ k) :
    ∃ f r, representativeCompute C L k h = some f ∧ L.blocks[f]? = some r ∧
      r.block.representative = m.representative := by
  induction k generalizing h m with
  | zero =>
    by_cases hp : m.previous = 0
    · have := (built_opening hb hX hp).1
      omega
    · obtain ⟨p,-,-,-,hh,-⟩ := built_following hb hX hp
      omega
  | succ k ih =>
    obtain ⟨r,hr,hs⟩ := M.get hX
    have hstop : (m.hashables.type ≠ .send ∧ m.hashables.type ≠ .receive) →
        m.hashables.representative = m.representative := by
      intro ht
      rcases built_justified hb hX with ⟨-,rfl⟩ | hj
      · rfl
      · rw [justified_representative hj]
        unfold representativeOf
        cases hm : m.hashables <;> simp_all [Hashables.type]
    have hgo : (m.hashables.type = .send ∨ m.hashables.type = .receive) →
        ∃ p, X m.previous = some p ∧ p.height ≤ k ∧ p.representative = m.representative := by
      intro ht
      rcases built_justified hb hX with ⟨-,rfl⟩ | hj
      · rcases ht with ht | ht <;> cases ht
      · have hp : m.previous ≠ 0 := by
          intro hp
          rcases hj.opening hp with ho | ho <;> rcases ht with ht | ht <;>
            rw [ht] at ho <;> cases ho
        obtain ⟨p,hXp,-,-,hh,-⟩ := built_following hb hX hp
        refine ⟨p,hXp,by omega,?_⟩
        rw [justified_representative hj,hXp]
        unfold representativeOf
        cases hm : m.hashables <;> simp_all [Hashables.type]
    unfold representativeCompute
    rw [hr]
    have htype := hs.type
    have hprev := hs.previous
    have hself : C.blockHash r.block = h := by
      rw [Constants.blockHash,hs.hashables]
      exact (built_hash hb hX).1
    have hrep : r.block.representative = m.hashables.representative :=
      congrArg Hashables.representative hs.hashables
    simp only [htype,hprev,hself]
    cases ht : m.hashables.type with
    | send =>
      obtain ⟨p,hXp,hh,hrp⟩ := hgo (Or.inl ht)
      rw [← hrp]
      exact ih hXp hh
    | receive =>
      obtain ⟨p,hXp,hh,hrp⟩ := hgo (Or.inr ht)
      rw [← hrp]
      exact ih hXp hh
    | _ => exact ⟨h,r,rfl,hr,hrep.trans (hstop (by simp [ht]))⟩

theorem representative_spec (M : Mirrors L X) (hb : Built S X) (hX : X h = some m) :
    ∃ f r, representative C L h = some f ∧ L.blocks[f]? = some r ∧
      r.block.representative = m.representative := by
  obtain ⟨r,hr,hs⟩ := M.get hX
  unfold representative
  rw [hr,map_some,getD_some,stores_height hb hX hs]
  exact representativeCompute_spec M hb _ hX (Nat.le_succ _)

end

def discounted (L : Ledger) : Ledger := { L with cache.blockCount := L.cache.blockCount-1 }

def shrunk (L : Ledger) (X : Nodes) (g : BlockHash) (n : Node)
    (A : Std.ExtTreeMap Account AccountInfo) (B : Std.ExtTreeMap BlockHash StoredBlock)
    (F : Std.ExtTreeMap BlockHash Account) (w : RepWeights) : Ledger := { L with
  blocks := B
  accounts := A
  frontiers := F
  pending := pendingShrunk X n g L.pending
  cache.repWeights := w
  cache.accountCount := L.cache.accountCount-if n.previous = 0 then 1 else 0 }

theorem updateAccount_back {a : Account} {old new i : AccountInfo} (hnew : new.head ≠ 0)
    (hold : old.head ≠ 0) (hi : L.accounts[a]? = some i) :
    L.updateAccount a old new = some { L with accounts := L.accounts.insert a new } := by
  rw [updateAccount_put hnew (.inr ⟨hold,i,hi⟩),if_neg hold]
  rfl

theorem spend_eq (ha : Admits C U X g n) {d : Account} (hm : n.move = .send d) :
    n.balance+n.amount = previousBalance (X n.previous) := by
  have hs := admits_spend ha hm
  apply BitVec.eq_of_toNat_eq
  rw [BitVec.toNat_add,Nat.mod_eq_of_lt,hs]
  rw [hs]
  exact (previousBalance (X n.previous)).isLt

theorem receive_eq (ha : Admits C U X g n) {s : BlockHash} {m : Node}
    (hm : n.move = .receive s) (hX : X s = some m) :
    n.balance = previousBalance (X n.previous)+m.amount ∧ n.amount = m.amount := by
  obtain ⟨m',hu,hbal⟩ := admits_source ha hm
  cases hX.symm.trans hu.1
  have hlt : (previousBalance (X n.previous)).toNat+m.amount.toNat < 2^128 := hbal ▸ n.balance.isLt
  have heq : n.balance = previousBalance (X n.previous)+m.amount := by
    apply BitVec.eq_of_toNat_eq
    rw [BitVec.toNat_add,Nat.mod_eq_of_lt hlt,hbal]
  refine ⟨heq,?_⟩
  rw [justified_amount ha.toJustified,difference]
  split_ifs with hgt
  · rw [heq]
    ring
  · have hle : n.balance ≤ previousBalance (X n.previous) := BitVec.not_lt.mp hgt
    have hle' := BitVec.le_def.mp hle
    have h0 : m.amount = 0 := by
      apply BitVec.eq_of_toNat_eq
      change m.amount.toNat = 0
      omega
    rw [heq,h0]
    ring

structure Reads (L : Ledger) (X : Nodes) (g : BlockHash) (n p : Node) (t : ℕ)
    (r rp : StoredBlock) : Prop where
  prior : X n.previous = some p
  previous_ne_zero : n.previous ≠ 0
  previous_ne : n.previous ≠ g
  hash_ne_zero : g ≠ 0
  account : p.account = n.account
  height : n.height = p.height+1
  openBlock : n.openBlock = p.openBlock
  block : L.blocks[g]? = some r
  previousBlock : L.blocks[n.previous]? = some rp
  erased : (L.blocks.erase g)[n.previous]? = some rp
  info : L.accounts[n.account]? = some (infoOf g n t)
  balance : L.balance n.previous = some p.balance
  owner : L.account g = some n.account
  previousOwner : L.account n.previous = some n.account
  legacy : n.legacy → p.legacy ∧ p.epoch = .epoch0 ∧ L.frontiers[g]? = some n.account
  notFrontier : ¬ p.legacy → L.frontiers[n.previous]? = none
  previousHashables : rp.block.hashables = p.hashables

variable {t : ℕ} {r rp : StoredBlock}

section
variable (R : Reads L X g n p t r rp)
include R

theorem following_shrinks {B : Std.ExtTreeMap BlockHash StoredBlock}
    {F : Std.ExtTreeMap BlockHash Account} (w : RepWeights)
    (hB : ∀ f, B[f]? = if f = g then none
      else if f = n.previous then L.blocks[f]?.map (fun q => q.withSuccessor 0)
      else L.blocks[f]?)
    (hF : ∀ f, F[f]? = if f = g then none
      else if f = n.previous then (if p.legacy then some n.account else none)
      else L.frontiers[f]?) :
    Shrinks L (discounted (shrunk L X g n (L.accounts.insert n.account (infoOf n.previous p now))
      B F w)) X g n now where
  blocks := hB
  accounts := by
    rw [R.prior]
    rfl
  frontiers := by
    rw [R.prior]
    exact hF
  pending := rfl
  confirmationHeight := rfl
  cementedCount := rfl
  pruned := rfl
  blockCount := rfl
  accountCount := rfl

theorem blocks_restored (f : BlockHash) :
    ((L.blocks.erase g).insert n.previous (rp.withSuccessor 0))[f]? = if f = g then none
      else if f = n.previous then L.blocks[f]?.map (fun q => q.withSuccessor 0)
      else L.blocks[f]? := by
  rw [get_insert,get_erase]
  split_ifs with e1 e2 e2
  · exact absurd (e1.symm.trans e2) R.previous_ne
  · rw [e1,R.previousBlock]
    rfl
  · rfl
  · rfl

theorem legacy_restored (hl : n.legacy) (f : BlockHash) :
    ((L.frontiers.erase g).insert n.previous n.account)[f]? = if f = g then none
      else if f = n.previous then (if p.legacy then some n.account else none)
      else L.frontiers[f]? := by
  rw [get_insert,get_erase,if_pos (R.legacy hl).1]
  split_ifs with e1 e2 e2
  · exact absurd (e1.symm.trans e2) R.previous_ne
  · rfl
  · rfl
  · rfl

theorem state_blocks_restored (f : BlockHash) :
    ((L.blocks.insert n.previous (rp.withSuccessor 0)).erase g)[f]? = if f = g then none
      else if f = n.previous then L.blocks[f]?.map (fun q => q.withSuccessor 0)
      else L.blocks[f]? := by
  rw [get_erase,get_insert]
  split_ifs with e1 e2
  · rfl
  · rw [e2,R.previousBlock]
    rfl
  · rfl

theorem state_frontiers_restored (hg : L.frontiers[g]? = none) (f : BlockHash) :
    (if p.legacy then L.frontiers.insert n.previous n.account else L.frontiers)[f]? =
      if f = g then none
      else if f = n.previous then (if p.legacy then some n.account else none)
      else L.frontiers[f]? := by
  by_cases hlp : p.legacy
  · rw [if_pos hlp,if_pos hlp,get_insert]
    split_ifs with e1 e2 e2
    · exact absurd (e1.symm.trans e2) R.previous_ne
    · rfl
    · rw [e2,hg]
    · rfl
  · rw [if_neg hlp,if_neg hlp]
    split_ifs with e1 e2
    · rw [e1,hg]
    · rw [e2,R.notFrontier hlp]
    · rfl

end

abbrev TakesBack (L : Ledger) (X : Nodes) (g : BlockHash) (n : Node) (now : ℕ)
    (commit : Option Ledger) : Prop :=
  ∃ L', commit = some L' ∧ Shrinks L (discounted L') X g n now ∧
    WeightShift L'.cache.repWeights L.cache.repWeights X n

structure ReadsSource (L : Ledger) (X : Nodes) (g : BlockHash) (n : Node) (s : BlockHash)
    (m : Node) : Prop where
  source : X s = some m
  owner : L.accountSafe s = some m.account
  amount : n.amount = m.amount
  balance : n.balance = previousBalance (X n.previous)+m.amount
  epoch : n.legacy → m.epoch = .epoch0
  pending : pendingShrunk X n g L.pending = L.pending.insert ⟨n.account,s⟩ (pendingOf m)

def repended (L : Ledger) (X : Nodes) (g : BlockHash) (n : Node) : Ledger :=
  { L with pending := pendingShrunk X n g L.pending }

section
variable {h : StateHashables}

theorem restorePrevious_opening (hnone : L.blocks[h.previous]? = none) :
    restorePrevious L h = some L := by
  rw [restorePrevious,hnone]

theorem restorePrevious_following (hrp : L.blocks[h.previous]? = some rp)
    (hp : rp.block.hashables = p.hashables) :
    restorePrevious L h = some { L with
      blocks := L.blocks.insert h.previous (rp.withSuccessor 0),
      frontiers := if p.legacy then L.frontiers.insert h.previous h.account
        else L.frontiers } := by
  have htype : rp.block.type = .state ↔ ¬ p.legacy := by
    rw [Block.type,hp,Node.legacy,not_not]
  rw [restorePrevious,hrp]
  dsimp only
  rw [successorClear_eq hrp,bind_eq_bind,bind_some]
  by_cases hlp : p.legacy
  · rw [if_neg (fun hc => htype.mp hc hlp),if_pos hlp]
    rfl
  · rw [if_pos (htype.mpr hlp),if_neg hlp]
    rfl

variable (hn : n.hashables = .state h)
include hn

/-- The representative and the balance that a state block's weights go back to
are read before anything that depends on the block is gone. -/
theorem stateRepresentative_eq {Y : Nodes} (M : Mirrors L Y) (hb : Built S Y)
    (hj : Justified C U Y g n) :
    stateRepresentative C L h = some ((Y n.previous).map Node.representative) ∧
    L.balance h.previous = some (previousBalance (Y n.previous)) := by
  have hprev : n.previous = h.previous := by rw [Node.previous,hn]; rfl
  rw [← hprev,M.previousBalance hb hj]
  refine ⟨?_,rfl⟩
  unfold stateRepresentative
  rw [← hprev]
  by_cases h0 : n.previous = 0
  · rw [if_pos h0,h0,built_zero hb]
    rfl
  · obtain ⟨p,hp,-⟩ := hj.following h0
    obtain ⟨f,q,hf,hq,hqr⟩ := representative_spec M hb hp
    rw [if_neg h0,hp]
    simp only [hf,hq,hqr,bind_eq_bind,bind_some]
    rfl

theorem stateWeights_shrinks {Y : Nodes} (hj : Justified C U Y g n) :
    ∃ w, stateWeights L h ((Y n.previous).map Node.representative)
        (previousBalance (Y n.previous)) = { L with cache.repWeights := w } ∧
      WeightShift w L.cache.repWeights Y n := by
  have hrep : n.representative = h.representative := by
    rw [justified_representative hj,hn]
    rfl
  have hbal : n.balance = h.balance := by
    rw [justified_balance hj,hn]
    rfl
  cases hp : Y n.previous with
  | none =>
    refine ⟨_,rfl,shift_of_opening hp fun a => ?_⟩
    rw [representationGet_add]
    simp only [share,hrep,hbal]
    split_ifs <;> ring
  | some p =>
    refine ⟨_,rfl,shift_of_following hp fun a => ?_⟩
    rw [representationGet_addDual]
    simp only [share,previousBalance,hrep,hbal,map_some,getD_some]
    split_ifs <;> ring

end

variable (M : Mirrors L (add X g n)) (hb : Built S X) (ha : Admits C U X g n) (hk : X g = none)
include M hb ha hk

theorem reads_following (hp : X n.previous = some p) : ∃ t r rp, Reads L X g n p t r rp := by
  have hb' : Built S (add X g n) := Causal.Built.add hb hk ha
  have hself : add X g n g = some n := add_new
  have hp' : add X g n n.previous = some p := add_old hk hp
  have h0 : n.previous ≠ 0 := built_key_ne_zero hb hp
  obtain ⟨q,hq,hacc,hleg,hheight,hopen⟩ := built_following hb' hself h0
  cases hp'.symm.trans hq
  obtain ⟨r,hr,-⟩ := M.get hself
  obtain ⟨rp,hrp,hrs⟩ := M.get hp'
  obtain ⟨t,ht⟩ := added_info M hb ha hk
  have hne := admits_previous_ne S ha hk
  refine ⟨t,r,rp,hp,h0,hne,ha.key_ne_zero S,hacc,hheight,hopen,hr,hrp,?_,ht,M.balance hb' hp',
    M.owner hb' hself,hacc ▸ M.owner hb' hp',?_,?_,hrs.hashables⟩
  · rw [get_erase,if_neg hne,hrp]
  · intro hl
    exact ⟨hleg hl,built_legacy_epoch hb hp (hleg hl),
      (M.frontier _ _).mpr ⟨n,added_head hb ha hk,hl,rfl⟩⟩
  · intro hl
    by_contra hne
    obtain ⟨a,ha'⟩ := ne_none_iff_exists'.mp hne
    obtain ⟨m,hm,-⟩ := (M.frontier _ _).mp ha'
    exact hm.2 g n hself rfl

theorem legacy_reads (hl : n.legacy) (ho : n.hashables.type ≠ .open_) :
    ∃ p t r rp, Reads L X g n p t r rp := by
  obtain ⟨p,hp,-⟩ := ha.following fun h0 => (ha.opening h0).elim ho hl
  exact ⟨p,reads_following M hb ha hk hp⟩

variable (now) in
theorem sendCommit_shrinks {h : SendHashables} (hn : n.hashables = .send h) :
    L.pending[(⟨h.destination,g⟩ : PendingKey)]? = some (pendingOf n) ∧
    TakesBack L X g n now (sendCommit now L g h (pendingOf n)) := by
  have hj := ha.toJustified
  have hprev : n.previous = h.previous := by rw [Node.previous,hn]; rfl
  have hmove : n.move = .send h.destination := by rw [justified_move hj,hn]; rfl
  have hl : n.legacy := by
    rw [Node.legacy,hn]
    exact nofun
  obtain ⟨p,t,r,rp,R⟩ := legacy_reads M hb ha hk hl (by rw [hn]; rintro ⟨⟩)
  have hrep : n.representative = p.representative := by
    rw [justified_representative hj,hn,R.prior]
    rfl
  have hpend : L.pending[(⟨h.destination,g⟩ : PendingKey)]? = some (pendingOf n) := by
    rw [M.pending]
    exact ⟨n,(unreceived_add hb hk ha _).mpr
      (.inl ⟨rfl,rfl,hmove⟩),rfl⟩
  refine ⟨hpend,_,?_,following_shrinks R
    (representationAdd L.cache.repWeights n.representative n.amount) (blocks_restored R)
    (legacy_restored R hl),?_⟩
  · have hbal : L.balance h.previous = some p.balance := hprev ▸ R.balance
    have hps : pendingShrunk X n g L.pending = L.pending.erase ⟨h.destination,g⟩ := by
      rw [pendingShrunk,hmove]
    simp only [sendCommit,pendingOf,R.info,bind_eq_bind]
    rw [pendingDel_eq hpend,bind_some]
    change (L.balance h.previous).bind _ = _
    rw [hbal,bind_some,updateAccount_back (hprev ▸ R.previous_ne_zero) R.hash_ne_zero
      (by exact R.info),bind_some,blockDel_eq (by exact R.block),bind_some,
      frontierDel_eq (by exact (R.legacy hl).2.2),bind_some,
      successorClear_eq (hprev ▸ R.erased),shrunk,hps,if_neg R.previous_ne_zero,hprev]
    simp only [infoOf,hrep,R.openBlock,R.height,(R.legacy hl).2.1]
    rfl
  · refine shift_of_following R.prior fun a => ?_
    have hs := spend_eq ha hmove
    rw [R.prior] at hs
    have hbal : p.balance = n.balance+n.amount := hs.symm
    change _ = representationGet (representationAdd _ _ _) a+_
    rw [representationGet_add]
    simp only [share,hrep,hbal]
    split_ifs <;> ring

theorem reads_source {s : BlockHash} (hmove : n.move = .receive s) :
    ∃ m, ReadsSource L X g n s m := by
  have hb' : Built S (add X g n) := Causal.Built.add hb hk ha
  have hself : add X g n g = some n := add_new
  obtain ⟨m,hu,-⟩ := admits_source ha hmove
  obtain ⟨m',hm',-,-,hep⟩ := built_source hb' hself hmove
  have hX' : add X g n s = some m := add_old hk hu.1
  cases hX'.symm.trans hm'
  obtain ⟨hbal,ham⟩ := receive_eq ha hmove hu.1
  refine ⟨m,hu.1,Ledger.accountSafe_of_account (M.owner hb' hX'),ham,hbal,hep,?_⟩
  rw [pendingShrunk,hmove]
  simp [hu.1]

theorem reads_amount : L.amount g = some n.amount := by
  refine M.amount (Causal.Built.add hb hk ha) (added_head hb ha hk).1
    (ha.toJustified.update ?_ (ha.key_ne_zero S) _)
  intro hd
  obtain ⟨m,hm⟩ := ha.dep_present hd
  rw [hk] at hm
  cases hm

variable (now) in
theorem receiveBlock_shrinks {b : Block} {h : ReceiveHashables} (hn : n.hashables = .receive h)
    (hbn : b.hashables = n.hashables) :
    TakesBack L X g n now (receiveBlock C now L b h) := by
  have hj := ha.toJustified
  have hprev : n.previous = h.previous := by rw [Node.previous,hn]; rfl
  have hmove : n.move = .receive h.source := by rw [justified_move hj,hn]; rfl
  have hl : n.legacy := by
    rw [Node.legacy,hn]
    rintro ⟨⟩
  have hhash := hj.blockHash hbn
  obtain ⟨p,t,r,rp,R⟩ := legacy_reads M hb ha hk hl (by rw [hn]; rintro ⟨⟩)
  obtain ⟨m,Q⟩ := reads_source M hb ha hk hmove
  have hrep : n.representative = p.representative := by
    rw [justified_representative hj,hn,R.prior]
    rfl
  refine ⟨_,?_,following_shrinks R
    (representationAdd L.cache.repWeights n.representative (0-n.amount)) (blocks_restored R)
    (legacy_restored R hl),?_⟩
  · have hbal : L.balance h.previous = some p.balance := hprev ▸ R.balance
    simp only [receiveBlock,hhash,reads_amount M hb ha hk,R.owner,Q.owner,R.info,
      bind_eq_bind,bind_some]
    change (L.balance h.previous).bind _ = _
    rw [hbal,bind_some,updateAccount_back (hprev ▸ R.previous_ne_zero) R.hash_ne_zero
      (by exact R.info),bind_some,blockDel_eq (by exact R.block),bind_some,
      frontierDel_eq (by exact (R.legacy hl).2.2),bind_some,
      successorClear_eq (hprev ▸ R.erased),shrunk,Q.pending,if_neg R.previous_ne_zero,hprev]
    simp only [infoOf,pendingOf,hrep,R.openBlock,R.height,(R.legacy hl).2.1,Q.epoch hl,Q.amount]
    rfl
  · refine shift_of_following R.prior fun a => ?_
    have hbal : n.balance = p.balance+n.amount := by
      rw [Q.balance,Q.amount,R.prior]
      rfl
    change _ = representationGet (representationAdd _ _ _) a+_
    rw [representationGet_add]
    simp only [share,hrep,hbal]
    split_ifs <;> ring

variable (now) in
theorem changeBlock_shrinks {b : Block} {h : ChangeHashables} (hn : n.hashables = .change h)
    (hbn : b.hashables = n.hashables) :
    TakesBack L X g n now (changeBlock C now L b h) := by
  have hj := ha.toJustified
  have hprev : n.previous = h.previous := by rw [Node.previous,hn]; rfl
  have hmove : n.move = .keep := by rw [justified_move hj,hn]; rfl
  have hl : n.legacy := by
    rw [Node.legacy,hn]
    rintro ⟨⟩
  have hhash := hj.blockHash hbn
  obtain ⟨p,t,r,rp,R⟩ := legacy_reads M hb ha hk hl (by rw [hn]; rintro ⟨⟩)
  have hbal : n.balance = p.balance := by
    rw [admits_keep ha (.inl hmove),R.prior]
    rfl
  have hrep : n.representative = h.representative := by
    rw [justified_representative hj,hn]
    rfl
  obtain ⟨f,q,hf,hq,hqr⟩ := representative_spec M (Causal.Built.add hb hk ha)
    (add_old hk R.prior)
  refine ⟨_,?_,following_shrinks R (representationAddDual L.cache.repWeights n.representative
    (0-p.balance) p.representative p.balance) (blocks_restored R) (legacy_restored R hl),?_⟩
  · have hps : pendingShrunk X n g L.pending = L.pending := by
      rw [pendingShrunk,hmove]
    simp only [changeBlock,hhash,← hprev,hf,R.previousOwner,R.info,R.balance,hq,hqr,
      bind_eq_bind,bind_some]
    rw [blockDel_eq (by exact R.block),bind_some,
      updateAccount_back R.previous_ne_zero R.hash_ne_zero (by exact R.info),bind_some,
      frontierDel_eq (by exact (R.legacy hl).2.2),bind_some,
      successorClear_eq R.erased,shrunk,hps,if_neg R.previous_ne_zero]
    simp only [infoOf,hbal,hrep,R.openBlock,R.height,(R.legacy hl).2.1]
    rfl
  · refine shift_of_following R.prior fun a => ?_
    change _ = representationGet (representationAddDual _ _ _ _ _) a+_
    rw [representationGet_addDual]
    simp only [share,hbal]
    split_ifs <;> ring

theorem opening_shrinks (h0 : n.previous = 0) {F : Std.ExtTreeMap BlockHash Account}
    (w : RepWeights) (hF : ∀ f, F[f]? = if f = g then none else L.frontiers[f]?) :
    Shrinks L (discounted (shrunk L X g n (L.accounts.erase n.account) (L.blocks.erase g) F w))
      X g n now where
  blocks := by
    intro f
    change (L.blocks.erase g)[f]? = _
    rw [get_erase]
    split_ifs with e1 e2
    · rfl
    · rw [e2,h0,M.absent.mpr (built_zero (Causal.Built.add hb hk ha))]
      rfl
    · rfl
  accounts := by
    rw [h0,built_zero hb]
    rfl
  frontiers := by
    intro f
    rw [h0,built_zero hb]
    refine (hF f).trans ?_
    split_ifs with e1 e2
    · rfl
    · cases hf : L.frontiers[f]? with
      | none => rfl
      | some a =>
        obtain ⟨m,hm,-⟩ := (M.frontier _ _).mp hf
        exact absurd e2 (built_key_ne_zero (Causal.Built.add hb hk ha) hm.1)
    · rfl
  pending := rfl
  confirmationHeight := rfl
  cementedCount := rfl
  pruned := rfl
  blockCount := rfl
  accountCount := rfl

variable (now) in
theorem openBlock_shrinks {b : Block} {h : OpenHashables} (hn : n.hashables = .open_ h)
    (hbn : b.hashables = n.hashables) :
    TakesBack L X g n now (openBlock C L b h) := by
  have hj := ha.toJustified
  have hb' : Built S (add X g n) := Causal.Built.add hb hk ha
  have h0 : n.previous = 0 := by rw [Node.previous,hn]; rfl
  have hmove : n.move = .receive h.source := by rw [justified_move hj,hn]; rfl
  have hl : n.legacy := by
    rw [Node.legacy,hn]
    exact nofun
  have hhash := hj.blockHash hbn
  have hhead := added_head hb ha hk
  obtain ⟨r,hr,-⟩ := M.get hhead.1
  obtain ⟨t,ht⟩ := added_info M hb ha hk
  have hfront : L.frontiers[g]? = some n.account := (M.frontier _ _).mpr ⟨n,hhead,hl,rfl⟩
  obtain ⟨m,Q⟩ := reads_source M hb ha hk hmove
  have hrep : n.representative = h.representative := by
    rw [justified_representative hj,hn]
    rfl
  refine ⟨_,?_,opening_shrinks M hb ha hk h0
    (representationAdd L.cache.repWeights n.representative (0-n.amount))
    (fun f => get_erase _ _ _),?_⟩
  · simp only [openBlock,hhash,reads_amount M hb ha hk,M.owner hb' hhead.1,Q.owner,
      bind_eq_bind,bind_some]
    rw [updateAccount_del rfl (by exact ht),bind_some,blockDel_eq (by exact hr),
      bind_some,frontierDel_eq (by exact hfront),shrunk,Q.pending,if_pos h0]
    simp only [pendingOf,hrep,Q.epoch hl,Q.amount]
    rfl
  · refine shift_of_opening (h0 ▸ built_zero hb) fun a => ?_
    have hbal : n.balance = n.amount := by
      rw [Q.balance,Q.amount,h0,built_zero hb]
      exact BitVec.zero_add _
    change _ = representationGet (representationAdd _ _ _) a+_
    rw [representationGet_add]
    simp only [share,hbal]
    split_ifs <;> ring

variable {h : StateHashables} (hn : n.hashables = .state h)
include hn

theorem statePending_kept {call : Call} {bound : ℕ} {list : RollbackList} {e : Bool}
    (hr : L.blocks[g]? = some r) (hmove : ∀ d, n.move ≠ .send d) :
    statePending C call bound L list r h e (previousBalance (X n.previous)) =
      some (repended L X g n,list) := by
  have hj := ha.toJustified
  obtain ⟨n',hn',hs⟩ := M.block g r hr
  cases (added_head hb ha hk).1.symm.trans hn'
  have hmo : n.move = moveOf C (.state h) (previousBalance (X n.previous)) := by
    rw [← hn]
    exact justified_move hj
  have hbal : n.balance = h.balance := by
    rw [justified_balance hj,hn]
    rfl
  have hacc : n.account = h.account := by
    rw [justified_account hj,hn]
    rfl
  unfold moveOf at hmo
  dsimp only at hmo
  unfold statePending repended pendingShrunk
  dsimp only
  by_cases hlt : h.balance < previousBalance (X n.previous)
  · rw [if_pos hlt] at hmo
    exact absurd hmo (hmove _)
  · rw [if_neg hlt] at hmo ⊢
    by_cases hl0 : h.link = 0
    · rw [if_pos hl0] at hmo
      rw [if_neg (fun hc => hc.1 hl0),hmo]
      rfl
    · rw [if_neg hl0] at hmo
      by_cases hep : C.isEpochLink h.link = true
      · rw [if_pos hep] at hmo
        rw [if_neg (fun hc => hc.2 hep),hmo]
        rfl
      · rw [if_neg hep] at hmo
        obtain ⟨m,Q⟩ := reads_source M hb ha hk hmo
        have hsrc : r.sideband.sourceEpoch = m.epoch := by
          have hns : n.sourceEpoch = m.epoch := by
            rw [justified_sourceEpoch hj,hn,hmo]
            simp [sourceEpochOf,Move.source,Q.source]
          rw [hs.sideband,← hns]
          simp [Node.sideband,hn,Hashables.type,Sideband.stored]
        have ham : h.balance-previousBalance (X n.previous) = m.amount := by
          rw [← hbal,Q.balance]
          ring
        rw [if_pos ⟨hl0,hep⟩,hmo]
        simp only [Q.owner,Q.source,hsrc,ham,hacc]
        rfl

theorem statePending_sent {d : Account} (hmove : n.move = .send d) :
    h.balance < previousBalance (X n.previous) ∧ d = h.link ∧
    L.pendingDel ⟨h.link,g⟩ = some (repended L X g n) := by
  have hj := ha.toJustified
  have hmo : n.move = moveOf C (.state h) (previousBalance (X n.previous)) := by
    rw [← hn]
    exact justified_move hj
  have hlt : h.balance < previousBalance (X n.previous) := by
    by_contra hnot
    unfold moveOf at hmo
    dsimp only at hmo
    rw [if_neg hnot,hmove] at hmo
    split_ifs at hmo
  have hd : d = h.link := by
    unfold moveOf at hmo
    dsimp only at hmo
    rw [if_pos hlt,hmove] at hmo
    injection hmo
  subst hd
  refine ⟨hlt,rfl,?_⟩
  have hpend : L.pending[(⟨h.link,g⟩ : PendingKey)]? = some (pendingOf n) := by
    rw [M.pending]
    exact ⟨n,(unreceived_add hb hk ha _).mpr
      (.inl ⟨rfl,rfl,hmove⟩),rfl⟩
  rw [pendingDel_eq hpend,repended,pendingShrunk,hmove]

theorem state_no_frontier : L.frontiers[g]? = none := by
  cases hf : L.frontiers[g]? with
  | none => rfl
  | some a =>
    obtain ⟨m,hm,hm',-⟩ := (M.frontier _ _).mp hf
    cases (added_head hb ha hk).1.symm.trans hm.1
    rw [Node.legacy,hn] at hm'
    exact absurd rfl hm'

variable (now) in
theorem stateCommit_shrinks (t : ℕ) :
    ∃ L', stateCommit now (repended L X g n) g h (infoOf g n t)
        (((X n.previous).map Node.representative).getD 0) (previousBalance (X n.previous)) =
          some L' ∧
      Shrinks L (discounted L') X g n now ∧ L'.cache.repWeights = L.cache.repWeights := by
  have hprev : n.previous = h.previous := by rw [Node.previous,hn]; rfl
  have hacc : n.account = h.account := by
    rw [justified_account ha.toJustified,hn]
    rfl
  have hb' : Built S (add X g n) := Causal.Built.add hb hk ha
  have hfg := state_no_frontier M hb ha hk hn
  unfold stateCommit
  by_cases h0 : n.previous = 0
  · obtain ⟨t',ht'⟩ := added_info M hb ha hk
    obtain ⟨r,hr,-⟩ := M.get (added_head hb ha hk).1
    have hnone : L.blocks[h.previous]? = none := by
      rw [← hprev,h0,M.absent.mpr (built_zero hb')]
    refine ⟨shrunk L X g n (L.accounts.erase n.account) (L.blocks.erase g) L.frontiers
      L.cache.repWeights,?_,opening_shrinks M hb ha hk h0 _ ?_,rfl⟩
    · rw [updateAccount_del (hprev ▸ h0) (by rw [← hacc]; exact ht'),bind_eq_bind,
        bind_some,restorePrevious_opening (by exact hnone),
        bind_some,blockDel_eq (by exact hr),shrunk,if_pos h0,hacc]
      rfl
    · intro f
      split_ifs with e
      · rw [e,hfg]
      · rfl
  · obtain ⟨p,hp,-⟩ := ha.following h0
    obtain ⟨t',r,rp,R⟩ := reads_following M hb ha hk hp
    refine ⟨_,?_,following_shrinks R L.cache.repWeights (state_blocks_restored R)
      (state_frontiers_restored R hfg),rfl⟩
    have hgot : (L.blocks.insert h.previous (rp.withSuccessor 0))[g]? = some r := by
      rw [get_insert,if_neg (hprev ▸ R.previous_ne.symm),R.block]
    have hver : (repended L X g n).version h.previous = p.epoch :=
      hprev ▸ M.version hb' (add_old hk hp)
    rw [updateAccount_back (hprev ▸ h0) (built_key_ne_zero hb' (added_head hb ha hk).1)
      (by rw [← hacc]; exact R.info),bind_eq_bind,bind_some,
      restorePrevious_following (by rw [← hprev]; exact R.previousBlock) R.previousHashables,
      bind_some,blockDel_eq hgot,shrunk,if_neg h0,hp,
      hprev,hacc]
    simp only [infoOf,hver,R.openBlock,R.height]
    rfl

end Vxldollar.Retractions
