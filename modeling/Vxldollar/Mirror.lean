import Vxldollar.Chains

/-!
# Tables that mirror a lattice

Which tables hold a lattice: the block table stores its nodes, the accounts
and frontiers tables list its heads, the pending table lists its unreceived
sends. Everything but the local timestamps is determined.
-/

namespace Vxldollar.Mirror
open Blocks Store Vxldollar.Lattice Chains Option

def SuccessorOf (X : Nodes) (h s : BlockHash) : Prop :=
  (s = 0 ∧ ∀ g m, X g = some m → m.previous ≠ h) ∨ ∃ m, X s = some m ∧ m.previous = h

structure Stores (X : Nodes) (h : BlockHash) (n : Node) (r : StoredBlock) : Prop where
  hashables : r.block.hashables = n.hashables
  sideband : r.sideband = n.sideband r.sideband.successor r.sideband.timestamp
  successor : SuccessorOf X h r.sideband.successor

theorem Stores.previous {X : Nodes} {h : BlockHash} {n : Node} {r : StoredBlock}
    (hs : Stores X h n r) : r.block.previous = n.previous :=
  congrArg Hashables.previous hs.hashables

theorem Stores.type {X : Nodes} {h : BlockHash} {n : Node} {r : StoredBlock}
    (hs : Stores X h n r) : r.block.type = n.hashables.type := congrArg Hashables.type hs.hashables

def infoOf (h : BlockHash) (n : Node) (modified : ℕ) : AccountInfo :=
  ⟨h,n.representative,n.openBlock,n.balance,modified,n.height,n.epoch⟩

def pendingOf (n : Node) : PendingInfo := ⟨n.account,n.amount,n.epoch⟩

def count {K V : Type} [Ord K] [Std.TransOrd K] (m : Std.ExtTreeMap K V) : ℕ :=
  Table.total (fun _ _ => 1) m

structure Mirrors (L : Ledger) (X : Nodes) : Prop where
  block : ∀ h r, L.blocks[h]? = some r → ∃ n, X h = some n ∧ Stores X h n r
  present : ∀ h n, X h = some n → ∃ r, L.blocks[h]? = some r
  account : ∀ a i, L.accounts[a]? = some i →
    ∃ h n, Head X h n ∧ n.account = a ∧ i = infoOf h n i.modified
  opened : ∀ h n, Head X h n → ∃ i, L.accounts[n.account]? = some i
  frontier : ∀ h a, L.frontiers[h]? = some a ↔ ∃ n, Head X h n ∧ n.legacy ∧ n.account = a
  pending : ∀ (k : PendingKey) i, L.pending[k]? = some i ↔
    ∃ n, Unreceived X k.hash n k.account ∧ i = pendingOf n
  pruned : L.pruned = ∅
  blockCount : L.cache.blockCount = count L.blocks
  accountCount : L.cache.accountCount = count L.accounts

section
variable {C : Constants} {U : Set Hashables} {S : HashSound C U} {X : Nodes}
  {h : BlockHash} {n : Node} {r : StoredBlock}

theorem built_account_field (hb : Built S X) (hX : X h = some n) :
    (n.hashables.type = .open_ ∨ n.hashables.type = .state → n.hashables.account = n.account) ∧
    (n.hashables.account ≠ 0 → n.hashables.account = n.account) := by
  rcases built_justified hb hX with ⟨-,rfl⟩ | hj
  · exact ⟨fun _ => rfl,fun _ => rfl⟩
  · rw [justified_account hj]
    cases n.hashables <;> simp [accountOf,Hashables.account,Hashables.type]

variable (hb : Built S X) (hX : X h = some n) (hs : Stores X h n r)
include hb hX hs

theorem stores_account : r.accountCalculated = n.account := by
  unfold StoredBlock.accountCalculated
  have hf := built_account_field hb hX
  have h0 := built_account_ne_zero hb hX
  rw [Block.account,hs.hashables]
  split_ifs with e
  · rw [hs.sideband]
    cases hh : n.hashables with
    | open_ o =>
      exact absurd ((hf.1 (by simp [hh,Hashables.type])).symm.trans e) h0
    | state o =>
      exact absurd ((hf.1 (by simp [hh,Hashables.type])).symm.trans e) h0
    | _ => simp [Node.sideband,Sideband.stored,hh,Hashables.type]
  · exact hf.2 e

theorem stores_height : r.sideband.height = n.height := by
  rw [hs.sideband]
  cases hh : n.hashables with
  | open_ o =>
    have hp : n.previous = 0 := by simp [Node.previous,hh,Hashables.previous]
    rw [(built_opening hb hX hp).1]
    simp [Node.sideband,Sideband.stored,hh,Hashables.type]
  | _ => simp [Node.sideband,Sideband.stored,hh,Hashables.type]

theorem stores_balance : r.balanceCalculated = n.balance := by
  unfold StoredBlock.balanceCalculated
  rw [hs.hashables,hs.sideband]
  rcases built_justified hb hX with ⟨-,rfl⟩ | hj
  · rfl
  · cases hh : n.hashables with
    | send o => simp [justified_balance hj,hh,balanceOf]
    | state o => simp [justified_balance hj,hh,balanceOf]
    | _ => simp [Node.sideband,Sideband.stored,hh,Hashables.type]

theorem stores_version : r.version = n.epoch := by
  unfold StoredBlock.version
  rw [Block.type,hs.hashables,hs.sideband]
  by_cases hl : n.legacy
  · rw [built_legacy_epoch hb hX hl]
    unfold Node.legacy at hl
    cases hh : n.hashables with
    | state o =>
      rw [hh] at hl
      exact absurd rfl hl
    | _ => simp [Hashables.type]
  · have ht : n.hashables.type = .state := not_not.mp hl
    rw [ht]
    cases hm : n.move <;> simp [Node.sideband,Sideband.stored,ht,hm,Move.details]

end

variable {C : Constants} {U : Set Hashables} {S : HashSound C U} {X : Nodes} {L : Ledger}
  {h : BlockHash} {n : Node}

variable (M : Mirrors L X)
include M

theorem Mirrors.get (hX : X h = some n) : ∃ r, L.blocks[h]? = some r ∧ Stores X h n r := by
  obtain ⟨r,hr⟩ := M.present h n hX
  obtain ⟨m,hm,hs⟩ := M.block h r hr
  cases hX.symm.trans hm
  exact ⟨r,hr,hs⟩

theorem stored_hash (hb : Built S X) {r : StoredBlock} (hr : L.blocks[h]? = some r) :
    C.blockHash r.block = h := by
  obtain ⟨n,hn,hs⟩ := M.block h r hr
  rw [Constants.blockHash,hs.hashables]
  exact (built_hash hb hn).1

theorem Mirrors.absent : L.blocks[h]? = none ↔ X h = none := by
  constructor
  · intro hn
    by_contra hX
    obtain ⟨n,hX⟩ := ne_none_iff_exists'.mp hX
    obtain ⟨r,hr⟩ := M.present h n hX
    simp [hn] at hr
  · intro hX
    by_contra hn
    obtain ⟨r,hr⟩ := ne_none_iff_exists'.mp hn
    obtain ⟨n,hn',-⟩ := M.block h r hr
    simp [hX] at hn'

theorem Mirrors.contains : L.blocks.contains h = true ↔ ∃ n, X h = some n := by
  rw [Std.ExtTreeMap.contains_eq_isSome_getElem?,isSome_iff_exists]
  constructor
  · rintro ⟨r,hr⟩
    obtain ⟨n,hn,-⟩ := M.block h r hr
    exact ⟨n,hn⟩
  · rintro ⟨n,hn⟩
    exact M.present h n hn

theorem Mirrors.exists_iff : L.blockOrPrunedExists h = true ↔
    ∃ n, X h = some n := by
  unfold Ledger.blockOrPrunedExists
  rw [M.pruned,← M.contains]
  simp

section
variable (hb : Built S X)
include hb

theorem Mirrors.head (hh : Head X h n) :
    ∃ t, L.accounts[n.account]? = some (infoOf h n t) := by
  obtain ⟨i,hi⟩ := M.opened h n hh
  obtain ⟨g,m,hg,hacc,hinfo⟩ := M.account _ i hi
  obtain rfl := head_unique hb hg hh hacc
  cases hg.1.symm.trans hh.1
  exact ⟨i.modified,hinfo ▸ hi⟩

theorem Mirrors.unopened (a : Account) :
    L.accounts[a]? = none ↔ ∀ g m, X g = some m → m.account ≠ a := by
  constructor
  · rintro hn g m hg rfl
    obtain ⟨k,x,hk,hacc,-⟩ := head_exists hb hg
    obtain ⟨i,hi⟩ := M.opened k x hk
    rw [hacc,hn] at hi
    cases hi
  · intro hall
    by_contra hne
    obtain ⟨i,hi⟩ := ne_none_iff_exists'.mp hne
    obtain ⟨g,m,hg,hacc,-⟩ := M.account a i hi
    exact hall g m hg.1 hacc

theorem Mirrors.balance (hX : X h = some n) : L.balance h = some n.balance := by
  obtain ⟨r,hr,hs⟩ := M.get hX
  simp only [Ledger.balance,if_neg (built_key_ne_zero hb hX),hr,map_some,
    stores_balance hb hX hs]

theorem Mirrors.previousBalance (hj : Justified C U X h n) :
    L.balance n.previous = some (previousBalance (X n.previous)) := by
  by_cases h0 : n.previous = 0
  · rw [h0,built_zero hb]
    rfl
  · obtain ⟨p,hp,-⟩ := hj.following h0
    rw [M.balance hb hp,hp]
    rfl

variable (hX : X h = some n)
include hX

theorem Mirrors.amount (hj : Justified C U X h n) :
    L.amount h = some n.amount := by
  obtain ⟨r,hr,hs⟩ := M.get hX
  have hprev := hs.previous
  rw [justified_amount hj]
  simp only [Ledger.amount,hr,M.balance hb hX,hprev,M.previousBalance hb hj,bind_eq_bind,
    bind_some]
  rfl

theorem Mirrors.owner : L.account h = some n.account := by
  obtain ⟨r,hr,hs⟩ := M.get hX
  simp [Ledger.account,hr,stores_account hb hX hs]

theorem Mirrors.version : L.version h = n.epoch := by
  obtain ⟨r,hr,hs⟩ := M.get hX
  simp [Ledger.version,hr,stores_version hb hX hs]

end

theorem Mirrors.frontierGet (hh : Head X h n) :
    L.frontierGet h = if n.legacy then n.account else 0 := by
  unfold Ledger.frontierGet
  split_ifs with hl
  · rw [(M.frontier h n.account).mpr ⟨n,hh,hl,rfl⟩]
    rfl
  · cases hf : L.frontiers[h]? with
    | none => rfl
    | some a =>
      obtain ⟨m,hm,hl',-⟩ := (M.frontier h a).mp hf
      cases hh.1.symm.trans hm.1
      exact absurd hl' hl

end Vxldollar.Mirror
