import Vxldollar.Mirror

/-!
# Growing and shrinking mirrored tables

The writes of a processed block and of a rolled back block, as relations
between two ledgers. Growth by an admitted node turns tables that mirror a
lattice into tables that mirror the larger one; shrinking goes back, and the
larger ledger is then a growth of the smaller one. So a quantity that growth
keeps is also kept by rollback.
-/

namespace Vxldollar.Growth
open Blocks Store Vxldollar.Lattice Chains Mirror Table Option

variable {C : Constants} {U : Set Hashables} {S : HashSound C U} {X : Nodes} {L L' : Ledger}
  {hash : BlockHash} {b : Block} {n : Node} {now : ℕ}

def pendingGrown (n : Node) (hash : BlockHash) (pending : Std.ExtTreeMap PendingKey PendingInfo) :
    Std.ExtTreeMap PendingKey PendingInfo := match n.move with
  | .send d => pending.insert ⟨d,hash⟩ (pendingOf n)
  | .receive s => pending.erase ⟨n.account,s⟩
  | _ => pending

structure Grows (L L' : Ledger) (hash : BlockHash) (b : Block) (n : Node) (now : ℕ) :
    Prop where
  blocks : ∀ g, L'.blocks[g]? = if g = hash then some ⟨b,n.sideband 0 now⟩
    else if g = n.previous then L.blocks[g]?.map (fun r => r.withSuccessor hash)
    else L.blocks[g]?
  accounts : L'.accounts = L.accounts.insert n.account (infoOf hash n now)
  frontiers : ∀ g, L'.frontiers[g]? = if g = hash then (if n.legacy then some n.account else none)
    else if g = n.previous then none else L.frontiers[g]?
  pending : L'.pending = pendingGrown n hash L.pending
  confirmationHeight : L'.confirmationHeight = L.confirmationHeight
  cementedCount : L'.cache.cementedCount = L.cache.cementedCount
  pruned : L'.pruned = L.pruned
  blockCount : L'.cache.blockCount = L.cache.blockCount+1
  accountCount : L'.cache.accountCount = L.cache.accountCount+if n.previous = 0 then 1 else 0

section
theorem prior_info (M : Mirrors L X) (hb : Built S X) (ha : Admits C U X hash n) :
    (n.previous = 0 ∧ X n.previous = none ∧ L.accounts[n.account]? = none) ∨
    (n.previous ≠ 0 ∧ ∃ p t, X n.previous = some p ∧ Head X n.previous p ∧
      p.account = n.account ∧ L.accounts[n.account]? = some (infoOf n.previous p t)) := by
  by_cases hp : n.previous = 0
  · exact .inl ⟨hp,hp ▸ built_zero hb,(M.unopened hb _).mpr (ha.unopened hp)⟩
  · obtain ⟨p,hp',hacc,-⟩ := ha.following hp
    have hh : Head X n.previous p := ⟨hp',ha.head hp⟩
    obtain ⟨t,ht⟩ := M.head hb hh
    exact .inr ⟨hp,p,t,hp',hh,hacc,hacc ▸ ht⟩

theorem accounts_total {R : Type} [AddCommMonoid R] (f : AccountInfo → R)
    (hf : ∀ h m t t', f (infoOf h m t) = f (infoOf h m t')) (M : Mirrors L X) (hb : Built S X)
    (ha : Admits C U X hash n) (t : ℕ) :
    total (fun _ i => f i) (L.accounts.insert n.account (infoOf hash n t))+
      ((X n.previous).map (fun p => f (infoOf n.previous p 0))).getD 0 =
    total (fun _ i => f i) L.accounts+f (infoOf hash n t) := by
  rcases prior_info M hb ha with ⟨-,hX,hnone⟩ | ⟨-,p,t0,hX,-,-,hsome⟩
  · rw [total_insert _ _ _ _ hnone,hX]
    simp [add_comm]
  · have hr := total_replace (fun _ i => f i) L.accounts n.account _ (infoOf hash n t) hsome
    rw [hX,map_some,getD_some,hf _ p 0 t0]
    exact hr

variable {K V : Type} {r : StoredBlock} {Y : Nodes} {m : Node}

theorem count_insert_absent [Ord K] [Std.TransOrd K] [Std.LawfulEqOrd K]
    [DecidableEq K] (m : Std.ExtTreeMap K V) (k : K) (v : V) (h : m[k]? = none) :
    count (m.insert k v) = count m+1 := by
  rw [count,total_insert _ _ _ _ h,count,Nat.add_comm]

theorem count_insert_present [Ord K] [Std.TransOrd K] [Std.LawfulEqOrd K]
    [DecidableEq K] (m : Std.ExtTreeMap K V) (k : K) (v w : V) (h : m[k]? = some v) :
    count (m.insert k w) = count m := by
  have hr := total_replace (fun _ _ => 1) m k v w h
  exact Nat.add_right_cancel hr

theorem count_erase_present [Ord K] [Std.TransOrd K] [Std.LawfulEqOrd K]
    [DecidableEq K] (m : Std.ExtTreeMap K V) (k : K) (v : V) (h : m[k]? = some v) :
    count m = count (m.erase k)+1 := by
  rw [count,total_erase _ _ _ _ h,count,Nat.add_comm]

theorem count_congr [Ord K] [Std.TransOrd K] [Std.LawfulEqOrd K] [DecidableEq K]
    (m m' : Std.ExtTreeMap K V) (h : ∀ k : K, (m[k]?).isSome = (m'[k]?).isSome) :
    count m = count m' := by
  refine total_congr _ _ m m' ?_
  intro k
  have hk := h k
  cases h1 : m[k]? <;> cases h2 : m'[k]? <;> simp_all

theorem grow_block_count (hk : L.blocks[hash]? = none) (G : Grows L L' hash b n now) :
    count L'.blocks = count L.blocks+1 := by
  rw [← count_insert_absent L.blocks hash ⟨b,n.sideband 0 now⟩ hk]
  refine count_congr _ _ ?_
  intro g
  rw [G.blocks,get_insert]
  split_ifs with e1 e2
  · rfl
  · rw [isSome_map]
  · rfl

theorem withSuccessor_sideband (n : Node) (s s' : BlockHash) (t : ℕ) :
    { n.sideband s t with successor := s' } = n.sideband s' t := by
  unfold Node.sideband
  cases n.hashables.type <;> rfl

theorem sideband_successor (n : Node) (s : BlockHash) (t : ℕ) : (n.sideband s t).successor = s := by
  unfold Node.sideband
  cases n.hashables.type <;> rfl

theorem sideband_timestamp (n : Node) (s : BlockHash) (t : ℕ) : (n.sideband s t).timestamp = t := by
  unfold Node.sideband
  cases n.hashables.type <;> rfl

theorem stores_withSuccessor {h s : BlockHash} (hs : Stores X h m r) (hsucc : SuccessorOf Y h s) :
    Stores Y h m (r.withSuccessor s) where
  hashables := hs.hashables
  sideband := by
    change { r.sideband with successor := s } = _
    rw [hs.sideband,withSuccessor_sideband]
    rfl
  successor := hsucc

theorem stores_congr {h : BlockHash} (hs : Stores X h m r)
    (hsucc : SuccessorOf Y h r.sideband.successor) : Stores Y h m r :=
  ⟨hs.hashables,hs.sideband,hsucc⟩

theorem grow_stores (M : Mirrors L X) (hb : Built S X) (ha : Admits C U X hash n)
    (hk : X hash = none) (hbn : b.hashables = n.hashables) (G : Grows L L' hash b n now)
    (h : BlockHash) (r : StoredBlock) (hr : L'.blocks[h]? = some r) :
    ∃ m, add X hash n h = some m ∧ Stores (add X hash n) h m r := by
  have hself : add X hash n hash = some n := add_new
  rw [G.blocks] at hr
  split_ifs at hr with e1 e2
  · subst e1
    cases hr
    refine ⟨n,hself,hbn,?_,.inl ⟨sideband_successor n 0 now,?_⟩⟩
    · simp [sideband_successor,sideband_timestamp]
    · exact ((head_add hb hk ha).mpr (.inl ⟨rfl,rfl⟩)).2
  · obtain ⟨r0,hr0,rfl⟩ := map_eq_some_iff.mp hr
    obtain ⟨m,hm,hs⟩ := M.block h r0 hr0
    exact ⟨m,add_old hk hm,stores_withSuccessor hs (.inr ⟨n,hself,e2.symm⟩)⟩
  · obtain ⟨m,hm,hs⟩ := M.block h r hr
    refine ⟨m,add_old hk hm,stores_congr hs ?_⟩
    rcases hs.successor with ⟨hs0,hmax⟩ | ⟨x,hx,hxp⟩
    · exact .inl ⟨hs0,((head_add hb hk ha).mpr (.inr ⟨⟨hm,hmax⟩,e2⟩)).2⟩
    · exact .inr ⟨x,add_old hk hx,hxp⟩

theorem grow_present (M : Mirrors L X) (hk : X hash = none) (G : Grows L L' hash b n now)
    (h : BlockHash) (m : Node) (hm : add X hash n h = some m) : ∃ r, L'.blocks[h]? = some r := by
  rw [G.blocks]
  rcases (add_eq_some hk).mp hm with ⟨rfl,rfl⟩ | hm'
  · exact ⟨_,if_pos rfl⟩
  · obtain ⟨r,hr⟩ := M.present h m hm'
    split_ifs with e1 e2
    · exact ⟨_,rfl⟩
    · exact ⟨r.withSuccessor hash,by simp [hr]⟩
    · exact ⟨r,hr⟩

section
variable (M : Mirrors L X) (hb : Built S X) (ha : Admits C U X hash n) (hk : X hash = none)
  (G : Grows L L' hash b n now)
include M hb ha hk G

theorem grow_account (a : Account) (i : AccountInfo) (hi : L'.accounts[a]? = some i) :
    ∃ h m, Head (add X hash n) h m ∧ m.account = a ∧ i = infoOf h m i.modified := by
  have hiff : ∀ h m, Head (add X hash n) h m ↔ _ := fun h m =>
    head_add hb hk ha
  rw [G.accounts,get_insert] at hi
  split_ifs at hi with e
  · cases hi
    exact ⟨hash,n,(hiff _ _).mpr (.inl ⟨rfl,rfl⟩),e.symm,rfl⟩
  · obtain ⟨h,m,hh,hacc,hinfo⟩ := M.account a i hi
    refine ⟨h,m,(hiff _ _).mpr (.inr ⟨hh,?_⟩),hacc,hinfo⟩
    rintro rfl
    obtain ⟨p,hp,hpa,-⟩ := ha.following (built_key_ne_zero hb hh.1)
    cases hh.1.symm.trans hp
    exact e (hacc.symm.trans hpa)

theorem grow_opened (h : BlockHash) (m : Node) (hh : Head (add X hash n) h m) :
    ∃ i, L'.accounts[m.account]? = some i := by
  rw [G.accounts,get_insert]
  split_ifs with e
  · exact ⟨_,rfl⟩
  · rcases (head_add hb hk ha).mp hh with
      ⟨rfl,rfl⟩ | ⟨hh',-⟩
    · exact absurd rfl e
    · exact M.opened h m hh'

theorem grow_frontier (h : BlockHash) (a : Account) :
    L'.frontiers[h]? = some a ↔ ∃ m, Head (add X hash n) h m ∧ m.legacy ∧ m.account = a := by
  rw [G.frontiers]
  simp only [head_add hb hk ha]
  split_ifs with e1 e2 e3
  · subst e1
    rw [some.injEq]
    constructor
    · exact fun e => ⟨n,.inl ⟨rfl,rfl⟩,e2,e⟩
    · rintro ⟨m,⟨-,rfl⟩ | ⟨hh,-⟩,-,hacc⟩
      · exact hacc
      · simp [hh.1] at hk
  · subst e1
    constructor
    · exact fun e => by cases e
    · rintro ⟨m,⟨-,rfl⟩ | ⟨hh,-⟩,hl,-⟩
      · exact absurd hl e2
      · simp [hh.1] at hk
  · constructor
    · exact fun e => by cases e
    · rintro ⟨m,⟨e,-⟩ | ⟨-,e⟩,-⟩
      · exact absurd e e1
      · exact absurd e3 e
  · rw [M.frontier]
    constructor
    · rintro ⟨m,hh,hl,hacc⟩
      exact ⟨m,.inr ⟨hh,e3⟩,hl,hacc⟩
    · rintro ⟨m,⟨e,-⟩ | ⟨hh,-⟩,hl,hacc⟩
      · exact absurd e e1
      · exact ⟨m,hh,hl,hacc⟩

end

theorem admits_source (ha : Admits C U X hash n) {s : BlockHash} (hs : n.move = .receive s) :
    ∃ m, Unreceived X s m n.account ∧
      n.balance.toNat = (previousBalance (X n.previous)).toNat+m.amount.toNat := by
  have hc := ha.covered
  unfold Covered at hc
  rw [hs] at hc
  obtain ⟨m,hm,hmove,hbal,-⟩ := hc
  exact ⟨m,⟨hm,hmove,ha.unreceived s hs⟩,hbal⟩

theorem unreceived_destination {h : BlockHash} {m m' : Node} {d d' : Account}
    (hu : Unreceived X h m d) (hu' : Unreceived X h m' d') : m = m' ∧ d = d' := by
  cases hu.1.symm.trans hu'.1
  have := hu.2.1.symm.trans hu'.2.1
  injection this with this
  exact ⟨rfl,this⟩

variable (M : Mirrors L X) (hb : Built S X) (ha : Admits C U X hash n)
include M hb ha

theorem grow_pending (hk : X hash = none) (G : Grows L L' hash b n now) (k : PendingKey)
    (i : PendingInfo) :
    L'.pending[k]? = some i ↔
      ∃ m, Unreceived (add X hash n) k.hash m k.account ∧ i = pendingOf m := by
  rw [G.pending]
  simp only [unreceived_add hb hk ha]
  unfold pendingGrown
  cases hm : n.move with
  | send d =>
    rw [get_insert]
    split_ifs with e
    · subst e
      rw [some.injEq]
      constructor
      · rintro rfl
        exact ⟨n,.inl ⟨rfl,rfl,rfl⟩,rfl⟩
      · rintro ⟨m,⟨-,rfl,-⟩ | ⟨hu,-⟩,rfl⟩
        · rfl
        · simp [hu.1] at hk
    · rw [M.pending]
      constructor
      · rintro ⟨m,hu,rfl⟩
        exact ⟨m,.inr ⟨hu,by simp⟩,rfl⟩
      · rintro ⟨m,⟨e1,-,e2⟩ | ⟨hu,-⟩,rfl⟩
        · refine absurd ?_ e
          cases k
          cases e2
          simp_all
        · exact ⟨m,hu,rfl⟩
  | receive s =>
    obtain ⟨x,hx,-⟩ := admits_source ha hm
    rw [get_erase]
    split_ifs with e
    · subst e
      constructor
      · exact fun e => by cases e
      · rintro ⟨m,⟨-,-,e⟩ | ⟨-,e⟩,-⟩
        · cases e
        · exact absurd rfl e
    · rw [M.pending]
      constructor
      · rintro ⟨m,hu,rfl⟩
        refine ⟨m,.inr ⟨hu,?_⟩,rfl⟩
        intro e'
        obtain rfl : s = k.hash := by injection e'
        exact e (by rw [(unreceived_destination hx hu).2])
      · rintro ⟨m,⟨-,-,e2⟩ | ⟨hu,-⟩,rfl⟩
        · cases e2
        · exact ⟨m,hu,rfl⟩
  | _ =>
    rw [M.pending]
    constructor
    · rintro ⟨m,hu,rfl⟩
      exact ⟨m,.inr ⟨hu,by simp⟩,rfl⟩
    · rintro ⟨m,⟨-,-,e2⟩ | ⟨hu,-⟩,rfl⟩
      · cases e2
      · exact ⟨m,hu,rfl⟩

theorem grow_account_count (G : Grows L L' hash b n now) :
    L'.cache.accountCount = count L'.accounts := by
  rw [G.accountCount,G.accounts,M.accountCount]
  rcases prior_info M hb ha with ⟨hp,-,hnone⟩ | ⟨hp,p,t,-,-,-,hsome⟩
  · rw [if_pos hp,count_insert_absent _ _ _ hnone]
  · rw [if_neg hp,count_insert_present _ _ _ _ hsome,Nat.add_zero]

theorem grow_mirrors (hk : X hash = none) (hbn : b.hashables = n.hashables)
    (G : Grows L L' hash b n now) :
    Mirrors L' (add X hash n) where
  block := grow_stores M hb ha hk hbn G
  present := grow_present M hk G
  account := grow_account M hb ha hk G
  opened := grow_opened M hb ha hk G
  frontier := grow_frontier M hb ha hk G
  pending := grow_pending M hb ha hk G
  pruned := by rw [G.pruned,M.pruned]
  blockCount := by rw [G.blockCount,M.blockCount,grow_block_count (M.absent.mpr hk) G]
  accountCount := grow_account_count M hb ha G

end

def pendingShrunk (X : Nodes) (n : Node) (hash : BlockHash)
    (pending : Std.ExtTreeMap PendingKey PendingInfo) : Std.ExtTreeMap PendingKey PendingInfo :=
  match n.move with
  | .send d => pending.erase ⟨d,hash⟩
  | .receive s => match X s with
    | some m => pending.insert ⟨n.account,s⟩ (pendingOf m)
    | none => pending
  | _ => pending

/-- The writes of a rollback; the lattice is the one without the node. -/
structure Shrinks (L L' : Ledger) (X : Nodes) (hash : BlockHash) (n : Node) (now : ℕ) :
    Prop where
  blocks : ∀ g, L'.blocks[g]? = if g = hash then none
    else if g = n.previous then L.blocks[g]?.map (fun r => r.withSuccessor 0)
    else L.blocks[g]?
  accounts : L'.accounts = match X n.previous with
    | some p => L.accounts.insert n.account (infoOf n.previous p now)
    | none => L.accounts.erase n.account
  frontiers : ∀ g, L'.frontiers[g]? = if g = hash then none
    else if g = n.previous then
      (X n.previous).bind (fun p => if p.legacy then some n.account else none)
    else L.frontiers[g]?
  pending : L'.pending = pendingShrunk X n hash L.pending
  confirmationHeight : L'.confirmationHeight = L.confirmationHeight
  cementedCount : L'.cache.cementedCount = L.cache.cementedCount
  pruned : L'.pruned = L.pruned
  blockCount : L'.cache.blockCount = L.cache.blockCount-1
  accountCount : L'.cache.accountCount = L.cache.accountCount-if n.previous = 0 then 1 else 0

variable (M : Mirrors L (add X hash n)) (hb : Built S X) (ha : Admits C U X hash n)
  (hk : X hash = none) (H : Shrinks L L' X hash n now)

include hk ha hb in
theorem added_head : Head (add X hash n) hash n :=
  (head_add hb hk ha).mpr (.inl ⟨rfl,rfl⟩)

include hk ha hb M in
theorem added_info : ∃ t, L.accounts[n.account]? = some (infoOf hash n t) :=
  M.head (Causal.Built.add hb hk ha) (added_head hb ha hk)

include M H

theorem shrink_block_count : count L.blocks = count L'.blocks+1 := by
  obtain ⟨r,hr⟩ := M.present hash n add_new
  rw [count_erase_present L.blocks hash r hr]
  congr 1
  refine count_congr _ _ ?_
  intro g
  rw [H.blocks,get_erase]
  split_ifs with e1 e2
  · rfl
  · rw [isSome_map]
  · rfl

include hk

theorem shrink_present (h : BlockHash) (m : Node) (hm : X h = some m) :
    ∃ r, L'.blocks[h]? = some r := by
  obtain ⟨r,hr⟩ := M.present h m (add_old hk hm)
  rw [H.blocks]
  split_ifs with e1 e2
  · simp [e1,hk] at hm
  · exact ⟨r.withSuccessor 0,by simp [hr]⟩
  · exact ⟨r,hr⟩

include hb ha

theorem shrink_stores (h : BlockHash) (r : StoredBlock) (hr : L'.blocks[h]? = some r) :
    ∃ m, X h = some m ∧ Stores X h m r := by
  rw [H.blocks] at hr
  split_ifs at hr with e1 e2
  · obtain ⟨r0,hr0,rfl⟩ := map_eq_some_iff.mp hr
    obtain ⟨m,hm,hs⟩ := M.block h r0 hr0
    have hX : X h = some m := ((add_eq_some hk).mp hm).resolve_left (fun e => e1 e.1)
    refine ⟨m,hX,stores_withSuccessor hs (.inl ⟨rfl,?_⟩)⟩
    rw [e2]
    exact ha.head (e2 ▸ built_key_ne_zero hb hX)
  · obtain ⟨m,hm,hs⟩ := M.block h r hr
    have hX : X h = some m := ((add_eq_some hk).mp hm).resolve_left (fun e => e1 e.1)
    refine ⟨m,hX,stores_congr hs ?_⟩
    rcases hs.successor with ⟨hs0,hmax⟩ | ⟨x,hx,hxp⟩
    · exact .inl ⟨hs0,fun g x hg => hmax g x (add_old hk hg)⟩
    · rcases (add_eq_some hk).mp hx with ⟨-,rfl⟩ | hx'
      · exact absurd hxp.symm e2
      · exact .inr ⟨x,hx',hxp⟩

theorem shrink_account (a : Account) (i : AccountInfo) (hi : L'.accounts[a]? = some i) :
    ∃ h m, Head X h m ∧ m.account = a ∧ i = infoOf h m i.modified := by
  have hiff : ∀ h m, Head (add X hash n) h m ↔ _ := fun h m =>
    head_add hb hk ha
  -- an entry of another account is one of the larger lattice, with the same head
  have hother : a ≠ n.account → L.accounts[a]? = some i →
      ∃ h m, Head X h m ∧ m.account = a ∧ i = infoOf h m i.modified := by
    intro hne hL
    obtain ⟨h,m,hh,hacc,hinfo⟩ := M.account a i hL
    rcases (hiff h m).mp hh with ⟨-,rfl⟩ | ⟨hh',-⟩
    · exact absurd hacc.symm hne
    · exact ⟨h,m,hh',hacc,hinfo⟩
  rw [H.accounts] at hi
  cases hX : X n.previous with
  | none =>
    simp only [hX,get_erase] at hi
    split_ifs at hi with e
    exact hother e hi
  | some p =>
    simp only [hX,get_insert] at hi
    split_ifs at hi with e
    · cases hi
      have hp := built_key_ne_zero hb hX
      obtain ⟨p',hp',hacc,-⟩ := ha.following hp
      cases hX.symm.trans hp'
      exact ⟨n.previous,p,⟨hX,ha.head hp⟩,hacc.trans e.symm,rfl⟩
    · exact hother e hi

theorem shrink_opened (h : BlockHash) (m : Node) (hh : Head X h m) :
    ∃ i, L'.accounts[m.account]? = some i := by
  by_cases e : m.account = n.account
  · -- the head of the node's own account is its predecessor
    have hp : n.previous ≠ 0 := fun hp => ha.unopened hp h m hh.1 e
    obtain ⟨p,hp',-⟩ := ha.following hp
    rw [H.accounts]
    simp only [hp',get_insert,if_pos e]
    exact ⟨_,rfl⟩
  · have hne : h ≠ n.previous := by
      rintro rfl
      obtain ⟨p,hp',hacc,-⟩ := ha.following (built_key_ne_zero hb hh.1)
      cases hh.1.symm.trans hp'
      exact e hacc
    obtain ⟨i,hi⟩ := M.opened h m ((head_add hb hk ha).mpr (.inr ⟨hh,hne⟩))
    refine ⟨i,?_⟩
    rw [H.accounts]
    cases hX : X n.previous with
    | none => simp [get_erase,if_neg e,hi]
    | some p => simp [get_insert,if_neg e,hi]

theorem shrink_frontier (h : BlockHash) (a : Account) :
    L'.frontiers[h]? = some a ↔ ∃ m, Head X h m ∧ m.legacy ∧ m.account = a := by
  rw [H.frontiers]
  split_ifs with e1 e2
  · subst e1
    constructor
    · exact fun e => by cases e
    · rintro ⟨m,hh,-⟩
      simp [hh.1] at hk
  · subst e2
    by_cases hp : n.previous = 0
    · constructor
      · intro hbind
        simp only [hp,built_zero hb] at hbind
        cases hbind
      · rintro ⟨m,hh,-⟩
        exact absurd hp (built_key_ne_zero hb hh.1)
    · obtain ⟨p,hp',hacc,-⟩ := ha.following hp
      rw [hp',bind_some]
      constructor
      · intro hi
        split_ifs at hi with hl
        exact ⟨p,⟨hp',ha.head hp⟩,hl,hacc.trans (some.inj hi)⟩
      · rintro ⟨m,hh,hl,hma⟩
        cases hh.1.symm.trans hp'
        rw [if_pos hl,← hacc,hma]
  · rw [M.frontier]
    simp only [head_add hb hk ha]
    constructor
    · rintro ⟨m,⟨e,-⟩ | ⟨hh,-⟩,hl,hacc⟩
      · exact absurd e e1
      · exact ⟨m,hh,hl,hacc⟩
    · rintro ⟨m,hh,hl,hacc⟩
      exact ⟨m,.inr ⟨hh,e2⟩,hl,hacc⟩

theorem shrink_pending (k : PendingKey) (i : PendingInfo) :
    L'.pending[k]? = some i ↔ ∃ m, Unreceived X k.hash m k.account ∧ i = pendingOf m := by
  have hiff : ∀ h m d, Unreceived (add X hash n) h m d ↔ _ := fun h m d =>
    unreceived_add hb hk ha d
  rw [H.pending]
  unfold pendingShrunk
  cases hm : n.move with
  | send d =>
    simp only [get_erase]
    split_ifs with e
    · subst e
      constructor
      · exact fun e => by cases e
      · rintro ⟨m,hu,-⟩
        simp [hu.1] at hk
    · rw [M.pending]
      simp only [hiff]
      constructor
      · rintro ⟨m,⟨e1,-,e2⟩ | ⟨hu,-⟩,rfl⟩
        · refine absurd ?_ e
          cases k
          rw [hm] at e2
          injection e2
          simp_all
        · exact ⟨m,hu,rfl⟩
      · rintro ⟨m,hu,rfl⟩
        exact ⟨m,.inr ⟨hu,by simp [hm]⟩,rfl⟩
  | receive s =>
    obtain ⟨x,hx,-⟩ := admits_source ha hm
    simp only [hx.1,get_insert]
    split_ifs with e
    · subst e
      rw [some.injEq]
      constructor
      · rintro rfl
        exact ⟨x,hx,rfl⟩
      · rintro ⟨m,hu,rfl⟩
        rw [(unreceived_destination hx hu).1]
    · rw [M.pending]
      simp only [hiff]
      constructor
      · rintro ⟨m,⟨-,-,e2⟩ | ⟨hu,-⟩,rfl⟩
        · rw [hm] at e2
          cases e2
        · exact ⟨m,hu,rfl⟩
      · rintro ⟨m,hu,rfl⟩
        refine ⟨m,.inr ⟨hu,?_⟩,rfl⟩
        intro e'
        obtain rfl : s = k.hash := by
          rw [hm] at e'
          injection e'
        exact e (by rw [(unreceived_destination hx hu).2])
  | _ =>
    simp only [M.pending,hiff]
    constructor
    · rintro ⟨m,⟨-,-,e2⟩ | ⟨hu,-⟩,rfl⟩
      · rw [hm] at e2
        cases e2
      · exact ⟨m,hu,rfl⟩
    · rintro ⟨m,hu,rfl⟩
      exact ⟨m,.inr ⟨hu,by simp [hm]⟩,rfl⟩

theorem shrink_account_count : L'.cache.accountCount = count L'.accounts := by
  obtain ⟨t,ht⟩ := added_info M hb ha hk
  rw [H.accountCount,H.accounts,M.accountCount]
  by_cases hp : n.previous = 0
  · rw [if_pos hp,hp,built_zero hb,count_erase_present _ _ _ ht]
    rfl
  · obtain ⟨p,hp',-⟩ := ha.following hp
    simp only [if_neg hp,hp',count_insert_present _ _ _ _ ht,Nat.sub_zero]

theorem shrink_mirrors : Mirrors L' X where
  block := shrink_stores M hb ha hk H
  present := shrink_present M hk H
  account := shrink_account M hb ha hk H
  opened := shrink_opened M hb ha hk H
  frontier := shrink_frontier M hb ha hk H
  pending := shrink_pending M hb ha hk H
  pruned := by rw [H.pruned,M.pruned]
  blockCount := by
    rw [H.blockCount,M.blockCount,shrink_block_count M H]
    rfl
  accountCount := shrink_account_count M hb ha hk H

theorem shrink_accounts_grow :
    ∃ t, L.accounts = L'.accounts.insert n.account (infoOf hash n t) := by
  obtain ⟨t,ht⟩ := added_info M hb ha hk
  refine ⟨t,ext_get (fun a => ?_)⟩
  rw [H.accounts,get_insert]
  by_cases e : a = n.account
  · rw [if_pos e,e,ht]
  · cases hX : X n.previous <;> simp [get_insert,get_erase,e]

theorem shrink_pending_grow : L.pending = pendingGrown n hash L'.pending := by
  rw [H.pending]
  unfold pendingGrown pendingShrunk
  cases hm : n.move with
  | send d =>
    have hp : L.pending[(⟨d,hash⟩ : PendingKey)]? = some (pendingOf n) := by
      rw [M.pending]
      exact ⟨n,(unreceived_add hb hk ha d).mpr
        (.inl ⟨rfl,rfl,hm⟩),rfl⟩
    simp [insert_erase,insert_present _ _ _ hp]
  | receive s =>
    obtain ⟨x,hx,-⟩ := admits_source ha hm
    have hp : L.pending[(⟨n.account,s⟩ : PendingKey)]? = none := by
      by_contra hne
      obtain ⟨i,hi⟩ := ne_none_iff_exists'.mp hne
      obtain ⟨m,hu,-⟩ := (M.pending _ _).mp hi
      rcases (unreceived_add hb hk ha _).mp hu with
        ⟨-,-,e⟩ | ⟨-,e⟩
      · rw [hm] at e
        cases e
      · exact e hm
    simp only [hx.1]
    apply ext_get
    intro k
    rw [get_erase,get_insert]
    split_ifs with e
    · rw [e,hp]
    · rfl
  | _ => rfl

end Vxldollar.Growth
