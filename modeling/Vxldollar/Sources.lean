import Vxldollar.Cementing
import Vxldollar.Confirmation
import Vxldollar.Library.Forest

/-!
# The forest the processors walk

The processors take any block whose source or link is the hash of a block for
a receive. With these sources a lattice is a forest of chains, provided no
block mentions its own hash, however indirectly. The tables are read through
one interface: what a stored record says about its block in the forest.
-/

namespace Vxldollar.Sources
open Blocks Store Vxldollar.Lattice Chains Mirror Heights Cementing Option

def Mentions (a : Hashables) (h : BlockHash) : Prop :=
  h = a.previous ∨ h = a.source ∨ h = a.link

def Ordered (C : Constants) (U : Set Hashables) (rank : Hashables → ℕ) : Prop :=
  ∀ a ∈ U, ∀ b ∈ U, Mentions a (C.hash b) → rank b < rank a

/-- What is assumed of the hash beyond the lack of collisions: a hash is
mentioned only by blocks made after the block it belongs to. -/
def Grounded (C : Constants) (U : Set Hashables) : Prop := ∃ rank, Ordered C U rank

def linked (hs : Hashables) : BlockHash := if hs.source = 0 then hs.link else hs.source

open Classical in
noncomputable def sourceIn (C : Constants) (X : Nodes) (h : BlockHash) : Option BlockHash :=
  (X h).bind (fun n => if linked n.hashables ≠ 0 ∧ C.isEpochLink (linked n.hashables) = false ∧
    X (linked n.hashables) ≠ none then some (linked n.hashables) else none)

section
variable {C : Constants} {U : Set Hashables} {S : HashSound C U} {X : Nodes} {h g s : BlockHash}
  {n m : Node} {rank : Hashables → ℕ}

theorem sourceIn_eq (hX : X h = some n) : sourceIn C X h = some s ↔
    s = linked n.hashables ∧ s ≠ 0 ∧ C.isEpochLink s = false ∧ X s ≠ none := by
  rw [sourceIn,hX,bind_some]
  constructor
  · intro hs
    split at hs
    · cases hs
      exact ⟨rfl,‹_›⟩
    · cases hs
  · rintro ⟨rfl,hs⟩
    rw [if_pos hs]

theorem linked_mentioned (hs : Hashables) : Mentions hs (linked hs) := by
  unfold linked
  split
  · exact .inr (.inr rfl)
  · exact .inr (.inl rfl)

section
variable (hb : Built S X) (hX : X h = some n)
include hb hX

theorem sourceIn_receive (hm : n.move = .receive s) :
    sourceIn C X h = some s := by
  obtain ⟨k,hk,-⟩ := built_source hb hX hm
  have h0 := built_key_ne_zero hb hk
  have hepoch : C.isEpochLink s = false := by
    obtain ⟨e,hU⟩ := built_hash hb hk
    rw [← e]
    exact S.ne_epoch _ hU
  refine (sourceIn_eq hX).mpr ⟨?_,h0,hepoch,by rw [hk]; exact some_ne_none k⟩
  rcases built_justified hb hX with ⟨-,rfl⟩ | hj
  · cases hm
  · rw [justified_move hj] at hm
    unfold linked
    cases hn : n.hashables with
    | state q =>
      rw [hn] at hm
      unfold moveOf at hm
      dsimp only at hm
      split_ifs at hm
      simpa [Hashables.source,Hashables.link] using hm.symm
    | _ =>
      rw [hn] at hm
      simp_all [moveOf,Hashables.source]

/-- Anything else that is taken for a receive is a state send whose link is the
hash of a block. -/
theorem sourceIn_cases (hs : sourceIn C X h = some s) :
    n.move = .receive s ∨
      (n.hashables.type = .state ∧ n.hashables.link = s ∧ ∃ a, n.move = .send a) := by
  obtain ⟨he,h0,hepoch,hmem⟩ := (sourceIn_eq hX).mp hs
  obtain ⟨k,hk⟩ := ne_none_iff_exists'.mp hmem
  rcases built_justified hb hX with ⟨-,rfl⟩ | hj
  · obtain ⟨e,hU⟩ := built_hash hb hk
    have := S.ne_genesis _ hU
    rw [e,he] at this
    exact absurd (if_neg C.genesisAccount_ne_zero) this
  · rw [justified_move hj]
    unfold linked at he
    cases hn : n.hashables with
    | state q =>
      rw [hn] at he
      have hq : q.link = s := by simpa [Hashables.source,Hashables.link] using he.symm
      unfold moveOf
      dsimp only
      rw [hq,if_neg h0,hepoch]
      split
      · exact .inr ⟨rfl,hq,s,rfl⟩
      · exact .inl rfl
    | send q =>
      rw [hn] at he
      exact absurd (he.trans (if_pos rfl)) h0
    | change q =>
      rw [hn] at he
      exact absurd (he.trans (if_pos rfl)) h0
    | receive q =>
      rw [hn] at he
      by_cases hq : (Hashables.receive q).source = 0
      · exact absurd (he.trans (if_pos hq)) h0
      · rw [he.trans (if_neg hq)]
        exact .inl rfl
    | open_ q =>
      rw [hn] at he
      by_cases hq : (Hashables.open_ q).source = 0
      · exact absurd (he.trans (if_pos hq)) h0
      · rw [he.trans (if_neg hq)]
        exact .inl rfl

theorem dep_below {d : BlockHash} (hd : d ∈ deps n) :
    ∃ m, X d = some m ∧
      ((m.account = n.account ∧ m.height+1 = n.height) ∨ sourceIn C X h = some d) := by
  rcases hd with ⟨rfl,h0⟩ | hm
  · obtain ⟨p,hp,hacc,-,hh,-⟩ := built_following hb hX h0
    exact ⟨p,hp,.inl ⟨hacc,hh.symm⟩⟩
  · obtain ⟨k,hk,-⟩ := built_source hb hX hm
    exact ⟨k,hk,.inr (sourceIn_receive hb hX hm)⟩

end

section
variable (hr : Ordered C U rank) (hb : Built S X) (hX : X h = some n) (hg : X g = some m)
include hr hb hX hg

theorem rank_mentioned (hm : Mentions n.hashables g) : rank m.hashables < rank n.hashables := by
  obtain ⟨rfl,hgU⟩ := built_hash hb hg
  exact hr _ (built_hash hb hX).2 _ hgU hm

theorem rank_back (hacc : m.account = n.account) (hh : m.height < n.height) :
    rank m.hashables < rank n.hashables := by
  induction hk : n.height generalizing h n with
  | zero => omega
  | succ k ih =>
    have hp : n.previous ≠ 0 := by
      rw [Ne,previous_of_height hb hX]
      have := height_pos hb hg
      omega
    obtain ⟨p,hp',hpa,-,hph,-⟩ := built_following hb hX hp
    have hstep := rank_mentioned hr hb hX hp' (.inl rfl)
    by_cases he : m.height = p.height
    · obtain rfl := height_unique hb hg hp' (hacc.trans hpa.symm) he
      cases hg.symm.trans hp'
      exact hstep
    · exact (ih hp' (hacc.trans hpa.symm) (by omega) (by omega)).trans hstep

end

noncomputable def forest (hr : Ordered C U rank) (hb : Built S X) : Forest Account BlockHash where
  mem h := ∃ n, X h = some n
  account h := ((X h).map Node.account).getD 0
  height h := ((X h).map Node.height).getD 0
  source := sourceIn C X
  rank h := ((X h).map (fun n => rank n.hashables)).getD 0
  positive := by
    rintro h ⟨n,hn⟩
    simp only [hn,map_some,getD_some]
    exact height_pos hb hn
  below := by
    rintro h k ⟨n,hn⟩ h0 hk
    simp only [hn,map_some,getD_some] at hk ⊢
    obtain ⟨m,hm,hacc,hheight,-⟩ := back_iterate hb hn (n.height-k) (by omega)
    refine ⟨_,⟨m,hm⟩,?_,?_⟩
    · simp [hm,hacc]
    · simp only [hm,map_some,getD_some]
      omega
  unique := by
    rintro h g ⟨n,hn⟩ ⟨m,hm⟩ ha hh
    simp only [hn,hm,map_some,getD_some] at ha hh
    exact height_unique hb hn hm ha hh
  source_mem := by
    rintro h s ⟨n,hn⟩ hs
    exact ne_none_iff_exists'.mp ((sourceIn_eq hn).mp hs).2.2.2
  rank_chain := by
    rintro h g ⟨n,hn⟩ ⟨m,hm⟩ ha hh
    simp only [hn,hm,map_some,getD_some] at ha hh ⊢
    exact rank_back hr hb hm hn ha hh
  rank_source := by
    rintro h s ⟨n,hn⟩ hs
    obtain ⟨rfl,-,-,hsX⟩ := (sourceIn_eq hn).mp hs
    obtain ⟨m,hm⟩ := ne_none_iff_exists'.mp hsX
    simp only [hn,hm,map_some,getD_some]
    exact rank_mentioned hr hb hn hm (linked_mentioned _)

variable (hr : Ordered C U rank) (hb : Built S X)

theorem forest_account (hX : X h = some n) : (forest hr hb).account h = n.account := by
  simp [forest,hX]

theorem forest_height (hX : X h = some n) : (forest hr hb).height h = n.height := by
  simp [forest,hX]

theorem forest_source : (forest hr hb).source h = sourceIn C X h := rfl

end

structure Reads (C : Constants) (F : Forest Account BlockHash) (L : Ledger) (h : BlockHash)
    (r : StoredBlock) : Prop where
  hash : C.blockHash r.block = h
  account : r.accountCalculated = F.account h
  height : r.sideband.height = F.height h
  source : receiveSource C L r.block = F.source h
  previous : 1 < F.height h → F.mem r.block.previous ∧
    F.account r.block.previous = F.account h ∧ F.height r.block.previous+1 = F.height h
  successor : (r.sideband.successor = 0 ∧
      ∀ g, F.mem g → F.account g = F.account h → F.height g ≤ F.height h) ∨
    (F.mem r.sideband.successor ∧ F.account r.sideband.successor = F.account h ∧
      F.height r.sideband.successor = F.height h+1)

structure Backed (C : Constants) (F : Forest Account BlockHash) (L : Ledger) : Prop where
  zero : ¬ F.mem 0
  get : ∀ h, F.mem h → ∃ r, L.blocks[h]? = some r ∧ Reads C F L h r
  mem : ∀ (h : BlockHash) (r : StoredBlock), L.blocks[h]? = some r → F.mem h
  opened : ∀ h, F.mem h → ∃ i, L.accounts[F.account h]? = some i ∧ F.mem i.openBlock ∧
    F.account i.openBlock = F.account h ∧ F.height i.openBlock = 1

variable {C : Constants} {U : Set Hashables} {S : HashSound C U} {X : Nodes} {L L' : Ledger}
  {h g : BlockHash} {n : Node} {r : StoredBlock} {rank : Hashables → ℕ}
  {F : Forest Account BlockHash}

theorem Backed.record (B : Backed C F L) (hr : L.blocks[h]? = some r) :
    F.mem h ∧ Reads C F L h r := by
  have hm := B.mem h r hr
  obtain ⟨r',hr',hread⟩ := B.get h hm
  cases hr.symm.trans hr'
  exact ⟨hm,hread⟩

theorem Backed.congr (B : Backed C F L) (hblocks : L'.blocks = L.blocks)
    (haccounts : L'.accounts = L.accounts) : Backed C F L' where
  zero := B.zero
  get h hm := by
    obtain ⟨r,hr,hread⟩ := B.get h hm
    refine ⟨r,by rw [hblocks]; exact hr,{ hread with source := ?_ }⟩
    rw [← hread.source,receiveSource,receiveSource,hblocks]
  mem h r hr := B.mem h r (hblocks ▸ hr)
  opened h hm := by
    rw [haccounts]
    exact B.opened h hm

theorem mirrors_source (M : Mirrors L X) (hX : X h = some n) (hs : Stores X h n r) :
    receiveSource C L r.block = sourceIn C X h := by
  have hlink : (if r.block.source = 0 then r.block.link else r.block.source) =
      linked n.hashables := by
    rw [Block.source,Block.link,hs.hashables]
    rfl
  have hc : L.blocks.contains (linked n.hashables) = true ↔ X (linked n.hashables) ≠ none := by
    rw [M.contains,ne_none_iff_exists']
  unfold receiveSource sourceIn
  rw [hX,bind_some]
  simp only [hlink,hc]

variable (hr : Ordered C U rank) (hb : Built S X)
include hr hb

theorem mirrors_successor (hX : X h = some n) (hs : SuccessorOf X h g) :
    (g = 0 ∧ ∀ k, (forest hr hb).mem k → (forest hr hb).account k = (forest hr hb).account h →
      (forest hr hb).height k ≤ (forest hr hb).height h) ∨
    ((forest hr hb).mem g ∧ (forest hr hb).account g = (forest hr hb).account h ∧
      (forest hr hb).height g = (forest hr hb).height h+1) := by
  rw [forest_account hr hb hX,forest_height hr hb hX]
  rcases hs with ⟨rfl,hnone⟩ | ⟨m,hm,hp⟩
  · refine .inl ⟨rfl,?_⟩
    rintro k ⟨m,hm⟩ ha
    rw [forest_account hr hb hm] at ha
    rw [forest_height hr hb hm]
    exact height_le_head hb hm ⟨hX,hnone⟩ ha
  · have h0 : m.previous ≠ 0 := by
      rw [hp]
      exact built_key_ne_zero hb hX
    obtain ⟨p,hp',hpa,-,hph,-⟩ := built_following hb hm h0
    rw [hp] at hp'
    cases hX.symm.trans hp'
    exact .inr ⟨⟨m,hm⟩,by rw [forest_account hr hb hm,hpa],by rw [forest_height hr hb hm,hph]⟩

theorem mirrors_backed (M : Mirrors L X) :
    Backed C (forest hr hb) L where
  zero := by
    rintro ⟨n,hn⟩
    rw [built_zero hb] at hn
    cases hn
  get := by
    rintro h ⟨n,hX⟩
    obtain ⟨r,hr',hs⟩ := M.get hX
    have hprev := hs.previous
    refine ⟨r,hr',?_,?_,?_,?_,?_,mirrors_successor hr hb hX hs.successor⟩
    · rw [Constants.blockHash,hs.hashables]
      exact (built_hash hb hX).1
    · rw [forest_account hr hb hX,stores_account hb hX hs]
    · rw [forest_height hr hb hX,stores_height hb hX hs]
    · rw [forest_source,mirrors_source M hX hs]
    · rw [forest_height hr hb hX,forest_account hr hb hX,hprev]
      intro hlt
      have hp : n.previous ≠ 0 := by
        rw [Ne,previous_of_height hb hX]
        omega
      obtain ⟨p,hp',hpa,-,hph,-⟩ := built_following hb hX hp
      exact ⟨⟨p,hp'⟩,by rw [forest_account hr hb hp',hpa],by rw [forest_height hr hb hp',hph]⟩
  mem := by
    intro h r hr'
    obtain ⟨n,hn,-⟩ := M.block h r hr'
    exact ⟨n,hn⟩
  opened := by
    rintro h ⟨n,hX⟩
    obtain ⟨g,m,hg,hacc,hopen⟩ := head_exists hb hX
    obtain ⟨t,ht⟩ := M.head hb hg
    obtain ⟨k,hk,hka,hkh,hko⟩ := back_iterate hb hg.1 (m.height-1) (by
      have := height_pos hb hg.1
      omega)
    have hpos := height_pos hb hg.1
    rw [(back_opening hb hg.1).1] at hk
    refine ⟨infoOf g m t,?_,⟨k,hk⟩,?_,?_⟩
    · rw [forest_account hr hb hX,← hacc]
      exact ht
    · change (forest hr hb).account m.openBlock = _
      rw [forest_account hr hb hk,forest_account hr hb hX,hka,hacc]
    · change (forest hr hb).height m.openBlock = _
      rw [forest_height hr hb hk]
      omega

end Vxldollar.Sources
