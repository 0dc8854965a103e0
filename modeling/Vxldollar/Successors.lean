import Vxldollar.Runs

/-!
# One block for each qualified root

The qualified root of a block is where it would stand: on top of its
predecessor, or at the bottom of its account. `ledger.successor` finds the block
that stands there, through the stored successor or the account's open block.
-/

namespace Vxldollar.Successors
open Blocks Store Vxldollar.Lattice Chains Mirror Heights Runs

def blockSuccessor (L : Ledger) (h : BlockHash) : BlockHash :=
  (L.blocks[h]?.map (fun r => r.sideband.successor)).getD 0

def successor (L : Ledger) (q : QualifiedRoot) : Option StoredBlock :=
  let s := if q.previous = 0 then
      match L.accounts[q.root]? with
      | some info => info.openBlock
      | none => blockSuccessor L q.previous
    else blockSuccessor L q.previous
  if s ≠ 0 then L.blocks[s]? else none

variable {C : Constants} {U : Set Hashables} {S : HashSound C U} {X : Nodes} {L : Ledger}
  {h g : BlockHash} {n m : Node} {r : StoredBlock}

theorem following_root {s : Hashables} (h0 : s.previous ≠ 0) : s.root = s.previous := by
  cases s with
  | open_ o => exact absurd rfl h0
  | state o => exact if_pos h0
  | _ => rfl

theorem opening_root (hb : Built S X) (hX : X h = some n) (hp : n.previous = 0) :
    n.hashables.root = n.account := by
  have hopen : n.hashables.type = .open_ ∨ n.hashables.type = .state := by
    rcases built_justified hb hX with ⟨-,rfl⟩ | hj
    · exact .inl rfl
    · exact hj.opening hp
  rw [← (built_account_field hb hX).1 hopen]
  cases hh : n.hashables with
  | open_ o => rfl
  | state o =>
    have ho : o.previous = 0 := by
      rw [Node.previous,hh] at hp
      exact hp
    simp [Hashables.account,Hashables.root,ho]
  | _ =>
    rw [hh] at hopen
    rcases hopen with h | h <;> cases h

theorem one_root (hb : Built S X) (hn : X h = some n) (hm : X g = some m)
    (hroot : n.hashables.root = m.hashables.root) (hprev : n.previous = m.previous) : h = g := by
  by_cases h0 : n.previous = 0
  · apply one_opening hb hn hm _ h0 (hprev ▸ h0)
    rw [← opening_root hb hn h0,← opening_root hb hm (hprev ▸ h0),hroot]
  · exact one_successor hb hn hm hprev h0

theorem openBlock_lowest (hb : Built S X) (hX : X h = some n) :
    ∃ m, X n.openBlock = some m ∧ m.previous = 0 ∧ m.account = n.account := by
  have hpos := height_pos hb hX
  obtain ⟨m,hm,hacc,hheight,-⟩ := back_iterate hb hX (n.height-1) (by omega)
  rw [(back_opening hb hX).1] at hm
  exact ⟨m,hm,(previous_of_height hb hm).mpr (by omega),hacc⟩

section
variable (V : Valid S L X)
include V

theorem record_root (hr : L.blocks[h]? = some r) :
    ∃ n, X h = some n ∧ r.block.root = n.hashables.root ∧ r.block.previous = n.previous := by
  obtain ⟨n,hX,hs⟩ := V.mirrors.block h r hr
  exact ⟨n,hX,congrArg Hashables.root hs.hashables,hs.previous⟩

theorem openBlock_of_account (a : Account) :
    (∃ i n, L.accounts[a]? = some i ∧ X i.openBlock = some n ∧ n.previous = 0 ∧ n.account = a) ∨
    (L.accounts[a]? = none ∧ ∀ g m, X g = some m → m.account ≠ a) := by
  cases hi : L.accounts[a]? with
  | none => exact .inr ⟨rfl,(V.mirrors.unopened V.built a).mp hi⟩
  | some i =>
    obtain ⟨f,x,hf,hacc,hinfo⟩ := V.mirrors.account a i hi
    obtain ⟨n,hn,hp,hna⟩ := openBlock_lowest V.built hf.1
    refine .inl ⟨i,n,rfl,?_,hp,hna.trans hacc⟩
    rw [hinfo]
    exact hn

theorem blockSuccessor_cases (p : BlockHash) :
    (∃ n, X (blockSuccessor L p) = some n ∧ n.previous = p) ∨
    (blockSuccessor L p = 0 ∧ (p ≠ 0 → ∀ g m, X g = some m → m.previous ≠ p)) := by
  unfold blockSuccessor
  cases hr : L.blocks[p]? with
  | none =>
    refine .inr ⟨rfl,fun h0 g m hm e => ?_⟩
    obtain ⟨x,hx,-⟩ := built_following V.built hm (e ▸ h0)
    rw [e,V.mirrors.absent.mp hr] at hx
    cases hx
  | some r =>
    obtain ⟨n,hX,hs⟩ := V.mirrors.block p r hr
    rcases hs.successor with ⟨h0,hall⟩ | hm
    · exact .inr ⟨h0,fun _ => hall⟩
    · exact .inl hm

/-- `successor` returns the record of a block with the given qualified root, if
the lattice has one. -/
theorem successor_cases (b : Block) :
    (∃ h n r, X h = some n ∧ n.hashables.root = b.root ∧ n.previous = b.previous ∧
      L.blocks[h]? = some r ∧ successor L b.qualifiedRoot = some r) ∨
    (successor L b.qualifiedRoot = none ∧
      ∀ g m, X g = some m → m.hashables.root = b.root → m.previous ≠ b.previous) := by
  have found : ∀ {h : BlockHash} {n : Node}, X h = some n →
      (if h ≠ 0 then L.blocks[h]? else none) = L.blocks[h]? :=
    fun hX => if_pos (built_key_ne_zero V.built hX)
  unfold successor Block.qualifiedRoot
  dsimp only
  by_cases h0 : b.previous = 0
  · rw [if_pos h0]
    rcases openBlock_of_account V b.root with ⟨i,n,hi,hX,hp,hacc⟩ | ⟨hi,hall⟩
    · obtain ⟨r,hr⟩ := V.mirrors.present _ n hX
      refine .inl ⟨_,n,r,hX,(opening_root V.built hX hp).trans hacc,hp.trans h0.symm,hr,?_⟩
      rw [hi]
      dsimp only
      rw [found hX,hr]
    · right
      have hzero : blockSuccessor L b.previous = 0 := by
        rw [blockSuccessor,h0,V.mirrors.absent.mpr (built_zero V.built)]
        rfl
      rw [hi]
      dsimp only
      rw [hzero]
      refine ⟨rfl,fun g m hm hroot hprev => ?_⟩
      exact hall g m hm ((opening_root V.built hm (hprev.trans h0)).symm.trans hroot)
  · rw [if_neg h0]
    rcases blockSuccessor_cases V b.previous with ⟨n,hX,hp⟩ | ⟨hzero,hall⟩
    · obtain ⟨r,hr⟩ := V.mirrors.present _ n hX
      refine .inl ⟨_,n,r,hX,?_,hp,hr,?_⟩
      · rw [Block.root,following_root h0]
        exact (following_root (fun e => h0 (hp.symm.trans e))).trans hp
      · rw [found hX,hr]
    · rw [hzero]
      exact .inr ⟨rfl,fun g m hm _ => hall h0 g m hm⟩

end

/-- No two blocks share a qualified root, and `successor` finds the one that has
the qualified root of a block, in the ledger or not. -/
theorem one_block_per_root (S : HashSound C U) (hr : Reachable C U L) :
    (∀ (h g : BlockHash) (r q : StoredBlock), L.blocks[h]? = some r → L.blocks[g]? = some q →
      r.block.qualifiedRoot = q.block.qualifiedRoot → h = g ∧ r = q) ∧
    ∀ b : Block,
      (∀ (h : BlockHash) (r : StoredBlock), L.blocks[h]? = some r →
        r.block.qualifiedRoot = b.qualifiedRoot → successor L b.qualifiedRoot = some r) ∧
      ((∀ (h : BlockHash) (r : StoredBlock), L.blocks[h]? = some r →
        r.block.qualifiedRoot ≠ b.qualifiedRoot) → successor L b.qualifiedRoot = none) := by
  obtain ⟨X,V⟩ := reachable_valid S hr
  constructor
  · intro h g r q hr hq e
    obtain ⟨hroot,hprev⟩ := QualifiedRoot.mk.inj e
    obtain ⟨n,hn,hnr,hnp⟩ := record_root V hr
    obtain ⟨m,hm,hmr,hmp⟩ := record_root V hq
    rw [hnr,hmr] at hroot
    rw [hnp,hmp] at hprev
    obtain rfl := one_root V.built hn hm hroot hprev
    exact ⟨rfl,Option.some.inj (hr.symm.trans hq)⟩
  · intro b
    rcases successor_cases V b with ⟨g,m,q,hm,hmr,hmp,hq,hs⟩ | ⟨hs,hall⟩
    · constructor
      · intro h r hr e
        obtain ⟨hroot,hprev⟩ := QualifiedRoot.mk.inj e
        obtain ⟨n,hn,hnr,hnp⟩ := record_root V hr
        have hhg : h = g := by
          apply one_root V.built hn hm
          · rw [← hnr,hroot,hmr]
          · rw [← hnp,hprev,hmp]
        rw [hs,← hq,← hhg,hr]
      · intro hnone
        obtain ⟨x,hx,hxr,hxp⟩ := record_root V hq
        cases hm.symm.trans hx
        refine absurd ?_ (hnone g q hq)
        rw [Block.qualifiedRoot,hxr,hxp,hmr,hmp]
        rfl
    · refine ⟨fun h r hr e => ?_,fun _ => hs⟩
      obtain ⟨hroot,hprev⟩ := QualifiedRoot.mk.inj e
      obtain ⟨n,hn,hnr,hnp⟩ := record_root V hr
      exact absurd (hnp ▸ hprev) (hall h n hn (hnr ▸ hroot))

theorem one_block_per_root_sample :
    (successor sampleSent sampleSend.qualifiedRoot).map StoredBlock.block = some sampleSend ∧
    (∀ (h : BlockHash) (r : StoredBlock), sampleSent.blocks[h]? = some r →
      r.block.qualifiedRoot = sampleSend.qualifiedRoot →
        successor sampleSent sampleSend.qualifiedRoot = some r) :=
  ⟨by decide +kernel,((one_block_per_root sample_sound sampleSent_reachable).2 sampleSend).1⟩

end Vxldollar.Successors
