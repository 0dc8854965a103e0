import Vxldollar.Certificates

/-!
# Epochs and block kinds along chains

Legacy blocks never follow state blocks and the epoch of a chain never falls.
A receive raises the epoch to that of its source at most, an epoch block raises
it by one, and legacy blocks touch epoch 0 only.
-/

namespace Vxldollar.Epochs
open Blocks Store Vxldollar.Lattice Chains Heights Mirror Certificates Runs

structure Disciplined (C : Constants) (L : Ledger) : Prop where
  kinds : ∀ (g h : BlockHash) (q r : StoredBlock), L.blocks[g]? = some q →
    L.blocks[h]? = some r → q.accountCalculated = r.accountCalculated →
    q.sideband.height ≤ r.sideband.height → q.block.type = .state → r.block.type = .state
  epochs : ∀ (g h : BlockHash) (q r : StoredBlock), L.blocks[g]? = some q →
    L.blocks[h]? = some r → q.accountCalculated = r.accountCalculated →
    q.sideband.height ≤ r.sideband.height → q.version.value ≤ r.version.value
  receives : ∀ (h : BlockHash) (r : StoredBlock), L.blocks[h]? = some r →
    r.sideband.details.isReceive = true → ∃ s, L.blocks[r.block.link]? = some s ∧
      s.version.value ≤ r.version.value ∧
      r.version = (L.version r.block.previous).max s.version
  legacy : ∀ (h : BlockHash) (r : StoredBlock), L.blocks[h]? = some r → h ≠ C.genesisHash →
    r.block.type = .receive ∨ r.block.type = .open_ →
    ∃ s, L.blocks[r.block.source]? = some s ∧ s.version = .epoch0
  upgrades : ∀ (h : BlockHash) (r : StoredBlock), L.blocks[h]? = some r →
    r.sideband.details.isEpoch = true →
    (r.block.previous = 0 ∧ r.balanceCalculated = 0 ∧ r.block.representative = 0) ∨
    ∃ p f q, L.blocks[r.block.previous]? = some p ∧ r.balanceCalculated = p.balanceCalculated ∧
      Rollback.representative C L r.block.previous = some f ∧ L.blocks[f]? = some q ∧
      r.block.representative = q.block.representative ∧
      r.version.value = p.version.value+1
  infos : ∀ (a : Account) (i : AccountInfo), L.accounts[a]? = some i →
    ∃ r, L.blocks[i.head]? = some r ∧ i.epoch = r.version

variable {C : Constants} {U : Set Hashables} {S : HashSound C U} {X : Nodes} {L : Ledger}
  {g h : BlockHash} {n p x y : Node} {r : StoredBlock}

theorem along_chain (hb : Built S X) {R : Node → Node → Prop} (hrefl : ∀ n, R n n)
    (htrans : ∀ a b c, R a b → R b c → R a c)
    (hstep : ∀ h n p, X h = some n → X n.previous = some p → R p n) (hx : X g = some x)
    (hy : X h = some y) (hacc : x.account = y.account) (hle : x.height ≤ y.height) : R x y := by
  induction hk : y.height generalizing h y with
  | zero =>
    have := height_pos hb hy
    omega
  | succ k ih =>
    rcases Nat.lt_or_eq_of_le hle with hlt | heq
    · have hp : y.previous ≠ 0 := by
        rw [Ne,previous_of_height hb hy]
        have := height_pos hb hx
        omega
      obtain ⟨p,hp',hpa,-,hph,-⟩ := built_following hb hy hp
      exact htrans _ _ _ (ih hp' (hacc.trans hpa.symm) (by omega) (by omega)) (hstep h y p hy hp')
    · obtain rfl := height_unique hb hx hy hacc heq
      cases hx.symm.trans hy
      exact hrefl x

theorem max_value (a b : Epoch) : (a.max b).value = Nat.max a.value b.value := by
  cases a <;> cases b <;> rfl

theorem value_of_sequential {a b : Epoch} (h : isSequential a b = true) :
    b.value = a.value+1 := by
  simp only [isSequential,Bool.and_eq_true,decide_eq_true_eq] at h
  exact h.2

section
variable (V : Valid S L X) (hc : Certifies C L X) (hX : X h = some n)
include V hc hX

theorem certificate (hg : h ≠ C.genesisHash) : ∃ b, Certified C X b n := by
  obtain ⟨r,hr,-⟩ := V.mirrors.get hX
  exact ⟨r.block,hc h r n hr hX hg⟩

theorem epoch_step (hp : X n.previous = some p) : p.epoch.value ≤ n.epoch.value := by
  have h0 : n.previous ≠ 0 := built_key_ne_zero V.built hp
  rcases built_justified V.built hX with ⟨rfl,rfl⟩ | hj
  · exact absurd rfl h0
  by_cases hl : n.legacy
  · obtain ⟨p',hp',-,hleg⟩ := hj.following h0
    cases hp.symm.trans hp'
    rw [built_legacy_epoch V.built hX hl,built_legacy_epoch V.built hp (hleg hl)]
  · have hepoch := justified_epoch hj
    rw [hp,Option.map_some,Option.getD_some] at hepoch
    obtain ⟨k,hk⟩ : ∃ k, n.hashables = .state k := by
      cases hh : n.hashables with
      | state k => exact ⟨k,rfl⟩
      | _ =>
        rw [Node.legacy,hh] at hl
        exact absurd (by rintro ⟨⟩) hl
    cases hm : n.move with
    | receive s =>
      rw [hk,hm] at hepoch
      rw [hepoch]
      change p.epoch.value ≤ (p.epoch.max _).value
      rw [max_value]
      exact Nat.le_max_left _ _
    | upgrade =>
      have hg : h ≠ C.genesisHash := by
        rintro rfl
        cases hX.symm.trans (built_genesis V.built)
        cases hm
      obtain ⟨b,hb⟩ := certificate V hc hX hg
      rw [value_of_sequential (hb.sequential hm p hp)]
      exact Nat.le_succ _
    | send d =>
      rw [hk,hm] at hepoch
      rw [hepoch]
      exact le_rfl
    | keep =>
      rw [hk,hm] at hepoch
      rw [hepoch]
      exact le_rfl

end

theorem stored_details (hs : Stores X h n r) :
    (n.legacy ∧ r.sideband.details = {}) ∨
    (∃ k, n.hashables = .state k ∧ r.sideband.details = n.move.details n.epoch) := by
  have hside := hs.sideband
  unfold Node.sideband at hside
  cases hh : n.hashables with
  | state k =>
    refine .inr ⟨k,rfl,?_⟩
    rw [hside,hh]
    rfl
  | _ =>
    refine .inl ⟨by rw [Node.legacy,hh]; rintro ⟨⟩,?_⟩
    rw [hside,hh]
    rfl

theorem stored_type (hs : Stores X h n r) : r.block.type = .state ↔ ¬ n.legacy := by
  rw [Block.type,hs.hashables,Node.legacy,not_not]

section
variable (V : Valid S L X) (hX : X h = some n) (hs : Stores X h n r)
include V hX hs

theorem receive_record (hr : r.sideband.details.isReceive = true) :
    ∃ q, L.blocks[r.block.link]? = some q ∧
      q.version.value ≤ r.version.value ∧
      r.version = (L.version r.block.previous).max q.version := by
  rcases stored_details hs with ⟨-,hd⟩ | ⟨k,hk,hd⟩
  · rw [hd] at hr
    cases hr
  rw [hd] at hr
  obtain ⟨s,hm⟩ : ∃ s, n.move = .receive s := by
    cases hm : n.move with
    | receive s => exact ⟨s,rfl⟩
    | _ =>
      rw [hm] at hr
      cases hr
  rcases built_justified V.built hX with ⟨rfl,rfl⟩ | hj
  · cases hm
  have hlink : s = r.block.link := by
    have hmove := justified_move hj
    rw [hm,hk] at hmove
    simp only [moveOf] at hmove
    rw [Block.link,hs.hashables,hk]
    split_ifs at hmove
    exact Move.receive.inj hmove
  obtain ⟨m,hXs,-⟩ := built_source V.built hX hm
  obtain ⟨q,hq,hsq⟩ := V.mirrors.get hXs
  have hepoch : n.epoch = (((X n.previous).map Node.epoch).getD .epoch0).max m.epoch := by
    have hsource : n.move.source.bind X = some m := by
      rw [hm]
      exact hXs
    rw [justified_epoch hj,hsource,hm,hk]
    rfl
  have hprev : L.version r.block.previous = ((X n.previous).map Node.epoch).getD .epoch0 := by
    have hpb := hs.previous
    rw [hpb]
    cases hp : X n.previous with
    | some p => exact V.mirrors.version V.built hp
    | none =>
      rw [Ledger.version,V.mirrors.absent.mpr hp]
      rfl
  rw [stores_version V.built hX hs,hprev,← hlink]
  refine ⟨q,hq,?_,?_⟩
  · rw [stores_version V.built hXs hsq,hepoch,max_value]
    exact Nat.le_max_right _ _
  · rw [stores_version V.built hXs hsq]
    exact hepoch

theorem legacy_record (hg : h ≠ C.genesisHash)
    (ht : r.block.type = .receive ∨ r.block.type = .open_) :
    ∃ q, L.blocks[r.block.source]? = some q ∧ q.version = .epoch0 := by
  rcases built_justified V.built hX with ⟨hgen,-⟩ | hj
  · exact absurd hgen hg
  have hmove := justified_move hj
  rw [Block.type,hs.hashables] at ht
  have hm : n.move = .receive r.block.source := by
    rw [hmove,Block.source,hs.hashables]
    cases hh : n.hashables with
    | receive k => rfl
    | open_ k => rfl
    | _ =>
      rw [hh] at ht
      rcases ht with ht | ht <;> cases ht
  obtain ⟨m,hXs,-,-,hep⟩ := built_source V.built hX hm
  obtain ⟨q,hq,hsq⟩ := V.mirrors.get hXs
  refine ⟨q,hq,?_⟩
  rw [stores_version V.built hXs hsq]
  apply hep
  rw [Node.legacy]
  rcases ht with ht | ht <;> rw [ht] <;> rintro ⟨⟩

end

theorem upgrade_record (V : Valid S L X) (hc : Certifies C L X) (hX : X h = some n)
    (hs : Stores X h n r) (he : r.sideband.details.isEpoch = true) :
    (r.block.previous = 0 ∧ r.balanceCalculated = 0 ∧ r.block.representative = 0) ∨
    ∃ p f q, L.blocks[r.block.previous]? = some p ∧ r.balanceCalculated = p.balanceCalculated ∧
      Rollback.representative C L r.block.previous = some f ∧ L.blocks[f]? = some q ∧
      r.block.representative = q.block.representative ∧
      r.version.value = p.version.value+1 := by
  rcases stored_details hs with ⟨-,hd⟩ | ⟨k,hk,hd⟩
  · rw [hd] at he
    cases he
  rw [hd] at he
  have hm : n.move = .upgrade := by
    cases hm : n.move with
    | upgrade => rfl
    | _ =>
      rw [hm] at he
      cases he
  have hg : h ≠ C.genesisHash := by
    rintro rfl
    cases hX.symm.trans (built_genesis V.built)
    cases hm
  rcases built_justified V.built hX with ⟨rfl,-⟩ | hj
  · exact absurd rfl hg
  obtain ⟨b,hcert⟩ := certificate V hc hX hg
  have hbal : n.balance = previousBalance (X n.previous) := by
    have := hj.covered
    unfold Covered at this
    rwa [hm] at this
  have hprev := hs.previous
  have hrep : r.block.representative = n.representative := by
    rw [justified_representative hj,Block.representative,hs.hashables,hk]
    rfl
  rw [hprev,hrep,stores_balance V.built hX hs,stores_version V.built hX hs,hbal,
    hcert.representative hm]
  by_cases h0 : n.previous = 0
  · rw [h0,built_zero V.built]
    exact .inl ⟨rfl,rfl,rfl⟩
  · obtain ⟨p,hp,-⟩ := hj.following h0
    obtain ⟨rp,hrp,hsp⟩ := V.mirrors.get hp
    obtain ⟨f,q,hf,hq,hfq⟩ := Retractions.representative_spec V.mirrors V.built hp
    refine .inr ⟨rp,f,q,hrp,?_,hf,hq,?_,?_⟩
    · rw [hp,stores_balance V.built hp hsp]
      rfl
    · rw [hp,hfq]
      rfl
    · rw [stores_version V.built hp hsp]
      exact value_of_sequential (hcert.sequential hm p hp)

/-- Every reachable ledger keeps the discipline of kinds and epochs. -/
theorem epoch_discipline (S : HashSound C U) (hr : Reachable C U L) : Disciplined C L := by
  obtain ⟨X,V,hc⟩ := reachable_certified S hr
  have hpair : ∀ {R : Node → Node → Prop}, (∀ n, R n n) →
      (∀ a b c, R a b → R b c → R a c) →
      (∀ h n p, X h = some n → X n.previous = some p → R p n) →
      ∀ g h q r, L.blocks[g]? = some q → L.blocks[h]? = some r →
        q.accountCalculated = r.accountCalculated → q.sideband.height ≤ r.sideband.height →
        ∃ x y, X g = some x ∧ X h = some y ∧ Stores X g x q ∧ Stores X h y r ∧ R x y := by
    intro R hrefl htrans hstep g h q r hq hr hacc hle
    obtain ⟨x,hx,hsx⟩ := V.mirrors.block g q hq
    obtain ⟨y,hy,hsy⟩ := V.mirrors.block h r hr
    rw [stores_account V.built hx hsx,stores_account V.built hy hsy] at hacc
    rw [stores_height V.built hx hsx,stores_height V.built hy hsy] at hle
    exact ⟨x,y,hx,hy,hsx,hsy,along_chain V.built hrefl htrans hstep hx hy hacc hle⟩
  exact {
    kinds := by
      intro g h q r hq hr hacc hle ht
      obtain ⟨x,y,-,-,hsx,hsy,hxy⟩ := hpair (R := fun a b => b.legacy → a.legacy)
        (fun _ => id) (fun a b c hab hbc => hab ∘ hbc) (fun h n p hn hp => by
          obtain ⟨p',hp',-,hl,-⟩ := built_following V.built hn (built_key_ne_zero V.built hp)
          rwa [Option.some.inj (hp.symm.trans hp')]) g h q r hq hr hacc hle
      rw [stored_type hsy]
      exact fun hl => (stored_type hsx).mp ht (hxy hl)
    epochs := by
      intro g h q r hq hr hacc hle
      obtain ⟨x,y,hx,hy,hsx,hsy,hxy⟩ := hpair (R := fun a b => a.epoch.value ≤ b.epoch.value)
        (fun _ => le_rfl) (fun a b c => le_trans) (fun h n p => epoch_step V hc) g h q r hq hr
        hacc hle
      rwa [stores_version V.built hx hsx,stores_version V.built hy hsy]
    receives := by
      intro h r hr hrec
      obtain ⟨n,hn,hs⟩ := V.mirrors.block h r hr
      exact receive_record V hn hs hrec
    legacy := by
      intro h r hr hg ht
      obtain ⟨n,hn,hs⟩ := V.mirrors.block h r hr
      exact legacy_record V hn hs hg ht
    upgrades := by
      intro h r hr he
      obtain ⟨n,hn,hs⟩ := V.mirrors.block h r hr
      exact upgrade_record V hc hn hs he
    infos := by
      intro a i hi
      obtain ⟨h,n,hh,-,hinfo⟩ := V.mirrors.account a i hi
      obtain ⟨r,hr,hs⟩ := V.mirrors.get hh.1
      rw [hinfo]
      exact ⟨r,hr,(stores_version V.built hh.1 hs).symm⟩ }

def genesisUpgrade : Block := ⟨.state ⟨1,3,1,BitVec.allOnes 128-5,epochLinkV1⟩,0,0⟩

theorem epoch_discipline_sample :
    let L := processed sample sampleSent genesisUpgrade
    (L.blocks[(6 : BlockHash)]?.any fun r => r.sideband.details.isEpoch &&
      r.version == .epoch1) = true ∧ Disciplined sample L :=
  ⟨by decide +kernel,epoch_discipline (sentWith_sound (by decide) (by decide))
    (sentWith_reachable (by decide) (by decide) fun _ h => absurd h (by decide +kernel))⟩

end Vxldollar.Epochs
