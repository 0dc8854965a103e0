import Vxldollar.Acceptance
import Vxldollar.Runs

/-!
# What every stored block was checked for

Signature, work and the order of upgrades are checked once, when a block is
processed. No later step of a run changes the block, or what was read to check
it, while the block stays in the ledger. So every stored block but genesis can
still show its certificate.
-/

namespace Vxldollar.Certificates
open Blocks Store Vxldollar.Lattice Chains Mirror Growth Process Commits ProcessSpec Acceptance Runs

structure Certified (C : Constants) (X : Nodes) (b : Block) (n : Node) : Prop where
  signed : Signed C b .unknown n
  worked : sufficientWork C b (workDetails n) = true
  opens : n.previous = 0 → n.move ≠ .keep
  representative : n.move = .upgrade →
    n.representative = ((X n.previous).map Node.representative).getD 0
  sequential : n.move = .upgrade → ∀ p, X n.previous = some p →
    isSequential p.epoch n.epoch = true

def Certifies (C : Constants) (L : Ledger) (X : Nodes) : Prop :=
  ∀ (h : BlockHash) (r : StoredBlock) (n : Node), L.blocks[h]? = some r → X h = some n →
    h ≠ C.genesisHash → Certified C X r.block n

variable {C : Constants} {U : Set Hashables} {S : HashSound C U} {X Y : Nodes} {L L' : Ledger}
  {b : Block} {n : Node} {verified : SignatureVerification} {now : ℕ}

theorem Certified.congr (h : Certified C X b n) (hp : X n.previous = Y n.previous) :
    Certified C Y b n where
  signed := h.signed
  worked := h.worked
  opens := h.opens
  representative := by
    rw [← hp]
    exact h.representative
  sequential := by
    rw [← hp]
    exact h.sequential

section
variable (M : Mirrors L X) (hb : Built S X)
  (ha : Admits C U X (C.blockHash b) (nodeFor C X b.hashables))
include M hb ha

theorem owner_account {owner : Account} (ho : ownerOf L b = some owner) :
    owner = (nodeFor C X b.hashables).account := by
  obtain ⟨hs,sig,work⟩ := b
  have hlegacy : hs.type ≠ .open_ → hs.type ≠ .state → L.account hs.previous = some owner →
      owner = (nodeFor C X hs).account := by
    intro h1 h2 h
    have h0 : hs.previous ≠ 0 := fun h0 => (ha.opening h0).elim h1 h2
    obtain ⟨p,hp,hacc,-⟩ := ha.following h0
    have hown := M.owner hb hp
    exact (Option.some.inj (h.symm.trans hown)).trans hacc
  cases hs with
  | open_ h => exact (Option.some.inj ho).symm
  | state h => exact (Option.some.inj ho).symm
  | send h => exact hlegacy nofun nofun ho
  | receive h => exact hlegacy nofun nofun ho
  | change h => exact hlegacy nofun nofun ho

/-- An honest tag can be dropped: the signature is good by itself. -/
theorem signed_unknown (hh : Honest C L b verified)
    (hs : Signed C b verified (nodeFor C X b.hashables)) :
    Signed C b .unknown (nodeFor C X b.hashables) := by
  unfold Signed at hs ⊢
  split_ifs at hs ⊢ with hup
  · obtain ⟨signer,hsig,hgood⟩ := hs
    refine ⟨signer,hsig,?_⟩
    by_cases hv : verified = .validEpoch
    · obtain ⟨signer',hsig',hgood'⟩ := hh.2 hv
      cases hsig.symm.trans hsig'
      simp [badSignature,hgood']
    · simpa [badSignature,hv] using hgood
  · by_cases hv : verified = .valid
    · obtain ⟨owner,howner,hgood⟩ := hh.1 hv
      rw [owner_account M hb ha howner] at hgood
      simp [badSignature,hgood]
    · simpa [badSignature,hv] using hs

end

theorem acceptable_certified (M : Mirrors L X) (hb : Built S X) (hh : Honest C L b verified)
    (hA : Acceptable C U X b verified (nodeFor C X b.hashables)) :
    Certified C X b (nodeFor C X b.hashables) where
  signed := signed_unknown M hb hA.admits hh hA.signed
  worked := hA.worked
  opens := hA.opens
  representative := fun hup => (hA.upgradable hup).1
  sequential := by
    intro hup p hp
    have := (hA.upgradable hup).2
    rwa [hp] at this

section
variable {g : BlockHash}

theorem justified_nodeFor (hj : Justified C U X g n) :
    n = nodeFor C X n.hashables := by
  have heq := hj.node_eq
  rw [justified_move hj,← hj.hash_eq] at heq
  exact heq

section
variable (hc : Certifies C L X) (V : Valid S L X)
include hc V

theorem Certifies.grows (hk : X (C.blockHash b) = none) (ha : Admits C U X (C.blockHash b) n)
    (G : Grows L L' (C.blockHash b) b n now) (hn : Certified C X b n) :
    Certifies C L' (add X (C.blockHash b) n) := by
  have h0 : C.blockHash b ≠ 0 := ha.key_ne_zero S
  have hsame : ∀ g m, X g = some m → X m.previous = add X (C.blockHash b) n m.previous := by
    intro g m hm
    have hne : m.previous ≠ C.blockHash b := by
      intro e
      obtain ⟨p,hp,-⟩ := built_following V.built hm (e ▸ h0)
      rw [e,hk] at hp
      cases hp
    exact (Function.update_of_ne hne _ _).symm
  intro h r m hr hm hg
  rw [G.blocks] at hr
  rcases (add_eq_some hk).mp hm with ⟨rfl,rfl⟩ | hm
  · rw [if_pos rfl] at hr
    cases hr
    exact hn.congr (Function.update_of_ne (admits_previous_ne S ha hk) _ _).symm
  · have hne : h ≠ C.blockHash b := by
      rintro rfl
      rw [hk] at hm
      cases hm
    rw [if_neg hne] at hr
    refine Certified.congr ?_ (hsame h m hm)
    split_ifs at hr
    · obtain ⟨r0,hr0,rfl⟩ := Option.map_eq_some_iff.mp hr
      exact hc h r0 m hr0 hm hg
    · exact hc h r m hr hm hg

theorem Certifies.process (hU : b.hashables ∈ U) (hh : Honest C L b verified)
    (ho : EpochOpens C L b) {result : ProcessReturn}
    (hp : process C now L b verified = some (result,L')) :
    ∃ Y, Valid S L' Y ∧ Certifies C L' Y := by
  rcases V.processed hU hh ho hp with ⟨-,rfl⟩ | ⟨hcode,hk,ha,G,V'⟩
  · exact ⟨X,V,hc⟩
  have hA := (process_accepts_iff now V.mirrors V.built hU V.supply_lt hh ho).mp
    ⟨result,L',hp,hcode⟩
  exact ⟨_,V',hc.grows V hk ha G (acceptable_certified V.mirrors V.built hh hA)⟩

theorem Certifies.rollback {h : BlockHash} {list list' : Rollback.RollbackList} {error : Bool}
    {fuel : ℕ} (hh : L.blocks.contains h = true)
    (hr : Rollback.rollback C now fuel L h list = some (error,L',list')) :
    ∃ Y, Valid S L' Y ∧ Certifies C L' Y := by
  obtain ⟨n,hX⟩ := V.mirrors.contains.mp hh
  rcases V.rollback_cases hX hr with ⟨-,e⟩ | ⟨-,L'',l,e,hclear,V'⟩
  · obtain rfl : L' = L := congrArg (fun o => o.2.1) e
    exact ⟨X,V,hc⟩
  obtain rfl : L' = L'' := congrArg (fun o => o.2.1) e
  refine ⟨_,V',?_⟩
  intro g r m hg hm hgen
  obtain ⟨r0,hr0,hblock⟩ := hclear.kept g r hg
  obtain ⟨hnot,hm'⟩ := Causal.without_eq_some.mp hm
  rw [← hblock]
  refine (hc g r0 m hr0 hm' hgen).congr ?_
  -- the predecessor of a block that stays stays too
  by_cases h0 : m.previous = 0
  · rw [h0,built_zero V.built,built_zero V'.built]
  · obtain ⟨p,hp,-⟩ := built_following V'.built hm h0
    rw [hp,(Causal.without_eq_some.mp hp).2]

end

theorem epochLink_of_signer {link : Link} {signer : Account}
    (h : C.epochSigner link = some signer) : C.isEpochLink link = true := by
  obtain ⟨epoch,he,-⟩ := Option.bind_eq_some_iff.mp h
  obtain ⟨e,he,-⟩ := Option.map_eq_some_iff.mp he
  have hlink := List.find?_some he
  exact List.any_eq_true.mpr ⟨e,List.mem_of_find?_eq_some he,hlink⟩

theorem upgrade_form (hb : Built S X) (hX : X g = some n) (hm : n.move = .upgrade) :
    ∃ k, n.hashables = .state k ∧ C.isEpochLink k.link = true := by
  rcases built_justified hb hX with ⟨-,rfl⟩ | hj
  · cases hm
  have hmove := justified_move hj
  rw [hm] at hmove
  cases hh : n.hashables with
  | state k =>
    rw [hh] at hmove
    simp only [moveOf] at hmove
    split_ifs at hmove with h1 h2 h3
    exact ⟨k,rfl,h3⟩
  | _ =>
    rw [hh] at hmove
    cases hmove

theorem admits_epochOpens (M : Mirrors L X) (hb : Built S X) (ha : Admits C U X g n)
    (hbn : b.hashables = n.hashables) : EpochOpens C L b := by
  rintro ⟨signer,hs,-⟩ hfree
  have he := epochLink_of_signer hs
  obtain ⟨k,hk⟩ : ∃ k, b.hashables = .state k := by
    cases hh : b.hashables with
    | state k => exact ⟨k,rfl⟩
    | _ =>
      rw [Block.link,hh] at he
      exact absurd rfl (epoch_links _ he).1
  by_contra h0
  have hp0 : n.previous ≠ 0 := by rwa [Node.previous,← hbn]
  obtain ⟨p,hp,hacc,-⟩ := ha.following hp0
  have hnacc : n.account = b.account := by
    rw [justified_account ha.toJustified,Block.account,← hbn,hk]
    rfl
  exact (M.unopened hb _).mp hfree _ p hp (hacc.trans hnacc)

theorem valid_accepts (V : Valid S L X) (now : ℕ) (hbn : b.hashables = n.hashables)
    (hh : Honest C L b verified) (hA : Acceptable C U X b verified n) :
    ∃ result L', process C now L b verified = some (result,L') ∧ result.code = .progress ∧
      Grows L L' (C.blockHash b) b n now ∧ Valid S L' (add X (C.blockHash b) n) := by
  have hU : b.hashables ∈ U := hbn ▸ hA.admits.mem
  have ho : EpochOpens C L b := admits_epochOpens V.mirrors V.built hA.admits hbn
  have hn := justified_nodeFor hA.admits.toJustified
  rw [← hbn] at hn
  rw [hn] at hA
  obtain ⟨result,L',hp,hc⟩ :=
    (process_accepts_iff now V.mirrors V.built hU V.supply_lt hh ho).mpr hA
  obtain ⟨-,-,-,G,V'⟩ := (V.processed hU hh ho hp).resolve_left fun h => h.1 hc
  rw [← hn] at G V'
  exact ⟨result,L',hp,hc,G,V'⟩

end

/-- Every reachable ledger mirrors a lattice of certified blocks. -/
theorem reachable_certified (S : HashSound C U) (hr : Reachable C U L) :
    ∃ X, Valid S L X ∧ Certifies C L X := by
  induction hr with
  | start now =>
    refine ⟨_,start_valid S now,fun h r n _ hn hg => ?_⟩
    exact absurd (genesisNodes_eq_some.mp hn).1 hg
  | process _ hU hh ho hp ih =>
    obtain ⟨X,V,hc⟩ := ih
    exact hc.process V hU hh ho hp
  | rollback _ hh hr ih =>
    obtain ⟨X,V,hc⟩ := ih
    exact hc.rollback V hh hr
  | cement _ R ih =>
    obtain ⟨X,V,hc⟩ := ih
    refine ⟨X,V.raised R,fun h r n hr => ?_⟩
    rw [R.rest] at hr
    exact hc h r n hr

/-- Every stored block but genesis has enough work and is signed by its account, an epoch
block by the epoch signer. -/
theorem stored_signed (S : HashSound C U) (hr : Reachable C U L) {h : BlockHash}
    {r : StoredBlock} (hb : L.blocks[h]? = some r) (hg : h ≠ C.genesisHash) :
    sufficientWork C r.block r.sideband.details = true ∧
    if r.sideband.details.isEpoch then EpochSigned C r.block
    else C.validateMessage r.accountCalculated (C.blockHash r.block) r.block.signature = false := by
  obtain ⟨X,V,hc⟩ := reachable_certified S hr
  obtain ⟨n,hn,hs⟩ := V.mirrors.block h r hb
  have hcert := hc h r n hb hn hg
  have hd : r.sideband.details = workDetails n := by
    rw [hs.sideband]
    cases ht : n.hashables <;>
      simp [workDetails,Node.legacy,Node.sideband,ht,Hashables.type,Sideband.stored]
  have he : (workDetails n).isEpoch = true ↔ n.move = .upgrade := by
    cases hm : n.move with
    | upgrade =>
      obtain ⟨k,hk,-⟩ := upgrade_form V.built hn hm
      simp [workDetails,Node.legacy,hk,Hashables.type,hm,Move.details]
    | _ => unfold workDetails; split <;> simp [hm,Move.details]
  rw [hd,stores_account V.built hn hs]
  refine ⟨hcert.worked,?_⟩
  simpa [Signed,EpochSigned,badSignature,he] using hcert.signed

/-- A signature is good when it is the number of the account. -/
def signing : Constants := { sample with
  validateMessage := fun account _ signature => decide (signature ≠ account.setWidth 512) }

def signedSend : Block := { sampleSend with signature := 1 }

def signedOpen : Block := { sampleOpen with signature := 7 }

theorem stored_signed_sample :
    let L := processed signing (processed signing (storeInitialize signing 0) signedSend) signedOpen
    ∃ r, L.blocks[(6 : BlockHash)]? = some r ∧ sufficientWork signing r.block r.sideband.details ∧
      signing.validateMessage 7 6 r.block.signature = false ∧
      signing.validateMessage 7 6 signedSend.signature = true := by
  intro L
  have S : HashSound signing sampleBlocks :=
    ⟨sample_sound.1,sample_sound.2,sample_sound.3,sample_sound.4,sample_sound.5⟩
  have hr : Reachable signing sampleBlocks L :=
    reachable_processed S (reachable_processed S (.start 0) (.inr (.inl rfl))
      (epochOpens_none (by decide))) (.inr (.inr rfl)) (epochOpens_none (by decide))
  have hb : (L.blocks[(6 : BlockHash)]?.any fun r => !r.sideband.details.isEpoch &&
      r.accountCalculated == 7 && signing.blockHash r.block == 6) = true := by decide +kernel
  obtain ⟨r,hr6,hb⟩ := (Option.any_eq_true _ _).mp hb
  simp only [Bool.and_eq_true,Bool.not_eq_true',beq_iff_eq] at hb
  obtain ⟨hwork,hsigned⟩ := stored_signed S hr hr6 (by decide)
  rw [hb.1.1,hb.1.2,hb.2] at hsigned
  exact ⟨r,hr6,hwork,hsigned,by decide +kernel⟩

end Vxldollar.Certificates
