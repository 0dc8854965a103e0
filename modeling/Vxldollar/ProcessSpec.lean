import Vxldollar.Commits

/-!
# Processing refines growth

Over tables that mirror a lattice, `process` always returns. Either it refuses
the block and changes nothing, or the block's node is admissible and the
writes are the growth by that node.
-/

namespace Vxldollar.ProcessSpec
open Blocks Store Vxldollar.Lattice Chains Mirror Growth Totals Process Commits Option BitVec

def Handled (C : Constants) (U : Set Hashables) (X : Nodes) (L : Ledger) (b : Block) (now : ℕ)
    (out : Outcome) : Prop :=
  ∃ result L', out = some (result,L') ∧
    ((result.code ≠ .progress ∧ L' = L) ∨
      (result.code = .progress ∧ Extended C U X L L' b now))

def EpochSigned (C : Constants) (b : Block) : Prop :=
  ∃ signer, C.epochSigner b.link = some signer ∧
    C.validateMessage signer (C.blockHash b) b.signature = false

def ownerOf (L : Ledger) (b : Block) : Option Account := match b.hashables with
  | .open_ h => some h.account
  | .state h => some h.account
  | _ => L.account b.previous

def OwnerSigned (C : Constants) (L : Ledger) (b : Block) : Prop :=
  ∃ owner, ownerOf L b = some owner ∧
    C.validateMessage owner (C.blockHash b) b.signature = false

/-- A verification tag that vouches for a signature tells the truth. -/
def Honest (C : Constants) (L : Ledger) (b : Block) (verified : SignatureVerification) : Prop :=
  (verified = .valid → OwnerSigned C L b) ∧ (verified = .validEpoch → EpochSigned C b)

/-- An epoch-signed block for an unopened account has no predecessor. -/
def EpochOpens (C : Constants) (L : Ledger) (b : Block) : Prop :=
  EpochSigned C b → L.accounts[b.account]? = none → b.previous = 0

variable {C : Constants} {U : Set Hashables} {S : HashSound C U} {X : Nodes} {L : Ledger}
  {b : Block} {now : ℕ} {verified : SignatureVerification} {code : ProcessResult}

theorem honest_unknown : Honest C L b .unknown := ⟨nofun,nofun⟩

theorem handled_reject {previousBalance : Option Amount} (hc : code ≠ .progress := by decide) :
    Handled C U X L b now (reject L code verified previousBalance) :=
  ⟨_,_,rfl,.inl ⟨hc,rfl⟩⟩

theorem handled_guard {c : Prop} [Decidable c] {previousBalance : Option Amount} {out : Outcome}
    (h : ¬ c → Handled C U X L b now out) (hc : code ≠ .progress := by decide) :
    Handled C U X L b now (if c then reject L code verified previousBalance else out) := by
  split_ifs with hif
  · exact handled_reject hc
  · exact h hif

theorem handled_accept {commit : Option Ledger} {previousBalance : Amount}
    (h : ∃ L', commit = some L' ∧ Extended C U X L L' b now) :
    Handled C U X L b now (accept commit verified previousBalance) := by
  obtain ⟨L',rfl,hx⟩ := h
  exact ⟨_,_,rfl,.inr ⟨rfl,hx⟩⟩

variable {sig : Signature} {work : Work} {verified : SignatureVerification}
  (M : Mirrors L X) (hb : Built S X)

include M in
theorem absent_of_new {hash : BlockHash} (h : ¬ L.blockOrPrunedExists hash = true) :
    X hash = none := by
  by_contra hne
  obtain ⟨n,hn⟩ := ne_none_iff_exists'.mp hne
  exact h (M.exists_iff.mpr ⟨n,hn⟩)

include M hb in
theorem sendBlock_handled {h : SendHashables} (hU : .send h ∈ U) :
    Handled C U X L ⟨.send h,sig,work⟩ now
      (sendBlock C now L ⟨.send h,sig,work⟩ verified h) := by
  refine handled_guard fun hold => ?_
  split
  · exact handled_reject
  refine handled_guard fun _ => handled_guard fun hfront => handled_guard fun _ =>
    handled_guard fun _ => ?_
  obtain ⟨p,t,hacc,H⟩ := frontier_position M hb hfront
  simp only [hacc,H.info]
  refine handled_guard fun hneg => ?_
  exact handled_accept (sendCommit_extends M hb hU (absent_of_new M hold) H
    (BitVec.not_lt.mp hneg))

include M hb in
theorem changeBlock_handled {h : ChangeHashables} (hU : .change h ∈ U) :
    Handled C U X L ⟨.change h,sig,work⟩ now
      (changeBlock C now L ⟨.change h,sig,work⟩ verified h) := by
  refine handled_guard fun hold => ?_
  split
  · exact handled_reject
  refine handled_guard fun _ => handled_guard fun hfront => ?_
  obtain ⟨p,t,hacc,H⟩ := frontier_position M hb hfront
  simp only [hacc,H.info]
  refine handled_guard fun _ => handled_guard fun _ => ?_
  exact handled_accept (changeCommit_extends M hb hU (absent_of_new M hold) H)

include M hb in
theorem receiveBlock_handled {h : ReceiveHashables} (hU : .receive h ∈ U)
    (hsup : supply L < 2^128) :
    Handled C U X L ⟨.receive h,sig,work⟩ now
      (receiveBlock C now L ⟨.receive h,sig,work⟩ verified h) := by
  refine handled_guard fun hold => ?_
  split
  · exact handled_reject
  refine handled_guard fun _ => handled_guard (fun hfront => ?_) (by split_ifs <;> decide)
  refine handled_guard fun _ => handled_guard fun _ => ?_
  obtain ⟨p,t,hacc,H⟩ := frontier_position M hb hfront
  simp only [hacc,H.info,getD_some]
  refine handled_guard fun _ => ?_
  split
  · exact handled_reject
  · rename_i pending hpend
    obtain ⟨m,hu,rfl⟩ := (M.pending _ _).mp hpend
    refine handled_guard fun hep => handled_guard fun _ => ?_
    exact handled_accept (receiveCommit_extends M hb hU (absent_of_new M hold) H hu
      (not_not.mp hep) hsup)

include M hb in
theorem openBlock_handled {h : OpenHashables} (hU : .open_ h ∈ U) :
    Handled C U X L ⟨.open_ h,sig,work⟩ now
      (openBlock C now L ⟨.open_ h,sig,work⟩ verified h) := by
  refine handled_guard fun hold => handled_guard fun _ => handled_guard fun _ =>
    handled_guard fun hopen => ?_
  have hfree : L.accounts[h.account]? = none := by
    rw [Std.ExtTreeMap.contains_eq_isSome_getElem?,isSome_iff_ne_none] at hopen
    exact not_not.mp hopen
  split
  · exact handled_reject
  · rename_i pending hpend
    obtain ⟨m,hu,rfl⟩ := (M.pending _ _).mp hpend
    refine handled_guard fun hburn => handled_guard fun hep => handled_guard fun _ => ?_
    exact handled_accept (openCommit_extends M hb hU (absent_of_new M hold) hburn hfree hu
      (not_not.mp hep))

include M in
theorem position_of_account {h : StateHashables} {info : AccountInfo}
    (hi : L.accounts[h.account]? = some info) (hhead : h.previous = info.head) :
    Position L X h info := by
  obtain ⟨g,p,hh,hacc,hinfo⟩ := M.account _ _ hi
  have hg : h.previous = g := by rw [hhead,hinfo]; rfl
  subst hg
  exact .inr ⟨p,_,hh,hacc,hinfo,hi⟩

theorem position_previousBalance {h : StateHashables} {info : AccountInfo} (hb : Built S X)
    (hp : Position L X h info) : previousBalance (X h.previous) = info.balance := by
  rcases hp with ⟨h0,rfl,-⟩ | ⟨p,t,hh,-,rfl,-⟩
  · rw [h0,built_zero hb]
    rfl
  · rw [hh.1]
    rfl

theorem epoch_links (link : Link) (he : C.isEpochLink link = true) : link ≠ 0 ∧
    ∃ signer epoch, C.epochSigner link = some signer ∧ C.epochOfLink link = some epoch := by
  simp only [Constants.isEpochLink,Constants.epochs,List.any_cons,List.any_nil,Bool.or_false,
    Bool.or_eq_true,beq_iff_eq] at he
  rcases he with rfl | rfl
  · exact ⟨by decide,C.genesisAccount,.epoch1,rfl,rfl⟩
  · exact ⟨by decide,C.epochV2Signer,.epoch2,rfl,rfl⟩

section
variable {h : StateHashables} {n : Node} (hn : nodeFor C X (.state h) = n) {info : AccountInfo}
  (hp : Position L X h info)

section
include hn hb hp

theorem nodeFor_move : n.move = moveOf C (.state h) info.balance := by
  rw [← hn,nodeFor_state hb hp]

theorem nodeFor_amount : n.amount = difference h.balance info.balance := by
  rw [← hn,nodeFor_state hb hp]

theorem covered_iff : Covered X n ↔ match n.move with
      | .send _ => h.balance ≤ info.balance
      | .receive s => ∃ m, X s = some m ∧ m.move = .send h.account ∧
          h.balance.toNat = info.balance.toNat+m.amount.toNat
      | _ => h.balance = info.balance := by
  have hbefore : previousBalance (X n.previous) = info.balance :=
    hn ▸ position_previousBalance hb hp
  unfold Covered
  rw [hbefore]
  subst hn
  cases (nodeFor C X (.state h)).move with
  | receive s =>
    constructor
    · rintro ⟨m,hX,hmove,hbal,-⟩
      exact ⟨m,hX,hmove,hbal⟩
    · rintro ⟨m,hX,hmove,hbal⟩
      exact ⟨m,hX,hmove,hbal,fun hl => absurd rfl hl⟩
  | _ => rfl

theorem transfer_details (hmove : n.move ≠ .upgrade) (epoch : Epoch) :
    BlockDetails.mk epoch (decide (h.balance < info.balance))
      (!decide (h.balance < info.balance) && decide (h.link ≠ 0)) false =
      n.move.details epoch := by
  rw [nodeFor_move hb hn hp] at hmove ⊢
  by_cases hs : h.balance < info.balance
  · simp only [moveOf,if_pos hs,decide_eq_true hs]
    rfl
  · rw [decide_eq_false hs]
    by_cases hl : h.link = 0
    · simp only [moveOf,if_neg hs,hl]
      rfl
    · simp only [moveOf] at hmove ⊢
      split_ifs at hmove ⊢ with he
      · exact absurd rfl hmove
      · rw [decide_eq_true hl]
        rfl

theorem transfer_amount : (if decide (h.balance < info.balance) then info.balance-h.balance
    else h.balance-info.balance) = n.amount := by
  rw [nodeFor_amount hb hn hp]
  by_cases hs : h.balance < info.balance
  · rw [decide_eq_true hs,if_pos rfl,difference_of_le (BitVec.le_of_lt hs)]
  · rw [decide_eq_false hs,if_neg Bool.false_ne_true,difference]
    split_ifs with hgt
    · rfl
    · rw [BitVec.le_antisymm (BitVec.not_lt.mp hgt) (BitVec.not_lt.mp hs)]

end

theorem stateSource_error {isSend : Bool} {amount : Amount} {epoch : Epoch}
    (hs : stateSource L h isSend amount epoch = .error code) : code ≠ .progress := by
  unfold stateSource at hs
  repeat' split at hs
  all_goals cases hs
  all_goals exact nofun

include hn M hb hp in
theorem stateSource_ok {epochs : Epoch × Epoch} :
    stateSource L h (decide (h.balance < info.balance))
      (if decide (h.balance < info.balance) then info.balance-h.balance
        else h.balance-info.balance) info.epoch = .ok epochs ↔
    epochs = (n.epoch,n.sourceEpoch) ∧
      n.move ≠ .upgrade ∧ Covered X n ∧
      ∀ s, n.move = .receive s →
        ∀ g m, X g = some m → m.move ≠ .receive s := by
  have hn' := hn.symm.trans (nodeFor_state hb hp)
  have hm := nodeFor_move hb hn hp
  unfold stateSource
  by_cases hs : h.balance < info.balance
  · have hm' : moveOf C (.state h) info.balance = .send h.link := by simp [moveOf,if_pos hs]
    rw [covered_iff hb hn hp,hm,hm']
    simp only [BitVec.le_of_lt hs,ne_eq,reduceCtorEq,not_false_eq_true,false_imp_iff,implies_true,
      and_true,decide_eq_true hs,if_true,Except.ok.injEq]
    rw [hn',hm']
    exact eq_comm
  rw [decide_eq_false hs]
  by_cases hl : h.link = 0
  · have hm' : moveOf C (.state h) info.balance = .keep := by
      simp only [moveOf,if_neg hs,if_pos hl]
    rw [covered_iff hb hn hp,hm,hm']
    simp only [ne_eq,reduceCtorEq,not_false_eq_true,true_and,false_imp_iff,implies_true,and_true,hl,
      not_true_eq_false,if_false,sub_eq_zero]
    by_cases hbal : h.balance = info.balance
    · rw [if_pos hbal,Except.ok.injEq,and_iff_left hbal,hn',hm']
      exact eq_comm
    · simp [hbal]
  simp only [ne_eq,hl,not_false_eq_true,if_true,if_false,Bool.false_eq_true]
  by_cases he : C.isEpochLink h.link = true
  · have hm' : moveOf C (.state h) info.balance = .upgrade := by
      simp only [moveOf,if_neg hs,if_neg hl,if_pos he]
    -- no block has an epoch link for a hash
    have hnone : L.blockOrPrunedExists h.link = false := by
      rw [← Bool.not_eq_true,M.exists_iff]
      rintro ⟨n,hX⟩
      obtain ⟨hh,hU⟩ := built_hash hb hX
      rw [← hh,S.ne_epoch _ hU] at he
      cases he
    simp [hnone,hm,hm']
  · have hm' : moveOf C (.state h) info.balance = .receive h.link := by
      simp only [moveOf,if_neg hs,if_neg hl,if_neg he]
    rw [covered_iff hb hn hp,hm,hm']
    have hle : info.balance ≤ h.balance := BitVec.not_lt.mp hs
    have hamount : ∀ m : Node, h.balance-info.balance = m.amount ↔
        h.balance.toNat = info.balance.toNat+m.amount.toNat := by
      intro m
      rw [← toNat_inj,toNat_sub_of_le hle]
      have := le_def.mp hle
      omega
    have hepochs : ∀ m, X h.link = some m → n.epoch =
        info.epoch.max m.epoch ∧ n.sourceEpoch = m.epoch := by
      intro m hX
      rw [hn',hm']
      simp only [Move.source,bind_some,hX]
      exact ⟨rfl,rfl⟩
    constructor
    · intro hok
      split at hok
      · cases hok
      split at hok
      · cases hok
      · next pending hpend =>
        obtain ⟨m,hu,rfl⟩ := (M.pending _ _).mp hpend
        split_ifs at hok with hbal
        obtain ⟨h1,h2⟩ := hepochs m hu.1
        rw [h1,h2]
        refine ⟨(Except.ok.inj hok).symm,(by rintro ⟨⟩),⟨m,hu.1,hu.2.1,(hamount m).mp hbal⟩,?_⟩
        rintro s ⟨⟩
        exact hu.2.2
    · rintro ⟨rfl,-,⟨m,hX,hmove,hbal⟩,hun⟩
      have hu : Unreceived X h.link m h.account := ⟨hX,hmove,hun _ rfl⟩
      have hpend : L.pending[(⟨h.account,h.link⟩ : PendingKey)]? = some (pendingOf m) :=
        (M.pending _ _).mpr ⟨m,hu,rfl⟩
      have hbal' : h.balance-info.balance = (pendingOf m).amount := (hamount m).mpr hbal
      obtain ⟨h1,h2⟩ := hepochs m hX
      rw [M.exists_iff.mpr ⟨m,hX⟩,hpend,h1,h2]
      simp only [if_pos hbal']
      rfl

end

variable {h : StateHashables}

include M hb in
theorem stateTransfer_handled {info : AccountInfo} (hU : .state h ∈ U)
    (hk : X (C.hash (.state h)) = none) (hacc : h.account ≠ 0) (hp : Position L X h info) :
    Handled C U X L ⟨.state h,sig,work⟩ now
      (stateTransfer C now L ⟨.state h,sig,work⟩ h info (decide (h.balance < info.balance))
        (!decide (h.balance < info.balance) && decide (h.link ≠ 0))
        (if decide (h.balance < info.balance) then info.balance-h.balance
          else h.balance-info.balance)) := by
  unfold stateTransfer
  split
  · next code hs => exact handled_reject (stateSource_error hs)
  · next epoch sourceEpoch hs =>
    obtain ⟨he,hmove,hcov,hun⟩ := (stateSource_ok M hb rfl hp).mp hs
    cases he
    rw [transfer_details hb rfl hp hmove,transfer_amount hb rfl hp]
    refine handled_guard fun _ => ?_
    exact handled_accept (stateCommit_extends rfl M hb hU hk hp
      (position_admits rfl M hb hU hacc hp hcov hun) hmove)

include M hb in
theorem stateBlockImpl_handled (hU : .state h ∈ U) : Handled C U X L ⟨.state h,sig,work⟩ now
      (stateBlockImpl C now L ⟨.state h,sig,work⟩ h verified) := by
  refine handled_guard fun hold => handled_guard fun _ => handled_guard fun hacc => ?_
  have hk : X (C.hash (.state h)) = none := absent_of_new M hold
  cases hi : L.accounts[h.account]? with
  | some info =>
    refine handled_guard fun _ => handled_guard fun _ => handled_guard fun hhead => ?_
    exact stateTransfer_handled M hb hU hk hacc (position_of_account M hi (not_not.mp hhead))
  | none =>
    refine handled_guard fun hprev => handled_guard fun hlink => ?_
    have ht : Handled C U X L ⟨.state h,sig,work⟩ now _ := stateTransfer_handled M hb hU hk hacc
      (.inl ⟨not_not.mp hprev,rfl,hi⟩)
    have hs : ¬ h.balance < (0 : Amount) := not_lt_zero
    rw [decide_eq_false hs,decide_eq_true hlink] at ht
    simpa using ht

theorem upgrade_epoch {epoch : Epoch}
    (ha : Admits C U X (C.hash (.state h)) (nodeFor C X (.state h)))
    (hm : (nodeFor C X (.state h)).move = .upgrade) (hep : C.epochOfLink h.link = some epoch) :
    (nodeFor C X (.state h)).epoch = epoch := by
  rw [justified_epoch ha.toJustified,hm]
  change (C.epochOfLink h.link).getD .epoch0 = epoch
  rw [hep]
  rfl

include M hb in
theorem epochUpgrade_handled {accountInfo : Option AccountInfo}
    {epoch : Epoch} (hU : .state h ∈ U) (hk : X (C.hash (.state h)) = none)
    (hacc : h.account ≠ 0) (hp : Position L X h (accountInfo.getD {}))
    (he : C.isEpochLink h.link = true) (hep : C.epochOfLink h.link = some epoch)
    (hrep : h.representative = (accountInfo.getD {}).representative) :
    Handled C U X L ⟨.state h,sig,work⟩ now
      (epochUpgrade C now L ⟨.state h,sig,work⟩ h accountInfo epoch) := by
  refine handled_guard fun _ => handled_guard fun hbal => handled_guard fun _ => ?_
  have hm : (nodeFor C X (.state h)).move = .upgrade := by
    rw [nodeFor_move hb rfl hp,← not_not.mp hbal]
    simp only [moveOf,BitVec.lt_irrefl,if_false,if_neg (epoch_links _ he).1,if_pos he]
  have hcov := (covered_iff hb rfl hp).mpr (hm ▸ not_not.mp hbal)
  have hadm := position_admits rfl M hb hU hacc hp hcov (by rw [hm]; rintro _ ⟨⟩)
  have hepoch := upgrade_epoch hadm hm hep
  exact handled_accept (hepoch ▸ epochCommit_extends rfl M hb hU hk hp hadm hm
    (not_not.mp hbal) hrep)

include M hb in
theorem epochBlockImpl_handled (hU : .state h ∈ U) (hh : Honest C L ⟨.state h,sig,work⟩ verified)
    (ho : EpochOpens C L ⟨.state h,sig,work⟩) (he : C.isEpochLink h.link = true) :
    Handled C U X L ⟨.state h,sig,work⟩ now
      (epochBlockImpl C now L ⟨.state h,sig,work⟩ h verified) := by
  refine handled_guard fun hold => ?_
  have hk : X (C.hash (.state h)) = none := absent_of_new M hold
  obtain ⟨-,signer,epoch,hs,hep⟩ := epoch_links h.link he
  rw [hs,bind_eq_bind,bind_some]
  refine handled_guard fun hsig => handled_guard fun hacc => ?_
  have hsigned : EpochSigned C ⟨.state h,sig,work⟩ := by
    by_cases hv : verified = .validEpoch
    · exact hh.2 hv
    · refine ⟨signer,hs,?_⟩
      simpa [badSignature,hv] using hsig
  rw [hep,bind_eq_bind,bind_some]
  cases hi : L.accounts[h.account]? with
  | some info =>
    refine handled_guard fun _ => handled_guard fun hhead => handled_guard fun hrep => ?_
    exact epochUpgrade_handled M hb hU hk hacc
      (position_of_account M hi (not_not.mp hhead)) he hep (not_not.mp hrep)
  | none =>
    refine handled_guard fun hrep => handled_guard fun _ => ?_
    exact epochUpgrade_handled M hb hU hk hacc
      (.inl ⟨ho hsigned hi,rfl,hi⟩) he hep (not_not.mp hrep)

theorem gapEpochBlock_code (b : Block) (verified : SignatureVerification)
    (he : C.isEpochLink h.link = true) :
    ∃ code v, gapEpochBlock C b h verified = some (code,v) ∧ code ≠ .progress := by
  obtain ⟨-,signer,epoch,hs,-⟩ := epoch_links h.link he
  unfold gapEpochBlock
  rw [hs,map_some]
  split_ifs
  · exact ⟨_,_,rfl,by decide⟩
  · exact ⟨_,_,rfl,by decide⟩
  · exact ⟨_,_,rfl,by decide⟩
  · exact ⟨_,_,rfl,by decide⟩

include M hb in
theorem stateBlock_handled (hU : .state h ∈ U) (hh : Honest C L ⟨.state h,sig,work⟩ verified)
    (ho : EpochOpens C L ⟨.state h,sig,work⟩) : Handled C U X L ⟨.state h,sig,work⟩ now
      (stateBlock C now L ⟨.state h,sig,work⟩ h verified) := by
  unfold stateBlock
  by_cases he : C.isEpochLink h.link = true
  · rw [if_pos he]
    split_ifs with hgap
    · obtain ⟨code,v,hgap,hc⟩ := gapEpochBlock_code ⟨.state h,sig,work⟩ verified he
      rw [hgap,bind_eq_bind,bind_some]
      exact handled_reject hc
    · obtain ⟨x,hx⟩ : ∃ x, L.balance h.previous = some x := by
        by_cases h0 : h.previous = 0
        · exact ⟨0,by rw [Ledger.balance,if_pos h0]⟩
        · have hc : L.blocks.contains h.previous = true := by
            by_contra hc
            exact hgap ⟨h0,hc⟩
          obtain ⟨n,hn⟩ := M.contains.mp hc
          exact ⟨_,M.balance hb hn⟩
      rw [hx,bind_eq_bind,bind_some]
      split_ifs with hbal
      · exact epochBlockImpl_handled M hb hU hh ho he
      · exact stateBlockImpl_handled M hb hU
  · rw [if_neg he]
    exact stateBlockImpl_handled M hb hU

include M hb in
theorem visit_handled {b : Block} (hU : b.hashables ∈ U) (hsup : supply L < 2^128)
    (hh : Honest C L b verified) (ho : EpochOpens C L b) :
    Handled C U X L b now (visit C now L b verified) := by
  obtain ⟨hs,sig,work⟩ := b
  cases hs with
  | send h => exact sendBlock_handled M hb hU
  | receive h => exact receiveBlock_handled M hb hU hsup
  | open_ h => exact openBlock_handled M hb hU
  | change h => exact changeBlock_handled M hb hU
  | state h => exact stateBlock_handled M hb hU hh ho

variable (now) in
include M hb in
/-- `process` returns. It either refuses the block and leaves the ledger, or
the ledger grows by the block's node. -/
theorem process_refines {b : Block} (hU : b.hashables ∈ U) (hsup : supply L < 2^128)
    (hh : Honest C L b verified) (ho : EpochOpens C L b) :
    ∃ result L', process C now L b verified = some (result,L') ∧
      ((result.code ≠ .progress ∧ L' = L) ∨
        (result.code = .progress ∧ X (C.blockHash b) = none ∧
          Admits C U X (C.blockHash b) (nodeFor C X b.hashables) ∧
          Grows L L' (C.blockHash b) b (nodeFor C X b.hashables) now ∧
          WeightShift L.cache.repWeights L'.cache.repWeights X (nodeFor C X b.hashables))) := by
  obtain ⟨result,L',hv,hres⟩ := visit_handled M hb hU hsup hh ho
  unfold process
  rw [hv,bind_eq_bind,bind_some]
  rcases hres with ⟨hc,rfl⟩ | ⟨hc,hx⟩
  · exact ⟨result,L',by simp [hc],.inl ⟨hc,rfl⟩⟩
  · exact ⟨result,counted L',by simp [hc,counted],
      .inr ⟨hc,hx.absent,hx.admits,hx.grows,hx.shift⟩⟩

end Vxldollar.ProcessSpec
