import Vxldollar.ProcessSpec

/-!
# Which blocks are accepted

Over tables that mirror a lattice, `process` makes progress on a block exactly
when the lattice admits its node, the signature and the work are right and, for
an epoch block, the upgrade is in order. Nothing else in the ledger matters.
-/

namespace Vxldollar.Acceptance
open Blocks Store Vxldollar.Lattice Chains Mirror Totals Process Commits ProcessSpec Option

def Accepted (out : Outcome) : Prop :=
  ∃ result L', out = some (result,L') ∧ result.code = .progress

def workDetails (n : Node) : BlockDetails := if n.legacy then {} else n.move.details n.epoch

def Signed (C : Constants) (b : Block) (verified : SignatureVerification) (n : Node) : Prop :=
  if n.move = .upgrade then ∃ signer, C.epochSigner b.link = some signer ∧
    badSignature C verified .validEpoch signer b = false
  else badSignature C verified .valid n.account b = false

/-- An upgrade keeps the representative and raises the epoch by one. Without a
predecessor it has no representative and something waits to be received. -/
def Upgradable (X : Nodes) (n : Node) : Prop :=
  n.representative = ((X n.previous).map Node.representative).getD 0 ∧
  match X n.previous with
  | none => ∃ g m, Unreceived X g m n.account
  | some p => isSequential p.epoch n.epoch = true

structure Acceptable (C : Constants) (U : Set Hashables) (X : Nodes) (b : Block)
    (verified : SignatureVerification) (n : Node) : Prop where
  fresh : X (C.blockHash b) = none
  admits : Admits C U X (C.blockHash b) n
  signed : Signed C b verified n
  worked : sufficientWork C b (workDetails n) = true
  opens : n.previous = 0 → n.move ≠ .keep
  upgradable : n.move = .upgrade → Upgradable X n

variable {C : Constants} {U : Set Hashables} {S : HashSound C U} {X : Nodes} {L : Ledger}
  {b : Block} {now : ℕ}

section
variable {code : ProcessResult} {verified : SignatureVerification}
  {previousBalance : Option Amount} {out : Outcome}

@[simp]
theorem accepted_reject (hc : code ≠ .progress) :
    ¬ Accepted (reject L code verified previousBalance) := by
  rintro ⟨result,L',h,hp⟩
  cases h
  exact hc hp

@[simp]
theorem accepted_guard {c : Prop} [Decidable c] (hc : code ≠ .progress) :
    Accepted (if c then reject L code verified previousBalance else out) ↔ ¬ c ∧ Accepted out := by
  by_cases h : c
  · simp [h,accepted_reject hc]
  · simp [h]

@[simp]
theorem accepted_accept {commit : Option Ledger} {balance : Amount} :
    Accepted (accept commit verified balance) ↔ ∃ L', commit = some L' := by
  cases commit with
  | none =>
    constructor
    · rintro ⟨_,_,h,-⟩
      cases h
    · rintro ⟨_,h⟩
      cases h
  | some L' => exact ⟨fun _ => ⟨L',rfl⟩,fun _ => ⟨_,_,rfl,rfl⟩⟩

end

theorem pendingKey_lt {k l : PendingKey} : compare k l = .lt ↔
    k.account < l.account ∨ k.account = l.account ∧ k.hash < l.hash :=
  Table.compareLex_lt

theorem pendingAny_iff {a : Account} :
    L.pendingAny a = true ↔ ∃ g i, L.pending[(⟨a,g⟩ : PendingKey)]? = some i := by
  unfold Ledger.pendingAny
  constructor
  · intro h
    cases hf : Table.lowerBound L.pending ⟨a,0⟩ with
    | none =>
      rw [hf] at h
      cases h
    | some e =>
      obtain ⟨k,i⟩ := e
      rw [hf] at h
      obtain rfl : k.account = a := by simpa using h
      exact ⟨k.hash,i,(Table.mem_entries _ _ _).mp (List.mem_of_find?_eq_some hf)⟩
  · rintro ⟨g,i,hi⟩
    have hge : ¬ compare (⟨a,g⟩ : PendingKey) ⟨a,0⟩ = .lt := by
      rw [pendingKey_lt]
      simp
    obtain ⟨⟨k,j⟩,hk,-,hlow,hle⟩ := Table.lowerBound_spec _ _ _ _ hi hge
    rw [hk]
    refine decide_eq_true ?_
    rcases hle with rfl | hlt
    · rfl
    · rw [ne_eq,pendingKey_lt] at hlow
      rw [pendingKey_lt] at hlt
      simp only at hlow hlt
      bv_omega

section
variable {sig : Signature} {work : Work} {verified : SignatureVerification} {n : Node}
  {g previous : BlockHash}

theorem new_of_absent (M : Mirrors L X) (hk : X g = none) : L.blockOrPrunedExists g = false := by
  rw [← Bool.not_eq_true,M.exists_iff,hk]
  simp

theorem validPredecessor_legacy {b p : Block} (hb : b.type ≠ .state) (ho : b.type ≠ .open_)
    (hp : p.type ≠ .state) : b.validPredecessor p = true := by
  unfold Block.validPredecessor
  cases h : b.type with
  | state => exact absurd h hb
  | open_ => exact absurd h ho
  | _ =>
    cases h' : p.type with
    | state => exact absurd h' hp
    | _ => rfl

theorem new_block (M : Mirrors L X) {hs : Hashables} (hk : X (C.hash hs) = none) :
    L.blockOrPrunedExists (C.blockHash ⟨hs,sig,work⟩) = false :=
  new_of_absent M hk

theorem legacy_head (M : Mirrors L X) (hb : Built S X) {hs : Hashables}
    (ha : Admits C U X g (nodeFor C X hs)) (hl : hs.type ≠ .state) (ht : hs.type ≠ .open_)
    (hprev : hs.previous = previous) :
    ∃ p t r, LegacyHead L X previous p t ∧ p.account = (nodeFor C X hs).account ∧
      ¬ p.account = 0#256 ∧ L.blocks[previous]? = some r ∧
      (∀ sig work, Block.validPredecessor ⟨hs,sig,work⟩ r.block = true) ∧
      L.frontierGet previous = p.account := by
  subst hprev
  obtain ⟨p,t,hfront,hacc,H⟩ := admits_legacyHead M hb ha ht hl
  obtain ⟨r,hr,hst⟩ := M.get H.head.1
  refine ⟨p,t,r,H,hacc,built_account_ne_zero hb H.head.1,hr,fun sig work => ?_,hfront⟩
  apply validPredecessor_legacy hl ht
  rw [Block.type,hst.hashables]
  exact H.legacy

variable (M : Mirrors L X)
include M

theorem sendBlock_accepted (hb : Built S X) {h : SendHashables} (hk : X (C.hash (.send h)) = none)
    (ha : Admits C U X (C.hash (.send h)) (nodeFor C X (.send h))) :
    Accepted (sendBlock C now L ⟨.send h,sig,work⟩ verified h) ↔
      badSignature C verified .valid (nodeFor C X (.send h)).account ⟨.send h,sig,work⟩ = false ∧
      sufficientWork C ⟨.send h,sig,work⟩ {} = true := by
  obtain ⟨p,t,r,H,hacc,hacc0,hr,hvalid,hfront⟩ :=
    legacy_head M hb ha nofun nofun (rfl : _ = h.previous)
  have hbal : h.balance ≤ p.balance := by
    have hc : h.balance ≤ previousBalance (X h.previous) := ha.covered
    rwa [H.head.1] at hc
  obtain ⟨L',hc,-⟩ : ∃ L', _ = some L' ∧ Extended C U X L L' ⟨.send h,sig,work⟩ now :=
    sendCommit_extends M hb ha.mem hk H hbal
  have hspend : h.balance ≤ (infoOf h.previous p t).balance := hbal
  rw [← hacc]
  simp [sendBlock,new_block M hk,hr,hfront,hvalid,H.info,hacc0,hspend,hc]

theorem changeBlock_accepted (hb : Built S X) {h : ChangeHashables}
    (hk : X (C.hash (.change h)) = none)
    (ha : Admits C U X (C.hash (.change h)) (nodeFor C X (.change h))) :
    Accepted (changeBlock C now L ⟨.change h,sig,work⟩ verified h) ↔
      badSignature C verified .valid (nodeFor C X (.change h)).account ⟨.change h,sig,work⟩ =
        false ∧
      sufficientWork C ⟨.change h,sig,work⟩ {} = true := by
  obtain ⟨p,t,r,H,hacc,hacc0,hr,hvalid,hfront⟩ :=
    legacy_head M hb ha nofun nofun (rfl : _ = h.previous)
  obtain ⟨L',hc,-⟩ : ∃ L', _ = some L' ∧ Extended C U X L L' ⟨.change h,sig,work⟩ now :=
    changeCommit_extends M hb ha.mem hk H
  rw [← hacc]
  simp [changeBlock,new_block M hk,hr,hfront,hvalid,H.info,hacc0,hc]

theorem receive_pending (ha : Admits C U X g n) {s : BlockHash} (hs : n.move = .receive s) :
    ∃ m, Unreceived X s m n.account ∧ (n.legacy → m.epoch = .epoch0) ∧
      L.pending[(⟨n.account,s⟩ : PendingKey)]? = some (pendingOf m) ∧
      L.blockOrPrunedExists s = true := by
  have hc := ha.covered
  unfold Covered at hc
  rw [hs] at hc
  obtain ⟨m,hm,hmove,-,hep⟩ := hc
  have hu : Unreceived X s m n.account := ⟨hm,hmove,ha.unreceived s hs⟩
  exact ⟨m,hu,hep,(M.pending _ _).mpr ⟨m,hu,rfl⟩,M.exists_iff.mpr ⟨m,hm⟩⟩

theorem receiveBlock_accepted (hb : Built S X) {h : ReceiveHashables} (hsup : supply L < 2^128)
    (hk : X (C.hash (.receive h)) = none)
    (ha : Admits C U X (C.hash (.receive h)) (nodeFor C X (.receive h))) :
    Accepted (receiveBlock C now L ⟨.receive h,sig,work⟩ verified h) ↔
      badSignature C verified .valid (nodeFor C X (.receive h)).account ⟨.receive h,sig,work⟩ =
        false ∧
      sufficientWork C ⟨.receive h,sig,work⟩ {} = true := by
  obtain ⟨p,t,r,H,hacc,hacc0,hr,hvalid,hfront⟩ :=
    legacy_head M hb ha nofun nofun (rfl : _ = h.previous)
  obtain ⟨m,hu,hep,hpend,hsrc⟩ := receive_pending M ha (rfl : _ = Move.receive h.source)
  rw [← hacc] at hu hpend ⊢
  obtain ⟨L',hc,-⟩ : ∃ L', _ = some L' ∧ Extended C U X L L' ⟨.receive h,sig,work⟩ now :=
    receiveCommit_extends M hb ha.mem hk H hu (hep nofun) hsup
  have hhead : (infoOf h.previous p t).head = h.previous := rfl
  have hpe : (pendingOf m).epoch = .epoch0 := hep nofun
  simp [receiveBlock,new_block M hk,hr,hfront,hvalid,H.info,hacc0,hsrc,hhead,hpend,hpe,hc]

theorem openBlock_accepted (hb : Built S X) {h : OpenHashables} (hk : X (C.hash (.open_ h)) = none)
    (ha : Admits C U X (C.hash (.open_ h)) (nodeFor C X (.open_ h))) :
    Accepted (openBlock C now L ⟨.open_ h,sig,work⟩ verified h) ↔
      badSignature C verified .valid (nodeFor C X (.open_ h)).account ⟨.open_ h,sig,work⟩ =
        false ∧
      sufficientWork C ⟨.open_ h,sig,work⟩ {} = true := by
  obtain ⟨m,hu,hep,hpend,hsrc⟩ := receive_pending M ha (rfl : _ = Move.receive h.source)
  have hacc : (nodeFor C X (.open_ h)).account = h.account := rfl
  rw [hacc] at hu hpend ⊢
  have hacc0 : ¬ h.account = 0#256 := ha.account_ne_zero
  have hfree : L.accounts[h.account]? = none := (M.unopened hb _).mpr (ha.unopened rfl)
  obtain ⟨L',hc,-⟩ : ∃ L', _ = some L' ∧ Extended C U X L L' ⟨.open_ h,sig,work⟩ now :=
    openCommit_extends M hb ha.mem hk hacc0 hfree hu (hep nofun)
  have hpe : (pendingOf m).epoch = .epoch0 := hep nofun
  simp [openBlock,new_block M hk,hsrc,Table.not_contains_of_get hfree,hpend,hpe,hacc0,hc,
    Constants.burnAccount]

end

section
variable {sig : Signature} {work : Work} {verified : SignatureVerification} {h : StateHashables}
  {info : AccountInfo} {epoch : Epoch}

theorem epochOfLink_cases {link : Link} (h : C.epochOfLink link = some epoch) :
    epoch = .epoch1 ∨ epoch = .epoch2 := by
  obtain ⟨e,he,rfl⟩ := map_eq_some_iff.mp h
  have hmem := List.mem_of_find?_eq_some he
  simp only [Constants.epochs,List.mem_cons,List.not_mem_nil,or_false] at hmem
  rcases hmem with rfl | rfl
  · exact .inl rfl
  · exact .inr rfl

def inOrder (accountInfo : Option AccountInfo) (epoch : Epoch) : Bool := match accountInfo with
  | none => decide (epoch.value > 0)
  | some info => isSequential info.epoch epoch

variable {n : Node} (hn : nodeFor C X (.state h) = n) (M : Mirrors L X) (hb : Built S X)
  (ha : Admits C U X (C.hash (.state h)) n) (hk : X (C.hash (.state h)) = none)

include hn M hb ha

theorem admits_position : ∃ info, Position L X h info := by
  subst hn
  by_cases h0 : h.previous = 0
  · exact ⟨{},.inl ⟨h0,rfl,(M.unopened hb _).mpr (ha.unopened h0)⟩⟩
  · obtain ⟨p,hp,hacc,-⟩ := ha.following h0
    have hh : Head X h.previous p := ⟨hp,ha.head h0⟩
    obtain ⟨t,ht⟩ := M.head hb hh
    have hacc' : p.account = h.account := hacc
    exact ⟨_,.inr ⟨p,t,hh,hacc',rfl,hacc' ▸ ht⟩⟩

include hk

variable (now sig work) in
theorem stateTransfer_accepted (hp : Position L X h info) (hmove : n.move ≠ .upgrade) :
    Accepted (stateTransfer C now L ⟨.state h,sig,work⟩ h info (decide (h.balance < info.balance))
        (!decide (h.balance < info.balance) && decide (h.link ≠ 0))
        (if decide (h.balance < info.balance) then info.balance-h.balance
          else h.balance-info.balance)) ↔
      sufficientWork C ⟨.state h,sig,work⟩ (n.move.details n.epoch) = true := by
  subst hn
  have hsource := (stateSource_ok M hb rfl hp).mpr ⟨rfl,hmove,ha.covered,ha.unreceived⟩
  obtain ⟨L',hc,-⟩ : ∃ L', _ = some L' ∧ Extended C U X L L' ⟨.state h,sig,work⟩ now :=
    stateCommit_extends rfl M hb ha.mem hk hp ha hmove
  unfold stateTransfer
  rw [hsource]
  dsimp only
  rw [transfer_details hb rfl hp hmove,transfer_amount hb rfl hp]
  simp [hc]

theorem stateBlockImpl_accepted (hmove : n.move ≠ .upgrade) :
    Accepted (stateBlockImpl C now L ⟨.state h,sig,work⟩ h verified) ↔
      badSignature C verified .valid h.account ⟨.state h,sig,work⟩ = false ∧
      sufficientWork C ⟨.state h,sig,work⟩ (n.move.details n.epoch) = true ∧
      (h.previous = 0 → n.move ≠ .keep) := by
  subst hn
  obtain ⟨info,hp⟩ := admits_position rfl M hb ha
  have htransfer : Accepted _ ↔ _ := stateTransfer_accepted now sig work rfl M hb ha hk hp hmove
  have hm := nodeFor_move hb rfl hp
  have hacc0 : ¬ h.account = 0#256 := ha.account_ne_zero
  rcases hp with ⟨h0,rfl,hfree⟩ | ⟨p,t,hh,hacc,rfl,hi⟩
  · have hs : ¬ h.balance < (0 : Amount) := BitVec.not_lt_zero
    by_cases hl : h.link = 0
    · have hkeep : (nodeFor C X (.state h)).move = .keep := by
        rw [hm]
        simp only [moveOf,if_neg hs,if_pos hl]
      simp [stateBlockImpl,hfree,h0,hl,hkeep]
    · have hkeep : (nodeFor C X (.state h)).move ≠ .keep := by
        rw [hm]
        simp only [moveOf]
        split_ifs <;> rintro ⟨⟩
      rw [decide_eq_false hs,decide_eq_true hl] at htransfer
      simp only [Bool.not_false] at htransfer
      have hl' : ¬ h.link = 0#256 := hl
      rw [← htransfer]
      simp [stateBlockImpl,new_block M hk,hfree,h0,hl',hkeep,hacc0]
  · have h0 : ¬ h.previous = 0#256 := built_key_ne_zero hb hh.1
    have hprev : L.blocks.contains h.previous = true := M.contains.mpr ⟨p,hh.1⟩
    have hhead : (infoOf h.previous p t).head = h.previous := rfl
    rw [← htransfer]
    simp [stateBlockImpl,new_block M hk,hi,h0,hprev,hhead,hacc0]

theorem epochUpgrade_accepted {accountInfo : Option AccountInfo}
    (hp : Position L X h (accountInfo.getD {})) (hmove : n.move = .upgrade)
    (hep : C.epochOfLink h.link = some epoch)
    (hrep : h.representative = (accountInfo.getD {}).representative) :
    Accepted (epochUpgrade C now L ⟨.state h,sig,work⟩ h accountInfo epoch) ↔
      inOrder accountInfo epoch = true ∧
      sufficientWork C ⟨.state h,sig,work⟩ (n.move.details n.epoch) = true := by
  subst hn
  have hepoch := upgrade_epoch ha hmove hep
  have hbal : h.balance = (accountInfo.getD {}).balance := by
    have hc := (covered_iff hb rfl hp).mp ha.covered
    rwa [hmove] at hc
  obtain ⟨L',hc,-⟩ : ∃ L', _ = some L' ∧ Extended C U X L L' ⟨.state h,sig,work⟩ now :=
    epochCommit_extends rfl M hb ha.mem hk hp ha hmove hbal hrep
  rw [hmove,hepoch]
  rw [hepoch] at hc
  have hdetails : BlockDetails.mk epoch false false true = Move.upgrade.details epoch := rfl
  unfold epochUpgrade
  change Accepted (if (!inOrder accountInfo epoch) = true then _ else _) ↔ _
  simp only [hdetails,hbal,ne_eq,not_true_eq_false,if_false,hc]
  rw [accepted_guard (by decide),accepted_guard (by decide),accepted_accept]
  simp

theorem epochBlockImpl_accepted (hmove : n.move = .upgrade) (he : C.isEpochLink h.link = true) :
    Accepted (epochBlockImpl C now L ⟨.state h,sig,work⟩ h verified) ↔
      (∃ signer, C.epochSigner h.link = some signer ∧
        badSignature C verified .validEpoch signer ⟨.state h,sig,work⟩ = false) ∧
      sufficientWork C ⟨.state h,sig,work⟩ (n.move.details n.epoch) = true ∧ Upgradable X n := by
  subst hn
  obtain ⟨-,signer,epoch,hs,hep⟩ := epoch_links h.link he
  have hepoch := upgrade_epoch ha hmove hep
  have hacc0 : ¬ h.account = 0#256 := ha.account_ne_zero
  have hrep : (nodeFor C X (.state h)).representative = h.representative := rfl
  have hprev : (nodeFor C X (.state h)).previous = h.previous := rfl
  obtain ⟨info,hp⟩ := admits_position rfl M hb ha
  unfold Upgradable
  rw [hrep,hprev,hepoch]
  have hupgrade : ∀ accountInfo, accountInfo.getD {} = info →
      h.representative = info.representative → (Accepted
        (epochUpgrade C now L ⟨.state h,sig,work⟩ h accountInfo epoch) ↔
      inOrder accountInfo epoch = true ∧ sufficientWork C ⟨.state h,sig,work⟩
        ((nodeFor C X (.state h)).move.details epoch) = true) := by
    rintro accountInfo rfl hrep
    rw [epochUpgrade_accepted rfl M hb ha hk hp hmove hep hrep,hepoch]
  rcases hp with ⟨h0,rfl,hfree⟩ | ⟨p,t,hh,hacc,rfl,hi⟩
  · rw [h0,built_zero hb]
    have hany : L.pendingAny h.account = true ↔
        ∃ g m, Unreceived X g m (nodeFor C X (.state h)).account := by
      rw [pendingAny_iff]
      constructor
      · rintro ⟨g,i,hi⟩
        obtain ⟨m,hm,-⟩ := (M.pending _ _).mp hi
        exact ⟨g,m,hm⟩
      · rintro ⟨g,m,hm⟩
        exact ⟨g,_,(M.pending ⟨h.account,g⟩ _).mpr ⟨m,hm,rfl⟩⟩
    have horder : inOrder none epoch = true := by
      rcases epochOfLink_cases hep with rfl | rfl <;> rfl
    by_cases hr : h.representative = 0#256
    · have hup := hupgrade none rfl hr
      rw [← hany]
      have hout : Accepted (epochBlockImpl C now L ⟨.state h,sig,work⟩ h verified) ↔
          badSignature C verified .validEpoch signer ⟨.state h,sig,work⟩ = false ∧
          L.pendingAny h.account = true ∧
          Accepted (epochUpgrade C now L ⟨.state h,sig,work⟩ h none epoch) := by
        simp [epochBlockImpl,new_block M hk,hs,hep,hfree,hr,hacc0]
      rw [hout,hup]
      simp only [hs]
      grind
    · simp [epochBlockImpl,hs,hep,hfree,hr]
  · have h0 : ¬ h.previous = 0#256 := built_key_ne_zero hb hh.1
    have hhead : (infoOf h.previous p t).head = h.previous := rfl
    rw [hh.1]
    by_cases hr : h.representative = (infoOf h.previous p t).representative
    · have hup := hupgrade (some (infoOf h.previous p t)) rfl hr
      have hout : Accepted (epochBlockImpl C now L ⟨.state h,sig,work⟩ h verified) ↔
          badSignature C verified .validEpoch signer ⟨.state h,sig,work⟩ = false ∧
          Accepted (epochUpgrade C now L ⟨.state h,sig,work⟩ h (some (infoOf h.previous p t))
            epoch) := by
        simp [epochBlockImpl,new_block M hk,hs,hep,hi,hr,hacc0,h0,hhead]
      have hr' : h.representative = p.representative := hr
      have horder : inOrder (some (infoOf h.previous p t)) epoch = isSequential p.epoch epoch := rfl
      rw [hout,hup,horder]
      simp only [hs]
      grind
    · have hr' : ¬ h.representative = p.representative := hr
      simp [epochBlockImpl,hs,hep,hi,hr,hr']

theorem stateBlock_accepted : Accepted (stateBlock C now L ⟨.state h,sig,work⟩ h verified) ↔
      Signed C ⟨.state h,sig,work⟩ verified n ∧
      sufficientWork C ⟨.state h,sig,work⟩ (n.move.details n.epoch) = true ∧
      (h.previous = 0 → n.move ≠ .keep) ∧ (n.move = .upgrade → Upgradable X n) := by
  subst hn
  have hmove : (nodeFor C X (.state h)).move =
    moveOf C (.state h) (previousBalance (X h.previous)) := rfl
  have hprev : L.balance h.previous = some (previousBalance (X h.previous)) :=
    M.previousBalance hb ha.toJustified
  have hgap : ¬ (h.previous ≠ 0 ∧ ¬ L.blocks.contains h.previous = true) := by
    rintro ⟨h0,hc⟩
    obtain ⟨p,hp,-⟩ := ha.following h0
    exact hc (M.contains.mpr ⟨p,hp⟩)
  unfold Signed
  by_cases hup : (nodeFor C X (.state h)).move = .upgrade
  · have hbal : h.balance = previousBalance (X h.previous) := by
      have hc := ha.covered
      unfold Covered at hc
      rwa [hup] at hc
    have he : C.isEpochLink h.link = true := by
      rw [hmove] at hup
      by_contra he
      simp only [moveOf] at hup
      split_ifs at hup
    have hout : stateBlock C now L ⟨.state h,sig,work⟩ h verified =
        epochBlockImpl C now L ⟨.state h,sig,work⟩ h verified := by
      unfold stateBlock
      rw [if_pos he,if_neg hgap,hprev,bind_eq_bind,bind_some,if_pos hbal]
    rw [hout,epochBlockImpl_accepted rfl M hb ha hk hup he,if_pos hup]
    have hkeep : (nodeFor C X (.state h)).move ≠ .keep := by rw [hup]; rintro ⟨⟩
    constructor
    · rintro ⟨hs,hw,hu⟩
      exact ⟨hs,hw,fun _ => hkeep,fun _ => hu⟩
    · rintro ⟨hs,hw,-,hu⟩
      exact ⟨hs,hw,hu hup⟩
  · have hout : stateBlock C now L ⟨.state h,sig,work⟩ h verified =
        stateBlockImpl C now L ⟨.state h,sig,work⟩ h verified := by
      unfold stateBlock
      split_ifs with he
      · rw [hprev,bind_eq_bind,bind_some,if_neg]
        intro hbal
        have hl := (epoch_links h.link he).1
        apply hup
        rw [hmove]
        simp only [moveOf,← hbal,BitVec.lt_irrefl,if_false,if_neg hl,if_pos he]
      · rfl
    rw [hout,stateBlockImpl_accepted rfl M hb ha hk hup,if_neg hup]
    have hacc : (nodeFor C X (.state h)).account = h.account := rfl
    rw [hacc]
    grind

end

variable {verified : SignatureVerification}

theorem process_accepted :
    Accepted (process C now L b verified) ↔ Accepted (visit C now L b verified) := by
  unfold process Accepted
  cases hv : visit C now L b verified with
  | none => simp
  | some out =>
    obtain ⟨result,L'⟩ := out
    by_cases hc : result.code = .progress
    · simp [hc]
    · simp [hc]

theorem legacy_split (n : Node) (hl : n.legacy) (hup : n.move ≠ .upgrade)
    (hopen : n.previous = 0 → n.move ≠ .keep) :
    (Signed C b verified n ∧ sufficientWork C b (workDetails n) = true ∧
      (n.previous = 0 → n.move ≠ .keep) ∧ (n.move = .upgrade → Upgradable X n)) ↔
    (badSignature C verified .valid n.account b = false ∧ sufficientWork C b {} = true) := by
  unfold Signed workDetails
  rw [if_neg hup,if_pos hl]
  constructor
  · intro h
    exact ⟨h.1,h.2.1⟩
  · intro h
    exact ⟨h.1,h.2,hopen,fun e => absurd e hup⟩

variable (now) in
/-- `process` makes progress exactly on acceptable blocks. -/
theorem process_accepts_iff (M : Mirrors L X) (hb : Built S X) (hU : b.hashables ∈ U)
    (hsup : supply L < 2^128) (hh : Honest C L b verified) (ho : EpochOpens C L b) :
    Accepted (process C now L b verified) ↔
      Acceptable C U X b verified (nodeFor C X b.hashables) := by
  have hiff : X (C.blockHash b) = none →
      Admits C U X (C.blockHash b) (nodeFor C X b.hashables) →
      (Accepted (process C now L b verified) ↔ Acceptable C U X b verified
        (nodeFor C X b.hashables)) := by
    intro hk ha
    rw [process_accepted]
    have hsplit : Acceptable C U X b verified (nodeFor C X b.hashables) ↔
        Signed C b verified (nodeFor C X b.hashables) ∧
        sufficientWork C b (workDetails (nodeFor C X b.hashables)) = true ∧
        (b.previous = 0 → (nodeFor C X b.hashables).move ≠ .keep) ∧
        ((nodeFor C X b.hashables).move = .upgrade → Upgradable X (nodeFor C X b.hashables)) :=
      ⟨fun h => ⟨h.signed,h.worked,h.opens,h.upgradable⟩,
        fun h => ⟨hk,ha,h.1,h.2.1,h.2.2.1,h.2.2.2⟩⟩
    rw [hsplit]
    obtain ⟨hs,sig,work⟩ := b
    cases hs with
    | send h =>
      exact (sendBlock_accepted M hb hk ha).trans
        (legacy_split (nodeFor C X (.send h)) nofun nofun nofun).symm
    | receive h =>
      exact (receiveBlock_accepted M hb hsup hk ha).trans
        (legacy_split (nodeFor C X (.receive h)) nofun nofun nofun).symm
    | open_ h =>
      exact (openBlock_accepted M hb hk ha).trans
        (legacy_split (nodeFor C X (.open_ h)) nofun nofun nofun).symm
    | change h =>
      refine (changeBlock_accepted M hb hk ha).trans
        (legacy_split (nodeFor C X (.change h)) nofun nofun ?_).symm
      intro h0
      rcases ha.opening h0 with h | h <;> cases h
    | state h => exact stateBlock_accepted rfl M hb ha hk
  constructor
  · intro hacc
    obtain ⟨result,L',hp,hc⟩ := hacc
    obtain ⟨result',L'',hp',hres⟩ := process_refines now M hb hU hsup hh ho
    obtain ⟨rfl,rfl⟩ : result' = result ∧ L'' = L' := by
      rw [hp] at hp'
      simpa [eq_comm] using hp'
    rcases hres with ⟨hn,-⟩ | ⟨-,hk,ha,-,-⟩
    · exact absurd hc hn
    · exact (hiff hk ha).mp ⟨result',L'',hp,hc⟩
  · intro hA
    exact (hiff hA.fresh hA.admits).mpr hA

end Vxldollar.Acceptance
