import Vxldollar.Certificates

/-!
# Blocks that come too early

A certified block of a lattice, processed over a part of that lattice, has one
of three outcomes: its previous block is missing, its source is missing, or it
is accepted. The answer names the missing block, and the tag it carries tells
the truth about the signature.
-/

namespace Vxldollar.Gaps
open Blocks Store Vxldollar.Lattice Chains Heights Mirror Process ProcessSpec Acceptance
  Certificates Runs Bool

def Part (Y Z : Nodes) : Prop := ∀ h n, Y h = some n → Z h = some n

def Vouched (C : Constants) (b : Block) (n : Node) (verified : SignatureVerification) : Prop :=
  (verified = .valid → C.validateMessage n.account (C.blockHash b) b.signature = false) ∧
  (verified = .validEpoch → EpochSigned C b)

variable {C : Constants} {U : Set Hashables} {S : HashSound C U} {Y Z : Nodes} {L : Ledger}
  {h : BlockHash} {n : Node} {b : Block} {verified : SignatureVerification}

theorem part_other (hfree : Y h = none) {g : BlockHash} {m : Node} (hg : Y g = some m) :
    g ≠ h := by
  rintro rfl
  rw [hfree] at hg
  cases hg

theorem part_head (hZ : Built S Z) (hp : Part Y Z) (hn : Z h = some n) (hfree : Y h = none)
    (h0 : n.previous ≠ 0) (g : BlockHash) (m : Node) (hg : Y g = some m) :
    m.previous ≠ n.previous := by
  intro hpm
  exact part_other hfree hg (one_successor hZ (hp g m hg) hn hpm (hpm ▸ h0))

section
variable (hZ : Built S Z) (hY : Built S Y) (hp : Part Y Z) (hn : Z h = some n)
include hZ hY hp hn

theorem part_unopened (hfree : Y h = none) (h0 : n.previous = 0) (g : BlockHash) (m : Node)
    (hg : Y g = some m) :
    m.account ≠ n.account := by
  intro hacc
  have hpos := height_pos hY hg
  obtain ⟨o,ho,hoa,hheight,-⟩ := back_iterate hY hg (m.height-1) (by omega)
  have h0' : o.previous = 0 := (previous_of_height hY ho).mpr (by omega)
  exact part_other hfree ho (one_opening hZ (hp _ o ho) hn (hoa.trans hacc) h0' h0)

theorem part_admits (hgen : h ≠ C.genesisHash) (hfree : Y h = none)
    (hdeps : ∀ d ∈ deps n, ∃ m, Y d = some m) :
    Admits C U Y h n := by
  have hj : Justified C U Z h n :=
    (built_justified hZ hn).resolve_left (fun e => hgen e.1)
  have hprev : Z n.previous = Y n.previous := by
    by_cases h0 : n.previous = 0
    · rw [h0,built_zero hY,built_zero hZ]
    · obtain ⟨m,hm⟩ := hdeps n.previous (previous_dep h0)
      rw [hm,hp _ m hm]
  have hsrc : n.move.source.bind Z = n.move.source.bind Y := by
    cases hmove : n.move with
    | receive s =>
      obtain ⟨m,hm⟩ := hdeps s (Or.inr hmove)
      rw [Move.source,Option.bind_some,Option.bind_some,hm,hp s m hm]
    | _ => rfl
  refine ⟨hj.congr hprev hsrc,part_unopened hZ hY hp hn hfree,part_head hZ hp hn hfree,?_⟩
  intro s hs g m hg hm
  exact part_other hfree hg (received_once hZ (hp g m hg) hn hm hs)

end

section
variable (hs : Signed C b .unknown n)
include hs

theorem signed_mono : Signed C b verified n := by
  unfold Signed at hs ⊢
  split_ifs at hs ⊢ with hup
  · obtain ⟨signer,hsig,hgood⟩ := hs
    refine ⟨signer,hsig,?_⟩
    simp only [badSignature,ne_eq,reduceCtorEq,not_false_eq_true,decide_true,Bool.true_and] at hgood
    rw [badSignature,hgood,Bool.and_false]
  · simp only [badSignature,ne_eq,reduceCtorEq,not_false_eq_true,decide_true,Bool.true_and] at hs
    rw [badSignature,hs,Bool.and_false]

theorem transfer_signed (hm : n.move ≠ .upgrade) :
    C.validateMessage n.account (C.blockHash b) b.signature = false := by
  unfold Signed at hs
  rw [if_neg hm] at hs
  simpa [badSignature] using hs

theorem vouched_valid (hm : n.move ≠ .upgrade) :
    Vouched C b n .valid :=
  ⟨fun _ => transfer_signed hs hm,nofun⟩

end
variable {now : ℕ} {k : StateHashables}

def Waits (C : Constants) (L : Ledger) (b : Block) (n : Node) (code : ProcessResult)
    (out : Outcome) : Prop :=
  ∃ verified previousBalance, out = reject L code verified previousBalance ∧
    Vouched C b n verified

theorem waits_process {code : ProcessResult} (hc : code ≠ .progress)
    (hw : Waits C L b n code (visit C now L b verified)) :
    Waits C L b n code (process C now L b verified) := by
  obtain ⟨tag,previousBalance,hout,hv⟩ := hw
  refine ⟨tag,previousBalance,?_,hv⟩
  unfold process
  rw [hout]
  simp [reject,hc]

theorem gapEpochBlock_vouched {sig : Signature} {work : Work}
    (hs : Signed C ⟨.state k,sig,work⟩ .unknown n) (hv : Vouched C ⟨.state k,sig,work⟩ n verified)
    (hacc : n.account = k.account) :
    ∃ tag, gapEpochBlock C ⟨.state k,sig,work⟩ k verified = some (.gapPrevious,tag) ∧
      Vouched C ⟨.state k,sig,work⟩ n tag := by
  unfold gapEpochBlock
  by_cases hu : verified = .unknown
  · rw [if_neg (not_not.mpr hu)]
    cases hgood : C.validateMessage k.account (C.blockHash ⟨.state k,sig,work⟩) sig with
    | false => exact ⟨.valid,rfl,fun _ => hacc ▸ hgood,(by rintro ⟨⟩)⟩
    | true =>
      -- not signed by the account, so an upgrade
      have hm : n.move = .upgrade := by
        by_contra hm
        have := transfer_signed hs hm
        rw [hacc] at this
        exact Bool.noConfusion (hgood.symm.trans this)
      unfold Signed at hs
      rw [if_pos hm] at hs
      obtain ⟨signer,hsigner,hsig⟩ := hs
      have hsig' : C.validateMessage signer (C.blockHash ⟨.state k,sig,work⟩) sig = false := by
        simpa [badSignature] using hsig
      have hsigner' : C.epochSigner k.link = some signer := hsigner
      refine ⟨.validEpoch,?_,(by rintro ⟨⟩),fun _ => ⟨signer,hsigner,hsig'⟩⟩
      simp [hsigner',hsig']
  · rw [if_pos hu]
    exact ⟨verified,rfl,hv⟩

theorem waits_previous (M : Mirrors L Y) (hZ : Built S Z) (hn : Z (C.blockHash b) = some n)
    (hbn : b.hashables = n.hashables) (hs : Signed C b .unknown n) (hv : Vouched C b n verified)
    (hfree : Y (C.blockHash b) = none) (h0 : n.previous ≠ 0) (hmiss : Y n.previous = none) :
    Waits C L b n .gapPrevious (process C now L b verified) := by
  apply waits_process (by decide)
  have hnew := new_of_absent M hfree
  have habsent := M.absent.mpr hmiss
  have hcontains := Table.not_contains_of_get habsent
  have hprev : n.previous = b.hashables.previous := by rw [hbn,Node.previous]
  rw [hprev] at h0 habsent hcontains
  obtain ⟨hs',sig,work⟩ := b
  simp only at hprev h0 habsent hcontains hbn
  cases hs' with
  | send k =>
    refine ⟨verified,none,?_,hv⟩
    simp [visit,sendBlock,hnew,show L.blocks[k.previous]? = none from habsent]
  | receive k =>
    refine ⟨verified,none,?_,hv⟩
    simp [visit,receiveBlock,hnew,show L.blocks[k.previous]? = none from habsent]
  | change k =>
    refine ⟨verified,none,?_,hv⟩
    simp [visit,changeBlock,hnew,show L.blocks[k.previous]? = none from habsent]
  | open_ k => exact absurd rfl h0
  | state k =>
    have hnew' : L.blockOrPrunedExists (C.blockHash ⟨.state k,sig,work⟩) = false := hnew
    have hprev0 : ¬ k.previous = 0#256 := h0
    have hmiss' : L.blocks.contains k.previous = false := hcontains
    have hacc : n.account = k.account := by
      rw [← (built_account_field hZ hn).1 (Or.inr (by rw [← hbn]; rfl)),← hbn]
      rfl
    have hacc0 : ¬ k.account = 0#256 := hacc ▸ built_account_ne_zero hZ hn
    by_cases he : C.isEpochLink k.link = true
    · obtain ⟨tag,hgap,hv'⟩ := gapEpochBlock_vouched hs hv hacc
      refine ⟨tag,none,?_,hv'⟩
      simp [visit,stateBlock,he,hprev0,hmiss',hgap,reject]
    · have hm : n.move ≠ .upgrade := by
        intro hm
        obtain ⟨k',hk',he'⟩ := upgrade_form hZ hn hm
        cases hbn.trans hk'
        exact he he'
      have hgood := transfer_signed hs hm
      rw [hacc] at hgood
      have hgood' : badSignature C verified .valid k.account ⟨.state k,sig,work⟩ = false := by
        rw [badSignature,hgood,Bool.and_false]
      refine ⟨.valid,?_⟩
      cases hi : L.accounts[k.account]? with
      | none =>
        refine ⟨some 0,?_,vouched_valid hs hm⟩
        simp [visit,stateBlock,he,stateBlockImpl,hnew',hgood',hacc0,hi,hprev0]
      | some info =>
        refine ⟨some info.balance,?_,vouched_valid hs hm⟩
        simp [visit,stateBlock,he,stateBlockImpl,hnew',hgood',hacc0,hi,hprev0,hmiss']

theorem stateTransfer_gap {info : AccountInfo} {isReceive : Bool} {amount : Amount}
    (hl : k.link ≠ 0) (hmiss : L.blockOrPrunedExists k.link = false) :
    stateTransfer C now L b k info false isReceive amount =
      reject L .gapSource .valid (some info.balance) := by
  have hl' : ¬ k.link = 0#256 := hl
  simp [stateTransfer,stateSource,hl',hmiss]

section
variable (M : Mirrors L Y) (hY : Built S Y)
include M hY

section
variable (hZ : Built S Z) (hp : Part Y Z) (hn : Z (C.blockHash b) = some n)
  (hfree : Y (C.blockHash b) = none)
include hZ hp hn hfree

theorem part_info (h0 : n.previous ≠ 0) (hprev : ∃ p, Y n.previous = some p) :
    ∃ p t, Head Y n.previous p ∧ p.account = n.account ∧ (n.legacy → p.legacy) ∧
      L.accounts[n.account]? = some (infoOf n.previous p t) := by
  obtain ⟨p,hpY⟩ := hprev
  obtain ⟨p',hp',hacc,hleg,-⟩ := built_following hZ hn h0
  obtain rfl := Option.some.inj (hp'.symm.trans (hp _ p hpY))
  have hh : Head Y n.previous p' := ⟨hpY,part_head hZ hp hn hfree h0⟩
  obtain ⟨t,ht⟩ := M.head hY hh
  exact ⟨p',t,hh,hacc,hleg,hacc ▸ ht⟩

variable (hbn : b.hashables = n.hashables) (hj : Justified C U Z (C.blockHash b) n)
  (hprev : n.previous ≠ 0 → ∃ p, Y n.previous = some p)
  (hgood : badSignature C verified .valid n.account b = false)
include hbn hj hprev hgood

theorem receive_waits {k : ReceiveHashables} (hk : b.hashables = .receive k)
    (hmiss : Y k.source = none) :
    receiveBlock C now L b verified k = reject L .gapSource .valid none := by
  have hl : n.legacy := by
    rw [Node.legacy,← hbn,hk]
    rintro ⟨⟩
  have h0 : n.previous ≠ 0 := by
    intro h0
    rcases hj.opening h0 with e | e
    · rw [← hbn,hk] at e
      cases e
    · exact hl e
  obtain ⟨p,t,hh,hacc,hleg,-⟩ := part_info M hY hZ hp hn hfree h0 (hprev h0)
  obtain ⟨r,hr,hst⟩ := M.get hh.1
  have hfront := M.frontierGet hh
  rw [if_pos (hleg hl),hacc] at hfront
  have hvalid : b.validPredecessor r.block = true := by
    have htype : b.type = .receive := by rw [Block.type,hk]; rfl
    refine validPredecessor_legacy (by rw [htype]; rintro ⟨⟩) (by rw [htype]; rintro ⟨⟩) ?_
    rw [Block.type,hst.hashables]
    exact hleg hl
  have hpk : n.previous = k.previous := by rw [Node.previous,← hbn,hk]; rfl
  rw [hpk] at hr hfront
  have hacc0 : ¬ n.account = 0#256 := hj.account_ne_zero
  simp [receiveBlock,new_of_absent M hfree,hr,hvalid,hfront,hacc0,hgood,new_of_absent M hmiss]

theorem state_waits {k : StateHashables} (hk : b.hashables = .state k)
    (hm : moveOf C (.state k) (previousBalance (Z n.previous)) = .receive k.link)
    (hmiss : Y k.link = none) :
    ∃ balance, stateBlock C now L b k verified = reject L .gapSource .valid (some balance) := by
  simp only [moveOf] at hm
  split_ifs at hm with hsend hl he
  have hacc : n.account = k.account := by
    rw [justified_account hj,← hbn,hk]
    rfl
  have hacc0 : ¬ k.account = 0#256 := hacc ▸ hj.account_ne_zero
  have hl' : ¬ k.link = 0#256 := hl
  have hpk : n.previous = k.previous := by rw [Node.previous,← hbn,hk]; rfl
  have hnew := new_of_absent M hfree
  have hsource := new_of_absent M hmiss
  rw [hacc] at hgood
  by_cases h0 : n.previous = 0
  · have hnone : L.accounts[k.account]? = none :=
      hacc ▸ (M.unopened hY _).mpr (part_unopened hZ hY hp hn hfree h0)
    refine ⟨0,?_⟩
    simp [stateBlock,he,stateBlockImpl,hnew,hgood,hacc0,hnone,hpk ▸ h0,hl',
      stateTransfer_gap hl hsource]
  · obtain ⟨p,t,hh,-,-,hi⟩ := part_info M hY hZ hp hn hfree h0 (hprev h0)
    have hcontains : L.blocks.contains k.previous = true := hpk ▸ M.contains.mpr ⟨p,hh.1⟩
    have hsend' : ¬ k.balance < (infoOf n.previous p t).balance := by
      rwa [hp _ p hh.1] at hsend
    have hh0 : (infoOf n.previous p t).head = k.previous := hpk
    have h0' : ¬ k.previous = 0#256 := hpk ▸ h0
    rw [hacc] at hi
    refine ⟨(infoOf n.previous p t).balance,?_⟩
    simp [stateBlock,he,stateBlockImpl,hnew,hgood,hacc0,hi,h0',hcontains,hh0,hsend',
      stateTransfer_gap hl hsource]

end

/-- With its previous block but without its source a block waits for the
source. -/
theorem waits_source (hZ : Built S Z) (hp : Part Y Z) (hn : Z (C.blockHash b) = some n)
    (hbn : b.hashables = n.hashables) (hs : Signed C b .unknown n)
    (hfree : Y (C.blockHash b) = none) {s : BlockHash} (hm : n.move = .receive s)
    (hprev : n.previous ≠ 0 → ∃ p, Y n.previous = some p) (hmiss : Y s = none) :
    Waits C L b n .gapSource (process C now L b verified) := by
  apply waits_process (by decide)
  have hj : Justified C U Z (C.blockHash b) n := by
    refine (built_justified hZ hn).resolve_left ?_
    rintro ⟨-,rfl⟩
    cases hm
  have hmove := justified_move hj
  rw [hm,← hbn] at hmove
  have hnot : n.move ≠ .upgrade := by
    rw [hm]
    rintro ⟨⟩
  have hvouched := vouched_valid hs hnot
  have hgood : badSignature C verified .valid n.account b = false := by
    rw [badSignature,transfer_signed hs hnot,Bool.and_false]
  unfold visit
  refine ⟨.valid,?_⟩
  cases hk : b.hashables with
  | send k =>
    rw [hk] at hmove
    cases hmove
  | change k =>
    rw [hk] at hmove
    cases hmove
  | open_ k =>
    rw [hk] at hmove
    cases hmove
    have hacc : n.account = k.account := by
      rw [justified_account hj,← hbn,hk]
      rfl
    rw [hacc] at hgood
    refine ⟨none,?_,hvouched⟩
    simp [openBlock,new_of_absent M hfree,hgood,new_of_absent M hmiss]
  | receive k =>
    rw [hk] at hmove
    cases hmove
    exact ⟨none,receive_waits M hY hZ hp hn hfree hbn hj hprev hgood hk hmiss,hvouched⟩
  | state k =>
    rw [hk] at hmove
    have hlink : s = k.link := by
      simp only [moveOf] at hmove
      split_ifs at hmove
      cases hmove
      rfl
    subst hlink
    obtain ⟨balance,hout⟩ :=
      state_waits M hY hZ hp hn hfree hbn hj hprev hgood hk hmove.symm hmiss
    exact ⟨some balance,hout,hvouched⟩

theorem process_old (hn : Y (C.blockHash b) = some n) (hbn : b.hashables = n.hashables) :
    process C now L b verified = reject L .old verified none := by
  have hold : L.blockOrPrunedExists (C.blockHash b) = true := M.exists_iff.mpr ⟨n,hn⟩
  have hpn : n.previous = b.hashables.previous := by rw [hbn,Node.previous]
  have hvisit : visit C now L b verified = reject L .old verified none := by
    obtain ⟨hs,sig,work⟩ := b
    cases hs with
    | send k => simp [visit,sendBlock,hold]
    | receive k => simp [visit,receiveBlock,hold]
    | change k => simp [visit,changeBlock,hold]
    | open_ k => simp [visit,openBlock,hold]
    | state k =>
      have hpk : n.previous = k.previous := hpn
      have hbalance : ∃ balance, L.balance k.previous = some balance := by
        by_cases h0 : k.previous = 0
        · exact ⟨0,by rw [Ledger.balance,if_pos h0]⟩
        · obtain ⟨p,hp,-⟩ := built_following hY hn (hpk ▸ h0)
          exact ⟨p.balance,hpk ▸ M.balance hY hp⟩
      obtain ⟨balance,hbalance⟩ := hbalance
      have hprev : ¬ (k.previous ≠ 0 ∧ ¬ L.blocks.contains k.previous = true) := by
        rintro ⟨h0,hno⟩
        obtain ⟨p,hp,-⟩ := built_following hY hn (hpk ▸ h0)
        exact hno (hpk ▸ M.contains.mpr ⟨p,hp⟩)
      simp only [visit,stateBlock,if_neg hprev,hbalance,epochBlockImpl,stateBlockImpl,hold]
      simp
  rw [process,hvisit]
  rfl

theorem vouched_honest (ha : Admits C U Y (C.blockHash b) n) (hbn : b.hashables = n.hashables)
    (hv : Vouched C b n verified) : Honest C L b verified := by
  refine ⟨fun he => ⟨n.account,?_,hv.1 he⟩,hv.2⟩
  have hacc := justified_account ha.toJustified
  have hlegacy : b.hashables.type ≠ .open_ → b.hashables.type ≠ .state →
      L.account b.previous = some n.account := by
    intro h1 h2
    have h0 : n.previous ≠ 0 := by
      intro h0
      rcases ha.opening h0 with e | e
      · exact h1 (hbn ▸ e)
      · exact h2 (hbn ▸ e)
    obtain ⟨p,hp,hpa,-⟩ := ha.following h0
    rw [Block.previous,hbn,← hpa]
    exact M.owner hY hp
  rw [← hbn] at hacc
  unfold ownerOf
  cases hh : b.hashables with
  | open_ k =>
    rw [hh] at hacc
    rw [hacc]
    rfl
  | state k =>
    rw [hh] at hacc
    rw [hacc]
    rfl
  | _ =>
    rw [hh] at hlegacy
    exact hlegacy nofun nofun

end

variable (now) in
/-- With everything it depends on a block is accepted. -/
theorem part_accepts (V : Valid S L Y) (hZ : Built S Z) (hp : Part Y Z)
    (hn : Z (C.blockHash b) = some n) (hbn : b.hashables = n.hashables)
    (hc : Certified C Z b n) (hv : Vouched C b n verified) (hgen : C.blockHash b ≠ C.genesisHash)
    (hfree : Y (C.blockHash b) = none) (hdeps : ∀ d ∈ deps n, ∃ m, Y d = some m)
    (hup : n.move = .upgrade → n.previous ≠ 0) :
    ∃ result L', process C now L b verified = some (result,L') ∧ result.code = .progress ∧
      Growth.Grows L L' (C.blockHash b) b n now ∧ Valid S L' (add Y (C.blockHash b) n) := by
  have ha : Admits C U Y (C.blockHash b) n := part_admits hZ V.built hp hn hgen hfree hdeps
  have hprev : Z n.previous = Y n.previous := by
    by_cases h0 : n.previous = 0
    · rw [h0,built_zero V.built,built_zero hZ]
    · obtain ⟨m,hm⟩ := hdeps n.previous (previous_dep h0)
      rw [hm,hp _ m hm]
  have hc' := hc.congr hprev
  refine valid_accepts V now hbn (vouched_honest V.mirrors V.built ha hbn hv)
    ⟨hfree,ha,signed_mono hc'.signed,hc'.worked,hc'.opens,fun he => ⟨hc'.representative he,?_⟩⟩
  obtain ⟨p,hpY⟩ := hdeps n.previous (previous_dep (hup he))
  rw [hpY]
  exact hc'.sequential he p hpY

end Vxldollar.Gaps
