import Vxldollar.Successors
import Vxldollar.Voting

/-!
# Activation after cementing

When a block is cemented, `block_cemented_callback` asks the scheduler to look at two
accounts, the one of the block and the one it sends to. `activate` looks at a single
block of each, the next one above the confirmation height. This is enough: whatever the
cemented block unlocks is the next block of one of the two.
-/

namespace Vxldollar.Activation
open Blocks Store Vxldollar.Lattice Chains Mirror Heights Confirmation Runs Successors Voting List

section
inductive ElectionStatusType where
  | ongoing
  | activeConfirmedQuorum
  | activeConfirmationHeight
  | inactiveConfirmationHeight
  | stopped
  deriving DecidableEq, Repr

structure Push where
  time : ℕ
  block : StoredBlock

variable (C : Constants) (L : Ledger)

def blockDestination (r : StoredBlock) : Account := match r.block.hashables with
  | .send h => h.destination
  | .state h => if r.sideband.details.isSend then h.link else 0
  | _ => 0

/-- The block above the confirmation height. -/
def nextHash (info : AccountInfo) (conf : ConfirmationHeightInfo) : BlockHash :=
  if conf.height = 0 then info.openBlock else blockSuccessor L conf.frontier

/-- `election_scheduler::activate`: the calls it makes, nothing if it reads a block that
is not there. -/
def activate (account : Account) : Option (List Push) :=
  match L.accounts[account]? with
  | none => some []
  | some info =>
    let conf := L.confirmationHeightGet account
    if conf.height < info.blockCount then
      match L.blocks[nextHash L info conf]? with
      | none => none
      | some r =>
        if dependentsConfirmed C L ⟨r.block,some r.sideband⟩ then some [⟨info.modified,r⟩]
        else some []
    else some []

/-- The end of `block_cemented_callback`: the next blocks are activated when the cemented
block had an election and enough blocks are cemented. -/
def cementedCallback (bootstrapWeightMaxBlocks : ℕ) (status : Option ElectionStatusType)
    (d : StoredBlock) : Option (List Push) :=
  let wasActive := status = some .activeConfirmedQuorum ∨ status = some .activeConfirmationHeight
  if L.cache.cementedCount ≥ bootstrapWeightMaxBlocks ∧ wasActive then do
    let account := d.accountCalculated
    let own ← activate C L account
    let destination := blockDestination d
    if destination ≠ 0 ∧ destination ≠ account then
      let other ← activate C L destination
      return own++other
    else return own
  else some []

/-- An uncemented block all of whose dependencies are confirmed. -/
def Unlocked (g : BlockHash) (r : StoredBlock) : Prop :=
  L.blocks[g]? = some r ∧ L.blockConfirmed g = false ∧
    ∀ e, DependsOn C r e → L.blockConfirmed e = true

end

variable {C : Constants} {U : Set Hashables} {S : HashSound C U} {X : Nodes} {L : Ledger}
  {h g d : BlockHash} {n m : Node} {r : StoredBlock} {a : Account}

theorem dependentsConfirmed_iff :
    dependentsConfirmed C L ⟨r.block,some r.sideband⟩ = true ↔
      ∀ e, DependsOn C r e → L.blockConfirmed e = true := by
  have hd : dependentBlocks C ⟨r.block,{ details.isSend := sends L ⟨r.block,some r.sideband⟩ }⟩ =
      dependentBlocks C r := by
    unfold dependentBlocks
    cases r.block.hashables <;> rfl
  simp only [dependentsConfirmed,Bool.and_eq_true,Bool.or_eq_true,decide_eq_true_eq]
  constructor
  · rintro ⟨h₁,h₂⟩ e ⟨h0,rfl | rfl⟩
    · exact h₁.resolve_left h0
    · exact h₂.resolve_left h0
  · intro hall
    constructor
    · by_cases h0 : (dependentBlocks C r).1 = 0
      · exact .inl h0
      · exact .inr (hall _ ⟨h0,.inl rfl⟩)
    · by_cases h0 : (dependentBlocks C r).2 = 0
      · exact .inl h0
      · exact .inr (hall _ ⟨h0,.inr rfl⟩)

section
variable (V : Valid S L X)
include V

theorem blockConfirmed_node (hX : X h = some n) : L.blockConfirmed h = true ↔ Cemented L n := by
  rw [blockConfirmed_iff V.mirrors V.built]
  constructor
  · rintro ⟨m,hm,hc⟩
    cases hX.symm.trans hm
    exact hc
  · exact fun hc => ⟨n,hX,hc⟩

theorem nextHash_node {info : AccountInfo} (ha : L.accounts[a]? = some info)
    (hlt : (L.confirmationHeightGet a).height < info.blockCount) :
    ∃ n, X (nextHash L info (L.confirmationHeightGet a)) = some n ∧ n.account = a ∧
      n.height = (L.confirmationHeightGet a).height+1 := by
  obtain ⟨f,x,hf,hacc,hinfo⟩ := V.mirrors.account a info ha
  by_cases h0 : (L.confirmationHeightGet a).height = 0
  · obtain ⟨n,hn,hp,hna⟩ := openBlock_lowest V.built hf.1
    rw [nextHash,if_pos h0,hinfo]
    exact ⟨n,hn,hna.trans hacc,by rw [h0,(built_opening V.built hn hp).1]⟩
  · rw [nextHash,if_neg h0]
    cases hi : L.confirmationHeight[a]? with
    | none =>
      rw [Ledger.confirmationHeightGet,hi] at h0
      exact absurd rfl h0
    | some i =>
      have hget : L.confirmationHeightGet a = i := by
        rw [Ledger.confirmationHeightGet,hi]
        rfl
      obtain ⟨p,hp,hpa,hph⟩ := V.frontier a i hi
      rw [hget] at hlt ⊢
      rcases blockSuccessor_cases V i.frontier with ⟨n,hn,hprev⟩ | ⟨-,hnone⟩
      · obtain ⟨q,hq,hqa,-,hqh,-⟩ := built_following V.built hn
          (hprev ▸ built_key_ne_zero V.built hp)
        rw [hprev,hp] at hq
        cases hq
        exact ⟨n,hn,hqa.symm.trans hpa,by omega⟩
      · -- the frontier would be the head, with all blocks of the account below it
        have hhead : Head X i.frontier p := ⟨hp,hnone (built_key_ne_zero V.built hp)⟩
        have hle := height_le_head V.built hf.1 hhead (hacc.trans hpa.symm)
        have hcount : info.blockCount = x.height := by
          rw [hinfo]
          rfl
        omega

theorem unlocked_height (hu : Unlocked C L g r) (hX : X g = some n) :
    n.height = (L.confirmationHeightGet n.account).height+1 := by
  obtain ⟨hr,hc,hall⟩ := hu
  have habove : ¬ Cemented L n := by
    rw [← blockConfirmed_node V hX,hc]
    exact Bool.false_ne_true
  unfold Cemented at habove
  by_cases hp : n.previous = 0
  · have h1 := (previous_of_height V.built hX).mp hp
    omega
  · obtain ⟨m,hm,hs⟩ := V.mirrors.block g r hr
    cases hX.symm.trans hm
    obtain ⟨p,hp',hpa,-,hph,-⟩ := built_following V.built hX hp
    have hdep := (dependsOn_iff V.built hX hs).mpr (previous_dep hp)
    have hbelow : Cemented L p := (blockConfirmed_node V hp').mp (hall _ hdep)
    unfold Cemented at hbelow
    rw [hpa] at hbelow
    omega

theorem activate_spec (a : Account) : ∃ ps, activate C L a = some ps ∧
    (∀ g n r, X g = some n → n.account = a → Unlocked C L g r → ∃ t, ⟨t,r⟩ ∈ ps) ∧
    ∀ p ∈ ps, ∃ g, Unlocked C L g p.block := by
  unfold activate
  cases ha : L.accounts[a]? with
  | none =>
    have hno := (V.mirrors.unopened V.built a).mp ha
    exact ⟨[],rfl,fun g n _ hX hacc => absurd hacc (hno g n hX),
      fun _ hp => absurd hp not_mem_nil⟩
  | some info =>
    dsimp only
    by_cases hlt : (L.confirmationHeightGet a).height < info.blockCount
    · rw [if_pos hlt]
      obtain ⟨m,hm,hma,hmh⟩ := nextHash_node V ha hlt
      obtain ⟨q,hq⟩ := V.mirrors.present _ m hm
      rw [hq]
      dsimp only
      have hnext : ∀ g n r, X g = some n → n.account = a → Unlocked C L g r →
          g = nextHash L info (L.confirmationHeightGet a) ∧ r = q := by
        intro g n r hX hacc hu
        have hh := unlocked_height V hu hX
        have hg := height_unique V.built hX hm (hacc.trans hma.symm) (by rw [hh,hmh,hacc])
        have hr := hu.1
        rw [hg,hq] at hr
        exact ⟨hg,(Option.some.inj hr).symm⟩
      by_cases hd : dependentsConfirmed C L ⟨q.block,some q.sideband⟩ = true
      · rw [if_pos hd]
        refine ⟨_,rfl,fun g n r hX hacc hu => ⟨info.modified,?_⟩,fun p hp => ?_⟩
        · rw [(hnext g n r hX hacc hu).2]
          exact mem_singleton_self _
        · rw [mem_singleton.mp hp]
          refine ⟨_,hq,?_,dependentsConfirmed_iff.mp hd⟩
          rw [← Bool.not_eq_true,blockConfirmed_node V hm,Cemented,hma,hmh]
          omega
      · rw [if_neg hd]
        refine ⟨[],rfl,fun g n r hX hacc hu => ?_,fun _ hp => absurd hp not_mem_nil⟩
        rw [(hnext g n r hX hacc hu).2] at hu
        exact absurd (dependentsConfirmed_iff.mpr hu.2.2) hd
    · rw [if_neg hlt]
      refine ⟨[],rfl,fun g n r hX hacc hu => ?_,fun _ hp => absurd hp not_mem_nil⟩
      obtain ⟨f,x,hf,hfa,hinfo⟩ := V.mirrors.account a info ha
      have hle := height_le_head V.built hX hf (hacc.trans hfa.symm)
      have hh := unlocked_height V hu hX
      have hcount : info.blockCount = x.height := by
        rw [hinfo]
        rfl
      rw [hacc] at hh
      omega

theorem blockDestination_of_send (hX : X h = some n) (hr : L.blocks[h]? = some r)
    (hm : n.move = .send a) : blockDestination r = a := by
  obtain ⟨x,hx,hs⟩ := V.mirrors.block h r hr
  cases hX.symm.trans hx
  rcases built_justified V.built hX with ⟨-,rfl⟩ | hj
  · cases hm
  · have hmove := justified_move hj
    rw [blockDestination,hs.hashables]
    cases hn : n.hashables with
    | state q =>
      have hd := legacy_sideband hs (by rw [hn]; rfl)
      rw [hn,moveOf] at hmove
      have hsend : r.sideband.details.isSend = true := by
        rw [hd,hm]
        rfl
      show (if r.sideband.details.isSend = true then q.link else 0) = a
      rw [if_pos hsend]
      rw [hm] at hmove
      split_ifs at hmove
      exact (Move.send.inj hmove).symm
    | send q =>
      rw [hm,hn] at hmove
      exact (Move.send.inj hmove).symm
    | _ =>
      rw [hm,hn] at hmove
      cases hmove

theorem dependent_account (hX : X g = some n) (hr : L.blocks[g]? = some r) {q : StoredBlock}
    (hd : L.blocks[d]? = some q) (hdep : DependsOn C r d) :
    n.account = q.accountCalculated ∨ n.account = blockDestination q := by
  obtain ⟨x,hx,hs⟩ := V.mirrors.block g r hr
  cases hX.symm.trans hx
  obtain ⟨m,hm,hms⟩ := V.mirrors.block d q hd
  rcases (dependsOn_iff V.built hX hs).mp hdep with ⟨rfl,h0⟩ | hsrc
  · left
    obtain ⟨p,hp,hpa,-⟩ := built_following V.built hX h0
    cases hm.symm.trans hp
    rw [stores_account V.built hm hms,hpa]
  · right
    obtain ⟨p,hp,hsend,-⟩ := built_source V.built hX hsrc
    cases hm.symm.trans hp
    exact (blockDestination_of_send V hm hd hsend).symm

end

/-- The pushes of the callback for a cemented block with an election: every block it
unlocks, and only unlocked blocks. -/
theorem cemented_activates (S : HashSound C U) (hr : Reachable C U L) {q : StoredBlock}
    (hd : L.blocks[d]? = some q) {bound : ℕ}
    (hcount : bound ≤ L.cache.cementedCount) {status : Option ElectionStatusType}
    (hactive : status = some .activeConfirmedQuorum ∨ status = some .activeConfirmationHeight) :
    ∃ ps, cementedCallback C L bound status q = some ps ∧
      (∀ g r, Unlocked C L g r → DependsOn C r d → ∃ t, ⟨t,r⟩ ∈ ps) ∧
      ∀ p ∈ ps, ∃ g, Unlocked C L g p.block := by
  obtain ⟨X,V⟩ := reachable_valid S hr
  obtain ⟨own,hown,hall,hsound⟩ := activate_spec V q.accountCalculated
  have hunfold : cementedCallback C L bound status q = (activate C L q.accountCalculated).bind
      fun own => if blockDestination q ≠ 0 ∧ blockDestination q ≠ q.accountCalculated
        then (activate C L (blockDestination q)).bind fun other => some (own++other)
        else some own := if_pos ⟨hcount,hactive⟩
  rw [hunfold,hown,Option.bind_some]
  by_cases hother : blockDestination q ≠ 0 ∧ blockDestination q ≠ q.accountCalculated
  · obtain ⟨other,hact,hall',hsound'⟩ := activate_spec V (blockDestination q)
    rw [if_pos hother,hact]
    refine ⟨own++other,rfl,fun g r hu hdep => ?_,fun p hp => ?_⟩
    · obtain ⟨n,hX,-⟩ := V.mirrors.block g r hu.1
      rcases dependent_account V hX hu.1 hd hdep with hacc | hacc
      · obtain ⟨t,ht⟩ := hall g n r hX hacc hu
        exact ⟨t,mem_append_left _ ht⟩
      · obtain ⟨t,ht⟩ := hall' g n r hX hacc hu
        exact ⟨t,mem_append_right _ ht⟩
    · rcases mem_append.mp hp with hp | hp
      · exact hsound p hp
      · exact hsound' p hp
  · rw [if_neg hother]
    refine ⟨own,rfl,fun g r hu hdep => ?_,hsound⟩
    obtain ⟨n,hX,-⟩ := V.mirrors.block g r hu.1
    apply hall g n r hX _ hu
    rcases dependent_account V hX hu.1 hd hdep with hacc | hacc
    · exact hacc
    · -- a send to its own account; no account is zero
      have h0 : blockDestination q ≠ 0 := hacc ▸ built_account_ne_zero V.built hX
      exact hacc.trans (not_not.mp fun hne => hother ⟨h0,hne⟩)

theorem cemented_activates_sample : ∃ q r,
    sampleSent.blocks[(2 : BlockHash)]? = some q ∧ sampleSent.blocks[(3 : BlockHash)]? = some r ∧
    sampleSent.blockConfirmed 2 = true ∧ sampleSent.blockConfirmed 3 = false ∧
    DependsOn sample r 2 ∧
    ∃ ps, cementedCallback sample sampleSent 1 (some .activeConfirmedQuorum) q = some ps ∧
      (∀ g r, Unlocked sample sampleSent g r → DependsOn sample r 2 → ∃ t, ⟨t,r⟩ ∈ ps) ∧
      ∀ p ∈ ps, ∃ g, Unlocked sample sampleSent g p.block := by
  have hq : (sampleSent.blocks[(2 : BlockHash)]?).isSome = true := by decide +kernel
  have hr : (sampleSent.blocks[(3 : BlockHash)]?).any (fun r => decide (DependsOn sample r 2)) =
      true := by decide +kernel
  obtain ⟨q,hq⟩ := Option.isSome_iff_exists.mp hq
  obtain ⟨r,hr,hdep⟩ := (Option.any_eq_true _ _).mp hr
  refine ⟨q,r,hq,hr,by decide +kernel,by decide +kernel,of_decide_eq_true hdep,?_⟩
  exact cemented_activates sample_sound sampleSent_reachable hq (by decide +kernel) (.inl rfl)

end Vxldollar.Activation
