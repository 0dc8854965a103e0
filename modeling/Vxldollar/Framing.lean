import Vxldollar.Refusals
import Vxldollar.Runs

/-!
# What accepting a block may change

A refused block changes nothing. An accepted block extends the chain of its own
account and changes the entries that belong to it, as long as an epoch block for
an unopened account has no predecessor: the handler for epoch blocks asks only
whether the predecessor exists, and the store then fills in the successor of a
block of another chain.
-/

namespace Vxldollar.Framing
open Blocks Store Vxldollar.Lattice Chains Mirror Growth Totals Process ProcessSpec
  Refusals Runs List

variable {C : Constants} {U : Set Hashables} {S : HashSound C U} {X : Nodes} {L L' : Ledger}
  {b : Block} {now : ℕ} {verified : SignatureVerification}

def PendingFrame (C : Constants) (L L' : Ledger) (b : Block) (a : Account) : Prop :=
  match moveOf C b.hashables ((L.accounts[a]?.map AccountInfo.balance).getD 0) with
  | .send destination => ∃ i, L'.pending = L.pending.insert ⟨destination,C.blockHash b⟩ i
  | .receive source => L'.pending = L.pending.erase ⟨a,source⟩
  | _ => L'.pending = L.pending

/-- What accepting `b` into the chain of `a` changes. -/
structure Framed (C : Constants) (L L' : Ledger) (b : Block) (a : Account) : Prop where
  owner : ownerOf L b = some a
  position : (L.accounts[a]? = none ∧ b.previous = 0) ∨
    ∃ i, L.accounts[a]? = some i ∧ i.head = b.previous
  new : L.blocks[C.blockHash b]? = none
  record : ∃ r, L'.blocks[C.blockHash b]? = some r ∧ r.block = b ∧ r.accountCalculated = a
  blocks : ∀ g, g ≠ C.blockHash b → L'.blocks[g]? =
    if g = b.previous then L.blocks[g]?.map (fun r => r.withSuccessor (C.blockHash b))
    else L.blocks[g]?
  others : ∀ (g : BlockHash) (r : StoredBlock), L.blocks[g]? = some r →
    r.accountCalculated ≠ a → L'.blocks[g]? = some r
  accounts : ∀ c, c ≠ a → L'.accounts[c]? = L.accounts[c]?
  frontiers : ∀ g, g ≠ C.blockHash b → g ≠ b.previous → L'.frontiers[g]? = L.frontiers[g]?
  pending : PendingFrame C L L' b a
  weights : ∀ c, (∀ i, L.accounts[a]? = some i → c ≠ i.representative) →
    (∀ i, L'.accounts[a]? = some i → c ≠ i.representative) →
    representationGet L'.cache.repWeights c = representationGet L.cache.repWeights c
  rest : Spares L L'

section
variable {n : Node} (V : Valid S L X) (hn : n.hashables = b.hashables)
  (ha : Admits C U X (C.blockHash b) n)

include V hn ha

theorem ownerOf_grown : ownerOf L b = some n.account := by
  have hacc := justified_account ha.toJustified
  have legacy : b.previous ≠ 0 → L.account b.previous = some n.account := by
    intro h0
    obtain ⟨p,hp,hpa,-⟩ := ha.following (by rwa [Node.previous,hn])
    rw [Node.previous,hn] at hp
    rw [V.mirrors.owner V.built hp,hpa]
  have opens : n.hashables.type ≠ .open_ → n.hashables.type ≠ .state → b.previous ≠ 0 := by
    intro ho hs h0
    exact (ha.opening (by rwa [Node.previous,hn])).elim ho hs
  rw [hn] at hacc opens
  unfold ownerOf
  cases hb : b.hashables with
  | open_ h =>
    rw [hb] at hacc
    rw [hacc]
    rfl
  | state h =>
    rw [hb] at hacc
    rw [hacc]
    rfl
  | _ =>
    rw [hb] at opens
    exact legacy (opens (by simp [Hashables.type]) (by simp [Hashables.type]))

theorem pending_grown (hg : L'.pending = pendingGrown n (C.blockHash b) L.pending) :
    PendingFrame C L L' b n.account := by
  have hbalance : (L.accounts[n.account]?.map AccountInfo.balance).getD 0 =
      previousBalance (X n.previous) := by
    rcases prior_info V.mirrors V.built ha with ⟨-,hX,hnone⟩ | ⟨-,p,t,hX,-,-,hsome⟩
    · rw [hnone,hX]
      rfl
    · rw [hsome,hX]
      rfl
  have hmove := justified_move ha.toJustified
  unfold PendingFrame
  rw [hbalance,← hn,← hmove]
  unfold pendingGrown at hg
  cases hm : n.move with
  | send d =>
    rw [hm] at hg
    exact ⟨_,hg⟩
  | _ =>
    rw [hm] at hg
    exact hg

theorem framed_of_grows (hk : X (C.blockHash b) = none) (G : Grows L L' (C.blockHash b) b n now)
    (hw : WeightShift L.cache.repWeights L'.cache.repWeights X n) (hrest : Spares L L') :
    Framed C L L' b n.account := by
  have hprev : n.previous = b.previous := congrArg Hashables.previous hn
  have hprior := prior_info V.mirrors V.built ha
  have M' := grow_mirrors V.mirrors V.built ha hk hn.symm G
  have hb' := Causal.Built.add V.built hk ha
  have hnew : L.blocks[C.blockHash b]? = none := V.mirrors.absent.mpr hk
  constructor
  · exact ownerOf_grown V hn ha
  · rcases hprior with ⟨h0,-,hnone⟩ | ⟨-,p,t,-,-,-,hsome⟩
    · exact .inl ⟨hnone,hprev ▸ h0⟩
    · exact .inr ⟨_,hsome,hprev⟩
  · exact hnew
  · have hr : L'.blocks[C.blockHash b]? = some ⟨b,n.sideband 0 now⟩ := by
      rw [G.blocks,if_pos rfl]
    obtain ⟨m,hm,hs⟩ := M'.block _ _ hr
    have hmn : m = n := by
      rcases (add_eq_some hk).mp hm with ⟨-,e⟩ | hX
      · exact e
      · rw [hk] at hX
        cases hX
    refine ⟨_,hr,rfl,?_⟩
    rw [stores_account hb' hm hs,hmn]
  · intro g hg
    rw [G.blocks,if_neg hg,hprev]
  · intro g r hr hother
    have hg : g ≠ C.blockHash b := by
      rintro rfl
      rw [hnew] at hr
      cases hr
    have hgp : g ≠ n.previous := by
      rintro rfl
      obtain ⟨p,hp,hs⟩ := V.mirrors.block _ r hr
      obtain ⟨p',hp',hacc,-⟩ := ha.following (built_key_ne_zero V.built hp)
      cases hp.symm.trans hp'
      exact hother ((stores_account V.built hp hs).trans hacc)
    rw [G.blocks,if_neg hg,if_neg hgp,hr]
  · intro c hc
    rw [G.accounts,Table.get_insert,if_neg hc]
  · intro g hg hgp
    rw [G.frontiers,if_neg hg,if_neg (hprev ▸ hgp)]
  · exact pending_grown V hn ha G.pending
  · intro c hold hnew'
    have hshare : share n c = 0 := by
      have hi : L'.accounts[n.account]? = some (infoOf (C.blockHash b) n now) := by
        rw [G.accounts,Table.get_insert,if_pos rfl]
      exact if_neg (fun e => hnew' _ hi e.symm)
    have hpriorShare : priorShare X n c = 0 := by
      unfold priorShare
      rcases hprior with ⟨-,hX,-⟩ | ⟨-,p,t,hX,-,-,hsome⟩
      · rw [hX]
        rfl
      · rw [hX]
        exact if_neg (fun e => hold _ hsome e.symm)
    have hc := hw c
    rwa [hshare,hpriorShare,add_zero,add_zero] at hc
  · exact hrest

end

section
structure Offer where
  ledger : Ledger
  block : Block
  result : ProcessReturn
  after : Ledger

def Offer.Holds (C : Constants) (o : Offer) : Prop :=
  (o.result.code ≠ .progress → o.after = o.ledger) ∧
    (o.result.code = .progress → ∃ a, Framed C o.ledger o.after o.block a)

/-- An epoch-signed block for an unopened account has no predecessor, or is
refused. -/
def Offer.Careful (C : Constants) (o : Offer) : Prop :=
  EpochOpens C o.ledger o.block ∨ o.result.code ≠ .progress

inductive Run (C : Constants) (U : Set Hashables) : List Offer → Ledger → Prop
  | start (now : ℕ) : Run C U [] (storeInitialize C now)
  | process {os : List Offer} {L L' : Ledger} {b : Block} {verified : SignatureVerification}
      {result : ProcessReturn} {now : ℕ} : Run C U os L → b.hashables ∈ U →
      Honest C L b verified → process C now L b verified = some (result,L') →
      Run C U (os++[⟨L,b,result,L'⟩]) L'
  | rollback {os : List Offer} {L L' : Ledger} {h : BlockHash}
      {list list' : Rollback.RollbackList} {error : Bool} {fuel now : ℕ} : Run C U os L →
      L.blocks.contains h = true → Rollback.rollback C now fuel L h list = some (error,L',list') →
      Run C U os L'
  | cement {os : List Offer} {L L' : Ledger} : Run C U os L → Confirmation.Raised C L L' →
      Run C U os L'

variable {os : List Offer}

theorem reachable_of_careful (hr : Run C U os L)
    (hc : ∀ o ∈ os, o.Careful C) : Reachable C U L := by
  induction hr with
  | start now => exact .start now
  | process _ hU hh hp ih =>
    have hL := ih (fun o ho => hc o (mem_append_left _ ho))
    rcases hc _ (mem_append_right _ (mem_singleton.mpr rfl)) with ho | hn
    · exact hL.process hU hh ho hp
    · have hsame := (process_told _ hp).refused hn
      dsimp only at hsame
      rw [hsame]
      exact hL
  | rollback _ hh hroll ih => exact (ih hc).rollback hh hroll
  | cement _ R ih => exact (ih hc).cement R

theorem epochSigned_state (he : EpochSigned C b) : ∃ h, b.hashables = .state h := by
  obtain ⟨signer,hs,-⟩ := he
  have hzero : C.epochSigner 0 = none := rfl
  have hlegacy : b.link ≠ 0 := by
    intro h0
    rw [h0,hzero] at hs
    cases hs
  cases hb : b.hashables with
  | state h => exact ⟨h,rfl⟩
  | _ =>
    rw [Block.link,hb] at hlegacy
    exact absurd rfl hlegacy

theorem holds_iff_careful (S : HashSound C U) (hr : Reachable C U L) (hU : b.hashables ∈ U)
    (hh : Honest C L b verified) {result : ProcessReturn}
    (hp : process C now L b verified = some (result,L')) :
    Offer.Holds C ⟨L,b,result,L'⟩ ↔ Offer.Careful C ⟨L,b,result,L'⟩ := by
  have htold := process_told _ hp
  constructor
  · rintro ⟨-,hframe⟩
    by_cases hc : result.code = .progress
    · left
      intro hsigned hnone
      obtain ⟨a,F⟩ := hframe hc
      obtain ⟨h,hb⟩ := epochSigned_state hsigned
      have ha : b.account = a := by
        have howner := F.owner
        rw [ownerOf,hb] at howner
        rw [Block.account,hb]
        exact Option.some.inj howner
      rcases F.position with ⟨-,h0⟩ | ⟨i,hi,-⟩
      · exact h0
      · rw [← ha] at hi
        rw [hnone] at hi
        cases hi
    · exact .inr hc
  · intro hcareful
    refine ⟨htold.refused,fun hc => ?_⟩
    have ho := hcareful.resolve_right (fun hn => hn hc)
    obtain ⟨X,V⟩ := reachable_valid S hr
    obtain ⟨result',L'',hp',hres⟩ := process_refines now V.mirrors V.built hU V.supply_lt hh ho
    cases hp'.symm.trans hp
    obtain ⟨-,hk,hadmits,G,hw⟩ := hres.resolve_left (fun hn => hn.1 hc)
    exact ⟨_,framed_of_grows V rfl hadmits hk G hw htold.spares⟩

theorem careful_offers (S : HashSound C U) (hr : Run C U os L) (hc : ∀ o ∈ os, o.Careful C)
    {o : Offer} (ho : o ∈ os) : Reachable C U o.after ∧ o.Holds C := by
  induction hr with
  | start now => cases ho
  | process hrun hU hh hp ih =>
    have hc' := fun o ho => hc o (mem_append_left _ ho)
    rcases mem_append.mp ho with ho | ho
    · exact ih hc' ho
    · have hlast := hc _ (mem_append_right _ (mem_singleton.mpr rfl))
      rw [mem_singleton.mp ho]
      exact ⟨reachable_of_careful (hrun.process hU hh hp) hc,
        (holds_iff_careful S (reachable_of_careful hrun hc') hU hh hp).mpr hlast⟩
  | rollback _ _ _ ih => exact ih hc ho
  | cement _ _ ih => exact ih hc ho

/-- In every run, all offers keep to the frame exactly when all epoch-signed
blocks accepted for unopened accounts have no predecessor. -/
theorem run_framed_iff (S : HashSound C U) (hr : Run C U os L) :
    (∀ o ∈ os, o.Holds C) ↔ ∀ o ∈ os, o.Careful C := by
  induction hr with
  | start now => exact ⟨fun _ _ ho => (nomatch ho),fun _ _ ho => (nomatch ho)⟩
  | process hrun hU hh hp ih =>
    simp only [forall_mem_append,forall_mem_singleton]
    rw [ih]
    apply and_congr_right
    intro hc
    exact holds_iff_careful S (reachable_of_careful hrun hc) hU hh hp
  | rollback _ _ _ ih => exact ih
  | cement _ _ ih => exact ih

end

def offered (C : Constants) (L : Ledger) (b : Block) : Offer where
  ledger := L
  block := b
  result := ((process C 0 L b .unknown).map Prod.fst).getD ⟨.old,.unknown,none⟩
  after := processed C L b

theorem run_offered {os : List Offer} (hr : Run C U os L) (hU : b.hashables ∈ U)
    (hp : (process C 0 L b .unknown).isSome = true) :
    Run C U (os++[offered C L b]) (processed C L b) := by
  obtain ⟨⟨result,L'⟩,hp⟩ := Option.isSome_iff_exists.mp hp
  have h := hr.process hU (honest_unknown) hp
  unfold offered processed
  rw [hp]
  exact h

theorem run_framed_iff_sample :
    Offer.Holds sample (offered sample (storeInitialize sample 0) sampleSend) := by
  refine (run_framed_iff sample_sound (run_offered (.start 0) (.inr (.inl rfl))
    (by decide +kernel))).mpr ?_ _ (mem_singleton.mpr rfl)
  intro o ho
  obtain rfl := mem_singleton.mp ho
  exact .inl (epochOpens_none (by decide))

def sendAll : Block := ⟨.send ⟨2,7,0⟩,0,0⟩

def epochOnTop : Block := ⟨.state ⟨7,3,0,0,epochLinkV1⟩,0,0⟩

def grafted : Set Hashables :=
  {sample.genesis.hashables,sendAll.hashables,epochOnTop.hashables}

def emptied : Ledger := processed sample (storeInitialize sample 0) sendAll

theorem grafted_run : Run sample grafted
    [offered sample (storeInitialize sample 0) sendAll,offered sample emptied epochOnTop]
    (processed sample emptied epochOnTop) :=
  run_offered (run_offered (.start 0) (.inr (.inl rfl)) (by decide +kernel))
    (.inr (.inr rfl)) (by decide +kernel)

/-- The epoch block is accepted, though its account is not opened and its
predecessor belongs to another one. -/
theorem epoch_grafts : Run sample grafted
      [offered sample (storeInitialize sample 0) sendAll,offered sample emptied epochOnTop]
      (processed sample emptied epochOnTop) ∧
    ¬ Offer.Holds sample (offered sample emptied epochOnTop) := by
  refine ⟨grafted_run,?_⟩
  rintro ⟨-,h⟩
  obtain ⟨a,F⟩ := h (by decide +kernel)
  obtain rfl : (7 : Account) = a := Option.some.inj F.owner
  rcases F.position with ⟨-,h0⟩ | ⟨i,hi,-⟩
  · revert h0
    decide
  · have hnone : emptied.accounts[(7 : Account)]? = none := by decide +kernel
    rw [show (offered sample emptied epochOnTop).ledger = emptied from rfl,hnone] at hi
    cases hi
end Vxldollar.Framing
