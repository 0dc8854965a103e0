import Vxldollar.Intake
import Vxldollar.Refusals
import Vxldollar.Runs

/-!
# What a parked block waits for

`process_one` parks a block that has a gap under a hash it computes after the ledger has
answered: the previous block, or the source. Whether this hash is one the block depends
on, and one that can still arrive, is decided here for every answer on every ledger
without pruned blocks.
-/

namespace Vxldollar.Parking
open Blocks Store Process Vxldollar.Lattice Chains Runs Confirmation Intake Refusals

section
variable (C : Constants) (L : Ledger)

/-- The question of `dependent_blocks` whether a block without sideband is a send. -/
def knownSend (b : Block) : Bool := match b.hashables with
  | .state h => L.blocks.contains h.previous && isSend L h == some true
  | _ => false

def dependents (b : Block) : BlockHash × BlockHash :=
  dependentBlocks C ⟨b,{ details.isSend := knownSend L b }⟩

def couldFit (b : Block) : Bool :=
  (decide ((dependents C L b).1 = 0) || L.blocks.contains (dependents C L b).1) &&
    (decide ((dependents C L b).2 = 0) || L.blocks.contains (dependents C L b).2)

end

section
variable (C : Constants) (L : Ledger) (b : Block)

def Waits (key : BlockHash) : Prop :=
  key ≠ 0 ∧ (key = (dependents C L b).1 ∨ key = (dependents C L b).2) ∧
    L.blocks.contains key = false

/-- A gap parks the block under a hash it waits for, and a block that makes progress
could fit. -/
structure Sound (now : ℕ) (s : State) (info : UncheckedInfo) (result : ProcessReturn) : Prop where
  parked : result.code = .gapPrevious ∨ result.code = .gapSource →
    ∃ key, processOne C now s info = .ok (put s key { info with verified := result.verified }) ∧
      Waits C s.ledger info.block key
  fits : result.code = .progress → couldFit C s.ledger info.block = true

def LinkFits (h : StateHashables) : Prop :=
  C.isEpochLink h.link = true ∨ h.link = 0 ∨ L.blocks.contains h.link = true

/-- The shape of a block with a gap in the previous block: a legacy block names one, a
receive block is not on top of a frontier that is no head, and the account of a state
block is open if the previous block is there. -/
def PreviousShape : Prop := match b.hashables with
  | .open_ _ => True
  | .state h => L.accounts.contains h.account = true ∨ L.blocks.contains h.previous = false
  | .receive h => h.previous ≠ 0 ∧ L.blocks.contains h.previous = false
  | .send h => h.previous ≠ 0
  | .change h => h.previous ≠ 0

/-- The shape of a block with a gap in the source. A source that is the genesis account
and a link that is an epoch link are not dependencies. -/
def SourceShape : Prop := match b.hashables with
  | .open_ h => h.source ≠ 0 ∧ h.source ≠ C.genesisAccount
  | .receive h => h.source ≠ 0
  | .state h => h.link ≠ 0 ∧ C.isEpochLink h.link = false ∧ isSend L h = some false
  | _ => True

def ProgressShape : Prop := match b.hashables with
  | .state h => Lowers L h → LinkFits C L h ∨ isSend L h = some true
  | _ => True

def Shaped : ProcessResult → Prop
  | .gapPrevious => PreviousShape L b
  | .gapSource => SourceShape C L b
  | .progress => ProgressShape C L b
  | _ => True

end

variable {C : Constants} {L L' : Ledger} {b : Block} {now : ℕ} {verified : SignatureVerification}
  {result : ProcessReturn} {s : State} {info : UncheckedInfo}

section
theorem exists_unpruned (hu : L.pruned = ∅) (h : BlockHash) :
    L.blockOrPrunedExists h = L.blocks.contains h := by
  simp [Ledger.blockOrPrunedExists,hu]

theorem waits_previous (ht : TellsGapPrevious L b) :
    Waits C L b b.previous ↔ PreviousShape L b := by
  obtain ⟨hashables,sig,work⟩ := b
  cases hashables with
  | open_ h => exact ht.elim
  | send h => exact ⟨fun w => w.1,fun h0 => ⟨h0,.inl rfl,ht⟩⟩
  | change h => exact ⟨fun w => w.1,fun h0 => ⟨h0,.inl rfl,ht⟩⟩
  | receive h => exact ⟨fun w => ⟨w.1,w.2.2⟩,fun hs => ⟨hs.1,.inl rfl,hs.2⟩⟩
  | state h =>
    constructor
    · exact fun w => .inr w.2.2
    · intro hs
      refine ⟨ht.1,.inl rfl,?_⟩
      rcases hs with ha | hc
      · exact ht.2.resolve_right (by simp [ha])
      · exact hc

variable {h : StateHashables} {sig : Signature} {work : Work}

theorem isSend_of_positioned (hp : Positioned L h) : ∃ send, isSend L h = some send := by
  unfold isSend
  by_cases h0 : h.previous = 0
  · exact ⟨false,if_pos h0⟩
  · have hc := hp.fits.resolve_left h0
    rw [Std.ExtTreeMap.contains_eq_isSome_getElem?] at hc
    obtain ⟨r,hr⟩ := Option.isSome_iff_exists.mp hc
    rw [if_neg h0,Ledger.balance,if_neg h0,hr]
    exact ⟨_,rfl⟩

theorem dependents_link (hp : h.previous = 0 ∨ L.blocks.contains h.previous = true) :
    (dependents C L ⟨.state h,sig,work⟩).2 =
      if C.isEpochLink h.link = true ∨ isSend L h = some true then 0 else h.link := by
  have hknown : (L.blocks.contains h.previous && isSend L h == some true) = true ↔
      isSend L h = some true := by
    rw [Bool.and_eq_true,beq_iff_eq,and_iff_right_iff_imp]
    intro hs
    apply hp.resolve_left
    intro h0
    rw [isSend,if_pos h0] at hs
    cases hs
  show (if (C.isEpochLink h.link || _) = true then 0 else h.link) = _
  simp [knownSend,hknown]

theorem waits_source (hu : L.pruned = ∅) (ht : TellsGapSource L b) :
    ∃ key, blockSource L b = some key ∧ (Waits C L b key ↔ SourceShape C L b) := by
  obtain ⟨hashables,sig,work⟩ := b
  cases hashables with
  | send h => exact ht.elim
  | change h => exact ht.elim
  | receive h =>
    have hs : L.blocks.contains h.source = false := exists_unpruned hu h.source ▸ ht
    exact ⟨h.source,rfl,fun w => w.1,fun h0 => ⟨h0,.inr rfl,hs⟩⟩
  | open_ h =>
    have hs : L.blocks.contains h.source = false := exists_unpruned hu h.source ▸ ht
    refine ⟨h.source,rfl,?_⟩
    by_cases hg : h.source = C.genesisAccount
    · apply iff_of_false
      · rintro ⟨h0,hd,-⟩
        rw [hg] at hd
        simp only [dependents,dependentBlocks,hg,ne_eq,not_true,if_false,or_self] at hd
        exact C.genesisAccount_ne_zero hd
      · exact fun hsh => hsh.2 hg
    · constructor
      · exact fun w => ⟨w.1,hg⟩
      · intro hsh
        refine ⟨hsh.1,.inl ?_,hs⟩
        simp [dependents,dependentBlocks,hg]
  | state h =>
    obtain ⟨hp,hl,hlow⟩ := ht
    obtain ⟨send,hsend⟩ := isSend_of_positioned hp
    cases send with
    | true =>
      -- the head has a higher balance than the account: the source is read as zero
      refine ⟨0,by simp [blockSource,hsend,Hashables.source],?_⟩
      apply iff_of_false
      · exact fun w => w.1 rfl
      · intro hsh
        have hfalse := hsend.symm.trans hsh.2.2
        cases hfalse
    | false =>
      refine ⟨h.link,by simp [blockSource,hsend],?_⟩
      have hsecond : (dependents C L ⟨.state h,sig,work⟩).2 =
          if C.isEpochLink h.link = true then 0 else h.link := by
        rw [dependents_link hp.fits]
        simp [hsend]
      constructor
      · rintro ⟨h0,hd,hc⟩
        refine ⟨h0,Bool.eq_false_iff.mpr fun he => ?_,hsend⟩
        -- only the previous block is left, which is there
        rw [hsecond,if_pos he] at hd
        have hprev : h.link = h.previous := hd.resolve_right h0
        rcases hp.fits with hz | hin
        · exact h0 (hprev.trans hz)
        · rw [hprev,hin] at hc
          cases hc
      · rintro ⟨h0,he,-⟩
        refine ⟨h0,.inr ?_,?_⟩
        · rw [hsecond,he,if_neg Bool.false_ne_true]
        · rw [← exists_unpruned hu]
          exact hl.resolve_left h0

theorem couldFit_iff : couldFit C L b = true ↔
    ((dependents C L b).1 = 0 ∨ L.blocks.contains (dependents C L b).1 = true) ∧
      ((dependents C L b).2 = 0 ∨ L.blocks.contains (dependents C L b).2 = true) := by
  simp [couldFit]

theorem couldFit_state (hp : h.previous = 0 ∨ L.blocks.contains h.previous = true) :
    couldFit C L ⟨.state h,sig,work⟩ = true ↔ LinkFits C L h ∨ isSend L h = some true := by
  rw [couldFit_iff,dependents_link hp,LinkFits]
  have hfirst : (dependents C L ⟨.state h,sig,work⟩).1 = h.previous := rfl
  rw [hfirst,and_iff_right hp]
  by_cases hc : C.isEpochLink h.link = true ∨ isSend L h = some true
  · rw [if_pos hc]
    refine iff_of_true (.inl rfl) ?_
    rcases hc with he | hs
    · exact .inl (.inl he)
    · exact .inr hs
  · rw [if_neg hc]
    obtain ⟨he,hs⟩ := not_or.mp hc
    constructor
    · exact fun hl => .inl (.inr hl)
    · rintro ((hl | hl) | hl)
      · exact absurd hl he
      · exact hl
      · exact absurd hl hs

theorem couldFit_shape (hu : L.pruned = ∅) (ht : TellsProgress C L b) :
    couldFit C L b = true ↔ ProgressShape C L b := by
  rw [couldFit_iff]
  obtain ⟨hashables,sig,work⟩ := b
  cases hashables with
  | send h => exact iff_of_true ⟨.inr ht,.inl rfl⟩ trivial
  | change h => exact iff_of_true ⟨.inr ht,.inl rfl⟩ trivial
  | receive h => exact iff_of_true ⟨.inr ht.1,.inr (exists_unpruned hu _ ▸ ht.2)⟩ trivial
  | open_ h =>
    have hs : L.blocks.contains h.source = true := exists_unpruned hu h.source ▸ ht
    refine iff_of_true ?_ trivial
    by_cases hg : h.source = C.genesisAccount
    · simp [dependents,dependentBlocks,hg]
    · simpa [dependents,dependentBlocks,hg] using .inr hs
  | state h =>
    obtain ⟨hp,hl⟩ := ht
    rw [← couldFit_iff,couldFit_state hp]
    refine ⟨fun hf _ => hf,fun hsh => ?_⟩
    rcases hl with he | h0 | hc | hlow
    · exact .inl (.inl he)
    · exact .inl (.inr (.inl h0))
    · exact .inl (.inr (.inr (exists_unpruned hu _ ▸ hc)))
    · exact hsh hlow

end

section
variable (hp : process C now s.ledger info.block info.verified = some (result,L'))
include hp

theorem processOne_gapPrevious (hc : result.code = .gapPrevious) : processOne C now s info =
      .ok (put s info.block.previous { info with verified := result.verified }) := by
  have hL : L' = s.ledger := (process_told _ hp).refused (by simp [hc])
  simp [processOne,hp,hc,hL]

theorem processOne_gapSource {key : BlockHash} (hc : result.code = .gapSource)
    (hk : blockSource s.ledger info.block = some key) :
    processOne C now s info = .ok (put s key { info with verified := result.verified }) := by
  have hL : L' = s.ledger := (process_told _ hp).refused (by simp [hc])
  simp [processOne,hp,hc,hL,hk]

end

theorem put_key {k g : BlockHash} {i : UncheckedInfo} (e : put s k i = put s g i) : k = g := by
  have hb : s.buffer++[.insert k i] = s.buffer++[.insert g i] := congrArg State.buffer e
  have hi := List.append_cancel_left hb
  simpa using hi

theorem sound_iff_shaped (hu : s.ledger.pruned = ∅)
    (hp : process C now s.ledger info.block info.verified = some (result,L')) :
    Sound C now s info result ↔ Shaped C s.ledger info.block result.code := by
  have htold : Tells C s.ledger info.block result.code := (process_told _ hp).tells
  cases hc : result.code with
  | gapPrevious =>
    rw [hc] at htold
    rw [Shaped,← waits_previous htold]
    have hone := processOne_gapPrevious hp hc
    constructor
    · intro hs
      obtain ⟨key,hk,hw⟩ := hs.parked (.inl hc)
      rw [hone] at hk
      obtain rfl := put_key (Except.ok.inj hk)
      exact hw
    · exact fun hw => ⟨fun _ => ⟨_,hone,hw⟩,fun hc' => by simp [hc] at hc'⟩
  | gapSource =>
    rw [hc] at htold
    obtain ⟨key,hkey,hw⟩ := waits_source hu htold
    rw [Shaped,← hw]
    have hone := processOne_gapSource hp hc hkey
    constructor
    · intro hs
      obtain ⟨key',hk,hw'⟩ := hs.parked (.inr hc)
      rw [hone] at hk
      obtain rfl := put_key (Except.ok.inj hk)
      exact hw'
    · exact fun hw' => ⟨fun _ => ⟨_,hone,hw'⟩,fun hc' => by simp [hc] at hc'⟩
  | progress =>
    rw [hc] at htold
    rw [Shaped,← couldFit_shape hu htold]
    constructor
    · exact fun hs => hs.fits hc
    · exact fun hf => ⟨fun hg => by simp [hc] at hg,fun _ => hf⟩
  | _ => exact iff_of_true ⟨fun hg => by simp [hc] at hg,fun hg => by simp [hc] at hg⟩ trivial

section
variable {U : Set Hashables} {S : HashSound C U} {X : Nodes}

theorem isSend_of_account (V : Valid S L X) {h : StateHashables} {info : AccountInfo}
    (ha : L.accounts[h.account]? = some info) (hh : h.previous = info.head) :
    isSend L h = some (decide (h.balance < info.balance)) := by
  obtain ⟨g,n,hg,-,hinfo⟩ := V.mirrors.account _ info ha
  have hprev : h.previous = g := by
    rw [hh,hinfo]
    rfl
  have h0 : h.previous ≠ 0 := hprev ▸ built_key_ne_zero V.built hg.1
  rw [isSend,if_neg h0,hprev,V.mirrors.balance V.built hg.1,hinfo]
  rfl

theorem head_of_frontier (V : Valid S L X) {h : BlockHash} (hf : L.frontierGet h ≠ 0) :
    (L.accounts[L.frontierGet h]?.getD {}).head = h := by
  cases he : L.frontiers[h]? with
  | none =>
    rw [Ledger.frontierGet,he] at hf
    exact absurd rfl hf
  | some a =>
    obtain ⟨n,hn,-,rfl⟩ := (V.mirrors.frontier h a).mp he
    obtain ⟨t,ht⟩ := V.mirrors.head V.built hn
    rw [Ledger.frontierGet,he,Option.getD_some,ht]
    rfl

/-- The shapes that matter on a reachable ledger: the block names what it lacks, and an
account is open if its state block is to follow a block that is there. -/
def PlainShape (C : Constants) (L : Ledger) (b : Block) : ProcessResult → Prop
  | .gapPrevious => if b.type = .state
      then L.accounts.contains b.account = true ∨ L.blocks.contains b.previous = false
      else b.previous ≠ 0
  | .gapSource => if b.type = .state then b.link ≠ 0 ∧ C.isEpochLink b.link = false
      else b.source ≠ 0 ∧ (b.type = .open_ → b.source ≠ C.genesisAccount)
  | _ => True

theorem shaped_iff_plain (V : Valid S L X) {code : ProcessResult} (ht : Tells C L b code) :
    Shaped C L b code ↔ PlainShape C L b code := by
  obtain ⟨hashables,sig,work⟩ := b
  cases code with
  | gapPrevious =>
    cases hashables with
    | open_ h => exact ht.elim
    | receive h =>
      refine ⟨fun hs => hs.1,fun h0 => ⟨h0,ht.resolve_right fun hm => ?_⟩⟩
      exact hm.2 (head_of_frontier V hm.1)
    | _ => exact Iff.rfl
  | gapSource =>
    cases hashables with
    | send h => exact ht.elim
    | change h => exact ht.elim
    | receive h => exact ⟨fun hs => ⟨hs,nofun⟩,fun hs => hs.1⟩
    | open_ h => exact ⟨fun hs => ⟨hs.1,fun _ => hs.2⟩,fun hs => ⟨hs.1,hs.2 rfl⟩⟩
    | state h =>
      refine ⟨fun hs => ⟨hs.1,hs.2.1⟩,fun hs => ⟨hs.1,hs.2,?_⟩⟩
      obtain ⟨hp,-,hlow⟩ := ht
      unfold Positioned at hp
      split at hp
      next => exact if_pos hp
      next info ha =>
        rw [isSend_of_account V ha hp.2,decide_eq_false fun hlt => hlow ⟨info,ha,hp.2,hlt⟩]
  | progress =>
    cases hashables with
    | state h =>
      refine iff_of_true ?_ trivial
      rintro ⟨info,ha,hh,hlt⟩
      rw [isSend_of_account V ha hh,decide_eq_true hlt]
      exact .inr rfl
    | _ => exact Iff.rfl
  | _ => exact Iff.rfl

end

/-- A block is parked under a hash it waits for, and could fit if it makes progress,
exactly if its shape is right for the answer of the ledger. On a reachable ledger blocks
that make progress always could fit. -/
theorem parked_waits_iff (hu : s.ledger.pruned = ∅)
    (hp : process C now s.ledger info.block info.verified = some (result,L')) :
    (Sound C now s info result ↔ Shaped C s.ledger info.block result.code) ∧
      ∀ U : Set Hashables, HashSound C U → Reachable C U s.ledger →
        (Sound C now s info result ↔ PlainShape C s.ledger info.block result.code) := by
  have hshaped := sound_iff_shaped hu hp
  refine ⟨hshaped,fun U S hr => hshaped.trans ?_⟩
  obtain ⟨X,V⟩ := reachable_valid S hr
  exact shaped_iff_plain V (process_told _ hp).tells

def orphan : Block := ⟨.state ⟨7,2,9,5,3⟩,0,0⟩

def orphanBlocks : Set Hashables := {sample.genesis.hashables,orphan.hashables}

theorem orphan_sound : HashSound sample orphanBlocks := by
  refine sample_hashSound (.inl rfl) ?_
  rintro a (rfl | rfl) b (rfl | rfl) h <;> first | rfl | cases h

def arrived : State := { ledger := storeInitialize sample 0 }

def fresh (b : Block) : UncheckedInfo := ⟨b,0,.unknown⟩

theorem parked_waits_iff_sample : arrived.ledger.pruned = ∅ ∧ ∃ result,
    (process sample 0 arrived.ledger sampleOpen .unknown).map Prod.fst = some result ∧
    result.code = .gapSource ∧ (Sound sample 0 arrived (fresh sampleOpen) result ↔
      PlainShape sample arrived.ledger sampleOpen result.code) := by
  have hcode : (process sample 0 arrived.ledger sampleOpen .unknown).any
      (fun o => decide (o.1.code = .gapSource)) = true := by decide +kernel
  obtain ⟨o,ho,hc⟩ := (Option.any_eq_true _ _).mp hcode
  refine ⟨rfl,o.1,by rw [ho]; rfl,of_decide_eq_true hc,?_⟩
  have hp : process sample 0 arrived.ledger (fresh sampleOpen).block
    (fresh sampleOpen).verified = some o := ho
  have hiff := parked_waits_iff rfl hp
  exact hiff.2 orphanBlocks orphan_sound (.start 0)

/-- The orphan is parked under the hash of the genesis block, which never arrives
again. -/
theorem parked_for_good : HashSound sample orphanBlocks ∧ orphan.hashables ∈ orphanBlocks ∧
    Reachable sample orphanBlocks arrived.ledger ∧ ∃ result,
    (process sample 0 arrived.ledger orphan .unknown).map Prod.fst = some result ∧
    result.code = .gapPrevious ∧
    processOne sample 0 arrived (fresh orphan) =
      .ok (put arrived 2 { fresh orphan with verified := result.verified }) ∧
    arrived.ledger.blocks.contains 2 = true ∧ ¬ Sound sample 0 arrived (fresh orphan) result := by
  have hcode : (process sample 0 arrived.ledger orphan .unknown).any
      (fun o => decide (o.1.code = .gapPrevious)) = true := by decide +kernel
  obtain ⟨o,ho,hc⟩ := (Option.any_eq_true _ _).mp hcode
  have hp : process sample 0 arrived.ledger (fresh orphan).block (fresh orphan).verified =
    some o := ho
  have hone := processOne_gapPrevious hp (of_decide_eq_true hc)
  have hin : arrived.ledger.blocks.contains 2 = true := by decide +kernel
  refine ⟨orphan_sound,.inr rfl,.start 0,o.1,by rw [ho]; rfl,of_decide_eq_true hc,hone,hin,?_⟩
  intro hs
  obtain ⟨key,hk,hw⟩ := hs.parked (.inl (of_decide_eq_true hc))
  rw [hone] at hk
  obtain rfl : (2 : BlockHash) = key := put_key (Except.ok.inj hk)
  rw [hw.2.2] at hin
  cases hin
end Vxldollar.Parking
