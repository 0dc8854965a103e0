import Vxldollar.BoundedSpec
import Vxldollar.Rows

/-!
# A pending write too long for its counters

`cement_blocks` counts the blocks of a pending write in variables of type `int`. Past 2^31
blocks they are negative, and a commit in the middle of the write then stores a height near
2^64. A chain of blocks that change nothing leads to such a write.
-/

namespace Vxldollar.LongWrites
open Blocks Store Confirmation Cementing Sources Traces Bounded BoundedWrites BoundedWalk
  BoundedSpec CementingRuns Forest Option Nat

/-- The write queue is free, and a batch takes about as long as it should. -/
def steady : Environment := fun _ => ⟨false,false,true,225⟩

variable {C : Constants} {F : Forest Account BlockHash} {L₀ : Ledger} {t : BlockHash}

section
variable {a : Account} {H n size i c amount : ℕ} {last : Bool} {s : Progress}

/-- A long write of an account above height `H`: `i` blocks are listed and `c` are stored, with
what the last commit says. -/
structure Counting (F : Forest Account BlockHash) (L₀ : Ledger) (a : Account) (H size i c : ℕ)
    (s : Progress) : Prop where
  blocks : s.batch.trace.ledger.blocks = L₀.blocks
  written : s.batch.trace.batchWriteSize = size
  count : s.batch.trace.ledger.cache.cementedCount = L₀.cache.cementedCount+c
  iterated : s.numBlocksIterated = Int32.ofNat i
  total : s.totalBlocksCemented = Int32.ofNat c
  listed : c+s.batch.cementedBlocks.length = i
  room : s.batch.cementedBlocks.length ≤ batchLimit size
  frontier : F.blockAt a (H+i+1) = some s.frontier
  commit : c ≠ 0 → ∃ M ∈ s.batch.trace.commits,
    M.cache.cementedCount = L₀.cache.cementedCount+c ∧ ∃ f, F.blockAt a (H+c) = some f ∧
      M.confirmationHeight[a]? = some ⟨unsigned (H+(Int32.ofNat c).toInt),f⟩

variable (amount) in
theorem commitPartly_counts (hsize : s.batch.trace.batchWriteSize = size)
    (hcount : s.batch.trace.ledger.cache.cementedCount = L₀.cache.cementedCount+c)
    (hi : s.numBlocksIterated = Int32.ofNat i) (ht : s.totalBlocksCemented = Int32.ofNat c)
    (hc : c ≤ i) (hshort : i-c+1 < 2^31) :
    (commitPartly steady amount a (H+1) true s).totalBlocksCemented = Int32.ofNat (i+1) ∧
    (commitPartly steady amount a (H+1) true s).batch.trace.batchWriteSize = size ∧
    ∃ M, (commitPartly steady amount a (H+1) true s).batch.trace.commits =
        s.batch.trace.commits ++ [M] ∧
      (commitPartly steady amount a (H+1) true s).batch.trace.ledger = M ∧
      M.blocks = s.batch.trace.ledger.blocks ∧
      M.cache.cementedCount = L₀.cache.cementedCount+(i+1) ∧
      M.confirmationHeight[a]? =
        some ⟨unsigned (H+(Int32.ofNat (i+1)).toInt),s.frontier⟩ := by
  obtain ⟨hnum,hsum⟩ := ofNat_counted hc
  have hadd : unsigned (Int32.ofNat (i-c+1)).toInt = i-c+1 := by
    rw [Int32.toInt_ofNat_of_lt hshort,unsigned_cast]
  refine ⟨?_,hsize,_,rfl,rfl,rfl,?_,?_⟩
  · change s.totalBlocksCemented+(s.numBlocksIterated-s.totalBlocksCemented+1) = _
    rw [hi,ht,hnum,hsum]
  · change s.batch.trace.ledger.cache.cementedCount+
      unsigned (s.numBlocksIterated-s.totalBlocksCemented+1).toInt = _
    rw [hi,ht,hnum,hadd,hcount]
    omega
  · change (s.batch.trace.ledger.confirmationHeight.insert a ⟨unsigned ((H+1 : ℕ)+
      (s.totalBlocksCemented+(s.numBlocksIterated-s.totalBlocksCemented+1)).toInt-1),
      s.frontier⟩)[a]? = _
    rw [hi,ht,hnum,hsum,Table.get_insert,if_pos rfl]
    congr 3
    omega

variable (amount last) in
theorem Counting.step (B : Backed C F L₀) (h : Counting F L₀ a H size i c s) (hn : 2^31 < n)
    (hsize : batchLimit size+1 < 2^31) (ht : F.mem t) (ha : F.account t = a)
    (hi : H+i+1 < F.height t) :
    ∃ s' c', cementStep steady amount a (H+1) n last s = some (.inl s') ∧
      Counting F L₀ a H size (i+1) c' s' := by
  obtain ⟨hm,hba,hbh⟩ := blockAt_eq.mp h.frontier
  obtain ⟨r,hget,hread⟩ := B.get _ hm
  have hnext : F.blockAt a (H+(i+1)+1) = some r.sideband.successor := by
    rcases hread.successor with ⟨-,htop⟩ | ⟨g1,g2,g3⟩
    · have := htop t ht (by rw [ha,hba])
      omega
    · exact blockAt_eq.mpr ⟨g1,g2.trans hba,by rw [g3]; omega⟩
  have hlt := s.numBlocksIterated.toInt_lt
  have hlisted := h.listed
  have hroom := h.room
  have hiter : s.numBlocksIterated+1 = Int32.ofNat (i+1) := by
    rw [h.iterated,Int32.ofNat_add]
    rfl
  -- the write is so long that its last block is never reached
  have hlast : decide ((n : ℤ)-s.numBlocksIterated.toInt = 1) = false := decide_eq_false (by omega)
  unfold cementStep
  rw [if_neg (by omega),h.blocks,hget,map_some]
  dsimp only
  rw [hlast]
  by_cases hfull : (s.batch.cementedBlocks ++ [r]).length >
      batchLimit s.batch.trace.batchWriteSize
  · rw [if_pos hfull]
    obtain ⟨htotal,hsize',M,hcommits,hledger,hblocks,hcount,hheight⟩ := commitPartly_counts amount
      (s := { s with batch :=
        { s.batch with cementedBlocks := s.batch.cementedBlocks ++ [r] } })
      h.written h.count h.iterated h.total (by omega) (by omega)
    refine ⟨_,i+1,rfl,?_,hsize',?_,hiter,htotal,add_zero _,zero_le _,hnext,fun _ => ?_⟩
    · exact (congrArg Ledger.blocks hledger).trans (hblocks.trans h.blocks)
    · exact (congrArg (fun L => L.cache.cementedCount) hledger).trans hcount
    · exact ⟨M,hcommits ▸ List.mem_append_right _ (List.mem_singleton_self M),hcount,
        s.frontier,h.frontier,hheight⟩
  · rw [if_neg hfull]
    rw [List.length_append,List.length_singleton,h.written] at hfull
    refine ⟨_,c,rfl,h.blocks,h.written,h.count,hiter,h.total,?_,?_,hnext,h.commit⟩
    · change c+(s.batch.cementedBlocks ++ [r]).length = i+1
      rw [List.length_append,List.length_singleton]
      omega
    · change (s.batch.cementedBlocks ++ [r]).length ≤ _
      rw [List.length_append,List.length_singleton]
      omega

variable (amount last) in
theorem counting_comes (B : Backed C F L₀) (h : Counting F L₀ a H size 0 0 s) (hn : 2^31 < n)
    (hsize : batchLimit size+1 < 2^31) (ht : F.mem t) (ha : F.account t = a)
    (hi : H+i < F.height t) :
    ∃ s' c, Loop.Comes (cementStep steady amount a (H+1) n last) s (.inl s') ∧
      Counting F L₀ a H size i c s' := by
  induction i with
  | zero => exact ⟨s,0,.start,h⟩
  | succ i ih =>
    obtain ⟨s₁,c,hs₁,h₁⟩ := ih (by omega)
    obtain ⟨s₂,c₂,hs₂,h₂⟩ := h₁.step amount last B hn hsize ht ha (by omega)
    exact ⟨s₂,c₂,hs₁.round hs₂,h₂⟩

theorem unsigned_wrapped (h : 2^31 ≤ c) (h' : H+c < 2^32) :
    unsigned (H+(Int32.ofNat c).toInt) = 2^64-2^32+H+c := by
  have hint : (Int32.ofNat c).toInt = (c : ℤ)-2^32 := by
    rw [Int32.toInt_ofNat',Int.bmod_def,show Int32.size = 2^32 from rfl]
    omega
  rw [hint,unsigned,if_pos (by omega),word]
  omega

end

section
variable {fuel size : ℕ} {r : StoredBlock} {v : Visit}

theorem visit_fresh (hr : heightsIn L₀ r.accountCalculated < r.sideband.height)
    (hv : visit t r (begin (fresh L₀ size)) = some v) : v.processor = fresh L₀ size := by
  unfold visit at hv
  obtain ⟨r',hr',hv⟩ := bind_eq_some_iff.mp hv
  obtain ⟨x,-,rfl⟩ := map_eq_some_iff.mp hv
  cases hr'
  have hnone : ¬ (L₀.confirmationHeightGet r.accountCalculated).height ≥ r.sideband.height :=
    Nat.not_le_of_lt hr
  change (heightOf t (begin (fresh L₀ size)) t r).1 = _
  unfold heightOf
  dsimp only [begin,fresh,clearProcessVars]
  simp [hnone]

variable (g : Grounds C F L₀) (hfuel : ∀ b, F.mem b → F.height b < fuel)
include g hfuel

variable (size) in
/-- A stretch of plain blocks that is too long is handed on as one pending write. -/
theorem long_prepared (ht : F.mem t) (hr : L₀.blocks[t]? = some r)
    (hlow : heightsIn L₀ (F.account t) < F.height t)
    (hplain : PlainTo F (F.account t) (heightsIn L₀ (F.account t)) (F.height t)) :
    ∃ v i u x, visit t r (begin (fresh L₀ size)) = some v ∧
      iterateVisit maxItems C fuel (begin (fresh L₀ size)) v = some (false,i) ∧
      prepare v i = some u ∧ F.blockAt (F.account t) (heightsIn L₀ (F.account t)+1) = some x ∧
      u.processor.trace = (fresh L₀ size).trace ∧ u.processor.pendingWrites =
        [⟨F.account t,heightsIn L₀ (F.account t)+1,x,F.height t,t⟩] := by
  have hstand : Standing F L₀ _ t (begin (fresh L₀ size)) _ := Standing.start (bounded_start g)
  obtain ⟨-,hread⟩ := g.backed.record hr
  obtain ⟨v,hv,hvis⟩ := visit_spec g.backed hstand ht hr
  have hu : ¬ F.Covered (heightsIn L₀) t := fun hc => absurd hc.2 (by omega)
  have hproc := visit_fresh (by rw [hread.account,hread.height]; exact hlow) hv
  obtain ⟨hal,⟨hit,i⟩,hi,hend⟩ := iterateVisit_spec maxItems g.backed (hstand.target_mem ht)
    hvis hu hfuel
  rcases hend with ⟨hf,-,htop,-⟩ | ⟨-,e,he⟩
  swap
  · -- a receive would lie in the stretch
    have hw := he.waiting
    have hsrc := hw.source
    have howner := hw.account.trans hw.owner.symm
    have habove := hw.above
    have hbelow := hw.below
    rw [← hw.account,← hw.height] at habove
    rw [← hw.height,he.top] at hbelow
    rw [he.top] at howner
    rw [hplain _ hw.mem howner (howner ▸ habove) hbelow] at hsrc
    cases hsrc
  obtain ⟨hb,hbot⟩ := hvis.bottom hu
  dsimp only at hf htop
  subst hf
  have hprep : prepare v i = some ⟨{ v.processor with
      accountsConfirmedInfo := v.processor.accountsConfirmedInfo.insert (F.account t)
        ⟨F.height t,t⟩
      pendingWrites := v.processor.pendingWrites ++
        [⟨F.account t,heightsIn L₀ (F.account t)+1,v.current,F.height t,t⟩] },
      eraseCheckpoint i.checkpoints t,none⟩ := by
    refine prepare_chain ?_ hvis.receive
    unfold prepareChain
    rw [hal,if_neg (by simp),htop,hvis.tracked.sound.written.blocks]
    change Option.map _ L₀.blocks[t]? = _
    rw [hr,map_some,hread.height,hvis.info,hvis.account,hb]
    exact congrArg some (if_pos hlow)
  refine ⟨v,i,_,v.current,hv,hi,hprep,hbot,?_,?_⟩
  · rw [hproc]
  · rw [hproc]
    rfl

/-- Past 2^31 blocks a commit of the pending write holds heights that no count reaches. -/
theorem long_shows (ht : F.mem t)
    (hplain : PlainTo F (F.account t) (heightsIn L₀ (F.account t)) (F.height t))
    (hsize : batchLimit size+1 < 2^31) (hcount : L₀.cache.cementedCount < 2^63)
    (hlong : heightsIn L₀ (F.account t)+2^31+batchLimit size < F.height t)
    (hheight : F.height t < 2^32) (hbatch : size ≤ 2^31) :
    ∃ tr, Shows C steady fuel (fun _ _ => True) (fresh L₀ size) tr ∧
      ∃ M ∈ tr.commits, M.cache.cementedCount < heights M := by
  obtain ⟨r,hr,-⟩ := g.backed.get t ht
  obtain ⟨v,i,u,x,hv,hi,hu,hx,htrace,hpending⟩ := long_prepared size g hfuel ht hr
    (by omega) hplain
  have hstart : Counting F L₀ (F.account t) (heightsIn L₀ (F.account t)) size 0 0
      ⟨⟨(fresh L₀ size).trace.next,[],true⟩,x,0,0⟩ :=
    ⟨rfl,rfl,rfl,rfl,rfl,rfl,zero_le _,hx,fun h0 => absurd rfl h0⟩
  obtain ⟨s,c,hs,hc⟩ := counting_comes (size/10) true g.backed hstart
    (n := F.height t-(heightsIn L₀ (F.account t)+1)+1) (i := 2^31+batchLimit size) (by omega)
    hsize ht rfl (by omega)
  refine ⟨s.batch.trace,.flushing (.added .start hr trivial) hv hi (.inl rfl) hu ?_ ?_,?_⟩
  · have htotal : F.height t-(heightsIn L₀ (F.account t)+1)+1 ≥ size := by omega
    unfold due
    rw [hpending,htrace]
    simp [steady,fresh,htotal]
  · unfold Cements
    dsimp only
    rw [hpending,htrace]
    refine .here ?_ ?_ hs
    · change heightsIn L₀ (F.account t) < F.height t
      omega
    · unfold cementStart
      exact if_pos (lt_succ_self _)
  · have hlisted := hc.listed
    have hroom := hc.room
    obtain ⟨M,hM,hcount',f,-,hstored⟩ := hc.commit (by omega)
    have hle : unsigned _ ≤ heights M :=
      Table.le_total (fun _ (i : ConfirmationHeightInfo) => i.height) _ _ _ hstored
    rw [unsigned_wrapped (by omega) (by omega)] at hle
    exact ⟨M,hM,by omega⟩

end

section
open Vxldollar.Lattice Process ProcessSpec Runs Rows BitVec

def longest : ℕ := 2^31+2^15

/-- Blocks of the genesis account that change nothing. -/
def chain : Row ℕ where
  first := 0
  next := succ
  Within j := j ≤ longest
  code j := j+2
  previous j := j.casesOn none some
  received _ := none
  source _ := none
  opening _ := 0
  owner _ := 1
  height := succ
  balance _ := allOnes 128
  link _ := 0

abbrev blocks : Set Hashables := chain.blocks

theorem lawful : Lawful chain where
  start := by
    refine ⟨zero_le _,rfl,?_⟩
    rw [Row.node,genesisNode,Node.mk.injEq]
    have hall : difference (allOnes 128) 0 = allOnes 128 := by decide
    exact ⟨rfl,rfl,rfl,hall,rfl,rfl,rfl,rfl,rfl,rfl⟩
  inj := add_right_cancel
  ge _ := le_add_left _ _
  lt {j} hj := by
    simp only [chain,longest] at hj ⊢
    omega
  next {i j} := by
    simp only [chain]
    omega
  within {i j} hi h := by
    simp only [chain] at hi h ⊢
    omega
  owned _ := show (1 : Account) ≠ 0 by decide
  follows {i j} h := by
    cases i with
    | zero => cases h
    | succ i =>
      cases h
      exact ⟨rfl,rfl,rfl,rfl⟩
  opens {i} _ hne h := by
    cases i with
    | zero => exact absurd rfl hne
    | succ i => cases h
  receives := nofun
  once := nofun
  keeps {i} hne _ _ := by
    cases i with
    | zero => exact absurd rfl hne
    | succ i => exact ⟨rfl,rfl⟩
  sourced := nofun
  unsourced _ _ _ h0 := absurd rfl h0

variable {j : ℕ} {X : Nodes} {L : Ledger} {P : Ledger → Prop}

/-- The chain can be placed, and whatever processing keeps holds of its ledger. -/
theorem placed (hstart : P (storeInitialize counting 0))
    (hstep : ∀ L b result L', P L → b.hashables ∈ blocks → EpochOpens counting L b →
      process counting 0 L b .unknown = some (result,L') → P L') (hj : j ≤ longest) :
    ∃ L X, P L ∧ Placed lawful j L X := by
  induction j with
  | zero => exact ⟨_,_,hstart,placed_first lawful⟩
  | succ j ih =>
    obtain ⟨L,X,hP,h⟩ := ih (le_of_succ_le hj)
    obtain ⟨b,result,L',hU,ho,hp,h'⟩ := h.next hj
    exact ⟨L',_,hstep L b result L' hP hU ho hp,h'⟩

/-- On the chain, the bounded processor commits heights that are too high. -/
theorem placed_wraps (h : Placed lawful longest L X) :
    (∀ (b : BlockHash) (r : StoredBlock), L.blocks[b]? = some r → r.sideband.height < longest+2) ∧
    ∀ fuel, longest+2 ≤ fuel → ∃ tr,
      Shows counting steady fuel (fun _ _ => True) (fresh L minimumBatchWriteSize) tr ∧
      ∃ M ∈ tr.commits, M.cache.cementedCount < heights M := by
  obtain ⟨F,g⟩ := reachable_grounds lawful.sound lawful.grounded h.reachable
  have hread : ∀ b, F.mem b → F.height b ≤ longest+1 ∧ F.source b = none := by
    intro b hb
    obtain ⟨i,hi,rfl⟩ := (h.reads g).mp hb
    obtain ⟨-,hheight,hsource⟩ := h.record g (le_refl longest) hi
    rw [hheight]
    exact ⟨succ_le_succ (le_of_add_le_add_right hi),hsource⟩
  have hlimit : batchLimit minimumBatchWriteSize = 18022 := by decide
  have hmem : F.mem (chain.key longest) := (h.reads g).mpr ⟨_,le_refl _,rfl⟩
  obtain ⟨hacc,hheight,-⟩ := h.record g (le_refl longest) (le_refl _)
  have hcount : L.cache.cementedCount = 1 := by
    rw [h.valid.cementedCount]
    unfold heights
    rw [h.heights]
    exact (start_valid lawful.sound 0).cementedCount.symm
  have hstored : heightsIn L (F.account (chain.key longest)) = 1 := by
    rw [hacc,h.cemented]
    exact if_pos rfl
  refine ⟨fun b r hr => ?_,fun fuel hfuel => long_shows g (fun b hb => ?_) hmem ?_ ?_ ?_ ?_ ?_ ?_⟩
  · obtain ⟨hb,hr⟩ := g.backed.record hr
    rw [hr.height]
    exact lt_succ_of_le (hread b hb).1
  · exact lt_of_lt_of_le (lt_succ_of_le (hread b hb).1) hfuel
  · exact fun c hc _ _ _ => (hread c hc).2
  · rw [hlimit]
    decide
  · rw [hcount]
    decide
  · rw [hstored,hlimit,hheight]
    decide
  · rw [hheight]
    decide
  · decide

end
end Vxldollar.LongWrites
