import Vxldollar.Traces
import Vxldollar.Bounded

/-!
# Pending writes of the bounded processor

The cached heights run ahead of the stored ones by the pending writes, each of
which raises one account. A write may be committed in pieces: wherever it
stops, what is stored and what is listed for the observers agree on a growth
of the cemented set.
-/

namespace Vxldollar.BoundedWrites
open Blocks Store Cementing Sources Traces Bounded Function Forest Option Nat

variable {C : Constants} {F : Forest Account BlockHash} {L₀ : Ledger} {p q : Processor}
  {V V' W : Account → ℕ} {b : BlockHash} {env : Environment}

/-- A pending write raises an account to its top block. Its bottom is the next
block to cement, or lies below it. -/
structure Writes (F : Forest Account BlockHash) (V : Account → ℕ) (w : WriteDetails)
    (V' : Account → ℕ) : Prop where
  raise : F.Raise V w.topHash V'
  account : w.account = F.account w.topHash
  height : w.topHeight = F.height w.topHash
  start : w.bottomHeight ≤ V w.account+1
  bottom : F.blockAt w.account w.bottomHeight = some w.bottomHash

theorem Writes.eq {w : WriteDetails} (h : Writes F V w V') :
    V' = update V w.account w.topHeight := by
  rw [h.raise.eq,← h.account,← h.height]

inductive Queue (F : Forest Account BlockHash) :
    (Account → ℕ) → List WriteDetails → (Account → ℕ) → Prop
  | nil (V : Account → ℕ) : Queue F V [] V
  | cons {V V' V'' : Account → ℕ} {w : WriteDetails} {ws : List WriteDetails} :
      Writes F V w V' → Queue F V' ws V'' → Queue F V (w :: ws) V''

theorem Queue.snoc {ws : List WriteDetails} {w : WriteDetails} (h : Queue F V ws V')
    (hw : Writes F V' w W) : Queue F V (ws ++ [w]) W := by
  induction h with
  | nil => exact .cons hw (.nil _)
  | cons hc _ ih => exact .cons hc (ih hw)

structure Tracked (F : Forest Account BlockHash) (L₀ : Ledger) (p : Processor)
    (V : Account → ℕ) : Prop where
  sound : Sound F L₀ p.trace [] (heightsIn p.trace.ledger)
  cached : ∀ (a : Account) (i : ConfirmedInfo), p.accountsConfirmedInfo[a]? = some i →
    i.confirmedHeight = V a ∧ F.blockAt a (V a) = some i.iteratedFrontier
  stored : ∀ a : Account, p.accountsConfirmedInfo[a]? = none → heightsIn p.trace.ledger a = V a
  pending : Queue F (heightsIn p.trace.ledger) p.pendingWrites V

section
theorem unsigned_cast (n : ℕ) : unsigned n = n := by
  rw [unsigned,if_neg (by omega),Int.toNat_natCast]

/-- The counters stay images of the true numbers, past their wrap too. -/
theorem ofNat_counted {i c : ℕ} (h : c ≤ i) :
    Int32.ofNat i-Int32.ofNat c+1 = Int32.ofNat (i-c+1) ∧
      Int32.ofNat c+Int32.ofNat (i-c+1) = Int32.ofNat (i+1) := by
  have hsum : c+(i-c+1) = i+1 := by omega
  constructor
  · rw [Int32.ofNat_add,Int32.ofNat_sub _ _ h]
    rfl
  · rw [← Int32.ofNat_add,hsum]

variable {a : Account} {H n i c : ℕ} {t : BlockHash} {last : Bool} {amount : ℕ} {s : Progress}

/-- A pending write of `n` blocks under work: `i` blocks above `H` are listed, and `c` of them
are stored. -/
structure Cementing (F : Forest Account BlockHash) (L₀ : Ledger) (V : Account → ℕ) (a : Account)
    (H n : ℕ) (last : Bool) (i c : ℕ) (s : Progress) : Prop where
  sound : Sound F L₀ s.batch.trace s.batch.cementedBlocks (update V a (H+i))
  iterated : s.numBlocksIterated = Int32.ofNat i
  total : s.totalBlocksCemented = Int32.ofNat c
  stored : heightsIn s.batch.trace.ledger = update V a (H+c)
  counted : c ≤ i
  frontier : F.blockAt a (if i = n then H+i else H+i+1) = some s.frontier
  owned : s.batch.owned = true ∨ (i = n ∧ last = true ∧ s.batch.cementedBlocks = [])

variable (env amount) in
theorem commitPartly_spec (hb : F.mem b) (ha : F.account b = a) (hh : F.height b = H+(i+1))
    {renew : Bool} (hs : Sound F L₀ s.batch.trace s.batch.cementedBlocks
      (update V a (H+(i+1))))
    (hiter : s.numBlocksIterated = Int32.ofNat i) (htotal : s.totalBlocksCemented = Int32.ofNat c)
    (hst : heightsIn s.batch.trace.ledger = update V a (H+c)) (hc : c ≤ i)
    (hf : s.frontier = b) (hi : i+1 < 2^31) :
    ∃ s', commitPartly env amount a (H+1) renew s = s' ∧
      Sound F L₀ s'.batch.trace s'.batch.cementedBlocks (update V a (H+(i+1))) ∧
      s'.numBlocksIterated = Int32.ofNat i ∧ s'.totalBlocksCemented = Int32.ofNat (i+1) ∧
      heightsIn s'.batch.trace.ledger = update V a (H+(i+1)) ∧
      s'.frontier = b ∧ s'.batch.cementedBlocks = [] ∧ s'.batch.owned = renew := by
  have hnow : heightsIn s.batch.trace.ledger (F.account b) = H+c := by
    rw [hst,ha,update_self]
  obtain ⟨hnum,hsum⟩ := ofNat_counted hc
  have hcount : unsigned (Int32.ofNat (i-c+1)).toInt = i-c+1 := by
    rw [Int32.toInt_ofNat_of_lt (by omega),unsigned_cast]
  have hheight : unsigned ((H+1 : ℕ)+(Int32.ofNat (i+1)).toInt-1) = F.height b := by
    rw [Int32.toInt_ofNat_of_lt hi,hh,← unsigned_cast (H+(i+1))]
    congr 1
    omega
  have hput := hs.put (i-c+1) hb (by omega) (by omega)
  have hall : heightsIn (s.batch.trace.put (F.account b) (F.height b) b (i-c+1)).ledger =
      update V a (H+(i+1)) := by
    rw [heightsIn_put,hst,ha,hh,update_idem]
  rw [← hall] at hput
  refine ⟨_,rfl,?_,hiter,?_,?_,hf,rfl,rfl⟩
  · unfold commitPartly
    dsimp only
    rw [hiter,htotal,hnum,hsum,hcount,hheight,hf,← hall,← ha]
    exact hput.commit.notify.congr rfl rfl rfl
  · unfold commitPartly
    dsimp only
    rw [hiter,htotal,hnum,hsum]
  · unfold commitPartly
    dsimp only
    rw [hiter,htotal,hnum,hsum,hcount,hheight,hf,← hall,← ha]
    rfl

theorem Cementing.advance (hr : F.Raise V t V') (ha : F.account t = a) {r : StoredBlock}
    (h : Cementing F L₀ V a (V a) n last i c s) (hn : V a+n = F.height t) (hi : i < n)
    (hget : L₀.blocks[s.frontier]? = some r) :
    Sound F L₀ s.batch.trace (s.batch.cementedBlocks ++ [r]) (update V a (V a+(i+1))) := by
  obtain ⟨hm,hba,hbh⟩ := blockAt_eq.mp h.frontier
  rw [if_neg hi.ne] at hbh
  refine h.sound.extend [s.frontier] (.cons hget .nil) (.cons ⟨hm,?_,?_,rfl⟩ ?_)
  · rw [hba,update_self,hbh]
  · intro x hx
    have hup : ∀ c, V c ≤ update V a (V a+i) c := by
      intro c
      rw [update_apply]
      split
      · rename_i e
        rw [e]
        exact le_add_right _ _
      · exact le_refl _
    rcases lt_or_eq_of_le (show F.height s.frontier ≤ F.height t by omega) with hlt | heq
    · rw [hr.plain _ hm (hba.trans ha.symm) (by rw [ha]; omega) hlt] at hx
      cases hx
    · rw [F.unique hm hr.mem (hba.trans ha.symm) heq] at hx
      exact (hr.source x hx).mono hup
  · rw [hba,hbh,update_idem]
    exact .nil _

variable (env amount last) in
/-- One more block of a pending write is listed, and stored when the batch is full. -/
theorem cementStep_spec (B : Backed C F L₀) (hr : F.Raise V t V') (ha : F.account t = a)
    (h : Cementing F L₀ V a (V a) n last i c s) (hn : V a+n = F.height t) (hi : i < n)
    (hshort : n < 2^31) :
    ∃ s' c', cementStep env amount a (V a+1) n last s = some (.inl s') ∧
      Cementing F L₀ V a (V a) n last (i+1) c' s' := by
  obtain ⟨hm,hba,hbh⟩ := blockAt_eq.mp h.frontier
  rw [if_neg hi.ne] at hbh
  obtain ⟨r,hget,hread⟩ := B.get _ hm
  have hsound := h.advance hr ha hn hi hget
  have howned : s.batch.owned = true := h.owned.resolve_right (fun ho => hi.ne ho.1)
  have hcount : s.numBlocksIterated.toInt = i := by
    rw [h.iterated,Int32.toInt_ofNat_of_lt (by omega)]
  have hlast : decide ((n : ℤ)-s.numBlocksIterated.toInt = 1) = decide (i+1 = n) := by
    rw [hcount,decide_eq_decide]
    omega
  -- the batch with the block, committed when it is full
  obtain ⟨s₂,c',hs₂,h1,h2,h3,h4,h5,h6,h7⟩ : ∃ s₂ c',
      (if (s.batch.cementedBlocks ++ [r]).length > batchLimit s.batch.trace.batchWriteSize
        then commitPartly env amount a (V a+1) (!(decide (i+1 = n) && last))
          { s with batch := { s.batch with cementedBlocks := s.batch.cementedBlocks ++ [r] } }
        else { s with batch :=
          { s.batch with cementedBlocks := s.batch.cementedBlocks ++ [r] } }) = s₂ ∧
      Sound F L₀ s₂.batch.trace s₂.batch.cementedBlocks (update V a (V a+(i+1))) ∧
      s₂.numBlocksIterated = Int32.ofNat i ∧ s₂.totalBlocksCemented = Int32.ofNat c' ∧
      heightsIn s₂.batch.trace.ledger = update V a (V a+c') ∧ c' ≤ i+1 ∧
      s₂.frontier = s.frontier ∧
      (s₂.batch.owned = true ∨ (i+1 = n ∧ last = true ∧ s₂.batch.cementedBlocks = [])) := by
    split
    · obtain ⟨s',hs',c1,c2,c3,c4,c5,c6,c7⟩ := commitPartly_spec env amount
        (s := { s with batch :=
          { s.batch with cementedBlocks := s.batch.cementedBlocks ++ [r] } })
        hm hba (by omega) hsound h.iterated h.total h.stored h.counted rfl (by omega)
      refine ⟨s',i+1,hs',c1,c2,c3,c4,le_refl _,c5,?_⟩
      rw [c7,c6]
      by_cases h0 : i+1 = n <;> cases last <;> simp [h0]
    · exact ⟨_,c,rfl,hsound,h.iterated,h.total,h.stored,h.counted.trans (le_succ i),rfl,
        .inl howned⟩
  have hrun : cementStep env amount a (V a+1) n last s = some (.inl
      { (if i+1 = n then s₂ else { s₂ with frontier := r.sideband.successor }) with
        numBlocksIterated := Int32.ofNat (i+1) }) := by
    unfold cementStep
    rw [if_neg (by rw [hcount]; omega),h.sound.written.blocks,hget,map_some]
    dsimp only
    rw [hlast,hs₂]
    simp only [decide_eq_true_eq]
    have hnext : ∀ u : Progress, u.numBlocksIterated = Int32.ofNat i →
        u.numBlocksIterated+1 = Int32.ofNat (i+1) := by
      intro u hu
      rw [hu,Int32.ofNat_add]
      rfl
    split <;> rw [hnext _ h2]
  refine ⟨_,c',hrun,?_⟩
  by_cases h0 : i+1 = n
  · rw [if_pos h0]
    refine ⟨h1,rfl,h3,h4,h5,?_,h7⟩
    rw [if_pos h0]
    exact blockAt_eq.mpr ⟨by rw [h6]; exact hm,by rw [h6]; exact hba,by rw [h6]; omega⟩
  · rw [if_neg h0]
    refine ⟨h1,rfl,h3,h4,h5,?_,h7⟩
    rw [if_neg h0]
    rcases hread.successor with ⟨-,htop⟩ | ⟨g1,g2,g3⟩
    · have := htop t hr.mem (by rw [ha,hba])
      omega
    · exact blockAt_eq.mpr ⟨g1,g2.trans hba,by rw [g3]; omega⟩

variable (env amount last) in
/-- The blocks of a pending write are cemented one by one. -/
theorem cementChain_spec (B : Backed C F L₀) (hr : F.Raise V t V') (ha : F.account t = a)
    (h : Cementing F L₀ V a (V a) n last 0 0 s) (hn : V a+n = F.height t) (hshort : n < 2^31) :
    ∃ s' c, cementChain env amount a (V a+1) n last s = some s' ∧
      Cementing F L₀ V a (V a) n last n c s' := by
  obtain ⟨s',hs',c,hc⟩ := Loop.loop_total
    (fun k s => ∃ i c, Cementing F L₀ V a (V a) n last i c s ∧ i ≤ n ∧ k = n-i)
    (fun s' => ∃ c, Cementing F L₀ V a (V a) n last n c s')
    (fun k s ⟨i,c,hs,hi,hk⟩ => by
      rcases lt_or_eq_of_le hi with hlt | heq
      · obtain ⟨s',c',hstep,hs'⟩ := cementStep_spec env last amount B hr ha hs hn hlt hshort
        exact .inl ⟨s',n-(i+1),hstep,⟨i+1,c',hs',hlt,rfl⟩,by omega⟩
      · rw [heq] at hs
        refine .inr ⟨s,?_,c,hs⟩
        rw [cementStep,if_pos (by rw [hs.iterated,Int32.toInt_ofNat_of_lt hshort])])
    (n+1) n s ⟨0,0,h,zero_le n,rfl⟩ (lt_succ_self n)
  exact ⟨s',c,hs',hc⟩

/-- The counter never comes to 2^31, so a write of so many blocks does not end. -/
theorem cementChain_short {start : ℕ} {s' : Progress}
    (h : cementChain env amount a start n last s = some s') : n < 2^31 := by
  refine Loop.loop_partial (fun _ => True) (fun _ => n < 2^31) (fun _ _ _ _ => trivial)
    (fun u r _ hu => ?_) (n+1) s s' trivial h
  unfold cementStep at hu
  split at hu
  · have := u.numBlocksIterated.toInt_lt
    omega
  · obtain ⟨r,-,hr⟩ := map_eq_some_iff.mp hu
    cases hr

end

variable {w : WriteDetails} {ws : List WriteDetails} {s : Batch} {last : Bool} {amount : ℕ}

theorem cementStart_spec (B : Backed C F L₀) {L : Ledger} (hL : Written F L₀ L)
    (h : Writes F (heightsIn L) w V') :
    ∃ x, cementStart L w = some (x,F.height w.topHash-heightsIn L w.account,
      heightsIn L w.account+1) ∧ F.blockAt w.account (heightsIn L w.account+1) = some x := by
  have habove := h.raise.above
  rw [← h.account] at habove
  obtain ⟨hm,hba,hbh⟩ := blockAt_eq.mp h.bottom
  have hpos := F.positive hm
  have hstart := h.start
  unfold cementStart
  dsimp only
  split
  · rename_i hgt
    change w.bottomHeight > heightsIn L w.account at hgt
    have e : w.bottomHeight = heightsIn L w.account+1 := by omega
    refine ⟨w.bottomHash,?_,e ▸ h.bottom⟩
    rw [e,h.height]
    congr 3
    omega
  · rename_i hle
    change ¬ w.bottomHeight > heightsIn L w.account at hle
    obtain ⟨hfm,hfa,hfh⟩ := hL.frontier_at (a := w.account) (by omega)
    obtain ⟨r,hr,hread⟩ := (hL.backed B).get _ hfm
    refine ⟨r.sideband.successor,?_,?_⟩
    · rw [hr,h.height]
      rfl
    · rcases hread.successor with ⟨-,htop⟩ | ⟨g1,g2,g3⟩
      · have := htop w.topHash h.raise.mem (by rw [hfa,h.account])
        omega
      · exact blockAt_eq.mpr ⟨g1,g2.trans hfa,by rw [g3,hfh]⟩

theorem Writes.cementing (hs : Sound F L₀ s.trace s.cementedBlocks (heightsIn s.trace.ledger))
    (ho : s.owned = true) (h : Writes F (heightsIn s.trace.ledger) w V') {x : BlockHash}
    (hx : F.blockAt w.account (heightsIn s.trace.ledger w.account+1) = some x) :
    Cementing F L₀ (heightsIn s.trace.ledger) w.account (heightsIn s.trace.ledger w.account)
      (F.height w.topHash-heightsIn s.trace.ledger w.account) last 0 0 ⟨s,x,0,0⟩ := by
  have habove := h.raise.above
  rw [← h.account] at habove
  refine ⟨?_,rfl,rfl,?_,le_refl 0,?_,.inl ho⟩
  · rw [add_zero,update_eq_self]
    exact hs
  · rw [add_zero,update_eq_self]
  · rw [if_neg (by omega)]
    exact hx

variable (env amount last) in
theorem cementWrite_spec (B : Backed C F L₀)
    (hs : Sound F L₀ s.trace s.cementedBlocks (heightsIn s.trace.ledger)) (ho : s.owned = true)
    (h : Writes F (heightsIn s.trace.ledger) w V')
    (hshort : w.topHeight < heightsIn s.trace.ledger w.account+2^31) :
    ∃ s', cementWrite env amount w last s = some s' ∧ heightsIn s'.trace.ledger = V' ∧
      Sound F L₀ s'.trace s'.cementedBlocks V' ∧
      (s'.owned = true ∨ (last = true ∧ s'.cementedBlocks = [])) := by
  have habove := h.raise.above
  have hacc := h.account
  rw [← hacc] at habove
  rw [h.height] at hshort
  obtain ⟨x,hx,hxb⟩ := cementStart_spec B hs.written h
  have htop : heightsIn s.trace.ledger w.account+
      (F.height w.topHash-heightsIn s.trace.ledger w.account) = F.height w.topHash := by omega
  obtain ⟨s',c,hrun,hc⟩ := cementChain_spec env last amount B h.raise hacc.symm
    (h.cementing hs ho hxb) htop (by omega)
  have hV : update (heightsIn s.trace.ledger) w.account (F.height w.topHash) = V' := by
    rw [h.raise.eq,hacc]
  have hsound := hc.sound
  rw [htop,hV] at hsound
  obtain ⟨hfm,hfa,hfh⟩ := blockAt_eq.mp hc.frontier
  rw [if_pos rfl,htop] at hfh
  have hstored := hc.stored
  have hcounted := hc.counted
  have howned : s'.batch.owned = true ∨ (last = true ∧ s'.batch.cementedBlocks = []) :=
    hc.owned.imp_right And.right
  have hrest : unsigned ((F.height w.topHash-heightsIn s.trace.ledger w.account : ℕ)-
      s'.totalBlocksCemented.toInt) =
      F.height w.topHash-heightsIn s.trace.ledger w.account-c := by
    rw [hc.total,Int32.toInt_ofNat_of_lt (by omega),← cast_sub hcounted,unsigned_cast]
  unfold cementWrite
  rw [if_pos (by rw [h.height]; exact habove),hx]
  simp only [bind_eq_bind,bind_some,hrun,pure_def,some.injEq,
    exists_eq_left',hrest]
  split
  · refine ⟨?_,?_,howned⟩
    · rw [heightsIn_put,hstored,update_idem,h.height,hV]
    · rw [h.height,← hfh,← hfa]
      refine hsound.put _ hfm ?_ ?_
      · rw [hstored,hfa,update_self]
        omega
      · rw [hstored,hfa,update_self]
        omega
  · refine ⟨?_,hsound,howned⟩
    have e : heightsIn s.trace.ledger w.account+c = F.height w.topHash := by omega
    rw [hstored,e,hV]

theorem cementWrite_short (B : Backed C F L₀) (hL : Written F L₀ s.trace.ledger)
    (h : Writes F (heightsIn s.trace.ledger) w V') {s' : Batch}
    (hw : cementWrite env amount w last s = some s') :
    w.topHeight < heightsIn s.trace.ledger w.account+2^31 := by
  have habove := h.raise.above
  rw [← h.account] at habove
  obtain ⟨x,hx,-⟩ := cementStart_spec B hL h
  unfold cementWrite at hw
  rw [if_pos (by rw [h.height]; exact habove),hx] at hw
  obtain ⟨_,⟨⟩,hw⟩ := bind_eq_some_iff.mp hw
  obtain ⟨t,ht,-⟩ := bind_eq_some_iff.mp hw
  have := cementChain_short ht
  rw [h.height]
  omega

/-- No pending write takes 2^31 blocks. -/
def Short : (Account → ℕ) → List WriteDetails → Prop
  | _, [] => True
  | V, w :: ws => w.topHeight < V w.account+2^31 ∧
      Short (update V w.account w.topHeight) ws

theorem Short.snoc {V₀ : Account → ℕ} (h : Short V₀ ws) (hq : Queue F V₀ ws V)
    (hw : w.topHeight < V w.account+2^31) : Short V₀ (ws ++ [w]) := by
  induction hq with
  | nil => exact ⟨hw,trivial⟩
  | @cons V₁ V₂ V₃ d ds hd _ ih =>
    have hrest := h.2
    rw [← hd.eq] at hrest
    have := ih hrest hw
    rw [hd.eq] at this
    exact ⟨h.1,this⟩

theorem Queue.short {V₀ : Account → ℕ} (hq : Queue F V₀ ws V)
    (hh : ∀ b, F.mem b → F.height b < 2^31) : Short V₀ ws := by
  induction hq with
  | nil => trivial
  | @cons V₁ V₂ V₃ d ds hd _ ih =>
    have hd' := hh _ hd.raise.mem
    rw [hd.eq] at ih
    exact ⟨by rw [hd.height]; omega,ih⟩

variable (env amount) in
/-- Pending writes are cemented in turn, unless one of them is too long to end. -/
theorem cementWrites_spec (B : Backed C F L₀)
    (hs : Sound F L₀ s.trace s.cementedBlocks (heightsIn s.trace.ledger))
    (h : Queue F (heightsIn s.trace.ledger) ws V) (ho : s.owned = true ∨ s.cementedBlocks = [])
    (ho' : ws ≠ [] → s.owned = true) (infos : Std.ExtTreeMap Account ConfirmedInfo)
    (hok : Short (heightsIn s.trace.ledger) ws ∨ cementWrites env amount ws infos s ≠ none) :
    ∃ infos' s', cementWrites env amount ws infos s = some (infos',s') ∧
      heightsIn s'.trace.ledger = V ∧ Sound F L₀ s'.trace s'.cementedBlocks V ∧
      (s'.owned = true ∨ s'.cementedBlocks = []) ∧
      ∀ (a : Account) (i : ConfirmedInfo), infos'[a]? = some i → infos[a]? = some i := by
  induction ws generalizing s infos with
  | nil =>
    cases h
    exact ⟨infos,s,rfl,rfl,hs,ho,fun _ _ hi => hi⟩
  | cons w ws ih =>
    cases h with
    | cons hw hrest =>
      have hshort : w.topHeight < heightsIn s.trace.ledger w.account+2^31 := by
        rcases hok with hok | hok
        · exact hok.1
        · obtain ⟨o,ho⟩ := ne_none_iff_exists'.mp hok
          obtain ⟨s₁,hs₁,-⟩ := bind_eq_some_iff.mp ho
          exact cementWrite_short B hs.written hw hs₁
      obtain ⟨s₁,he,rfl,hs₁,ho₁⟩ := cementWrite_spec env ws.isEmpty amount B hs (ho' (by simp))
        hw hshort
      have hrun : cementWrites env amount (w :: ws) infos s =
          cementWrites env amount ws (forget infos w) s₁ := by
        rw [cementWrites,he,bind_some]
      obtain ⟨infos',s',he',hh,hs',hend,hsub⟩ := ih hs₁ hrest (ho₁.imp_right And.right) (by
          intro hne
          rcases ho₁ with ho₁ | ho₁
          · exact ho₁
          · exact absurd (List.isEmpty_iff.mp ho₁.1) hne) (forget infos w) (by
          rw [hrun] at hok
          refine hok.imp_left (fun hok => ?_)
          rw [hw.eq]
          exact hok.2)
      refine ⟨infos',s',hrun.trans he',hh,hs',hend,fun a i hi => ?_⟩
      have := hsub a i hi
      unfold forget at this
      split at this
      · split at this
        · rw [Table.get_erase] at this
          split at this
          · cases this
          · exact this
        · exact this
      · exact this

/-- Wherever the writes stand, what was committed and what is listed is sound. -/
theorem Writing.sound {t : Batch} (hw : Writing env amount ws s t) (B : Backed C F L₀)
    (hs : Sound F L₀ s.trace s.cementedBlocks (heightsIn s.trace.ledger)) (ho : s.owned = true)
    (h : Queue F (heightsIn s.trace.ledger) ws V) (hshort : Short (heightsIn s.trace.ledger) ws) :
    ∃ W, Sound F L₀ t.trace t.cementedBlocks W := by
  induction hw with
  | @here d ds s frontier num start t habove hstart hcomes =>
    cases h with
    | cons hd hrest =>
      obtain ⟨x,hx,hxb⟩ := cementStart_spec B hs.written hd
      have hlt := hd.raise.above
      rw [← hd.account] at hlt
      have hlen := hshort.1
      rw [hd.height] at hlen
      cases hx.symm.trans hstart
      have hinv := hcomes.invariant (fun o => ∀ t, o = .inl t → ∃ i c, i ≤ F.height d.topHash-
          heightsIn s.trace.ledger d.account ∧ Cementing F L₀ (heightsIn s.trace.ledger) d.account
          (heightsIn s.trace.ledger d.account)
          (F.height d.topHash-heightsIn s.trace.ledger d.account) ds.isEmpty i c t) ?_ ?_ t rfl
      · obtain ⟨i,c,-,hc⟩ := hinv
        exact ⟨_,hc.sound⟩
      · rintro _ ⟨⟩
        exact ⟨0,0,zero_le _,hd.cementing hs ho hxb⟩
      · rintro u _ ih hu u' rfl
        obtain ⟨i,c,hi,hc⟩ := ih u rfl
        rcases lt_or_eq_of_le hi with hi | hi
        · obtain ⟨u'',c',hstep,hc'⟩ := cementStep_spec env ds.isEmpty amount B hd.raise
            hd.account.symm hc (by omega) hi (by omega)
          cases hstep.symm.trans hu
          exact ⟨i+1,c',hi,hc'⟩
        · rw [cementStep,if_pos (by
            rw [hc.iterated,hi,Int32.toInt_ofNat_of_lt (by omega)])] at hu
          cases hu
  | @later d ds s s' t hwrite hlater ih =>
    cases h with
    | cons hd hrest =>
      obtain ⟨s₁,he,rfl,hs₁,ho₁⟩ := cementWrite_spec env ds.isEmpty amount B hs ho hd hshort.1
      cases he.symm.trans hwrite
      have hds : ds ≠ [] := by
        rintro rfl
        cases hlater
      refine ih hs₁ (ho₁.resolve_right (fun h => hds (List.isEmpty_iff.mp h.1))) hrest ?_
      rw [hd.eq]
      exact hshort.2

/-- No write that the processor has queued takes 2^31 blocks. -/
def Fits (p : Processor) : Prop := Short (heightsIn p.trace.ledger) p.pendingWrites

variable (env) in
/-- Flushing leaves nothing pending and the confirmed heights as they were. -/
theorem cementBlocks_spec (B : Backed C F L₀) (T : Tracked F L₀ p V)
    (hok : Fits p ∨ cementBlocks env p ≠ none) :
    ∃ q, cementBlocks env p = some q ∧ Tracked F L₀ q V ∧ q.pendingWrites = [] := by
  obtain ⟨infos,s,he,hh,hs,ho,hsub⟩ := cementWrites_spec env (p.trace.batchWriteSize/10)
    (s := ⟨p.trace,[],true⟩) B T.sound T.pending
    (.inl rfl) (fun _ => rfl) p.accountsConfirmedInfo (by
      refine hok.imp_right (fun hne hnone => hne ?_)
      rw [cementBlocks,hnone]
      rfl)
  rw [← hh] at hs
  -- blocks that are listed are handed over
  have hend : Sound F L₀ (if s.owned && !s.cementedBlocks.isEmpty
      then s.trace.commit.notify s.cementedBlocks else s.trace.commit) []
      (heightsIn s.trace.ledger) := by
    split
    · exact hs.commit.notify
    · rename_i hn
      have hnil : s.cementedBlocks = [] := by
        rcases ho with ho | ho
        · simpa [ho] using hn
        · exact ho
      rw [hnil] at hs
      exact hs.commit
  have hledger : (if s.owned && !s.cementedBlocks.isEmpty
      then s.trace.commit.notify s.cementedBlocks else s.trace.commit).ledger =
      s.trace.ledger := by
    split <;> rfl
  unfold cementBlocks
  dsimp only
  rw [he,map_some]
  refine ⟨_,rfl,⟨?_,?_,?_,?_⟩,rfl⟩
  · dsimp only [Trace.next]
    rw [hledger]
    exact hend.congr hledger.symm rfl rfl
  · exact fun a i hi => T.cached a i (hsub a i hi)
  · intro a _
    dsimp only [Trace.next]
    rw [hledger,hh]
  · dsimp only [Trace.next]
    rw [hledger,hh]
    exact .nil V

theorem Tracked.retrace (T : Tracked F L₀ p V) {t : Trace} (hl : t.ledger = p.trace.ledger)
    (hc : t.commits = p.trace.commits) (hn : t.notified = p.trace.notified) :
    Tracked F L₀ { p with trace := t } V where
  sound := by
    have := T.sound.congr hl hc hn
    rw [← hl] at this
    exact this
  cached := T.cached
  stored := by
    change ∀ a, _ → heightsIn t.ledger a = V a
    rw [hl]
    exact T.stored
  pending := by
    change Queue F (heightsIn t.ledger) _ _
    rw [hl]
    exact T.pending

theorem flush_spec (B : Backed C F L₀) (finished : Bool) (T : Tracked F L₀ p V)
    (hok : Fits p ∨ flush env p finished ≠ none) :
    ∃ q, flush env p finished = some q ∧ Tracked F L₀ q V ∧ (Fits p → Fits q) := by
  have hT : Tracked F L₀ { p with trace := p.trace.next } V := T.retrace rfl rfl rfl
  unfold flush at hok ⊢
  dsimp only at hok ⊢
  split
  · rename_i hdue
    rw [if_pos hdue] at hok
    obtain ⟨q,hq,hTq,hqp⟩ := cementBlocks_spec env B hT hok
    refine ⟨q,hq,hTq,fun _ => ?_⟩
    rw [Fits,hqp]
    trivial
  · exact ⟨_,rfl,hT,fun h => h⟩

section
variable (T : Tracked F L₀ p V) (hp : p.pendingWrites = [])
include T hp

theorem Tracked.flushed :
    heightsIn p.trace.ledger = V := by
  have hq := T.pending
  rw [hp] at hq
  cases hq
  rfl

theorem clearProcessVars_spec :
    Tracked F L₀ (clearProcessVars p) V where
  sound := T.sound
  cached a i hi := by simp [clearProcessVars] at hi
  stored a _ := congrFun (T.flushed hp) a
  pending := T.pending

end

theorem idle_spec (B : Backed C F L₀) (T : Tracked F L₀ p V)
    (hok : Fits p ∨ idle env p ≠ none) :
    ∃ q, idle env p = some q ∧ Tracked F L₀ q V ∧ q.pendingWrites = [] := by
  unfold idle at hok ⊢
  by_cases hp : p.pendingWrites = []
  · exact ⟨clearProcessVars p,by simp [hp],clearProcessVars_spec T hp,hp⟩
  · rw [if_neg (by rwa [List.isEmpty_iff])] at hok ⊢
    obtain ⟨q,hq,hT,hqp⟩ := cementBlocks_spec env B T
      (hok.imp_right (fun hne hnone => hne (by rw [hnone]; rfl)))
    exact ⟨clearProcessVars q,by rw [hq]; rfl,clearProcessVars_spec hT hqp,hqp⟩

theorem Tracked.queue (T : Tracked F L₀ p V) (hw : Writes F V w V') :
    Tracked F L₀ { p with
      accountsConfirmedInfo := p.accountsConfirmedInfo.insert w.account ⟨w.topHeight,w.topHash⟩
      pendingWrites := p.pendingWrites ++ [w] } V' where
  sound := T.sound
  cached a i hi := by
    dsimp only at hi
    rw [Table.get_insert] at hi
    rw [hw.raise.eq,← hw.account,update_apply]
    split at hi
    · rename_i e
      rw [if_pos e]
      cases hi
      exact ⟨hw.height,blockAt_eq.mpr ⟨hw.raise.mem,by rw [e,hw.account],rfl⟩⟩
    · rename_i e
      rw [if_neg e]
      exact T.cached a i hi
  stored a ha := by
    dsimp only at ha
    rw [Table.get_insert] at ha
    split at ha
    · cases ha
    · rename_i e
      rw [hw.raise.eq,← hw.account,update_of_ne e]
      exact T.stored a ha
  pending := T.pending.snoc hw

end Vxldollar.BoundedWrites
