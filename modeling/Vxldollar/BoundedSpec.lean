import Vxldollar.BoundedWalk

/-!
# Correctness of the bounded processor

Every round makes one of five moves: it stands on a block that is confirmed
already, it reaches the top level, it confirms the receive that waited, it
stores another receive, or it confirms what lies below its first receive. All
of them keep the path of waiting receives, so a process that returns has
confirmed the added block and exactly what it pulls in.
-/

namespace Vxldollar.BoundedSpec
open Blocks Store Cementing Sources Bounded BoundedWrites BoundedWalk List Option Function Forest
  Nat

variable {C : Constants} {F : Forest Account BlockHash} {L₀ : Ledger} {V V' V₁ Vs : Account → ℕ}
  {original t x : BlockHash} {w w' : Walk} {e : ReceiveSourcePair} {es : List ReceiveSourcePair}
  {env : Environment} {fuel : ℕ} {p : Processor} {cs : List BlockHash}
  {originalBlock : StoredBlock} {v : Visit} {cap : ℕ}

def target (original : BlockHash) (w : Walk) : BlockHash := (getNextBlock original w).1.top

structure Standing (F : Forest Account BlockHash) (L₀ : Ledger) (Vs : Account → ℕ)
    (original : BlockHash) (w : Walk) (V : Account → ℕ) : Prop where
  tracked : Tracked F L₀ w.processor V
  waiting : ∀ e ∈ w.receiveSourcePairs, Waiting F V e
  linked : Linked (target original w) w.receiveSourcePairs
  next : ∀ n, w.nextInReceiveChain = some n → n.nextHeight = V (F.account n.top)+1 ∧
    ∃ y, n.next = some y ∧ F.blockAt (F.account n.top) (V (F.account n.top)+1) = some y
  chain : ∀ n, w.nextInReceiveChain = some n → F.Pull Vs original n.top
  tops : ∀ e ∈ w.receiveSourcePairs, F.Pull Vs original e.receiveDetails.topLevel
  checkpoints : ∀ c ∈ w.checkpoints, F.Pull Vs original c
  raised : F.Grows Vs original V
  first : w.firstIter = true → target original w = original

section
variable (h : Standing F L₀ Vs original w V)
include h

theorem Standing.mono (a : Account) : Vs a ≤ V a :=
  h.raised.le a

theorem Standing.pulled (he : e ∈ w.receiveSourcePairs) :
    F.Pull Vs original e.receiveDetails.hash := by
  have hw := h.waiting e he
  refine (h.tops e he).lower hw.mem (hw.account.trans hw.owner.symm)
    (by rw [hw.height]; exact hw.below) (fun hc => hw.uncovered (hc.mono h.mono))

end

theorem pull_or_covered (hm : F.mem original) :
    F.Covered Vs original ∨ F.Pull Vs original original := by
  by_cases hc : F.Covered Vs original
  · exact .inl hc
  · exact .inr (Pull.self hm hc)

section
variable (h : Standing F L₀ Vs original w V) (hm : F.mem original)
include h hm

theorem Standing.target :
    F.Covered Vs (target original w) ∨ F.Pull Vs original (target original w) := by
  unfold BoundedSpec.target getNextBlock
  split
  · exact .inr (h.chain _ ‹_›)
  · rename_i e es hn hp
    have he : e ∈ w.receiveSourcePairs := by
      rw [hp]
      exact mem_cons_self
    by_cases hc : F.Covered Vs e.sourceHash
    · exact .inl hc
    · exact .inr ((h.pulled he).source (h.waiting e he).source hc)
  · rename_i c cs hn hp hcs
    exact .inr (h.checkpoints c (by rw [hcs]; exact mem_cons_self))
  · exact pull_or_covered hm

theorem Standing.target_mem :
    F.mem (BoundedSpec.target original w) := by
  rcases h.target hm with hc | hp
  · exact hc.1
  · exact hp.mem

theorem Standing.target_pulled (hu : ¬ F.Covered V (BoundedSpec.target original w)) :
    F.Pull Vs original (BoundedSpec.target original w) :=
  (h.target hm).resolve_left (fun hc => hu (hc.mono h.mono))

end

theorem receive_cases (original : BlockHash) (w : Walk) :
    ((getNextBlock original w).2 = none ∧ (w.nextInReceiveChain = none →
      w.receiveSourcePairs = [])) ∨
    (∃ e es, w.nextInReceiveChain = none ∧ w.receiveSourcePairs = e :: es ∧
      (getNextBlock original w).2 = some e.receiveDetails ∧
      target original w = e.sourceHash) := by
  unfold target getNextBlock
  split
  · rename_i n _ hn
    exact .inl ⟨rfl,fun h => by rw [hn] at h; cases h⟩
  · rename_i e es hn hp
    exact .inr ⟨e,es,hn,hp,rfl,rfl⟩
  · rename_i c cs hn hp hcs
    exact .inl ⟨rfl,fun _ => hp⟩
  · rename_i hn hp hcs
    exact .inl ⟨rfl,fun _ => hp⟩

structure Visited (F : Forest Account BlockHash) (L₀ : Ledger) (V : Account → ℕ)
    (original : BlockHash) (w : Walk) (v : Visit) : Prop where
  tracked : Tracked F L₀ v.processor V
  fits : Fits w.processor → Fits v.processor
  target : v.target.top = target original w
  receive : v.receive = (getNextBlock original w).2
  account : v.account = F.account (BoundedSpec.target original w)
  height : v.block.sideband.height = F.height (BoundedSpec.target original w)
  info : v.info.height = V (F.account (BoundedSpec.target original w))
  covered : F.Covered V (BoundedSpec.target original w) →
    v.current = BoundedSpec.target original w
  bottom : ¬ F.Covered V (BoundedSpec.target original w) →
    v.bottomHeight = V (F.account (BoundedSpec.target original w))+1 ∧
    F.blockAt (F.account (BoundedSpec.target original w))
      (V (F.account (BoundedSpec.target original w))+1) = some v.current

theorem heightOf_spec {r : StoredBlock} (T : Tracked F L₀ w.processor V) :
    Tracked F L₀ (heightOf original w t r).1 V ∧
    (Fits w.processor → Fits (heightOf original w t r).1) ∧
    (heightOf original w t r).2.height = V r.accountCalculated ∧
    (V r.accountCalculated ≠ 0 → F.blockAt r.accountCalculated (V r.accountCalculated) =
      some (heightOf original w t r).2.frontier) := by
  unfold heightOf
  dsimp only
  cases hi : w.processor.accountsConfirmedInfo[r.accountCalculated]? with
  | some i =>
    obtain ⟨h1,h2⟩ := T.cached _ i hi
    exact ⟨T,fun hf => hf,h1,fun _ => h2⟩
  | none =>
    have h1 := T.stored _ hi
    refine ⟨?_,?_,h1,fun h0 => ?_⟩
    · dsimp only
      split
      · exact T.retrace rfl rfl rfl
      · exact T
    · dsimp only
      split <;> exact fun hf => hf
    · obtain ⟨f1,f2,f3⟩ := T.sound.written.frontier_at
        (by rw [h1]; exact h0)
      exact blockAt_eq.mpr ⟨f1,f2,f3.trans h1⟩

theorem visit_spec (B : Backed C F L₀) (h : Standing F L₀ Vs original w V)
    (hm : F.mem original) (hor : L₀.blocks[original]? = some originalBlock) :
    ∃ v, visit original originalBlock w = some v ∧ Visited F L₀ V original w v := by
  have BL := h.tracked.sound.written.backed B
  have ht := h.target_mem hm
  obtain ⟨r,hr,hread⟩ := BL.get _ ht
  have hblock : (if w.firstIter then some originalBlock else
      w.processor.trace.ledger.blocks[(getNextBlock original w).1.top]?) = some r := by
    split
    · rename_i hf
      have e := h.first hf
      rw [e,h.tracked.sound.written.blocks,hor] at hr
      exact hr
    · exact hr
  have hacc : r.accountCalculated = F.account (target original w) := hread.account
  obtain ⟨hT,hfits,hheight,hfr⟩ := heightOf_spec h.tracked
  rw [hacc] at hheight hfr
  obtain ⟨hcov,hbot⟩ := bottom_spec (w := w) BL ht hread rfl hheight hfr (by
      intro hn
      unfold getNextBlock
      cases hc : w.nextInReceiveChain with
      | none => simp [hc] at hn
      | some n => exact h.next n hc)
  unfold visit
  dsimp only
  rw [hblock,bind_some,hacc]
  by_cases hle : F.height (target original w) ≤ V (F.account (target original w))
  · obtain ⟨k,hk⟩ := hcov hle
    refine ⟨_,congrArg (Option.map _) hk,hT,hfits,rfl,rfl,rfl,hread.height,hheight,fun _ => rfl,
      fun hn => absurd ⟨ht,hle⟩ hn⟩
  · obtain ⟨x,hx,hb⟩ := hbot (Nat.lt_of_not_le hle)
    refine ⟨_,congrArg (Option.map _) hx,hT,hfits,rfl,rfl,rfl,hread.height,hheight,
      fun hc => absurd hc.2 hle,fun _ => ⟨rfl,hb⟩⟩

section
variable {s : Iteration} {d : Preparation} {q : Processor}

theorem prepareChain_spec (cs : List BlockHash) (B : Backed C F L₀) (T : Tracked F L₀ p V)
    (hr : F.Raise V x V') (hx : d.topMostNonReceive = x) (hc : d.alreadyCemented = false)
    (hconf : d.confirmationHeight = V (F.account x)) (hacc : d.account = F.account x)
    (hb : d.bottomHeight = V (F.account x)+1)
    (hbot : F.blockAt (F.account x) (V (F.account x)+1) = some d.bottomMost) :
    ∃ q, prepareChain ⟨p,cs,none⟩ d = some ⟨q,eraseCheckpoint cs x,none⟩ ∧
      Tracked F L₀ q V' ∧ (F.height x < V (F.account x)+2^31 → Fits p → Fits q) := by
  obtain ⟨r,hr',hread⟩ := (T.sound.written.backed B).get _ hr.mem
  have hw : Writes F V ⟨F.account x,V (F.account x)+1,d.bottomMost,F.height x,x⟩ V' :=
    ⟨hr,rfl,rfl,le_refl _,hbot⟩
  refine ⟨_,?_,T.queue hw,fun hshort hf => Short.snoc hf T.pending hshort⟩
  unfold prepareChain
  rw [hc,if_neg (by simp),hx,hr',map_some,hread.height,hconf,if_pos hr.above,hacc,hb]

theorem prepareReceive_spec {q : Prepared} (T : Tracked F L₀ q.processor V) (h : Waiting F V e)
    (hs : F.Covered V e.sourceHash) :
    Tracked F L₀ (prepareReceive q e.receiveDetails).processor
      (update V e.receiveDetails.account e.receiveDetails.height) ∧
    (F.height e.receiveDetails.hash < V (F.account e.receiveDetails.hash)+2^31 →
      Fits q.processor → Fits (prepareReceive q e.receiveDetails).processor) := by
  have hw : Writes F V ⟨e.receiveDetails.account,e.receiveDetails.bottomHeight,
      e.receiveDetails.bottomMost,e.receiveDetails.height,e.receiveDetails.hash⟩
      (update V e.receiveDetails.account e.receiveDetails.height) :=
    ⟨h.raised hs,h.account.symm,h.height.symm,h.start,h.bottom⟩
  refine ⟨T.queue hw,fun hshort hf => Short.snoc hf T.pending ?_⟩
  rw [h.account,h.height] at hshort
  exact hshort

variable (hq : prepareChain ⟨v.processor,s.checkpoints,none⟩ ⟨s.topMostNonReceive,
  v.alreadyCemented,v.info.height,v.account,v.bottomHeight,v.current⟩ = some ⟨q,cs,none⟩)
include hq

theorem prepare_chain (hv : v.receive = none) : prepare v s = some ⟨q,cs,none⟩ := by
  unfold prepare prepareIteratedBlocksForCementing
  rw [hq,hv]
  rfl

theorem prepare_receive (hv : v.receive = some e.receiveDetails) :
    prepare v s = some (prepareReceive ⟨q,cs,none⟩ e.receiveDetails) := by
  unfold prepare prepareIteratedBlocksForCementing
  rw [hq,hv]
  rfl

end

section
inductive Move (cap : ℕ) (F : Forest Account BlockHash) (original : BlockHash) (V : Account → ℕ)
    (w : Walk) (V' : Account → ℕ) (w' : Walk) : Prop
  /-- The block is confirmed and no receive waits for it. -/
  | settled (covered : F.Covered V (target original w))
      (unused : w.nextInReceiveChain = none → w.receiveSourcePairs = []) (heights : V' = V)
      (next : w'.nextInReceiveChain = none) (pairs : w'.receiveSourcePairs = w.receiveSourcePairs)
      (checkpoints : w'.checkpoints = w.checkpoints)
  /-- The chain is confirmed up to the block, and no receive waits for it. -/
  | reached (raise : F.Raise V (target original w) V')
      (unused : w.nextInReceiveChain = none → w.receiveSourcePairs = [])
      (next : w'.nextInReceiveChain = none) (pairs : w'.receiveSourcePairs = w.receiveSourcePairs)
      (checkpoints : w'.checkpoints = eraseCheckpoint w.checkpoints (target original w))
  /-- The receive at the back of the buffer is confirmed after its source. -/
  | received (e : ReceiveSourcePair) (V₁ : Account → ℕ) (cs : List BlockHash)
      (back : w.nextInReceiveChain = none ∧ w.receiveSourcePairs = e :: w'.receiveSourcePairs)
      (source : (F.Covered V e.sourceHash ∧ V₁ = V ∧ cs = w.checkpoints) ∨
        (F.Raise V e.sourceHash V₁ ∧ cs = eraseCheckpoint w.checkpoints e.sourceHash))
      (raise : F.Raise V₁ e.receiveDetails.hash V')
      (next : w'.nextInReceiveChain = if e.receiveDetails.next.isSome then
        some ⟨e.receiveDetails.topLevel,e.receiveDetails.next,e.receiveDetails.height+1⟩ else none)
      (checkpoints : w'.checkpoints = if e.receiveDetails.next.isSome then cs
        else eraseCheckpoint cs e.receiveDetails.hash)
  /-- A receive below the block is stored. -/
  | stored (e : ReceiveSourcePair) (waiting : Waiting F V e)
      (top : e.receiveDetails.topLevel = target original w) (heights : V' = V)
      (next : w'.nextInReceiveChain = none)
      (pairs : w'.receiveSourcePairs = pushBack cap e w.receiveSourcePairs)
      (checkpoints : w'.checkpoints = if w'.receiveSourcePairs.length % cap = 0
        then pushBack cap (target original w) w.checkpoints else w.checkpoints)
  /-- The blocks below the first receive are confirmed. The receive is kept
  only if the round went on with a chain. -/
  | partly (x : BlockHash) (e : ReceiveSourcePair) (raise : F.Raise V x V')
      (same : F.account x = F.account (target original w))
      (lower : F.height x < F.height (target original w))
      (waiting : Waiting F V' e) (top : e.receiveDetails.topLevel = target original w)
      (empty : w.receiveSourcePairs = []) (next : w'.nextInReceiveChain = none)
      (pairs : w'.receiveSourcePairs = if w.nextInReceiveChain.isNone then [] else [e])
      (checkpoints : w'.checkpoints = eraseCheckpoint w.checkpoints x)

variable {s : Iteration} {u : Prepared}

/-- What a round hands to `flush`, and the move it makes with whatever comes back. -/
structure Prepares (cap : ℕ) (F : Forest Account BlockHash) (L₀ : Ledger) (Vs : Account → ℕ)
    (original : BlockHash) (w : Walk) (V : Account → ℕ) (v : Visit) (s : Iteration)
    (u : Prepared) (V' : Account → ℕ) : Prop where
  prepared : prepare v s = some u
  tracked : Tracked F L₀ u.processor V'
  fits : Fits w.processor → F.Brief (2^31) Vs original → Fits u.processor
  move : ∀ p, Move cap F original V w V' (leave w s u p)
  covered : F.Covered V' v.current

theorem round_covered (h : Standing F L₀ Vs original w V)
    (hv : Visited F L₀ V original w v) (hc : F.Covered V (target original w)) :
    ∃ s u V', iterateVisit cap C fuel w v = some (false,s) ∧
      Prepares cap F L₀ Vs original w V v s u V' := by
  have hal : v.alreadyCemented = true := by
    unfold Visit.alreadyCemented
    rw [hv.info,hv.height]
    exact decide_eq_true hc.2
  have hprep : prepareChain ⟨v.processor,w.checkpoints,none⟩
      ⟨v.current,v.alreadyCemented,v.info.height,v.account,v.bottomHeight,v.current⟩ =
      some ⟨v.processor,w.checkpoints,none⟩ := by
    rw [hal]
    rfl
  have hit : iterateVisit cap C fuel w v =
      some (false,⟨v.current,v.current,w.checkpoints,w.receiveSourcePairs⟩) := by
    unfold iterateVisit
    dsimp only
    rw [if_pos hal]
  have hcur : F.Covered V v.current := by
    rw [hv.covered hc]
    exact hc
  rcases receive_cases original w with ⟨hr,hunused⟩ | ⟨e,es,hn,hp,hr,ht⟩
  · refine ⟨_,_,V,hit,prepare_chain hprep (hv.receive.trans hr),hv.tracked,
      fun hf _ => hv.fits hf,fun p => .settled hc hunused rfl rfl ?_ rfl,hcur⟩
    dsimp only [leave]
    split
    · rename_i hn
      rw [hunused (isNone_iff_eq_none.mp hn)]
      rfl
    · rfl
  · have he : e ∈ w.receiveSourcePairs := by
      rw [hp]
      exact mem_cons_self
    have hwait := h.waiting e he
    have hraise := hwait.raised (ht ▸ hc)
    obtain ⟨hT,hfits⟩ := prepareReceive_spec (q := ⟨v.processor,w.checkpoints,none⟩) hv.tracked
      hwait (ht ▸ hc)
    refine ⟨_,_,_,hit,prepare_receive hprep (hv.receive.trans hr),hT,
      fun hf hbrief => hfits (hbrief.raise h.mono (h.pulled he) hraise) (hv.fits hf),
      fun p => .received e V w.checkpoints ⟨hn,?_⟩ (.inl ⟨ht ▸ hc,rfl,rfl⟩) hraise rfl rfl,
      hcur.mono hraise.le⟩
    dsimp only [leave]
    rw [hn,hp]
    rfl

theorem iterateVisit_spec (cap : ℕ) (B : Backed C F L₀) (hm : F.mem (target original w))
    (hv : Visited F L₀ V original w v) (hu : ¬ F.Covered V (target original w))
    (hfuel : ∀ b, F.mem b → F.height b < fuel) :
    v.alreadyCemented = false ∧ ∃ s, iterateVisit cap C fuel w v = some s ∧
      Ends cap F V (target original w) w.checkpoints w.receiveSourcePairs s := by
  have hlt : V (F.account (target original w)) < F.height (target original w) := by
    by_contra hle
    exact hu ⟨hm,Nat.le_of_not_lt hle⟩
  have hal : v.alreadyCemented = false := by
    unfold Visit.alreadyCemented
    rw [hv.info,hv.height]
    exact decide_eq_false (Nat.not_le_of_lt hlt)
  obtain ⟨hb,hbot⟩ := hv.bottom hu
  refine ⟨hal,?_⟩
  unfold iterateVisit
  dsimp only
  rw [hal,if_neg (by simp),hv.account,hv.target,hb]
  exact iterate_spec (hv.tracked.sound.written.backed B) hm hbot hlt (hfuel _ hm)

theorem pushBack_eq {α : Type} (hcap : 2 ≤ cap) (y : α) (ys : List α) :
    pushBack cap y ys = y :: ys.take (cap-1) := by
  rw [pushBack,take_cons (by omega)]

section
variable (B : Backed C F L₀) (h : Standing F L₀ Vs original w V) (hm : F.mem original)
  (hv : Visited F L₀ V original w v)
include B h hm hv

section
variable (hu : ¬ F.Covered V (target original w)) (hal : v.alreadyCemented = false)
include hu hal

theorem round_reached
    (hs : Ends cap F V (target original w) w.checkpoints w.receiveSourcePairs (false,s)) :
    ∃ u V', Prepares cap F L₀ Vs original w V v s u V' := by
  rcases hs with ⟨-,hplain,htop,hcs,hps⟩ | ⟨hf,-⟩
  swap
  · cases hf
  have hmem := h.target_mem hm
  have hlt := (Forest.not_covered_iff hmem).mp hu
  obtain ⟨hb,hbot⟩ := hv.bottom hu
  have hraise : F.Raise V (target original w) (update V
      (F.account (target original w)) (F.height (target original w))) :=
    Forest.Raise.plainly hmem hlt hplain
  obtain ⟨q,hq,hT,hfits⟩ := prepareChain_spec s.checkpoints (d := ⟨s.topMostNonReceive,
    v.alreadyCemented,v.info.height,v.account,v.bottomHeight,v.current⟩) B hv.tracked hraise htop
    hal hv.info hv.account hb hbot
  have hpull := h.target_pulled hm hu
  have hcur : F.Covered (update V (F.account (target original w))
      (F.height (target original w))) v.current := by
    obtain ⟨c1,c2,c3⟩ := blockAt_eq.mp hbot
    refine ⟨c1,?_⟩
    rw [c2,update_self]
    omega
  rcases receive_cases original w with ⟨hr,hunused⟩ | ⟨e,es,hn,hp,hr,ht⟩
  · refine ⟨_,_,prepare_chain hq (hv.receive.trans hr),hT,fun hf hbrief =>
      hfits (hbrief.raise h.mono hpull hraise) (hv.fits hf),
      fun p => .reached hraise hunused rfl ?_ (by rw [← hcs]; rfl),hcur⟩
    dsimp only [leave]
    rw [hps]
    split
    · rename_i hn
      rw [hunused (isNone_iff_eq_none.mp hn)]
      rfl
    · rfl
  · have he : e ∈ w.receiveSourcePairs := by rw [hp]; exact mem_cons_self
    rw [hcs] at hq
    rw [ht] at hraise hT hcur hq hpull hfits
    have hwait : Waiting F _ e := waiting_raise h.waiting hraise
      (fun g hg => by rw [← ht]; exact h.linked.rank h.waiting hg) e he
    have hraise' := hwait.raised hraise.covered
    obtain ⟨hT',hfits'⟩ := prepareReceive_spec
      (q := ⟨q,eraseCheckpoint w.checkpoints e.sourceHash,none⟩) hT hwait hraise.covered
    refine ⟨_,_,prepare_receive (by rw [hcs]; exact hq) (hv.receive.trans hr),hT',
      fun hf hbrief => hfits'
        (hbrief.raise (fun a => (h.mono a).trans (hraise.le a)) (h.pulled he) hraise')
        (hfits (hbrief.raise h.mono hpull hraise) (hv.fits hf)),
      fun p => .received e _ _ ⟨hn,?_⟩ (.inr ⟨hraise,rfl⟩) hraise' rfl rfl,
      hcur.mono hraise'.le⟩
    dsimp only [leave]
    rw [hn,hps,hp]
    rfl

/-- Plain blocks below the first receive are confirmed ahead of it. -/
theorem round_partly (hcap : 2 ≤ cap)
    (hs : Climbed cap F V (target original w) w.checkpoints w.receiveSourcePairs e s)
    (hpart : s.receiveSourcePairs.length = 1 ∧ s.topMostNonReceive ≠ v.current) :
    ∃ u V', Prepares cap F L₀ Vs original w V v s u V' := by
  obtain ⟨hb,hbot⟩ := hv.bottom hu
  have howner := hs.waiting.owner
  rw [hs.top] at howner
  have hempty : w.receiveSourcePairs = [] := by
    have := hpart.1
    rw [hs.pairs,pushBack_eq hcap,length_cons,length_take] at this
    exact length_eq_zero_iff.mp (by omega)
  -- two plain blocks at least lie below the receive
  obtain ⟨x1,x2,x3⟩ := blockAt_eq.mp hs.highest
  have hhigh : V (F.account (target original w))+1 < e.receiveDetails.height-1 := by
    by_contra hle
    rw [max_eq_right (by omega)] at x3
    obtain ⟨c1,c2,c3⟩ := blockAt_eq.mp hbot
    exact hpart.2 (F.unique x1 c1 (x2.trans c2.symm) (by omega))
  rw [max_eq_left hhigh.le] at x3
  have hbelow := hs.waiting.below
  rw [hs.top] at hbelow
  have hraise : F.Raise V s.topMostNonReceive (update V
      (F.account s.topMostNonReceive) (F.height s.topMostNonReceive)) := by
    have hplain := hs.waiting.plain
    rw [← howner] at hplain
    refine Forest.Raise.plainly x1 (by rw [x2]; omega) (fun c hc ha h1 h2 => ?_)
    rw [x2] at ha h1
    exact hplain c hc ha h1 (by omega)
  have hpull : F.Pull Vs original s.topMostNonReceive :=
    (h.target_pulled hm hu).lower x1 x2 (by omega)
      (fun hc => hraise.uncovered (hc.mono h.mono))
  obtain ⟨q,hq,hT,hfits⟩ := prepareChain_spec s.checkpoints (d := ⟨s.topMostNonReceive,
    v.alreadyCemented,v.info.height,v.account,v.bottomHeight,v.current⟩) B hv.tracked hraise rfl
    hal (by rw [x2]; exact hv.info) (by rw [x2]; exact hv.account) (by rw [x2]; exact hb)
    (by rw [x2]; exact hbot)
  have hr : (getNextBlock original w).2 = none := by
    rcases receive_cases original w with ⟨hr,-⟩ | ⟨e',es,-,hp,-⟩
    · exact hr
    · rw [hempty] at hp
      cases hp
  have hcs : s.checkpoints = w.checkpoints := by
    rw [hs.checkpoints,hempty,pushBack_eq hcap,take_nil,length_singleton,
      mod_eq_of_lt hcap,if_neg one_ne_zero]
  refine ⟨_,_,prepare_chain hq (hv.receive.trans hr),hT,fun hf hbrief =>
    hfits (hbrief.raise h.mono hpull hraise) (hv.fits hf),
    fun p => .partly s.topMostNonReceive e hraise x2 (by omega)
      (hs.waiting.raise hraise (fun _ => by omega)) hs.top hempty rfl ?_ (by rw [← hcs]; rfl),?_⟩
  · dsimp only [leave]
    rw [hs.pairs,hempty,pushBack_eq hcap,take_nil]
    rfl
  · obtain ⟨c1,c2,c3⟩ := blockAt_eq.mp hbot
    refine ⟨c1,?_⟩
    rw [c2,x2,update_self]
    omega

end

/-- A round confirms what it walked over, or stores a receive. -/
theorem round_prepares (hcap : 2 ≤ cap) (hfuel : ∀ b, F.mem b → F.height b < fuel) :
    ∃ hit s, iterateVisit cap C fuel w v = some (hit,s) ∧
      ((Confirms v hit s ∧ ∃ u V', Prepares cap F L₀ Vs original w V v s u V') ∨
        (¬ Confirms v hit s ∧ Move cap F original V w V (stay v s) ∧
          s.receiveSourcePairs ≠ [])) := by
  by_cases hc : F.Covered V (target original w)
  · obtain ⟨s,u,V',hi,hP⟩ := round_covered h hv hc
    exact ⟨false,s,hi,.inl ⟨.inl rfl,u,V',hP⟩⟩
  · obtain ⟨hal,⟨hit,s⟩,hi,hend⟩ := iterateVisit_spec cap B (h.target_mem hm) hv hc hfuel
    refine ⟨hit,s,hi,?_⟩
    cases hit with
    | false => exact .inl ⟨.inl rfl,round_reached B h hm hv hc hal hend⟩
    | true =>
      rcases hend with ⟨hf,-⟩ | ⟨-,e,he⟩
      · cases hf
      · by_cases hpart : s.receiveSourcePairs.length = 1 ∧ s.topMostNonReceive ≠ v.current
        · exact .inl ⟨.inr hpart,round_partly B h hm hv hc hal hcap he hpart⟩
        · refine .inr ⟨fun hC => hpart (hC.resolve_left (by simp)),
            .stored e he.waiting he.top rfl rfl he.pairs ?_,?_⟩
          · change s.checkpoints = if s.receiveSourcePairs.length % cap = 0
              then pushBack cap (target original w) w.checkpoints else w.checkpoints
            rw [he.checkpoints,he.pairs]
          · rw [he.pairs,pushBack_eq hcap]
            exact cons_ne_nil _ _

end

theorem rank_current (hv : Visited F L₀ V original w v) (hm : F.mem (target original w)) :
    F.account v.current = F.account (target original w) ∧
      F.rank v.current ≤ F.rank (target original w) := by
  by_cases hc : F.Covered V (target original w)
  · rw [hv.covered hc]
    exact ⟨rfl,le_rfl⟩
  · obtain ⟨c1,c2,c3⟩ := blockAt_eq.mp (hv.bottom hc).2
    have hle : F.height v.current ≤ F.height (target original w) := by
      by_contra hlt
      exact hc ⟨hm,by omega⟩
    exact ⟨c2,F.rank_le_chain c1 hm c2 hle⟩

variable (env) in
/-- One round makes a move, unless it meets a write that does not end. The loop goes on
unless the added block is confirmed, at the end of a walk along its own chain. -/
theorem round_spec (hcap : 2 ≤ cap) (B : Backed C F L₀) (h : Standing F L₀ Vs original w V)
    (hm : F.mem original) (hor : L₀.blocks[original]? = some originalBlock)
    (hfuel : ∀ b, F.mem b → F.height b < fuel)
    (hok : (Fits w.processor ∧ F.Brief (2^31) Vs original) ∨
      round cap C env fuel original originalBlock w ≠ none) :
    ∃ w' V', Tracked F L₀ w'.processor V' ∧
      (Fits w.processor → F.Brief (2^31) Vs original → Fits w'.processor) ∧
      w'.firstIter = false ∧ Move cap F original V w V' w' ∧
      ((round cap C env fuel original originalBlock w = some (.inl w') ∧
        (F.Covered V (target original w) → target original w = original →
          w'.receiveSourcePairs ≠ [])) ∨
      (round cap C env fuel original originalBlock w = some (.inr w') ∧
        F.Covered V' original ∧ w'.receiveSourcePairs = [] ∧
        F.account (target original w) = F.account original ∧
        F.rank original ≤ F.rank (target original w))) := by
  obtain ⟨v,hv,hvis⟩ := visit_spec B h hm hor
  have ht := h.target_mem hm
  obtain ⟨hit,s,hi,hround⟩ := round_prepares B h hm hvis hcap hfuel
  have hrun : round cap C env fuel original originalBlock w =
      (advance env original w v hit s).map (fun w' =>
        if w'.receiveSourcePairs.isEmpty = false ∨ v.current ≠ original then .inl w'
        else .inr w') := by
    unfold Bounded.round
    rw [hv,bind_some,hi,bind_some]
  obtain ⟨w',V',hadv,hT,hfits,hfirst,hmove,hcov⟩ : ∃ w' V',
      advance env original w v hit s = some w' ∧ Tracked F L₀ w'.processor V' ∧
      (Fits w.processor → F.Brief (2^31) Vs original → Fits w'.processor) ∧
      w'.firstIter = false ∧ Move cap F original V w V' w' ∧
      (w'.receiveSourcePairs = [] → F.Covered V' v.current) := by
    rcases hround with ⟨hC,u,V',hP⟩ | ⟨hC,hmove,hne⟩
    · have hadv : advance env original w v hit s =
          (flush env u.processor (decide (v.current = original))).map (leave w s u) := by
        rw [advance,if_pos hC,confirm,hP.prepared,bind_some]
      obtain ⟨q,hq,hTq,hfq⟩ := flush_spec B (decide (v.current = original)) hP.tracked (by
        refine hok.imp (fun hf => hP.fits hf.1 hf.2) (fun hne hnone => hne ?_)
        rw [hrun,hadv,hnone]
        rfl)
      refine ⟨leave w s u q,V',by rw [hadv,hq,map_some],hTq,fun hf hb => hfq (hP.fits hf hb),rfl,
        hP.move q,fun _ => hP.covered⟩
    · exact ⟨stay v s,V,by rw [advance,if_neg hC],hvis.tracked,fun hf _ => hvis.fits hf,rfl,hmove,
        fun hn => absurd hn hne⟩
  refine ⟨w',V',hT,hfits,hfirst,hmove,?_⟩
  rw [hrun,hadv,map_some]
  by_cases hgo : w'.receiveSourcePairs.isEmpty = false ∨ v.current ≠ original
  · rw [if_pos hgo]
    refine .inl ⟨rfl,fun hc he hn => ?_⟩
    rcases hgo with hgo | hgo
    · rw [hn] at hgo
      cases hgo
    · exact hgo ((hvis.covered hc).trans he)
  · rw [if_neg hgo]
    rw [not_or,not_not,Bool.not_eq_false,List.isEmpty_iff] at hgo
    obtain ⟨hsame,hrank⟩ := rank_current hvis ht
    rw [hgo.2] at hsame hrank
    exact .inr ⟨rfl,hgo.2 ▸ hcov hgo.1,hgo.1,hsame.symm,hrank⟩

end

theorem target_back (hn : w.nextInReceiveChain = none) (hp : w.receiveSourcePairs = e :: es) :
    target original w = e.sourceHash := by
  unfold target getNextBlock
  rw [hn,hp]

theorem linked_back (hn : w.nextInReceiveChain = none) (h : Linked t w.receiveSourcePairs) :
    Linked (target original w) w.receiveSourcePairs := by
  cases hp : w.receiveSourcePairs with
  | nil => trivial
  | cons e es =>
    rw [hp] at h
    exact ⟨(target_back hn hp).symm,h.2⟩

theorem mem_eraseCheckpoint {c : BlockHash} :
    c ∈ eraseCheckpoint cs x ↔ c ∈ cs ∧ c ≠ x := by
  simp [eraseCheckpoint]

theorem mem_pushBack {α : Type} {y z : α} {ys : List α} (h : y ∈ pushBack cap z ys) :
    y = z ∨ y ∈ ys :=
  mem_cons.mp (mem_of_mem_take h)

theorem Standing.unchained (hn : w'.nextInReceiveChain = none) (hf : w'.firstIter = false)
    (hT : Tracked F L₀ w'.processor V') (hw : ∀ e ∈ w'.receiveSourcePairs, Waiting F V' e)
    (hl : Linked t w'.receiveSourcePairs)
    (htops : ∀ e ∈ w'.receiveSourcePairs, F.Pull Vs original e.receiveDetails.topLevel)
    (hcs : ∀ c ∈ w'.checkpoints, F.Pull Vs original c) (hraised : F.Grows Vs original V') :
    Standing F L₀ Vs original w' V' where
  tracked := hT
  waiting := hw
  linked := linked_back hn hl
  next n e := by
    rw [hn] at e
    cases e
  chain n e := by
    rw [hn] at e
    cases e
  tops := htops
  checkpoints := hcs
  raised := hraised
  first e := by
    rw [hf] at e
    cases e

structure Received (F : Forest Account BlockHash) (V V₁ V' : Account → ℕ) (w w' : Walk)
    (e : ReceiveSourcePair) (cs : List BlockHash) : Prop where
  back : w.nextInReceiveChain = none ∧ w.receiveSourcePairs = e :: w'.receiveSourcePairs
  source : (F.Covered V e.sourceHash ∧ V₁ = V ∧ cs = w.checkpoints) ∨
    (F.Raise V e.sourceHash V₁ ∧ cs = eraseCheckpoint w.checkpoints e.sourceHash)
  raise : F.Raise V₁ e.receiveDetails.hash V'
  next : w'.nextInReceiveChain = if e.receiveDetails.next.isSome then
    some ⟨e.receiveDetails.topLevel,e.receiveDetails.next,e.receiveDetails.height+1⟩ else none
  checkpoints : w'.checkpoints = if e.receiveDetails.next.isSome then cs
    else eraseCheckpoint cs e.receiveDetails.hash

theorem standing_received (h : Standing F L₀ Vs original w V) (hm : F.mem original)
    (hT : Tracked F L₀ w'.processor V') (hf : w'.firstIter = false)
    (R : Received F V V₁ V' w w' e cs) : Standing F L₀ Vs original w' V' := by
  obtain ⟨⟨hnw,hpw⟩,hsrc,hr,hn,hcs⟩ := R
  have he : e ∈ w.receiveSourcePairs := by rw [hpw]; exact mem_cons_self
  have hlinked := h.linked
  rw [hpw] at hlinked
  have hwait₀ := h.waiting
  rw [hpw] at hwait₀
  -- the source's chain first
  obtain ⟨hwait₁,hraised₁,hcs₁⟩ : (∀ g ∈ e :: w'.receiveSourcePairs, Waiting F V₁ g) ∧
      F.Grows Vs original V₁ ∧ ∀ c ∈ cs, c ∈ w.checkpoints := by
    rcases hsrc with ⟨-,rfl,rfl⟩ | ⟨hr₁,rfl⟩
    · exact ⟨hwait₀,h.raised,fun c hc => hc⟩
    · refine ⟨?_,?_,fun c hc => (mem_eraseCheckpoint.mp hc).1⟩
      · exact waiting_raise hwait₀ hr₁ (fun g hg => by
          rw [hlinked.1]
          exact hlinked.rank hwait₀ hg)
      · refine h.raised.snoc hr₁ ?_
        have := h.target_pulled hm
        rw [target_back hnw hpw] at this
        exact this hr₁.uncovered
  have hwe := hwait₁ e mem_cons_self
  have htail : ∀ g ∈ w'.receiveSourcePairs, Waiting F V' g := by
    have hold : ∀ g ∈ w'.receiveSourcePairs, Waiting F V₁ g :=
      fun g hg => hwait₁ g (mem_cons_of_mem _ hg)
    refine waiting_raise hold hr (fun g hg => ?_)
    have := hlinked.2.rank hold hg
    have := hwe.rank_top
    omega
  have htops : ∀ g ∈ w'.receiveSourcePairs, F.Pull Vs original g.receiveDetails.topLevel :=
    fun g hg => h.tops g (by rw [hpw]; exact mem_cons_of_mem _ hg)
  have hpulled : ∀ c ∈ w'.checkpoints, F.Pull Vs original c := by
    intro c hc
    rw [hcs] at hc
    split at hc
    · exact h.checkpoints c (hcs₁ c hc)
    · exact h.checkpoints c (hcs₁ c (mem_eraseCheckpoint.mp hc).1)
  have hraised := hraised₁.snoc hr (h.pulled he)
  cases hnext : e.receiveDetails.next with
  | none =>
    rw [hnext,isSome_none,if_neg (by decide)] at hn
    exact Standing.unchained hn hf hT htail hlinked.2 htops hpulled hraised
  | some y =>
    rw [hnext,isSome_some,if_pos rfl] at hn
    have htop : target original w' = e.receiveDetails.topLevel := by
      unfold target getNextBlock
      rw [hn]
    have hVe : V' e.receiveDetails.account = e.receiveDetails.height := by
      rw [hr.eq,hwe.account,update_self,hwe.height]
    refine ⟨hT,htail,by rw [htop]; exact hlinked.2,fun n hn' => ?_,fun n hn' => ?_,htops,hpulled,
      hraised,fun e => by rw [hf] at e; cases e⟩
    · rw [hn] at hn'
      cases hn'
      dsimp only
      rw [hwe.owner,hVe]
      exact ⟨rfl,y,rfl,hwe.next y hnext⟩
    · rw [hn] at hn'
      cases hn'
      exact h.tops e he

theorem Move.standing (hcap : 2 ≤ cap) (h : Standing F L₀ Vs original w V) (hm : F.mem original)
    (hmove : Move cap F original V w V' w') (hT : Tracked F L₀ w'.processor V')
    (hf : w'.firstIter = false) : Standing F L₀ Vs original w' V' := by
  cases hmove with
  | settled hc hun hV hn hp hcs =>
    subst hV
    exact Standing.unchained hn hf hT (hp ▸ h.waiting) (hp ▸ h.linked) (hp ▸ h.tops)
      (hcs ▸ h.checkpoints) h.raised
  | reached hr hun hn hp hcs =>
    refine Standing.unchained hn hf hT ?_ (hp ▸ h.linked) (hp ▸ h.tops) ?_
      (h.raised.snoc hr (h.target_pulled hm hr.uncovered))
    · rw [hp]
      exact waiting_raise h.waiting hr (fun g hg => h.linked.rank h.waiting hg)
    · rw [hcs]
      exact fun c hc => h.checkpoints c (mem_eraseCheckpoint.mp hc).1
  | received e V₁ cs hback hsrc hr hn hcs =>
    exact standing_received h hm hT hf ⟨hback,hsrc,hr,hn,hcs⟩
  | stored e hwe htop hV hn hp hcs =>
    subst hV
    have hpull : F.Pull Vs original (target original w) :=
      h.target_pulled hm (htop ▸ hwe.uncovered_top)
    refine Standing.unchained (t := e.sourceHash) hn hf hT ?_ ?_ ?_ ?_ h.raised
    · intro g hg
      rw [hp] at hg
      rcases mem_pushBack hg with rfl | hg
      · exact hwe
      · exact h.waiting g hg
    · rw [hp,pushBack_eq hcap]
      exact ⟨rfl,htop ▸ h.linked.take _⟩
    · intro g hg
      rw [hp] at hg
      rcases mem_pushBack hg with rfl | hg
      · exact htop ▸ hpull
      · exact h.tops g hg
    · intro c hc
      rw [hcs] at hc
      split at hc
      · rcases mem_pushBack hc with rfl | hc
        · exact hpull
        · exact h.checkpoints c hc
      · exact h.checkpoints c hc
  | partly x e hr hsame hlow hwe htop hempty hn hp hcs =>
    have hpull : F.Pull Vs original (target original w) := by
      refine h.target_pulled hm (fun hc => ?_)
      have h1 := hc.2
      have h2 := hr.above
      rw [hsame] at h2
      omega
    have hpulled : F.Pull Vs original x :=
      hpull.lower hr.mem hsame hlow.le (fun hc => hr.uncovered (hc.mono h.mono))
    have hmem : ∀ g ∈ w'.receiveSourcePairs, g = e := by
      intro g hg
      rw [hp] at hg
      split at hg
      · cases hg
      · exact mem_singleton.mp hg
    refine Standing.unchained (t := e.sourceHash) hn hf hT (fun g hg => hmem g hg ▸ hwe) ?_
      (fun g hg => by rw [hmem g hg,htop]; exact hpull) ?_ (h.raised.snoc hr hpulled)
    · rw [hp]
      split
      · trivial
      · exact ⟨rfl,trivial⟩
    · rw [hcs]
      exact fun c hc => h.checkpoints c (mem_eraseCheckpoint.mp hc).1

theorem two_le : 2 ≤ maxItems := by decide

theorem process_eq : process C env fuel p original =
    (walk C env fuel maxItems p original).map Walk.processor := by
  unfold process walk
  cases p.trace.ledger.blocks[original]? with
  | none => rfl
  | some r => exact Loop.loop_map _ _ _ _

theorem Standing.start (T : Tracked F L₀ p V) : Standing F L₀ V original (begin p) V where
  tracked := by
    unfold begin
    dsimp only
    split
    · rename_i he
      exact clearProcessVars_spec T (isEmpty_iff.mp he)
    · exact T
  waiting e he := by cases he
  linked := trivial
  next n hn := by cases hn
  chain n hn := by cases hn
  tops e he := by cases he
  checkpoints c hc := by cases hc
  raised := Grows.refl V original
  first _ := rfl

section
variable (B : Backed C F L₀) (hm : F.mem original) (hor : L₀.blocks[original]? = some originalBlock)
  (hfuel : ∀ b, F.mem b → F.height b < fuel) (h : Standing F L₀ Vs original w V)
include B hm hor hfuel h

/-- A round that returns keeps the standing of the walk, or ends it. -/
theorem round_returned {o : Walk ⊕ Processor}
    (hs : processStep C env fuel original originalBlock w = some o) :
    ∃ w' V', Standing F L₀ Vs original w' V' ∧
      (Fits w.processor → F.Brief (2^31) Vs original → Fits w'.processor) ∧
      (o = .inl w' ∨ (o = .inr w'.processor ∧ F.Absorb Vs original V')) := by
  obtain ⟨r,hr,rfl⟩ := map_eq_some_iff.mp hs
  obtain ⟨w',V',hT,hfits,hf,hmove,hend⟩ := round_spec env two_le B h hm hor hfuel
    (.inr (by rw [hr]; exact some_ne_none r))
  have hstand := hmove.standing two_le h hm hT hf
  refine ⟨w',V',hstand,hfits,?_⟩
  rcases hend with ⟨hs',-⟩ | ⟨hs',hc,-⟩
  · cases hr.symm.trans hs'
    exact .inl rfl
  · cases hr.symm.trans hs'
    exact .inr ⟨rfl,hstand.raised,hc⟩

theorem round_goes_on {w₁ : Walk}
    (hs : processStep C env fuel original originalBlock w = some (.inl w₁)) :
    ∃ V', Standing F L₀ Vs original w₁ V' ∧
      (Fits w.processor → F.Brief (2^31) Vs original → Fits w₁.processor) := by
  obtain ⟨w',V',h',hfits,ho | ⟨ho,-⟩⟩ := round_returned B hm hor hfuel h hs
  · cases ho
    exact ⟨V',h',hfits⟩
  · cases ho

theorem round_ends {q : Processor}
    (hs : processStep C env fuel original originalBlock w = some (.inr q)) :
    ∃ V', Tracked F L₀ q V' ∧ F.Absorb Vs original V' ∧
      (Fits w.processor → F.Brief (2^31) Vs original → Fits q) := by
  obtain ⟨w',V',h',hfits,ho | ⟨ho,habs⟩⟩ := round_returned B hm hor hfuel h hs
  · cases ho
  · cases ho
    exact ⟨V',h'.tracked,habs,hfits⟩

end

/-- A process of the bounded processor that returns has confirmed exactly what
the added block pulls in. -/
theorem process_partial (B : Backed C F L₀) (hm : F.mem original)
    (hfuel : ∀ b, F.mem b → F.height b < fuel) (T : Tracked F L₀ p V) {q : Processor}
    (hq : process C env fuel p original = some q) :
    ∃ V', Tracked F L₀ q V' ∧ F.Absorb V original V' := by
  obtain ⟨r,hr,-⟩ := B.get _ hm
  unfold process at hq
  rw [T.sound.written.blocks,hr,bind_some] at hq
  exact Loop.loop_partial (fun w => ∃ V', Standing F L₀ V original w V')
    (fun q => ∃ V', Tracked F L₀ q V' ∧ F.Absorb V original V')
    (fun _ _ ⟨_,h⟩ hs => by
      obtain ⟨V',h',-⟩ := round_goes_on B hm hr hfuel h hs
      exact ⟨V',h'⟩)
    (fun _ _ ⟨_,h⟩ hs => by
      obtain ⟨V',h',ha,-⟩ := round_ends B hm hr hfuel h hs
      exact ⟨V',h',ha⟩) fuel (begin p) q
    ⟨V,Standing.start T⟩ hq
end Vxldollar.BoundedSpec
