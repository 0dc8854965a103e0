import Vxldollar.BoundedWrites

/-!
# The walk of the bounded processor

A round finds the lowest uncemented block of its chain, whichever of its three
ways it takes there, and walks up to the top level or to the first receive.
The receives that wait form a path: each stands below the source that the
receive before it asks for.
-/

namespace Vxldollar.BoundedWalk
open Blocks Store Sources Bounded Forest

variable {C : Constants} {F : Forest Account BlockHash} {L : Ledger} {V V' : Account → ℕ}
  {a : Account} {t x b : BlockHash} {e : ReceiveSourcePair} {es : List ReceiveSourcePair}
  {r : StoredBlock} {w : Walk}

/-- A receive that waits for its source, with nothing but plain blocks between
what is confirmed and the receive. -/
structure Waiting (F : Forest Account BlockHash) (V : Account → ℕ) (e : ReceiveSourcePair) :
    Prop where
  mem : F.mem e.receiveDetails.hash
  account : F.account e.receiveDetails.hash = e.receiveDetails.account
  height : F.height e.receiveDetails.hash = e.receiveDetails.height
  source : F.source e.receiveDetails.hash = some e.sourceHash
  top : F.mem e.receiveDetails.topLevel
  owner : F.account e.receiveDetails.topLevel = e.receiveDetails.account
  below : e.receiveDetails.height ≤ F.height e.receiveDetails.topLevel
  above : V e.receiveDetails.account < e.receiveDetails.height
  start : e.receiveDetails.bottomHeight ≤ V e.receiveDetails.account+1
  bottom : F.blockAt e.receiveDetails.account e.receiveDetails.bottomHeight =
    some e.receiveDetails.bottomMost
  plain : ∀ c, F.mem c → F.account c = e.receiveDetails.account →
    V e.receiveDetails.account < F.height c → F.height c < e.receiveDetails.height →
    F.source c = none
  next : ∀ y, e.receiveDetails.next = some y →
    F.blockAt e.receiveDetails.account (e.receiveDetails.height+1) = some y

def Linked (t : BlockHash) : List ReceiveSourcePair → Prop
  | [] => True
  | e :: es => e.sourceHash = t ∧ Linked e.receiveDetails.topLevel es

section
variable (h : Waiting F V e)
include h

theorem Waiting.raise (hr : F.Raise V b V')
    (hb : F.account b = e.receiveDetails.account → F.height b < e.receiveDetails.height) :
    Waiting F V' e := by
  have hle := hr.le e.receiveDetails.account
  refine { h with
    above := ?_
    start := h.start.trans (by omega)
    plain := fun c hc ha h1 h2 => h.plain c hc ha (by omega) h2 }
  rw [hr.eq,Function.update_apply]
  split
  · rename_i ha
    exact hb ha.symm
  · exact h.above

theorem Waiting.raised (hs : F.Covered V e.sourceHash) :
    F.Raise V e.receiveDetails.hash
      (Function.update V e.receiveDetails.account e.receiveDetails.height) := by
  refine ⟨h.mem,by rw [h.account,h.height]; exact h.above,?_,?_,by rw [h.account,h.height]⟩
  · intro c hc ha h1 h2
    rw [h.account] at ha h1
    rw [h.height] at h2
    exact h.plain c hc ha h1 h2
  · intro y hy
    rw [h.source] at hy
    cases hy
    exact hs

theorem Waiting.rank_source :
    F.rank e.sourceHash < F.rank e.receiveDetails.hash := F.rank_source h.mem h.source

theorem Waiting.rank_top :
    F.rank e.receiveDetails.hash ≤ F.rank e.receiveDetails.topLevel :=
  F.rank_le_chain h.mem h.top (h.account.trans h.owner.symm) (by rw [h.height]; exact h.below)

theorem Waiting.uncovered : ¬ F.Covered V e.receiveDetails.hash := by
  intro hc
  have h1 := hc.2
  have h2 := h.above
  rw [h.account,h.height] at h1
  omega

theorem Waiting.uncovered_top : ¬ F.Covered V e.receiveDetails.topLevel := by
  intro hc
  have h1 := hc.2
  have h2 := h.below
  have h3 := h.above
  rw [h.owner] at h1
  omega

end

theorem Linked.rank (h : Linked t es) (hw : ∀ e ∈ es, Waiting F V e) (he : e ∈ es) :
    F.rank t < F.rank e.receiveDetails.hash := by
  induction es generalizing t with
  | nil => cases he
  | cons g gs ih =>
    obtain ⟨rfl,hl⟩ := h
    have hg := hw g List.mem_cons_self
    rcases List.mem_cons.mp he with rfl | he
    · exact hg.rank_source
    · have := ih hl (fun y hy => hw y (List.mem_cons_of_mem _ hy)) he
      have := hg.rank_source
      have := hg.rank_top
      omega

theorem Linked.take (h : Linked t es) (n : ℕ) : Linked t (es.take n) := by
  induction es generalizing t n with
  | nil => simp [Linked]
  | cons g gs ih =>
    cases n with
    | zero => trivial
    | succ n => exact ⟨h.1,ih h.2 n⟩

theorem waiting_raise (hw : ∀ e ∈ es, Waiting F V e) (hr : F.Raise V b V')
    (hb : ∀ e ∈ es, F.rank b < F.rank e.receiveDetails.hash) : ∀ e ∈ es, Waiting F V' e := by
  intro e he
  have hwe := hw e he
  refine hwe.raise hr (fun ha => ?_)
  rw [← hwe.height]
  exact height_lt_of_rank hr.mem hwe.mem (ha.trans hwe.account.symm) (hb e he)

theorem bottom_spec {target : TopAndNextHash} {info : ConfirmationHeightInfo}
    (B : Backed C F L) (hm : F.mem target.top) (hread : Reads C F L target.top r)
    (ha : F.account target.top = a)
    (hinfo : info.height = V a) (hfr : V a ≠ 0 → F.blockAt a (V a) = some info.frontier)
    (hnext : w.nextInReceiveChain.isNone = false →
      target.nextHeight = V a+1 ∧ ∃ y, target.next = some y ∧ F.blockAt a (V a+1) = some y) :
    (F.height target.top ≤ V a → ∃ k, bottom L w target r a info = some (target.top,k)) ∧
    (V a < F.height target.top → ∃ x, bottom L w target r a info = some (x,V a+1) ∧
      F.blockAt a (V a+1) = some x) := by
  have hself : F.blockAt a (F.height target.top) = some target.top :=
    blockAt_eq.mpr ⟨hm,ha,rfl⟩
  unfold bottom
  dsimp only
  rw [hread.height,hinfo]
  refine ⟨fun hle => ⟨_,if_neg (by omega)⟩,fun hlt => ?_⟩
  by_cases h1 : F.height target.top-V a > 1
  · rw [if_pos ⟨hlt,h1⟩]
    by_cases h2 : F.height target.top-V a = 2
    · obtain ⟨p1,p2,p3⟩ := hread.previous (by omega)
      rw [if_pos h2]
      refine ⟨r.block.previous,?_,blockAt_eq.mpr ⟨p1,p2.trans ha,by omega⟩⟩
      congr 2
      omega
    · rw [if_neg h2]
      by_cases hn : w.nextInReceiveChain.isNone = true
      · rw [if_pos hn]
        unfold getLeastUnconfirmedHashFromTopLevel
        rw [hinfo]
        by_cases h0 : V a = 0
        · obtain ⟨i,hi,o1,o2,o3⟩ := B.opened _ hm
          rw [if_neg (by simp [h0]),← ha,hi]
          refine ⟨i.openBlock,?_,blockAt_eq.mpr ⟨o1,o2,?_⟩⟩
          · rw [ha,h0]
            rfl
          · rw [ha,h0]
            exact o3
        · obtain ⟨f1,f2,f3⟩ := blockAt_eq.mp (hfr h0)
          obtain ⟨rf,hrf,hreadf⟩ := B.get _ f1
          rw [if_pos h0,if_pos hlt,hrf]
          rcases hreadf.successor with ⟨-,htop⟩ | ⟨g1,g2,g3⟩
          · have := htop _ hm (by rw [ha,f2])
            omega
          · refine ⟨_,?_,blockAt_eq.mpr ⟨g1,g2.trans f2,by rw [g3,f3]⟩⟩
            rw [Option.map_some,hreadf.height,f3]
      · rw [Bool.not_eq_true] at hn
        obtain ⟨hh,y,hy,hb⟩ := hnext hn
        rw [if_neg (by simp [hn]),hy,hh]
        exact ⟨y,rfl,hb⟩
  · have e1 : F.height target.top = V a+1 := by omega
    rw [if_neg (fun h => h1 h.2),e1]
    exact ⟨target.top,rfl,e1 ▸ hself⟩

variable {cap : ℕ} {cs : List BlockHash} {ps : List ReceiveSourcePair} {fuel v : ℕ} {s : Iteration}
  {k : ℕ}

def PlainTo (F : Forest Account BlockHash) (a : Account) (v k : ℕ) : Prop :=
  ∀ c, F.mem c → F.account c = a → v < F.height c → F.height c ≤ k → F.source c = none

/-- Where the walk up stands: at the block of height `k`, with the block below
it as the top-most one that is not a receive. -/
structure Climbing (F : Forest Account BlockHash) (a : Account) (v : ℕ) (cs : List BlockHash)
    (ps : List ReceiveSourcePair) (k : ℕ) (s : Iteration) : Prop where
  above : v < k
  at_height : F.blockAt a k = some s.hash
  plain : PlainTo F a v (k-1)
  highest : F.blockAt a (max (k-1) (v+1)) = some s.topMostNonReceive
  checkpoints : s.checkpoints = cs
  pairs : s.receiveSourcePairs = ps

structure Climbed (cap : ℕ) (F : Forest Account BlockHash) (V : Account → ℕ) (t : BlockHash)
    (cs : List BlockHash) (ps : List ReceiveSourcePair) (e : ReceiveSourcePair) (s : Iteration) :
    Prop where
  waiting : Waiting F V e
  top : e.receiveDetails.topLevel = t
  pairs : s.receiveSourcePairs = pushBack cap e ps
  checkpoints : s.checkpoints =
    if (pushBack cap e ps).length % cap = 0 then pushBack cap t cs else cs
  highest : F.blockAt (F.account t) (max (e.receiveDetails.height-1) (V (F.account t)+1)) =
    some s.topMostNonReceive

theorem PlainTo.snoc (h : PlainTo F a v (F.height b-1)) (hm : F.mem b) (ha : F.account b = a)
    (hs : F.source b = none) : PlainTo F a v (F.height b) := by
  intro c hc hca h1 h2
  by_cases he : F.height c = F.height b
  · rw [F.unique hc hm (hca.trans ha.symm) he]
    exact hs
  · exact h c hc hca h1 (by omega)

theorem hitReceive_spec (hm : F.mem t) (hx : F.blockAt (F.account t) (V (F.account t)+1) = some x)
    (h : Climbing F (F.account t) (V (F.account t)) cs ps k s) (hk : k ≤ F.height t)
    (hread : Reads C F L s.hash r) {source : BlockHash} (hs : F.source s.hash = some source) :
    ∃ e, Climbed cap F V t cs ps e
      (hitReceive cap (F.account t) t (V (F.account t)+1) x r source s) := by
  obtain ⟨sm,sa,sh⟩ := blockAt_eq.mp h.at_height
  have habove := h.above
  have hheight : r.sideband.height = k := hread.height.trans sh
  refine ⟨⟨⟨F.account t,r.sideband.height,s.hash,t,if r.sideband.successor ≠ 0 ∧
    r.sideband.successor ≠ t then some r.sideband.successor else none,V (F.account t)+1,x⟩,source⟩,
    ?_,rfl,?_,?_,?_⟩
  · refine ⟨sm,sa,hread.height.symm,hs,hm,rfl,?_,?_,Nat.le_refl _,hx,?_,?_⟩
    · dsimp only
      omega
    · dsimp only
      omega
    · intro c hc ha h1 h2
      dsimp only at h1 h2
      exact h.plain c hc ha h1 (by omega)
    · intro y hy
      dsimp only at hy
      split at hy
      · rename_i hne
        cases hy
        rcases hread.successor with ⟨h0,-⟩ | ⟨g1,g2,g3⟩
        · exact absurd h0 hne.1
        · exact blockAt_eq.mpr ⟨g1,g2.trans sa,by rw [g3,hread.height]⟩
      · cases hy
  · unfold hitReceive
    rw [h.pairs]
  · unfold hitReceive
    rw [h.pairs,h.checkpoints]
  · dsimp only
    rw [hheight]
    exact h.highest

def Ends (cap : ℕ) (F : Forest Account BlockHash) (V : Account → ℕ) (t : BlockHash)
    (cs : List BlockHash) (ps : List ReceiveSourcePair) (s : Bool × Iteration) : Prop :=
  (s.1 = false ∧ PlainTo F (F.account t) (V (F.account t)) (F.height t) ∧
    s.2.topMostNonReceive = t ∧ s.2.checkpoints = cs ∧ s.2.receiveSourcePairs = ps) ∨
  (s.1 = true ∧ ∃ e, Climbed cap F V t cs ps e s.2)

variable (B : Backed C F L) (hm : F.mem t)
  (hx : F.blockAt (F.account t) (V (F.account t)+1) = some x)
include B hm hx

theorem iterateStep_spec (h : Climbing F (F.account t) (V (F.account t)) cs ps k s)
    (hk : k ≤ F.height t) :
    (∃ s', iterateStep cap C L (F.account t) t (V (F.account t)+1) x s = some (.inl s') ∧
      Climbing F (F.account t) (V (F.account t)) cs ps (k+1) s' ∧ k+1 ≤ F.height t) ∨
    (∃ s', iterateStep cap C L (F.account t) t (V (F.account t)+1) x s = some (.inr s') ∧
      Ends cap F V t cs ps s') := by
  obtain ⟨sm,sa,sh⟩ := blockAt_eq.mp h.at_height
  obtain ⟨r,hr,hread⟩ := B.get _ sm
  have h0 : s.hash ≠ 0 := fun e => B.zero (e ▸ sm)
  have habove := h.above
  unfold iterateStep
  rw [if_neg h0,hr,Option.map_some,hread.source]
  cases hsrc : F.source s.hash with
  | some source =>
    obtain ⟨e,he⟩ := hitReceive_spec hm hx h hk hread hsrc
    exact .inr ⟨_,rfl,.inr ⟨rfl,e,he⟩⟩
  | none =>
    have hplain : PlainTo F (F.account t) (V (F.account t)) (F.height s.hash) :=
      PlainTo.snoc (by rw [sh]; exact h.plain) sm sa hsrc
    dsimp only
    by_cases htop : s.hash = t
    · rw [if_pos htop]
      refine .inr ⟨_,rfl,.inl ⟨rfl,?_,htop,h.checkpoints,h.pairs⟩⟩
      rw [htop] at hplain
      exact hplain
    · rw [if_neg htop]
      have hne : k ≠ F.height t := fun e => htop (F.unique sm hm sa (by omega))
      rcases hread.successor with ⟨-,hhead⟩ | ⟨g1,g2,g3⟩
      · have := hhead t hm sa.symm
        omega
      · refine .inl ⟨_,rfl,⟨by omega,?_,?_,?_,h.checkpoints,h.pairs⟩,by omega⟩
        · exact blockAt_eq.mpr ⟨g1,g2.trans sa,by rw [g3,sh]⟩
        · rw [Nat.add_sub_cancel,← sh]
          exact hplain
        · rw [Nat.add_sub_cancel,Nat.max_eq_left habove]
          exact h.at_height

/-- The walk up returns at the top level, or with the first receive. -/
theorem iterate_spec (hlt : V (F.account t) < F.height t) (hfuel : F.height t < fuel) :
    ∃ s, iterate cap C L (F.account t) t (V (F.account t)+1) x fuel ⟨x,x,cs,ps⟩ = some s ∧
      Ends cap F V t cs ps s := by
  have hstart : Climbing F (F.account t) (V (F.account t)) cs ps (V (F.account t)+1)
      ⟨x,x,cs,ps⟩ := by
    refine ⟨Nat.lt_succ_self _,hx,fun c _ _ h1 h2 => ?_,?_,rfl,rfl⟩
    · omega
    · rw [Nat.max_eq_right (by omega)]
      exact hx
  -- the height of the walk grows with every round
  refine Loop.loop_total
    (fun n s => ∃ k, Climbing F (F.account t) (V (F.account t)) cs ps k s ∧ k ≤ F.height t ∧
      n = F.height t-k) (Ends cap F V t cs ps) (fun n s hi => ?_) fuel
    (F.height t-(V (F.account t)+1)) _ ⟨_,hstart,hlt,rfl⟩ (by omega)
  obtain ⟨k,h,hk,rfl⟩ := hi
  rcases iterateStep_spec B hm hx h hk with ⟨s',hs,h',hk'⟩ | hend
  · exact .inl ⟨s',F.height t-(k+1),hs,⟨k+1,h',hk',rfl⟩,by omega⟩
  · exact .inr hend

end Vxldollar.BoundedWalk
