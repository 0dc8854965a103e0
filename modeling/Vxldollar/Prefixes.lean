import Vxldollar.LongWrites
import Vxldollar.Nesting

/-!
# What every commit and every notification says

At whatever point a run of a processor stands, in the middle of a turn or not:
each transaction committed so far holds a prefix of the lattice that is closed
under dependencies, and the blocks handed to the observers are the newly
cemented ones, each once and in an order that respects dependencies.
-/

namespace Vxldollar.Prefixes
open Blocks Store Vxldollar.Lattice Confirmation Runs Cementing Sources Traces CementingRuns Nesting
  List Unbounded

variable {C : Constants} {U : Set Hashables} {F : Forest Account BlockHash} {L L₀ : Ledger}
  {t : Trace} {b : BlockHash} {W : Account → ℕ}

section
/-- Frontiers stand at the stored heights, the count is their sum, and no block
is cemented before what it depends on. -/
structure Consistent (C : Constants) (L : Ledger) : Prop where
  frontier : ∀ (a : Account) (i : ConfirmationHeightInfo), L.confirmationHeight[a]? = some i →
    ∃ r, L.blocks[i.frontier]? = some r ∧ r.accountCalculated = a ∧ r.sideband.height = i.height
  count : L.cache.cementedCount = heights L
  closed : Closed C L

/-- All commits of a trace are consistent and no height ever decreases. -/
structure Committed (C : Constants) (L : Ledger) (t : Trace) : Prop where
  consistent : ∀ M ∈ t.commits, Consistent C M
  ascending : (L :: t.commits).Pairwise (fun M M' => ∀ a,
    (M.confirmationHeightGet a).height ≤ (M'.confirmationHeightGet a).height)

variable {bs : List BlockHash}

section
variable (g : Grounds C F L₀) (hw : Written F L₀ L)
  (ha : F.Advances (heightsIn L₀) bs (heightsIn L))
include g hw ha

theorem written_closed : Closed C L := by
  intro h r hr hc d hd
  rw [hw.blocks] at hr
  rw [g.confirmed hw] at hc ⊢
  refine Forest.Advances.closed (fun b d => ∀ r, L₀.blocks[b]? = some r →
    DependsOn C r d) ?_ ha ?_ hc d (fun r' hr' => ?_)
  · intro b d hb hneed
    obtain ⟨r,hr,-⟩ := g.backed.get b hb
    exact g.depends b r hr d (hneed r hr)
  · intro b hb d hneed
    obtain ⟨r,hr,-⟩ := g.backed.get b hb.1
    exact g.closed b r hr hb d (hneed r hr)
  · cases hr.symm.trans hr'
    exact hd

theorem written_consistent : Consistent C L := by
  refine ⟨fun a i hi => ?_,hw.count,written_closed g hw ha⟩
  obtain ⟨hm,hacc,hheight⟩ := hw.frontier a i hi
  obtain ⟨r,hr,hread⟩ := (hw.backed g.backed).get _ hm
  exact ⟨r,hr,hread.account.trans hacc,hread.height.trans hheight⟩

end

theorem sound_committed (g : Grounds C F L₀) {rs : List StoredBlock} (h : Sound F L₀ t rs W) :
    Committed C L₀ t := by
  refine ⟨fun M hM => ?_,pairwise_cons.mpr ⟨fun M hM a => ?_,?_⟩⟩
  · obtain ⟨hw,bs,ha⟩ := h.commits M hM
    exact written_consistent g hw ha
  · obtain ⟨-,bs,ha⟩ := h.commits M hM
    exact ha.le a
  · exact (pairwise_append.mp h.ascending).1

/-- At every commit of any run of either processor, in turns that end and in
turns that do not, the stored heights are consistent and have not decreased;
and no round fails. The blocks that the bounded processor is given lead to no
stretch too long for its counters. The bound is only for the walk up a single chain. -/
theorem commits_prefix (S : HashSound C U) (G : Grounded C U) (hr : Reachable C U L) {fuel : ℕ}
    (hfuel : ∀ (h : BlockHash) (r : StoredBlock), L.blocks[h]? = some r →
      r.sideband.height < fuel) (env : Environment) (size : ℕ) :
    (∀ s, Unbounded.Reaches C env (Unbounded.fresh L size) s →
      Committed C L (Unbounded.stageTrace s)) ∧
    (∀ h r w, Unbounded.Reaches C env (Unbounded.fresh L size) (.within h r w) →
      ∃ o, Unbounded.processStep C env h r w = some o) ∧
    (∀ t, Bounded.Shows C env fuel (BriefFor C) (Bounded.fresh L size) t → Committed C L t) ∧
    (∀ h r w, Bounded.Reaches C env fuel (BriefFor C) (Bounded.fresh L size) (.within h r w) →
      ∃ o, Bounded.processStep C env fuel h r w = some o) ∧
    (∀ p, Bounded.Reaches C env fuel (BriefFor C) (Bounded.fresh L size) (.between p) →
      ∃ q, Bounded.idle env p = some q) := by
  obtain ⟨F,g⟩ := reachable_grounds S G hr
  have hheight := fun b => g.height_lt hfuel (b := b)
  refine ⟨fun s hs => ?_,fun h r w hw => ?_,fun t ht => ?_,fun h r w hw => ?_,fun p hp => ?_⟩
  · exact sound_committed g (unbounded_stage g hs)
  · exact unbounded_goes_on g hw
  · obtain ⟨rs,W,hs⟩ := bounded_shows g hheight (fun _ _ _ T => brief_processor g T) ht
    exact sound_committed g hs
  · exact bounded_goes_on g hheight (fun _ _ _ T => brief_processor g T) hw
  · exact bounded_idles g hheight (fun _ _ _ T => brief_processor g T) hp

theorem commits_prefix_sample : Reachable sample sampleBlocks sampleOpened ∧
    (∃ q, Unbounded.run sample (fun _ => ⟨false,true,true,0⟩) 40
        (Unbounded.fresh sampleOpened 16384) [.process 6,.idle] = some q ∧
      q.trace.commits.length = 1 ∧ q.trace.ledger.cache.cementedCount = 3 ∧
      Committed sample sampleOpened q.trace) ∧
    ∃ p, Bounded.Reaches sample (fun _ => ⟨false,true,true,0⟩) 40 (BriefFor sample)
        (Bounded.fresh sampleOpened 16384) (.between p) ∧
      p.trace.commits.length = 1 ∧ p.trace.ledger.cache.cementedCount = 2 ∧
      Committed sample sampleOpened p.trace := by
  obtain ⟨hun,-,hb,-⟩ := commits_prefix sample_sound sample_grounded sampleOpened_reachable
    sampleOpened_low (fun _ => ⟨false,true,true,0⟩) 16384
  obtain ⟨q,hq,h1,h2⟩ : ∃ q ∈ run sample (fun _ => ⟨false,true,true,0⟩) 40
      (fresh sampleOpened 16384) [.process 6,.idle], q.trace.commits.length = 1 ∧
      q.trace.ledger.cache.cementedCount = 3 := by decide +kernel
  obtain ⟨p,hreach,h3,-,h4⟩ := sampleOpened_sent
  exact ⟨sampleOpened_reachable,⟨q,hq,h1,h2,hun _ (turns_reaches (fun _ _ => trivial) .start hq)⟩,
    p,hreach,h3,h4,hb _ (.stage hreach)⟩

/-- In the chain with more than 2^31 blocks above genesis, one of the commits is not
consistent. -/
theorem long_write_inconsistent : HashSound Rows.counting LongWrites.blocks ∧
    Grounded Rows.counting LongWrites.blocks ∧
    ∃ L, Reachable Rows.counting LongWrites.blocks L ∧
      (∀ (h : BlockHash) (r : StoredBlock), L.blocks[h]? = some r →
        r.sideband.height < LongWrites.longest+2) ∧
      ∀ fuel, LongWrites.longest+2 ≤ fuel → ∃ t,
        Bounded.Shows Rows.counting LongWrites.steady fuel (fun _ _ => True)
          (Bounded.fresh L Bounded.minimumBatchWriteSize) t ∧ ¬ Committed Rows.counting L t := by
  obtain ⟨L,X,-,h⟩ := LongWrites.placed (P := fun _ => True) trivial
    (fun _ _ _ _ _ _ _ _ => trivial)
    (Nat.le_refl _)
  obtain ⟨hlow,hwraps⟩ := LongWrites.placed_wraps h
  refine ⟨LongWrites.lawful.sound,LongWrites.lawful.grounded,L,h.reachable,hlow,
    fun fuel hfuel => ?_⟩
  obtain ⟨t,ht,M,hM,hlt⟩ := hwraps fuel hfuel
  exact ⟨t,ht,fun hc => absurd (hc.consistent M hM).count hlt.ne⟩

end

structure Notified (C : Constants) (L : Ledger) (t : Trace) : Prop where
  records : ∀ r ∈ t.notified.flatten, L.blocks[C.blockHash r.block]? = some r
  once : (t.notified.flatten.map (fun r => C.blockHash r.block)).Nodup
  newly : ∀ b, b ∈ t.notified.flatten.map (fun r => C.blockHash r.block) ↔
    t.ledger.blockConfirmed b = true ∧ L.blockConfirmed b = false
  ordered : ∀ xs r ys, t.notified.flatten = xs ++ r :: ys → ∀ d, DependsOn C r d →
    d ∈ t.notified.flatten.map (fun r => C.blockHash r.block) →
    d ∈ xs.map (fun r => C.blockHash r.block)

variable {rs : List StoredBlock} {bs : List BlockHash}

section
variable (B : Backed C F L₀) (h : List.Forall₂ (fun h r => L₀.blocks[h]? = some r) bs rs)
include B h

theorem listed_hashes :
    rs.map (fun r => C.blockHash r.block) = bs := by
  induction h with
  | nil => rfl
  | cons hr _ ih => rw [map_cons,ih,(B.record hr).2.hash]

theorem listed_records :
    ∀ r ∈ rs, L₀.blocks[C.blockHash r.block]? = some r := by
  induction h with
  | nil => exact fun r hr => by cases hr
  | cons hr _ ih =>
    intro r' hr'
    rcases mem_cons.mp hr' with rfl | hr'
    · rw [(B.record hr).2.hash]
      exact hr
    · exact ih r' hr'

end

theorem sound_notified (g : Grounds C F L₀) (h : Sound F L₀ t [] (heightsIn t.ledger)) :
    Notified C L₀ t := by
  obtain ⟨bs,hall,hadv⟩ := h.listed
  rw [append_nil] at hall
  have hbs := listed_hashes g.backed hall
  have hrec := listed_records g.backed hall
  refine ⟨hrec,hbs ▸ hadv.nodup,fun b => ?_,fun xs r ys he d hd hmem => ?_⟩
  · rw [hbs,g.confirmed h.written,← Bool.not_eq_true,g.confirmed g.written,hadv.covered_iff]
    constructor
    · exact fun hb => ⟨.inr hb,hadv.fresh hb⟩
    · rintro ⟨hc | hb,hn⟩
      · exact absurd hc hn
      · exact hb
  · rw [hbs] at hmem
    have hr := hrec r (by rw [he]; exact mem_append_right _ mem_cons_self)
    obtain ⟨hm,hdep⟩ := g.depends _ r hr d hd
    rw [he,map_append,map_cons] at hbs
    rw [← hbs] at hadv
    rcases hadv.ordered hm hdep with hc | hx
    · exact absurd hc (hadv.fresh (hbs ▸ hmem))
    · exact hx

/-- Whatever blocks are added and whenever the processors flush, the blocks
handed to the observers are exactly the newly cemented ones, in order. The
unbounded processor returns. -/
theorem notifications_exact (S : HashSound C U) (G : Grounded C U) (hr : Reachable C U L) :
    ∃ n, ∀ fuel, n ≤ fuel → ∀ env size ts,
      ((∀ h ∈ added ts, L.blocks.contains h = true) →
        ∃ q, Unbounded.run C env fuel (Unbounded.fresh L size) (ts ++ [.idle]) = some q) ∧
      (∀ q, Unbounded.run C env fuel (Unbounded.fresh L size) ts = some q →
        Notified C L q.trace) ∧
      (∀ q, Bounded.run C env fuel (Bounded.fresh L size) ts = some q →
        Notified C L q.trace) := by
  obtain ⟨F,g,K,hK⟩ := reachable_bounded S G hr
  refine ⟨enough F K 0,fun fuel hfuel env size ts => ⟨fun hts => ?_,fun q hq => ?_,fun q hq => ?_⟩⟩
  · obtain ⟨q,hq,-⟩ := unbounded_run g (fun h hh => g.contains.mp (hts h hh)) hK hfuel
    exact ⟨q,hq⟩
  · exact sound_notified g (unbounded_stage g (turns_reaches (fun _ _ => trivial) .start hq))
  · have hheight : ∀ b, F.mem b → F.height b < fuel := by
      intro b hb
      have := hK b hb
      unfold enough at hfuel
      omega
    have hs : Bounded.Reaches C env fuel (fun _ _ => True) (Bounded.fresh L size) (.between q) :=
      turns_reaches (fun _ _ => trivial) .start hq
    exact sound_notified g (bounded_stage g hheight hs)

theorem notifications_exact_sample : Reachable sample sampleBlocks sampleOpened ∧
    ∃ fuel q, Unbounded.run sample (fun _ => ⟨false,true,true,0⟩) fuel
      (Unbounded.fresh sampleOpened 16384) ([.process 6] ++ [.idle]) = some q ∧
      Notified sample sampleOpened q.trace := by
  obtain ⟨n,hn⟩ := notifications_exact sample_sound sample_grounded sampleOpened_reachable
  obtain ⟨hret,-⟩ := hn n (Nat.le_refl n) (fun _ => ⟨false,true,true,0⟩) 16384 [.process 6]
  obtain ⟨q,hq⟩ := hret (fun h hh => by
    rw [mem_singleton.mp hh]
    decide +kernel)
  exact ⟨sampleOpened_reachable,n,q,hq,(hn n (Nat.le_refl n) _ 16384 _).2.1 q hq⟩

end Vxldollar.Prefixes
