import Vxldollar.DeepLedger
import Vxldollar.Nesting

/-!
# The two processors agree

The heights that a run ends with are those that the added blocks absorb, and the frontier
of an account is the block at its height. So whatever the sizes of the batches and the
times of the flushes, two runs over the same blocks leave the same table, if both return.
The unbounded processor always does.
-/

namespace Vxldollar.Agreement
open Blocks Store Vxldollar.Lattice Confirmation Runs Cementing Sources Traces CementingRuns
  Nesting DeepLedger Option Std.ExtTreeMap

variable {C : Constants} {U : Set Hashables} {F : Forest Account BlockHash} {L L₀ M : Ledger}
  {t t' : Trace} {ts ts' : List Turn}

/-- Two runs end with the same heights, frontiers and number of cemented blocks. -/
structure Agree (t t' : Trace) : Prop where
  confirmationHeight : t.ledger.confirmationHeight = t'.ledger.confirmationHeight
  cementedCount : t.ledger.cache.cementedCount = t'.ledger.cache.cementedCount

theorem written_none (hw : Written F L₀ L) {a : Account} :
    L.confirmationHeight[a]? = none ↔ heightsIn L a = 0 := by
  unfold heightsIn Ledger.confirmationHeightGet
  cases hi : L.confirmationHeight[a]? with
  | none => exact iff_of_true rfl rfl
  | some i =>
    obtain ⟨hm,-,hh⟩ := hw.frontier a i hi
    have hpos := F.positive hm
    simp only [getD_some,reduceCtorEq,false_iff]
    omega

theorem written_table (hw : Written F L₀ L) (hw' : Written F L₀ M)
    (hV : heightsIn L = heightsIn M) : L.confirmationHeight = M.confirmationHeight := by
  apply Table.ext_get
  intro a
  have hnone : L.confirmationHeight[a]? = none ↔ M.confirmationHeight[a]? = none := by
    rw [written_none hw,written_none hw',hV]
  have ha := congrFun hV a
  unfold heightsIn Ledger.confirmationHeightGet at ha
  cases hi : L.confirmationHeight[a]? with
  | none => exact (hnone.mp hi).symm
  | some i =>
    cases hj : M.confirmationHeight[a]? with
    | none =>
      rw [hnone.mpr hj] at hi
      cases hi
    | some j =>
      rw [hi,hj,getD_some,getD_some] at ha
      obtain ⟨m1,m2,m3⟩ := hw.frontier a i hi
      obtain ⟨n1,n2,n3⟩ := hw'.frontier a j hj
      have hf : i.frontier = j.frontier := F.unique m1 n1 (m2.trans n2.symm) (by omega)
      cases i
      cases j
      simp only at ha hf
      rw [ha,hf]

theorem outcomes_agree {hs : List BlockHash} (o : Outcome F L₀ hs t) (o' : Outcome F L₀ hs t') :
    Agree t t' := by
  have htable := written_table o.sound.written o'.sound.written (o.absorbs.unique o'.absorbs)
  refine ⟨htable,?_⟩
  rw [o.sound.written.count,o'.sound.written.count,heights,heights,htable]

variable (ts ts') in
/-- The unbounded processor returns. For any sizes of the batches and any times of the
flushes the bounded one agrees with it whenever it returns too, and it returns if no added
block leaves a checkpoint behind or pulls in too long a stretch of plain blocks. -/
theorem processors_agree (S : HashSound C U) (G : Grounded C U) (hr : Reachable C U L)
    (hsame : added ts = added ts') (hts : ∀ h ∈ added ts, L.blocks.contains h = true) :
    ∃ n, ∀ fuel, n ≤ fuel → ∀ env env' size size', ∃ q,
      Unbounded.run C env fuel (Unbounded.fresh L size) (ts ++ [.idle]) = some q ∧
      ((∀ h ∈ added ts, Erasable C L (Confirmed L) h Bounded.maxItems ∧
          Brief C L (Confirmed L) h) →
        ∃ q', Bounded.run C env' fuel (Bounded.fresh L size') (ts' ++ [.idle]) = some q' ∧
          Agree q.trace q'.trace) ∧
      ∀ q', Bounded.run C env' fuel (Bounded.fresh L size') (ts' ++ [.idle]) = some q' →
        Agree q.trace q'.trace := by
  obtain ⟨F,g,K,hK⟩ := reachable_bounded S G hr
  obtain ⟨R,hR⟩ := Forest.rank_bounded g.finite
  have hmem : ∀ h ∈ added ts, F.mem h := fun h hh => g.contains.mp (hts h hh)
  refine ⟨enough F K R,fun fuel hfuel env env' size size' => ?_⟩
  obtain ⟨q,hq,ho⟩ := unbounded_run g hmem hK hfuel
  have hagree : ∀ q', Bounded.run C env' fuel (Bounded.fresh L size') (ts' ++ [.idle]) = some q' →
      Agree q.trace q'.trace := by
    intro q' hq'
    apply outcomes_agree ho
    rw [hsame]
    exact bounded_run ts' g hK hfuel hq'
  refine ⟨q,hq,fun hgood => ?_,hagree⟩
  rw [hsame] at hgood hmem
  obtain ⟨q',hq'⟩ := bounded_returns ts' g hmem hK hR hfuel (fun h hh =>
    ⟨erases_ledger g (hgood h hh).1,brief_ledger g (hmem h hh) (hgood h hh).2⟩)
  exact ⟨q',hq',hagree q' hq'⟩

theorem processors_agree_sample : sampleOpened.blocks.contains 6 = true ∧
    ∃ fuel q q', Unbounded.run sample (fun _ => ⟨false,true,true,0⟩) fuel
        (Unbounded.fresh sampleOpened 16384) [.process 6,.idle] = some q ∧
      Bounded.run sample (fun _ => ⟨true,false,true,300⟩) fuel (Bounded.fresh sampleOpened 1)
        [.idle,.process 6,.idle] = some q' ∧ Agree q.trace q'.trace := by
  have hc := sampleOpened_contains
  obtain ⟨n,hn⟩ := processors_agree [.process 6] [.idle,.process 6]
    sample_sound sample_grounded sampleOpened_reachable rfl
    (fun h hh => by rw [List.mem_singleton.mp hh]; exact hc)
  obtain ⟨q,hq,hgood,-⟩ := hn n le_rfl (fun _ => ⟨false,true,true,0⟩)
    (fun _ => ⟨true,false,true,300⟩) 16384 1
  obtain ⟨q',hq',ha⟩ := hgood (fun h _ =>
    ⟨sampleOpened_erasable _ h (by decide),sampleOpened_brief _ h⟩)
  exact ⟨hc,n,q,q',hq,hq',ha⟩

/-- On the deep ledger the unbounded processor cements the last take, and the bounded one
does not return from it. -/
theorem processors_disagree : HashSound Rows.counting (blocks depth) ∧
    Grounded Rows.counting (blocks depth) ∧
    ∃ L h n, Reachable Rows.counting (blocks depth) L ∧
      L.blocks.contains h = true ∧ ∀ fuel, n ≤ fuel → ∀ env size,
        (∃ q, Unbounded.run Rows.counting env fuel (Unbounded.fresh L size)
          [.process h,.idle] = some q) ∧
        Bounded.run Rows.counting env fuel (Bounded.fresh L size) [.process h,.idle] = none := by
  have S := (lawful depth_le).sound
  have G := (lawful depth_le).grounded
  obtain ⟨L,hr,hc,hnone⟩ := deep_endless
  obtain ⟨F,g,K,hK⟩ := reachable_bounded S G hr
  refine ⟨S,G,L,_,max (enough F K 0) 5,hr,hc,fun fuel hfuel env size => ⟨?_,?_⟩⟩
  · have hadded : ∀ h ∈ added [.process (key (.take depth))], F.mem h := by
      intro h hh
      rw [List.mem_singleton.mp hh]
      exact g.contains.mp hc
    obtain ⟨q,hq,-⟩ := unbounded_run g hadded hK ((Nat.le_max_left _ _).trans hfuel)
    exact ⟨q,hq⟩
  · change (Bounded.process Rows.counting env fuel (Bounded.fresh L size) _).bind _ = none
    rw [BoundedSpec.process_eq,hnone fuel ((Nat.le_max_right _ _).trans hfuel) env size]
    rfl
end Vxldollar.Agreement
