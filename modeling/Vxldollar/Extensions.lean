import Vxldollar.Unbounded
import Vxldollar.Bounded

/-!
# What the observers were told stays told

A round and a flush only add to the vectors handed to the cemented observers
and to the hashes handed to the already-cemented observers. Everything but the
first look at an added block leaves the latter alone.
-/

namespace Vxldollar.Extensions
open Blocks Cementing Option List

/-- More vectors were notified; the hashes reported as already cemented are the
same. -/
structure Notifies (t t' : Trace) : Prop where
  notified : t.notified <+: t'.notified
  alreadyCemented : t'.alreadyCemented = t.alreadyCemented

structure Extends (t t' : Trace) : Prop where
  notified : t.notified <+: t'.notified
  alreadyCemented : t.alreadyCemented <+: t'.alreadyCemented

section
variable {t t' t'' : Trace}

theorem Notifies.refl (t : Trace) : Notifies t t := ⟨prefix_rfl,rfl⟩

theorem Notifies.trans (h : Notifies t t') (h' : Notifies t' t'') : Notifies t t'' :=
  ⟨h.notified.trans h'.notified,h'.alreadyCemented.trans h.alreadyCemented⟩

theorem Notifies.extends (h : Notifies t t') : Extends t t' :=
  ⟨h.notified,h.alreadyCemented ▸ prefix_rfl⟩

theorem Extends.refl (t : Trace) : Extends t t := (Notifies.refl t).extends

theorem Extends.trans (h : Extends t t') (h' : Extends t' t'') : Extends t t'' :=
  ⟨h.notified.trans h'.notified,h.alreadyCemented.trans h'.alreadyCemented⟩

theorem extends_alreadyCemented (t : Trace) (h : BlockHash) :
    Extends t (t.notifyAlreadyCemented h) :=
  ⟨prefix_rfl,prefix_append _ _⟩

end

section
open Bounded
variable {C : Constants} {env : Environment} {fuel amount : ℕ} {original : BlockHash}
  {originalBlock : StoredBlock} {s s' : Batch} {last : Bool}

theorem bounded_cementStep {a : Account} {start num : ℕ} {s s' : Progress}
    (h : cementStep env amount a start num last s = some (.inl s')) :
    Notifies s.batch.trace s'.batch.trace := by
  unfold cementStep at h
  split at h
  · cases h
  obtain ⟨r,-,h⟩ := map_eq_some_iff.mp h
  cases h
  -- only a commit in the middle tells the observers anything
  by_cases hc : (s.batch.cementedBlocks ++ [r]).length > batchLimit s.batch.trace.batchWriteSize
  · rw [if_pos hc]
    split <;> exact ⟨prefix_append _ _,rfl⟩
  · rw [if_neg hc]
    split <;> exact .refl _

theorem bounded_cementChain {a : Account} {start num : ℕ} {s s' : Progress}
    (h : cementChain env amount a start num last s = some s') :
    Notifies s.batch.trace s'.batch.trace := by
  refine Loop.loop_partial (fun t => Notifies s.batch.trace t.batch.trace)
    (fun t => Notifies s.batch.trace t.batch.trace) (fun t t' ht hs => ?_) (fun t t' ht hs => ?_)
    _ s s' (.refl _) h
  · exact ht.trans (bounded_cementStep hs)
  · unfold cementStep at hs
    split at hs
    · cases hs
      exact ht
    · obtain ⟨r,-,hs⟩ := map_eq_some_iff.mp hs
      cases hs

theorem bounded_cementWrite {w : WriteDetails} (h : cementWrite env amount w last s = some s') :
    Notifies s.trace s'.trace := by
  unfold cementWrite at h
  split at h
  · obtain ⟨⟨frontier,num,start⟩,-,h⟩ := bind_eq_some_iff.mp h
    obtain ⟨t,ht,h⟩ := bind_eq_some_iff.mp h
    have hchain := bounded_cementChain ht
    cases h
    split
    · exact hchain.trans ⟨prefix_rfl,rfl⟩
    · exact hchain
  · cases h
    exact .refl _

theorem bounded_cementWrites {ws : List WriteDetails}
    {infos infos' : Std.ExtTreeMap Account ConfirmedInfo}
    (h : cementWrites env amount ws infos s = some (infos',s')) : Notifies s.trace s'.trace := by
  induction ws generalizing infos s with
  | nil =>
    cases h
    exact .refl _
  | cons w ws ih =>
    obtain ⟨t,ht,h⟩ := bind_eq_some_iff.mp h
    exact (bounded_cementWrite ht).trans (ih h)

variable {p q : Processor} {v : Visit} {w : Walk}

theorem bounded_cementBlocks
    (h : cementBlocks env p = some q) : Notifies p.trace q.trace := by
  obtain ⟨⟨infos,s⟩,hs,rfl⟩ := map_eq_some_iff.mp h
  refine (bounded_cementWrites hs).trans ?_
  dsimp only
  split
  · exact ⟨prefix_append _ _,rfl⟩
  · exact ⟨prefix_rfl,rfl⟩

theorem bounded_flush {finished : Bool}
    (h : flush env p finished = some q) : Notifies p.trace q.trace := by
  unfold flush at h
  dsimp only at h
  split at h
  · exact (show Notifies p.trace p.trace.next from ⟨prefix_rfl,rfl⟩).trans
      (bounded_cementBlocks h)
  · cases h
    exact ⟨prefix_rfl,rfl⟩

theorem bounded_idle (h : idle env p = some q) : Notifies p.trace q.trace := by
  obtain ⟨q',hq',rfl⟩ := map_eq_some_iff.mp h
  split at hq'
  · cases hq'
    exact .refl _
  · exact (show Notifies p.trace q'.trace from bounded_cementBlocks hq')

theorem bounded_prepare {s t : Prepared} {d : Preparation}
    {receive : Option ReceiveChainDetails}
    (h : prepareIteratedBlocksForCementing s d receive = some t) :
    t.processor.trace = s.processor.trace := by
  obtain ⟨u,hu,rfl⟩ := map_eq_some_iff.mp h
  have hchain : u.processor.trace = s.processor.trace := by
    unfold prepareChain at hu
    split at hu
    · cases hu
      rfl
    · obtain ⟨r,-,rfl⟩ := map_eq_some_iff.mp hu
      dsimp only
      split <;> rfl
  cases receive <;> exact hchain

theorem bounded_advance {w w' : Walk} {hit : Bool} {s : Iteration}
    (h : advance env original w v hit s = some w') :
    Notifies v.processor.trace w'.processor.trace := by
  unfold advance at h
  split at h
  · obtain ⟨t,ht,h⟩ := bind_eq_some_iff.mp h
    obtain ⟨p,hp,rfl⟩ := map_eq_some_iff.mp h
    have := bounded_flush hp
    rw [bounded_prepare ht] at this
    exact this
  · cases h
    exact .refl _

section
variable (h : visit original originalBlock w = some v)
include h

theorem bounded_visit :
    v.processor.trace = if w.firstIter = true ∧
        w.processor.accountsConfirmedInfo[v.account]? = none ∧
        (w.processor.trace.ledger.confirmationHeightGet v.account).height ≥
          v.block.sideband.height ∧ v.target.top = original
      then w.processor.trace.notifyAlreadyCemented original else w.processor.trace := by
  obtain ⟨r,hr,h⟩ := bind_eq_some_iff.mp h
  obtain ⟨x,hx,rfl⟩ := map_eq_some_iff.mp h
  dsimp only [heightOf]
  cases hi : w.processor.accountsConfirmedInfo[r.accountCalculated]? with
  | some i => simp
  | none =>
    simp only [Bool.and_eq_true,decide_eq_true_eq,true_and,and_assoc]
    rw [apply_ite Processor.trace]

theorem bounded_visit_extends :
    Extends w.processor.trace v.processor.trace := by
  rw [bounded_visit h]
  split
  · exact extends_alreadyCemented _ _
  · exact .refl _

end

theorem bounded_round {o : Walk ⊕ Processor}
    (h : processStep C env fuel original originalBlock w = some o) :
    ∃ v, visit original originalBlock w = some v ∧ Notifies v.processor.trace
      (Sum.elim (fun w' => w'.processor.trace) (fun p => p.trace) o) := by
  obtain ⟨o',ho,rfl⟩ := map_eq_some_iff.mp h
  obtain ⟨v,hv,h⟩ := bind_eq_some_iff.mp ho
  obtain ⟨⟨hit,s⟩,-,h⟩ := bind_eq_some_iff.mp h
  obtain ⟨w',hw',rfl⟩ := map_eq_some_iff.mp h
  refine ⟨v,hv,?_⟩
  split
  · exact bounded_advance hw'
  · exact bounded_advance hw'

end
open Unbounded
variable {C : Constants} {env : Environment} {original : BlockHash} {originalBlock : StoredBlock}
  {p q : Processor} {c d : Collected} {w : Walk} {v : Visit}
  {pairs : List ReceiveSourcePair} {first : Option StoredBlock} {h : BlockHash}
  {r : StoredBlock} {a : Account}

theorem blockOf_keeps (e : blockOf p h first = some (r,q)) :
    q.trace = p.trace ∧ q.confirmedIteratedPairs = p.confirmedIteratedPairs := by
  cases first with
  | some f =>
    cases e
    exact ⟨rfl,rfl⟩
  | none =>
    change getBlockAndSideband p h = some (r,q) at e
    unfold getBlockAndSideband at e
    split at e
    · cases e
      exact ⟨rfl,rfl⟩
    · obtain ⟨f,-,e⟩ := map_eq_some_iff.mp e
      cases e
      exact ⟨rfl,rfl⟩

theorem handOver_trace (e : handOver c = some d) : d.processor.trace = c.processor.trace := by
  unfold handOver at e
  split at e
  · split at e
    · cases e
    · cases e
      rfl
  · cases e
    rfl

theorem collectBlock_trace {n : ℕ} (e : collectBlock C a n h r c = some d) :
    d.processor.trace = c.processor.trace := by
  unfold collectBlock at e
  split at e
  · obtain ⟨c',hc',rfl⟩ := map_eq_some_iff.mp e
    have := handOver_trace hc'
    exact this
  · unfold collectOther at e
    split at e
    · cases e
      rfl
    · split at e
      · cases e
        rfl
      · split at e
        · cases e
        · cases e
          rfl

theorem collectLoop_trace {height n : ℕ} (e : collectLoop C a height n h first c = some d) :
    d.processor.trace = c.processor.trace := by
  induction n generalizing h first c with
  | zero =>
    cases e
    rfl
  | succ n ih =>
    unfold collectLoop at e
    split at e
    · cases e
      rfl
    · split at e
      · exact ih e
      · rename_i r p hp
        obtain ⟨c',hc',e⟩ := bind_eq_some_iff.mp e
        rw [ih e,collectBlock_trace hc']
        exact (blockOf_keeps hp).1

theorem collect_trace (e : collectUnconfirmedReceiveAndSourcesForAccount C original w v = some c) :
    c.processor.trace = v.processor.trace := by
  unfold collectUnconfirmedReceiveAndSourcesForAccount at e
  dsimp only at e
  split at e
  · cases e
    rfl
  · have := collectLoop_trace e
    exact this

theorem prepareReceive_trace {receive : ConfHeightDetails}
    (e : prepareReceive p receive = some q) : q.trace = p.trace := by
  unfold prepareReceive at e
  split at e
  · obtain ⟨num,-,e⟩ := bind_eq_some_iff.mp e
    obtain ⟨remove,-,e⟩ := bind_eq_some_iff.mp e
    obtain ⟨keep,-,e⟩ := bind_eq_some_iff.mp e
    cases e
    rfl
  · cases e
    rfl

theorem prepareChain_trace {d : Preparation}
    (e : prepareChain p pairs d = some q) : q.trace = p.trace := by
  unfold prepareChain at e
  split at e
  · obtain ⟨data,-,rfl⟩ := map_eq_some_iff.mp e
    rfl
  · cases e
    rfl

theorem confirm_trace (e : confirm original w v c = some (p,pairs)) :
    p.trace = c.processor.trace := by
  unfold confirm at e
  split at e
  · obtain ⟨q,hq,e⟩ := map_eq_some_iff.mp e
    cases e
    obtain ⟨q',hq',hq⟩ := bind_eq_some_iff.mp hq
    rw [← prepareChain_trace hq']
    split at hq
    · cases hq
      rfl
    · exact prepareReceive_trace hq
  · cases e
    unfold setIterated
    dsimp only
    rw [apply_ite Processor.trace,ite_self]

theorem unbounded_cementWrites {cache : Std.ExtTreeMap BlockHash StoredBlock}
    {ws : List ConfHeightDetails} {s s' : Trace × List StoredBlock}
    (e : ws.foldlM (cementWrite cache) s = some s') : Notifies s.1 s'.1 := by
  induction ws generalizing s with
  | nil =>
    cases e
    exact .refl _
  | cons w ws ih =>
    rw [foldlM_cons] at e
    obtain ⟨u,hu,e⟩ := bind_eq_some_iff.mp e
    refine Notifies.trans ?_ (ih e)
    unfold cementWrite at hu
    split at hu
    · obtain ⟨_,-,hu⟩ := bind_eq_some_iff.mp hu
      obtain ⟨blocks,-,hu⟩ := bind_eq_some_iff.mp hu
      cases hu
      exact ⟨prefix_rfl,rfl⟩
    · cases hu
      exact .refl _

theorem unbounded_cementBlocks (e : cementBlocks p = some q) :
    Notifies p.trace q.trace := by
  obtain ⟨s,hs,rfl⟩ := map_eq_some_iff.mp e
  exact (unbounded_cementWrites hs).trans ⟨prefix_append _ _,rfl⟩

theorem unbounded_flush {finished : Bool}
    (e : flush env p finished = some q) : Notifies p.trace q.trace := by
  unfold flush at e
  dsimp only at e
  split at e
  · exact (show Notifies p.trace p.trace.next from ⟨prefix_rfl,rfl⟩).trans
      (unbounded_cementBlocks e)
  · cases e
    exact ⟨prefix_rfl,rfl⟩

theorem unbounded_idle (e : idle p = some q) : Notifies p.trace q.trace := by
  obtain ⟨q',hq',rfl⟩ := map_eq_some_iff.mp e
  split at hq'
  · cases hq'
    exact .refl _
  · exact (show Notifies p.trace q'.trace from unbounded_cementBlocks hq')

theorem unbounded_visit (e : visit original originalBlock w = some v) :
    v.processor.trace = if w.firstIter = true ∧
        w.processor.confirmedIteratedPairs[v.account]? = none ∧
        (w.processor.trace.ledger.confirmationHeightGet v.account).height ≥
          v.block.sideband.height
      then w.processor.trace.notifyAlreadyCemented original else w.processor.trace := by
  obtain ⟨⟨r,p⟩,hp,rfl⟩ := map_eq_some_iff.mp e
  obtain ⟨ht,hpairs⟩ := blockOf_keeps hp
  dsimp only
  rw [← ht,← hpairs]
  rcases eq_none_or_eq_some p.confirmedIteratedPairs[r.accountCalculated]? with hk | ⟨k,hk⟩
  · simp only [hk,Bool.and_eq_true,decide_eq_true_eq,true_and]
    rw [apply_ite Processor.trace]
  · simp [hk]

theorem unbounded_visit_extends (h : visit original originalBlock w = some v) :
    Extends w.processor.trace v.processor.trace := by
  rw [unbounded_visit h]
  split
  · exact extends_alreadyCemented _ _
  · exact .refl _

theorem unbounded_round {o : Walk ⊕ Processor}
    (e : processStep C env original originalBlock w = some o) :
    ∃ v, visit original originalBlock w = some v ∧ Notifies v.processor.trace
      (Sum.elim (fun w' => w'.processor.trace) (fun p => p.trace) o) := by
  obtain ⟨v,hv,e⟩ := bind_eq_some_iff.mp e
  obtain ⟨c,hc,e⟩ := bind_eq_some_iff.mp e
  obtain ⟨⟨p,pairs⟩,hp,e⟩ := bind_eq_some_iff.mp e
  obtain ⟨q,hq,e⟩ := bind_eq_some_iff.mp e
  cases e
  refine ⟨v,hv,?_⟩
  have hflush := unbounded_flush hq
  rw [confirm_trace hp,collect_trace hc] at hflush
  split <;> exact hflush

end Vxldollar.Extensions
