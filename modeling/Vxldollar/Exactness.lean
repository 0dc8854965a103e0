import Vxldollar.Nesting

/-!
# What a processor cements

Cementing a block should cement what it depends on and nothing else. The
processors follow the links of state sends as well, so a send to an address
that is also the hash of a block pulls that block in. Where every such link of
an uncemented dependency leads to a block that is needed or cemented anyway,
both processors are exact; anywhere else neither is.
-/

namespace Vxldollar.Exactness
open Blocks Store Vxldollar.Lattice Confirmation ProcessSpec Runs Cementing Sources Traces
  CementingRuns Nesting List Option

variable {C : Constants} {U : Set Hashables} {F : Forest Account BlockHash} {L L₀ : Ledger}
  {t : Trace} {h b c : BlockHash}

section
variable (C : Constants) (L : Ledger) (h : BlockHash)

inductive Needs : BlockHash → Prop
  | self : Needs h
  | step {b d : BlockHash} {r : StoredBlock} : Needs b → L.blocks[b]? = some r →
      DependsOn C r d → Needs d

/-- A run has cemented the block, its dependencies and nothing else, and
nothing else at any commit. -/
structure Exact (t : Trace) : Prop where
  cemented : ∀ b, t.ledger.blockConfirmed b = true ↔ L.blockConfirmed b = true ∨ Needs C L h b
  commits : ∀ M ∈ t.commits, ∀ b, M.blockConfirmed b = true →
    L.blockConfirmed b = true ∨ Needs C L h b

/-- Wherever an uncemented dependency is a state send whose link is the hash of
a block, that block is cemented or a dependency itself. -/
def LinksNeeded : Prop := ∀ (b : BlockHash) (r : StoredBlock), Needs C L h b →
  L.blocks[b]? = some r → L.blockConfirmed b = false → r.block.type = .state →
  r.sideband.details.isSend = true → L.blocks.contains r.block.link = true →
  L.blockConfirmed r.block.link = true ∨ Needs C L h r.block.link

end

section
variable (g : Grounds C F L₀)
include g

theorem needs_below (hn : Needs C L₀ h b) (hb : F.mem b) (hc : F.mem c)
    (ha : F.account c = F.account b) (hh : F.height c ≤ F.height b) :
    Needs C L₀ h c := by
  induction hk : F.height b generalizing b with
  | zero =>
    have := F.positive hb
    omega
  | succ k ih =>
    rcases Nat.lt_or_eq_of_le hh with hlt | heq
    · have hpos := F.positive hc
      obtain ⟨d,hd,hda,hdh⟩ := F.below (k := k) hb (by omega) (by omega)
      obtain ⟨r,hr,-⟩ := g.backed.get b hb
      refine ih (hn.step hr (g.previous b d r hr hd hda (by omega))) hd (ha.trans hda.symm)
        (by omega) hdh
    · rw [F.unique hc hb ha heq]
      exact hn

theorem needs_pulled (hh : F.mem h) (hn : Needs C L₀ h b) (hu : ¬ F.Covered (heightsIn L₀) b) :
    F.Pull (heightsIn L₀) h b := by
  induction hn with
  | self => exact .self hh hu
  | step _ hr hd ih =>
    have hb := ih (fun hc => hu (g.closed _ _ hr hc _ hd))
    obtain ⟨hm,⟨ha,hlt⟩ | hs⟩ := g.depends _ _ hr _ hd
    · exact hb.chain hm ha hlt hu
    · exact hb.source hs hu

theorem link_source {r : StoredBlock} (hr : L₀.blocks[b]? = some r) (ht : r.block.type = .state)
    (hl : L₀.blocks.contains r.block.link = true) :
    F.source b = some r.block.link := by
  have hm := g.contains.mp hl
  have h0 : r.block.link ≠ 0 := fun e => g.backed.zero (e ▸ hm)
  have hsrc : r.block.source = 0 := by
    unfold Block.type at ht
    unfold Block.source
    cases hq : r.block.hashables with
    | state q => rfl
    | _ =>
      rw [hq] at ht
      cases ht
  rw [← (g.backed.record hr).2.source]
  unfold receiveSource
  dsimp only
  rw [if_pos hsrc,if_pos ⟨h0,g.epoch _ hm,hl⟩]

theorem pulled_needs (hq : LinksNeeded C L₀ h) (hp : F.Pull (heightsIn L₀) h b) :
    Needs C L₀ h b := by
  induction hp with
  | self => exact .self
  | chain hb hc ha hlt _ ih => exact needs_below g ih hb.mem hc ha hlt.le
  | @source b s hb hs hu ih =>
    obtain ⟨r,hr,-⟩ := g.backed.get _ hb.mem
    rcases g.sources _ _ r hr hs with hd | ⟨ht,hsend,rfl⟩
    · exact ih.step hr hd
    · have hub : L₀.blockConfirmed b = false := by
        rw [← Bool.not_eq_true,g.confirmed g.written]
        exact hb.uncovered
      rcases hq b r ih hr hub ht hsend (g.contains.mpr (F.source_mem hb.mem hs)) with hc | hn
      · exact absurd ((g.confirmed g.written).mp hc) hu
      · exact hn

end

theorem needs_listed {bs : List BlockHash} (hbs : bs.all (fun b => (L.blocks[b]?).all (fun r =>
      decide ((dependentBlocks C r).1 ∈ 0 :: bs ∧ (dependentBlocks C r).2 ∈ 0 :: bs))) = true)
    (hh : h ∈ bs) (hn : Needs C L h b) : b ∈ bs := by
  induction hn with
  | self => exact hh
  | step _ hr hd ih =>
    have := all_eq_true.mp hbs _ ih
    rw [hr,all_some,decide_eq_true_eq] at this
    rcases hd with ⟨h0,rfl | rfl⟩
    · exact (mem_cons.mp this.1).resolve_left h0
    · exact (mem_cons.mp this.2).resolve_left h0

section
variable (g : Grounds C F L₀)
include g

theorem outcome_exact_iff (hh : F.mem h) (o : Outcome F L₀ [h] t) :
    Exact C L₀ h t ↔ LinksNeeded C L₀ h := by
  have habs : F.Absorb (heightsIn L₀) h (heightsIn t.ledger) := by
    have := o.absorbs
    cases this with
    | cons ha hnil =>
      cases hnil
      exact ha
  have hfinal : ∀ b, t.ledger.blockConfirmed b = true ↔
      L₀.blockConfirmed b = true ∨ F.Pull (heightsIn L₀) h b := by
    intro b
    rw [g.confirmed o.sound.written,g.confirmed g.written,habs.covered_iff]
  constructor
  · intro hex b r hn hr hu ht _ hl
    have hub : ¬ F.Covered (heightsIn L₀) b := by
      rw [← g.confirmed g.written,hu]
      simp
    have hsrc := link_source g hr ht hl
    by_cases hc : F.Covered (heightsIn L₀) r.block.link
    · exact .inl ((g.confirmed g.written).mpr hc)
    · exact (hex.cemented _).mp ((hfinal _).mpr
        (.inr ((needs_pulled g hh hn hub).source hsrc hc)))
  · intro hq
    have hsub : ∀ b, t.ledger.blockConfirmed b = true →
        L₀.blockConfirmed b = true ∨ Needs C L₀ h b :=
      fun b hb => ((hfinal b).mp hb).imp_right (pulled_needs g hq)
    refine ⟨fun b => ⟨hsub b,?_⟩,fun M hM b hb => hsub b ?_⟩
    · rintro (hb | hb)
      · exact (hfinal b).mpr (.inl hb)
      · by_cases hc : F.Covered (heightsIn L₀) b
        · exact (hfinal b).mpr (.inl ((g.confirmed g.written).mpr hc))
        · exact (hfinal b).mpr (.inr (needs_pulled g hh hb hc))
    · -- heights only grow from a commit to the end
      obtain ⟨hw,-⟩ := o.sound.commits M hM
      rw [g.confirmed hw] at hb
      rw [g.confirmed o.sound.written]
      exact hb.mono ((pairwise_append.mp o.sound.ascending).2.2 M hM _
        (mem_singleton_self _))

end

theorem sampleOpened_linksNeeded : LinksNeeded sample sampleOpened 6 := by
  intro b r hn hr _ _ hsend _
  have hb : b ∈ [6,3,2] := needs_listed (by decide +kernel) (by decide) hn
  have hplain : [(6 : BlockHash),3,2].all (fun b => (sampleOpened.blocks[b]?).all (fun r =>
      !r.sideband.details.isSend)) = true := by decide +kernel
  have := all_eq_true.mp hplain b hb
  rw [hr,all_some,hsend] at this
  cases this

def linking : Constants := { sample with
  hash := fun
    | .open_ _ => 2
    | .send _ => 3
    | .receive _ => 4
    | .change _ => 5
    | .state h => if h.previous = 0 then 6 else 9 }

def linkingChange : Block := ⟨.change ⟨3,9⟩,0,0⟩

def linkingSend : Block := ⟨.state ⟨7,6,9,4,5⟩,0,0⟩

def linkingBlocks : Set Hashables :=
  {linking.genesis.hashables,sampleSend.hashables,sampleOpen.hashables,linkingChange.hashables,
    linkingSend.hashables}

theorem linking_sound : HashSound linking linkingBlocks := by
  refine .of_forall ?_ ?_ (.inl rfl)
  · rintro a (rfl | rfl | rfl | rfl | rfl) b (rfl | rfl | rfl | rfl | rfl) h <;>
      first | rfl | (revert h; decide)
  · rintro a (rfl | rfl | rfl | rfl | rfl) <;> decide

theorem linking_grounded : Grounded linking linkingBlocks := by
  refine ⟨fun b => match b with
    | .open_ _ => 0
    | .send _ => 1
    | .state h => if h.previous = 0 then 2 else 3
    | _ => 2,?_⟩
  rintro a (rfl | rfl | rfl | rfl | rfl) b (rfl | rfl | rfl | rfl | rfl) h <;> revert h <;>
    unfold Mentions <;> decide

def linkingLedger : Ledger :=
  [sampleSend,sampleOpen,linkingChange,linkingSend].foldl (processed linking)
    (storeInitialize linking 0)

theorem linkingLedger_reachable : Reachable linking linkingBlocks linkingLedger := by
  have h1 := reachable_processed linking_sound (.start 0)
    (.inr (.inl rfl)) (epochOpens_none (by decide))
  have h2 := reachable_processed linking_sound h1
    (.inr (.inr (.inl rfl))) (epochOpens_none (by decide))
  have h3 := reachable_processed linking_sound h2
    (.inr (.inr (.inr (.inl rfl)))) (epochOpens_none (by decide))
  exact reachable_processed linking_sound h3
    (.inr (.inr (.inr (.inr rfl)))) (epochOpens_none (by decide))

theorem linking_needs (hn : Needs linking linkingLedger 9 b) : b ∈ [9,6,3,2] :=
  needs_listed (by decide +kernel) (by decide) hn

end Vxldollar.Exactness
