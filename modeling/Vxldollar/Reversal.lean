import Vxldollar.Runs

/-!
# The specification of `rollback`

On a reachable ledger, a cemented block cannot be rolled back and nothing
changes. Any other block is removed together with exactly the blocks that
transitively depend on it.
-/

namespace Vxldollar.Reversal
open Blocks Store Vxldollar.Lattice Chains Mirror Rollback RollbackSpec Confirmation Runs

section
variable (C : Constants) (L : Ledger)

def Follows (h g : BlockHash) : Prop := ∃ r, L.blocks[g]? = some r ∧ DependsOn C r h

def Removed (h g : BlockHash) : Prop := Relation.ReflTransGen (Follows C L) h g

/-- A completed rollback: the ledger it left and the blocks it listed. -/
structure RolledBack (h : BlockHash) (L' : Ledger) (l : RollbackList) : Prop where
  blocks : ∀ g : BlockHash, L'.blocks.contains g = true ↔
    L.blocks.contains g = true ∧ ¬ Removed C L h g
  kept : ∀ (g : BlockHash) r, L'.blocks[g]? = some r →
    ∃ r0, L.blocks[g]? = some r0 ∧ r0.block = r.block
  listed : ∀ g, g ∈ l.map (fun r => C.blockHash r.block) ↔ Removed C L h g
  once : (l.map (fun r => C.blockHash r.block)).Nodup
  recorded : ∀ r ∈ l, ∃ r0, L.blocks[C.blockHash r.block]? = some r0 ∧ r0.block = r.block
  blockCount : L'.cache.blockCount+l.length = L.cache.blockCount

end

section
variable {C : Constants} {U : Set Hashables} {S : HashSound C U} {X : Nodes} {L L' : Ledger}
  {h g : BlockHash} {n : Node} {l : RollbackList}

section
variable (M : Mirrors L X) (hb : Built S X)
include M hb

theorem follows_iff (a b : BlockHash) :
    Follows C L a b ↔ Causal.Direct (rules S) X a b := by
  constructor
  · rintro ⟨r,hr,hd⟩
    obtain ⟨n,hn,hs⟩ := M.block b r hr
    exact ⟨n,hn,(dependsOn_iff hb hn hs).mp hd⟩
  · rintro ⟨n,hn,hd⟩
    obtain ⟨r,hr,hs⟩ := M.get hn
    exact ⟨r,hr,(dependsOn_iff hb hn hs).mpr hd⟩

theorem removed_iff :
    Removed C L h g ↔ g ∈ Causal.dependents (rules S) X h := by
  have heq : Follows C L = Causal.Direct (rules S) X :=
    funext fun a => funext fun b => propext (follows_iff M hb a b)
  rw [Removed,heq]
  rfl

theorem rolledBack_of_clears (c : Clears S L L' X (Causal.dependents (rules S) X h) l) :
    RolledBack C L h L' l where
  blocks := by
    intro g
    rw [c.mirrors.contains,M.contains,removed_iff M hb]
    simp only [Causal.without_eq_some]
    exact ⟨fun ⟨n,hg,hn⟩ => ⟨⟨n,hn⟩,hg⟩,fun ⟨⟨n,hn⟩,hg⟩ => ⟨n,hg,hn⟩⟩
  kept := c.kept
  listed := fun g => (c.exact_ g).trans (removed_iff M hb).symm
  once := c.once
  recorded := c.recorded
  blockCount := c.blockCount

end

theorem dependents_count (c : Clears S L L' X (Causal.dependents (rules S) X h) l) :
    (Causal.dependents (rules S) X h).ncard = l.length := by
  have hset : Causal.dependents (rules S) X h =
      ↑(l.map (fun r => C.blockHash r.block)).toFinset := by
    ext g
    rw [← c.exact_ g]
    simp
  rw [hset,Set.ncard_coe_finset,List.toFinset_card_of_nodup c.once,List.length_map]

end

/-- `rollback` on a block of a reachable ledger. A bound large enough for the
call to return is the number of blocks plus one. -/
theorem rollback_specification {C : Constants} {U : Set Hashables} (S : HashSound C U)
    {L : Ledger} (hr : Reachable C U L) {h : BlockHash} {r : StoredBlock}
    (hh : L.blocks[h]? = some r) (now : ℕ) (list : RollbackList) :
    Closed C L ∧
    (r.sideband.height ≤ (L.confirmationHeightGet r.accountCalculated).height →
      ∀ fuel, rollback C now (fuel+1) L h list = some (true,L,list)) ∧
    ((L.confirmationHeightGet r.accountCalculated).height < r.sideband.height →
      ∃ L' l, RolledBack C L h L' l ∧ ∀ fuel > L.cache.blockCount,
        rollback C now fuel L h list = some (false,L',list++l)) := by
  obtain ⟨X,V⟩ := reachable_valid S hr
  obtain ⟨n,hX,hs⟩ := V.mirrors.block h r hh
  rw [stores_account V.built hX hs,stores_height V.built hX hs]
  refine ⟨?_,fun hc fuel => rollback_cemented V.mirrors V.built hX hc fuel list,fun hc => ?_⟩
  · intro g q hq hconf d hd
    obtain ⟨m,hm,hms⟩ := V.mirrors.block g q hq
    obtain ⟨m',hm',hcem⟩ := V.confirmed.mp hconf
    cases hm.symm.trans hm'
    have hmem := (dependsOn_iff V.built hm hms).mp hd
    obtain ⟨x,hx⟩ := Causal.Built.deps_present V.built hm hmem
    exact V.confirmed.mpr ⟨x,hx,V.closed g m hm hcem d hmem x hx⟩
  · obtain ⟨L',l,hroll,c,-⟩ := rollback_callSpec now _ L X h n list V.built V.mirrors hX
      (V.free hX (Nat.not_le_of_lt hc)) (Nat.lt_succ_self _)
    refine ⟨L',l,rolledBack_of_clears V.mirrors V.built c,fun fuel hf => ?_⟩
    have hcount := dependents_count c
    have htotal := c.blockCount
    exact (rollback_extends (by omega) _ _ _).eq hroll

theorem rollback_specification_sample : Reachable sample sampleBlocks sampleOpened ∧
    ∃ r L' l, sampleOpened.blocks[(3 : BlockHash)]? = some r ∧
      RolledBack sample sampleOpened 3 L' l ∧
      rollback sample 0 4 sampleOpened 3 [] = some (false,L',l) := by
  obtain ⟨r,hr⟩ : ∃ r, sampleOpened.blocks[(3 : BlockHash)]? = some r :=
    Option.isSome_iff_exists.mp (by decide +kernel)
  have hlow : ∀ q, sampleOpened.blocks[(3 : BlockHash)]? = some q →
      (sampleOpened.confirmationHeightGet q.accountCalculated).height < q.sideband.height := by
    have : (sampleOpened.blocks[(3 : BlockHash)]?).all (fun q =>
        (sampleOpened.confirmationHeightGet q.accountCalculated).height < q.sideband.height) =
          true := by decide +kernel
    intro q hq
    rw [hq] at this
    exact of_decide_eq_true this
  obtain ⟨L',l,hl,hroll⟩ :=
    (rollback_specification sample_sound sampleOpened_reachable hr 0 []).2.2 (hlow r hr)
  exact ⟨sampleOpened_reachable,r,L',l,hr,hl,hroll 4 (by decide +kernel)⟩

end Vxldollar.Reversal
