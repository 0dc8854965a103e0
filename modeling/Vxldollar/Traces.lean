import Vxldollar.Sources

/-!
# What a run of a processor leaves behind

The ledger of a run is the one it started from with other confirmation
heights. The blocks handed to the observers, together with those cemented in
the open transaction, list a growth of the cemented set; every commit stands
somewhere along such a growth.
-/

namespace Vxldollar.Traces
open Blocks Store Confirmation Cementing Sources List

abbrev heightsIn (L : Ledger) (a : Account) : ℕ := (L.confirmationHeightGet a).height

/-- Only confirmation heights were written; frontiers and the count agree with
them. -/
structure Written (F : Forest Account BlockHash) (L₀ L : Ledger) : Prop where
  rest : L = { L₀ with
    confirmationHeight := L.confirmationHeight
    cache.cementedCount := L.cache.cementedCount }
  frontier : ∀ (a : Account) (i : ConfirmationHeightInfo), L.confirmationHeight[a]? = some i →
    F.mem i.frontier ∧ F.account i.frontier = a ∧ F.height i.frontier = i.height
  count : L.cache.cementedCount = heights L

/-- `rs` are the blocks cemented since the last notification and `W` the
heights that all listed blocks reach. -/
structure Sound (F : Forest Account BlockHash) (L₀ : Ledger) (t : Trace) (rs : List StoredBlock)
    (W : Account → ℕ) : Prop where
  written : Written F L₀ t.ledger
  commits : ∀ L ∈ t.commits, Written F L₀ L ∧ ∃ bs, F.Advances (heightsIn L₀) bs (heightsIn L)
  ascending : (t.commits ++ [t.ledger]).Pairwise (fun L L' => ∀ a, heightsIn L a ≤ heightsIn L' a)
  listed : ∃ bs, Forall₂ (fun h r => L₀.blocks[h]? = some r) bs (t.notified.flatten ++ rs) ∧
    F.Advances (heightsIn L₀) bs W

variable {C : Constants} {F : Forest Account BlockHash} {L₀ L : Ledger} {t t' : Trace}
  {rs rs' : List StoredBlock} {W W' : Account → ℕ}

section
variable (h : Written F L₀ L)
include h

theorem Written.blocks : L.blocks = L₀.blocks := by
  rw [h.rest]

theorem Written.accounts : L.accounts = L₀.accounts := by
  rw [h.rest]

theorem Written.backed (B : Backed C F L₀) : Backed C F L :=
  B.congr h.blocks h.accounts

theorem Written.frontier_at {a : Account} (ha : heightsIn L a ≠ 0) :
    F.mem (L.confirmationHeightGet a).frontier ∧
      F.account (L.confirmationHeightGet a).frontier = a ∧
      F.height (L.confirmationHeightGet a).frontier = heightsIn L a := by
  unfold heightsIn Ledger.confirmationHeightGet at ha ⊢
  cases hi : L.confirmationHeight[a]? with
  | none =>
    rw [hi] at ha
    exact absurd rfl ha
  | some i => exact h.frontier a i hi

end

section
variable (a : Account) (k : ℕ) (b : BlockHash) (num : ℕ)
include a k b num

theorem heightsIn_put :
    heightsIn (t.put a k b num).ledger = Function.update (heightsIn t.ledger) a k := by
  funext c
  unfold heightsIn Ledger.confirmationHeightGet Trace.put
  dsimp only
  rw [Table.get_insert]
  by_cases e : c = a
  · subst e
    simp
  · rw [if_neg e,Function.update_of_ne e]

theorem heights_put :
    heights (t.put a k b num).ledger+heightsIn t.ledger a = heights t.ledger+k := by
  unfold heights heightsIn Ledger.confirmationHeightGet Trace.put
  dsimp only
  cases hi : t.ledger.confirmationHeight[a]? with
  | none =>
    rw [Table.total_insert _ _ _ _ hi]
    simp only [Option.getD_none]
    omega
  | some i =>
    have := Table.total_replace (fun _ (i : ConfirmationHeightInfo) => i.height)
      t.ledger.confirmationHeight a i ⟨k,b⟩ hi
    simp only [Option.getD_some]
    omega

end

theorem Sound.congr (h : Sound F L₀ t rs W) (hl : t'.ledger = t.ledger)
    (hc : t'.commits = t.commits) (hn : t'.notified = t.notified) : Sound F L₀ t' rs W where
  written := hl ▸ h.written
  commits := hc ▸ h.commits
  ascending := by
    rw [hl,hc]
    exact h.ascending
  listed := hn ▸ h.listed

theorem Sound.start (hW : Written F L₀ L₀) (hl : t.ledger = L₀) (hc : t.commits = [])
    (hn : t.notified = []) : Sound F L₀ t [] (heightsIn L₀) where
  written := hl ▸ hW
  commits := by simp [hc]
  ascending := by simp [hc]
  listed := ⟨[],by simp [hn],.nil _⟩

theorem Sound.extend (h : Sound F L₀ t rs W) (bs : List BlockHash)
    (hr : Forall₂ (fun h r => L₀.blocks[h]? = some r) bs rs') (ha : F.Advances W bs W') :
    Sound F L₀ t (rs ++ rs') W' where
  written := h.written
  commits := h.commits
  ascending := h.ascending
  listed := by
    obtain ⟨cs,hcs,hadv⟩ := h.listed
    refine ⟨cs ++ bs,?_,hadv.append ha⟩
    rw [← append_assoc]
    exact rel_append hcs hr

theorem Sound.notify (h : Sound F L₀ t rs W) : Sound F L₀ (t.notify rs) [] W where
  written := h.written
  commits := h.commits
  ascending := h.ascending
  listed := by
    obtain ⟨bs,hbs,hadv⟩ := h.listed
    refine ⟨bs,?_,hadv⟩
    simpa [Trace.notify] using hbs

theorem Sound.commit (h : Sound F L₀ t rs (heightsIn t.ledger)) :
    Sound F L₀ t.commit rs (heightsIn t.ledger) where
  written := h.written
  commits := by
    intro L hL
    rcases mem_append.mp hL with hL | hL
    · exact h.commits L hL
    · obtain rfl := mem_singleton.mp hL
      obtain ⟨bs,-,hadv⟩ := h.listed
      exact ⟨h.written,bs,hadv⟩
  ascending := by
    change ((t.commits ++ [t.ledger]) ++ [t.ledger]).Pairwise _
    rw [pairwise_append]
    refine ⟨h.ascending,pairwise_singleton _ _,?_⟩
    intro L hL L' hL' a
    obtain rfl := mem_singleton.mp hL'
    rcases mem_append.mp hL with hL | hL
    · exact (pairwise_append.mp h.ascending).2.2 L hL _ (mem_singleton_self _) a
    · obtain rfl := mem_singleton.mp hL
      exact Nat.le_refl _
  listed := h.listed

theorem Sound.put (h : Sound F L₀ t rs W) {b : BlockHash} (num : ℕ) (hb : F.mem b)
    (hle : heightsIn t.ledger (F.account b) ≤ F.height b)
    (hnum : num = F.height b-heightsIn t.ledger (F.account b)) :
    Sound F L₀ (t.put (F.account b) (F.height b) b num) rs W where
  written := {
    rest := congrArg (fun L => { L with
      confirmationHeight := (t.put (F.account b) (F.height b) b num).ledger.confirmationHeight
      cache.cementedCount := t.ledger.cache.cementedCount+num }) h.written.rest
    frontier := by
      intro a i hi
      change (t.ledger.confirmationHeight.insert _ _)[a]? = some i at hi
      rw [Table.get_insert] at hi
      split at hi
      · rename_i e
        cases hi
        exact ⟨hb,e.symm,rfl⟩
      · exact h.written.frontier a i hi
    count := by
      have hs := heights_put (t := t) (F.account b) (F.height b) b num
      have hc := h.written.count
      change t.ledger.cache.cementedCount+num = _
      omega }
  commits := h.commits
  ascending := by
    have hasc := pairwise_append.mp h.ascending
    refine pairwise_append.mpr ⟨hasc.1,pairwise_singleton _ _,?_⟩
    intro L hL L' hL' a
    obtain rfl := mem_singleton.mp hL'
    refine Nat.le_trans (hasc.2.2 L hL _ (mem_singleton_self _) a) ?_
    rw [heightsIn_put,Function.update_apply]
    split
    · subst a
      exact hle
    · exact Nat.le_refl _
  listed := h.listed
end Vxldollar.Traces
