import Vxldollar.Growth
import Mathlib.Tactic.LinearCombination

/-!
# Totals kept by growth

The supply is the sum of all balances and all pending amounts, as natural
numbers. The weight of a representative is the sum of the balances of the
accounts that name it. Growth by an admitted node keeps the supply, and keeps
the difference between the cached weights and the represented balances.
-/

namespace Vxldollar.Totals
open Blocks Store Vxldollar.Lattice Chains Mirror Growth

def supply (L : Ledger) : ℕ :=
  Table.total (fun _ i => i.balance.toNat) L.accounts+
    Table.total (fun _ i => i.amount.toNat) L.pending

def represented (accounts : Std.ExtTreeMap Account AccountInfo) (a : Account) : Amount :=
  Table.total (fun _ i => if i.representative = a then i.balance else 0) accounts

/-- How far the cached weight of a representative is from what it represents. -/
def defect (L : Ledger) (a : Account) : Amount :=
  representationGet L.cache.repWeights a-represented L.accounts a

def share (n : Node) (a : Account) : Amount := if n.representative = a then n.balance else 0

def priorShare (X : Nodes) (n : Node) (a : Account) : Amount :=
  ((X n.previous).map (fun p => share p a)).getD 0

def WeightShift (w w' : RepWeights) (X : Nodes) (n : Node) : Prop :=
  ∀ a, representationGet w' a+priorShare X n a = representationGet w a+share n a

variable {C : Constants} {U : Set Hashables} {S : HashSound C U} {X : Nodes} {L L' : Ledger}
  {hash : BlockHash} {n p : Node} {t : ℕ} {w w' : RepWeights}

theorem shift_of_following (hX : X n.previous = some p)
    (h : ∀ a, representationGet w' a+share p a = representationGet w a+share n a) :
    WeightShift w w' X n := by
  intro a
  rw [priorShare,hX]
  exact h a

theorem shift_of_opening (hX : X n.previous = none)
    (h : ∀ a, representationGet w' a = representationGet w a+share n a) :
    WeightShift w w' X n := by
  intro a
  rw [priorShare,hX]
  exact (add_zero _).trans (h a)

theorem admits_spend (ha : Admits C U X hash n) {d : Account} (hm : n.move = .send d) :
    n.balance.toNat+n.amount.toNat = (previousBalance (X n.previous)).toNat := by
  have hc := ha.covered
  unfold Covered at hc
  rw [hm] at hc
  have hle : n.balance ≤ previousBalance (X n.previous) := hc
  have hnot : ¬ n.balance > previousBalance (X n.previous) := BitVec.not_lt.mpr hle
  rw [justified_amount ha.toJustified,difference,if_neg hnot,BitVec.toNat_sub_of_le hle]
  have := BitVec.le_def.mp hle
  omega

theorem admits_keep (ha : Admits C U X hash n) (hm : n.move = .keep ∨ n.move = .upgrade) :
    n.balance = previousBalance (X n.previous) := by
  have hc := ha.covered
  unfold Covered at hc
  rcases hm with hm | hm <;> rwa [hm] at hc

theorem supply_grow (M : Mirrors L X) (hb : Built S X) (ha : Admits C U X hash n)
    (hk : X hash = none) (hacc : L'.accounts = L.accounts.insert n.account (infoOf hash n t))
    (hpend : L'.pending = pendingGrown n hash L.pending) : supply L' = supply L := by
  have htot := accounts_total (fun i => i.balance.toNat) (fun _ _ _ _ => rfl) M hb ha t
  have hprev : ((X n.previous).map (fun p => (infoOf n.previous p 0).balance.toNat)).getD 0 =
      (previousBalance (X n.previous)).toNat := by
    unfold previousBalance
    cases X n.previous <;> rfl
  have hnew : (infoOf hash n t).balance.toNat = n.balance.toNat := rfl
  rw [hprev,hnew] at htot
  unfold supply
  rw [hacc,hpend]
  unfold pendingGrown
  cases hm : n.move with
  | send d =>
    have hnone : L.pending[(⟨d,hash⟩ : PendingKey)]? = none := by
      by_contra hne
      obtain ⟨i,hi⟩ := Option.ne_none_iff_exists'.mp hne
      obtain ⟨m,hu,-⟩ := (M.pending _ _).mp hi
      simp [hu.1] at hk
    have hspend := admits_spend ha hm
    simp only [Table.total_insert _ _ _ _ hnone,pendingOf]
    omega
  | receive s =>
    obtain ⟨m,hu,hbal⟩ := admits_source ha hm
    have hsome : L.pending[(⟨n.account,s⟩ : PendingKey)]? = some (pendingOf m) :=
      (M.pending _ _).mpr ⟨m,hu,rfl⟩
    have herase := Table.total_erase (fun _ (i : PendingInfo) => i.amount.toNat) _ _ _ hsome
    have hamount : (pendingOf m).amount.toNat = m.amount.toNat := rfl
    rw [hamount] at herase
    simp only
    omega
  | keep =>
    have hbal := admits_keep ha (.inl hm)
    simp only
    rw [hbal] at htot
    omega
  | upgrade =>
    have hbal := admits_keep ha (.inr hm)
    simp only
    rw [hbal] at htot
    omega

variable (M : Mirrors L X) (hb : Built S X) (ha : Admits C U X hash n)
  (hacc : L'.accounts = L.accounts.insert n.account (infoOf hash n t))
include M hb ha hacc

theorem represented_grow (a : Account) :
    represented L'.accounts a+priorShare X n a = represented L.accounts a+share n a := by
  have htot := accounts_total (fun i => if i.representative = a then i.balance else 0)
    (fun _ _ _ _ => rfl) M hb ha t
  rw [hacc]
  exact htot

theorem defect_grow (hw : WeightShift L.cache.repWeights L'.cache.repWeights X n) (a : Account) :
    defect L' a = defect L a := by
  have htot := represented_grow M hb ha hacc a
  have hshift := hw a
  unfold defect
  linear_combination hshift-htot

end Vxldollar.Totals
