import Vxldollar.Chains

/-!
# Positions in a chain

Following `previous` from a block visits one block of its account at every
smaller height and ends after the opening block. An account has one block at
each height, none above its head.
-/

namespace Vxldollar.Heights
open Blocks Vxldollar.Lattice Chains

variable {C : Constants} {U : Set Hashables} {S : HashSound C U} {X : Nodes} {h g : BlockHash}
  {n m x y : Node}

def back (X : Nodes) (h : BlockHash) : BlockHash := ((X h).map Node.previous).getD 0

theorem back_eq (hX : X h = some n) : back X h = n.previous := by
  rw [back,hX]
  rfl

section
variable (hb : Built S X) (hX : X h = some n)
include hb hX

theorem height_pos : 1 ≤ n.height := by
  by_cases hp : n.previous = 0
  · exact (built_opening hb hX hp).1.ge
  · obtain ⟨p,-,-,-,hh,-⟩ := built_following hb hX hp
    omega

theorem previous_of_height :
    n.previous = 0 ↔ n.height = 1 := by
  refine ⟨fun hp => (built_opening hb hX hp).1,fun hh => ?_⟩
  by_contra hp
  obtain ⟨p,hp',-,-,hh',-⟩ := built_following hb hX hp
  have := height_pos hb hp'
  omega

theorem back_iterate (k : ℕ) (hk : k < n.height) :
    ∃ m, X ((back X)^[k] h) = some m ∧ m.account = n.account ∧ m.height+k = n.height ∧
      m.openBlock = n.openBlock := by
  induction k with
  | zero => exact ⟨n,hX,rfl,rfl,rfl⟩
  | succ k ih =>
    obtain ⟨m,hm,hacc,hheight,hopen⟩ := ih (by omega)
    have hp : m.previous ≠ 0 := by
      rw [Ne,previous_of_height hb hm]
      omega
    obtain ⟨p,hp',hpa,-,hph,hpo⟩ := built_following hb hm hp
    refine ⟨p,?_,hpa.trans hacc,by omega,hpo.symm.trans hopen⟩
    rw [Function.iterate_succ_apply',back_eq hm]
    exact hp'

theorem back_opening :
    (back X)^[n.height-1] h = n.openBlock ∧ (back X)^[n.height] h = 0 := by
  have hpos := height_pos hb hX
  obtain ⟨m,hm,-,hheight,hopen⟩ := back_iterate hb hX (n.height-1) (by omega)
  have hp : m.previous = 0 := (previous_of_height hb hm).mpr (by omega)
  constructor
  · rw [← hopen]
    exact (built_opening hb hm hp).2.symm
  · obtain ⟨k,hk⟩ : ∃ k, n.height = k+1 := ⟨n.height-1,by omega⟩
    rw [hk,Nat.add_sub_cancel] at hm
    rw [hk,Function.iterate_succ_apply',back_eq hm,hp]

end

theorem height_unique (hb : Built S X) (hh : X h = some x) (hg : X g = some y)
    (hacc : x.account = y.account) (he : x.height = y.height) : h = g := by
  induction hk : x.height generalizing h g x y with
  | zero =>
    have := height_pos hb hh
    omega
  | succ k ih =>
    by_cases hp : x.previous = 0
    · have hy : y.previous = 0 := by
        rw [previous_of_height hb hg,← he]
        exact (previous_of_height hb hh).mp hp
      exact one_opening hb hh hg hacc hp hy
    · have hy : y.previous ≠ 0 := by
        rw [Ne,previous_of_height hb hg,← he,← previous_of_height hb hh]
        exact hp
      obtain ⟨p,hp',hpa,-,hph,-⟩ := built_following hb hh hp
      obtain ⟨q,hq',hqa,-,hqh,-⟩ := built_following hb hg hy
      have hpq := ih hp' hq' (by rw [hpa,hqa,hacc]) (by omega) (by omega)
      exact one_successor hb hh hg hpq hp

variable (hb : Built S X) (hX : X h = some m) (hg : Head X g x) (hacc : m.account = x.account)
include hb hX hg hacc

theorem height_le_head : m.height ≤ x.height := by
  by_contra hlt
  have hpos := height_pos hb hg.1
  obtain ⟨a,ha,haa,hah,-⟩ := back_iterate hb hX (m.height-(x.height+1)) (by omega)
  have hp : a.previous ≠ 0 := by
    rw [Ne,previous_of_height hb ha]
    omega
  obtain ⟨p,hp',hpa,-,hph,-⟩ := built_following hb ha hp
  have hpg := height_unique hb hp' hg.1 (by rw [hpa,haa,hacc]) (by omega)
  exact hg.2 _ a ha hpg

theorem walk_reaches : (back X)^[x.height-m.height] g = h := by
  have hle := height_le_head hb hX hg hacc
  have hpos := height_pos hb hX
  obtain ⟨a,ha,haa,hah,-⟩ := back_iterate hb hg.1 (x.height-m.height) (by omega)
  exact height_unique hb ha hX (by rw [haa,hacc]) (by omega)

end Vxldollar.Heights
