import Vxldollar.Runs

/-!
# The ledger is a function of its blocks

A lattice is determined by the hashes it holds, so two runs that end with the
same blocks end with the same tables and caches, whatever was processed and
rolled back on the way. Only the local times differ.
-/

namespace Vxldollar.Independence
open Blocks Store Vxldollar.Lattice Chains Mirror Totals Runs Option

def timeless (s : Sideband) : Sideband := { s with timestamp := 0 }

def unmodified (i : AccountInfo) : AccountInfo := { i with modified := 0 }

structure Agree (L L' : Ledger) : Prop where
  sidebands : ∀ h : BlockHash, L.blocks[h]?.map (fun r => timeless r.sideband) =
    L'.blocks[h]?.map (fun r => timeless r.sideband)
  accounts : ∀ a : Account, L.accounts[a]?.map unmodified = L'.accounts[a]?.map unmodified
  pending : L.pending = L'.pending
  frontiers : L.frontiers = L'.frontiers
  repWeights : ∀ a, representationGet L.cache.repWeights a =
    representationGet L'.cache.repWeights a
  blockCount : L.cache.blockCount = L'.cache.blockCount
  accountCount : L.cache.accountCount = L'.cache.accountCount

section
variable {C : Constants} {U : Set Hashables} {S : HashSound C U} {X Y : Nodes} {L L' : Ledger}
  {h g : BlockHash} {n m : Node}

theorem justified_unique (hj : Justified C U X h n) (hj' : Justified C U Y h m)
    (hs : n.hashables = m.hashables) (hp : X n.previous = Y n.previous)
    (hsrc : n.move.source.bind X = n.move.source.bind Y) : n = m := by
  have hpm : n.previous = m.previous := congrArg Hashables.previous hs
  have hmove : n.move = m.move := by
    rw [justified_move hj,justified_move hj',hs,hp,hpm]
  rw [hj.node_eq,hj'.node_eq,hs,hp,hpm,hsrc,hmove]

section
variable (hX : Built S X) (hY : Built S Y)
include hX hY

theorem built_agree (hh : X h = some n) (hm : Y h = some m) :
    n = m := by
  induction hX generalizing h n m with
  | seed =>
    obtain ⟨rfl,rfl⟩ := seed_eq_some.mp hh
    exact some.inj ((built_genesis hY).symm.trans hm)
  | @add X k q hX hk ha ih =>
    rcases (add_eq_some hk).mp hh with ⟨rfl,rfl⟩ | hh'
    · have hj : Justified C U Y h m := by
        refine (built_justified hY hm).resolve_left ?_
        rintro ⟨rfl,-⟩
        rw [built_genesis hX] at hk
        cases hk
      have hs : n.hashables = m.hashables :=
        S.injective _ ha.mem _ hj.mem (ha.hash_eq.trans hj.hash_eq.symm)
      have hpm : n.previous = m.previous := congrArg Hashables.previous hs
      have hp : X n.previous = Y n.previous := by
        by_cases h0 : n.previous = 0
        · rw [h0,built_zero hX,built_zero hY]
        · obtain ⟨p,hp,-⟩ := ha.following h0
          obtain ⟨p',hp',-⟩ := hj.following (hpm ▸ h0)
          rw [← hpm] at hp'
          rw [hp,hp',ih hp hp']
      have hmove : n.move = m.move := by
        rw [justified_move ha.toJustified,justified_move hj,hs,hp,hpm]
      have hsrc : n.move.source.bind X = n.move.source.bind Y := by
        cases hmv : n.move with
        | receive s =>
          obtain ⟨x,hx⟩ := ha.dep_present (.inr hmv)
          obtain ⟨y,hy⟩ := hj.dep_present (.inr (hmove.symm.trans hmv))
          simp [Move.source,hx,hy,ih hx hy]
        | _ => rfl
      exact justified_unique ha.toJustified hj hs hp hsrc
    · exact ih hh' hm

theorem built_subset (hdom : ∀ h n, X h = some n → ∃ m, Y h = some m) (hh : X h = some n) :
    Y h = some n := by
  obtain ⟨m,hm⟩ := hdom h n hh
  rw [hm,built_agree hX hY hh hm]

theorem built_determined (hdom : ∀ h, (∃ n, X h = some n) ↔ ∃ m, Y h = some m) : X = Y := by
  funext h
  cases hx : X h with
  | some n => exact (built_subset hX hY (fun g m hg => (hdom g).mp ⟨m,hg⟩) hx).symm
  | none =>
    cases hy : Y h with
    | none => rfl
    | some m =>
      obtain ⟨n,hn⟩ := (hdom h).mpr ⟨m,hy⟩
      simp [hx] at hn

end

theorem successor_unique (hb : Built S X) (hX : X h = some n) {s t : BlockHash}
    (hs : SuccessorOf X h s) (ht : SuccessorOf X h t) : s = t := by
  rcases hs with ⟨rfl,hno⟩ | ⟨x,hx,hxp⟩
  · rcases ht with ⟨rfl,-⟩ | ⟨y,hy,hyp⟩
    · rfl
    · exact absurd hyp (hno t y hy)
  · rcases ht with ⟨-,hno⟩ | ⟨y,hy,hyp⟩
    · exact absurd hxp (hno s x hx)
    · exact one_successor hb hx hy (hxp.trans hyp.symm) (hxp ▸ built_key_ne_zero hb hX)

theorem timeless_sideband (n : Node) (s : BlockHash) (t : ℕ) :
    timeless (n.sideband s t) = n.sideband s 0 := by
  unfold timeless Node.sideband
  cases n.hashables.type <;> rfl

section
variable (hb : Built S X) (M : Mirrors L X) (M' : Mirrors L' X)
include hb M M'

theorem mirrors_sidebands (h : BlockHash) :
    L.blocks[h]?.map (fun r => timeless r.sideband) =
      L'.blocks[h]?.map (fun r => timeless r.sideband) := by
  cases hX : X h with
  | none => rw [M.absent.mpr hX,M'.absent.mpr hX]
  | some n =>
    obtain ⟨r,hr,hs⟩ := M.get hX
    obtain ⟨r',hr',hs'⟩ := M'.get hX
    rw [hr,hr',map_some,map_some,hs.sideband,hs'.sideband,timeless_sideband,
      timeless_sideband,successor_unique hb hX hs.successor hs'.successor]

theorem mirrors_accounts (a : Account) :
    L.accounts[a]?.map unmodified = L'.accounts[a]?.map unmodified := by
  cases hi : L.accounts[a]? with
  | none => rw [(M'.unopened hb a).mpr ((M.unopened hb a).mp hi)]
  | some i =>
    obtain ⟨g,n,hh,rfl,e⟩ := M.account a i hi
    obtain ⟨t,ht⟩ := M'.head hb hh
    rw [ht,e]
    rfl

theorem mirrors_represented (a : Account) :
    represented L.accounts a = represented L'.accounts a := by
  refine Table.total_congr _ _ _ _ fun c => ?_
  have hf : (fun i => if i.representative = a then i.balance else 0) =
      (fun i => if i.representative = a then i.balance else 0) ∘ unmodified := rfl
  rw [hf,← map_map,← map_map,mirrors_accounts hb M M' c]

end

theorem isSome_congr {α β : Type} {f : α → β} {x y : Option α} (h : x.map f = y.map f) :
    x.isSome = y.isSome := by
  have := congrArg isSome h
  simpa using this

theorem mirrors_agree (hb : Built S X) (M : Mirrors L X) (M' : Mirrors L' X)
    (hd : ∀ a, defect L a = 0) (hd' : ∀ a, defect L' a = 0) : Agree L L' where
  sidebands := mirrors_sidebands hb M M'
  accounts := mirrors_accounts hb M M'
  pending := Table.ext_get fun k => ext fun i => (M.pending k i).trans (M'.pending k i).symm
  frontiers := Table.ext_get fun h =>
    ext fun a => (M.frontier h a).trans (M'.frontier h a).symm
  repWeights := by
    intro a
    have h1 := hd a
    have h2 := hd' a
    unfold defect at h1 h2
    rw [sub_eq_zero.mp h1,sub_eq_zero.mp h2,mirrors_represented hb M M' a]
  blockCount := by
    rw [M.blockCount,M'.blockCount]
    exact Growth.count_congr _ _ fun h => isSome_congr (mirrors_sidebands hb M M' h)
  accountCount := by
    rw [M.accountCount,M'.accountCount]
    exact Growth.count_congr _ _ fun a => isSome_congr (mirrors_accounts hb M M' a)

end

/-- Two reachable ledgers that hold the same block hashes agree up to the local
times, whatever their histories. -/
theorem history_independent {C : Constants} {U : Set Hashables} (S : HashSound C U)
    {L L' : Ledger} (hr : Reachable C U L) (hr' : Reachable C U L')
    (hsame : ∀ h, L.blocks.contains h = L'.blocks.contains h) : Agree L L' := by
  obtain ⟨X,V⟩ := reachable_valid S hr
  obtain ⟨Y,V'⟩ := reachable_valid S hr'
  obtain rfl : X = Y := by
    refine built_determined V.built V'.built fun h => ?_
    rw [← V.mirrors.contains,← V'.mirrors.contains,hsame h]
  exact mirrors_agree V.built V.mirrors V'.mirrors V.defect V'.defect

def sampleAgain : Ledger := processed sample
  (((Rollback.rollback sample 1 3 sampleOpened 3 []).map (fun r => r.2.1)).getD sampleOpened)
  sampleSend

theorem sampleAgain_reachable : Reachable sample sampleBlocks sampleAgain := by
  obtain ⟨⟨e,L,list⟩,hr⟩ :
      ∃ r, Rollback.rollback sample 1 3 sampleOpened 3 [] = some r :=
    isSome_iff_exists.mp (by decide +kernel)
  have hrun : Reachable sample sampleBlocks L :=
    .rollback sampleOpened_reachable (by decide +kernel) hr
  unfold sampleAgain
  rw [hr]
  exact reachable_processed sample_sound hrun (.inr (.inl rfl))
    (epochOpens_none (by decide))

theorem history_independent_sample : Reachable sample sampleBlocks sampleSent ∧
    Reachable sample sampleBlocks sampleAgain ∧
    sampleSent.blocks.keys = sampleAgain.blocks.keys ∧ Agree sampleSent sampleAgain := by
  have hkeys : sampleSent.blocks.keys = sampleAgain.blocks.keys := by decide +kernel
  refine ⟨sampleSent_reachable,sampleAgain_reachable,hkeys,
    history_independent sample_sound sampleSent_reachable sampleAgain_reachable fun h => ?_⟩
  have hk := congrArg (fun l => l.contains h) hkeys
  rw [Bool.eq_iff_iff]
  simpa using hk

end Vxldollar.Independence
