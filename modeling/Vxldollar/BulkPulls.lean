import Vxldollar.Framing
import Vxldollar.Structure
import Mathlib.Data.List.TakeWhile

/-!
# Answers to bulk pull requests

`bulk_pull_server` answers a request with the blocks from its start down to its end, one
for each call of `get_next` until a call returns null. It follows `previous` and does not
look at accounts, so that below an epoch block with a predecessor in another chain it goes
on in that chain.
-/

namespace Vxldollar.BulkPulls
open Blocks Store Vxldollar.Lattice Chains Mirror Heights Runs Structure Framing Option List

section
variable (L : Ledger)

/-- A request. The start is an account or a block hash. -/
structure BulkPull where
  start : BitVec 256
  stop : BlockHash
  count : Option ℕ

structure Server where
  stop : BlockHash
  current : BlockHash
  includeStart : Bool
  maxCount : ℕ
  sentCount : ℕ := 0

def setCurrentEnd (q : BulkPull) : Server :=
  let stop := if L.blocks.contains q.stop then q.stop else 0
  let maxCount := q.count.getD 0
  if L.blocks.contains q.start then ⟨stop,q.start,true,maxCount,0⟩
  else match L.accounts[q.start]? with
    | none => ⟨stop,stop,false,maxCount,0⟩
    | some info =>
      if stop ≠ 0 ∧ L.account stop ≠ some q.start then ⟨stop,stop,false,maxCount,0⟩
      else ⟨stop,info.head,false,maxCount,0⟩

def getNext (s : Server) : Option StoredBlock × Server :=
  let setCurrentToEnd := s.current = s.stop ∧ s.includeStart = true
  if (s.current ≠ s.stop ∨ setCurrentToEnd) ∧ ¬ (s.maxCount ≠ 0 ∧ s.sentCount ≥ s.maxCount) then
    let result := L.blocks[s.current]?
    let current := match result with
      | some r => if ¬ setCurrentToEnd ∧ r.block.previous ≠ 0 then r.block.previous else s.stop
      | none => s.stop
    (result,{ s with current := current, includeStart := false, sentCount := s.sentCount+1 })
  else (none,{ s with includeStart := false })

def pulled : ℕ → Server → Option (List StoredBlock)
  | 0, _ => none
  | fuel+1, s => match getNext L s with
    | (none,_) => some []
    | (some r,s') => (pulled fuel s').map (r :: ·)

def descent (h : BlockHash) : List BlockHash :=
  (range ((L.blocks[h]?.map fun r => r.sideband.height).getD 0)).map
    fun k => L.previousOf^[k] h

/-- The part of the ledger that a request asks for. -/
def segment (start : BitVec 256) (stop : BlockHash) : List BlockHash :=
  if L.blocks.contains start then
    if stop = start then [start] else (descent L start).takeWhile (· ≠ stop)
  else match L.accounts[start]? with
    | none => []
    | some info =>
      if L.blocks.contains stop = false then descent L info.head
      else if L.account stop = some start then (descent L info.head).takeWhile (· ≠ stop)
      else []

/-- The first blocks of a list, as many as may still be sent. A limit of zero is none. -/
def cut (maxCount sentCount : ℕ) (l : List BlockHash) : List BlockHash :=
  if maxCount = 0 then l else l.take (maxCount-sentCount)

end

variable {C : Constants} {U : Set Hashables} {S : HashSound C U} {X : Nodes} {L : Ledger}
  {h : BlockHash} {n : Node}

section
variable (M : Mirrors L X) (hb : Built S X)
include M hb

theorem descent_eq (hX : X h = some n) : descent L h =
    h :: if n.previous = 0 then [] else descent L n.previous := by
  obtain ⟨r,hr,hs⟩ := M.get hX
  have hback : L.previousOf h = n.previous := by rw [previousOf_eq M,back_eq hX]
  unfold descent
  rw [hr,map_some,getD_some,stores_height hb hX hs]
  by_cases h0 : n.previous = 0
  · rw [(built_opening hb hX h0).1,if_pos h0]
    rfl
  · obtain ⟨p,hp,-,-,hheight,-⟩ := built_following hb hX h0
    obtain ⟨q,hq,hqs⟩ := M.get hp
    rw [if_neg h0,hq,map_some,getD_some,stores_height hb hp hqs,hheight,
      range_succ_eq_map,map_cons,List.map_map]
    simp only [Function.iterate_zero,id_eq,cons.injEq,true_and]
    apply map_congr_left
    intro k _
    rw [Function.comp_apply,Function.iterate_succ_apply,hback]

omit M hb in
theorem pulled_stops {s : Server} (hc : s.current = s.stop) (hi : s.includeStart = false)
    {fuel : ℕ} (hf : 0 < fuel) : pulled L fuel s = some [] := by
  obtain ⟨fuel,rfl⟩ := Nat.exists_eq_succ_of_ne_zero (Nat.ne_of_gt hf)
  simp [pulled,getNext,hc,hi]

omit M hb in
theorem cut_cons {maxCount sentCount : ℕ} {l : List BlockHash}
    (hc : ¬ (maxCount ≠ 0 ∧ sentCount ≥ maxCount)) :
    cut maxCount sentCount (h :: l) = h :: cut maxCount (sentCount+1) l := by
  unfold cut
  split_ifs with h0
  · rfl
  · rw [show maxCount-sentCount = maxCount-(sentCount+1)+1 by omega,take_succ_cons]

theorem pulled_walk (s : Server) (hX : X s.current = some n)
    (hi : s.current = s.stop → s.includeStart = false) {fuel : ℕ} (hf : n.height < fuel) :
    (pulled L fuel s).map (map some) =
      some ((cut s.maxCount s.sentCount ((descent L s.current).takeWhile (· ≠ s.stop))).map
        (fun h => L.blocks[h]?)) := by
  induction fuel generalizing s n with
  | zero => omega
  | succ fuel ih =>
    rw [descent_eq M hb hX]
    by_cases hstop : s.current = s.stop
    · rw [pulled_stops hstop (hi hstop) (Nat.succ_pos fuel),hstop]
      simp [cut]
    rw [takeWhile_cons,if_pos (by simpa using hstop)]
    by_cases hc : s.maxCount ≠ 0 ∧ s.sentCount ≥ s.maxCount
    · simp [pulled,getNext,cut,hc]
    · obtain ⟨r,hr,hs⟩ := M.get hX
      have hprev := hs.previous
      have hpos := height_pos hb hX
      rw [cut_cons hc,map_cons,hr]
      simp only [pulled,getNext,hstop,hc,hr,hprev,ne_eq,not_false_eq_true,true_or,false_and,
        true_and,if_true]
      by_cases h0 : n.previous = 0
      · rw [h0,if_neg (by simp),pulled_stops rfl rfl (by omega)]
        simp [cut]
      · obtain ⟨p,hp,-,-,hheight,-⟩ := built_following hb hX h0
        rw [if_pos h0,if_neg h0]
        obtain ⟨l,hl,hmap⟩ := map_eq_some_iff.mp (ih { s with
          current := n.previous, includeStart := false, sentCount := s.sentCount+1 } hp
          (fun _ => rfl) (by omega))
        rw [hl,map_some]
        simp [hmap]

theorem descent_whole (hX : X h = some n) {stop : BlockHash} (hs : X stop = none) :
    (descent L h).takeWhile (· ≠ stop) = descent L h := by
  rw [takeWhile_eq_self_iff]
  intro g hg
  unfold descent at hg
  obtain ⟨k,hk,rfl⟩ := mem_map.mp hg
  obtain ⟨r,hr,hst⟩ := M.get hX
  rw [hr,map_some,getD_some,stores_height hb hX hst,mem_range] at hk
  obtain ⟨m,hm,-⟩ := back_iterate hb hX k hk
  rw [← previousOf_eq M] at hm
  apply decide_eq_true
  intro e
  rw [e,hs] at hm
  cases hm

end

theorem pulled_reachable (S : HashSound C U) (hL : Reachable C U L) (q : BulkPull) :
    ∃ calls, ∀ fuel, calls ≤ fuel →
      (pulled L fuel (setCurrentEnd L q)).map (map some) =
        some ((cut (q.count.getD 0) 0 (segment L q.start q.stop)).map (fun h => L.blocks[h]?)) := by
  obtain ⟨X,V⟩ := reachable_valid S hL
  have M := V.mirrors
  have hb := V.built
  unfold setCurrentEnd segment
  dsimp only
  -- the end as the server reads it
  generalize hstop : (if L.blocks.contains q.stop = true then q.stop else 0) = stop
  have hwhole : ∀ {h n}, X h = some n →
      (descent L h).takeWhile (· ≠ stop) = (descent L h).takeWhile (· ≠ q.stop) := by
    intro h n hX
    split_ifs at hstop with hc
    · rw [hstop]
    · rw [← hstop,descent_whole M hb hX (built_zero hb),descent_whole M hb hX]
      by_contra hne
      exact hc (M.contains.mpr (ne_none_iff_exists'.mp hne))
  by_cases hstart : L.blocks.contains q.start = true
  · rw [if_pos hstart,if_pos hstart]
    obtain ⟨n,hX⟩ := M.contains.mp hstart
    by_cases hsame : q.stop = q.start
    · rw [hsame,if_pos hstart] at hstop
      obtain ⟨r,hr,-⟩ := M.get hX
      refine ⟨2,fun fuel hf => ?_⟩
      obtain ⟨fuel,rfl⟩ : ∃ k, fuel = k+2 := ⟨fuel-2,by omega⟩
      have hcut : cut (q.count.getD 0) 0 [q.start] = [q.start] := by
        unfold cut
        split_ifs
        · rfl
        · exact take_of_length_le (by simp; omega)
      rw [if_pos hsame,hcut,← hstop]
      simp [pulled,getNext,hr]
    · refine ⟨n.height+1,fun fuel hf => ?_⟩
      rw [if_neg hsame,← hwhole hX]
      refine pulled_walk M hb _ hX (fun e => ?_) hf
      dsimp only at e
      split_ifs at hstop
      · exact absurd (hstop.trans e.symm) hsame
      · exact absurd (e.trans hstop.symm) (built_key_ne_zero hb hX)
  · rw [if_neg hstart,if_neg hstart]
    have hnone : ∀ {max}, ∃ calls, ∀ fuel, calls ≤ fuel →
        (pulled L fuel ⟨stop,stop,false,max,0⟩).map (map some) =
          some ((cut max 0 []).map (fun h => L.blocks[h]?)) := by
      intro max
      refine ⟨1,fun fuel hf => ?_⟩
      rw [pulled_stops rfl rfl hf]
      simp [cut]
    cases hi : L.accounts[q.start]? with
    | none => exact hnone
    | some info =>
      obtain ⟨g,n,hh,-,hinfo⟩ := M.account _ info hi
      have hhead : X info.head = some n := by
        rw [hinfo]
        exact hh.1
      have hwalk := fun fuel (hf : n.height+1 ≤ fuel) =>
        pulled_walk M hb ⟨stop,info.head,false,q.count.getD 0,0⟩ hhead (fun _ => rfl) hf
      dsimp only at hwalk ⊢
      rw [hwhole hhead] at hwalk
      split_ifs at hstop with hc <;> subst hstop
      · obtain ⟨m,hm⟩ := M.contains.mp hc
        have h0 := built_key_ne_zero hb hm
        by_cases hacc : L.account q.stop = some q.start
        · rw [if_neg (fun h => h.2 hacc),if_neg (by simp [hc]),if_pos hacc]
          exact ⟨_,hwalk⟩
        · rw [if_pos ⟨h0,hacc⟩,if_neg (by simp [hc]),if_neg hacc]
          exact hnone
      · rw [if_neg (fun h => h.1 rfl),if_pos (Bool.eq_false_iff.mpr hc)]
        rw [← hwhole hhead,descent_whole M hb hhead (built_zero hb)] at hwalk
        exact ⟨_,hwalk⟩

/-- In a run whose epoch-signed blocks for unopened accounts have no predecessor the calls
end, and until the first null they return the blocks of the segment, cut to the count of
the request. -/
theorem pulled_exact (S : HashSound C U) {os : List Offer} (hr : Run C U os L)
    (hc : ∀ o ∈ os, o.Careful C) (q : BulkPull) :
    ∃ calls, ∀ fuel, calls ≤ fuel →
      (pulled L fuel (setCurrentEnd L q)).map (map some) =
        some ((cut (q.count.getD 0) 0 (segment L q.start q.stop)).map (fun h => L.blocks[h]?)) :=
  pulled_reachable S (reachable_of_careful hr hc) q

theorem pulled_exact_sample : segment sampleSent 3 0 = [3,2] ∧
    ∃ calls, ∀ fuel, calls ≤ fuel →
      (pulled sampleSent fuel (setCurrentEnd sampleSent ⟨3,0,none⟩)).map (map some) =
        some ((cut 0 0 (segment sampleSent 3 0)).map (fun h => sampleSent.blocks[h]?)) := by
  refine ⟨by decide +kernel,pulled_exact sample_sound
    (run_offered (.start 0) (.inr (.inl rfl)) (by decide +kernel)) (fun o ho => ?_) ⟨3,0,none⟩⟩
  obtain rfl := mem_singleton.mp ho
  exact .inl (epochOpens_none (by decide))

/-- Below the epoch block of account 7 the chain of the genesis account is returned too. -/
theorem pulled_grafted : Run sample grafted
      [offered sample (storeInitialize sample 0) sendAll,offered sample emptied epochOnTop]
      (processed sample emptied epochOnTop) ∧
    segment (processed sample emptied epochOnTop) 6 0 = [6] ∧
    (pulled (processed sample emptied epochOnTop) 4
      (setCurrentEnd (processed sample emptied epochOnTop) ⟨6,0,none⟩)).map
        (map fun r => sample.hash r.block.hashables) = some [6,3,2] :=
  ⟨grafted_run,by decide +kernel,by decide +kernel⟩

end Vxldollar.BulkPulls
