import Mathlib.Data.List.TakeWhile
import Mathlib.Tactic.SplitIfs

/-!
# A table with C strings as keys

A key is handed over as an array of bytes and read up to its first zero. An insertion
under a key that is present changes nothing and says so.
-/

namespace DiskHash

abbrev Bytes := List (BitVec 8)

/-- What a function that takes a zero-terminated string reads. -/
def cString (key : Bytes) : Bytes := key.takeWhile (fun b => decide (b ≠ 0))

abbrev Table (V : Type*) := List (Bytes × V)

variable {V : Type*} {t : Table V} {key key' : Bytes} {v : V}

def lookup (t : Table V) (key : Bytes) : Option V :=
  (t.find? fun e => decide (e.1 = cString key)).map Prod.snd

def insert (t : Table V) (key : Bytes) (v : V) : Bool × Table V :=
  if (lookup t key).isSome then (false,t) else (true,t++[(cString key,v)])

theorem cString_of_nonzero (h : ∀ b ∈ key, b ≠ 0) : cString key = key :=
  List.takeWhile_eq_self_iff.mpr fun b hb => decide_eq_true (h b hb)

theorem lookup_isSome : (lookup t key).isSome = true ↔ cString key ∈ t.map Prod.fst := by
  unfold lookup
  rw [Option.isSome_map,List.find?_isSome,List.mem_map]
  simp

theorem insert_fst : (insert t key v).1 = true ↔ cString key ∉ t.map Prod.fst := by
  unfold insert
  rw [← lookup_isSome]
  by_cases h : (lookup t key).isSome = true
  · rw [if_pos h]
    exact iff_of_false Bool.false_ne_true (fun hn => hn h)
  · rw [if_neg h]
    exact iff_of_true rfl h

theorem insert_keys (k : Bytes) : k ∈ (insert t key v).2.map Prod.fst ↔
    k ∈ t.map Prod.fst ∨ k = cString key := by
  unfold insert
  split_ifs with h
  · rw [lookup_isSome] at h
    exact (or_iff_left_of_imp fun e => e ▸ h).symm
  · simp

theorem lookup_insert (h : cString key ∉ t.map Prod.fst) :
    lookup (insert t key v).2 key' = if cString key' = cString key then some v
      else lookup t key' := by
  have hn : ¬ (lookup t key).isSome = true := fun hs => h (lookup_isSome.mp hs)
  unfold insert
  rw [if_neg hn]
  unfold lookup
  rw [List.find?_append,Option.map_or,List.find?_singleton]
  by_cases e : cString key' = cString key
  · rw [e]
    have hnone : (t.find? fun e => decide (e.1 = cString key)) = none := by
      rw [List.find?_eq_none]
      intro x hx hd
      exact h (List.mem_map.mpr ⟨x,hx,of_decide_eq_true hd⟩)
    simp [hnone]
  · have hne : ¬ cString key = cString key' := fun h => e h.symm
    simp [hne,e]

end DiskHash
