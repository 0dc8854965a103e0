import Vxldollar.Library.Table

/-!
# Interning with weak references

A pool maps the key of a value to a weak reference. A value is replaced by the live
value under its key; a reference expires when nobody holds the value any more, and
expired references are cleaned up at random. What an intern call can return is then
told by the values that went in and by the key alone.
-/

namespace Interning
open Std

variable {κ α : Type} [Ord κ] [TransOrd κ] {key : α → κ} {S : Set α} {v w : α}

/-- A reference that has expired is none. -/
abbrev Pool (κ α : Type) [Ord κ] [TransOrd κ] := ExtTreeMap κ (Option α)

def lock (p : Pool κ α) (k : κ) : Option α := p[k]?.join

def clean (p : Pool κ α) (k : κ) : Pool κ α := if (lock p k).isNone then p.erase k else p

def expire (p : Pool κ α) (k : κ) : Pool κ α := if p.contains k then p.insert k none else p

def cleanupCount : ℕ := 2

/-- `picks` are the entries that the clean-up looks at. -/
def unique (key : α → κ) (p : Pool κ α) (v : α) (picks : List κ) : α × Pool κ α :=
  match lock p (key v) with
  | some w => (w,(picks.take cleanupCount).foldl clean p)
  | none => (v,(picks.take cleanupCount).foldl clean (p.insert (key v) (some v)))

theorem unique_fst (key : α → κ) (p : Pool κ α) (v : α) (picks : List κ) :
    (unique key p v picks).1 = (lock p (key v)).getD v := by
  simp only [unique]
  split <;> rename_i h <;> simp [h]

def Sound (key : α → κ) (S : Set α) (p : Pool κ α) : Prop :=
  ∀ k w, lock p k = some w → w ∈ S ∧ key w = k

theorem sound_empty : Sound key S ∅ := by
  intro k w h
  simp [lock] at h

/-- A call returns a value that went in and has the same key. -/
theorem Sound.result {p : Pool κ α} (h : Sound key S p) (hv : v ∈ S) (picks : List κ) :
    (unique key p v picks).1 ∈ S ∧ key (unique key p v picks).1 = key v := by
  rw [unique_fst]
  cases hl : lock p (key v) with
  | none => exact ⟨hv,rfl⟩
  | some w => exact h _ w hl

variable [LawfulEqOrd κ] [DecidableEq κ]

theorem lock_insert (p : Pool κ α) (k l : κ) (o : Option α) :
    lock (p.insert k o) l = if l = k then o else lock p l := by
  simp only [lock,Table.get_insert]
  split <;> rfl

theorem lock_clean (p : Pool κ α) (k l : κ) : lock (clean p k) l = lock p l := by
  simp only [clean]
  split
  · rename_i h
    simp only [lock,Table.get_erase] at h ⊢
    split
    · rename_i hl
      rw [hl]
      exact (Option.isNone_iff_eq_none.mp h).symm
    · rfl
  · rfl

theorem lock_cleans (p : Pool κ α) (picks : List κ) (l : κ) :
    lock (picks.foldl clean p) l = lock p l := by
  induction picks generalizing p with
  | nil => rfl
  | cons k picks ih => rw [List.foldl_cons,ih,lock_clean]

theorem lock_expire (p : Pool κ α) (k l : κ) (h : lock (expire p k) l = some v) :
    lock p l = some v := by
  simp only [expire] at h
  split at h
  · rw [lock_insert] at h
    split at h
    · cases h
    · exact h
  · exact h

theorem lock_unique (key : α → κ) (p : Pool κ α) (v : α) (picks : List κ) (l : κ) :
    lock (unique key p v picks).2 l =
      if l = key v then some (unique key p v picks).1 else lock p l := by
  simp only [unique]
  split
  · rename_i w h
    rw [lock_cleans]
    split
    · rename_i hl
      rw [hl,h]
    · rfl
  · rw [lock_cleans,lock_insert]

theorem Sound.expire {p : Pool κ α} (h : Sound key S p) (k : κ) : Sound key S (expire p k) :=
  fun l w hw => h l w (lock_expire p k l hw)

theorem Sound.unique {p : Pool κ α} (h : Sound key S p) (hv : v ∈ S) (picks : List κ) :
    Sound key S (unique key p v picks).2 := by
  intro k w hw
  rw [lock_unique] at hw
  split at hw
  · rename_i hk
    rw [hk,← Option.some.inj hw]
    exact h.result hv picks
  · exact h k w hw

end Interning
