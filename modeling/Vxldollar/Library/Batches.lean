import Vxldollar.Library.Ranges

/-!
# Reading a table in batches

A reader keeps the entry that it is at and a queue of entries already loaded. When
the queue is empty it loads a batch of the entries above the present key; a batch
that is not full ends with an empty record. The keys are words and the reader adds
one to its key to go on, so the greatest word starts it from the beginning. What is
read is the table in key order, whatever the size of the batches.
-/

namespace Batches
open Std List Table BitVec

variable {w : ℕ} {V : Type} [Inhabited V]

structure Reader (w : ℕ) (V : Type) where
  current : BitVec w
  value : V
  queue : List (BitVec w × V) := []
  deriving DecidableEq, Repr

def since (m : ExtTreeMap (BitVec w) V) (k : BitVec w) : List (BitVec w × V) :=
  Ranges.entries m k none

def after (m : ExtTreeMap (BitVec w) V) (k : BitVec w) : List (BitVec w × V) := since m (k+1)

def load (size : ℕ) (m : ExtTreeMap (BitVec w) V) (k : BitVec w) : List (BitVec w × V) :=
  let batch := (after m k).take size
  if batch.length ≠ size then batch++[(0,default)] else batch

def Reader.next (size : ℕ) (m : ExtTreeMap (BitVec w) V) (r : Reader w V) : Reader w V :=
  match if r.queue = [] then load size m r.current else r.queue with
  | [] => r
  | (k,v)::queue => ⟨k,v,queue⟩

/-- Zero marks the end and the greatest word the beginning, so neither is a key. -/
structure Proper (m : ExtTreeMap (BitVec w) V) : Prop where
  ne_zero : ∀ e ∈ m.toList, e.1 ≠ 0
  ne_last : ∀ e ∈ m.toList, e.1 ≠ allOnes w

def Loaded (m : ExtTreeMap (BitVec w) V) (r : Reader w V) : Prop :=
  r.queue <+: after m r.current ∨ r.queue = after m r.current++[(0,default)]

/-- The entries that the reader has still to give, the present one first. -/
inductive Ready (m : ExtTreeMap (BitVec w) V) : Reader w V → List (BitVec w × V) → Prop
  | done {r : Reader w V} : r.current = 0 → Ready m r []
  | entry {r : Reader w V} : r.current ≠ 0 → Loaded m r →
    Ready m r ((r.current,r.value)::after m r.current)

section
variable {m : ExtTreeMap (BitVec w) V} {k l : BitVec w} {e : BitVec w × V}
  {t : List (BitVec w × V)}

theorem compare_beq (k l : BitVec w) : (compare k l == .lt) = decide (k < l) := by
  by_cases h : k < l
  · simp [h,compare_lt.mpr h]
  · have hc : compare k l ≠ .lt := fun hc => h (compare_lt.mp hc)
    simp [h,hc]

theorem within_none (k l : BitVec w) : Ranges.within k none l = decide (k ≤ l) := by
  rw [Ranges.within,Option.all_none,Bool.and_true,bne,compare_beq,← decide_not]
  exact decide_eq_decide.mpr not_lt

omit [Inhabited V] in
theorem since_eq_filter (k : BitVec w) : since m k = m.toList.filter fun e => decide (k ≤ e.1) := by
  rw [since,Ranges.entries_eq_filter _ _ none nofun]
  simp [within_none]

theorem succ_le (hk : k ≠ allOnes w) : k+1 ≤ l ↔ k < l := by
  have hne : k.toNat ≠ 2^w-1 := fun h => hk (eq_of_toNat_eq (by simpa using h))
  have hlt := k.isLt
  have hsucc : (k+1).toNat = k.toNat+1 := by
    rw [toNat_add]
    cases w with
    | zero => omega
    | succ w =>
      have hone : (1 : BitVec (w+1)).toNat = 1 := by simp
      rw [hone]
      exact Nat.mod_eq_of_lt (by omega)
  rw [le_def,lt_def,hsucc]
  exact Nat.succ_le_iff

omit [Inhabited V] in
theorem after_eq_filter (hk : k ≠ allOnes w) :
    after m k = m.toList.filter fun e => decide (k < e.1) := by
  rw [after,since_eq_filter]
  apply filter_congr
  intro e he
  exact decide_eq_decide.mpr (succ_le hk)

omit [Inhabited V] in
theorem after_last : after m (allOnes w) = m.toList := by
  have hzero : allOnes w+1 = 0 := by
    rw [← neg_one_eq_allOnes]
    exact add_left_neg 1
  rw [after,hzero,since_eq_filter]
  apply filter_eq_self.mpr
  intro e he
  exact decide_eq_true (Nat.zero_le _)

omit [Inhabited V] in
theorem after_zero (P : Proper m) : after m 0 = m.toList := by
  rw [after,since_eq_filter]
  apply filter_eq_self.mpr
  intro e he
  have hne : e.1.toNat ≠ 0 := fun h => P.ne_zero e he (eq_of_toNat_eq (by simpa using h))
  apply decide_eq_true
  rw [le_def]
  have hone : (0+1 : BitVec w).toNat ≤ 1 := by simpa using Nat.mod_le 1 (2^w)
  omega

omit [Inhabited V] in
theorem sorted_toList : m.toList.Pairwise fun a b => a.1 < b.1 :=
  ExtTreeMap.ordered_keys_toList.imp fun h => compare_lt.mp h

omit [Inhabited V] in
theorem sorted_since : (since m k).Pairwise fun a b => a.1 < b.1 := by
  rw [since_eq_filter]
  exact sorted_toList.filter _

omit [Inhabited V] in
theorem mem_since : e ∈ since m k ↔ e ∈ m.toList ∧ k ≤ e.1 := by
  rw [since_eq_filter,mem_filter,decide_eq_true_eq]

omit [Inhabited V] in
theorem since_split {p : List (BitVec w × V)} (h : since m k = p++e::t)
    (he : e.1 ≠ allOnes w) : t = after m e.1 := by
  have hs := sorted_since (m := m) (k := k)
  rw [h] at hs
  obtain ⟨-,hs,hp⟩ := pairwise_append.mp hs
  have hall := (pairwise_cons.mp hs).1
  have hmem : e ∈ since m k := h ▸ mem_append_right p mem_cons_self
  have hk := (mem_since.mp hmem).2
  have hnone : p.filter (fun x => decide (e.1 < x.1)) = [] := by
    apply filter_eq_nil_iff.mpr
    intro x hx
    have := hp x hx e mem_cons_self
    simp only [decide_eq_true_eq]
    bv_omega
  calc t = (p++e::t).filter fun x => decide (e.1 < x.1) := by
        rw [filter_append,hnone,nil_append,filter_cons_of_neg (by simp)]
        exact (filter_eq_self.mpr fun x hx => decide_eq_true (hall x hx)).symm
    _ = m.toList.filter fun x => decide (e.1 < x.1) := by
        rw [← h,since_eq_filter,filter_filter]
        apply filter_congr
        intro x hx
        by_cases hx : e.1 < x.1
        · have : k ≤ x.1 := by bv_omega
          simp [this]
        · simp [hx]
    _ = after m e.1 := (after_eq_filter he).symm

omit [Inhabited V] in
theorem after_dropWhile (hk : k ≠ allOnes w) (hl : k < l) :
    (after m k).dropWhile (fun e => decide (e.1 < l)) = since m l := by
  have hs : (after m k).Pairwise fun a b => compare a.1 b.1 = .lt :=
    sorted_since.imp fun h => compare_lt.mpr h
  simp only [← compare_beq]
  rw [Ranges.drop_filter _ _ hs,after_eq_filter hk,since_eq_filter,filter_filter]
  apply filter_congr
  intro e he
  rw [within_none]
  by_cases h : l ≤ e.1
  · have : k < e.1 := by bv_omega
    simp [this]
  · simp [h]

omit [Inhabited V] in
theorem since_lookup (hk : k ≠ allOnes w) :
    since m k = (m[k]?.map fun v => (k,v)).toList++after m k := by
  cases hm : m[k]? with
  | none =>
    rw [Option.map_none,Option.toList_none,nil_append,since_eq_filter,after_eq_filter hk]
    apply filter_congr
    rintro ⟨l,v⟩ he
    have hne : l ≠ k := by
      rintro rfl
      rw [mem_entries,hm] at he
      cases he
    exact decide_eq_decide.mpr (by bv_omega)
  | some v =>
    have hmem : (k,v) ∈ since m k :=
      mem_since.mpr ⟨(mem_entries m k v).mpr hm,le_refl k⟩
    cases hl : since m k with
    | nil =>
      rw [hl] at hmem
      cases hmem
    | cons e t =>
      have hs := sorted_since (m := m) (k := k)
      rw [hl] at hs hmem
      have he : e = (k,v) := by
        rcases mem_cons.mp hmem with h | h
        · exact h.symm
        · have h₁ := (pairwise_cons.mp hs).1 _ h
          have h₂ := (mem_since.mp (hl ▸ mem_cons_self : e ∈ since m k)).2
          bv_omega
      rw [since_split (p := []) hl (he ▸ hk),he]
      rfl

end
variable {size : ℕ} {m : ExtTreeMap (BitVec w) V} {r : Reader w V} {e : BitVec w × V}
  {t : List (BitVec w × V)}

theorem load_cases (size : ℕ) (m : ExtTreeMap (BitVec w) V) (k : BitVec w) :
    load size m k <+: after m k ∨ load size m k = after m k++[(0,default)] := by
  simp only [load]
  by_cases h : ((after m k).take size).length ≠ size
  · rw [if_pos h]
    right
    rw [length_take] at h
    rw [take_of_length_le (by omega)]
  · rw [if_neg h]
    exact .inl ( take_prefix _ _)

theorem load_ne_nil (hs : 0 < size) (m : ExtTreeMap (BitVec w) V) (k : BitVec w) :
    load size m k ≠ [] := by
  simp only [load]
  split
  · simp
  · rename_i h
    intro hn
    rw [hn] at h
    simp at h
    omega

/-- What `next` gives, whether it comes from the queue or from a new batch. -/
theorem next_ready (hs : 0 < size) (P : Proper m) (L : Loaded m r) :
    Ready m (r.next size m) (after m r.current) := by
  obtain ⟨queue,hqueue,hne,hcases⟩ : ∃ queue,
      (if r.queue = [] then load size m r.current else r.queue) = queue ∧ queue ≠ [] ∧
      (queue <+: after m r.current ∨ queue = after m r.current++[(0,default)]) := by
    by_cases h : r.queue = []
    · exact ⟨_,if_pos h,load_ne_nil hs m _,load_cases size m _⟩
    · exact ⟨_,if_neg h,h,L⟩
  cases queue with
  | nil => exact absurd rfl hne
  | cons e queue =>
    simp only [Reader.next,hqueue]
    cases ha : after m r.current with
    | nil =>
      rw [ha] at hcases
      rcases hcases with h | h
      · exact absurd (prefix_nil.mp h) (cons_ne_nil _ _)
      · cases h
        exact Ready.done rfl
    | cons f t =>
      have hmem : f ∈ m.toList := (mem_since.mp (ha ▸ mem_cons_self : f ∈ since m _)).1
      have htail := since_split (p := []) ha (P.ne_last f hmem)
      rw [ha] at hcases
      have hef : e = f ∧ (queue <+: t ∨ queue = t++[(0,default)]) := by
        rcases hcases with h | h
        · obtain ⟨h₁,h₂⟩ := cons_prefix_cons.mp h
          exact ⟨h₁,.inl h₂⟩
        · obtain ⟨h₁,h₂⟩ := cons.inj h
          exact ⟨h₁,.inr h₂⟩
      obtain ⟨rfl,hq⟩ := hef
      rw [htail] at hq ⊢
      exact Ready.entry (P.ne_zero e hmem) hq

theorem loaded_nil (h : r.queue = []) : Loaded m r := .inl (h ▸ nil_prefix)

theorem Ready.current_eq (R : Ready m r (e::t)) : r.current = e.1 ∧ r.value = e.2 := by
  cases R
  exact ⟨rfl,rfl⟩

theorem Ready.current_ne (R : Ready m r (e::t)) : r.current ≠ 0 := by
  cases R
  assumption

theorem Ready.current_nil (R : Ready m r []) : r.current = 0 := by
  cases R
  assumption

theorem Ready.next (hs : 0 < size) (P : Proper m) (R : Ready m r (e::t)) :
    Ready m (r.next size m) t := by
  cases R with
  | entry _ L => exact next_ready hs P L

end Batches
