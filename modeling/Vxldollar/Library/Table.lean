import Mathlib.Algebra.BigOperators.Group.List.Basic
import Mathlib.Algebra.Order.BigOperators.Group.List
import Mathlib.Data.Set.Card
import Mathlib.Data.List.Dedup
import Mathlib.Tactic.Abel

/-!
# Finite ordered tables

A table is an extensional ordered map, so two tables with the same lookups
are equal. Deletion of a missing key is an error of the store and is kept as
one. Totals over the entries are expressed by lookups alone: replacing,
inserting or removing one key changes a total by that key's contribution.
-/

namespace Table
open Std List ExtTreeMap

section
theorem compare_lt {w : ℕ} {x y : BitVec w} : compare x y = .lt ↔ x < y :=
  compareOfLessAndEq_eq_lt

variable {K : Type*}

theorem compareLex_lt {v w : ℕ} {f : K → BitVec v} {g : K → BitVec w} {k l : K} :
    compareLex (compareOn f) (compareOn g) k l = .lt ↔ f k < f l ∨ f k = f l ∧ g k < g l := by
  rw [compareLex,Ordering.then_eq_lt]
  simp [compareOn,compare_lt]

theorem compareLex_eq {v w : ℕ} {f : K → BitVec v} {g : K → BitVec w} {k l : K} :
    compareLex (compareOn f) (compareOn g) k l = .eq ↔ f k = f l ∧ g k = g l := by
  rw [compareLex_eq_eq]
  simp [compareOn]

end

variable {K V M : Type*} [Ord K] [TransOrd K]

def delete (m : ExtTreeMap K V) (k : K) : Option (ExtTreeMap K V) :=
  if k ∈ m then some (m.erase k) else none

theorem delete_present (m : ExtTreeMap K V) (k : K) (v : V) (h : m[k]? = some v) :
    delete m k = some (m.erase k) := by
  have hk : k ∈ m := by
    rw [mem_iff_isSome_getElem?, h]
    rfl
  simp [delete, hk]

theorem delete_eq (m m' : ExtTreeMap K V) (k : K) (h : delete m k = some m') :
    (∃ v, m[k]? = some v) ∧ m' = m.erase k := by
  unfold delete at h
  split_ifs at h with hk
  rw [mem_iff_isSome_getElem?] at hk
  exact ⟨Option.isSome_iff_exists.mp hk,(Option.some.inj h).symm⟩

theorem contains_of_get {m : ExtTreeMap K V} {k : K} {v : V} (h : m[k]? = some v) :
    m.contains k = true := by
  rw [contains_eq_isSome_getElem?, h]
  rfl

theorem not_contains_of_get {m : ExtTreeMap K V} {k : K} (h : m[k]? = none) :
    m.contains k = false := by
  rw [contains_eq_isSome_getElem?, h]
  rfl

def lowerBound (m : ExtTreeMap K V) (k : K) : Option (K × V) :=
  m.toList.find? (fun e => compare e.1 k != .lt)

section
variable [LawfulEqOrd K]

theorem ext_get {m m' : ExtTreeMap K V} (h : ∀ k : K, m[k]? = m'[k]?) : m = m' :=
  ext_getElem? h

variable (m : ExtTreeMap K V)
include m

theorem mem_entries (k : K) (v : V) :
    (k,v) ∈ m.toList ↔ m[k]? = some v :=
  mem_toList_iff_getElem?_eq_some

/-- The cursor stands at the least key that is not below the given one. -/
theorem lowerBound_spec (k g : K) (v : V) (hg : m[g]? = some v) (hle : compare g k ≠ .lt) :
    ∃ e, lowerBound m k = some e ∧ m[e.1]? = some e.2 ∧
      compare e.1 k ≠ .lt ∧ (e.1 = g ∨ compare e.1 g = .lt) := by
  have hmem : (g,v) ∈ m.toList := (mem_entries m g v).mpr hg
  cases hf : lowerBound m k with
  | none =>
    have := find?_eq_none.mp hf _ hmem
    simp [hle] at this
  | some e =>
    obtain ⟨he,before,after,hsplit,hbefore⟩ := find?_eq_some_iff_append.mp hf
    refine ⟨e,rfl,(mem_entries m e.1 e.2).mp ?_,by simpa using he,?_⟩
    · rw [hsplit]
      simp
    · have hord := ordered_keys_toList (t := m)
      rw [hsplit] at hmem hord
      rcases mem_append.mp hmem with hb | ha
      · have := hbefore _ hb
        simp [hle] at this
      · rcases mem_cons.mp ha with rfl | ha
        · exact .inl rfl
        · exact .inr (rel_of_pairwise_cons (pairwise_append.mp hord).2.1 ha)

theorem entries_nodup : m.toList.Nodup := by
  have h := distinct_keys_toList (t := m)
  refine h.imp ?_
  rintro ⟨a,v⟩ ⟨b,w⟩ hab heq
  cases heq
  simp at hab

theorem entries_keys_nodup (f : K → V → M) :
    (m.toList.map (fun e => (e.1,f e.1 e.2))).Nodup := by
  have h := distinct_keys_toList (t := m)
  rw [Nodup,pairwise_map]
  refine h.imp ?_
  rintro ⟨a,v⟩ ⟨b,w⟩ hab heq
  have hk : a = b := congrArg Prod.fst heq
  simp [hk] at hab

theorem mem_entries_map (f : K → V → M) (k : K) (x : M) :
    (k,x) ∈ m.toList.map (fun e => (e.1,f e.1 e.2)) ↔ (m[k]?).map (f k) = some x := by
  rw [mem_map,Option.map_eq_some_iff]
  constructor
  · rintro ⟨⟨a,v⟩,hm,he⟩
    cases he
    exact ⟨v,(mem_entries m a v).mp hm,rfl⟩
  · rintro ⟨v,hv,rfl⟩
    exact ⟨(k,v),(mem_entries m k v).mpr hv,rfl⟩

variable [DecidableEq K]

theorem get_insert (k a : K) (v : V) :
    (m.insert k v)[a]? = if a = k then some v else m[a]? := by
  rw [ExtTreeMap.getElem?_insert]
  by_cases h : a = k
  · simp [h]
  · have h' : ¬ k = a := fun e => h e.symm
    simp [h,h']

theorem get_erase (k a : K) :
    (m.erase k)[a]? = if a = k then none else m[a]? := by
  rw [getElem?_erase]
  by_cases h : a = k
  · simp [h]
  · have h' : ¬ k = a := fun e => h e.symm
    simp [h,h']

theorem get_eraseAll (l : List K) (k : K) :
    (l.foldl (fun m a => m.erase a) m)[k]? = if k ∈ l then none else m[k]? := by
  induction l generalizing m with
  | nil => rfl
  | cons a l ih =>
    rw [foldl_cons,ih,get_erase]
    by_cases hk : k = a <;> simp [hk]

theorem insert_erase (k : K) (v : V) :
    (m.erase k).insert k v = m.insert k v := by
  apply ext_get
  intro a
  simp only [get_insert,get_erase]
  split_ifs <;> rfl

theorem insert_present (k : K) (v : V) (h : m[k]? = some v) :
    m.insert k v = m := by
  apply ext_get
  intro a
  rw [get_insert]
  split_ifs with e
  · rw [e,h]
  · rfl

theorem erase_absent (k : K) (h : m[k]? = none) : m.erase k = m := by
  apply ext_get
  intro a
  rw [get_erase]
  split_ifs with e
  · rw [e,h]
  · rfl

theorem entries_insert (k : K) (v : V) (h : m[k]? = none) :
    (m.insert k v).toList.Perm ((k,v)::m.toList) := by
  have hn : ((k,v)::m.toList).Nodup := by
    refine nodup_cons.mpr ⟨?_,entries_nodup m⟩
    rw [mem_entries,h]
    simp
  refine (perm_ext_iff_of_nodup (entries_nodup _) hn).mpr ?_
  rintro ⟨a,w⟩
  rw [mem_entries,get_insert,mem_cons,mem_entries,Prod.mk.injEq]
  by_cases e : a = k
  · subst e
    simp [h,eq_comm]
  · simp [e]

end

variable [AddCommMonoid M]

def total (f : K → V → M) (m : ExtTreeMap K V) : M :=
  (m.toList.map (fun e => f e.1 e.2)).sum

section
variable (f : K → V → M)
include f

theorem total_empty : total f (∅ : ExtTreeMap K V) = 0 := by
  have h : (∅ : ExtTreeMap K V).toList = [] := toList_eq_nil_iff.mpr rfl
  simp [total,h]

variable [LawfulEqOrd K]

theorem total_congr {W : Type*} (g : K → W → M) (m : ExtTreeMap K V) (m' : ExtTreeMap K W)
    (h : ∀ k : K, (m[k]?).map (f k) = (m'[k]?).map (g k)) : total f m = total g m' := by
  have hp : (m.toList.map (fun e => (e.1,f e.1 e.2))).Perm
      (m'.toList.map (fun e => (e.1,g e.1 e.2))) := by
    refine (perm_ext_iff_of_nodup (entries_keys_nodup m f) (entries_keys_nodup m' g)).mpr ?_
    rintro ⟨k,x⟩
    rw [mem_entries_map,mem_entries_map,h k]
  have hs := (hp.map Prod.snd).sum_eq
  simpa [total,Function.comp_def] using hs

variable [DecidableEq K]

section
variable (m : ExtTreeMap K V) (k : K)
include m k

theorem total_insert (v : V) (h : m[k]? = none) :
    total f (m.insert k v) = f k v+total f m := by
  rw [total,((entries_insert m k v h).map _).sum_eq]
  simp [total]

theorem total_erase (v : V) (h : m[k]? = some v) :
    total f m = f k v+total f (m.erase k) := by
  have he : (m.erase k)[k]? = none := by simp
  rw [← total_insert f (m.erase k) k v he,insert_erase,insert_present m k v h]

/-- Replacing the value under a key exchanges one contribution for another. -/
theorem total_replace (v w : V) (h : m[k]? = some v) :
    total f (m.insert k w)+f k v = total f m+f k w := by
  have he : (m.erase k)[k]? = none := by simp
  rw [← insert_erase,total_insert f _ k w he,total_erase f m k v h]
  abel

end

theorem total_erase_zero (m : ExtTreeMap K V) (k : K) (h : ∀ v, m[k]? = some v → f k v = 0) :
    total f (m.erase k) = total f m := by
  cases hk : m[k]? with
  | none => rw [erase_absent m k hk]
  | some v => rw [total_erase f m k v hk,h v hk,zero_add]

end

variable [LawfulEqOrd K] [DecidableEq K] (f : K → V → ℕ) (m : ExtTreeMap K V) (k : K)
include f m k

theorem total_erase_le :
    total f (m.erase k) ≤ total f m := by
  cases hk : m[k]? with
  | none => rw [erase_absent m k hk]
  | some v =>
    rw [total_erase f m k v hk]
    exact Nat.le_add_left _ _

theorem le_total (v : V) (h : m[k]? = some v) : f k v ≤ total f m := by
  rw [total_erase f m k v h]
  exact Nat.le_add_right _ _

end Table
