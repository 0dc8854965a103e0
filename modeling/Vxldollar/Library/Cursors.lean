import Mathlib.Data.List.Sort
import Vxldollar.Library.Table

/-!
# Tables written and read in key order

A table can be filled by appending, which succeeds only with a key above the last
one, or by inserting. Two tables can be read together through their cursors, the
lesser key first. A table that is filled from a sorted list holds exactly its
entries, and two tables without a common key are read in key order. What is made of
the entries of two such tables, each with the table it came from, fills a table that
holds each of them once.
-/

namespace Cursors
open Std List ExtTreeMap

variable {K V W : Type} {l m : List (K × V)} {e : K × V} {k : K} {f : V → Option W}

def convert (f : V → W) (l : List (K × V)) : List (K × W) :=
  l.map fun e => (e.1,f e.2)

def convertM (f : V → Option W) (l : List (K × V)) : Option (List (K × W)) :=
  l.mapM fun e => (f e.2).map (e.1,·)

theorem mem_convert {f : V → W} {x : W} :
    (k,x) ∈ convert f l ↔ ∃ v, (k,v) ∈ l ∧ f v = x := by
  simp only [convert,mem_map,Prod.mk.injEq,Prod.exists]
  constructor
  · rintro ⟨k',v,hm,rfl,rfl⟩
    exact ⟨v,hm,rfl⟩
  · rintro ⟨v,hm,rfl⟩
    exact ⟨k,v,hm,rfl,rfl⟩

theorem convertM_cons (f : V → Option W) (e : K × V) (l : List (K × V)) :
    convertM f (e::l) = (f e.2).bind fun x => (convertM f l).map ((e.1,x)::·) := by
  rw [convertM,convertM,mapM_cons]
  cases f e.2 with
  | none => rfl
  | some x => cases l.mapM fun e => (f e.2).map (e.1,·) <;> rfl

theorem convertM_some {g : V → W} (h : ∀ e ∈ l, f e.2 = some (g e.2)) :
    convertM f l = some (convert g l) := by
  induction l with
  | nil => rfl
  | cons e l ih =>
    rw [convertM_cons,h e mem_cons_self,ih fun a ha => h a (mem_cons_of_mem e ha)]
    rfl

theorem convertM_none {e : K × V} (he : e ∈ l) (h : f e.2 = none) :
    convertM f l = none := by
  induction he with
  | head l => rw [convertM_cons,h,Option.bind_none]
  | tail a _ ih => simp [convertM_cons,ih]

variable [Ord K] {first : V → V → Bool}

/-- Which of two cursors is read first; `first` decides between values of one key. -/
def precedes (first : V → V → Bool) (a b : K × V) : Bool := match compare a.1 b.1 with
  | .lt => true
  | .gt => false
  | .eq => first a.2 b.2

def merge (first : V → V → Bool) (l m : List (K × V)) : List (K × V) :=
  l.merge m (precedes first)

theorem mem_merge {e : K × V} : e ∈ merge first l m ↔ e ∈ l ∨ e ∈ m := List.mem_merge

theorem length_merge : (merge first l m).length = l.length+m.length := List.length_merge ..

def Sorted (l : List (K × V)) : Prop := l.Pairwise fun a b => compare a.1 b.1 = .lt

theorem sorted_cons_merge {x : K × V} (hs : Sorted (merge first l m))
    (hl : ∀ e ∈ l, compare x.1 e.1 = .lt) (hm : ∀ e ∈ m, compare x.1 e.1 = .lt) :
    Sorted (x::merge first l m) :=
  pairwise_cons.mpr ⟨fun e he => (mem_merge.mp he).elim (hl e) (hm e),hs⟩

theorem sorted_convert (f : V → W) (hs : Sorted l) : Sorted (convert f l) := by
  show Pairwise _ (l.map _)
  rw [pairwise_map]
  exact hs

variable [TransOrd K] {t u : ExtTreeMap K V}

def append (t : ExtTreeMap K V) (e : K × V) : Option (ExtTreeMap K V) :=
  if t.maxKey?.all (fun last => compare last e.1 == .lt) then some (t.insert e.1 e.2) else none

def appendAll (l : List (K × V)) : Option (ExtTreeMap K V) := l.foldlM append ∅

def put (t : ExtTreeMap K V) (e : K × V) : ExtTreeMap K V := (append t e).getD t

def putAll (l : List (K × V)) : ExtTreeMap K V := l.foldl put ∅

def insertAll (t : ExtTreeMap K V) (l : List (K × V)) : ExtTreeMap K V :=
  l.foldl (fun t e => t.insert e.1 e.2) t

def together (first : V → V → Bool) (t u : ExtTreeMap K V) : List (K × (V × Bool)) :=
  merge (fun a b => first a.1 b.1) (convert (·,true) t.toList) (convert (·,false) u.toList)

/-- The table has these entries and no others. -/
structure Holds (t : ExtTreeMap K V) (l : List (K × V)) : Prop where
  entries : ∀ k v, t[k]? = some v ↔ (k,v) ∈ l
  size : t.size = l.length

/-- The table has the keys of the two others, each with a value that is made of theirs. -/
structure Joined (makes : V → Bool → W → Prop) (t u : ExtTreeMap K V)
    (w : ExtTreeMap K W) : Prop where
  keys : ∀ k, k ∈ w ↔ k ∈ t ∨ k ∈ u
  first : ∀ (k : K) (v : V), t[k]? = some v → ∃ x, w[k]? = some x ∧ makes v true x
  second : ∀ (k : K) (v : V), u[k]? = some v → ∃ x, w[k]? = some x ∧ makes v false x
  size : w.size = t.size+u.size

theorem holds_empty : Holds (∅ : ExtTreeMap K V) [] where
  entries k v := by simp
  size := size_empty

theorem sorted_toList (t : ExtTreeMap K V) : Sorted t.toList := ordered_keys_toList

theorem mem_iff_get (t : ExtTreeMap K V) : k ∈ t ↔ ∃ v, t[k]? = some v := by
  rw [mem_iff_isSome_getElem?]
  exact Option.isSome_iff_exists

theorem Holds.mem_keys (H : Holds t l) (hk : k ∈ t) : ∃ v, (k,v) ∈ l := by
  obtain ⟨v,hv⟩ := (mem_iff_get t).mp hk
  exact ⟨v,(H.entries k v).mp hv⟩

theorem foldl_put {t' : ExtTreeMap K V} (h : l.foldlM append t = some t') :
    l.foldl put t = t' := by
  induction l generalizing t with
  | nil => exact Option.some.inj h
  | cons e l ih =>
    rw [foldlM_cons] at h
    cases he : append t e with
    | none =>
      rw [he] at h
      cases h
    | some u =>
      rw [he] at h
      have hput : put t e = u := by rw [put,he,Option.getD_some]
      rw [foldl_cons,hput]
      exact ih h

theorem Holds.keys_nodup (t : ExtTreeMap K V) : (t.toList.map Prod.fst).Nodup := by
  rw [map_fst_toList_eq_keys]
  exact nodup_keys

theorem length_together : (together first t u).length = t.size+u.size := by
  simp [together,convert,length_merge]

variable [LawfulEqOrd K]

theorem precedes_ne (first : V → V → Bool) {a b : K × V} (hne : a.1 ≠ b.1) :
    (precedes first a b = true → compare a.1 b.1 = .lt) ∧
    (¬ precedes first a b = true → compare b.1 a.1 = .lt) := by
  unfold precedes
  cases hc : compare a.1 b.1 with
  | lt => exact ⟨fun _ => rfl,fun h => absurd rfl h⟩
  | eq => exact absurd (LawfulEqOrd.eq_of_compare hc) hne
  | gt => exact ⟨fun h => (nomatch h),fun _ => OrientedCmp.gt_iff_lt.mp hc⟩

theorem merge_sorted (hl : Sorted l) (hm : Sorted m) (hd : ∀ a ∈ l, ∀ b ∈ m, a.1 ≠ b.1) :
    Sorted (merge first l m) := by
  induction l generalizing m with
  | nil =>
    rw [merge,nil_merge]
    exact hm
  | cons a l ih =>
    induction m with
    | nil =>
      rw [merge,merge_right]
      exact hl
    | cons b m ihm =>
      obtain ⟨ha,hl'⟩ := pairwise_cons.mp hl
      obtain ⟨hb,hm'⟩ := pairwise_cons.mp hm
      obtain ⟨hlt,hgt⟩ := precedes_ne first (hd a mem_cons_self b mem_cons_self)
      rw [merge,cons_merge_cons]
      split_ifs with hp
      · refine sorted_cons_merge (ih hl' hm fun c hc => hd c (mem_cons_of_mem a hc)) ha ?_
        intro e he
        rcases mem_cons.mp he with rfl | he
        · exact hlt hp
        · exact TransCmp.lt_trans (hlt hp) (hb e he)
      · refine sorted_cons_merge (ihm hm' fun c hc d hd' =>
          hd c hc d (mem_cons_of_mem b hd')) ?_ hb
        intro e he
        rcases mem_cons.mp he with rfl | he
        · exact hgt hp
        · exact TransCmp.lt_trans (hgt hp) (ha e he)

theorem mem_together {v : V} {b : Bool} :
    (k,v,b) ∈ together first t u ↔ (bif b then t else u)[k]? = some v := by
  rw [together,mem_merge,mem_convert,mem_convert]
  cases b with
  | true => simp
  | false => simp

theorem sorted_together (first : V → V → Bool) (hd : ∀ k ∈ t, k ∉ u) :
    Sorted (together first t u) := by
  apply merge_sorted (sorted_convert _ (sorted_toList t)) (sorted_convert _ (sorted_toList u))
  rintro ⟨k,v,b⟩ hv ⟨j,w,c⟩ hw hkj
  obtain ⟨v',hv',-⟩ := mem_convert.mp hv
  obtain ⟨w',hw',-⟩ := mem_convert.mp hw
  have hk : k ∈ t := (mem_iff_get t).mpr ⟨v',(Table.mem_entries t k v').mp hv'⟩
  have hj : j ∈ u := (mem_iff_get u).mpr ⟨w',(Table.mem_entries u j w').mp hw'⟩
  have hkj : k = j := hkj
  exact hd k hk (hkj ▸ hj)

theorem Holds.toList (H : Holds t l) (hs : Sorted l) : t.toList = l := by
  have hirrefl : Irrefl fun a b : K × V => compare a.1 b.1 = .lt := ⟨fun a h => by
    rw [ReflOrd.compare_self] at h
    cases h⟩
  have hantisymm : Antisymm fun a b : K × V => compare a.1 b.1 = .lt := ⟨fun a b h h' =>
    absurd (TransCmp.lt_trans h h') (hirrefl.irrefl a)⟩
  apply Pairwise.eq_of_mem_iff (sorted_toList t) hs
  intro e
  exact (Table.mem_entries t e.1 e.2).trans (H.entries e.1 e.2)

theorem Holds.joined {f : V × Bool → W} {w : ExtTreeMap K W} {makes : V → Bool → W → Prop}
    (H : Holds w (convert f (together first t u)))
    (hf : ∀ (k : K) v b, (bif b then t else u)[k]? = some v → makes v b (f (v,b))) :
    Joined makes t u w := by
  have hget : ∀ (k : K) v b, (bif b then t else u)[k]? = some v → w[k]? = some (f (v,b)) :=
    fun k v b hv => (H.entries k _).mpr (mem_convert.mpr ⟨(v,b),mem_together.mpr hv,rfl⟩)
  constructor
  · intro k
    rw [mem_iff_get,mem_iff_get,mem_iff_get]
    constructor
    · rintro ⟨x,hx⟩
      obtain ⟨⟨v,b⟩,hm,-⟩ := mem_convert.mp ((H.entries k x).mp hx)
      rw [mem_together] at hm
      cases b with
      | true => exact .inl ⟨v,hm⟩
      | false => exact .inr ⟨v,hm⟩
    · rintro (⟨v,hv⟩ | ⟨v,hv⟩)
      · exact ⟨_,hget k v true hv⟩
      · exact ⟨_,hget k v false hv⟩
  · intro k v hv
    exact ⟨_,hget k v true hv,hf k v true hv⟩
  · intro k v hv
    exact ⟨_,hget k v false hv,hf k v false hv⟩
  · rw [H.size,convert,length_map,length_together]

variable [DecidableEq K]

section
variable (H : Holds t l)
include H

theorem Holds.insert (he : ∀ a ∈ l, a.1 ≠ e.1) :
    Holds (t.insert e.1 e.2) (l++[e]) := by
  have hfresh : e.1 ∉ t := by
    intro hk
    obtain ⟨v,hv⟩ := H.mem_keys hk
    exact he _ hv rfl
  constructor
  · intro k v
    rw [Table.get_insert,mem_append,mem_singleton]
    by_cases hk : k = e.1
    · rw [if_pos hk,Option.some.injEq]
      constructor
      · rintro rfl
        exact .inr (by rw [hk])
      · rintro (hm | rfl)
        · exact absurd hk (he _ hm)
        · rfl
    · rw [if_neg hk,H.entries]
      refine (or_iff_left ?_).symm
      rintro rfl
      exact hk rfl
  · rw [size_insert,if_neg (fun h => hfresh (contains_iff_mem.mp h)),H.size,
      length_append,length_singleton]

theorem Holds.append (he : ∀ a ∈ l, compare a.1 e.1 = .lt) :
    ∃ t', append t e = some t' ∧ Holds t' (l++[e]) := by
  have hlast : t.maxKey?.all (fun last => compare last e.1 == .lt) = true := by
    cases hm : t.maxKey? with
    | none => rfl
    | some k =>
      obtain ⟨v,hv⟩ := H.mem_keys (maxKey?_mem hm)
      exact beq_iff_eq.mpr (he _ hv)
  refine ⟨t.insert e.1 e.2,if_pos hlast,H.insert fun a ha hk => ?_⟩
  have hlt := he a ha
  rw [hk,ReflOrd.compare_self] at hlt
  cases hlt

theorem Holds.appendAll (hs : Sorted (l++m)) :
    ∃ t', m.foldlM Cursors.append t = some t' ∧ Holds t' (l++m) := by
  induction m generalizing t l with
  | nil =>
    rw [append_nil]
    exact ⟨t,rfl,H⟩
  | cons e m ih =>
    have he : ∀ a ∈ l, compare a.1 e.1 = .lt := fun a ha =>
      (pairwise_append.mp hs).2.2 a ha e mem_cons_self
    obtain ⟨t₁,h₁,H₁⟩ := H.append he
    rw [append_cons] at hs ⊢
    obtain ⟨t₂,h₂,H₂⟩ := ih H₁ hs
    rw [foldlM_cons,h₁]
    exact ⟨t₂,h₂,H₂⟩

end

theorem appendAll_sorted (hs : Sorted l) : ∃ t, appendAll l = some t ∧ Holds t l :=
  holds_empty.appendAll hs

theorem putAll_sorted (hs : Sorted l) : Holds (putAll l) l := by
  obtain ⟨t,ht,H⟩ := appendAll_sorted hs
  rw [putAll,foldl_put ht]
  exact H

theorem Holds.insertAll (H : Holds t l) (hk : ((l++m).map Prod.fst).Nodup) :
    Holds (insertAll t m) (l++m) := by
  induction m generalizing t l with
  | nil =>
    rw [append_nil]
    exact H
  | cons e m ih =>
    have he : ∀ a ∈ l, a.1 ≠ e.1 := by
      intro a ha hae
      rw [map_append,nodup_append] at hk
      exact hk.2.2 a.1 (mem_map_of_mem ha) e.1 (mem_map_of_mem mem_cons_self) hae
    rw [append_cons] at hk ⊢
    exact ih (H.insert he) hk

end Cursors
