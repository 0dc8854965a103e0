import Vxldollar.Library.Table

/-!
# Traversing a table by ranges

Cursors cut a sorted table into ranges. When every entry lies in exactly one
range, a sum over all ranges is the sum over the table. Even ranges of which
the last is open-ended cut the natural numbers in this way.
-/

namespace Ranges
open Std List

section
variable {K V : Type*} [Ord K] [TransOrd K]

def within (start : K) (stop : Option K) (k : K) : Bool :=
  (compare k start != .lt) && stop.all (fun s => compare k s == .lt)

theorem dropWhile_of_first {l : List (K × V)} {x : K × V} {start : K}
    (h : ∀ e ∈ l, compare x.1 e.1 = .lt) (hx : compare x.1 start ≠ .lt) :
    l.dropWhile (fun e => compare e.1 start == .lt) = l := by
  cases l with
  | nil => rfl
  | cons e l =>
    have he := h e mem_cons_self
    have : compare e.1 start ≠ .lt := fun hlt => hx (TransCmp.lt_trans he hlt)
    simp [this]

theorem drop_filter (l : List (K × V)) (start : K)
    (hs : l.Pairwise (fun a b => compare a.1 b.1 = .lt)) :
    l.dropWhile (fun e => compare e.1 start == .lt) =
      l.filter (fun e => within start none e.1) := by
  induction l with
  | nil => rfl
  | cons x l ih =>
    obtain ⟨hx,hl⟩ := pairwise_cons.mp hs
    by_cases h1 : compare x.1 start = .lt
    · have hw : within start none x.1 = false := by simp [within,h1]
      simpa [h1,hw] using ih hl
    · have hw : within start none x.1 = true := by simp [within,h1]
      rw [filter_cons,if_pos hw,← ih hl,dropWhile_of_first hx h1]
      simp [h1]

section
variable (l : List (K × V)) (start stop : K) (hs : l.Pairwise (fun a b => compare a.1 b.1 = .lt))
  (hle : compare start stop ≠ .gt)
include l start stop hs hle

theorem split_filter :
    l.filter (fun e => within start none e.1) =
      l.filter (fun e => within start (some stop) e.1) ++
        l.filter (fun e => within stop none e.1) := by
  have before : ∀ k : K, compare k start = .lt → compare k stop = .lt := by
    intro k h
    refine TransCmp.lt_of_lt_of_isLE h ?_
    cases h : compare start stop with
    | gt => exact absurd h hle
    | _ => rfl
  induction l with
  | nil => rfl
  | cons x l ih =>
    obtain ⟨hx,hl⟩ := pairwise_cons.mp hs
    have ih := ih hl
    by_cases h2 : compare x.1 stop = .lt
    · by_cases h1 : compare x.1 start = .lt
      · simpa [within,h1,h2] using ih
      · simpa [within,h1,h2] using ih
    · -- nothing lies before the other cursor any more
      have hge : ∀ e ∈ x :: l, compare e.1 stop ≠ .lt := by
        intro e he
        rcases mem_cons.mp he with rfl | he
        · exact h2
        · exact fun hlt => h2 (TransCmp.lt_trans (hx e he) hlt)
      have hw : (x :: l).filter (fun e => within start (some stop) e.1) = [] := by
        apply filter_eq_nil_iff.mpr
        intro e he
        simp [within,hge e he]
      rw [hw,nil_append]
      apply filter_congr
      intro e he
      have h1 : compare e.1 start ≠ .lt := fun h => hge e he (before e.1 h)
      simp [within,bne_iff_ne.mpr h1,bne_iff_ne.mpr (hge e he)]

variable [DecidableEq K]

/-- The walk between two cursors over a sorted list. -/
theorem walk_filter :
    (match l.find? (fun e => compare e.1 stop != .lt) with
      | none => l.dropWhile (fun e => compare e.1 start == .lt)
      | some n => (l.dropWhile (fun e => compare e.1 start == .lt)).takeWhile
          (fun e => decide (e.1 ≠ n.1))) = l.filter (fun e => within start (some stop) e.1) := by
  rw [drop_filter l start hs,split_filter l start stop hs hle]
  have hhead : l.find? (fun e => compare e.1 stop != .lt) =
      (l.filter (fun e => within stop none e.1)).head? := by
    simp [within]
  rw [hhead]
  cases hf : l.filter (fun e => within stop none e.1) with
  | nil => simp
  | cons n tail =>
    have hn : compare n.1 stop ≠ .lt := by
      have : n ∈ l.filter (fun e => within stop none e.1) := by simp [hf]
      simpa [within] using (mem_filter.mp this).2
    have hne : ∀ e ∈ l.filter (fun e => within start (some stop) e.1),
        decide (e.1 ≠ n.1) = true := by
      intro e he
      have he := (mem_filter.mp he).2
      simp only [within,Bool.and_eq_true,Option.all_some,beq_iff_eq] at he
      exact decide_eq_true (fun h => hn (h ▸ he.2))
    have happ := @takeWhile_append_of_pos _ _ _ (n :: tail) hne
    simpa using happ

end

variable [DecidableEq K]

/-- The loop from the cursor at `start` until the cursor at `stop` is met; the
end cursor when there is no `stop`. -/
def entries (m : ExtTreeMap K V) (start : K) (stop : Option K) : List (K × V) :=
  let rest := m.toList.dropWhile (fun e => compare e.1 start == .lt)
  match stop.bind (Table.lowerBound m) with
  | none => rest
  | some n => rest.takeWhile (fun e => decide (e.1 ≠ n.1))

theorem entries_eq_filter (m : ExtTreeMap K V) (start : K) (stop : Option K)
    (hle : ∀ s ∈ stop, compare start s ≠ .gt) :
    entries m start stop = m.toList.filter (fun e => within start stop e.1) := by
  have hs := ExtTreeMap.ordered_keys_toList (t := m)
  cases stop with
  | some stop => exact walk_filter m.toList start stop hs (hle stop rfl)
  | none => exact drop_filter m.toList start hs

end

section
variable {T α M : Type*} [DecidableEq T] [AddCommMonoid M]

theorem sum_ite_one (ts : List T) (hts : ts.Nodup) (t : T) (ht : t ∈ ts) (x : M) :
    (ts.map (fun u => if u = t then x else 0)).sum = x := by
  induction ts with
  | nil => cases ht
  | cons u ts ih =>
    obtain ⟨hu,hts⟩ := nodup_cons.mp hts
    rw [map_cons,sum_cons]
    rcases mem_cons.mp ht with rfl | ht
    · have hzero : ts.map (fun u => if u = t then x else 0) = ts.map (fun _ => 0) := by
        apply map_congr_left
        intro v hv
        rw [if_neg]
        rintro rfl
        exact hu hv
      rw [if_pos rfl,hzero]
      simp
    · rw [if_neg,ih hts ht,zero_add]
      rintro rfl
      exact hu ht

theorem sum_parts (ts : List T) (hts : ts.Nodup) (p : T → α → Bool) (f : α → M) (l : List α)
    (h : ∀ x ∈ l, ∃ t ∈ ts, ∀ u ∈ ts, p u x = true ↔ u = t) :
    (ts.map (fun t => ((l.filter (p t)).map f).sum)).sum = (l.map f).sum := by
  induction l with
  | nil => simp
  | cons x l ih =>
    have hsplit : ∀ t, (((x :: l).filter (p t)).map f).sum =
        (if p t x = true then f x else 0)+((l.filter (p t)).map f).sum := by
      intro t
      by_cases hx : p t x = true <;> simp [hx]
    obtain ⟨t,ht,hone⟩ := h x mem_cons_self
    have hx : (ts.map (fun u => if p u x = true then f x else 0)).sum = f x := by
      have hmap : ts.map (fun u => if p u x = true then f x else 0) =
          ts.map (fun u => if u = t then f x else 0) := by
        apply map_congr_left
        intro u hu
        simp [hone u hu]
      rw [hmap,sum_ite_one ts hts t ht]
    simp only [hsplit]
    rw [sum_map_add,hx,ih (fun y hy => h y (mem_cons_of_mem _ hy)),map_cons,
      sum_cons]

end

/-- Even ranges with an open-ended last one hold every number exactly once. -/
theorem even_exactly_one (count size k : ℕ) (hc : 0 < count) (hs : 0 < size) :
    ∃ t < count, ∀ u < count,
      (u*size ≤ k ∧ (u = count-1 ∨ k < (u+1)*size)) ↔ u = t := by
  refine ⟨min (k/size) (count-1),by omega,fun u hu => ?_⟩
  rw [← Nat.le_div_iff_mul_le hs,← Nat.div_lt_iff_lt_mul hs]
  omega

end Ranges
