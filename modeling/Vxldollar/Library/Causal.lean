import Mathlib.Data.Set.Card
import Mathlib.Logic.Function.Basic
import Mathlib.Logic.Relation

/-!
# Causal stores

A store of keyed nodes that grows from a seed by admitting one node at a time
and shrinks by dropping nodes nothing depends on. The only law asked of the
admission rule is that independent admissions commute; it makes every built
store closed under dropping maximal nodes, so the order of growth and the
detours of a history leave no trace in the set of stores that can be built.
-/

namespace Causal
open Function

variable {K N : Type*} {X : K → Option N}

open Classical in
noncomputable def without (X : K → Option N) (S : Set K) : K → Option N :=
  fun k => if k ∈ S then none else X k

theorem without_eq_some {S : Set K} {k : K} {n : N} :
    without X S k = some n ↔ k ∉ S ∧ X k = some n := by
  unfold without
  split_ifs with h
  · simp [h]
  · simp [h]

theorem without_empty : without X ∅ = X := by
  funext k
  simp [without]

theorem without_without (S T : Set K) : without (without X S) T = without X (S ∪ T) := by
  funext k
  by_cases hs : k ∈ S
  · by_cases ht : k ∈ T <;> simp [without,hs]
  · by_cases ht : k ∈ T <;> simp [without,hs,ht]

variable [DecidableEq K]

/-- An admission rule over partial stores, with the direct dependencies of a
node. -/
structure Rules (K N : Type*) [DecidableEq K] where
  seedKey : K
  seedNode : N
  deps : N → Set K
  admits : (K → Option N) → K → N → Prop
  seed_deps : ∀ d, d ∉ deps seedNode
  deps_present : ∀ {X k n d}, admits X k n → d ∈ deps n → ∃ m, X d = some m
  commute : ∀ {X k n g m}, admits X k n → X k = none →
    admits (update X k (some n)) g m → X g = none → g ≠ k → k ∉ deps m →
    admits X g m ∧ admits (update X g (some m)) k n

variable (R : Rules K N)

inductive Built : (K → Option N) → Prop
  | seed : Built (update (fun _ => none) R.seedKey (some R.seedNode))
  | add {X : K → Option N} {k : K} {n : N} : Built X → X k = none → R.admits X k n →
      Built (update X k (some n))

/-- `Direct R X a b`: the node under `b` depends directly on `a`. -/
def Direct (X : K → Option N) (a b : K) : Prop := ∃ n, X b = some n ∧ a ∈ R.deps n

def dependents (X : K → Option N) (k : K) : Set K :=
  {g | Relation.ReflTransGen (Direct R X) k g}

def Maximal (X : K → Option N) (k : K) : Prop := ∀ g m, X g = some m → k ∉ R.deps m

variable {R}

theorem without_singleton (k : K) : without X {k} = update X k none := by
  funext g
  by_cases h : g = k
  · simp [without,h]
  · simp [without,h]

namespace Built

variable (hb : Built R X) {n : N}
include hb

theorem deps_present {k d : K} (hk : X k = some n) (hd : d ∈ R.deps n) :
    ∃ m, X d = some m := by
  induction hb generalizing k n with
  | seed =>
    by_cases e : k = R.seedKey
    · subst e
      obtain rfl : R.seedNode = n := by simpa using hk
      exact absurd hd (R.seed_deps d)
    · simp [e] at hk
  | @add Y g m hY hg ha ih =>
    have hpres : ∃ m', Y d = some m' := by
      by_cases e : k = g
      · subst e
        obtain rfl : m = n := by simpa using hk
        exact R.deps_present ha hd
      · rw [update_of_ne e] at hk
        exact ih hk hd
    by_cases e : d = g
    · exact ⟨m,by simp [e]⟩
    · rwa [update_of_ne e]

theorem finite : {k | X k ≠ none}.Finite := by
  induction hb with
  | seed =>
    refine (Set.finite_singleton R.seedKey).subset ?_
    intro k hk
    by_contra e
    exact hk (by simp [show k ≠ R.seedKey from e])
  | @add Y g m hY hg ha ih =>
    refine (ih.insert g).subset ?_
    intro k hk
    by_cases e : k = g
    · exact .inl e
    · right
      simpa [e] using hk

/-- Keys can be numbered so that every dependency has a smaller number. -/
theorem ranked : ∃ (rank : K → ℕ) (bound : ℕ),
    (∀ k n, X k = some n → rank k < bound) ∧
    (∀ k n d, X k = some n → d ∈ R.deps n → rank d < rank k) := by
  induction hb with
  | seed =>
    refine ⟨fun _ => 0,1,fun _ _ _ => Nat.one_pos,?_⟩
    intro k n d hk hd
    by_cases e : k = R.seedKey
    · subst e
      obtain rfl : R.seedNode = n := by simpa using hk
      exact absurd hd (R.seed_deps d)
    · simp [e] at hk
  | @add Y g m hY hg ha ih =>
    obtain ⟨rank,bound,hlt,hdeps⟩ := ih
    refine ⟨update rank g bound,bound+1,?_,?_⟩
    · intro k n hk
      by_cases e : k = g
      · simp [e]
      · rw [update_of_ne e] at hk ⊢
        exact Nat.lt_succ_of_lt (hlt k n hk)
    · intro k n d hk hd
      have hne : ∀ m', Y d = some m' → d ≠ g := by
        rintro m' hd' rfl
        simp [hg] at hd'
      by_cases e : k = g
      · subst e
        obtain rfl : m = n := by simpa using hk
        obtain ⟨m',hd'⟩ := R.deps_present ha hd
        rw [update_of_ne (hne m' hd'),update_self]
        exact hlt d m' hd'
      · rw [update_of_ne e] at hk
        obtain ⟨m',hd'⟩ := hY.deps_present hk hd
        rw [update_of_ne (hne m' hd'),update_of_ne e]
        exact hdeps k n d hk hd

theorem drop {k : K} (hk : X k = some n) (hs : k ≠ R.seedKey) (hm : Maximal R X k) :
    Built R (update X k none) ∧ R.admits (update X k none) k n := by
  induction hb with
  | seed => simp [hs] at hk
  | @add Y g m hY hg ha ih =>
    by_cases e : g = k
    · subst e
      obtain rfl : m = n := by simpa using hk
      have hu : update (update Y g (some m)) g none = Y := by
        rw [update_idem,← hg,update_eq_self]
      rw [hu]
      exact ⟨hY,ha⟩
    · have hkY : Y k = some n := by rwa [update_of_ne (Ne.symm e)] at hk
      have hmY : Maximal R Y k := by
        intro a b hab
        refine hm a b ?_
        rw [update_of_ne ?_,hab]
        rintro rfl
        simp [hg] at hab
      obtain ⟨hdrop,hadm⟩ := ih hkY hmY
      -- `g` came after `k` without depending on it, so it could have come first
      have hback : update (update Y k none) k (some n) = Y := by
        rw [update_idem,← hkY,update_eq_self]
      have hfree : update Y k none g = none := by rwa [update_of_ne e]
      have hswap := R.commute hadm (by simp) (by rwa [hback]) hfree e (hm g m (by simp))
      rw [update_comm e]
      exact ⟨add hdrop hfree hswap.1,hswap.2⟩

end Built

variable {k g : K} {n : N}

theorem dependents_present (hk : X k = some n) (hg : g ∈ dependents R X k) : ∃ m, X g = some m := by
  rcases Relation.ReflTransGen.cases_tail hg with e | ⟨_,_,m,hm,_⟩
  · exact ⟨n,e ▸ hk⟩
  · exact ⟨m,hm⟩

theorem dependents_finite (hb : Built R X) (hk : X k = some n) :
    (dependents R X k).Finite := by
  refine hb.finite.subset ?_
  intro g hg
  obtain ⟨m,hm⟩ := dependents_present hk hg
  simp [hm]

theorem dependents_trans {a b c : K} (hab : b ∈ dependents R X a) (hbc : c ∈ dependents R X b) :
    c ∈ dependents R X a := Relation.ReflTransGen.trans hab hbc

variable {a b : K}

theorem dependents_subset (hab : b ∈ dependents R X a) :
    dependents R X b ⊆ dependents R X a := fun _ hc => dependents_trans hab hc

theorem rank_le_of_dependents {rank : K → ℕ}
    (hr : ∀ k n d, X k = some n → d ∈ R.deps n → rank d < rank k) (h : b ∈ dependents R X a) :
    rank a ≤ rank b := by
  induction h with
  | refl => exact le_rfl
  | tail _ hd ih =>
    obtain ⟨n,hn,hmem⟩ := hd
    exact ih.trans (hr _ n _ hn hmem).le

theorem dependents_antisymm (hb : Built R X) (hab : b ∈ dependents R X a)
    (hba : a ∈ dependents R X b) : a = b := by
  obtain ⟨rank,_,_,hr⟩ := hb.ranked
  rcases Relation.ReflTransGen.cases_tail hab with e | ⟨c,hac,n,hn,hmem⟩
  · exact e.symm
  · have h1 := rank_le_of_dependents hr hac
    have h2 := hr b n c hn hmem
    have h3 := rank_le_of_dependents hr hba
    omega

/-- A part of the store that misses a key and is closed under dependencies
misses everything that depends on the key. -/
theorem dependents_missing (S : Set K) (hS : k ∈ S) (hc : Built R (without X S))
    (hg : g ∈ dependents R X k) : without X S g = none := by
  induction hg with
  | refl => simp [without,hS]
  | @tail b c _ hd ih =>
    obtain ⟨n,hn,hmem⟩ := hd
    by_contra hne
    obtain ⟨m,hm⟩ := Option.ne_none_iff_exists'.mp hne
    obtain rfl : n = m := by
      rw [without_eq_some] at hm
      exact Option.some.inj (hn.symm.trans hm.2)
    obtain ⟨m',hm'⟩ := hc.deps_present hm hmem
    simp [ih] at hm'

theorem dependents_without {S : Set K} : dependents R (without X S) k ⊆ dependents R X k := by
  intro g hg
  induction hg with
  | refl => exact Relation.ReflTransGen.refl
  | tail _ hd ih =>
    obtain ⟨n,hn,hmem⟩ := hd
    exact ih.tail ⟨n,(without_eq_some.mp hn).2,hmem⟩

end Causal
