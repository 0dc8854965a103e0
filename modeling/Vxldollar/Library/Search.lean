import Vxldollar.Library.Loop
import Mathlib.Data.Set.Card
import Mathlib.Logic.Relation

/-!
# Search with a stack

A depth-first search keeps what it has seen in a container of which only one
operation is used: to add an element and to tell whether it was new. The
container may be wrong about that in one direction and the search still ends,
having visited nothing twice and nothing beyond reach. If it is never wrong the
search visits all that can be reached.
-/

namespace Search
open List

variable {α S : Type*}

structure State (α S : Type*) where
  seen : S
  stack : List α
  visited : List α := []

section
variable (add : S → α → Bool × S) (expand : α → Option (Option (List α)))

def enqueue (s : State α S) (x : α) : State α S :=
  { s with
    seen := (add s.seen x).2
    stack := if (add s.seen x).1 then x::s.stack else s.stack }

def round (s : State α S) : Option (State α S ⊕ State α S) := match s.stack with
  | [] => some (.inr s)
  | x::rest => (expand x).map fun
    | none => .inl { s with stack := rest }
    | some ds => .inl (ds.foldl (enqueue add) { s with
        stack := rest
        visited := s.visited++[x] })

def Visitable (x : α) : Prop := ∃ ds, expand x = some (some ds)

def Edge (x d : α) : Prop := ∃ ds, expand x = some (some ds) ∧ d ∈ ds

def reach (root : α) : Set α := {x | Relation.ReflTransGen (Edge expand) root x}

/-- The container `s` stands for a set, as far as elements of `D` go. An element that
is reported as new is not in the set. -/
structure Admits (R : S → Set α → Prop) (D : Set α) : Prop where
  fresh : ∀ s A x, R s A → A ⊆ D → x ∈ D → (add s x).1 = true →
    x ∉ A ∧ R (add s x).2 (insert x A)
  known : ∀ s A x, R s A → A ⊆ D → x ∈ D → (add s x).1 = false → R (add s x).2 A

/-- An element that is not reported as new is in the set. -/
def Faithful (R : S → Set α → Prop) (D : Set α) : Prop :=
  ∀ s A x, R s A → A ⊆ D → x ∈ D → (add s x).1 = false → x ∈ A

end

variable {add : S → α → Bool × S} {expand : α → Option (Option (List α))}
  {R : S → Set α → Prop} {D : Set α} {root : α} {s : State α S} {done : List α} {seen : S} {x : α}

structure Inv (add : S → α → Bool × S) (expand : α → Option (Option (List α)))
    (R : S → Set α → Prop) (D : Set α) (s : State α S) (done : List α) : Prop where
  seen : R s.seen {x | x ∈ done++s.stack}
  once : (done++s.stack).Nodup
  within : ∀ x ∈ done++s.stack, x ∈ D
  visited : s.visited.Sublist done
  visitable : ∀ x ∈ done, x ∈ s.visited ↔ Visitable expand x

section
variable (H : Admits add R D) (I : Inv add expand R D s done)
include H I

theorem Inv.enqueue (hx : x ∈ D) :
    Inv add expand R D (enqueue add s x) done ∧
      (∀ y, y ∈ done++s.stack → y ∈ done++(enqueue add s x).stack) ∧
      (Faithful add R D → x ∈ done++(enqueue add s x).stack) := by
  unfold Search.enqueue
  cases hb : (add s.seen x).1 with
  | true =>
    obtain ⟨hn,hR⟩ := H.fresh _ _ x I.seen I.within hx hb
    have hperm : (done++x::s.stack).Perm (x::(done++s.stack)) := perm_middle
    have hset : {y | y ∈ done++x::s.stack} = insert x {y | y ∈ done++s.stack} := by
      ext y
      exact hperm.mem_iff.trans mem_cons
    simp only [if_true]
    refine ⟨⟨?_,?_,?_,I.visited,I.visitable⟩,?_,?_⟩
    · show R _ {y | y ∈ done++x::s.stack}
      rw [hset]
      exact hR
    · exact hperm.nodup_iff.mpr (nodup_cons.mpr ⟨hn,I.once⟩)
    · intro y hy
      rcases mem_cons.mp (hperm.mem_iff.mp hy) with rfl | hy
      · exact hx
      · exact I.within y hy
    · exact fun y hy => hperm.mem_iff.mpr (mem_cons_of_mem _ hy)
    · exact fun _ => hperm.mem_iff.mpr mem_cons_self
  | false =>
    simp only [Bool.false_eq_true]
    refine ⟨⟨H.known _ _ x I.seen I.within hx hb,I.once,I.within,I.visited,I.visitable⟩,?_,?_⟩
    · exact fun y hy => hy
    · exact fun hf => hf _ _ x I.seen I.within hx hb

theorem Inv.enqueues {ds : List α} (hds : ∀ d ∈ ds, d ∈ D) :
    Inv add expand R D (ds.foldl (Search.enqueue add) s) done ∧
      (∀ y, y ∈ done++s.stack → y ∈ done++(ds.foldl (Search.enqueue add) s).stack) ∧
      (Faithful add R D → ∀ d ∈ ds, d ∈ done++(ds.foldl (Search.enqueue add) s).stack) := by
  induction ds generalizing s with
  | nil => exact ⟨I,fun _ h => h,fun _ d hd => absurd hd not_mem_nil⟩
  | cons d ds ih =>
    obtain ⟨I',hkeep,hnew⟩ := I.enqueue H (hds d mem_cons_self)
    obtain ⟨J,hkeep',hnew'⟩ := ih I' fun e he => hds e (mem_cons_of_mem _ he)
    refine ⟨J,fun y hy => hkeep' y (hkeep y hy),fun hf e he => ?_⟩
    rcases mem_cons.mp he with rfl | he
    · exact hkeep' _ (hnew hf)
    · exact hnew' hf e he

end

structure Searching (add : S → α → Bool × S) (expand : α → Option (Option (List α)))
    (R : S → Set α → Prop) (root : α) (s : State α S) (done : List α) : Prop
    extends Inv add expand R (reach expand root) s done where
  started : root ∈ done++s.stack
  closed : Faithful add R (reach expand root) → ∀ x ∈ done, ∀ d, Edge expand x d →
    d ∈ done++s.stack

section
variable (H : Admits add R (reach expand root))
include H

theorem Searching.round (hp : ∀ x ∈ reach expand root, expand x ≠ none)
    (I : Searching add expand R root s done) {rest : List α} (hs : s.stack = x::rest) :
    ∃ t, round add expand s = some (.inl t) ∧ Searching add expand R root t (done++[x]) := by
  have hperm : ∀ l, (done++[x])++l = done++x::l := fun l => by
    rw [append_assoc,singleton_append]
  have hx : x ∈ reach expand root := I.within x (by rw [hs]; simp)
  have hnew : x ∉ done := by
    have := I.once
    rw [hs,← hperm,append_assoc,singleton_append] at this
    exact fun hd => (disjoint_of_nodup_append this) hd mem_cons_self
  have hfresh : x ∉ s.visited := fun hv => hnew (I.visited.subset hv)
  unfold Search.round
  rw [hs]
  dsimp only
  cases he : expand x with
  | none => exact absurd he (hp x hx)
  | some o =>
    rw [Option.map_some]
    cases o with
    | none =>
      refine ⟨_,rfl,⟨⟨?_,?_,?_,?_,?_⟩,?_,?_⟩⟩
      · simpa [← hs] using I.seen
      · simpa [← hs] using I.once
      · simpa [← hs] using I.within
      · exact I.visited.trans (sublist_append_left _ _)
      · intro y hy
        rcases mem_append.mp hy with hy | hy
        · exact I.visitable y hy
        · rw [mem_singleton.mp hy]
          refine iff_of_false hfresh ?_
          rintro ⟨ds,hds⟩
          rw [he] at hds
          cases hds
      · simpa [← hs] using I.started
      · intro hf y hy d hd
        simp only [hperm,← hs]
        rcases mem_append.mp hy with hy | hy
        · exact I.closed hf y hy d hd
        · obtain ⟨ds,hds,-⟩ := hd
          rw [mem_singleton.mp hy,he] at hds
          cases hds
    | some ds =>
      -- the state before the successors are added
      have J : Inv add expand R (reach expand root)
          { s with stack := rest, visited := s.visited++[x] } (done++[x]) := by
        refine ⟨?_,?_,?_,?_,?_⟩
        · simpa [← hs] using I.seen
        · simpa [← hs] using I.once
        · simpa [← hs] using I.within
        · exact I.visited.append (Sublist.refl _)
        · intro y hy
          rcases mem_append.mp hy with hy | hy
          · rw [← I.visitable y hy]
            have hne : y ≠ x := fun e => hnew (e ▸ hy)
            simp [hne]
          · rw [mem_singleton.mp hy]
            exact iff_of_true (by simp) ⟨ds,he⟩
      have hds : ∀ d ∈ ds, d ∈ reach expand root := fun d hd =>
        Relation.ReflTransGen.tail hx ⟨ds,he,hd⟩
      obtain ⟨K,hkeep,hadded⟩ := J.enqueues H hds
      have hstack : ∀ y, y ∈ done++s.stack → y ∈ (done++[x])++rest := fun y hy => by
        rwa [hperm,← hs]
      refine ⟨_,rfl,⟨K,hkeep _ (hstack _ I.started),fun hf y hy d hd => ?_⟩⟩
      rcases mem_append.mp hy with hy | hy
      · exact hkeep d (hstack d (I.closed hf y hy d hd))
      · obtain ⟨ds',hds',hd⟩ := hd
        rw [mem_singleton.mp hy,he] at hds'
        cases hds'
        exact hadded hf d hd

theorem Searching.start (hR : R seen ∅) (hroot : (add seen root).1 = true) :
    Searching add expand R root (enqueue add ⟨seen,[],[]⟩ root) [] := by
  have hreach : root ∈ reach expand root := Relation.ReflTransGen.refl
  have I : Inv add expand R (reach expand root) ⟨seen,[],[]⟩ [] := by
    refine ⟨?_,nodup_nil,fun x hx => absurd hx not_mem_nil,Sublist.refl _,
      fun x hx => absurd hx not_mem_nil⟩
    simpa using hR
  refine ⟨(I.enqueue H hreach).1,?_,fun _ x hx => absurd hx not_mem_nil⟩
  unfold enqueue
  simp [hroot]

end

theorem Inv.length_le (I : Inv add expand R D s done) (hfin : D.Finite) :
    done.length ≤ D.ncard := by
  classical
  have hsub : (done.toFinset : Set α) ⊆ D := fun x hx =>
    I.within x (mem_append_left _ (mem_toFinset.mp hx))
  have hcard := Set.ncard_le_ncard hsub hfin
  rwa [Set.ncard_coe_finset,toFinset_card_of_nodup I.once.of_append_left] at hcard

/-- What a search leaves: it has visited, once each, those of the elements it has seen
that can be visited; and if the container is faithful, all that can be reached. -/
structure Result (add : S → α → Bool × S) (expand : α → Option (Option (List α)))
    (R : S → Set α → Prop) (root : α) (t : State α S) : Prop where
  once : t.visited.Nodup
  seen : ∃ A, R t.seen A ∧ A ⊆ reach expand root ∧
    ∀ x, x ∈ t.visited ↔ x ∈ A ∧ Visitable expand x
  complete : Faithful add R (reach expand root) → ∀ x ∈ reach expand root,
    Visitable expand x → x ∈ t.visited

theorem Searching.result (I : Searching add expand R root s done) (hs : s.stack = []) :
    Result add expand R root s := by
  have hdone : done++s.stack = done := by rw [hs,append_nil]
  have hseen := I.seen
  have hwithin := I.within
  rw [hdone] at hseen hwithin
  refine ⟨(hdone ▸ I.once).sublist I.visited,⟨{x | x ∈ done},hseen,hwithin,fun x => ?_⟩,?_⟩
  · constructor
    · intro hx
      have hd := I.visited.subset hx
      exact ⟨hd,(I.visitable x hd).mp hx⟩
    · exact fun hx => (I.visitable x hx.1).mpr hx.2
  · intro hf x hx hv
    have hall : x ∈ done := by
      induction hx with
      | refl => exact hdone ▸ I.started
      | tail _ he ih =>
        have hy := ih ⟨_,he.choose_spec.1⟩
        exact hdone ▸ I.closed hf _ hy _ he
    exact (I.visitable x hall).mpr hv

/-- A search ends, whatever the container reports. -/
theorem search_total (H : Admits add R (reach expand root))
    (hp : ∀ x ∈ reach expand root, expand x ≠ none) (hfin : (reach expand root).Finite)
    (hR : R seen ∅) (hroot : (add seen root).1 = true) {n : ℕ}
    (hn : (reach expand root).ncard < n) :
    ∃ t, Loop.loop (round add expand) n (enqueue add ⟨seen,[],[]⟩ root) = some t ∧
      Result add expand R root t := by
  refine Loop.loop_total (fun k s => ∃ done, Searching add expand R root s done ∧
    k+done.length = (reach expand root).ncard) (Result add expand R root) ?_ n
    (reach expand root).ncard _ ⟨[],Searching.start H hR hroot,rfl⟩ hn
  rintro k s ⟨done,I,hk⟩
  cases hs : s.stack with
  | nil =>
    refine .inr ⟨s,?_,I.result hs⟩
    unfold round
    rw [hs]
  | cons x rest =>
    obtain ⟨t,ht,J⟩ := I.round H hp hs
    have hle := J.length_le hfin
    rw [length_append,length_singleton] at hle
    refine .inl ⟨t,k-1,ht,⟨_,J,?_⟩,?_⟩
    · rw [length_append,length_singleton]
      omega
    · omega

end Search
