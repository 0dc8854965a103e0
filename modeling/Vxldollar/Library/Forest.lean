import Mathlib.Data.List.Nodup
import Mathlib.Data.Set.Card
import Mathlib.Data.Set.Finite.Lattice
import Mathlib.Logic.Function.Basic

/-!
# Prefixes of a forest of chains

Blocks stand in chains, one chain for each account, and a block may have a
source in another chain. A height function covers a prefix of every chain. It
grows by blocks whose chain below and whose source are covered already, so
every growth is a linear extension of the order the forest asks for, whatever
the order of the walk that found it.
-/

/-- Chains of blocks with sources. The rank orders every block after the
blocks below it and after its source. -/
structure Forest (A B : Type*) where
  mem : B → Prop
  account : B → A
  height : B → ℕ
  source : B → Option B
  rank : B → ℕ
  positive : ∀ {b}, mem b → 0 < height b
  below : ∀ {b k}, mem b → 0 < k → k ≤ height b →
    ∃ c, mem c ∧ account c = account b ∧ height c = k
  unique : ∀ {b c}, mem b → mem c → account b = account c → height b = height c → b = c
  source_mem : ∀ {b s}, mem b → source b = some s → mem s
  rank_chain : ∀ {b c}, mem b → mem c → account b = account c → height b < height c →
    rank b < rank c
  rank_source : ∀ {b s}, mem b → source b = some s → rank s < rank b

namespace Forest
open List Function Nat

variable {A B : Type*} {F : Forest A B} {V W V' : A → ℕ} {a : A} {b c s : B}

section
variable (hb : F.mem b) (hc : F.mem c) (ha : F.account b = F.account c)
include hb hc ha

theorem height_lt_of_rank (hr : F.rank b < F.rank c) : F.height b < F.height c := by
  by_contra hle
  rcases lt_or_eq_of_le (not_lt.mp hle) with h | h
  · exact absurd (F.rank_chain hc hb ha.symm h) (by omega)
  · obtain rfl := F.unique hc hb ha.symm h
    exact absurd hr (lt_irrefl _)

theorem rank_le_chain (hh : F.height b ≤ F.height c) : F.rank b ≤ F.rank c := by
  rcases lt_or_eq_of_le hh with h | h
  · exact (F.rank_chain hb hc ha h).le
  · rw [F.unique hb hc ha h]

end

section
variable (F)

open Classical in
noncomputable def blockAt (a : A) (k : ℕ) : Option B :=
  if h : ∃ b, F.mem b ∧ F.account b = a ∧ F.height b = k then some h.choose else none

noncomputable def segment (a : A) (v k : ℕ) : List B :=
  (range' (v+1) (k-v)).filterMap (F.blockAt a)

variable {F} {v k : ℕ}

theorem blockAt_eq {k : ℕ} : F.blockAt a k = some b ↔
    F.mem b ∧ F.account b = a ∧ F.height b = k := by
  unfold blockAt
  constructor
  · intro h
    split at h
    · rename_i hex
      cases h
      exact hex.choose_spec
    · cases h
  · intro h
    have hex : ∃ b, F.mem b ∧ F.account b = a ∧ F.height b = k := ⟨b,h⟩
    rw [dif_pos hex,Option.some.injEq]
    have hc := hex.choose_spec
    exact F.unique hc.1 h.1 (hc.2.1.trans h.2.1.symm) (hc.2.2.trans h.2.2.symm)

theorem blockAt_self (hb : F.mem b) : F.blockAt (F.account b) (F.height b) = some b :=
  blockAt_eq.mpr ⟨hb,rfl,rfl⟩

theorem segment_empty (h : k ≤ v) : F.segment a v k = [] := by
  rw [segment,Nat.sub_eq_zero_of_le h]
  rfl

theorem segment_append {v m k : ℕ} (h1 : v ≤ m) (h2 : m ≤ k) :
    F.segment a v k = F.segment a v m ++ F.segment a m k := by
  have e : k-v = (m-v)+(k-m) := by omega
  rw [segment,segment,segment,e,← range'_append_1,filterMap_append]
  congr 3
  omega

theorem segment_last {v : ℕ} (hb : F.mem b) (hv : v < F.height b) :
    F.segment (F.account b) v (F.height b) =
      F.segment (F.account b) v (F.height b-1) ++ [b] := by
  rw [segment_append (by omega : v ≤ F.height b-1) (by omega)]
  congr 1
  have e : F.height b-(F.height b-1) = 1 := by omega
  have e' : F.height b-1+1 = F.height b := by omega
  rw [segment,e,e']
  simp [blockAt_self hb]

theorem segment_first (hc : F.mem c) (ha : F.account c = a) (hv : F.height c = v+1) (hk : v < k) :
    F.segment a v k = c :: F.segment a (v+1) k := by
  rw [segment_append (by omega : v ≤ v+1) (by omega : v+1 ≤ k)]
  subst ha
  rw [← hv,segment_last hc (by omega),hv,Nat.add_sub_cancel,segment_empty le_rfl]
  rfl

theorem mem_segment : b ∈ F.segment a v k ↔
    F.mem b ∧ F.account b = a ∧ v < F.height b ∧ F.height b ≤ k := by
  rw [segment,mem_filterMap]
  constructor
  · rintro ⟨j,hj,hb⟩
    rw [mem_range'_1] at hj
    obtain ⟨hm,ha,hh⟩ := blockAt_eq.mp hb
    exact ⟨hm,ha,by omega,by omega⟩
  · rintro ⟨hm,ha,hv,hk⟩
    refine ⟨F.height b,?_,blockAt_eq.mpr ⟨hm,ha,rfl⟩⟩
    rw [mem_range'_1]
    omega

theorem length_segment (hb : F.mem b) (hk : k ≤ F.height b) :
    (F.segment (F.account b) v k).length = k-v := by
  induction k with
  | zero => simp [segment_empty (zero_le v)]
  | succ k ih =>
    by_cases hv : v ≤ k
    · obtain ⟨c,hc,hca,hch⟩ := F.below hb (succ_pos k) hk
      have hs := segment_last (v := v) hc (by omega)
      rw [hca,hch,succ_sub_one] at hs
      rw [hs,length_append,ih (by omega)]
      simp only [length_singleton]
      omega
    · rw [segment_empty (by omega)]
      simp only [length_nil]
      omega

theorem take_reverse_segment {v m k : ℕ} (hb : F.mem b) (hv : v ≤ m) (hm : m ≤ k)
    (hk : k ≤ F.height b) : (F.segment (F.account b) v k).reverse.take (k-m) =
      (F.segment (F.account b) m k).reverse := by
  rw [segment_append hv hm,reverse_append,take_left']
  rw [length_reverse,length_segment hb hk]

theorem drop_reverse_segment {v m k : ℕ} (hb : F.mem b) (hv : v ≤ m) (hm : m ≤ k)
    (hk : k ≤ F.height b) : (F.segment (F.account b) v k).reverse.drop (k-m) =
      (F.segment (F.account b) v m).reverse := by
  rw [segment_append hv hm,reverse_append,drop_left']
  rw [length_reverse,length_segment hb hk]

end

def Covered (F : Forest A B) (V : A → ℕ) (b : B) : Prop :=
  F.mem b ∧ F.height b ≤ V (F.account b)

theorem not_covered_iff (hb : F.mem b) :
    ¬ F.Covered V b ↔ V (F.account b) < F.height b := by
  rw [← not_le]
  exact not_congr (and_iff_right hb)

theorem Covered.mono (h : F.Covered V b) (hle : ∀ a, V a ≤ W a) : F.Covered W b :=
  ⟨h.1,le_trans h.2 (hle _)⟩

section
variable (F) [DecidableEq A]

/-- The heights grow by one block: the next of its chain, with its source
covered. -/
structure Advance (V : A → ℕ) (b : B) (V' : A → ℕ) : Prop where
  mem : F.mem b
  next : F.height b = V (F.account b)+1
  source : ∀ s, F.source b = some s → F.Covered V s
  eq : V' = update V (F.account b) (F.height b)

inductive Advances : (A → ℕ) → List B → (A → ℕ) → Prop
  | nil (V : A → ℕ) : Advances V [] V
  | cons {V V' V'' : A → ℕ} {b : B} {bs : List B} : F.Advance V b V' → Advances V' bs V'' →
      Advances V (b :: bs) V''

variable {F} {bs cs : List B}

theorem Advances.append (h : F.Advances V bs V') (h' : F.Advances V' cs W) :
    F.Advances V (bs ++ cs) W := by
  induction h with
  | nil => exact h'
  | cons hb _ ih => exact Advances.cons hb (ih h')

theorem Advances.split (h : F.Advances V (bs ++ cs) W) :
    ∃ V', F.Advances V bs V' ∧ F.Advances V' cs W := by
  induction bs generalizing V with
  | nil => exact ⟨V,Advances.nil V,h⟩
  | cons b bs ih =>
    cases h with
    | cons hb h =>
      obtain ⟨V',h1,h2⟩ := ih h
      exact ⟨V',Advances.cons hb h1,h2⟩

theorem Advance.covered_iff (h : F.Advance V b V') :
    F.Covered V' c ↔ F.Covered V c ∨ c = b := by
  have hn := h.next
  unfold Covered
  rw [h.eq]
  by_cases ha : F.account c = F.account b
  · rw [ha,update_self]
    constructor
    · rintro ⟨hc,hh⟩
      by_cases he : F.height c = F.height b
      · exact .inr (F.unique hc h.mem ha he)
      · exact .inl ⟨hc,by omega⟩
    · rintro (⟨hc,hh⟩ | rfl)
      · exact ⟨hc,by omega⟩
      · exact ⟨h.mem,le_refl _⟩
  · rw [update_of_ne ha]
    constructor
    · exact .inl
    · rintro (hc | rfl)
      · exact hc
      · exact absurd rfl ha

theorem Advance.uncovered (h : F.Advance V b V') : ¬ F.Covered V b := by
  intro hc
  have := hc.2
  have := h.next
  omega

section
variable (h : F.Advances V bs V')
include h

theorem Advances.covered_iff :
    F.Covered V' c ↔ F.Covered V c ∨ c ∈ bs := by
  induction h with
  | nil => simp
  | cons hb _ ih => rw [ih,hb.covered_iff,mem_cons,or_assoc]

theorem Advances.fresh (hc : c ∈ bs) : ¬ F.Covered V c := by
  induction h with
  | nil => simp at hc
  | cons hb _ ih =>
    rcases mem_cons.mp hc with rfl | hc
    · exact hb.uncovered
    · exact fun h => ih hc (hb.covered_iff.mpr (.inl h))

theorem Advances.nodup : bs.Nodup := by
  induction h with
  | nil => exact nodup_nil
  | cons hb h ih =>
    refine nodup_cons.mpr ⟨fun hc => h.fresh hc ?_,ih⟩
    exact hb.covered_iff.mpr (.inr rfl)

end

theorem Advance.le (h : F.Advance V b V') (a : A) : V a ≤ V' a := by
  have := h.next
  rw [h.eq,update_apply]
  split
  · subst a
    omega
  · exact le_refl _

theorem Advances.le (h : F.Advances V bs V') (a : A) : V a ≤ V' a := by
  induction h with
  | nil => exact le_refl _
  | cons hb _ ih => exact le_trans (hb.le a) ih

theorem Advances.ordered (h : F.Advances V (bs ++ b :: cs) W) (hd : F.mem c)
    (hn : (F.account c = F.account b ∧ F.height c < F.height b) ∨ F.source b = some c) :
    F.Covered V c ∨ c ∈ bs := by
  obtain ⟨V',h1,h2⟩ := h.split
  cases h2 with
  | cons hb _ =>
    rw [← h1.covered_iff]
    rcases hn with ⟨ha,hh⟩ | hs
    · refine ⟨hd,?_⟩
      rw [ha]
      have := hb.next
      omega
    · exact hb.source c hs

theorem Advances.closed (needs : B → B → Prop)
    (hneeds : ∀ b d, F.mem b → needs b d → F.mem d ∧
      ((F.account d = F.account b ∧ F.height d < F.height b) ∨ F.source b = some d))
    (h : F.Advances V bs V') (hV : ∀ b, F.Covered V b → ∀ d, needs b d → F.Covered V d)
    (hb : F.Covered V' b) (d : B) (hd : needs b d) : F.Covered V' d := by
  rw [h.covered_iff] at hb ⊢
  rcases hb with hb | hb
  · exact .inl (hV b hb d hd)
  · obtain ⟨xs,ys,rfl⟩ := mem_iff_append.mp hb
    have hm : F.mem b := (h.covered_iff.mpr (.inr hb)).1
    obtain ⟨hdm,hn⟩ := hneeds b d hm hd
    rcases h.ordered hdm hn with hc | hc
    · exact .inl hc
    · exact .inr (mem_append_left _ hc)

theorem advances_segment (hb : F.mem b) {k : ℕ} (hk : k ≤ F.height b)
    (hv : V (F.account b) ≤ k)
    (hs : ∀ c, F.mem c → F.account c = F.account b → V (F.account b) < F.height c →
      F.height c ≤ k → ∀ s, F.source c = some s → F.Covered V s) :
    F.Advances V (F.segment (F.account b) (V (F.account b)) k)
      (update V (F.account b) k) := by
  induction k with
  | zero =>
    have e : V (F.account b) = 0 := le_zero.mp hv
    rw [segment_empty (zero_le _),← e,update_eq_self]
    exact Advances.nil V
  | succ k ih =>
    rcases lt_or_eq_of_le hv with hlt | heq
    · have hle : V (F.account b) ≤ k := le_of_lt_succ hlt
      have hstep := ih (by omega) hle (fun c hc ha h1 h2 => hs c hc ha h1 (by omega))
      obtain ⟨c,hc,hca,hch⟩ := F.below hb (succ_pos k) hk
      have hlast := segment_last (v := V (F.account b)) hc (by omega)
      rw [hca,hch,succ_sub_one] at hlast
      change F.Advances V (F.segment (F.account b) (V (F.account b)) k.succ) _
      rw [hlast]
      refine hstep.append (Advances.cons ⟨hc,?_,?_,rfl⟩ ?_)
      · rw [hca,update_self,hch]
      · intro s hcs
        exact (hs c hc hca (by omega) (by omega) s hcs).mono hstep.le
      · rw [hca,update_idem,hch]
        exact Advances.nil _
    · rw [segment_empty heq.ge,← heq,update_eq_self]
      exact Advances.nil V

end

section
variable (F) [DecidableEq A]

/-- An account is raised to a block: between what is covered and the block
there are no sources, and the block's own source is covered. -/
structure Raise (V : A → ℕ) (b : B) (V' : A → ℕ) : Prop where
  mem : F.mem b
  above : V (F.account b) < F.height b
  plain : ∀ c, F.mem c → F.account c = F.account b → V (F.account b) < F.height c →
    F.height c < F.height b → F.source c = none
  source : ∀ s, F.source b = some s → F.Covered V s
  eq : V' = update V (F.account b) (F.height b)

inductive Raises : (A → ℕ) → List B → (A → ℕ) → Prop
  | nil (V : A → ℕ) : Raises V [] V
  | cons {V V' V'' : A → ℕ} {b : B} {bs : List B} : F.Raise V b V' → Raises V' bs V'' →
      Raises V (b :: bs) V''

noncomputable def listing (V : A → ℕ) : List B → List B
  | [] => []
  | b :: bs => F.segment (F.account b) (V (F.account b)) (F.height b) ++
      listing (update V (F.account b) (F.height b)) bs

variable {F} {bs : List B}

theorem Raise.plainly (hb : F.mem b) (hv : V (F.account b) < F.height b)
    (hp : ∀ c, F.mem c → F.account c = F.account b → V (F.account b) < F.height c →
      F.height c ≤ F.height b → F.source c = none) :
    F.Raise V b (update V (F.account b) (F.height b)) := by
  refine ⟨hb,hv,fun c hc ha h1 h2 => hp c hc ha h1 h2.le,fun s hs => ?_,rfl⟩
  rw [hp b hb rfl hv le_rfl] at hs
  cases hs

theorem Raise.partly (h : F.Raise V b V') {k : ℕ} (hv : V (F.account b) ≤ k)
    (hk : k ≤ F.height b) : F.Advances V (F.segment (F.account b) (V (F.account b)) k)
      (update V (F.account b) k) := by
  refine advances_segment h.mem hk hv (fun c hc ha h1 h2 s hs => ?_)
  rcases lt_or_eq_of_le (le_trans h2 hk) with hlt | heq
  · rw [h.plain c hc ha h1 hlt] at hs
    cases hs
  · obtain rfl := F.unique hc h.mem ha heq
    exact h.source s hs

theorem Raise.advances (h : F.Raise V b V') :
    F.Advances V (F.segment (F.account b) (V (F.account b)) (F.height b)) V' := by
  rw [h.eq]
  exact h.partly h.above.le (le_refl _)

theorem Raises.advances (h : F.Raises V bs V') : F.Advances V (F.listing V bs) V' := by
  induction h with
  | nil => exact Advances.nil _
  | cons hb _ ih =>
    rw [hb.eq] at ih
    exact (hb.eq ▸ hb.advances).append ih

theorem Raises.snoc (h : F.Raises V bs V') (hb : F.Raise V' b W) :
    F.Raises V (bs ++ [b]) W := by
  induction h with
  | nil => exact Raises.cons hb (Raises.nil _)
  | cons hc _ ih => exact Raises.cons hc (ih hb)

theorem Raises.append {cs : List B} (h : F.Raises V bs V') (h' : F.Raises V' cs W) :
    F.Raises V (bs ++ cs) W := by
  induction h with
  | nil => exact h'
  | cons hc _ ih => exact Raises.cons hc (ih h')

theorem Raise.le (h : F.Raise V b V') (a : A) : V a ≤ V' a := h.advances.le a

theorem Raises.le (h : F.Raises V bs V') (a : A) : V a ≤ V' a := h.advances.le a

theorem Raise.covered (h : F.Raise V b V') : F.Covered V' b := by
  rw [h.eq]
  exact ⟨h.mem,by rw [update_self]⟩

theorem Raise.covered_iff (h : F.Raise V b V') : F.Covered V' c ↔ F.Covered V c ∨
    (F.mem c ∧ F.account c = F.account b ∧ V (F.account b) < F.height c ∧
      F.height c ≤ F.height b) := by
  rw [h.advances.covered_iff,mem_segment]

end

section
variable (F)

/-- The uncovered blocks that a block pulls in through chains and sources. -/
inductive Pull (V : A → ℕ) (t : B) : B → Prop
  | self : F.mem t → ¬ F.Covered V t → Pull V t t
  | chain {b c : B} : Pull V t b → F.mem c → F.account c = F.account b →
      F.height c < F.height b → ¬ F.Covered V c → Pull V t c
  | source {b s : B} : Pull V t b → F.source b = some s → ¬ F.Covered V s → Pull V t s

variable {F} {bs : List B} {t : B}

section
variable (h : F.Pull V t b)
include h

theorem Pull.mem : F.mem b := by
  induction h with
  | self hm _ => exact hm
  | chain _ hm => exact hm
  | source _ hs _ ih => exact F.source_mem ih hs

theorem Pull.uncovered : ¬ F.Covered V b := by
  cases h <;> assumption

theorem Pull.rank_le : F.rank b ≤ F.rank t := by
  induction h with
  | self => exact le_rfl
  | chain hb hm ha hlt _ ih => exact (F.rank_chain hm hb.mem ha hlt).le.trans ih
  | source hb hs _ ih => exact (F.rank_source hb.mem hs).le.trans ih

theorem Pull.lower (hc : F.mem c) (ha : F.account c = F.account b) (hh : F.height c ≤ F.height b)
    (hu : ¬ F.Covered V c) : F.Pull V t c := by
  rcases lt_or_eq_of_le hh with hlt | heq
  · exact h.chain hc ha hlt hu
  · rw [F.unique hc h.mem ha heq]
    exact h

end

theorem Pull.anti (h : F.Pull W t b) (hle : ∀ a, V a ≤ W a) : F.Pull V t b := by
  induction h with
  | self hm hu => exact Pull.self hm (fun hc => hu (hc.mono hle))
  | chain _ hm ha hh hu ih => exact ih.chain hm ha hh (fun hc => hu (hc.mono hle))
  | source _ hs hu ih => exact ih.source hs (fun hc => hu (hc.mono hle))

variable [DecidableEq A]

theorem Raises.pulled (h : F.Raises V' bs W) (hp : ∀ b ∈ bs, F.Pull V t b)
    (hb : F.Covered W b) : F.Covered V' b ∨ F.Covered V b ∨ F.Pull V t b := by
  induction h with
  | nil => exact .inl hb
  | cons hc _ ih =>
    rcases ih (fun x hx => hp x (mem_cons_of_mem _ hx)) hb with hcov | hold
    · rw [hc.covered_iff] at hcov
      rcases hcov with hcov | ⟨hm,ha,-,hh⟩
      · exact .inl hcov
      · by_cases hV : F.Covered V b
        · exact .inr (.inl hV)
        · exact .inr (.inr ((hp _ mem_cons_self).lower hm ha hh hV))
    · exact .inr hold

/-- What a covered block pulled in is covered with it. -/
theorem Raises.pulls (h : F.Raises V bs W) (ht : F.Covered W t) (hb : F.Pull V t b) :
    F.Covered W b := by
  induction hb with
  | self => exact ht
  | chain _ hm ha hh _ ih => exact ⟨hm,by have := ih.2; rw [ha]; omega⟩
  | source hb' hs hu ih =>
    have hin := (h.advances.covered_iff.mp ih).resolve_left hb'.uncovered
    obtain ⟨xs,ys,e⟩ := mem_iff_append.mp hin
    have hadv := h.advances
    rw [e] at hadv
    rcases hadv.ordered (F.source_mem ih.1 hs) (.inr hs) with hc | hc
    · exact absurd hc hu
    · rw [h.advances.covered_iff,e]
      exact .inr (mem_append_left _ hc)

/-- A growth that raises only pulled blocks and covers the one that pulls
covers exactly what is pulled. -/
theorem Raises.exact (h : F.Raises V bs W) (hp : ∀ b ∈ bs, F.Pull V t b)
    (ht : F.Covered W t) : F.Covered W b ↔ F.Covered V b ∨ F.Pull V t b := by
  constructor
  · intro hb
    rcases h.pulled hp hb with hc | hc
    · exact .inl hc
    · exact hc
  · rintro (hb | hb)
    · exact hb.mono h.le
    · exact h.pulls ht hb

end

section
variable (F)

/-- The blocks with a source that wait for one another on the way down from a block: each stands
in the chain of the source before it, and no source is pulled in by a block with a source that
stands below one of them. -/
inductive Nests (V : A → ℕ) (t : B) : List B → B → Prop
  | start : F.mem t → ¬ F.Covered V t → Nests V t [] t
  | step {rs : List B} {u r s : B} : Nests V t rs u → F.mem r → F.account r = F.account u →
      F.height r ≤ F.height u → ¬ F.Covered V r → F.source r = some s → ¬ F.Covered V s →
      (∀ q ∈ r :: rs, ∀ c, F.mem c → F.account c = F.account q → F.height c < F.height q →
        F.source c ≠ none → ¬ F.Pull V c s) → Nests V t (r :: rs) s

/-- The blocks with a source that stand below a block are covered. -/
def Cleared (V : A → ℕ) (q : B) : Prop := ∀ c, F.mem c → F.account c = F.account q →
  F.height c < F.height q → F.source c ≠ none → F.Covered V c

variable {F} {t u r : B} {bs rs : List B}

theorem Nests.mem (h : F.Nests V t rs u) : F.mem u := by
  cases h with
  | start hu _ => exact hu
  | step _ hr _ _ _ hs _ _ => exact F.source_mem hr hs

theorem Cleared.mono (h : F.Cleared V b) (hle : ∀ a, V a ≤ W a) : F.Cleared W b :=
  fun c hc ha hlt hs => (h c hc ha hlt hs).mono hle

/-- While the heights grow, the lowest uncovered block with a source waits next. -/
theorem Nests.deeper [DecidableEq A] (h : F.Nests V t rs u) (hg : F.Raises V bs W)
    (hclear : ∀ q ∈ r :: rs, F.Cleared W q) (hr : F.mem r) (ha : F.account r = F.account u)
    (hh : F.height r ≤ F.height u) (hru : ¬ F.Covered W r) (hs : F.source r = some s)
    (hu : ¬ F.Covered W s) : F.Nests V t (r :: rs) s := by
  refine h.step hr ha hh (fun hc => hru (hc.mono hg.le)) hs (fun hc => hu (hc.mono hg.le)) ?_
  intro q hq c hc hca hlt hsrc hpull
  exact hu (hg.pulls (hclear q hq c hc hca hlt hsrc) hpull)

end

section
variable (F)

/-- Among any `n` blocks of a chain that end in a pulled one, a block below the last has a source
or is covered. -/
def Brief (n : ℕ) (V : A → ℕ) (t : B) : Prop :=
  ∀ b, F.Pull V t b → n ≤ F.height b → ∃ c, F.mem c ∧ F.account c = F.account b ∧
    F.height c < F.height b ∧ F.height b < F.height c+n ∧ (F.Covered V c ∨ F.source c ≠ none)

variable {F} {n : ℕ} {t : B}

theorem brief_of_heights (hh : ∀ b, F.mem b → F.height b < n) : F.Brief n V t :=
  fun b hb hn => absurd (hh b hb.mem) (not_lt.mpr hn)

theorem Brief.mono (h : F.Brief n V t) (hle : ∀ a, V a ≤ W a) : F.Brief n W t := by
  intro b hb hn
  obtain ⟨c,hc,ha,h1,h2,h3⟩ := h b (hb.anti hle) hn
  exact ⟨c,hc,ha,h1,h2,h3.imp_left (fun hcov => hcov.mono hle)⟩

/-- A pulled block is raised over fewer than `n` blocks. -/
theorem Brief.raise [DecidableEq A] (h : F.Brief n V t) (hle : ∀ a, V a ≤ W a)
    (hb : F.Pull V t b) (hr : F.Raise W b V') : F.height b < W (F.account b)+n := by
  by_contra hlong
  obtain ⟨c,hc,ha,h1,h2,hcov | hsrc⟩ := h b hb (by omega)
  · have hV := hcov.2
    have hW := hle (F.account b)
    rw [ha] at hV
    omega
  · exact hsrc (hr.plain c hc ha (by omega) h1)

end

section
variable (F) [DecidableEq A]

def Grows (V : A → ℕ) (t : B) (V' : A → ℕ) : Prop :=
  ∃ bs, F.Raises V bs V' ∧ ∀ b ∈ bs, F.Pull V t b

/-- The heights grow by exactly what a block pulls in. -/
def Absorb (V : A → ℕ) (t : B) (V' : A → ℕ) : Prop := F.Grows V t V' ∧ F.Covered V' t

inductive Absorbs : (A → ℕ) → List B → (A → ℕ) → Prop
  | nil (V : A → ℕ) : Absorbs V [] V
  | cons {V V' V'' : A → ℕ} {t : B} {ts : List B} : F.Absorb V t V' → Absorbs V' ts V'' →
      Absorbs V (t :: ts) V''

variable {F} {t : B} {bs ts : List B}

theorem Grows.refl (V : A → ℕ) (t : B) : F.Grows V t V :=
  ⟨[],Raises.nil V,fun b hb => by cases hb⟩

theorem Grows.snoc (h : F.Grows V t V') (hr : F.Raise V' b W) (hb : F.Pull V t b) :
    F.Grows V t W := by
  obtain ⟨bs,hbs,hp⟩ := h
  refine ⟨bs ++ [b],hbs.snoc hr,fun c hc => ?_⟩
  rcases mem_append.mp hc with hc | hc
  · exact hp c hc
  · obtain rfl := mem_singleton.mp hc
    exact hb

theorem Grows.le (h : F.Grows V t V') (a : A) : V a ≤ V' a := by
  obtain ⟨bs,hr,-⟩ := h
  exact hr.le a

theorem Absorb.covered_iff (h : F.Absorb V t V') :
    F.Covered V' b ↔ F.Covered V b ∨ F.Pull V t b := by
  obtain ⟨⟨bs,hr,hp⟩,ht⟩ := h
  exact hr.exact hp ht

theorem Raises.attained (h : F.Raises V bs V') (a : A) :
    V' a = V a ∨ ∃ b, F.mem b ∧ F.account b = a ∧ F.height b = V' a := by
  induction h with
  | nil => exact .inl rfl
  | @cons _ _ _ b _ hb _ ih =>
    rcases ih with ih | ih
    · rw [ih,hb.eq,update_apply]
      split
      · rename_i e
        exact .inr ⟨b,hb.mem,e.symm,rfl⟩
      · exact .inl rfl
    · exact .inr ih

theorem Raises.le_of_covered (h : F.Raises V bs V') (hle : ∀ a, V a ≤ W a)
    (hc : ∀ b, F.Covered V' b → F.Covered W b) (a : A) : V' a ≤ W a := by
  rcases h.attained a with e | ⟨b,hb,rfl,hh⟩
  · rw [e]
    exact hle a
  · rw [← hh]
    exact (hc b ⟨hb,hh.le⟩).2

theorem Absorb.unique (h : F.Absorb V t V') (h' : F.Absorb V t W) : V' = W := by
  obtain ⟨bs,hr,-⟩ := h.1
  obtain ⟨cs,hr',-⟩ := h'.1
  funext a
  apply le_antisymm
  · exact hr.le_of_covered hr'.le (fun b hb => h'.covered_iff.mpr (h.covered_iff.mp hb)) a
  · exact hr'.le_of_covered hr.le (fun b hb => h.covered_iff.mpr (h'.covered_iff.mp hb)) a

theorem Absorbs.unique (h : F.Absorbs V ts V') (h' : F.Absorbs V ts W) : V' = W := by
  induction h with
  | nil =>
    cases h'
    rfl
  | cons ht _ ih =>
    cases h' with
    | cons ht' h' =>
      obtain rfl := ht.unique ht'
      exact ih h'

end

def uncovered (F : Forest A B) (V : A → ℕ) : Set B := {b | F.mem b ∧ ¬ F.Covered V b}

theorem uncovered_subset (h : ∀ a, V a ≤ W a) : F.uncovered W ⊆ F.uncovered V :=
  fun _ hc => ⟨hc.1,fun hV => hc.2 (hV.mono h)⟩

section
variable (hfin : {b | F.mem b}.Finite) (h : ∀ a, V a ≤ W a)
include hfin h

theorem uncovered_lt (hV : ¬ F.Covered V b) (hW : F.Covered W b) :
    (F.uncovered W).ncard < (F.uncovered V).ncard := by
  refine Set.ncard_lt_ncard ⟨uncovered_subset h,fun hle => ?_⟩
    (hfin.subset (fun _ hc => hc.1))
  exact (hle ⟨hW.1,hV⟩).2 hW

end

theorem Raise.uncovered [DecidableEq A] (h : F.Raise V b V') : ¬ F.Covered V b := by
  intro hc
  have := hc.2
  have := h.above
  omega

theorem height_bounded (hfin : {b | F.mem b}.Finite) : ∃ K, ∀ b, F.mem b → F.height b < K := by
  obtain ⟨K,hK⟩ := (hfin.image F.height).bddAbove
  exact ⟨K+1,fun b hb => lt_succ_of_le (hK ⟨b,hb,rfl⟩)⟩

theorem rank_bounded (hfin : {b | F.mem b}.Finite) : ∃ R, ∀ b, F.mem b → F.rank b < R := by
  obtain ⟨R,hR⟩ := (hfin.image F.rank).bddAbove
  exact ⟨R+1,fun b hb => lt_succ_of_le (hR ⟨b,hb,rfl⟩)⟩

end Forest
