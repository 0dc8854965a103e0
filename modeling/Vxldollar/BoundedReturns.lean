import Vxldollar.BoundedSpec

/-!
# When the bounded processor returns

A round that confirms nothing stores a receive with a lower source, so the
walk can only go round in circles at a checkpoint that is confirmed but never
erased. A block becomes a checkpoint when as many receives wait for it as the
buffer holds. It is erased when it is confirmed as a plain block or as the head of
its chain, so the walk ends if no block at such a depth is anything else.
-/

namespace Vxldollar.BoundedReturns
open Blocks Store Cementing Sources Bounded BoundedWrites BoundedWalk BoundedSpec List Option Nat

variable {C : Constants} {F : Forest Account BlockHash} {L₀ : Ledger}
  {V V' V₀ V₁ Vs : Account → ℕ} {original t x c : BlockHash} {w w' : Walk}
  {e : ReceiveSourcePair} {es : List ReceiveSourcePair}
  {env : Environment} {fuel cap : ℕ} {p : Processor} {cs : List BlockHash}

def IsHead (F : Forest Account BlockHash) (c : BlockHash) : Prop :=
  ∀ d, F.mem d → F.account d = F.account c → F.height d ≤ F.height c

/-- A block for which as many receives wait as a buffer holds is plain or the head of its
chain. -/
def Erases (cap : ℕ) (F : Forest Account BlockHash) (V : Account → ℕ) (t : BlockHash) : Prop :=
  ∀ rs c, F.Nests V t rs c → cap ≤ rs.length+1 → F.source c = none ∨ IsHead F c

section
/-- The blocks the walk comes back to, from the one in work to the oldest that
is remembered. -/
def trail (original : BlockHash) (w : Walk) : List BlockHash :=
  target original w :: w.receiveSourcePairs.map (fun e => e.receiveDetails.topLevel)

theorem linked_sorted (h : Linked t es) (hw : ∀ e ∈ es, Waiting F V e) :
    (t :: es.map (fun e => e.receiveDetails.topLevel)).Pairwise
      (fun y z => F.rank y < F.rank z) := by
  induction es generalizing t with
  | nil => simp
  | cons e es ih =>
    have htail := ih h.2 (fun g hg => hw g (mem_cons_of_mem _ hg))
    have hwe := hw e mem_cons_self
    have h1 := hwe.rank_source
    have h2 := hwe.rank_top
    rw [h.1] at h1
    rw [map_cons]
    refine pairwise_cons.mpr ⟨fun y hy => ?_,htail⟩
    rcases mem_cons.mp hy with rfl | hy
    · omega
    · have := (pairwise_cons.mp htail).1 y hy
      omega

theorem trail_sorted (h : Standing F L₀ Vs original w V) :
    (trail original w).Pairwise (fun y z => F.rank y < F.rank z) :=
  linked_sorted h.linked h.waiting

def Above (F : Forest Account BlockHash) (ts : List BlockHash) (c : BlockHash) : Prop :=
  c ∈ ts ∨ ∀ y ∈ ts, F.rank y < F.rank c

variable {ts : List BlockHash}

theorem Above.rank_le (h : Above F (t :: ts) c)
    (hs : (t :: ts).Pairwise (fun y z => F.rank y < F.rank z)) : c = t ∨ F.rank t < F.rank c := by
  rcases h with hc | hc
  · rcases mem_cons.mp hc with rfl | hc
    · exact .inl rfl
    · exact .inr ((pairwise_cons.mp hs).1 c hc)
  · exact .inr (hc t mem_cons_self)

theorem Above.tail (h : Above F (t :: ts) c) (hne : c ≠ t) : Above F ts c := by
  rcases h with hc | hc
  · exact .inl ((mem_cons.mp hc).resolve_left hne)
  · exact .inr (fun y hy => hc y (mem_cons_of_mem _ hy))

theorem Above.push {s : BlockHash} (n : ℕ) (h : Above F (t :: ts) c)
    (hs : (t :: ts).Pairwise (fun y z => F.rank y < F.rank z)) (hlow : F.rank s < F.rank t) :
    Above F (s :: t :: ts.take n) c := by
  obtain ⟨hhead,htail⟩ := pairwise_cons.mp hs
  have hbelow : ∀ {d : BlockHash}, F.rank t < F.rank d → (∀ y ∈ ts.take n, F.rank y < F.rank d) →
      ∀ y ∈ s :: t :: ts.take n, F.rank y < F.rank d := by
    intro d hd hall y hy
    rcases mem_cons.mp hy with rfl | hy
    · omega
    · rcases mem_cons.mp hy with rfl | hy
      · exact hd
      · exact hall y hy
  rcases h with hmem | hall
  · rcases mem_cons.mp hmem with rfl | hmem
    · exact .inl (mem_cons_of_mem _ mem_cons_self)
    · rw [← take_append_drop n ts] at htail
      have hc := hhead c hmem
      rw [← take_append_drop n ts] at hmem
      rcases mem_append.mp hmem with hmem | hmem
      · exact .inl (mem_cons_of_mem _ (mem_cons_of_mem _ hmem))
      · exact .inr (hbelow hc (fun y hy => (pairwise_append.mp htail).2.2 y hy c hmem))
  · exact .inr (hbelow (hall _ mem_cons_self)
      (fun y hy => hall y (mem_cons_of_mem _ (mem_of_mem_take hy))))

structure Marked (F : Forest Account BlockHash) (V : Account → ℕ) (original : BlockHash)
    (w : Walk) : Prop where
  uncovered : ∀ c ∈ w.checkpoints, ¬ F.Covered V c
  ordered : w.checkpoints.Pairwise (fun c d => d = c ∨ F.rank c < F.rank d)
  above : ∀ c ∈ w.checkpoints, Above F (trail original w) c

theorem Marked.keep (hk : Marked F V original w) (hsub : w'.checkpoints.Sublist w.checkpoints)
    (hun : ∀ c ∈ w'.checkpoints, ¬ F.Covered V' c)
    (hab : ∀ c ∈ w'.checkpoints, Above F (trail original w') c) : Marked F V' original w' :=
  ⟨hun,hk.ordered.sublist hsub,hab⟩

theorem above_last (hn : w.nextInReceiveChain = none) (hp : w.receiveSourcePairs = [])
    (ho : w.checkpoints.Pairwise (fun c d => d = c ∨ F.rank c < F.rank d))
    (hc : c ∈ w.checkpoints) : Above F (trail original w) c := by
  unfold trail target getNextBlock
  rw [hn,hp]
  cases hcs : w.checkpoints with
  | nil =>
    rw [hcs] at hc
    cases hc
  | cons d ds =>
    rw [hcs] at hc ho
    rcases mem_cons.mp hc with rfl | hc
    · exact .inl mem_cons_self
    · rcases (pairwise_cons.mp ho).1 c hc with rfl | hlt
      · exact .inl mem_cons_self
      · refine .inr (fun y hy => ?_)
        rw [mem_singleton.mp hy]
        exact hlt

theorem above_back (hn : w.nextInReceiveChain = none) (hl : Linked t w.receiveSourcePairs)
    (ho : w.checkpoints.Pairwise (fun c d => d = c ∨ F.rank c < F.rank d)) (hc : c ∈ w.checkpoints)
    (ha : Above F (t :: w.receiveSourcePairs.map (fun e => e.receiveDetails.topLevel)) c) :
    Above F (trail original w) c := by
  cases hp : w.receiveSourcePairs with
  | nil => exact above_last hn hp ho hc
  | cons e es =>
    have ht : target original w = t := by
      rw [target_back hn hp]
      rw [hp] at hl
      exact hl.1
    unfold trail
    rw [ht]
    exact ha

theorem uncovered_raise (hr : F.Raise V x V') (hu : ¬ F.Covered V c) (hne : c ≠ x)
    (hx : F.rank x ≤ F.rank c) : ¬ F.Covered V' c := by
  intro hc
  rcases hr.covered_iff.mp hc with hc | ⟨hm,ha,-,hh⟩
  · exact hu hc
  · rcases lt_or_eq_of_le hh with hlt | heq
    · have := F.rank_chain hm hr.mem ha hlt
      omega
    · exact hne (F.unique hm hr.mem ha heq)

end

theorem full_of_mod (hcap : 2 ≤ cap)
    (hp : w'.receiveSourcePairs = pushBack cap e w.receiveSourcePairs)
    (hlen : w'.receiveSourcePairs.length % cap = 0) : cap ≤ w'.receiveSourcePairs.length := by
  apply le_of_dvd _ (dvd_of_mod_eq_zero hlen)
  rw [hp,pushBack_eq hcap]
  exact succ_pos _

section
variable (F V₀ original)

/-- At least `n` receives wait for the block, and all below them is confirmed. -/
def Deep (V : Account → ℕ) (n : ℕ) (t : BlockHash) : Prop :=
  ∃ rs, F.Nests V₀ original rs t ∧ (∀ q ∈ rs, F.Cleared V q) ∧ n ≤ rs.length

def Tops (V : Account → ℕ) : List ReceiveSourcePair → Prop
  | [] => True
  | e :: es => Deep F V₀ original V es.length e.receiveDetails.topLevel ∧ Tops V es

/-- The blocks that the walk remembers are as deep as the buffer is full. -/
structure Sunk (cap : ℕ) (V : Account → ℕ) (w : Walk) : Prop where
  current : F.Covered V (target original w) ∨
    Deep F V₀ original V w.receiveSourcePairs.length (target original w)
  tops : Tops F V₀ original V w.receiveSourcePairs
  checkpoints : ∀ c ∈ w.checkpoints, Deep F V₀ original V (cap-1) c

end

theorem Deep.mono {n m : ℕ} (h : Deep F V₀ original V n t) (hle : ∀ a, V a ≤ V' a) (hm : m ≤ n) :
    Deep F V₀ original V' m t := by
  obtain ⟨rs,hn,hc,hl⟩ := h
  exact ⟨rs,hn,fun q hq => (hc q hq).mono hle,hm.trans hl⟩

theorem Tops.mono (h : Tops F V₀ original V es) (hle : ∀ a, V a ≤ V' a) :
    Tops F V₀ original V' es := by
  induction es with
  | nil => trivial
  | cons e es ih => exact ⟨h.1.mono hle le_rfl,ih h.2⟩

theorem Tops.take (h : Tops F V₀ original V es) (n : ℕ) : Tops F V₀ original V (es.take n) := by
  induction es generalizing n with
  | nil =>
    rw [take_nil]
    trivial
  | cons e es ih =>
    cases n with
    | zero => trivial
    | succ n => exact ⟨h.1.mono (fun _ => le_rfl) (by rw [length_take]; omega),ih h.2 n⟩

theorem cleared_waiting (h : Waiting F V e) : F.Cleared V e.receiveDetails.hash := by
  intro c hc ha hlt hs
  rw [h.account] at ha
  refine ⟨hc,?_⟩
  by_contra hgt
  rw [ha] at hgt
  exact hs (h.plain c hc ha (by omega) (by rw [← h.height]; exact hlt))

/-- A receive that is stored below a block makes its source one deeper. -/
theorem Deep.stored {n : ℕ} {bs : List BlockHash} (hg : F.Raises V₀ bs V)
    (h : Deep F V₀ original V n t) (hwe : Waiting F V e) (htop : e.receiveDetails.topLevel = t) :
    F.Covered V e.sourceHash ∨ Deep F V₀ original V (n+1) e.sourceHash := by
  by_cases hc : F.Covered V e.sourceHash
  · exact .inl hc
  obtain ⟨rs,hn,hclear,hl⟩ := h
  have hall : ∀ q ∈ e.receiveDetails.hash :: rs, F.Cleared V q := by
    intro q hq
    rcases mem_cons.mp hq with rfl | hq
    · exact cleared_waiting hwe
    · exact hclear q hq
  have hnest : F.Nests V₀ original (e.receiveDetails.hash :: rs) e.sourceHash := by
    refine hn.deeper hg hall hwe.mem ?_ ?_ hwe.uncovered hwe.source hc
    · rw [← htop,hwe.account,hwe.owner]
    · rw [← htop,hwe.height]
      exact hwe.below
  exact .inr ⟨_,hnest,hall,by rw [length_cons]; omega⟩

section
variable (hm : F.mem original) {bs : List BlockHash} (hg : F.Raises V₀ bs V')
include hm hg

theorem deep_original : F.Covered V' original ∨ Deep F V₀ original V' 0 original := by
  by_cases hc : F.Covered V' original
  · exact .inl hc
  · exact .inr ⟨[],.start hm (fun h => hc (h.mono hg.le)),by simp,le_rfl⟩

theorem deep_target (hn : w'.nextInReceiveChain = none)
    (hback : ∀ e es, w'.receiveSourcePairs = e :: es → F.Covered V' e.sourceHash ∨
      Deep F V₀ original V' (es.length+1) e.sourceHash)
    (hcs : ∀ c ∈ w'.checkpoints, Deep F V₀ original V' (cap-1) c) :
    F.Covered V' (target original w') ∨
      Deep F V₀ original V' w'.receiveSourcePairs.length (target original w') := by
  cases hp : w'.receiveSourcePairs with
  | cons e es =>
    rw [target_back hn hp]
    exact hback e es hp
  | nil =>
    unfold target getNextBlock
    rw [hn,hp]
    cases hc : w'.checkpoints with
    | nil => exact deep_original hm hg
    | cons c cs =>
      exact .inr ((hcs c (by rw [hc]; exact mem_cons_self)).mono (fun _ => le_rfl)
        (zero_le _))

end

theorem Sunk.start (hm : F.mem original) {bs : List BlockHash} (hg : F.Raises V₀ bs V) :
    Sunk F V₀ original cap V (begin p) :=
  ⟨deep_original hm hg,trivial,fun c hc => by cases hc⟩

theorem Sunk.erased (h : Sunk F V₀ original cap V w) (hgood : Erases cap F V₀ original) :
    ∀ c ∈ w.checkpoints, F.source c = none ∨ IsHead F c := by
  intro c hc
  obtain ⟨rs,hn,-,hl⟩ := h.checkpoints c hc
  exact hgood rs c hn (by omega)

section
variable (hm : F.mem original) {bs : List BlockHash} (hg : F.Raises V₀ bs V')
  (hsunk : Sunk F V₀ original cap V w)
include hm hg hsunk

theorem Sunk.keep (h : Standing F L₀ Vs original w V) (hle : ∀ a, V a ≤ V' a)
    (hc : F.Covered V' (target original w))
    (hn : w'.nextInReceiveChain = none)
    (hp : w'.receiveSourcePairs = w.receiveSourcePairs)
    (hcs : ∀ c ∈ w'.checkpoints, c ∈ w.checkpoints) : Sunk F V₀ original cap V' w' := by
  have hcheck : ∀ c ∈ w'.checkpoints, Deep F V₀ original V' (cap-1) c :=
    fun c hc => (hsunk.checkpoints c (hcs c hc)).mono hle le_rfl
  refine ⟨deep_target hm hg hn (fun e es he => .inl ?_) hcheck,?_,hcheck⟩
  · have hl := h.linked
    rw [← hp,he] at hl
    rw [hl.1]
    exact hc
  · rw [hp]
    exact hsunk.tops.mono hle

theorem Sunk.received (h : Standing F L₀ Vs original w V) (R : Received F V V₁ V' w w' e cs) :
    Sunk F V₀ original cap V' w' := by
  obtain ⟨⟨hnw,hpw⟩,hsrc,hr,hn,hcs⟩ := R
  have hle : ∀ a, V a ≤ V' a := by
    intro a
    rcases hsrc with ⟨-,rfl,-⟩ | ⟨hr₁,-⟩
    · exact hr.le a
    · exact (hr₁.le a).trans (hr.le a)
  have hsub : ∀ c ∈ w'.checkpoints, c ∈ w.checkpoints := by
    have hold : ∀ c ∈ cs, c ∈ w.checkpoints := by
      rcases hsrc with ⟨-,-,rfl⟩ | ⟨-,rfl⟩
      · exact fun c hc => hc
      · exact fun c hc => (mem_eraseCheckpoint.mp hc).1
    intro c hc
    rw [hcs] at hc
    split at hc
    · exact hold c hc
    · exact hold c (mem_eraseCheckpoint.mp hc).1
  have hcheck : ∀ c ∈ w'.checkpoints, Deep F V₀ original V' (cap-1) c :=
    fun c hc => (hsunk.checkpoints c (hsub c hc)).mono hle le_rfl
  have htops := hsunk.tops
  have hlinked := h.linked
  rw [hpw] at htops hlinked
  have htop := htops.1.mono hle le_rfl
  refine ⟨?_,htops.2.mono hle,hcheck⟩
  split at hn
  · have ht : target original w' = e.receiveDetails.topLevel := by
      unfold target getNextBlock
      rw [hn]
    rw [ht]
    exact .inr htop
  · refine deep_target hm hg hn (fun e' es he => ?_) hcheck
    have hl := hlinked.2
    rw [he] at hl htop
    rw [hl.1]
    exact .inr htop

theorem Sunk.partly (hr : F.Raise V x V') (hsame : F.account x = F.account (target original w))
    (hlow : F.height x < F.height (target original w)) (hwe : Waiting F V' e)
    (htop : e.receiveDetails.topLevel = target original w)
    (hn : w'.nextInReceiveChain = none)
    (hp : w'.receiveSourcePairs = if w.nextInReceiveChain.isNone then [] else [e])
    (hcs : w'.checkpoints = eraseCheckpoint w.checkpoints x) : Sunk F V₀ original cap V' w' := by
  have hcheck : ∀ c ∈ w'.checkpoints, Deep F V₀ original V' (cap-1) c := by
    intro c hc
    rw [hcs] at hc
    exact (hsunk.checkpoints c (mem_eraseCheckpoint.mp hc).1).mono hr.le le_rfl
  have huncovered : ¬ F.Covered V (target original w) := by
    intro hc
    have h1 := hc.2
    have h2 := hr.above
    rw [hsame] at h2
    omega
  have hdeep : Deep F V₀ original V' 0 (target original w) :=
    (hsunk.current.resolve_left huncovered).mono hr.le (zero_le _)
  have hmem : ∀ e' es, w'.receiveSourcePairs = e' :: es → e' = e ∧ es = [] := by
    intro e' es he
    rw [hp] at he
    split at he
    · cases he
    · cases he
      exact ⟨rfl,rfl⟩
  refine ⟨deep_target hm hg hn (fun e' es he => ?_) hcheck,?_,hcheck⟩
  · obtain ⟨rfl,rfl⟩ := hmem e' es he
    exact hdeep.stored hg hwe htop
  · rw [hp]
    split
    · trivial
    · exact ⟨htop ▸ hdeep,trivial⟩

theorem Move.sunk (h : Standing F L₀ Vs original w V) (hcap : 2 ≤ cap)
    (hmove : Move cap F original V w V' w') : Sunk F V₀ original cap V' w' := by
  cases hmove with
  | settled hc hun hV hn hp hcs =>
    subst hV
    exact hsunk.keep hm hg h (fun _ => le_rfl) hc hn hp (fun c hc => hcs ▸ hc)
  | reached hr hun hn hp hcs =>
    refine hsunk.keep hm hg h hr.le hr.covered hn hp (fun c hc => ?_)
    rw [hcs] at hc
    exact (mem_eraseCheckpoint.mp hc).1
  | received e V₁ cs hback hsrc hr hn hcs =>
    exact hsunk.received hm hg h ⟨hback,hsrc,hr,hn,hcs⟩
  | stored e hwe htop hV hn hp hcs =>
    subst hV
    have hdeep := hsunk.current.resolve_left (htop ▸ hwe.uncovered_top)
    have hpairs := hp.trans (pushBack_eq hcap _ _)
    have hcheck : ∀ c ∈ w'.checkpoints, Deep F V₀ original V' (cap-1) c := by
      intro c hc
      rw [hcs] at hc
      split at hc
      · rcases mem_pushBack hc with rfl | hc
        · have hfull := full_of_mod hcap hp ‹_›
          rw [hpairs,length_cons,length_take] at hfull
          exact hdeep.mono (fun _ => le_rfl) (by omega)
        · exact hsunk.checkpoints c hc
      · exact hsunk.checkpoints c hc
    refine ⟨deep_target hm hg hn (fun e' es he => ?_) hcheck,?_,hcheck⟩
    · cases hpairs.symm.trans he
      rcases hdeep.stored hg hwe htop with hc | hd
      · exact .inl hc
      · exact .inr (hd.mono (fun _ => le_rfl) (by rw [length_take]; omega))
    · rw [hpairs]
      exact ⟨htop ▸ hdeep.mono (fun _ => le_rfl) (by rw [length_take]; omega),
        hsunk.tops.take _⟩
  | partly x e hr hsame hlow hwe htop hempty hn hp hcs =>
    exact hsunk.partly hm hg hr hsame hlow hwe htop hn hp hcs

end

theorem marked_source (h : Standing F L₀ Vs original w V) (hk : Marked F V original w)
    (hsrc : (F.Covered V (target original w) ∧ V₁ = V ∧ cs = w.checkpoints) ∨
      (F.Raise V (target original w) V₁ ∧ cs = eraseCheckpoint w.checkpoints (target original w))) :
    cs.Sublist w.checkpoints ∧ ∀ c ∈ cs, ¬ F.Covered V₁ c ∧ c ≠ target original w := by
  rcases hsrc with ⟨hcov,rfl,rfl⟩ | ⟨hr,rfl⟩
  · refine ⟨.refl _,fun c hc => ⟨hk.uncovered c hc,?_⟩⟩
    rintro rfl
    exact hk.uncovered _ hc hcov
  · refine ⟨filter_sublist,fun c hc => ?_⟩
    obtain ⟨hc,hne⟩ := mem_eraseCheckpoint.mp hc
    have hlt := ((hk.above c hc).rank_le (trail_sorted h)).resolve_left hne
    exact ⟨uncovered_raise hr (hk.uncovered c hc) hne hlt.le,hne⟩

section
variable (hk : Marked F V original w) (h : Standing F L₀ Vs original w V)
include hk h

theorem Marked.settled (hn : w'.nextInReceiveChain = none)
    (hp : w'.receiveSourcePairs = w.receiveSourcePairs) (hcs : w'.checkpoints = w.checkpoints) :
    Marked F V original w' := by
  apply hk.keep (by rw [hcs]) (hcs ▸ hk.uncovered)
  intro c hc
  apply above_back hn (hp ▸ h.linked) (hcs ▸ hk.ordered) hc
  rw [hp]
  exact hk.above c (hcs ▸ hc)

theorem Marked.reached (hr : F.Raise V (target original w) V') (hn : w'.nextInReceiveChain = none)
    (hp : w'.receiveSourcePairs = w.receiveSourcePairs)
    (hcs : w'.checkpoints = eraseCheckpoint w.checkpoints (target original w)) :
    Marked F V' original w' := by
  obtain ⟨hsub,hun⟩ := marked_source h hk (.inr ⟨hr,hcs⟩)
  apply hk.keep hsub (fun c hc => (hun c hc).1)
  intro c hc
  apply above_back hn (hp ▸ h.linked) (hk.ordered.sublist hsub) hc
  rw [hp]
  exact hk.above c (hsub.subset hc)

theorem Marked.received (R : Received F V V₁ V' w w' e cs)
    (herased : ∀ c ∈ w.checkpoints, F.source c = none ∨ IsHead F c) :
    Marked F V' original w' := by
  obtain ⟨⟨hnw,hpw⟩,hsrc,hr,hn,hcs⟩ := R
  have ht : target original w = e.sourceHash := target_back hnw hpw
  have hsorted := trail_sorted h
  have hlinked := h.linked
  rw [hpw] at hlinked
  have hwe := h.waiting e (by rw [hpw]; exact mem_cons_self)
  have htrail : trail original w = e.sourceHash :: e.receiveDetails.topLevel ::
      w'.receiveSourcePairs.map (fun e => e.receiveDetails.topLevel) := by
    rw [trail,ht,hpw]
    rfl
  rw [htrail] at hsorted
  obtain ⟨hold,hun⟩ := marked_source h hk (ht.symm ▸ hsrc)
  have habove : ∀ c ∈ cs, Above F (e.receiveDetails.topLevel ::
      w'.receiveSourcePairs.map (fun e => e.receiveDetails.topLevel)) c := by
    intro c hc
    have := hk.above c (hold.subset hc)
    rw [htrail] at this
    exact this.tail (ht ▸ (hun c hc).2)
  have hsub : w'.checkpoints.Sublist cs := by
    rw [hcs]
    split
    · exact .refl _
    · exact filter_sublist
  apply hk.keep (hsub.trans hold)
  · intro c hc
    -- a checkpoint that is the receive is the head of its chain, and was erased
    have hne : c ≠ e.receiveDetails.hash := by
      rintro rfl
      rcases herased _ (hold.subset (hsub.subset hc)) with hplain | hhead
      · rw [hwe.source] at hplain
        cases hplain
      · cases hnext : e.receiveDetails.next with
        | none =>
          rw [hcs,hnext,isSome_none,if_neg (by decide)] at hc
          exact (mem_eraseCheckpoint.mp hc).2 rfl
        | some y =>
          obtain ⟨y1,y2,y3⟩ := Forest.blockAt_eq.mp (hwe.next y hnext)
          have := hhead y y1 (y2.trans hwe.account.symm)
          rw [hwe.height] at this
          omega
    have hc := hsub.subset hc
    apply uncovered_raise hr (hun c hc).1 hne
    have h1 := hwe.rank_top
    rcases (habove c hc).rank_le (pairwise_cons.mp hsorted).2 with rfl | h2
    · exact h1
    · omega
  · intro c hc
    split at hn
    · have htop : target original w' = e.receiveDetails.topLevel := by
        unfold target getNextBlock
        rw [hn]
      rw [trail,htop]
      exact habove c (hsub.subset hc)
    · exact above_back hn hlinked.2 (hk.ordered.sublist (hsub.trans hold)) hc
        (habove c (hsub.subset hc))

end

theorem Marked.stored (hcap : 2 ≤ cap) (hk : Marked F V original w)
    (h : Standing F L₀ Vs original w V) (hwe : Waiting F V e)
    (htop : e.receiveDetails.topLevel = target original w) (hn : w'.nextInReceiveChain = none)
    (hp : w'.receiveSourcePairs = pushBack cap e w.receiveSourcePairs)
    (hcs : w'.checkpoints = if w'.receiveSourcePairs.length % cap = 0
      then pushBack cap (target original w) w.checkpoints else w.checkpoints) :
    Marked F V original w' := by
  have hsorted := trail_sorted h
  have ht : target original w' = e.sourceHash := target_back hn (hp.trans (pushBack_eq hcap _ _))
  have hlow : F.rank e.sourceHash < F.rank (target original w) := by
    have h1 := hwe.rank_source
    have h2 := hwe.rank_top
    rw [htop] at h2
    omega
  have htrail : trail original w' = e.sourceHash :: target original w ::
      (w.receiveSourcePairs.map (fun e => e.receiveDetails.topLevel)).take (cap-1) := by
    rw [trail,ht,hp,pushBack_eq hcap,map_cons,htop,map_take]
  have hkeep : ∀ c ∈ w.checkpoints, Above F (trail original w') c := by
    intro c hc
    rw [htrail]
    exact (hk.above c hc).push _ hsorted hlow
  by_cases hlen : w'.receiveSourcePairs.length % cap = 0
  · rw [if_pos hlen] at hcs
    have hmem : ∀ c ∈ w'.checkpoints, c = target original w ∨ c ∈ w.checkpoints := by
      rw [hcs]
      exact fun c hc => mem_pushBack hc
    constructor
    · intro c hc
      rcases hmem c hc with rfl | hc
      · exact htop ▸ hwe.uncovered_top
      · exact hk.uncovered c hc
    · rw [hcs]
      exact (pairwise_cons.mpr ⟨fun c hc => (hk.above c hc).rank_le hsorted,
        hk.ordered⟩).sublist (take_sublist _ _)
    · intro c hc
      rcases hmem c hc with rfl | hc
      · rw [htrail]
        exact Or.inl (mem_cons_of_mem _ mem_cons_self)
      · exact hkeep c hc
  · rw [if_neg hlen] at hcs
    exact hk.keep (by rw [hcs]) (hcs ▸ hk.uncovered) (hcs ▸ hkeep)

theorem Marked.partly (hk : Marked F V original w) (h : Standing F L₀ Vs original w V)
    (hm : F.mem original) (hr : F.Raise V x V')
    (hsame : F.account x = F.account (target original w))
    (hlow : F.height x < F.height (target original w)) (hwe : Waiting F V' e)
    (htop : e.receiveDetails.topLevel = target original w) (hempty : w.receiveSourcePairs = [])
    (hn : w'.nextInReceiveChain = none)
    (hp : w'.receiveSourcePairs = if w.nextInReceiveChain.isNone then [] else [e])
    (hcs : w'.checkpoints = eraseCheckpoint w.checkpoints x) : Marked F V' original w' := by
  have hsub : w'.checkpoints.Sublist w.checkpoints := by
    rw [hcs]
    exact filter_sublist
  have hx : F.rank x < F.rank (target original w) :=
    F.rank_chain hr.mem (h.target_mem hm) hsame hlow
  apply hk.keep hsub
  · intro c hc
    have hc := hsub.subset hc
    have hlt : F.rank x < F.rank c := by
      rcases (hk.above c hc).rank_le (trail_sorted h) with rfl | h1
      · exact hx
      · omega
    exact uncovered_raise hr (hk.uncovered c hc) (fun heq => by rw [heq] at hlt; omega) hlt.le
  · intro c hc
    have hab := hk.above c (hsub.subset hc)
    rw [trail,hempty] at hab
    by_cases hnext : w.nextInReceiveChain.isNone = true
    · rw [if_pos hnext] at hp
      exact above_last hn hp (hk.ordered.sublist hsub) hc
    · rw [if_neg hnext] at hp
      apply above_back hn (by rw [hp]; exact ⟨rfl,trivial⟩)
        (hk.ordered.sublist hsub) hc
      rw [hp,map_cons,htop]
      have h1 := hwe.rank_source
      have h2 := hwe.rank_top
      rw [htop] at h2
      rcases hab with hmem | hall
      · exact .inl (mem_cons_of_mem _ hmem)
      · have h3 := hall _ mem_cons_self
        right
        intro y hy
        rcases mem_cons.mp hy with rfl | hy
        · omega
        · exact hall y hy

theorem Move.marked (hcap : 2 ≤ cap) (hm : F.mem original) (h : Standing F L₀ Vs original w V)
    (herased : ∀ c ∈ w.checkpoints, F.source c = none ∨ IsHead F c) (hk : Marked F V original w)
    (hmove : Move cap F original V w V' w') : Marked F V' original w' := by
  cases hmove with
  | settled hc hun hV hn hp hcs =>
    subst hV
    exact hk.settled h hn hp hcs
  | reached hr hun hn hp hcs => exact hk.reached h hr hn hp hcs
  | received e V₁ cs hback hsrc hr hn hcs => exact hk.received h ⟨hback,hsrc,hr,hn,hcs⟩ herased
  | stored e hwe htop hV hn hp hcs =>
    subst hV
    exact hk.stored hcap h hwe htop hn hp hcs
  | partly x e hr hsame hlow hwe htop hempty hn hp hcs =>
    exact hk.partly h hm hr hsame hlow hwe htop hempty hn hp hcs

section
variable {R : ℕ}

/-- A chain that goes on counts for more than any rank, a block left to confirm
for more than both. -/
noncomputable def measure (F : Forest Account BlockHash) (R : ℕ) (original : BlockHash) (w : Walk)
    (V : Account → ℕ) : ℕ :=
  (F.uncovered V).ncard*(4*R+8)+(if w.nextInReceiveChain.isSome then 2*R+4 else 0)+
    F.rank (target original w)

theorem measure_raise (hfin : {b | F.mem b}.Finite) (hle : ∀ a, V a ≤ V' a)
    (hu : ¬ F.Covered V x) (hc : F.Covered V' x) (hR : F.rank (target original w') < R) :
    measure F R original w' V' < measure F R original w V := by
  have hlt := Forest.uncovered_lt hfin hle hu hc
  have hmul := mul_le_mul_right (4*R+8) (succ_le_of_lt hlt)
  rw [succ_mul] at hmul
  unfold measure
  split <;> split <;> omega

def Awake (F : Forest Account BlockHash) (V : Account → ℕ) (w : Walk) : Prop :=
  w.nextInReceiveChain = none → w.receiveSourcePairs = [] →
    ∀ c cs, w.checkpoints = c :: cs → ¬ F.Covered V c

theorem Marked.awake (hk : Marked F V original w) : Awake F V w := by
  intro _ _ c cs hcs
  exact hk.uncovered c (by rw [hcs]; exact mem_cons_self)

theorem Move.smaller (hcap : 2 ≤ cap) (hfin : {b | F.mem b}.Finite) (hm : F.mem original)
    (hR : ∀ b, F.mem b → F.rank b < R) (h' : Standing F L₀ Vs original w' V') (hk : Awake F V w)
    (hmove : Move cap F original V w V' w')
    (hgo : F.Covered V (target original w) → target original w = original →
      w'.receiveSourcePairs ≠ []) :
    measure F R original w' V' < measure F R original w V := by
  have hR' := hR _ (h'.target_mem hm)
  cases hmove with
  | settled hc hun hV hn hp hcs =>
    subst hV
    cases hnext : w.nextInReceiveChain with
    | some n =>
      unfold measure
      rw [hn,hnext]
      simp only [isSome_none,Bool.false_eq_true,if_false,isSome_some,if_true]
      omega
    | none =>
      -- this was the added block, since no checkpoint is confirmed
      have hempty := hun hnext
      cases hcp : w.checkpoints with
      | cons c cs =>
        have ht : target original w = c := by
          unfold target getNextBlock
          rw [hnext,hempty,hcp]
        exact absurd (ht ▸ hc) (hk hnext hempty c cs hcp)
      | nil =>
        have ht : target original w = original := by
          unfold target getNextBlock
          rw [hnext,hempty,hcp]
        exact absurd (hp.trans hempty) (hgo hc ht)
  | reached hr hun hn hp hcs => exact measure_raise hfin hr.le hr.uncovered hr.covered hR'
  | received e V₁ cs hback hsrc hr hn hcs =>
    have hle : ∀ a, V a ≤ V₁ a := by
      rcases hsrc with ⟨-,rfl,-⟩ | ⟨hr₁,-⟩
      · exact fun a => le_refl _
      · exact hr₁.le
    exact measure_raise hfin (fun a => (hle a).trans (hr.le a))
      (fun hc => hr.uncovered (hc.mono hle)) hr.covered hR'
  | stored e hwe htop hV hn hp hcs =>
    subst hV
    have ht : target original w' = e.sourceHash := target_back hn (hp.trans (pushBack_eq hcap _ _))
    have h1 := hwe.rank_source
    have h2 := hwe.rank_top
    rw [htop] at h2
    unfold measure
    rw [hn,ht]
    simp only [isSome_none,Bool.false_eq_true,if_false]
    split <;> omega
  | partly x e hr hsame hlow hwe htop hempty hn hp hcs =>
    exact measure_raise hfin hr.le hr.uncovered hr.covered hR'

end

variable {R : ℕ} {originalBlock : StoredBlock}

def Stands (F : Forest Account BlockHash) (L₀ : Ledger) (Vs : Account → ℕ)
    (original : BlockHash) : Walk ⊕ Walk → (Account → ℕ) → Prop
  | .inl w, V => Standing F L₀ Vs original w V
  | .inr w, V => Standing F L₀ Vs original w V ∧ F.Covered V original ∧
      w.receiveSourcePairs = [] ∧ w.nextInReceiveChain = none

theorem last_next (h : Standing F L₀ Vs original w V) (hmove : Move cap F original V w V' w')
    (hrank : F.rank original ≤ F.rank (target original w)) : w'.nextInReceiveChain = none := by
  cases hmove with
  | settled hc hun hV hn hp hcs => exact hn
  | reached hr hun hn hp hcs => exact hn
  | stored e hwe htop hV hn hp hcs => exact hn
  | partly x e hr hsame hlow hwe htop hempty hn hp hcs => exact hn
  | received e V₁ cs hback hsrc hr hn hcs =>
    have he : e ∈ w.receiveSourcePairs := by
      rw [hback.2]
      exact mem_cons_self
    have h1 := (h.waiting e he).rank_source
    have h2 := (h.pulled he).rank_le
    rw [target_back hback.1 hback.2] at hrank
    omega

theorem stands_step (hcap : 2 ≤ cap) (B : Backed C F L₀) (hm : F.mem original)
    (hor : L₀.blocks[original]? = some originalBlock) (hfuel : ∀ b, F.mem b → F.height b < fuel)
    (h : Standing F L₀ Vs original w V)
    (hok : (Fits w.processor ∧ F.Brief (2^31) Vs original) ∨
      round cap C env fuel original originalBlock w ≠ none) :
    ∃ o V', round cap C env fuel original originalBlock w = some o ∧
      Stands F L₀ Vs original o V' ∧
      (Fits w.processor → F.Brief (2^31) Vs original → Fits (o.elim id id).processor) ∧
      Move cap F original V w V' (o.elim id id) ∧
      (∀ w', o = .inl w' → F.Covered V (target original w) → target original w = original →
        w'.receiveSourcePairs ≠ []) := by
  obtain ⟨w',V',hT,hfits,hf,hmove,⟨hs,hgo⟩ | ⟨hs,hc,hp,-,hrank⟩⟩ :=
    round_spec env hcap B h hm hor hfuel hok
  · refine ⟨_,V',hs,hmove.standing hcap h hm hT hf,hfits,hmove,?_⟩
    rintro _ ⟨⟩
    exact hgo
  · exact ⟨_,V',hs,⟨hmove.standing hcap h hm hT hf,hc,hp,last_next h hmove hrank⟩,hfits,hmove,
      nofun⟩

/-- What holds of the walk while no checkpoint can be left behind. -/
structure Walking (cap : ℕ) (F : Forest Account BlockHash) (L₀ : Ledger) (V₀ Vs : Account → ℕ)
    (original : BlockHash) (w : Walk) (V : Account → ℕ) : Prop where
  standing : Standing F L₀ Vs original w V
  fits : Fits w.processor
  marked : Marked F V original w
  sunk : Sunk F V₀ original cap V w

theorem raises_standing {bs : List BlockHash} (hg : F.Raises V₀ bs Vs)
    (h : Standing F L₀ Vs original w V) : ∃ cs, F.Raises V₀ cs V := by
  obtain ⟨cs,hr,-⟩ := h.raised
  exact ⟨bs ++ cs,hg.append hr⟩

section
variable (hcap : 2 ≤ cap) (B : Backed C F L₀) (hfin : {b | F.mem b}.Finite) (hm : F.mem original)
  (hgood : Erases cap F V₀ original) (hbrief : F.Brief (2^31) Vs original) {bs : List BlockHash}
  (hg : F.Raises V₀ bs Vs)
include hcap B hm hgood hbrief hg

variable (env) in
theorem Walking.step (hor : L₀.blocks[original]? = some originalBlock)
    (hfuel : ∀ b, F.mem b → F.height b < fuel) (h : Walking cap F L₀ V₀ Vs original w V) :
    ∃ o V', round cap C env fuel original originalBlock w = some o ∧
      Stands F L₀ Vs original o V' ∧ Walking cap F L₀ V₀ Vs original (o.elim id id) V' ∧
      Move cap F original V w V' (o.elim id id) ∧
      (∀ w', o = .inl w' → F.Covered V (target original w) → target original w = original →
        w'.receiveSourcePairs ≠ []) := by
  obtain ⟨o,V',hs,hst,hfits,hmove,hgo⟩ := stands_step hcap B hm hor hfuel h.standing
    (.inl ⟨h.fits,hbrief⟩)
  have hstand : Standing F L₀ Vs original (o.elim id id) V' := by
    cases o with
    | inl w' => exact hst
    | inr w' => exact hst.1
  obtain ⟨cs,hr⟩ := raises_standing hg hstand
  refine ⟨o,V',hs,hst,⟨hstand,hfits h.fits hbrief,?_,?_⟩,hmove,hgo⟩
  · exact Move.marked hcap hm h.standing (h.sunk.erased hgood) h.marked hmove
  · exact Move.sunk hm hr h.sunk h.standing hcap hmove

include hfin

/-- The loop ends, with the added block confirmed, if no checkpoint can be left behind. -/
theorem walk_returns (hR : ∀ b, F.mem b → F.rank b < R) (hheight : ∀ b, F.mem b → F.height b < fuel)
    (hfuel : (F.uncovered Vs).ncard*(4*R+8)+R ≤ fuel) (T : Tracked F L₀ p Vs) (hfits : Fits p) :
    ∃ w V', walk C env fuel cap p original = some w ∧ Stands F L₀ Vs original (.inr w) V' ∧
      Walking cap F L₀ V₀ Vs original w V' := by
  obtain ⟨r,hor,-⟩ := B.get _ hm
  have hbegin : Fits (begin p).processor := by
    unfold begin
    dsimp only
    split <;> exact hfits
  have hstart : Walking cap F L₀ V₀ Vs original (begin p) Vs := by
    refine ⟨Standing.start T,hbegin,⟨?_,Pairwise.nil,?_⟩,Sunk.start hm hg⟩ <;>
      exact fun c hc => (nomatch hc)
  unfold walk
  rw [T.sound.written.blocks,hor,bind_some]
  obtain ⟨w,hw,V',hV'⟩ := Loop.loop_total
    (fun k w => ∃ V', Walking cap F L₀ V₀ Vs original w V' ∧ k = measure F R original w V')
    (fun w => ∃ V', Stands F L₀ Vs original (.inr w) V' ∧ Walking cap F L₀ V₀ Vs original w V')
    (fun k w ⟨V₁,h,hmeasure⟩ => by
      obtain ⟨o,V',hs,hst,h',hmove,hgo⟩ := h.step env hcap B hm hgood hbrief hg hor hheight
      cases o with
      | inl w' =>
        refine Or.inl ⟨w',_,hs,⟨V',h',rfl⟩,?_⟩
        rw [hmeasure]
        exact Move.smaller hcap hfin hm hR h'.standing h.marked.awake hmove (hgo w' rfl)
      | inr w' => exact Or.inr ⟨w',hs,V',hst,h'⟩)
    fuel _ _ ⟨Vs,hstart,rfl⟩ (by
      have := hR original hm
      change (F.uncovered Vs).ncard*(4*R+8)+0+F.rank original < fuel
      omega)
  exact ⟨w,V',hw,hV'⟩

end

/-- A walk that ends like this leaves no checkpoint behind. -/
theorem Walking.checkpoints (h : Walking cap F L₀ V₀ Vs original w V) (hc : F.Covered V original) :
    w.checkpoints = [] := by
  apply eq_nil_iff_forall_not_mem.mpr
  intro c hcs
  have habs : F.Absorb Vs original V := ⟨h.standing.raised,hc⟩
  exact h.marked.uncovered c hcs (habs.covered_iff.mpr (.inr (h.standing.checkpoints c hcs)))

variable (env) in
/-- The bounded processor returns, with exactly what the added block pulls in
confirmed, when no checkpoint can be left behind and no write is too long. -/
theorem process_returns (B : Backed C F L₀) (hfin : {b | F.mem b}.Finite) (hm : F.mem original)
    (hR : ∀ b, F.mem b → F.rank b < R) (hheight : ∀ b, F.mem b → F.height b < fuel)
    (hfuel : (F.uncovered Vs).ncard*(4*R+8)+R ≤ fuel) (T : Tracked F L₀ p Vs) (hfits : Fits p)
    (hgood : Erases maxItems F V₀ original) (hbrief : F.Brief (2^31) Vs original)
    {bs : List BlockHash} (hg : F.Raises V₀ bs Vs) :
    ∃ q V', process C env fuel p original = some q ∧ Tracked F L₀ q V' ∧ Fits q ∧
      F.Absorb Vs original V' := by
  obtain ⟨w,V',hw,⟨h,hc,-⟩,hwalk⟩ := walk_returns two_le B hfin hm hgood hbrief hg hR hheight hfuel
    T hfits
  refine ⟨w.processor,V',?_,h.tracked,hwalk.fits,h.raised,hc⟩
  rw [process_eq,hw,map_some]

end Vxldollar.BoundedReturns
