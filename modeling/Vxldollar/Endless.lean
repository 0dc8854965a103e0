import Vxldollar.BoundedReturns

/-!
# A walk that never ends

A checkpoint that is itself taken for a receive is not erased when it is confirmed,
unless it is the head of its chain. The walk then comes back to it for ever. The
blocks below are laid out so that the buffer of receives is full just when such a
block is its top level.
-/

namespace Vxldollar.Endless
open Blocks Store Cementing Sources Bounded BoundedWrites BoundedWalk BoundedSpec BoundedReturns
  List Option Function Nat

variable {C : Constants} {F : Forest Account BlockHash} {L L₀ : Ledger} {V V' Vs : Account → ℕ}
  {original b : BlockHash} {w w' : Walk} {e : ReceiveSourcePair} {fuel : ℕ}
  {originalBlock : StoredBlock}

section
theorem iterate_hit {a : Account} {t x : BlockHash} {k : ℕ} {s s' : Iteration}
    (h : iterate maxItems C L a t k x fuel s = some (true,s')) :
    ∃ r source s₁, L.blocks[s₁.hash]? = some r ∧
      s' = hitReceive maxItems a t k x r source s₁ := by
  refine Loop.loop_partial (fun _ => True) (fun o => o.1 = true → ∃ r source s₁,
    L.blocks[s₁.hash]? = some r ∧ o.2 = hitReceive maxItems a t k x r source s₁)
    (fun _ _ _ _ => trivial) (fun s₁ o _ ho hit => ?_) fuel s (true,s') trivial h rfl
  unfold iterateStep at ho
  by_cases h0 : s₁.hash = 0
  · rw [if_pos h0] at ho
    cases ho
    cases hit
  · rw [if_neg h0] at ho
    obtain ⟨r,hr,ho⟩ := map_eq_some_iff.mp ho
    cases hs : receiveSource C L r.block with
    | some source =>
      rw [hs] at ho
      cases ho
      exact ⟨r,source,s₁,hr,rfl⟩
    | none =>
      rw [hs] at ho
      dsimp only at ho
      split_ifs at ho
      cases ho
      cases hit

def nextOf (r : StoredBlock) (top : BlockHash) : Option BlockHash :=
  if r.sideband.successor ≠ 0 ∧ r.sideband.successor ≠ top then some r.sideband.successor
  else none

theorem advance_stores (env : Environment) (original : BlockHash) (w : Walk) {v : Visit}
    {s : Iteration} (h : s.receiveSourcePairs.length = 1 → s.topMostNonReceive = v.current) :
    advance env original w v true s = some (stay v s) := by
  rw [advance,if_neg]
  rintro (hf | ⟨hone,hne⟩)
  · cases hf
  · exact hne (h hone)

theorem linked_nodup {t : BlockHash} {es : List ReceiveSourcePair} (h : Linked t es)
    (hw : ∀ e ∈ es, Waiting F V e) : (es.map (fun e => e.receiveDetails.hash)).Nodup := by
  induction es generalizing t with
  | nil => exact nodup_nil
  | cons e es ih =>
    have htail : ∀ g ∈ es, Waiting F V g := fun g hg => hw g (mem_cons_of_mem _ hg)
    rw [map_cons,nodup_cons]
    refine ⟨fun hmem => ?_,ih h.2 htail⟩
    obtain ⟨g,hg,heq⟩ := mem_map.mp hmem
    have h1 := h.2.rank htail hg
    have h2 := (hw e mem_cons_self).rank_top
    rw [heq] at h1
    omega

variable (env : Environment) (B : Backed C F L₀) (h : Standing F L₀ Vs original w V)
  (hm : F.mem original) (hor : L₀.blocks[original]? = some originalBlock)
  (hfuel : ∀ b, F.mem b → F.height b < fuel)
include B h hm hor hfuel

theorem round_stores (hb : F.mem b) (ha : F.account b = F.account (target original w))
    (hlow : V (F.account b) < F.height b) (hhigh : F.height b ≤ F.height (target original w))
    (hs : F.source b ≠ none) (hwait : w.receiveSourcePairs ≠ [] ∨ F.height b = V (F.account b)+1) :
    ∃ w' e, round maxItems C env fuel original originalBlock w = some (.inl w') ∧
      Standing F L₀ Vs original w' V ∧ w'.nextInReceiveChain = none ∧ Waiting F V e ∧
      e.receiveDetails.topLevel = target original w ∧ e.receiveDetails.height ≤ F.height b ∧
      w'.receiveSourcePairs = pushBack maxItems e w.receiveSourcePairs ∧
      (w'.checkpoints = if w'.receiveSourcePairs.length % maxItems = 0
        then pushBack maxItems (target original w) w.checkpoints else w.checkpoints) ∧
      ∀ r, L₀.blocks[e.receiveDetails.hash]? = some r →
        e.receiveDetails.next = nextOf r (target original w) := by
  have ht := h.target_mem hm
  have hu : ¬ F.Covered V (target original w) := by
    intro hc
    have := hc.2
    rw [← ha] at this
    omega
  obtain ⟨v,hv,hvis⟩ := visit_spec B h hm hor
  obtain ⟨hal,⟨hit,s⟩,hi,hend⟩ := iterateVisit_spec maxItems B ht hvis hu hfuel
  -- the walk up cannot pass the receive
  rcases hend with ⟨-,hplain,-⟩ | ⟨rfl,e,he⟩
  · exact absurd (hplain b hb ha (ha ▸ hlow) hhigh) hs
  dsimp only at he
  have hle : e.receiveDetails.height ≤ F.height b := by
    have howner : F.account b = e.receiveDetails.account := by
      rw [ha,← he.top]
      exact he.waiting.owner
    by_contra hlt
    exact hs (he.waiting.plain b hb howner (howner ▸ hlow) (by omega))
  have hadv := advance_stores env original w (v := v) (by
    intro hone
    rcases hwait with hw | hbot
    · rw [he.pairs,pushBack_eq two_le] at hone
      cases hp : w.receiveSourcePairs with
      | nil => exact absurd hp hw
      | cons g gs =>
        rw [hp] at hone
        simp [maxItems] at hone
    · obtain ⟨-,hcur⟩ := hvis.bottom hu
      have hhighest := he.highest
      rw [← ha] at hhighest hcur
      rw [max_eq_right (by omega),hcur] at hhighest
      exact (some.inj hhighest).symm)
  have hcheck : s.checkpoints = if s.receiveSourcePairs.length % maxItems = 0
      then pushBack maxItems (target original w) w.checkpoints else w.checkpoints := by
    rw [he.checkpoints,he.pairs]
  have hmove : Move maxItems F original V w V (stay v s) :=
    .stored e he.waiting he.top rfl rfl he.pairs hcheck
  refine ⟨_,e,?_,hmove.standing two_le h hm hvis.tracked rfl,rfl,he.waiting,he.top,
    hle,he.pairs,?_,?_⟩
  · unfold Bounded.round
    rw [hv,bind_some,hi,bind_some]
    dsimp only
    rw [hadv,map_some,if_pos]
    exact .inl (congrArg isEmpty he.pairs)
  · exact hcheck
  · intro r hr
    unfold iterateVisit at hi
    dsimp only at hi
    rw [hal,if_neg (by simp),hvis.target] at hi
    obtain ⟨r₁,source,s₁,hr₁,rfl⟩ := iterate_hit hi
    have hhead := he.pairs
    unfold hitReceive at hhead
    dsimp only at hhead
    rw [pushBack_eq two_le,pushBack_eq two_le] at hhead
    obtain ⟨rfl,-⟩ := cons.inj hhead
    dsimp only at hr ⊢
    rw [hvis.tracked.sound.written.blocks] at hr₁
    cases hr₁.symm.trans hr
    rfl

theorem round_confirms {es : List ReceiveSourcePair} (hshort : ∀ b, F.mem b → F.height b < 2^31)
    (hn : w.nextInReceiveChain = none) (hp : w.receiveSourcePairs = e :: es)
    (hplain : ∀ c, F.mem c → F.account c = F.account (target original w) →
      V (F.account c) < F.height c → F.height c ≤ F.height (target original w) → F.source c = none)
    (hne : F.account (target original w) ≠ F.account original) :
    ∃ w' V' V₁ cs, round maxItems C env fuel original originalBlock w = some (.inl w') ∧
      Standing F L₀ Vs original w' V' ∧ w'.receiveSourcePairs = es ∧
      ((F.Covered V e.sourceHash ∧ V₁ = V ∧ cs = w.checkpoints) ∨
        (F.Raise V e.sourceHash V₁ ∧ cs = eraseCheckpoint w.checkpoints e.sourceHash)) ∧
      F.Raise V₁ e.receiveDetails.hash V' ∧
      w'.checkpoints = if e.receiveDetails.next.isSome then cs
        else eraseCheckpoint cs e.receiveDetails.hash := by
  have hempty : w.receiveSourcePairs ≠ [] := by
    rw [hp]
    exact cons_ne_nil _ _
  obtain ⟨w',V',hT,-,hf,hmove,hstep⟩ := round_spec env two_le B h hm hor hfuel
    (.inl ⟨h.tracked.pending.short hshort,Forest.brief_of_heights hshort⟩)
  have hgo : round maxItems C env fuel original originalBlock w = some (.inl w') := by
    rcases hstep with ⟨hs,-⟩ | ⟨-,-,-,hacc,-⟩
    · exact hs
    · exact absurd hacc hne
  have h' := hmove.standing two_le h hm hT hf
  cases hmove with
  | settled _ unused => exact absurd (unused hn) hempty
  | reached _ unused => exact absurd (unused hn) hempty
  | partly _ _ _ _ _ _ _ empty => exact absurd empty hempty
  | stored g hw top =>
    have hsrc := hw.source
    have howner := hw.account.trans hw.owner.symm
    have habove := hw.above
    have hbelow := hw.below
    rw [← hw.account,← hw.height] at habove
    rw [← hw.height,top] at hbelow
    rw [top] at howner
    rw [hplain _ hw.mem howner habove hbelow] at hsrc
    cases hsrc
  | received g V₁ cs back source raise next checkpoints =>
    cases hp.symm.trans back.2
    exact ⟨w',V',V₁,cs,hgo,h',rfl,source,raise,checkpoints⟩

end

section
/-- The blocks of the layout. Genesis funds the first account and then makes a send that
is taken for a receive of genesis, with a block above it. The first account receives,
makes a send that is taken for a receive of that one, and sends on; every other account
takes what was sent to it and sends it on. -/
inductive Label
  | genesis
  | fund
  | toll
  | cap
  | first
  | turn
  | send (i : ℕ)
  | take (i : ℕ)
  deriving DecidableEq

namespace Label

def owner : Label → ℕ
  | genesis | fund | toll | cap => 0
  | first | turn | send 0 => 1
  | send (i+1) | take i => i+2

def height : Label → ℕ
  | genesis | first | take _ => 1
  | fund | turn | send (_+1) => 2
  | toll | send 0 => 3
  | cap => 4

def source : Label → Option Label
  | toll => some genesis
  | first => some fund
  | turn => some toll
  | take i => some (send i)
  | _ => none

def Within (m : ℕ) : Label → Prop
  | send i | take i => i ≤ m
  | _ => True

theorem eq_of_place {x y : Label} (ho : x.owner = y.owner) (hh : x.height = y.height) : x = y := by
  rcases x with _ | _ | _ | _ | _ | _ | (_ | i) | i <;>
    rcases y with _ | _ | _ | _ | _ | _ | (_ | j) | j <;>
    simp_all [owner,height]

theorem height_le (x : Label) : x.height ≤ 4 := by
  rcases x with _ | _ | _ | _ | _ | _ | (_ | i) | i <;> simp [height]

end Label

structure Laid (F : Forest Account BlockHash) (m : ℕ) (key : Label → BlockHash)
    (acct : ℕ → Account) : Prop where
  mem : ∀ b, F.mem b ↔ ∃ x : Label, x.Within m ∧ b = key x
  account : ∀ x : Label, x.Within m → F.account (key x) = acct x.owner
  height : ∀ x : Label, x.Within m → F.height (key x) = x.height
  source : ∀ x : Label, x.Within m → F.source (key x) = x.source.map key
  distinct : ∀ x y : Label, x.Within m → y.Within m → acct x.owner = acct y.owner →
    x.owner = y.owner

variable {m : ℕ} {key : Label → BlockHash} {acct : ℕ → Account} {x y s : Label}

theorem within_source (hx : x.Within m) (hs : x.source = some y) : y.Within m := by
  cases x <;> cases hs <;> exact hx

theorem pushBack_short {α : Type} {z : α} {zs : List α} (h : zs.length < maxItems) :
    pushBack maxItems z zs = z :: zs :=
  take_of_length_le h

theorem target_linked (h : Standing F L₀ Vs original w V) {es : List ReceiveSourcePair}
    (hp : w.receiveSourcePairs = e :: es) : target original w = e.sourceHash := by
  have hl := h.linked
  rw [hp] at hl
  exact hl.1.symm

theorem erase_other {c : BlockHash} (h : c ≠ b) : eraseCheckpoint [c] b = [c] := by
  simp [eraseCheckpoint,h]

variable (l : Laid F m key acct)
include l

section
variable (hx : x.Within m)
include hx

theorem Laid.mem_key : F.mem (key x) :=
  (l.mem _).mpr ⟨x,hx,rfl⟩

theorem Laid.key_inj (hy : y.Within m) (h : key x = key y) : x = y := by
  apply Label.eq_of_place
  · apply l.distinct x y hx hy
    rw [← l.account x hx,← l.account y hy,h]
  · rw [← l.height x hx,← l.height y hy,h]

theorem Laid.covered : F.Covered V (key x) ↔ x.height ≤ V (acct x.owner) := by
  unfold Forest.Covered
  rw [l.account x hx,l.height x hx]
  exact and_iff_right (l.mem_key hx)

theorem Laid.at_place (hb : F.mem b) (ha : F.account b = acct x.owner)
    (hh : F.height b = x.height) :
    b = key x :=
  F.unique hb (l.mem_key hx) (ha.trans (l.account x hx).symm) (hh.trans (l.height x hx).symm)

end

theorem Laid.height_lt (hb : F.mem b) : F.height b < 5 := by
  obtain ⟨x,hx,rfl⟩ := (l.mem b).mp hb
  rw [l.height x hx]
  exact lt_succ_of_le x.height_le

theorem Laid.height_short (b : BlockHash) (hb : F.mem b) : F.height b < 2^31 :=
  (l.height_lt hb).trans (by decide)

theorem Laid.source_some (hb : F.mem b) {s : BlockHash} (hs : F.source b = some s) :
    ∃ x y : Label, x.Within m ∧ b = key x ∧ x.source = some y ∧ s = key y := by
  obtain ⟨x,hx,rfl⟩ := (l.mem b).mp hb
  rw [l.source x hx] at hs
  obtain ⟨y,hy,rfl⟩ := map_eq_some_iff.mp hs
  exact ⟨x,y,hx,rfl,hy,rfl⟩

theorem Laid.mem_take : F.mem (key (.take m)) := l.mem_key (le_refl m)

end

section
variable {m : ℕ} {key : Label → BlockHash} {acct : ℕ → Account} (l : Laid F m key acct)
include l

theorem Laid.alone (hb : F.mem b)
    (ha : F.account b = F.account (key (.take m))) : b = key (.take m) := by
  obtain ⟨x,hx,rfl⟩ := (l.mem b).mp hb
  rw [l.account x hx,l.account (.take m) (le_refl m)] at ha
  have ho := l.distinct x (.take m) hx (le_refl m) ha
  rcases x with _ | _ | _ | _ | _ | _ | (_ | i) | i <;> simp only [Label.owner] at ho
  case send.succ =>
    have hle : i+1 ≤ m := hx
    omega
  case take =>
    obtain rfl : i = m := by omega
    rfl
  all_goals omega

theorem Laid.source_ne (hb : F.mem b) {c : BlockHash}
    (hs : F.source b = some c) : c ≠ key (.take m) := by
  obtain ⟨x,y,hx,rfl,hy,rfl⟩ := l.source_some hb hs
  intro e
  obtain rfl := l.key_inj (within_source hx hy) (y := .take m) (le_refl m) e
  cases x <;> cases hy

theorem Laid.waiting_length (h : Standing F L₀ Vs original w V) (htoll : F.Covered V (key .toll))
    (hfirst : F.Covered V (key .first)) : w.receiveSourcePairs.length ≤ m+2 := by
  have hsub : w.receiveSourcePairs.map (fun e => e.receiveDetails.hash) ⊆
      key .turn :: (range (m+1)).map (fun i => key (.take i)) := by
    intro b hb
    obtain ⟨e,he,rfl⟩ := mem_map.mp hb
    have hw := h.waiting e he
    have hu := hw.uncovered
    obtain ⟨x,y,hx,hkey,hy,-⟩ := l.source_some hw.mem hw.source
    rw [hkey] at hu ⊢
    cases x with
    | toll => exact absurd htoll hu
    | first => exact absurd hfirst hu
    | turn => exact mem_cons_self
    | take i =>
      have hi : i ≤ m := hx
      exact mem_cons_of_mem _ (mem_map.mpr ⟨i,mem_range.mpr (by omega),rfl⟩)
    | _ => cases hy
  have hle := ((linked_nodup h.linked h.waiting).subperm hsub).length_le
  simpa using hle

def Stuck (F : Forest Account BlockHash) (L₀ : Ledger) (Vs : Account → ℕ) (m : ℕ)
    (key : Label → BlockHash) (w : Walk) : Prop :=
  ∃ V, Standing F L₀ Vs (key (.take m)) w V ∧ w.checkpoints = [key .toll] ∧
    F.Covered V (key .toll) ∧ F.Covered V (key .first) ∧
    target (key (.take m)) w ≠ key (.take m)

theorem Laid.target_ne (h : Standing F L₀ Vs (key (.take m)) w V)
    (hcs : w.checkpoints = [key .toll])
    (hnext : ∀ n, w.nextInReceiveChain = some n → n.top ≠ key (.take m)) :
    target (key (.take m)) w ≠ key (.take m) := by
  cases hp : w.receiveSourcePairs with
  | cons e es =>
    have he : e ∈ w.receiveSourcePairs := by
      rw [hp]
      exact mem_cons_self
    rw [target_linked h hp]
    exact l.source_ne (h.waiting e he).mem (h.waiting e he).source
  | nil =>
    unfold target getNextBlock
    rw [hp,hcs]
    cases hn : w.nextInReceiveChain with
    | some n => exact hnext n hn
    | none =>
      intro e
      cases l.key_inj (x := .toll) (y := .take m) trivial (le_refl m) e

theorem Laid.next_ne (hw : Waiting F V e)
    (hn : e.receiveDetails.next.isSome = true) : e.receiveDetails.topLevel ≠ key (.take m) := by
  intro htop
  obtain ⟨c,hc⟩ := isSome_iff_exists.mp hn
  obtain ⟨c1,c2,c3⟩ := Forest.blockAt_eq.mp (hw.next c hc)
  have hpos := F.positive hw.mem
  rw [hw.height] at hpos
  rw [l.alone c1 (by rw [c2,← htop,hw.owner]),l.height (.take m) (le_refl m)] at c3
  simp only [Label.height] at c3
  omega

theorem Laid.apart {x : Label} (hx : x.Within m) (h0 : x.owner = 0) :
    F.account (key x) ≠ F.account (key (.take m)) := by
  intro e
  rw [l.account x hx,l.account (.take m) (le_refl m)] at e
  have ho := l.distinct x (.take m) hx (le_refl m) e
  rw [h0] at ho
  cases ho

end

section
variable {m : ℕ} {key : Label → BlockHash} {acct : ℕ → Account} {i : ℕ} {x y s : Label}
  (l : Laid F m key acct) (env : Environment) (B : Backed C F L₀)
  (hor : L₀.blocks[key (.take m)]? = some originalBlock) (hfuel : 5 ≤ fuel)
  (hmax : m+3 = maxItems)
include l B

theorem Laid.next_toll {r : StoredBlock}
    (hr : L₀.blocks[key .toll]? = some r) : (nextOf r (key .toll)).isSome = true := by
  obtain ⟨-,hread⟩ := B.record hr
  have hcap := l.mem_key (x := .cap) trivial
  have hsame : F.account (key .cap) = F.account (key .toll) := by
    rw [l.account .cap trivial,l.account .toll trivial]
    rfl
  rcases hread.successor with ⟨-,hhead⟩ | ⟨g1,g2,g3⟩
  · have := hhead _ hcap hsame
    rw [l.height .cap trivial,l.height .toll trivial] at this
    exact absurd this (by decide)
  · have h0 : r.sideband.successor ≠ 0 := fun e0 => B.zero (e0 ▸ g1)
    have hne : r.sideband.successor ≠ key .toll := by
      intro e0
      rw [e0] at g3
      omega
    unfold nextOf
    rw [if_pos ⟨h0,hne⟩]
    rfl

include hor hfuel

theorem Laid.stores (h : Standing F L₀ Vs (key (.take m)) w V) (hx : x.Within m) (hy : y.Within m)
    (ht : target (key (.take m)) w = key x) (ho : y.owner = x.owner) (hle : y.height ≤ x.height)
    (hV : y.height = V (acct y.owner)+1) (hs : y.source = some s)
    (hlen : w.receiveSourcePairs.length < maxItems) :
    ∃ w' e, round maxItems C env fuel (key (.take m)) originalBlock w = some (.inl w') ∧
      Standing F L₀ Vs (key (.take m)) w' V ∧ w'.nextInReceiveChain = none ∧
      w'.receiveSourcePairs = e :: w.receiveSourcePairs ∧ e.receiveDetails.hash = key y ∧
      target (key (.take m)) w' = key s ∧
      (w'.checkpoints = if w.receiveSourcePairs.length+1 = maxItems
        then pushBack maxItems (key x) w.checkpoints else w.checkpoints) ∧
      ∀ r, L₀.blocks[key y]? = some r → e.receiveDetails.next = nextOf r (key x) := by
  have hV' : F.height (key y) = V (F.account (key y))+1 := by
    rw [l.height y hy,l.account y hy]
    exact hV
  obtain ⟨w',e,hstep,h',hn,hw,htop,hh,hp,hcs,hnext⟩ := round_stores env B h
    l.mem_take hor (fun b hb => (l.height_lt hb).trans_le hfuel)
    (l.mem_key hy) (by rw [ht,l.account y hy,l.account x hx,ho]) (by omega)
    (by rw [ht,l.height y hy,l.height x hx]; exact hle)
    (by rw [l.source y hy,hs]; exact some_ne_none _) (.inr hV')
  have hp' := hp.trans (pushBack_short hlen)
  -- the receive that was stored is the lowest one
  have hhash : e.receiveDetails.hash = key y := by
    have howner : F.account e.receiveDetails.hash = acct y.owner := by
      rw [hw.account,← hw.owner,htop,ht,l.account x hx,ho]
    have habove := hw.above
    rw [← hw.account,howner] at habove
    rw [l.height y hy] at hh
    apply l.at_place hy hw.mem howner
    rw [hw.height]
    omega
  have hsource : e.sourceHash = key s := by
    have := hw.source
    rw [hhash,l.source y hy,hs] at this
    exact (some.inj this).symm
  refine ⟨w',e,hstep,h',hn,hp',hhash,(target_linked h' hp').trans hsource,?_,?_⟩
  · rw [hcs,hp',ht,length_cons]
    by_cases heq : w.receiveSourcePairs.length+1 = maxItems
    · rw [if_pos (by rw [heq,mod_self]),if_pos heq]
    · rw [if_neg,if_neg heq]
      rw [mod_eq_of_lt (by omega)]
      exact succ_ne_zero _
  · intro r hr
    rw [← ht]
    exact hnext r (hhash ▸ hr)

structure Full (F : Forest Account BlockHash) (L₀ : Ledger) (Vs : Account → ℕ) (m : ℕ)
    (key : Label → BlockHash) (w : Walk) (V : Account → ℕ) (e : ReceiveSourcePair)
    (es : List ReceiveSourcePair) : Prop where
  standing : Standing F L₀ Vs (key (.take m)) w V
  target : target (key (.take m)) w = key .genesis
  idle : w.nextInReceiveChain = none
  pairs : w.receiveSourcePairs = e :: es
  length : es.length = m+2
  hash : e.receiveDetails.hash = key .toll
  next : e.receiveDetails.next.isSome = true
  checkpoints : w.checkpoints = [key .toll]
  genesis : F.Covered V (key .genesis)
  first : F.Covered V (key .first)

theorem Laid.sticks {es : List ReceiveSourcePair} (hw : Full F L₀ Vs m key w V e es) :
    ∃ w', round maxItems C env fuel (key (.take m)) originalBlock w = some (.inl w') ∧
      Stuck F L₀ Vs m key w' := by
  obtain ⟨w',V',V₁,cs,hs,st,hp,hsrc,hr,hcs⟩ := round_confirms env B hw.standing
    l.mem_take hor
    (fun b hb => (l.height_lt hb).trans_le hfuel) l.height_short hw.idle hw.pairs
    (by
      rw [hw.target]
      intro c hc ha habove hbelow
      have := hw.genesis.2
      rw [← ha] at this
      omega)
    (by rw [hw.target]; exact l.apart trivial rfl)
  rw [(target_linked hw.standing hw.pairs).symm.trans hw.target] at hsrc
  obtain ⟨rfl,rfl⟩ : V₁ = V ∧ cs = w.checkpoints := by
    rcases hsrc with ⟨-,hV,hcs⟩ | ⟨hraise,-⟩
    · exact ⟨hV,hcs⟩
    · exact absurd hw.genesis hraise.uncovered
  rw [hw.next,if_pos rfl] at hcs
  rw [hw.hash] at hr
  refine ⟨w',hs,V',st,hcs.trans hw.checkpoints,hr.covered,hw.first.mono hr.le,?_⟩
  have hlen := hw.length
  cases hes : es with
  | nil =>
    rw [hes,length_nil] at hlen
    omega
  | cons g gs =>
    have hg : g ∈ w'.receiveSourcePairs := by
      rw [hp,hes]
      exact mem_cons_self
    rw [target_linked st (hp.trans hes)]
    exact l.source_ne (st.waiting g hg).mem (st.waiting g hg).source

include hmax

theorem Laid.stuck_step (hw : Stuck F L₀ Vs m key w) :
    ∃ w', round maxItems C env fuel (key (.take m)) originalBlock w = some (.inl w') ∧
      Stuck F L₀ Vs m key w' := by
  obtain ⟨V,h,hcs,htoll,hfirst,hne⟩ := hw
  have hm := l.mem_take
  obtain ⟨w',V',hT,-,hf,hmove,hstep⟩ := round_spec env two_le B h hm hor
    (fun b hb => (l.height_lt hb).trans_le hfuel)
    (.inl ⟨h.tracked.pending.short l.height_short,Forest.brief_of_heights l.height_short⟩)
  have hgo : round maxItems C env fuel (key (.take m)) originalBlock w = some (.inl w') := by
    rcases hstep with ⟨hs,-⟩ | ⟨-,-,-,hacc,-⟩
    · exact hs
    · exact absurd (l.alone (h.target_mem hm) hacc) hne
  have h' := hmove.standing two_le h hm hT hf
  -- a raised block is not the checkpoint
  have hother : ∀ {V₁ V₂ : Account → ℕ} {c : BlockHash}, (∀ a, V a ≤ V₁ a) → F.Raise V₁ c V₂ →
      key .toll ≠ c := by
    rintro V₁ V₂ c hle hr rfl
    exact hr.uncovered (htoll.mono hle)
  -- heights and checkpoints
  obtain ⟨hle,hcs',hnext⟩ : (∀ a, V a ≤ V' a) ∧ w'.checkpoints = [key .toll] ∧
      ∀ n, w'.nextInReceiveChain = some n → n.top ≠ key (.take m) := by
    have hnone : w'.nextInReceiveChain = none →
        ∀ n, w'.nextInReceiveChain = some n → n.top ≠ key (.take m) := by
      intro hn n e
      rw [hn] at e
      cases e
    cases hmove with
    | settled _ _ heights next _ checkpoints =>
      exact ⟨fun a => by rw [heights],checkpoints.trans hcs,hnone next⟩
    | reached raise _ next _ checkpoints =>
      rw [hcs,erase_other (hother (fun a => le_refl _) raise)] at checkpoints
      exact ⟨raise.le,checkpoints,hnone next⟩
    | partly c e raise _ _ _ _ _ next _ checkpoints =>
      rw [hcs,erase_other (hother (fun a => le_refl _) raise)] at checkpoints
      exact ⟨raise.le,checkpoints,hnone next⟩
    | stored e _ _ heights next pairs checkpoints =>
      subst heights
      have hlen := l.waiting_length h' htoll hfirst
      have hpos : 0 < w'.receiveSourcePairs.length := by
        rw [pairs,pushBack_eq two_le]
        exact succ_pos _
      rw [if_neg (by rw [mod_eq_of_lt (by omega)]; omega),hcs] at checkpoints
      exact ⟨fun a => le_refl _,checkpoints,hnone next⟩
    | received e V₁ cs back source raise next checkpoints =>
      have he : e ∈ w.receiveSourcePairs := by
        rw [back.2]
        exact mem_cons_self
      obtain ⟨hle,rfl⟩ : (∀ a, V a ≤ V₁ a) ∧ cs = [key .toll] := by
        rcases source with ⟨-,rfl,rfl⟩ | ⟨hr,rfl⟩
        · exact ⟨fun a => le_refl _,hcs⟩
        · rw [hcs,erase_other (hother (fun a => le_refl _) hr)]
          exact ⟨hr.le,rfl⟩
      rw [erase_other (hother hle raise),ite_self] at checkpoints
      refine ⟨fun a => (hle a).trans (raise.le a),checkpoints,fun n hn => ?_⟩
      rw [next] at hn
      split at hn
      · cases hn
        exact l.next_ne (h.waiting e he) ‹_›
      · cases hn
  exact ⟨w',hgo,V',h',hcs',htoll.mono hle,hfirst.mono hle,l.target_ne h' hcs' hnext⟩

structure Descending (F : Forest Account BlockHash) (L₀ : Ledger) (V : Account → ℕ) (m : ℕ)
    (key : Label → BlockHash) (i : ℕ) (w : Walk) : Prop where
  standing : Standing F L₀ V (key (.take m)) w V
  target : target (key (.take m)) w = key (.send i)
  length : w.receiveSourcePairs.length+i = m+1
  checkpoints : w.checkpoints = []

theorem Laid.descends (hV : V (acct (i+2)) = 0) (hi : i+1 ≤ m)
    (hw : Descending F L₀ V m key (i+1) w) :
    ∃ w', round maxItems C env fuel (key (.take m)) originalBlock w = some (.inl w') ∧
      Descending F L₀ V m key i w' := by
  have hlen := hw.length
  obtain ⟨w',e,hstep,h',-,hp,-,ht,hcs,-⟩ := l.stores env B hor hfuel hw.standing
    (x := .send (i+1)) (y := .take i) hi (le_of_succ_le hi) hw.target rfl
    (le_succ 1) (by simp only [Label.height,Label.owner,hV]) rfl (by omega)
  rw [if_neg (by omega),hw.checkpoints] at hcs
  refine ⟨w',hstep,h',ht,?_,hcs⟩
  rw [hp,length_cons]
  omega

/-- The fund and the first receive are confirmed, and the walk is back at the first
account. -/
structure Funded (F : Forest Account BlockHash) (L₀ : Ledger) (Vs : Account → ℕ) (m : ℕ)
    (key : Label → BlockHash) (acct : ℕ → Account) (w : Walk) (V : Account → ℕ) : Prop where
  standing : Standing F L₀ Vs (key (.take m)) w V
  target : target (key (.take m)) w = key (.send 0)
  length : w.receiveSourcePairs.length = m+1
  checkpoints : w.checkpoints = []
  genesis : V (acct 0) = 2
  first : V (acct 1) = 1

theorem Laid.funds (h0 : V (acct 0) = 1) (h1 : V (acct 1) = 0) (hw : Descending F L₀ V m key 0 w) :
    ∃ w₁ w₂ V₂, round maxItems C env fuel (key (.take m)) originalBlock w = some (.inl w₁) ∧
      round maxItems C env fuel (key (.take m)) originalBlock w₁ = some (.inl w₂) ∧
      Funded F L₀ V m key acct w₂ V₂ := by
  have hlen := hw.length
  -- the first receive waits for the fund
  obtain ⟨w₁,e,hs₁,st₁,hn,hp₁,hk,ht₁,hcs₁,-⟩ := l.stores env B hor hfuel hw.standing
    (x := .send 0) (y := .first) (zero_le m) trivial hw.target rfl (by decide)
    (by simp only [Label.height,Label.owner,h1]) rfl (by omega)
  rw [if_neg (by omega),hw.checkpoints] at hcs₁
  -- the fund is plain, so both are confirmed
  obtain ⟨w₂,V₂,V₁,cs,hs₂,st₂,hp₂,hsrc,hr,hcs₂⟩ := round_confirms env B st₁
    l.mem_take hor
    (fun b hb => (l.height_lt hb).trans_le hfuel) l.height_short hn hp₁
    (by
      rw [ht₁,l.account .fund trivial,l.height .fund trivial]
      intro c hc ha habove hbelow
      rw [ha] at habove
      simp only [Label.height,Label.owner] at ha habove hbelow
      rw [l.at_place (x := .fund) trivial hc ha (by simp only [Label.height]; omega),
        l.source .fund trivial]
      rfl)
    (by rw [ht₁]; exact l.apart trivial rfl)
  rw [(target_linked st₁ hp₁).symm.trans ht₁,hcs₁] at hsrc
  obtain ⟨hV₁,rfl⟩ : V₁ = update V (acct 0) 2 ∧ cs = [] := by
    rcases hsrc with ⟨hc,-⟩ | ⟨hr,rfl⟩
    · rw [l.covered (x := .fund) trivial] at hc
      simp only [Label.height,Label.owner] at hc
      omega
    · refine ⟨?_,rfl⟩
      rw [hr.eq,l.account .fund trivial,l.height .fund trivial]
      rfl
  have hV₂ : V₂ = update V₁ (acct 1) 1 := by
    rw [hr.eq,hk,l.account .first trivial,l.height .first trivial]
    rfl
  have hne : acct 0 ≠ acct 1 := by
    intro e
    cases l.distinct .genesis .first trivial trivial e
  refine ⟨w₁,w₂,V₂,hs₁,hs₂,st₂,?_,by rw [hp₂]; exact hlen,?_,?_,?_⟩
  · -- the path is the one from before
    cases hp : w.receiveSourcePairs with
    | nil =>
      rw [hp,length_nil] at hlen
      omega
    | cons g gs => rw [target_linked st₂ (hp₂.trans hp),← hw.target,target_linked hw.standing hp]
  · rw [hcs₂]
    exact ite_self _
  · rw [hV₂,update_of_ne hne,hV₁,update_self]
  · rw [hV₂,update_self]

theorem Laid.fills (hw : Funded F L₀ Vs m key acct w V) :
    ∃ w₁ w₂ e es, round maxItems C env fuel (key (.take m)) originalBlock w = some (.inl w₁) ∧
      round maxItems C env fuel (key (.take m)) originalBlock w₁ = some (.inl w₂) ∧
      Full F L₀ Vs m key w₂ V e es := by
  have hlen := hw.length
  -- the turn waits for the toll
  obtain ⟨w₁,g,hs₁,st₁,-,hp₁,-,ht₁,hcs₁,-⟩ := l.stores env B hor hfuel hw.standing
    (x := .send 0) (y := .turn) (zero_le m) trivial hw.target rfl (by decide)
    (by simp only [Label.height,Label.owner,hw.first]) rfl (by omega)
  rw [if_neg (by omega),hw.checkpoints] at hcs₁
  have hlen₁ : w₁.receiveSourcePairs.length = m+2 := by
    rw [hp₁,length_cons]
    omega
  -- the toll is the top level that fills the buffer
  obtain ⟨w₂,e,hs₂,st₂,hn₂,hp₂,hk₂,ht₂,hcs₂,hnext⟩ := l.stores env B hor hfuel st₁
    (x := .toll) (y := .toll) trivial trivial ht₁ rfl (le_refl _)
    (by simp only [Label.height,Label.owner,hw.genesis]) rfl (by omega)
  rw [if_pos (by omega),hcs₁] at hcs₂
  obtain ⟨r,hr,-⟩ := B.get _ (l.mem_key (x := .toll) trivial)
  refine ⟨w₁,w₂,e,_,hs₁,hs₂,st₂,ht₂,hn₂,hp₂,hlen₁,hk₂,?_,hcs₂,?_,?_⟩
  · rw [hnext r hr]
    exact l.next_toll B hr
  · rw [l.covered (x := .genesis) trivial]
    simp only [Label.height,Label.owner,hw.genesis]
    omega
  · rw [l.covered (x := .first) trivial]
    simp only [Label.height,Label.owner,hw.first]
    omega

theorem Laid.gets_stuck (h0 : V (acct 0) = 1) (h1 : V (acct 1) = 0)
    (hw : Descending F L₀ V m key 0 w) :
    Loop.Endless (round maxItems C env fuel (key (.take m)) originalBlock) w := by
  obtain ⟨w₁,w₂,V₂,hs₁,hs₂,hw₂⟩ := l.funds env B hor hfuel hmax h0 h1 hw
  obtain ⟨w₃,w₄,e,es,hs₃,hs₄,hw₄⟩ := l.fills env B hor hfuel hmax hw₂
  obtain ⟨w₅,hs₅,hw₅⟩ := l.sticks env B hor hfuel hw₄
  apply Loop.Endless.continue hs₁
  apply Loop.Endless.continue hs₂
  apply Loop.Endless.continue hs₃
  apply Loop.Endless.continue hs₄
  apply Loop.Endless.continue hs₅
  exact Loop.endless_of_invariant (Stuck F L₀ V m key)
    (fun _ h => l.stuck_step env B hor hfuel hmax h) hw₅

theorem Laid.descent_endless (h0 : V (acct 0) = 1) (h1 : ∀ i, V (acct (i+1)) = 0) (hi : i ≤ m)
    (hw : Descending F L₀ V m key i w) :
    Loop.Endless (round maxItems C env fuel (key (.take m)) originalBlock) w := by
  induction i generalizing w with
  | zero => exact l.gets_stuck env B hor hfuel hmax h0 (h1 0) hw
  | succ i ih =>
    obtain ⟨w',hs,hw'⟩ := l.descends env B hor hfuel hmax (h1 (i+1)) hi hw
    exact Loop.Endless.continue hs (ih (le_of_succ_le hi) hw')

end

/-- The walk from the last take of the layout does not end. -/
theorem Laid.walk_endless {m : ℕ} {key : Label → BlockHash} {acct : ℕ → Account}
    (l : Laid F m key acct) (hmax : m+3 = maxItems) (env : Environment)
    (B : Backed C F L₀) {p : Processor} (T : Tracked F L₀ p V) (hfuel : 5 ≤ fuel)
    (h0 : V (acct 0) = 1) (h1 : ∀ i, V (acct (i+1)) = 0) :
    walk C env fuel maxItems p (key (.take m)) = none := by
  have hm := l.mem_take
  obtain ⟨r,hr,-⟩ := B.get _ hm
  have hstart : Standing F L₀ V (key (.take m)) (begin p) V := Standing.start T
  obtain ⟨w,e,hs,hw,-,hp,-,ht,hcs,-⟩ := l.stores env B hr hfuel hstart (x := .take m)
    (y := .take m) (le_refl m) (le_refl m) rfl rfl (le_refl _)
    (by simp only [Label.height,Label.owner,h1 (m+1)]) rfl
    (show (0 : ℕ) < maxItems by decide)
  unfold walk
  rw [T.sound.written.blocks,hr,bind_some]
  apply Loop.Endless.continue hs
  refine l.descent_endless env B hr hfuel hmax h0 h1 (le_refl m) ⟨hw,ht,?_,?_⟩
  · rw [hp]
    exact add_comm 1 m
  · rw [hcs,if_neg]
    · rfl
    · exact show ¬ (0+1 : ℕ) = maxItems by decide

end Vxldollar.Endless
