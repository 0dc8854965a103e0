import Vxldollar.Certificates
import Vxldollar.CementingRuns

/-!
# Ledgers laid block by block

State blocks are placed one after another above genesis, on a network whose hash counts
along a chain. A row says how its blocks hang together; each of its beginnings is then a
reachable ledger.
-/

namespace Vxldollar.Rows
open Blocks Store Vxldollar.Lattice Chains Mirror Process ProcessSpec Acceptance Runs Certificates
  Sources Traces CementingRuns Nat BitVec

/-- A network whose hash counts along a chain from a number of its account. -/
def counting : Constants := { sample with
  hash := fun
    | .open_ _ => 2
    | .state h => BitVec.ofNat 256
      (if h.previous = 0 then h.account.toNat+2^40 else h.previous.toNat+1)
    | _ => 0 }

/-- The blocks of a row by what each says, in the order of their codes. -/
structure Row (I : Type) where
  first : I
  next : I → I
  Within : I → Prop
  code : I → ℕ
  previous : I → Option I
  received : I → Option I
  source : I → Option I
  opening : I → I
  owner : I → Account
  height : I → ℕ
  balance : I → Amount
  link : I → Link

variable {I : Type}

namespace Row
section
variable (R : Row I) (x : I)

def key : BlockHash := BitVec.ofNat 256 (R.code x)

def before : Amount := ((R.previous x).map R.balance).getD 0

def move : Move := match R.received x with
  | some y => .receive (R.key y)
  | none => if R.balance x < R.before x then .send (R.link x) else .keep

end

variable [DecidableEq I] (R : Row I) (x : I)

def hashables : Hashables := if x = R.first then counting.genesis.hashables
  else .state ⟨R.owner x,((R.previous x).map R.key).getD 0,1,R.balance x,R.link x⟩

def node : Node where
  hashables := R.hashables x
  account := R.owner x
  balance := R.balance x
  amount := difference (R.balance x) (R.before x)
  height := R.height x
  representative := 1
  openBlock := R.key (R.opening x)
  epoch := .epoch0
  move := R.move x
  sourceEpoch := .epoch0

def blocks : Set Hashables := {hs | ∃ x, R.Within x ∧ hs = R.hashables x}

end Row

variable {R : Row I} {x y z : I}

theorem move_receive {g : BlockHash} (h : R.move x = .receive g) :
    ∃ y, R.received x = some y ∧ g = R.key y := by
  unfold Row.move at h
  cases hr : R.received x with
  | some y =>
    rw [hr] at h
    cases h
    exact ⟨y,rfl,rfl⟩
  | none =>
    rw [hr] at h
    dsimp only at h
    split_ifs at h

theorem move_ne_upgrade (x : I) : R.move x ≠ .upgrade := by
  unfold Row.move
  split
  · nofun
  · split_ifs <;> nofun

variable [DecidableEq I]

/-- A block follows the one counted before it or opens its account with a receive. What it
does not send on it keeps, and its link is the hash of a block only where it names one. -/
structure Lawful (R : Row I) : Prop where
  start : R.Within R.first ∧ R.code R.first = 2 ∧ R.node R.first = genesisNode counting
  inj : ∀ {x y}, R.code x = R.code y → x = y
  ge : ∀ x, 2 ≤ R.code x
  lt : ∀ {x}, R.Within x → R.code x < 2^64
  next : ∀ {x y}, R.code y < R.code (R.next x) ↔ R.code y ≤ R.code x
  within : ∀ {x y}, R.Within x → R.code y ≤ R.code x → R.Within y
  owned : ∀ {x}, R.Within x → R.owner x ≠ 0
  follows : ∀ {x y}, R.previous x = some y → R.code x = R.code y+1 ∧ R.owner y = R.owner x ∧
    R.height x = R.height y+1 ∧ R.opening x = R.opening y
  opens : ∀ {x}, R.Within x → x ≠ R.first → R.previous x = none →
    R.code x = (R.owner x).toNat+2^40 ∧ R.height x = 1 ∧ R.opening x = x ∧
    R.received x ≠ none ∧ ∀ y, R.code y < R.code x → R.owner y ≠ R.owner x
  receives : ∀ {x y}, R.received x = some y → R.source x = some y ∧ R.received y = none ∧
    R.balance y < R.before y ∧ R.link y = R.owner x ∧
    (R.balance x).toNat = (R.before x).toNat+(R.node y).amount.toNat
  once : ∀ {x y z}, R.received x = some z → R.received y = some z → x = y
  keeps : ∀ {x}, x ≠ R.first → R.received x = none → ¬ R.balance x < R.before x →
    R.link x = 0 ∧ R.balance x = R.before x
  sourced : ∀ {x y}, R.source x = some y → x ≠ R.first ∧ R.link x = R.key y ∧
    R.code y < R.code x
  unsourced : ∀ {x y}, R.Within x → R.Within y → R.source x = none → R.link x ≠ 0 →
    R.link x ≠ R.key y

namespace Lawful
variable (W : Lawful R)
include W

theorem key_toNat (hx : R.Within x) : (R.key x).toNat = R.code x := by
  rw [Row.key,toNat_ofNat]
  exact mod_eq_of_lt ((W.lt hx).trans (by decide))

theorem key_inj (hx : R.Within x) (hy : R.Within y) (h : R.key x = R.key y) : x = y := by
  apply W.inj
  rw [← W.key_toNat hx,← W.key_toNat hy,h]

theorem key_ne {a : BlockHash} (hx : R.Within x) (ha : a.toNat < 2) : R.key x ≠ a := by
  rintro rfl
  rw [W.key_toNat hx] at ha
  have := W.ge x
  omega

theorem key_ne_zero (hx : R.Within x) : R.key x ≠ 0 := W.key_ne hx (by decide)

theorem next_ne (x : I) : R.next x ≠ R.first := by
  intro h
  have hlt : R.code R.first < R.code (R.next x) := W.next.mpr (W.start.2.1 ▸ W.ge x)
  rw [h] at hlt
  exact lt_irrefl _ hlt

theorem within_previous (hx : R.Within x) (h : R.previous x = some y) : R.Within y :=
  W.within hx (by have := (W.follows h).1; omega)

omit W in
theorem hashables_state (h : x ≠ R.first) : R.hashables x =
    .state ⟨R.owner x,((R.previous x).map R.key).getD 0,1,R.balance x,R.link x⟩ := if_neg h

theorem hash_hashables (hx : R.Within x) : counting.hash (R.hashables x) = R.key x := by
  by_cases hne : x = R.first
  · subst hne
    rw [Row.key,W.start.2.1,Row.hashables,if_pos rfl]
    rfl
  rw [hashables_state hne]
  cases hp : R.previous x with
  | none =>
    rw [Row.key,(W.opens hx hne hp).1]
    rfl
  | some y =>
    have hy := W.within_previous hx hp
    change BitVec.ofNat 256 (if R.key y = 0 then _ else (R.key y).toNat+1) = _
    rw [if_neg (W.key_ne_zero hy),W.key_toNat hy,← (W.follows hp).1]
    rfl

theorem epoch_key (hx : R.Within x) : counting.isEpochLink (R.key x) = false := by
  have hlt := W.lt hx
  rw [← W.key_toNat hx] at hlt
  have hne : ∀ e : Link, 2^64 ≤ e.toNat → (e == R.key x) = false := by
    intro e he
    rw [beq_eq_false_iff_ne]
    rintro rfl
    omega
  change ((epochLinkV1 == R.key x) || ((epochLinkV2 == R.key x) || false)) = false
  rw [hne _ (by decide),hne _ (by decide)]
  rfl

theorem sound : HashSound counting R.blocks where
  injective := by
    rintro a ⟨x,hx,rfl⟩ b ⟨y,hy,rfl⟩ h
    rw [W.hash_hashables hx,W.hash_hashables hy] at h
    rw [W.key_inj hx hy h]
  ne_zero := by
    rintro a ⟨x,hx,rfl⟩
    rw [W.hash_hashables hx]
    exact W.key_ne_zero hx
  ne_epoch := by
    rintro a ⟨x,hx,rfl⟩
    rw [W.hash_hashables hx]
    exact W.epoch_key hx
  ne_genesis := by
    rintro a ⟨x,hx,rfl⟩
    rw [W.hash_hashables hx]
    exact W.key_ne hx (by decide)
  genesis_mem := ⟨R.first,W.start.1,(if_pos rfl).symm⟩

theorem grounded : Grounded counting R.blocks := by
  refine ⟨fun hs => (counting.hash hs).toNat,?_⟩
  rintro a ⟨x,hx,rfl⟩ b ⟨y,hy,rfl⟩ h
  dsimp only
  rw [W.hash_hashables hy] at h ⊢
  rw [W.hash_hashables hx,W.key_toNat hx,W.key_toNat hy]
  by_cases hne : x = R.first
  · rw [hne,Row.hashables,if_pos rfl] at h
    rcases h with h | h | h
    · exact absurd h (W.key_ne hy (by decide))
    · exact absurd h (W.key_ne hy (by decide))
    · exact absurd h (W.key_ne hy (by decide))
  rw [hashables_state hne] at h
  rcases h with h | h | h
  · change R.key y = ((R.previous x).map R.key).getD 0 at h
    cases hp : R.previous x with
    | none =>
      rw [hp] at h
      exact absurd h (W.key_ne_zero hy)
    | some z =>
      rw [hp] at h
      obtain rfl := W.key_inj hy (W.within_previous hx hp) h
      have := (W.follows hp).1
      omega
  · exact absurd h (W.key_ne_zero hy)
  · change R.key y = R.link x at h
    cases hs : R.source x with
    | none => exact absurd h.symm (W.unsourced hx hy hs (h ▸ W.key_ne_zero hy))
    | some z =>
      obtain ⟨-,hl,hlt⟩ := W.sourced hs
      rw [hl] at h
      rwa [W.key_inj hy (W.within hx hlt.le) h]

theorem moveOf_hashables (hx : R.Within x) (hne : x ≠ R.first) :
    moveOf counting (R.hashables x) (R.before x) = R.move x := by
  rw [hashables_state hne,Row.move]
  unfold moveOf
  cases hr : R.received x with
  | some y =>
    obtain ⟨hs,-,-,-,hbal⟩ := W.receives hr
    obtain ⟨-,hl,hlt⟩ := W.sourced hs
    have hy := W.within hx hlt.le
    have hle : ¬ R.balance x < R.before x := by
      rw [lt_def]
      omega
    simp only [if_neg hle,hl,if_neg (W.key_ne_zero hy),W.epoch_key hy]
    rfl
  | none =>
    dsimp only
    split_ifs with hlt h0
    · rfl
    · rfl
    all_goals exact absurd (W.keeps hne hr hlt).1 h0

theorem node_build (hx : R.Within x) (hne : x ≠ R.first) : R.node x =
    build counting (R.key x) (R.hashables x) ((R.previous x).map R.node)
      ((R.received x).map R.node) := by
  have hb : previousBalance ((R.previous x).map R.node) = R.before x := by
    unfold previousBalance Row.before
    cases R.previous x <;> rfl
  have hmove := W.moveOf_hashables hx hne
  unfold build
  dsimp only
  rw [hb,hmove,Row.node,hashables_state hne]
  have hepoch : (((R.received x).map R.node).map Node.epoch).getD .epoch0 = .epoch0 := by
    cases R.received x <;> rfl
  rw [hepoch]
  have hm := move_ne_upgrade (R := R) x
  cases hp : R.previous x with
  | none =>
    obtain ⟨-,hh,ho,-⟩ := W.opens hx hne hp
    rw [hh,ho]
    cases hmv : R.move x <;> first | rfl | exact absurd hmv hm
  | some y =>
    obtain ⟨-,-,hh,ho⟩ := W.follows hp
    rw [hh,ho]
    cases hmv : R.move x <;> first | rfl | exact absurd hmv hm

end Lawful

section
variable {X : Nodes}

/-- The lattice holds the blocks up to one of the row. -/
def Holds (R : Row I) (X : Nodes) (x : I) : Prop :=
  ∀ g n, X g = some n ↔ ∃ y, R.code y ≤ R.code x ∧ g = R.key y ∧ n = R.node y

theorem node_previous (hne : x ≠ R.first) :
    (R.node x).previous = ((R.previous x).map R.key).getD 0 := by
  change (R.hashables x).previous = _
  rw [Lawful.hashables_state hne]
  rfl

variable (h : Holds R X x)
include h

theorem Holds.get (hy : R.code y ≤ R.code x) : X (R.key y) = some (R.node y) :=
  (h _ _).mpr ⟨y,hy,rfl,rfl⟩

theorem Holds.absent {g : BlockHash} (hg : ∀ y, R.code y ≤ R.code x → R.key y ≠ g) :
    X g = none := by
  cases hX : X g with
  | none => rfl
  | some n =>
    obtain ⟨y,hy,rfl,-⟩ := (h g n).mp hX
    exact absurd rfl (hg y hy)

variable (W : Lawful R)
include W

theorem Holds.fresh (hz : R.Within (R.next x)) : X (R.key (R.next x)) = none := by
  refine h.absent fun y hy hk => ?_
  have hlt := W.next.mpr hy
  rw [W.key_inj (W.within hz hlt.le) hz hk] at hlt
  exact lt_irrefl _ hlt

variable (hz : R.Within (R.next x))
include hz

theorem Holds.previous : X (R.node (R.next x)).previous = (R.previous (R.next x)).map R.node := by
  rw [node_previous (W.next_ne x)]
  cases hp : R.previous (R.next x) with
  | none => exact h.absent fun y hy => W.key_ne_zero (W.within hz (W.next.mpr hy).le)
  | some y =>
    have := (W.follows hp).1
    exact h.get (W.next.mp (by omega))

theorem Holds.before : previousBalance (X (R.node (R.next x)).previous) = R.before (R.next x) := by
  rw [h.previous W hz]
  unfold previousBalance Row.before
  cases R.previous (R.next x) <;> rfl

omit hz in
theorem Holds.received (hr : R.received (R.next x) = some y) :
    X (R.key y) = some (R.node y) :=
  h.get (W.next.mp (W.sourced (W.receives hr).1).2.2)

omit hz in
theorem Holds.source :
    (R.node (R.next x)).move.source.bind X = (R.received (R.next x)).map R.node := by
  change (R.move (R.next x)).source.bind X = _
  unfold Row.move
  cases hr : R.received (R.next x) with
  | some y => exact h.received W hr
  | none =>
    dsimp only
    split_ifs <;> rfl

theorem Holds.covered : Covered X (R.node (R.next x)) := by
  have hb := h.before W hz
  unfold Covered
  rw [hb]
  have hmove : (R.node (R.next x)).move = R.move (R.next x) := rfl
  rw [hmove,Row.move]
  cases hr : R.received (R.next x) with
  | some y =>
    obtain ⟨-,hry,hlt,hlink,hbal⟩ := W.receives hr
    refine ⟨R.node y,h.received W hr,?_,hbal,fun _ => rfl⟩
    change R.move y = .send (R.owner (R.next x))
    rw [Row.move,hry,← hlink]
    exact if_pos hlt
  | none =>
    dsimp only
    split_ifs with hlt
    · exact BitVec.le_of_lt hlt
    · exact (W.keeps (W.next_ne x) hr hlt).2

theorem Holds.admits : Admits counting R.blocks X (R.key (R.next x)) (R.node (R.next x)) := by
  have hne := W.next_ne x
  have hprev := node_previous hne
  have htype : (R.node (R.next x)).hashables.type = .state := by
    change (R.hashables (R.next x)).type = _
    rw [Lawful.hashables_state hne]
    rfl
  have hin : ∀ {y}, R.code y ≤ R.code x → R.Within y := fun hy => W.within hz (W.next.mpr hy).le
  refine ⟨⟨⟨_,hz,rfl⟩,W.hash_hashables hz,W.owned hz,?_,fun _ => .inr htype,?_,h.covered W hz⟩,
    ?_,?_,?_⟩
  · rw [h.previous W hz,h.source W]
    exact W.node_build hz hne
  · intro h0
    rw [h.previous W hz]
    cases hp : R.previous (R.next x) with
    | none =>
      rw [hprev,hp] at h0
      exact absurd rfl h0
    | some y => exact ⟨R.node y,rfl,(W.follows hp).2.1,fun hl => absurd htype hl⟩
  · -- a block without a predecessor opens its account
    intro h0 g n hX
    obtain ⟨y,hy,rfl,rfl⟩ := (h g n).mp hX
    cases hp : R.previous (R.next x) with
    | none => exact (W.opens hz hne hp).2.2.2.2 y (W.next.mpr hy)
    | some w =>
      rw [hprev,hp] at h0
      exact absurd h0 (W.key_ne_zero (W.within_previous hz hp))
  · -- no placed block has the same predecessor
    intro h0 g n hX hsame
    obtain ⟨y,hy,rfl,rfl⟩ := (h g n).mp hX
    have hy0 : y ≠ R.first := by
      rintro rfl
      apply h0
      rw [← hsame,W.start.2.2]
      rfl
    rw [hprev] at h0 hsame
    rw [node_previous hy0] at hsame
    cases hp : R.previous (R.next x) with
    | none =>
      rw [hp] at h0
      exact h0 rfl
    | some w =>
      cases hpy : R.previous y with
      | none =>
        rw [hp,hpy] at hsame
        exact W.key_ne_zero (W.within_previous hz hp) hsame.symm
      | some v =>
        rw [hp,hpy] at hsame
        obtain rfl := W.key_inj (W.within_previous (hin hy) hpy) (W.within_previous hz hp) hsame
        have hlt := W.next.mpr hy
        rw [(W.follows hp).1,(W.follows hpy).1] at hlt
        exact lt_irrefl _ hlt
  · -- no placed block has received the same send
    intro s hs g n hX hsame
    obtain ⟨y,hy,rfl,rfl⟩ := (h g n).mp hX
    obtain ⟨w,hw,rfl⟩ := move_receive hs
    obtain ⟨v,hv,hk⟩ := move_receive hsame
    have hwlt := (W.sourced (W.receives hw).1).2.2
    have hvlt := (W.sourced (W.receives hv).1).2.2
    obtain rfl := W.key_inj (W.within hz hwlt.le) (W.within (hin hy) hvlt.le) hk
    have hlt := W.next.mpr hy
    rw [W.once hv hw] at hlt
    exact lt_irrefl _ hlt

end

variable {W : Lawful R} {L : Ledger} {X : Nodes}

/-- A reachable ledger with the blocks up to a block, of which only genesis is cemented. -/
structure Placed (W : Lawful R) (x : I) (L : Ledger) (X : Nodes) : Prop where
  reachable : Reachable counting R.blocks L
  valid : Valid W.sound L X
  holds : Holds R X x
  heights : L.confirmationHeight = (storeInitialize counting 0).confirmationHeight

theorem placed_first (W : Lawful R) :
    Placed W R.first (storeInitialize counting 0) (genesisNodes counting) where
  reachable := .start 0
  valid := start_valid W.sound 0
  holds := by
    intro g n
    have hkey : R.key R.first = counting.genesisHash := by
      rw [Row.key,W.start.2.1]
      rfl
    rw [genesisNodes_eq_some,← W.start.2.2,← hkey]
    constructor
    · rintro ⟨rfl,rfl⟩
      exact ⟨_,le_refl _,rfl,rfl⟩
    · rintro ⟨y,hy,rfl,rfl⟩
      obtain rfl := W.inj (le_antisymm hy (W.start.2.1 ▸ W.ge y))
      exact ⟨rfl,rfl⟩
  heights := rfl

/-- The next block of the row is accepted. -/
theorem Placed.next (h : Placed W x L X) (hz : R.Within (R.next x)) :
    ∃ b result L', b.hashables ∈ R.blocks ∧ EpochOpens counting L b ∧
      process counting 0 L b .unknown = some (result,L') ∧
      Placed W (R.next x) L' (add X (R.key (R.next x)) (R.node (R.next x))) := by
  have hadm := h.holds.admits W hz
  have hfresh := h.holds.fresh W hz
  have hhash : counting.blockHash ⟨R.hashables (R.next x),0,0⟩ = R.key (R.next x) :=
    W.hash_hashables hz
  have hup : (R.node (R.next x)).move ≠ .upgrade := move_ne_upgrade _
  have hA : Acceptable counting R.blocks X ⟨R.hashables (R.next x),0,0⟩ .unknown
      (R.node (R.next x)) := by
    refine ⟨by rwa [hhash],by rwa [hhash],?_,?_,?_,fun hm => absurd hm hup⟩
    · unfold Signed badSignature
      rw [if_neg hup]
      exact Bool.and_false _
    · refine decide_eq_true ?_
      change counting.work.threshold _ ≤ BitVec.allOnes 64
      rw [le_def,toNat_allOnes]
      exact le_sub_one_of_lt (BitVec.isLt _)
    · intro h0 hkeep
      rw [node_previous (W.next_ne x)] at h0
      cases hp : R.previous (R.next x) with
      | some y =>
        rw [hp] at h0
        exact W.key_ne_zero (W.within_previous hz hp) h0
      | none =>
        obtain ⟨y,hy⟩ := Option.ne_none_iff_exists'.mp (W.opens hz (W.next_ne x) hp).2.2.2.1
        change R.move (R.next x) = .keep at hkeep
        rw [Row.move,hy] at hkeep
        cases hkeep
  obtain ⟨result,L',hp,-,G,V'⟩ := valid_accepts h.valid 0 rfl honest_unknown hA
  have ho : EpochOpens counting L ⟨R.hashables (R.next x),0,0⟩ :=
    admits_epochOpens h.valid.mirrors h.valid.built hA.admits rfl
  rw [hhash] at V'
  refine ⟨_,result,L',hadm.mem,ho,hp,h.reachable.process hadm.mem honest_unknown ho hp,V',
    fun g n => ?_,G.confirmationHeight.trans h.heights⟩
  rw [add_eq_some hfresh,h.holds g n]
  constructor
  · rintro (⟨rfl,rfl⟩ | ⟨y,hy,rfl,rfl⟩)
    · exact ⟨_,le_refl _,rfl,rfl⟩
    · exact ⟨y,(W.next.mpr hy).le,rfl,rfl⟩
  · rintro ⟨y,hy,rfl,rfl⟩
    rcases lt_or_eq_of_le hy with hlt | heq
    · exact .inr ⟨y,W.next.mp hlt,rfl,rfl⟩
    · rw [W.inj heq]
      exact .inl ⟨rfl,rfl⟩

section
variable (h : Placed W x L X) {F : Forest Account BlockHash} (g : Grounds counting F L)
include h

theorem Placed.sourceIn (hx : R.Within x) (hy : R.code y ≤ R.code x) :
    sourceIn counting X (R.key y) = (R.source y).map R.key := by
  have hX := h.holds.get hy
  have hwy := W.within hx hy
  cases hs : R.source y with
  | some z =>
    obtain ⟨hne,hl,hlt⟩ := W.sourced hs
    have hz := W.within hwy hlt.le
    refine (sourceIn_eq hX).mpr ⟨?_,W.key_ne_zero hz,W.epoch_key hz,?_⟩
    · change R.key z = linked (R.hashables y)
      rw [Lawful.hashables_state hne,← hl]
      rfl
    · rw [h.holds.get (hlt.le.trans hy)]
      exact Option.some_ne_none _
  | none =>
    -- a link that names no block is the hash of no block
    cases hs' : Sources.sourceIn counting X (R.key y) with
    | none => rfl
    | some s =>
      obtain ⟨rfl,h0,-,hne⟩ := (sourceIn_eq hX).mp hs'
      obtain ⟨n,hn⟩ := Option.ne_none_iff_exists'.mp hne
      obtain ⟨z,hz,hk,-⟩ := (h.holds _ n).mp hn
      have hwz := W.within hx hz
      change linked (R.hashables y) ≠ 0 at h0
      change linked (R.hashables y) = R.key z at hk
      by_cases hfirst : y = R.first
      · rw [Row.hashables,if_pos hfirst] at hk
        exact absurd hk.symm (W.key_ne hwz (by decide))
      · rw [Lawful.hashables_state hfirst] at h0 hk
        exact absurd hk (W.unsourced hwy hwz hs h0)

include g

/-- The blocks of the ledger, as the processors read them. -/
theorem Placed.reads {b : BlockHash} : F.mem b ↔ ∃ y, R.code y ≤ R.code x ∧ b = R.key y := by
  rw [← g.contains,h.valid.mirrors.contains]
  constructor
  · rintro ⟨n,hX⟩
    obtain ⟨y,hy,rfl,-⟩ := (h.holds b n).mp hX
    exact ⟨y,hy,rfl⟩
  · rintro ⟨y,hy,rfl⟩
    exact ⟨_,h.holds.get hy⟩

theorem Placed.record (hx : R.Within x) (hy : R.code y ≤ R.code x) :
    F.account (R.key y) = R.owner y ∧
    F.height (R.key y) = R.height y ∧ F.source (R.key y) = (R.source y).map R.key := by
  have hX := h.holds.get hy
  obtain ⟨r,hr,hs⟩ := h.valid.mirrors.get hX
  have hread := (g.backed.record hr).2
  rw [← hread.account,← hread.height,← hread.source,stores_account h.valid.built hX hs,
    stores_height h.valid.built hX hs,mirrors_source h.valid.mirrors hX hs]
  exact ⟨rfl,rfl,h.sourceIn hx hy⟩

end

theorem Placed.cemented (h : Placed W x L X) (a : Account) :
    heightsIn L a = if a = 1 then 1 else 0 := by
  have hget : L.confirmationHeight[a]? = if a = 1 then some ⟨1,counting.genesisHash⟩ else none := by
    rw [h.heights]
    change ((∅ : Std.ExtTreeMap Account ConfirmationHeightInfo).insert 1 _)[a]? = _
    rw [Table.get_insert]
    split
    · rfl
    · exact Std.ExtTreeMap.getElem?_empty
  unfold heightsIn Ledger.confirmationHeightGet
  rw [hget]
  split <;> rfl

end Vxldollar.Rows
