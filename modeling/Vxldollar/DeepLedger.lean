import Vxldollar.Rows
import Vxldollar.Endless

/-!
# A ledger with the endless layout

Genesis sends 5 to the first account and then 1 to the address that is its own hash. The
first account sends 1 of what it received to the address that is the hash of this second
send, and the rest down a row of accounts. Addresses and hashes are small numbers here,
so that no other link is the hash of a block.
-/

namespace Vxldollar.DeepLedger
open Blocks Store Vxldollar.Lattice Runs Sources Traces CementingRuns Endless Rows Nat BitVec

def address : ℕ → ℕ
  | 0 => 1
  | 1 => 10
  | j+2 => 4*j+15

def acct (j : ℕ) : Account := BitVec.ofNat 256 (address j)

def code : Label → ℕ
  | .genesis => 2
  | .fund => 3
  | .toll => 4
  | .cap => 5
  | .first => 10+2^40
  | .turn => 11+2^40
  | .send i => 4*i+12+2^40
  | .take i => 4*i+15+2^40

def next : Label → Label
  | .genesis => .fund
  | .fund => .toll
  | .toll => .cap
  | .cap => .first
  | .first => .turn
  | .turn => .send 0
  | .send i => .take i
  | .take i => .send (i+1)

def previous : Label → Option Label
  | .fund => some .genesis
  | .toll => some .fund
  | .cap => some .toll
  | .turn => some .first
  | .send 0 => some .turn
  | .send (i+1) => some (.take i)
  | _ => none

def received : Label → Option Label
  | .first => some .fund
  | .take i => some (.send i)
  | _ => none

def opening : Label → Label
  | .genesis | .fund | .toll | .cap => .genesis
  | .first | .turn | .send 0 => .first
  | .send (i+1) | .take i => .take i

def balance : Label → Amount
  | .genesis => allOnes 128
  | .fund => allOnes 128-5
  | .toll | .cap => allOnes 128-6
  | .first => 5
  | .turn | .take _ => 4
  | .send _ => 0

def link : Label → Link
  | .fund => acct 1
  | .send i => acct (i+2)
  | x => (x.source.map (fun y => BitVec.ofNat 256 (code y))).getD 0

def layout (m : ℕ) : Row Label where
  first := .genesis
  next := next
  Within := Label.Within m
  code := code
  previous := previous
  received := received
  source := Label.source
  opening := opening
  owner x := acct x.owner
  height := Label.height
  balance := balance
  link := link

abbrev key (x : Label) : BlockHash := BitVec.ofNat 256 (code x)

abbrev blocks (m : ℕ) : Set Hashables := (layout m).blocks

variable {m : ℕ} {x y : Label} {j : ℕ}

theorem code_inj (h : code x = code y) : x = y := by
  cases x <;> cases y <;> simp only [code] at h <;> first | rfl | omega | (congr 1; omega)

theorem code_lt (hm : m ≤ 2^32) (hx : x.Within m) : code x < 2^64 := by
  cases x <;> simp only [code,Label.Within] at hx ⊢ <;> omega

theorem code_next : code y < code (next x) ↔ code y ≤ code x := by
  cases x <;> cases y <;> simp only [code,next] <;> omega

theorem within_of_code (hx : x.Within m) (h : code y ≤ code x) : y.Within m := by
  cases x <;> cases y <;> simp only [code,Label.Within] at h hx ⊢ <;> omega

theorem code_le (hx : x.Within m) : code x ≤ code (.take m) := by
  cases x <;> simp only [code,Label.Within] at hx ⊢ <;> omega

theorem owner_le (hx : x.Within m) : x.owner ≤ m+2 := by
  rcases x with _ | _ | _ | _ | _ | _ | (_ | i) | i <;>
    simp only [Label.owner,Label.Within] at hx ⊢ <;> omega

theorem code_ne_address (x : Label) (hj : j ≤ 2^32+2) : code x ≠ address j := by
  rcases j with _ | _ | j <;> cases x <;> simp only [code,address] <;> omega

theorem acct_toNat (hj : j ≤ 2^32+2) : (acct j).toNat = address j := by
  rw [acct,toNat_ofNat]
  refine mod_eq_of_lt (lt_trans (b := 2^64) ?_ (by decide))
  rcases j with _ | _ | j <;> simp only [address] <;> omega

theorem acct_inj {i : ℕ} (hi : i ≤ 2^32+2) (hj : j ≤ 2^32+2) (h : acct i = acct j) : i = j := by
  have heq : address i = address j := by rw [← acct_toNat hi,← acct_toNat hj,h]
  rcases i with _ | _ | i <;> rcases j with _ | _ | j <;> simp only [address] at heq <;> omega

theorem opening_owner (h : previous x = none) (hlt : code y < code x) : y.owner ≠ x.owner := by
  intro ho
  rcases x with _ | _ | _ | _ | _ | _ | (_ | i) | i <;> cases h <;>
    rcases y with _ | _ | _ | _ | _ | _ | (_ | j) | j <;>
    simp only [code,Label.owner] at hlt ho <;> omega

theorem code_ge (x : Label) : 2 ≤ code x := by
  cases x <;> simp only [code] <;> omega

theorem acct_ne_key (hm : m ≤ 2^32) (hx : x.Within m) (hj : j ≤ 2^32+2) : acct j ≠ key x := by
  intro h
  apply code_ne_address x hj
  rw [← acct_toNat hj,h,toNat_ofNat,mod_eq_of_lt ((code_lt hm hx).trans (by decide))]

def before (x : Label) : Amount := ((previous x).map balance).getD 0

theorem received_covered (h : received x = some y) : balance y < before y ∧
    (balance x).toNat = (before x).toNat+(difference (balance y) (before y)).toNat := by
  rcases x with _ | _ | _ | _ | _ | _ | i | (_ | i) <;> cases h <;>
    simp only [balance,before,previous,Option.map_some,Option.map_none] <;> decide

theorem sends_or_keeps (hne : x ≠ .genesis) (hr : received x = none) :
    balance x < before x ∨ link x = 0 ∧ balance x = before x := by
  rcases x with _ | _ | _ | _ | _ | _ | (_ | i) | i <;> cases hr
  · exact absurd rfl hne
  case cap => exact .inr ⟨rfl,rfl⟩
  all_goals
    left
    simp only [balance,before,previous,Option.map_some]
    decide

theorem lawful (hm : m ≤ 2^32) : Lawful (layout m) where
  start := by
    refine ⟨trivial,rfl,?_⟩
    rw [Row.node,genesisNode,Node.mk.injEq]
    have hall : difference (BitVec.allOnes 128) 0 = BitVec.allOnes 128 := by decide
    exact ⟨rfl,rfl,rfl,hall,rfl,rfl,rfl,rfl,rfl,rfl⟩
  inj := code_inj
  ge := code_ge
  lt := code_lt hm
  next := code_next
  within := within_of_code
  owned {x} hx h := by
    have hown := owner_le hx
    have heq := acct_toNat (j := x.owner) (by omega)
    rw [show acct x.owner = 0 from h] at heq
    rcases hx' : x.owner with _ | _ | j <;> rw [hx'] at heq <;> simp [address] at heq
  follows {x y} h := by
    rcases x with _ | _ | _ | _ | _ | _ | (_ | i) | i <;> cases h <;>
      refine ⟨?_,rfl,rfl,rfl⟩ <;> simp only [layout,code] <;> omega
  opens {x} hx hne h := by
    have hown := owner_le hx
    refine ⟨?_,?_,?_,?_,fun y hlt ha => ?_⟩
    · change code x = (acct x.owner).toNat+2^40
      rw [acct_toNat (by omega)]
      rcases x with _ | _ | _ | _ | _ | _ | (_ | i) | i <;> cases h
      · exact absurd rfl hne
      · rfl
      · rfl
    · rcases x with _ | _ | _ | _ | _ | _ | (_ | i) | i <;> cases h <;> rfl
    · rcases x with _ | _ | _ | _ | _ | _ | (_ | i) | i <;> cases h <;> rfl
    · rcases x with _ | _ | _ | _ | _ | _ | (_ | i) | i <;> cases h
      · exact absurd rfl hne
      · rintro ⟨⟩
      · rintro ⟨⟩
    · have howny := owner_le (within_of_code hx hlt.le)
      exact opening_owner h hlt (acct_inj (by omega) (by omega) ha)
  receives {x y} h := by
    obtain ⟨hlt,hbal⟩ := received_covered h
    cases x <;> cases h <;> exact ⟨rfl,rfl,hlt,rfl,hbal⟩
  once {x y z} hx hy := by cases x <;> cases hx <;> cases y <;> cases hy <;> rfl
  keeps {x} hne hr hlt := by
    rcases sends_or_keeps hne hr with h | h
    · exact absurd h hlt
    · exact h
  sourced {x y} h := by
    cases x <;> cases h <;> refine ⟨by rintro ⟨⟩,rfl,?_⟩ <;> simp only [layout,code] <;> omega
  unsourced {x y} hx hy h h0 := by
    cases x <;> cases h
    · exact absurd rfl h0
    · exact acct_ne_key hm hy (by omega)
    · exact absurd rfl h0
    · exact acct_ne_key hm hy (Nat.add_le_add_right (le_trans hx hm) 2)

variable {i : ℕ} (hm : m ≤ 2^32) {X : Nodes} {L : Ledger}

theorem placed_next (h : ∃ L X, Placed (lawful hm) x L X) (hz : (next x).Within m) :
    ∃ L X, Placed (lawful hm) (next x) L X := by
  obtain ⟨L,X,h⟩ := h
  obtain ⟨-,-,L',-,-,-,h'⟩ := h.next hz
  exact ⟨L',_,h'⟩

/-- The whole layout can be placed. -/
theorem placed_take (hi : i ≤ m) : ∃ L X, Placed (lawful hm) (.take i) L X := by
  induction i with
  | zero =>
    have hfund := placed_next hm ⟨_,_,placed_first (lawful hm)⟩ trivial
    have hcap := placed_next hm (placed_next hm hfund trivial) trivial
    have hturn := placed_next hm (placed_next hm hcap trivial) trivial
    exact placed_next hm (placed_next hm hturn hi) hi
  | succ i ih => exact placed_next hm (placed_next hm (ih (le_of_succ_le hi)) hi) hi

theorem placed_laid (h : Placed (lawful hm) (.take m) L X) {F : Forest Account BlockHash}
    (g : Grounds counting F L) : Laid F m key acct := by
  have hlast : (Label.take m).Within m := le_refl m
  have hread := fun y hy => h.record g hlast (y := y) (code_le hy)
  refine ⟨fun b => ?_,fun y hy => (hread y hy).1,fun y hy => (hread y hy).2.1,
    fun y hy => (hread y hy).2.2,fun y z hy hz => ?_⟩
  · rw [h.reads g]
    constructor
    · rintro ⟨y,hy,rfl⟩
      exact ⟨y,within_of_code hlast hy,rfl⟩
    · rintro ⟨y,hy,rfl⟩
      exact ⟨y,code_le hy,rfl⟩
  · have hoy := owner_le hy
    have hoz := owner_le hz
    exact acct_inj (by omega) (by omega)

def depth : ℕ := Bounded.maxItems-3

theorem depth_le : depth ≤ 2^32 := by decide

theorem deep_endless : ∃ L, Reachable counting (blocks depth) L ∧
    L.blocks.contains (key (.take depth)) = true ∧ ∀ fuel, 5 ≤ fuel → ∀ env size,
      Bounded.walk counting env fuel Bounded.maxItems (Bounded.fresh L size) (key (.take depth)) =
        none := by
  obtain ⟨L,X,h⟩ := placed_take depth_le (le_refl depth)
  obtain ⟨F,g⟩ := reachable_grounds (lawful depth_le).sound (lawful depth_le).grounded h.reachable
  have l := placed_laid depth_le h g
  refine ⟨L,h.reachable,g.contains.mpr (l.mem_key (le_refl depth)),?_⟩
  intro fuel hfuel env size
  refine l.walk_endless rfl env g.backed (bounded_start g) hfuel ?_ fun j => ?_
  · rw [h.cemented,if_pos (show acct 0 = 1 from rfl)]
  · have hne : acct (j+1) ≠ 1 := by
      intro e
      have hnat := congrArg BitVec.toNat e
      rw [acct,toNat_ofNat,show (1 : Account).toNat = 1 from rfl] at hnat
      cases j <;> simp only [address] at hnat <;> omega
    rw [h.cemented,if_neg hne]

end Vxldollar.DeepLedger
