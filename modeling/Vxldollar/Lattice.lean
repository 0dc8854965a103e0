import Vxldollar.Store
import Vxldollar.Library.Causal

/-!
# The block lattice

What the ledger is for, without tables: a set of blocks in which every block
extends its account's chain and moves an amount. The node of a block holds
everything that follows from the block, its predecessor and its source. A
lattice is what can be built from the genesis node by admitting one node at a
time.
-/

namespace Vxldollar.Lattice
open Blocks Function

/-- What is assumed of the hash on the hashed fields that a run uses: no
collisions, and no hash that the code reads as something else. -/
structure HashSound (C : Constants) (U : Set Hashables) : Prop where
  injective : ∀ a ∈ U, ∀ b ∈ U, C.hash a = C.hash b → a = b
  ne_zero : ∀ a ∈ U, C.hash a ≠ 0
  ne_epoch : ∀ a ∈ U, C.isEpochLink (C.hash a) = false
  ne_genesis : ∀ a ∈ U, C.hash a ≠ C.genesisAccount
  genesis_mem : C.genesis.hashables ∈ U

theorem HashSound.of_forall {C : Constants} {U : Set Hashables}
    (hinj : ∀ a ∈ U, ∀ b ∈ U, C.hash a = C.hash b → a = b)
    (h : ∀ a ∈ U, C.hash a ≠ 0 ∧ C.isEpochLink (C.hash a) = false ∧ C.hash a ≠ C.genesisAccount)
    (hg : C.genesis.hashables ∈ U) : HashSound C U :=
  ⟨hinj,fun a ha => (h a ha).1,fun a ha => (h a ha).2.1,fun a ha => (h a ha).2.2,hg⟩

inductive Move where
  | send (destination : Account)
  | receive (source : BlockHash)
  | keep
  | upgrade
  deriving DecidableEq

namespace Move

def source : Move → Option BlockHash
  | .receive s => some s
  | _ => none

def details (epoch : Epoch) : Move → BlockDetails
  | .send _ => ⟨epoch,true,false,false⟩
  | .receive _ => ⟨epoch,false,true,false⟩
  | .keep => ⟨epoch,false,false,false⟩
  | .upgrade => ⟨epoch,false,false,true⟩

end Move

structure Node where
  hashables : Hashables
  account : Account
  balance : Amount
  amount : Amount
  height : ℕ
  representative : Account
  openBlock : BlockHash
  epoch : Epoch
  move : Move
  sourceEpoch : Epoch
  deriving DecidableEq

abbrev Nodes := BlockHash → Option Node

namespace Node

abbrev previous (n : Node) : BlockHash := n.hashables.previous

def legacy (n : Node) : Prop := n.hashables.type ≠ .state

instance (n : Node) : Decidable n.legacy := inferInstanceAs (Decidable (_ ≠ _))

def sideband (n : Node) (successor : BlockHash) (timestamp : ℕ) : Sideband :=
  Sideband.stored n.hashables.type ⟨successor,n.account,n.balance,n.height,timestamp,
    n.move.details n.epoch,n.sourceEpoch⟩

end Node

section
variable (C : Constants)

/-- A state block spends when its balance falls; otherwise its link says what
it does. -/
def moveOf (hs : Hashables) (previousBalance : Amount) : Move := match hs with
  | .send h => .send h.destination
  | .receive h => .receive h.source
  | .open_ h => .receive h.source
  | .change _ => .keep
  | .state h =>
    if h.balance < previousBalance then .send h.link
    else if h.link = 0 then .keep
    else if C.isEpochLink h.link then .upgrade
    else .receive h.link

def accountOf (hs : Hashables) (previousAccount : Account) : Account := match hs with
  | .open_ h => h.account
  | .state h => h.account
  | _ => previousAccount

def balanceOf (hs : Hashables) (previousBalance sourceAmount : Amount) : Amount := match hs with
  | .send h => h.balance
  | .receive _ | .open_ _ => previousBalance+sourceAmount
  | .change _ => previousBalance
  | .state h => h.balance

def epochOf (hs : Hashables) (move : Move) (previousEpoch sourceEpoch : Epoch) : Epoch :=
  match hs with
  | .state h => match move with
    | .receive _ => previousEpoch.max sourceEpoch
    | .upgrade => (C.epochOfLink h.link).getD .epoch0
    | _ => previousEpoch
  | _ => .epoch0

def sourceEpochOf (hs : Hashables) (move : Move) (sourceEpoch : Epoch) : Epoch :=
  match hs,move with
  | .state _,.receive _ => sourceEpoch
  | _,_ => .epoch0

def representativeOf (hs : Hashables) (previousRepresentative : Account) : Account :=
  match hs with
  | .send _ | .receive _ => previousRepresentative
  | _ => hs.representative

def difference (a b : Amount) : Amount := if a > b then a-b else b-a

variable (hash : BlockHash) (hs : Hashables) (p s : Option Node)

def previousBalance : Amount := (p.map Node.balance).getD 0

def build : Node :=
  let before := previousBalance p
  let move := moveOf C hs before
  let sourceEpoch := (s.map Node.epoch).getD .epoch0
  let balance := balanceOf hs before ((s.map Node.amount).getD 0)
  { hashables := hs
    account := accountOf hs ((p.map Node.account).getD 0)
    balance := balance
    amount := difference balance before
    height := (p.map Node.height).getD 0+1
    representative := representativeOf hs ((p.map Node.representative).getD 0)
    openBlock := (p.map Node.openBlock).getD hash
    epoch := epochOf C hs move ((p.map Node.epoch).getD .epoch0) sourceEpoch
    move := move
    sourceEpoch := sourceEpochOf hs move sourceEpoch }

end

section
variable (C : Constants) (U : Set Hashables)

/-- The transfer a node makes is covered: a send spends what is there, a
receive takes an amount sent to its account, anything else keeps the
balance. -/
def Covered (X : Nodes) (n : Node) : Prop := match n.move with
  | .send _ => n.balance ≤ previousBalance (X n.previous)
  | .receive s => ∃ m, X s = some m ∧ m.move = .send n.account ∧
      n.balance.toNat = (previousBalance (X n.previous)).toNat+m.amount.toNat ∧
      (n.legacy → m.epoch = .epoch0)
  | _ => n.balance = previousBalance (X n.previous)

structure Justified (X : Nodes) (hash : BlockHash) (n : Node) : Prop where
  mem : n.hashables ∈ U
  hash_eq : C.hash n.hashables = hash
  account_ne_zero : n.account ≠ 0
  node_eq : n = build C hash n.hashables (X n.previous) (n.move.source.bind X)
  opening : n.previous = 0 → n.hashables.type = .open_ ∨ n.hashables.type = .state
  following : n.previous ≠ 0 → ∃ p, X n.previous = some p ∧ p.account = n.account ∧
    (n.legacy → p.legacy)
  covered : Covered X n

structure Admits (X : Nodes) (hash : BlockHash) (n : Node) : Prop
    extends Justified C U X hash n where
  unopened : n.previous = 0 → ∀ g m, X g = some m → m.account ≠ n.account
  head : n.previous ≠ 0 → ∀ g m, X g = some m → m.previous ≠ n.previous
  unreceived : ∀ s, n.move = .receive s → ∀ g m, X g = some m → m.move ≠ .receive s

def deps (n : Node) : Set BlockHash := {d | (d = n.previous ∧ d ≠ 0) ∨ n.move = .receive d}

def genesisNode : Node where
  hashables := C.genesis.hashables
  account := C.genesisAccount
  balance := Constants.genesisAmount
  amount := Constants.genesisAmount
  height := 1
  representative := C.genesisAccount
  openBlock := C.genesisHash
  epoch := .epoch0
  move := .keep
  sourceEpoch := .epoch0

end

variable {C : Constants} {U : Set Hashables} {X Y : Nodes} {hash g d : BlockHash} {n m : Node}

theorem Justified.blockHash (h : Justified C U X hash n) {b : Block}
    (hb : b.hashables = n.hashables) : C.blockHash b = hash := by
  rw [Constants.blockHash,hb,h.hash_eq]

theorem Justified.congr (h : Justified C U X hash n) (hp : X n.previous = Y n.previous)
    (hs : n.move.source.bind X = n.move.source.bind Y) : Justified C U Y hash n where
  mem := h.mem
  hash_eq := h.hash_eq
  account_ne_zero := h.account_ne_zero
  node_eq := by
    rw [← hp,← hs]
    exact h.node_eq
  opening := h.opening
  following := by
    rw [← hp]
    exact h.following
  covered := by
    have hc := h.covered
    unfold Covered at hc ⊢
    rw [← hp]
    cases hm : n.move with
    | receive s =>
      rw [hm] at hs hc
      simp only [Move.source,Option.bind_some] at hs
      simpa [← hs] using hc
    | _ => simpa [hm] using hc

theorem previous_dep (h : n.previous ≠ 0) : n.previous ∈ deps n := .inl ⟨rfl,h⟩

theorem Justified.dep_present (h : Justified C U X hash n) (hd : d ∈ deps n) :
    ∃ m, X d = some m := by
  rcases hd with ⟨rfl,h0⟩ | hm
  · obtain ⟨p,hp,-⟩ := h.following h0
    exact ⟨p,hp⟩
  · have hc := h.covered
    unfold Covered at hc
    rw [hm] at hc
    obtain ⟨m,hX,-⟩ := hc
    exact ⟨m,hX⟩

theorem Justified.update (h : Justified C U X hash n) (hg : g ∉ deps n) (h0 : g ≠ 0)
    (v : Option Node) : Justified C U (update X g v) hash n := by
  refine h.congr ?_ ?_
  · rw [update_of_ne]
    intro e
    exact hg (e ▸ previous_dep (e ▸ h0))
  · cases hm : n.move with
    | receive s =>
      have hs : s ≠ g := by
        rintro rfl
        exact hg (.inr hm)
      simp [Move.source,update_of_ne hs]
    | _ => rfl

theorem Justified.of_update (h : Justified C U (Function.update X g (some m)) hash n)
    (hX : X g = none) (hg : g ∉ deps n) (h0 : g ≠ 0) : Justified C U X hash n := by
  have h' := h.update hg h0 none
  rwa [update_idem,← hX,update_eq_self] at h'

theorem Justified.key_ne_zero (S : HashSound C U) (h : Justified C U X hash n) : hash ≠ 0 := by
  rw [← h.hash_eq]
  exact S.ne_zero _ h.mem

/-- Independent admissions commute. -/
theorem admits_commute (S : HashSound C U) (hk : Admits C U X hash n) (hX : X hash = none)
    (hg : Admits C U (Function.update X hash (some n)) g m) (hgX : X g = none) (hne : g ≠ hash)
    (hd : hash ∉ deps m) :
    Admits C U X g m ∧ Admits C U (Function.update X g (some m)) hash n := by
  have h0 : hash ≠ 0 := hk.key_ne_zero S
  have hg0 : g ≠ 0 := hg.key_ne_zero S
  have hself : update X hash (some n) hash = some n := update_self ..
  have hold : ∀ a b, X a = some b → update X hash (some n) a = some b := by
    intro a b hab
    rw [update_of_ne ?_,hab]
    rintro rfl
    simp [hX] at hab
  have hgn : g ∉ deps n := by
    intro hmem
    obtain ⟨a,ha⟩ := hk.dep_present hmem
    simp [hgX] at ha
  have hjm : Justified C U X g m := hg.toJustified.of_update hX hd h0
  refine ⟨⟨hjm,?_,?_,?_⟩,⟨hk.toJustified.update hgn hg0 _,?_,?_,?_⟩⟩
  · exact fun hp a b hab => hg.unopened hp a b (hold a b hab)
  · exact fun hp a b hab => hg.head hp a b (hold a b hab)
  · exact fun s hs a b hab => hg.unreceived s hs a b (hold a b hab)
  · intro hp a b hab
    by_cases e : a = g
    · subst e
      obtain rfl : m = b := by simpa using hab
      by_cases hm0 : m.previous = 0
      · exact fun e => hg.unopened hm0 hash n hself e.symm
      · obtain ⟨p,hp',hacc,-⟩ := hjm.following hm0
        rw [← hacc]
        exact hk.unopened hp _ p hp'
    · rw [update_of_ne e] at hab
      exact hk.unopened hp a b hab
  · intro hp a b hab
    by_cases e : a = g
    · subst e
      obtain rfl : m = b := by simpa using hab
      intro hpm
      exact hg.head (hpm ▸ hp) hash n hself hpm.symm
    · rw [update_of_ne e] at hab
      exact hk.head hp a b hab
  · intro s hs a b hab
    by_cases e : a = g
    · subst e
      obtain rfl : m = b := by simpa using hab
      exact fun hm => hg.unreceived s hm hash n hself hs
    · rw [update_of_ne e] at hab
      exact hk.unreceived s hs a b hab

theorem genesis_deps (C : Constants) (d : BlockHash) : d ∉ deps (genesisNode C) := by
  rintro (⟨h,h0⟩ | h)
  · exact h0 h
  · cases h

def rules (S : HashSound C U) : Causal.Rules BlockHash Node where
  seedKey := C.genesisHash
  seedNode := genesisNode C
  deps := deps
  admits := Admits C U
  seed_deps := genesis_deps C
  deps_present := fun h hd => h.dep_present hd
  commute := fun hk hX hg hgX hne hd => admits_commute S hk hX hg hgX hne hd

end Vxldollar.Lattice
