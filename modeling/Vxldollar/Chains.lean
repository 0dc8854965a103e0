import Vxldollar.Lattice

/-!
# Chains of a built lattice

In a lattice built from genesis every account has one chain: one opening
block, at most one successor to each block, one head. A send is received at
most once, and no block precedes itself.
-/

namespace Vxldollar.Chains
open Blocks Vxldollar.Lattice

variable {C : Constants} {U : Set Hashables} {X : Nodes} {h g k : BlockHash} {n m : Node}

def Head (X : Nodes) (h : BlockHash) (n : Node) : Prop :=
  X h = some n ∧ ∀ g m, X g = some m → m.previous ≠ h

def Unreceived (X : Nodes) (h : BlockHash) (n : Node) (destination : Account) : Prop :=
  X h = some n ∧ n.move = .send destination ∧ ∀ g m, X g = some m → m.move ≠ .receive h

abbrev Built (S : HashSound C U) (X : Nodes) : Prop := Causal.Built (rules S) X

abbrev add (X : Nodes) (k : BlockHash) (n : Node) : Nodes := Function.update X k (some n)

theorem add_eq_some (hk : X k = none) : add X k n g = some m ↔
    (g = k ∧ m = n) ∨ X g = some m := by
  by_cases e : g = k
  · subst e
    simp [hk,eq_comm]
  · simp [e]

theorem add_new : add X k n k = some n := Function.update_self ..

theorem add_old (hk : X k = none) (hX : X g = some m) : add X k n g = some m :=
  (add_eq_some hk).mpr (.inr hX)

section
variable (hj : Justified C U X k n)
include hj

theorem justified_balance : n.balance = balanceOf n.hashables
    (previousBalance (X n.previous)) (((n.move.source.bind X).map Node.amount).getD 0) :=
  congrArg Node.balance hj.node_eq

theorem justified_amount :
    n.amount = difference n.balance (previousBalance (X n.previous)) := by
  conv_lhs => rw [congrArg Node.amount hj.node_eq]
  conv_rhs => rw [justified_balance hj]
  rfl

theorem justified_move :
    n.move = moveOf C n.hashables (previousBalance (X n.previous)) :=
  congrArg Node.move hj.node_eq

theorem justified_account : n.account =
    accountOf n.hashables (((X n.previous).map Node.account).getD 0) :=
  congrArg Node.account hj.node_eq

theorem justified_height :
    n.height = ((X n.previous).map Node.height).getD 0+1 :=
  congrArg Node.height hj.node_eq

theorem justified_openBlock :
    n.openBlock = ((X n.previous).map Node.openBlock).getD k :=
  congrArg Node.openBlock hj.node_eq

theorem justified_representative : n.representative =
    representativeOf n.hashables (((X n.previous).map Node.representative).getD 0) :=
  congrArg Node.representative hj.node_eq

theorem justified_epoch : n.epoch =
    epochOf C n.hashables n.move (((X n.previous).map Node.epoch).getD .epoch0)
      (((n.move.source.bind X).map Node.epoch).getD .epoch0) := by
  conv_lhs => rw [congrArg Node.epoch hj.node_eq]
  conv_rhs => rw [justified_move hj]
  simp only [build]
  rw [← justified_move hj]

theorem justified_sourceEpoch : n.sourceEpoch =
    sourceEpochOf n.hashables n.move (((n.move.source.bind X).map Node.epoch).getD .epoch0) := by
  conv_lhs => rw [congrArg Node.sourceEpoch hj.node_eq]
  simp only [build]
  rw [← justified_move hj]

theorem justified_legacy_epoch (hl : n.legacy) : n.epoch = .epoch0 := by
  rw [justified_epoch hj]
  unfold epochOf
  unfold Node.legacy at hl
  cases hh : n.hashables with
  | state s =>
    rw [hh] at hl
    exact absurd rfl hl
  | _ => rfl

end

variable {S : HashSound C U}

theorem seed_eq_some : Function.update (fun _ => none) (rules S).seedKey
    (some (rules S).seedNode) h = some n ↔ h = C.genesisHash ∧ n = genesisNode C := by
  change Function.update (fun _ => none) C.genesisHash (some (genesisNode C)) h = some n ↔ _
  by_cases e : h = C.genesisHash
  · simp [e,eq_comm]
  · simp [e]

theorem admits_previous_ne (S : HashSound C U) (ha : Admits C U X k n) (hk : X k = none) :
    n.previous ≠ k := by
  intro e
  obtain ⟨p,hp,-⟩ := ha.following (e ▸ ha.key_ne_zero S)
  simp [e,hk] at hp

theorem admits_source_ne (ha : Admits C U X k n) (hk : X k = none) : n.move ≠ .receive k := by
  intro e
  obtain ⟨p,hp⟩ := ha.dep_present (.inr e)
  simp [hk] at hp

section
variable (hb : Built S X) {x y : Node} {a b : BlockHash}
include hb

theorem built_justified (hX : X h = some n) :
    (h = C.genesisHash ∧ n = genesisNode C) ∨ Justified C U X h n := by
  induction hb with
  | seed => exact .inl (seed_eq_some.mp hX)
  | @add Y k m hY hk ha ih =>
    have hkeep : ∀ {a b}, Justified C U Y a b → Justified C U (add Y k m) a b := by
      intro a b hj
      refine hj.update ?_ (ha.key_ne_zero S) _
      intro hd
      obtain ⟨c,hc⟩ := hj.dep_present hd
      rw [hk] at hc
      cases hc
    rcases (add_eq_some hk).mp hX with ⟨rfl,rfl⟩ | hY'
    · exact .inr (hkeep ha.toJustified)
    · exact (ih hY').imp_right hkeep

theorem built_genesis : X C.genesisHash = some (genesisNode C) := by
  induction hb with
  | seed => exact seed_eq_some.mpr ⟨rfl,rfl⟩
  | add _ hk _ ih => exact add_old hk ih

theorem built_hash (hX : X h = some n) : C.hash n.hashables = h ∧
    n.hashables ∈ U := by
  rcases built_justified hb hX with ⟨rfl,rfl⟩ | hj
  · exact ⟨rfl,S.genesis_mem⟩
  · exact ⟨hj.hash_eq,hj.mem⟩

theorem built_key_ne_zero (hX : X h = some n) : h ≠ 0 := by
  obtain ⟨rfl,hm⟩ := built_hash hb hX
  exact S.ne_zero _ hm

theorem built_zero : X 0 = none := by
  by_contra h
  obtain ⟨n,hn⟩ := Option.ne_none_iff_exists'.mp h
  exact built_key_ne_zero hb hn rfl

section
variable (hX : X h = some n)
include hX

theorem built_account_ne_zero : n.account ≠ 0 := by
  rcases built_justified hb hX with ⟨-,rfl⟩ | hj
  · exact C.genesisAccount_ne_zero
  · exact hj.account_ne_zero

theorem built_following (hp : n.previous ≠ 0) :
    ∃ p, X n.previous = some p ∧ p.account = n.account ∧ (n.legacy → p.legacy) ∧
      n.height = p.height+1 ∧ n.openBlock = p.openBlock := by
  rcases built_justified hb hX with ⟨-,rfl⟩ | hj
  · exact absurd rfl hp
  · obtain ⟨p,hp',hacc,hl⟩ := hj.following hp
    refine ⟨p,hp',hacc,hl,?_,?_⟩
    · simp [justified_height hj,hp']
    · simp [justified_openBlock hj,hp']

theorem built_opening (hp : n.previous = 0) :
    n.height = 1 ∧ n.openBlock = h := by
  rcases built_justified hb hX with ⟨rfl,rfl⟩ | hj
  · exact ⟨rfl,rfl⟩
  · rw [justified_height hj,justified_openBlock hj,hp,built_zero hb]
    exact ⟨rfl,rfl⟩

theorem built_source {s : BlockHash} (hs : n.move = .receive s) :
    ∃ m, X s = some m ∧ m.move = .send n.account ∧
      n.balance.toNat = (previousBalance (X n.previous)).toNat+m.amount.toNat ∧
      (n.legacy → m.epoch = .epoch0) := by
  rcases built_justified hb hX with ⟨-,rfl⟩ | hj
  · cases hs
  · have hc := hj.covered
    unfold Covered at hc
    rwa [hs] at hc

theorem built_legacy_epoch (hl : n.legacy) : n.epoch = .epoch0 := by
  rcases built_justified hb hX with ⟨-,rfl⟩ | hj
  · rfl
  · exact justified_legacy_epoch hj hl

end

/-- Blocks are unique with respect to what a new block may not share with an
earlier one. -/
theorem built_unique {R : Node → Node → Prop} (hR : ∀ x y, R x y → R y x)
    (hnew : ∀ {Y k n}, Admits C U Y k n → ∀ c z, Y c = some z → ¬ R n z)
    (ha : X a = some x) (hb' : X b = some y) (h : R x y) : a = b := by
  induction hb with
  | seed => exact (seed_eq_some.mp ha).1.trans (seed_eq_some.mp hb').1.symm
  | @add Y k m hY hk hadm ih =>
    rcases (add_eq_some hk).mp ha with ⟨rfl,rfl⟩ | ha'
    · rcases (add_eq_some hk).mp hb' with ⟨rfl,rfl⟩ | hb''
      · rfl
      · exact absurd h (hnew hadm b y hb'')
    · rcases (add_eq_some hk).mp hb' with ⟨rfl,rfl⟩ | hb''
      · exact absurd (hR _ _ h) (hnew hadm a x ha')
      · exact ih ha' hb''

theorem one_successor (ha : X a = some x) (hb' : X b = some y) (he : x.previous = y.previous)
    (h0 : x.previous ≠ 0) : a = b :=
  built_unique hb (R := fun x y => x.previous = y.previous ∧ x.previous ≠ 0)
    (fun _ _ h => ⟨h.1.symm,h.1 ▸ h.2⟩) (fun hadm c z hz h => hadm.head h.2 c z hz h.1.symm)
    ha hb' ⟨he,h0⟩

theorem one_opening (ha : X a = some x) (hb' : X b = some y) (he : x.account = y.account)
    (hx : x.previous = 0) (hy : y.previous = 0) : a = b :=
  built_unique hb (R := fun x y => x.account = y.account ∧ x.previous = 0 ∧ y.previous = 0)
    (fun _ _ h => ⟨h.1.symm,h.2.2,h.2.1⟩)
    (fun hadm c z hz h => hadm.unopened h.2.1 c z hz h.1.symm) ha hb' ⟨he,hx,hy⟩

theorem received_once {a b s : BlockHash} (ha : X a = some x) (hb' : X b = some y)
    (hx : x.move = .receive s) (hy : y.move = .receive s) : a = b :=
  built_unique hb (R := fun x y => x.move = .receive s ∧ y.move = .receive s)
    (fun _ _ h => h.symm) (fun hadm c z hz h => hadm.unreceived s h.1 c z hz h.2) ha hb' ⟨hx,hy⟩

variable (hk : X k = none) (ha : Admits C U X k n)
include hk ha

theorem fresh_dep (hX : X g = some m) :
    m.previous ≠ k ∧ m.move ≠ .receive k := by
  have hdep : k ∉ deps m := by
    intro hd
    obtain ⟨x,hx⟩ := Causal.Built.deps_present hb hX hd
    simp [hk] at hx
  exact ⟨fun e => hdep (.inl ⟨e.symm,ha.key_ne_zero S⟩),fun e => hdep (.inr e)⟩

theorem head_add :
    Head (add X k n) h m ↔ (h = k ∧ m = n) ∨ (Head X h m ∧ h ≠ n.previous) := by
  constructor
  · rintro ⟨hX,hmax⟩
    rcases (add_eq_some hk).mp hX with e | hX'
    · exact .inl e
    · refine .inr ⟨⟨hX',fun g b hg => hmax g b (add_old hk hg)⟩,?_⟩
      exact fun e => hmax k n add_new e.symm
  · rintro (⟨rfl,rfl⟩ | ⟨⟨hX,hmax⟩,hne⟩)
    · refine ⟨add_new,?_⟩
      intro g b hg
      rcases (add_eq_some hk).mp hg with ⟨rfl,rfl⟩ | hg'
      · exact admits_previous_ne S ha hk
      · exact (fresh_dep hb hk ha hg').1
    · refine ⟨add_old hk hX,?_⟩
      intro g b hg
      rcases (add_eq_some hk).mp hg with ⟨rfl,rfl⟩ | hg'
      · exact fun e => hne e.symm
      · exact hmax g b hg'

theorem unreceived_add (d : Account) :
    Unreceived (add X k n) h m d ↔ (h = k ∧ m = n ∧ n.move = .send d) ∨
      (Unreceived X h m d ∧ n.move ≠ .receive h) := by
  constructor
  · rintro ⟨hX,hs,hmax⟩
    rcases (add_eq_some hk).mp hX with ⟨rfl,rfl⟩ | hX'
    · exact .inl ⟨rfl,rfl,hs⟩
    · refine .inr ⟨⟨hX',hs,fun g b hg => hmax g b (add_old hk hg)⟩,?_⟩
      exact hmax k n add_new
  · rintro (⟨rfl,rfl,hs⟩ | ⟨⟨hX,hs,hmax⟩,hne⟩)
    · refine ⟨add_new,hs,?_⟩
      intro g b hg
      rcases (add_eq_some hk).mp hg with ⟨rfl,rfl⟩ | hg'
      · exact admits_source_ne ha hk
      · exact (fresh_dep hb hk ha hg').2
    · refine ⟨add_old hk hX,hs,?_⟩
      intro g b hg
      rcases (add_eq_some hk).mp hg with ⟨rfl,rfl⟩ | hg'
      · exact hne
      · exact hmax g b hg'

end

theorem head_unique (hb : Built S X) {a b : BlockHash} {x y : Node} (ha : Head X a x)
    (hb' : Head X b y) (he : x.account = y.account) : a = b := by
  induction hb generalizing a b x y with
  | seed => exact (seed_eq_some.mp ha.1).1.trans (seed_eq_some.mp hb'.1).1.symm
  | @add Y k m hY hk hadm ih =>
    -- an old head in the new node's account could only be its predecessor
    have key : ∀ c z, Head Y c z → c ≠ m.previous → z.account ≠ m.account := by
      intro c z hc hcm hacc
      by_cases hp : m.previous = 0
      · exact hadm.unopened hp c z hc.1 hacc
      · obtain ⟨p,hp',hpa,-⟩ := hadm.following hp
        exact hcm (ih hc ⟨hp',hadm.head hp⟩ (hacc.trans hpa.symm))
    rcases (head_add hY hk hadm).mp ha with ⟨rfl,rfl⟩ | ⟨ha',hne⟩
    · rcases (head_add hY hk hadm).mp hb' with ⟨rfl,rfl⟩ | ⟨hb'',hne'⟩
      · rfl
      · exact absurd he.symm (key b y hb'' hne')
    · rcases (head_add hY hk hadm).mp hb' with ⟨rfl,rfl⟩ | ⟨hb'',hne'⟩
      · exact absurd he (key a x ha' hne)
      · exact ih ha' hb'' he

theorem head_exists (hb : Built S X) (hX : X h = some n) : ∃ g m, Head X g m ∧
    m.account = n.account ∧ g ∈ Causal.dependents (rules S) X h := by
  induction hb generalizing h n with
  | seed =>
    refine ⟨h,n,⟨hX,?_⟩,rfl,Relation.ReflTransGen.refl⟩
    obtain ⟨rfl,-⟩ := seed_eq_some.mp hX
    intro g m hg
    obtain ⟨-,rfl⟩ := seed_eq_some.mp hg
    exact (S.ne_zero _ S.genesis_mem).symm
  | @add Y k m hY hk hadm ih =>
    have hself : add Y k m k = some m := add_new
    have hkhead : Head (add Y k m) k m := (head_add hY hk hadm).mpr (.inl ⟨rfl,rfl⟩)
    rcases (add_eq_some hk).mp hX with ⟨rfl,rfl⟩ | hX'
    · exact ⟨h,n,hkhead,rfl,Relation.ReflTransGen.refl⟩
    · obtain ⟨g,x,hg,hacc,hdep⟩ := ih hX'
      have hdep' : g ∈ Causal.dependents (rules S) (add Y k m) h := by
        refine Relation.ReflTransGen.mono ?_ _ _ hdep
        rintro a b ⟨c,hc,hmem⟩
        exact ⟨c,add_old hk hc,hmem⟩
      by_cases e : g = m.previous
      · have hp0 : m.previous ≠ 0 := e ▸ built_key_ne_zero hY hg.1
        obtain ⟨p,hp,hpa,-⟩ := hadm.following hp0
        obtain rfl : x = p := by
          rw [← e] at hp
          exact Option.some.inj (hg.1.symm.trans hp)
        exact ⟨k,m,hkhead,hpa.symm.trans hacc,
          hdep'.tail ⟨m,hself,e ▸ previous_dep hp0⟩⟩
      · exact ⟨g,x,(head_add hY hk hadm).mpr (.inr ⟨hg,e⟩),hacc,hdep'⟩

end Vxldollar.Chains
