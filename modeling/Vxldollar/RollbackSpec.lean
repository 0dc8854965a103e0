import Vxldollar.Retractions

/-!
# What a rollback removes

A rollback of a block that is not cemented, and on which nothing cemented
depends, terminates without failing. It removes the block and everything that
depends on it, in an order that never removes a block something still depends
on, and lists each of them once.
-/

namespace Vxldollar.RollbackSpec
open Blocks Store Vxldollar.Lattice Chains Mirror Growth Totals Rollback Retractions Causal Option
  List

variable {C : Constants} {U : Set Hashables} {S : HashSound C U} {X Y : Nodes}
  {L L' L'' : Ledger} {g h : BlockHash} {n m : Node} {T : Set BlockHash} {l l' : RollbackList}
  {r : StoredBlock} {now : ℕ}

/-- The ledger after the removal of a set of blocks, and their list. -/
structure Clears (S : HashSound C U) (L L' : Ledger) (X : Nodes) (T : Set BlockHash)
    (l : RollbackList) : Prop where
  built : Built S (without X T)
  mirrors : Mirrors L' (without X T)
  supply : supply L' = supply L
  confirmationHeight : L'.confirmationHeight = L.confirmationHeight
  cementedCount : L'.cache.cementedCount = L.cache.cementedCount
  once : (l.map (fun r => C.blockHash r.block)).Nodup
  exact_ : ∀ h, h ∈ l.map (fun r => C.blockHash r.block) ↔ h ∈ T
  recorded : ∀ r ∈ l, ∃ r0, L.blocks[C.blockHash r.block]? = some r0 ∧ r0.block = r.block
  kept : ∀ (h : BlockHash) (r : StoredBlock), L'.blocks[h]? = some r →
    ∃ r0, L.blocks[h]? = some r0 ∧ r0.block = r.block
  blockCount : L'.cache.blockCount+l.length = L.cache.blockCount

namespace Clears

theorem nothing (M : Mirrors L X) (hb : Built S X) : Clears S L L X ∅ [] where
  built := by rwa [without_empty]
  mirrors := by rwa [without_empty]
  supply := rfl
  confirmationHeight := rfl
  cementedCount := rfl
  once := nodup_nil
  exact_ := by simp
  recorded := by simp
  kept := fun _ r hr => ⟨r,hr,rfl⟩
  blockCount := rfl

theorem perm (c : Clears S L L' X T l) (hp : l.Perm l') : Clears S L L' X T l' where
  built := c.built
  mirrors := c.mirrors
  supply := c.supply
  confirmationHeight := c.confirmationHeight
  cementedCount := c.cementedCount
  once := (hp.map _).nodup_iff.mp c.once
  exact_ := fun h => (hp.map _).mem_iff.symm.trans (c.exact_ h)
  recorded := fun r hr => c.recorded r (hp.mem_iff.mpr hr)
  kept := c.kept
  blockCount := hp.length_eq ▸ c.blockCount

variable {T' : Set BlockHash}

variable (c : Clears S L L' X T l) (c' : Clears S L' L'' (without X T) T' l')
include c c'

theorem later_fresh (hh : h ∈ T') : h ∉ T := by
  obtain ⟨r,hr,rfl⟩ := mem_map.mp ((c'.exact_ h).mpr hh)
  obtain ⟨r0,hr0,-⟩ := c'.recorded r hr
  obtain ⟨m,hm,-⟩ := c.mirrors.block _ r0 hr0
  exact (without_eq_some.mp hm).1

theorem trans :
    Clears S L L'' X (T ∪ T') (l++l') where
  built := by
    rw [← without_without]
    exact c'.built
  mirrors := by
    rw [← without_without]
    exact c'.mirrors
  supply := c'.supply.trans c.supply
  confirmationHeight := c'.confirmationHeight.trans c.confirmationHeight
  cementedCount := c'.cementedCount.trans c.cementedCount
  once := by
    rw [map_append,nodup_append]
    refine ⟨c.once,c'.once,?_⟩
    rintro a ha b hb rfl
    exact later_fresh c c' ((c'.exact_ a).mp hb) ((c.exact_ a).mp ha)
  exact_ := by
    intro h
    rw [map_append,mem_append,c.exact_,c'.exact_]
    rfl
  recorded := by
    intro r hr
    rcases mem_append.mp hr with hr | hr
    · exact c.recorded r hr
    · obtain ⟨r1,hr1,e1⟩ := c'.recorded r hr
      obtain ⟨r0,hr0,e0⟩ := c.kept _ r1 hr1
      exact ⟨r0,hr0,e0.trans e1⟩
  kept := by
    intro h r hr
    obtain ⟨r1,hr1,e1⟩ := c'.kept h r hr
    obtain ⟨r0,hr0,e0⟩ := c.kept h r1 hr1
    exact ⟨r0,hr0,e0.trans e1⟩
  blockCount := by
    have h1 := c.blockCount
    have h2 := c'.blockCount
    rw [length_append]
    omega

end Clears

theorem add_without (hX : X g = some n) : add (without X {g}) g n = X := by
  rw [without_singleton,add,Function.update_idem,← hX,Function.update_eq_self]

theorem popped (hb : Built S X) (hX : X g = some n) (hg : g ≠ C.genesisHash)
    (hm : Maximal (rules S) X g) :
    Built S (without X {g}) ∧ Admits C U (without X {g}) g n ∧ without X {g} g = none := by
  obtain ⟨h1,h2⟩ := hb.drop hX hg hm
  rw [without_singleton]
  exact ⟨h1,h2,Function.update_self ..⟩

theorem maximal_of_head (hh : Head X g n)
    (hu : ∀ f m, X f = some m → m.move ≠ .receive g) : Maximal (rules S) X g := by
  rintro f m hf (⟨e,-⟩ | e)
  · exact hh.2 f m hf e.symm
  · exact hu f m hf e

structure Poppable (S : HashSound C U) (L : Ledger) (Y : Nodes) (g : BlockHash) (n : Node) :
    Prop where
  mirrors : Mirrors L (add Y g n)
  built : Built S Y
  admits : Admits C U Y g n
  fresh : Y g = none

section
variable (P : Poppable S L Y g n) (H : Shrinks L L' Y g n now)
include P H

theorem Poppable.shrunk : Mirrors L' Y ∧
    ∃ t, L.accounts = L'.accounts.insert n.account (infoOf g n t) :=
  ⟨shrink_mirrors P.mirrors P.built P.admits P.fresh H,
    shrink_accounts_grow P.mirrors P.built P.admits P.fresh H⟩

theorem Poppable.defect (hw : WeightShift L'.cache.repWeights L.cache.repWeights Y n)
    (a : Account) : defect L' a = defect L a := by
  obtain ⟨M,t,hacc⟩ := P.shrunk H
  exact (defect_grow M P.built P.admits hacc hw a).symm

end

theorem clears_one (hX : X g = some n) (P : Poppable S L (without X {g}) g n)
    (H : Shrinks L L' (without X {g}) g n now) {r0 : StoredBlock} (hr : L.blocks[g]? = some r0)
    (hr0 : r0.block = r.block) : Clears S L L' X {g} [r] := by
  have M : Mirrors L X := add_without hX ▸ P.mirrors
  have hhash : C.blockHash r.block = g := by
    obtain ⟨n',hn',hs⟩ := M.block g r0 hr
    cases hX.symm.trans hn'
    rw [Constants.blockHash,← hr0,hs.hashables,P.admits.hash_eq]
  obtain ⟨M2,t,hacc⟩ := P.shrunk H
  refine ⟨P.built,M2,?_,H.confirmationHeight,H.cementedCount,?_,?_,?_,?_,?_⟩
  · exact (supply_grow M2 P.built P.admits P.fresh hacc
      (shrink_pending_grow P.mirrors P.built P.admits P.fresh H)).symm
  · exact nodup_singleton _
  · simp [hhash]
  · simp only [mem_singleton,forall_eq]
    exact ⟨r0,hhash ▸ hr,hr0⟩
  · intro f q hq
    rw [H.blocks] at hq
    split_ifs at hq with e1 e2
    · obtain ⟨q0,hq0,rfl⟩ := map_eq_some_iff.mp hq
      exact ⟨q0,hq0,rfl⟩
    · exact ⟨q,hq,rfl⟩
  · have hc := shrink_block_count P.mirrors H
    rw [M2.blockCount,M.blockCount,hc]
    rfl

theorem dependents_lt (hb : Built S X) (hX : X g = some n) (hd : h ∈ dependents (rules S) X g)
    (hne : h ≠ g) :
    (dependents (rules S) X h).ncard < (dependents (rules S) X g).ncard := by
  refine Set.ncard_lt_ncard ⟨dependents_subset hd,?_⟩ (dependents_finite hb hX)
  intro hsub
  exact hne (dependents_antisymm hb (hsub Relation.ReflTransGen.refl) hd)

def Free (S : HashSound C U) (L : Ledger) (X : Nodes) (h : BlockHash) : Prop :=
  C.genesisHash ∉ dependents (rules S) X h ∧
  ∀ g ∈ dependents (rules S) X h, ∀ m, X g = some m →
    (L.confirmationHeightGet m.account).height < m.height

section
variable (hf : Free S L X h)
include hf

theorem Free.dependent (hg : g ∈ dependents (rules S) X h) :
    Free S L X g :=
  ⟨fun hc => hf.1 (dependents_trans hg hc),fun f hf' => hf.2 f (dependents_trans hg hf')⟩

theorem Free.justified (hb : Built S X) (hX : X h = some n) : Justified C U X h n := by
  refine (built_justified hb hX).resolve_left ?_
  rintro ⟨e,-⟩
  exact hf.1 (e ▸ Relation.ReflTransGen.refl)

theorem Free.above (hX : X h = some n) : (L.confirmationHeightGet n.account).height < n.height :=
  hf.2 h Relation.ReflTransGen.refl n hX

theorem Free.congr (hc : L'.confirmationHeight = L.confirmationHeight) :
    Free S L' X h := by
  refine ⟨hf.1,fun g hg m hm => ?_⟩
  unfold Ledger.confirmationHeightGet
  rw [hc]
  exact hf.2 g hg m hm

theorem Free.after (c : Clears S L L' X T l) :
    Free S L' (without X T) h := by
  refine ⟨fun hc => hf.1 (dependents_without hc),fun g hg m hm => ?_⟩
  unfold Ledger.confirmationHeightGet
  rw [c.confirmationHeight]
  exact hf.2 g (dependents_without hg) m (without_eq_some.mp hm).2

end

theorem cleared_all (hb : Built S (without X T)) (hsub : T ⊆ dependents (rules S) X h)
    (hh : h ∈ T) (hX : X h = some n) : T = dependents (rules S) X h := by
  refine hsub.antisymm fun g hg => ?_
  obtain ⟨m,hm⟩ := dependents_present hX hg
  by_contra hgT
  have hnone := dependents_missing T hh hb hg
  rw [without_eq_some.mpr ⟨hgT,hm⟩] at hnone
  cases hnone

theorem receiver_head (M : Mirrors L X) (hb : Built S X) (hX : X g = some n) {d : Account}
    (hmove : n.move = .send d) (hp : L.pending[(⟨d,g⟩ : PendingKey)]? = none) :
    ∃ m, X (L.latest d) = some m ∧ L.latest d ∈ dependents (rules S) X g ∧ L.latest d ≠ g := by
  have hrec : ∃ k m, X k = some m ∧ m.move = .receive g := by
    by_contra hno
    push Not at hno
    rw [(M.pending _ _).mpr ⟨n,⟨hX,hmove,hno⟩,rfl⟩] at hp
    cases hp
  obtain ⟨k,m,hk,hkm⟩ := hrec
  obtain ⟨n',hn',hdest,-⟩ := built_source hb hk hkm
  cases hX.symm.trans hn'
  have hacc : m.account = d := by
    rw [hmove] at hdest
    injection hdest with e
    exact e.symm
  obtain ⟨f,x,hf,hfa,hfd⟩ := head_exists hb hk
  obtain ⟨t,ht⟩ := M.head hb hf
  have hlat : L.latest d = f := by
    rw [Ledger.latest,← hacc,← hfa,ht]
    rfl
  have hgk : k ∈ dependents (rules S) X g := Relation.ReflTransGen.single ⟨m,hk,.inr hkm⟩
  rw [hlat]
  refine ⟨x,hf.1,dependents_trans hgk hfd,?_⟩
  rintro rfl
  obtain rfl := dependents_antisymm hb hfd hgk
  cases hX.symm.trans hk
  rw [hmove] at hkm
  cases hkm

section
/-- The specification of the recursive call, for blocks with fewer than `k`
dependents. -/
def CallSpec (S : HashSound C U) (call : Call) (k : ℕ) : Prop :=
  ∀ (L : Ledger) (X : Nodes) (h : BlockHash) (n : Node) (list : RollbackList),
    Built S X → Mirrors L X → X h = some n → Free S L X h →
    (dependents (rules S) X h).ncard < k →
    ∃ L' l, call L h list = some (false,L',list++l) ∧
      Clears S L L' X (dependents (rules S) X h) l ∧ ∀ a, defect L' a = defect L a

/-- Blocks that depend on a block are gone. -/
structure Partly (S : HashSound C U) (L L' : Ledger) (X : Nodes) (h : BlockHash)
    (T : Set BlockHash) (l : RollbackList) : Prop extends Clears S L L' X T l where
  defect : ∀ a, defect L' a = defect L a
  inside : T ⊆ dependents (rules S) X h

theorem Partly.nothing (M : Mirrors L X) (hb : Built S X) : Partly S L L X g ∅ [] :=
  ⟨Clears.nothing M hb,fun _ => rfl,Set.empty_subset _⟩

/-- The next ones to go include one that was there. -/
theorem fewer_left {T' : Set BlockHash} (hb : Built S X) (hX : X g = some n)
    (hd : h ∈ dependents (rules S) X g) (hT : h ∉ T) (hT' : h ∈ T') :
    (dependents (rules S) X g \ (T ∪ T')).ncard < (dependents (rules S) X g \ T).ncard := by
  refine Set.ncard_lt_ncard ⟨Set.sdiff_subset_sdiff_right Set.subset_union_left,?_⟩
    ((dependents_finite hb hX).subset Set.sdiff_subset)
  intro hsub
  exact (hsub ⟨hd,hT⟩).2 (.inr hT')

/-- The send itself is still there. -/
structure Opens (S : HashSound C U) (L L' : Ledger) (X : Nodes) (g : BlockHash)
    (T : Set BlockHash) (l : RollbackList) : Prop extends Partly S L L' X g T l where
  spared : g ∉ T

theorem Opens.nothing (M : Mirrors L X) (hb : Built S X) : Opens S L L X g ∅ [] :=
  ⟨Partly.nothing M hb,Set.notMem_empty _⟩

variable {call : Call} {k bound : ℕ} {d : Account}

section
variable (hX : X g = some n) (hmove : n.move = .send d) (hb : Built S X) (hfree : Free S L X g)
  (hk : (dependents (rules S) X g).ncard ≤ k)
include hX hmove hb hfree hk

/-- While the entry of a send is missing, the latest block of the destination is
there to be rolled back, with fewer dependents than the send. -/
theorem Opens.latest (o : Opens S L L' X g T l)
    (hp : L'.pending[(⟨d,g⟩ : PendingKey)]? = none) :
    ∃ m, without X T (L'.latest d) = some m ∧ Free S L' (without X T) (L'.latest d) ∧
      (dependents (rules S) (without X T) (L'.latest d)).ncard < k ∧
      L'.latest d ∈ dependents (rules S) (without X T) g ∧ L'.latest d ≠ g := by
  have hX' : without X T g = some n := without_eq_some.mpr ⟨o.spared,hX⟩
  obtain ⟨m,hm,hdep,hne⟩ := receiver_head o.mirrors o.built hX' hmove hp
  refine ⟨m,hm,(hfree.after o.toClears).dependent hdep,?_,hdep,hne⟩
  calc (dependents (rules S) (without X T) (L'.latest d)).ncard
      < (dependents (rules S) (without X T) g).ncard := dependents_lt o.built hX' hdep hne
    _ ≤ (dependents (rules S) X g).ncard :=
        Set.ncard_le_ncard dependents_without (dependents_finite hb hX)
    _ ≤ k := hk

theorem untilPending_step (hcall : CallSpec S call k) (list : RollbackList)
    (o : Opens S L L' X g T l) :
    (∃ L'' T' l'', untilPending call ⟨d,g⟩ (L',list++l) = some (.inl (L'',list++l'')) ∧
      Opens S L L'' X g T' l'' ∧
      (dependents (rules S) X g \ T').ncard < (dependents (rules S) X g \ T).ncard) ∨
    (untilPending call ⟨d,g⟩ (L',list++l) = some (.inr (some (pendingOf n),L',list++l)) ∧
      L'.pending[(⟨d,g⟩ : PendingKey)]? = some (pendingOf n)) := by
  have hX' : without X T g = some n := without_eq_some.mpr ⟨o.spared,hX⟩
  cases hp : L'.pending[(⟨d,g⟩ : PendingKey)]? with
  | some i =>
    right
    obtain ⟨n',hu,rfl⟩ := (o.mirrors.pending _ _).mp hp
    cases hX'.symm.trans hu.1
    exact ⟨by rw [untilPending,hp],rfl⟩
  | none =>
    left
    obtain ⟨m,hm,hf,hlt,hdep,hne⟩ := Opens.latest hX hmove hb hfree hk o hp
    obtain ⟨L'',l'',hc,c,hd⟩ := hcall L' _ _ m (list++l) o.built o.mirrors hm hf hlt
    refine ⟨L'',_,l++l'',?_,⟨⟨o.toClears.trans c,fun a => (hd a).trans (o.defect a),?_⟩,?_⟩,
      fewer_left hb hX (dependents_without hdep) (without_eq_some.mp hm).1
        Relation.ReflTransGen.refl⟩
    · rw [untilPending,hp]
      simp only [hc,append_assoc]
      rfl
    · refine Set.union_subset o.inside ?_
      exact (dependents_subset hdep).trans dependents_without
    · rintro (hg | hg)
      · exact o.spared hg
      · exact hne (dependents_antisymm o.built hg hdep)

theorem untilPending_spec (hcall : CallSpec S call k) (M : Mirrors L X) (hbound : k < bound)
    (list : RollbackList) :
    ∃ L' T l, Loop.loop (untilPending call ⟨d,g⟩) bound (L,list) =
        some (some (pendingOf n),L',list++l) ∧ Opens S L L' X g T l ∧
      L'.pending[(⟨d,g⟩ : PendingKey)]? = some (pendingOf n) := by
  -- the rank counts the dependents of the send that are still there
  obtain ⟨⟨p,L',list'⟩,hr,T,l,rfl,rfl,ho,hp⟩ := @Loop.loop_total _ _ (untilPending call ⟨d,g⟩)
    (fun j s => ∃ T l, s.2 = list++l ∧ Opens S L s.1 X g T l ∧
      j = (dependents (rules S) X g \ T).ncard)
    (fun r => ∃ T l, r.1 = some (pendingOf n) ∧ r.2.2 = list++l ∧ Opens S L r.2.1 X g T l ∧
      r.2.1.pending[(⟨d,g⟩ : PendingKey)]? = some (pendingOf n))
    (by
      rintro j ⟨L',list'⟩ ⟨T,l,rfl,ho,rfl⟩
      rcases untilPending_step hX hmove hb hfree hk hcall list ho with
        ⟨L'',T',l'',hs,ho',hlt⟩ | ⟨hs,hp⟩
      · exact .inl ⟨_,_,hs,⟨T',l'',rfl,ho',rfl⟩,hlt⟩
      · exact .inr ⟨_,hs,T,l,rfl,rfl,ho,hp⟩)
    bound _ (L,list)
    ⟨∅,[],(append_nil _).symm,Opens.nothing M hb,rfl⟩ (by rw [Set.sdiff_empty]; omega)
  exact ⟨L',T,l,hr,ho,hp⟩

end
end
section
theorem maximal_kept (hb : Built S X) (hh : Head X g n) (hmove : ∀ d, n.move ≠ .send d) :
    Maximal (rules S) X g := by
  refine maximal_of_head hh fun f m hf hm => ?_
  obtain ⟨n',hn',hs,-⟩ := built_source hb hf hm
  cases hh.1.symm.trans hn'
  exact hmove _ hs

section
variable (o : Opens S L L' X g T l) (hh : Head X g n)
include o hh

theorem Opens.head : Head (without X T) g n :=
  ⟨without_eq_some.mpr ⟨o.spared,hh.1⟩,fun f m hf => hh.2 f m (without_eq_some.mp hf).2⟩

theorem maximal_opened {d : Account} {i : PendingInfo}
    (hp : L'.pending[(⟨d,g⟩ : PendingKey)]? = some i) :
    Maximal (rules S) (without X T) g := by
  obtain ⟨n',hu,-⟩ := (o.mirrors.pending _ _).mp hp
  exact maximal_of_head (o.head hh) hu.2.2

end

section
variable (o : Opens S L L' X g T l) (hh : Head X g n)
include o hh

theorem Opens.poppable (hfree : Free S L X g) (hm : Maximal (rules S) (without X T) g) :
    Poppable S L' (without (without X T) {g}) g n := by
  have hX := (o.head hh).1
  have hg : g ≠ C.genesisHash := fun e => hfree.1 (e ▸ Relation.ReflTransGen.refl)
  obtain ⟨h1,h2,h3⟩ := popped o.built hX hg hm
  refine ⟨?_,h1,h2,h3⟩
  rw [add_without hX]
  exact o.mirrors

theorem Opens.visited (P : Poppable S L' (without (without X T) {g}) g n)
    (H : Shrinks L' L'' (without (without X T) {g}) g n now) (hr : L.blocks[g]? = some r) :
    Clears S L L'' X (dependents (rules S) X g) (r::l) := by
  have hX := (o.head hh).1
  obtain ⟨r1,hr1,-⟩ := o.mirrors.get hX
  obtain ⟨r0,hr0,e0⟩ := o.kept g r1 hr1
  cases hr.symm.trans hr0
  have c := o.toClears.trans (clears_one hX P H hr1 e0.symm)
  have hT : T ∪ {g} = dependents (rules S) X g := by
    refine cleared_all c.built ?_ (.inr rfl) hh.1
    refine Set.union_subset o.inside ?_
    rintro f rfl
    exact Relation.ReflTransGen.refl
  rw [← hT]
  exact c.perm (perm_append_singleton r l)

end

variable {call : Call} {k bound : ℕ} {list : RollbackList}

abbrev Visited (S : HashSound C U) (L : Ledger) (X : Nodes) (g : BlockHash) (r : StoredBlock)
    (now : ℕ) (call : Call) (bound : ℕ) (list : RollbackList) : Prop :=
  ∃ L' l, visit C now call bound L list r = some (false,L',list++l) ∧
    Clears S L (discounted L') X (dependents (rules S) X g) (r::l) ∧
    ∀ a, defect (discounted L') a = defect L a

section
variable (M : Mirrors L X) (hb : Built S X) (hh : Head X g n) (hr : L.blocks[g]? = some r)
  (hfree : Free S L X g)
include M hb hh hr hfree

theorem visit_simple {commit : Option Ledger} (hmove : ∀ d, n.move ≠ .send d)
    (hv : visit C now call bound L list r = commit.bind fun L' => some (false,L',list))
    (hc : ∀ Y, Poppable S L Y g n → TakesBack L Y g n now commit) :
    Visited S L X g r now call bound list := by
  have o : Opens S L L X g ∅ [] := Opens.nothing M hb
  have hm : Maximal (rules S) (without X ∅) g := by
    rw [without_empty]
    exact maximal_kept hb hh hmove
  have P := o.poppable hh hfree hm
  obtain ⟨L',hL',H,hw⟩ := hc _ P
  exact ⟨L',[],by rw [append_nil,hv,hL']; rfl,o.visited hh P H hr,P.defect H hw⟩

theorem visit_send (hcall : CallSpec S call k) (hk : (dependents (rules S) X g).ncard ≤ k)
    (hbound : k < bound) (hj : Justified C U X g n) (hrn : r.block.hashables = n.hashables)
    {h : SendHashables} (hn : n.hashables = .send h) : Visited S L X g r now call bound list := by
  have hmove : n.move = .send h.destination := by rw [justified_move hj,hn]; rfl
  have hhash := hj.blockHash hrn
  obtain ⟨L1,T,l,hloop,o,hp⟩ := untilPending_spec hh.1 hmove hb hfree hk hcall M hbound list
  have P := o.poppable hh hfree (maximal_opened o hh hp)
  obtain ⟨-,L2,hc,H,hw⟩ := sendCommit_shrinks now P.mirrors P.built P.admits P.fresh hn
  refine ⟨L2,l,?_,o.visited hh P H hr,fun a => (P.defect H hw a).trans (o.defect a)⟩
  rw [visit,hrn,hn]
  simp only [sendBlock,hhash,hloop,hc,bind_eq_bind,bind_some]
  rfl

end

section
variable {w : RepWeights} {h' : StateHashables}

theorem reweigh_mirrors (M : Mirrors L X) : Mirrors { L with cache.repWeights := w } X :=
  ⟨M.block,M.present,M.account,M.opened,M.frontier,M.pending,M.pruned,M.blockCount,
    M.accountCount⟩

theorem Clears.reweigh (c : Clears S { L with cache.repWeights := w } L' X T l) :
    Clears S L L' X T l :=
  ⟨c.built,c.mirrors,c.supply,c.confirmationHeight,c.cementedCount,c.once,c.exact_,c.recorded,
    c.kept,c.blockCount⟩

theorem Poppable.previous (P : Poppable S L (without (without X T) {g}) g n) (hb : Built S X) :
    without (without X T) {g} n.previous = X n.previous := by
  by_cases h0 : n.previous = 0
  · rw [h0,built_zero hb,built_zero P.built]
  · obtain ⟨p,hp,-⟩ := P.admits.following h0
    rw [hp,(without_eq_some.mp (without_eq_some.mp hp).2).2]

variable (M : Mirrors L X) (hb : Built S X) (hh : Head X g n) (hr : L.blocks[g]? = some r)
  (hrn : r.block.hashables = n.hashables) (hj : Justified C U X g n)
  (hn : n.hashables = .state h')
include M hb hh hr hrn hj hn

theorem state_finish
    (hw : stateWeights L h' ((X n.previous).map Node.representative)
      (previousBalance (X n.previous)) = { L with cache.repWeights := w })
    (hshift : WeightShift w L.cache.repWeights X n)
    (o : Opens S { L with cache.repWeights := w } L' X g T l)
    (P : Poppable S L' (without (without X T) {g}) g n)
    (hpend : statePending C call bound { L with cache.repWeights := w } list r h' false
      (previousBalance (X n.previous)) =
        some (repended L' (without (without X T) {g}) g n,list++l)) :
    Visited S L X g r now call bound list := by
  have hhash := hj.blockHash hrn
  have hacc : h'.account = n.account := by
    rw [justified_account hj,hn]
    rfl
  obtain ⟨hrep,hbal⟩ := stateRepresentative_eq hn M hb hj
  obtain ⟨t,ht⟩ := M.head hb hh
  obtain ⟨L2,hc,H,hw2⟩ := stateCommit_shrinks now P.mirrors P.built P.admits P.fresh hn t
  rw [P.previous hb] at hc
  refine ⟨L2,l,?_,(o.visited hh P H hr).reweigh,fun a => ?_⟩
  · rw [visit,hrn,hn]
    simp only [stateBlock,hrep,hbal,hw,hacc,ht,hhash,hpend,isNone_some,
      getD_some,hc,bind_eq_bind,bind_some]
    rfl
  · obtain ⟨M2,t',hgrow⟩ := P.shrunk H
    have hrepr := represented_grow M2 P.built P.admits hgrow a
    have hd : representationGet L'.cache.repWeights a-represented L'.accounts a =
        representationGet w a-represented L.accounts a := o.defect a
    have hs := hshift a
    have hp : priorShare (without (without X T) {g}) n a = priorShare X n a := by
      rw [priorShare,P.previous hb,priorShare]
    rw [hp] at hrepr
    change representationGet L2.cache.repWeights a-_ = representationGet L.cache.repWeights a-_
    rw [hw2]
    linear_combination hd+hrepr-hs

theorem visit_state (hcall : CallSpec S call k) (hfree : Free S L X g)
    (hk : (dependents (rules S) X g).ncard ≤ k) (hbound : k < bound) :
    Visited S L X g r now call bound list := by
  have hhash := hj.blockHash hrn
  obtain ⟨w,hw,hshift⟩ := stateWeights_shrinks hn hj
  have Mw : Mirrors { L with cache.repWeights := w } X := reweigh_mirrors M
  have hfw : Free S { L with cache.repWeights := w } X g := hfree.congr rfl
  by_cases hsend : ∃ d, n.move = .send d
  · obtain ⟨d,hmove⟩ := hsend
    obtain ⟨L1,T,l,hloop,o,hp⟩ := untilPending_spec hh.1 hmove hb hfw hk hcall Mw hbound list
    have P := o.poppable hh hfw (maximal_opened o hh hp)
    obtain ⟨hlt,rfl,hdel⟩ := statePending_sent P.mirrors P.built P.admits P.fresh hn hmove
    rw [P.previous hb] at hlt
    refine state_finish M hb hh hr hrn hj hn hw hshift o P ?_
    simp only [statePending,stateAwait,if_pos hlt,hhash,hloop,hdel,Bool.false_eq_true,
      if_false,map_some,bind_eq_bind,bind_some]
    rfl
  · have hmove : ∀ d, n.move ≠ .send d := fun d hd => hsend ⟨d,hd⟩
    have o : Opens S { L with cache.repWeights := w } { L with cache.repWeights := w } X g ∅ [] :=
      Opens.nothing Mw hb
    have hm : Maximal (rules S) (without X ∅) g := by
      rw [without_empty]
      exact maximal_kept hb hh hmove
    have P := o.poppable hh hfw hm
    refine state_finish M hb hh hr hrn hj hn hw hshift o P ?_
    rw [← P.previous hb,append_nil]
    exact statePending_kept P.mirrors P.built P.admits P.fresh hn hr hmove

end

variable (now list) in
/-- One visitor, on the head of a chain. -/
theorem visit_spec (hcall : CallSpec S call k) (M : Mirrors L X) (hb : Built S X)
    (hh : Head X g n) (hr : L.blocks[g]? = some r) (hfree : Free S L X g)
    (hk : (dependents (rules S) X g).ncard ≤ k) (hbound : k < bound) :
    Visited S L X g r now call bound list := by
  have hj := hfree.justified hb hh.1
  have hrn : r.block.hashables = n.hashables := by
    obtain ⟨m,hm,hs⟩ := M.block g r hr
    cases hh.1.symm.trans hm
    exact hs.hashables
  cases hn : n.hashables with
  | send h => exact visit_send M hb hh hr hfree hcall hk hbound hj hrn hn
  | state h => exact visit_state M hb hh hr hrn hj hn hcall hfree hk hbound
  | receive h =>
    refine visit_simple M hb hh hr hfree (by simp [justified_move hj,hn,moveOf]) ?_ fun Y P =>
      receiveBlock_shrinks now P.mirrors P.built P.admits P.fresh hn hrn
    rw [visit,hrn,hn]
    rfl
  | open_ h =>
    refine visit_simple M hb hh hr hfree (by simp [justified_move hj,hn,moveOf]) ?_ fun Y P =>
      openBlock_shrinks now P.mirrors P.built P.admits P.fresh hn hrn
    rw [visit,hrn,hn]
    rfl
  | change h =>
    refine visit_simple M hb hh hr hfree (by simp [justified_move hj,hn,moveOf]) ?_ fun Y P =>
      changeBlock_shrinks now P.mirrors P.built P.admits P.fresh hn hrn
    rw [visit,hrn,hn]
    rfl

end

variable {call : Call} {k bound : ℕ}

theorem rollbackRound_step (hcall : CallSpec S call k) (hb : Built S X) (hX : X h = some n)
    (hfree : Free S L X h) (hk : (dependents (rules S) X h).ncard ≤ k) (hbound : k < bound)
    (list : RollbackList) (info : AccountInfo) (p : Partly S L L' X h T l) :
    (∃ L'' T' l' info', rollbackRound C now call bound h n.account n.height (L',list++l,info) =
        some (.inl (L'',list++l',info')) ∧ Partly S L L'' X h T' l' ∧
      (dependents (rules S) X h \ T').ncard < (dependents (rules S) X h \ T).ncard) ∨
    (rollbackRound C now call bound h n.account n.height (L',list++l,info) =
        some (.inr (false,L',list++l)) ∧ h ∈ T) := by
  by_cases hT : h ∈ T
  · right
    refine ⟨?_,hT⟩
    have hnone : ¬ L'.blocks.contains h = true := by
      rw [p.mirrors.contains]
      rintro ⟨m,hm⟩
      exact (without_eq_some.mp hm).1 hT
    rw [rollbackRound,if_pos hnone]
  · left
    have hX' : without X T h = some n := without_eq_some.mpr ⟨hT,hX⟩
    have hfree' := hfree.after p.toClears
    obtain ⟨g,m,hg,hacc,hdep⟩ := head_exists p.built hX'
    obtain ⟨t,ht⟩ := p.mirrors.head p.built hg
    obtain ⟨r,hr,-⟩ := p.mirrors.get hg.1
    have hsub : dependents (rules S) (without X T) g ⊆ dependents (rules S) X h :=
      (dependents_subset hdep).trans dependents_without
    obtain ⟨L'',l'',hv,c,hd⟩ := visit_spec now (list++l++[r]) hcall p.mirrors p.built
      hg hr (hfree'.dependent hdep)
      ((Set.ncard_le_ncard hsub (dependents_finite hb hX)).trans hk) hbound
    refine ⟨discounted L'',_,l++r::l'',infoOf g m t,?_,⟨p.toClears.trans c,
      fun a => (hd a).trans (p.defect a),Set.union_subset p.inside hsub⟩,
      fewer_left hb hX (dependents_without hdep) (without_eq_some.mp hg.1).1
        Relation.ReflTransGen.refl⟩
    · have hcon : ¬ ¬ L'.blocks.contains h = true :=
        not_not.mpr (p.mirrors.contains.mpr ⟨n,hX'⟩)
      have hhigh : n.height > (L'.confirmationHeightGet n.account).height :=
        hfree'.above hX'
      rw [rollbackRound,if_neg hcon,if_pos hhigh,← hacc,ht]
      simp only [getD_some,infoOf,hr,bind_eq_bind,bind_some]
      rw [hv]
      simp only [append_assoc]
      rfl

theorem rollback_eq (M : Mirrors L X) (hb : Built S X) (hX : X h = some n) (fuel : ℕ)
    (list : RollbackList) : rollback C now (fuel+1) L h list =
      Loop.loop (rollbackRound C now (rollback C now fuel) (fuel+1) h n.account n.height) (fuel+1)
        (L,list,{}) := by
  obtain ⟨r,hr,hs⟩ := M.get hX
  rw [rollback]
  simp [M.owner hb hX,hr,stores_height hb hX hs]

variable (now) in
/-- A rollback with more fuel than the target has dependents. -/
theorem rollback_callSpec (fuel : ℕ) : CallSpec S (rollback C now fuel) fuel := by
  induction fuel with
  | zero => exact fun _ _ _ _ _ _ _ _ _ h => absurd h (Nat.not_lt_zero _)
  | succ fuel ih =>
    intro L X h n list hb M hX hfree hlt
    have hk := Nat.le_of_lt_succ hlt
    rw [rollback_eq M hb hX]
    -- the rank counts the dependents of the target that are still there
    obtain ⟨⟨e,L',list'⟩,hr,T,l,rfl,rfl,p,hT⟩ :=
      @Loop.loop_total _ _ (rollbackRound C now (rollback C now fuel) (fuel+1) h n.account n.height)
      (fun j s => ∃ T l, s.2.1 = list++l ∧ Partly S L s.1 X h T l ∧
        j = (dependents (rules S) X h \ T).ncard)
      (fun r => ∃ T l, r.1 = false ∧ r.2.2 = list++l ∧ Partly S L r.2.1 X h T l ∧ h ∈ T)
      (by
        rintro j ⟨L',list',info⟩ ⟨T,l,rfl,p,rfl⟩
        rcases rollbackRound_step ih hb hX hfree hk (Nat.lt_succ_self _) list info p with
          ⟨L'',T',l',info',hs,p',hlt'⟩ | ⟨hs,hT⟩
        · exact .inl ⟨_,_,hs,⟨T',l',rfl,p',rfl⟩,hlt'⟩
        · exact .inr ⟨_,hs,T,l,rfl,rfl,p,hT⟩)
      (fuel+1) _ (L,list,{})
      ⟨∅,[],(append_nil _).symm,Partly.nothing M hb,rfl⟩
      (by rwa [Set.sdiff_empty])
    rw [cleared_all p.built p.inside hT hX] at p
    exact ⟨L',l,hr,p.toClears,p.defect⟩

theorem rollback_cemented (M : Mirrors L X) (hb : Built S X) (hX : X h = some n)
    (hc : n.height ≤ (L.confirmationHeightGet n.account).height) (fuel : ℕ)
    (list : RollbackList) : rollback C now (fuel+1) L h list = some (true,L,list) := by
  rw [rollback_eq M hb hX]
  refine Loop.loop_leave ?_
  have hcon : ¬ ¬ L.blocks.contains h = true := not_not.mpr (M.contains.mpr ⟨n,hX⟩)
  rw [rollbackRound,if_neg hcon,if_neg (by omega)]

end Vxldollar.RollbackSpec
