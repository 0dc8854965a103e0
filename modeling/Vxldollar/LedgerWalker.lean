import Vxldollar.Library.Search
import Vxldollar.Library.DiskHash
import Vxldollar.Exactness
import Mathlib.Data.Nat.Digits.Lemmas

/-!
# The ledger walker

`walk_backward` visits a block and, through `dependent_blocks`, all it depends on.
What it has walked is kept in memory up to a limit and then on disk, where the
hash is handed over as a C string: hashes that agree up to a zero byte are one key.
The walk always ends and visits nothing twice; it visits all dependencies, whatever
the limit, exactly when no two of them share a key.
-/

namespace Vxldollar.LedgerWalker
open Blocks Store Vxldollar.Lattice Mirror Confirmation Runs List DiskHash Search
open Exactness (Needs needs_listed)
open DiskHash (Bytes cString)

section
def hashBytes (h : BlockHash) : Bytes :=
  (range 32).map fun i => h.extractLsb' (8*(31-i)) 8

/-- The array that is handed to the disk hash ends with a zero. -/
def blockHashKey (h : BlockHash) : Bytes := hashBytes h++[0]

structure Walked where
  useInMemory : Bool := true
  walked : List BlockHash := []
  disk : Table Bool := []

def addToWalkedBlocksDisk (w : Walked) (h : BlockHash) : Bool × Walked :=
  let (fresh,disk) := insert w.disk (blockHashKey h) true
  (fresh,{ w with disk := disk })

/-- `limit` is `in_memory_block_count`. The set is moved to disk by the first addition
that finds it full. -/
def addToWalkedBlocks (limit : ℕ) (w : Walked) (h : BlockHash) : Bool × Walked :=
  if w.useInMemory then
    if w.walked.length < limit then
      if h ∈ w.walked then (false,w) else (true,{ w with walked := w.walked++[h] })
    else
      let moved := w.walked.foldl (fun w g => (addToWalkedBlocksDisk w g).2)
        { w with useInMemory := false }
      addToWalkedBlocksDisk { moved with walked := [] } h
  else addToWalkedBlocksDisk w h

variable (C : Constants) (L : Ledger)

def dependents (r : StoredBlock) : List BlockHash :=
  [(dependentBlocks C r).1,(dependentBlocks C r).2].filterMap fun d =>
    if d ≠ 0 then L.blocks[d]?.map (fun k => C.blockHash k.block) else none

/-- A hash that is not in the ledger would be handed to the callback as a null
pointer. -/
def expand (shouldVisit : StoredBlock → Bool) (h : BlockHash) : Option (Option (List BlockHash)) :=
  L.blocks[h]?.map fun r => if shouldVisit r then some (dependents C L r) else none

def walkBackward (limit fuel : ℕ) (shouldVisit : StoredBlock → Bool) (start : BlockHash) :
    Option (List StoredBlock) :=
  (Loop.loop (round (addToWalkedBlocks limit) (expand C L shouldVisit)) fuel
    (enqueue (addToWalkedBlocks limit) ⟨{},[],[]⟩ start)).map fun t =>
      t.visited.filterMap fun h => L.blocks[h]?

def decimal (n : ℕ) : Bytes := (Nat.digits 10 n).reverse.map fun d => BitVec.ofNat 8 (48+d)

def walkedBlocksOrder (rs : List StoredBlock) : Table BlockHash :=
  (rs.foldl (fun (x : ℕ × Table BlockHash) r =>
    (x.1+1,(insert x.2 (decimal (x.1+1)) (C.blockHash r.block)).2)) (0,[])).2

def walk (limit fuel : ℕ) (shouldVisit : StoredBlock → Bool) (last : BlockHash) :
    Option (List StoredBlock) :=
  (walkBackward C L limit fuel shouldVisit last).map fun rs =>
    (range rs.length).reverse.filterMap fun i =>
      (lookup (walkedBlocksOrder C rs) (decimal (i+1))).bind fun h => L.blocks[h]?

end
section
variable {limit : ℕ} {w : Walked} {A D : Set BlockHash} {h x : BlockHash}

def diskKey (h : BlockHash) : Bytes := cString (blockHashKey h)

def diskKeys (w : Walked) : List Bytes := w.disk.map Prod.fst

/-- The container stands for a set: in memory as a list of it, on disk through the
keys of its elements. With the limit zero the disk is used from the start. -/
structure Represents (limit : ℕ) (w : Walked) (A : Set BlockHash) : Prop where
  memory : w.useInMemory = true → w.walked.Nodup ∧ (∀ x, x ∈ w.walked ↔ x ∈ A) ∧
    w.disk = [] ∧ w.walked.length ≤ limit
  disk : w.useInMemory = false → (∀ k, k ∈ diskKeys w ↔ ∃ x ∈ A, diskKey x = k) ∧
    A.Finite ∧ limit ≤ A.ncard
  distinct : limit = 0 → Set.InjOn diskKey A

theorem represents_empty (limit : ℕ) : Represents limit {} ∅ where
  memory _ := ⟨nodup_nil,fun _ => iff_of_false not_mem_nil (Set.notMem_empty _),rfl,
    Nat.zero_le _⟩
  disk h := nomatch h
  distinct _ := Set.injOn_empty _

theorem diskKeys_add (w : Walked) (h : BlockHash) (k : Bytes) :
    k ∈ diskKeys (addToWalkedBlocksDisk w h).2 ↔ k ∈ diskKeys w ∨ k = diskKey h :=
  insert_keys k

theorem diskKeys_moved (l : List BlockHash) (w : Walked) (k : Bytes) :
    k ∈ diskKeys (l.foldl (fun w g => (addToWalkedBlocksDisk w g).2) w) ↔
      k ∈ diskKeys w ∨ ∃ x ∈ l, diskKey x = k := by
  induction l generalizing w with
  | nil => simp
  | cons g l ih =>
    rw [foldl_cons,ih,diskKeys_add]
    simp [or_assoc,eq_comm (a := k)]

theorem moved_useInMemory (l : List BlockHash) (w : Walked) :
    (l.foldl (fun w g => (addToWalkedBlocksDisk w g).2) w).useInMemory = w.useInMemory := by
  induction l generalizing w with
  | nil => rfl
  | cons g l ih =>
    rw [foldl_cons,ih]
    rfl

/-- What an addition reports and leaves. An element that is not reported as new is
there, or another one with its key is on disk. -/
structure Added (limit : ℕ) (A : Set BlockHash) (x : BlockHash) (o : Bool × Walked) : Prop where
  fresh : o.1 = true → x ∉ A ∧ Represents limit o.2 (insert x A)
  known : o.1 = false → Represents limit o.2 A ∧
    (x ∈ A ∨ limit ≤ A.ncard ∧ ∃ y ∈ A, diskKey y = diskKey x)

theorem disk_added (R : Represents limit w A) (hm : w.useInMemory = false) (x : BlockHash) :
    Added limit A x (addToWalkedBlocksDisk w x) := by
  obtain ⟨hkeys,hfin,hlim⟩ := R.disk hm
  have hfst : (addToWalkedBlocksDisk w x).1 = true ↔ ¬ ∃ y ∈ A, diskKey y = diskKey x := by
    rw [← hkeys]
    exact insert_fst
  have hmode : (addToWalkedBlocksDisk w x).2.useInMemory = false := hm
  constructor
  · intro hf
    have hn := hfst.mp hf
    refine ⟨fun hx => hn ⟨x,hx,rfl⟩,⟨fun h => ?_,fun _ => ⟨fun k => ?_,hfin.insert x,?_⟩,
      fun h0 => ?_⟩⟩
    · rw [hmode] at h
      cases h
    · rw [diskKeys_add,hkeys]
      simp [or_comm,eq_comm (a := k)]
    · exact hlim.trans (Set.ncard_le_ncard (Set.subset_insert x A) (hfin.insert x))
    · exact (Set.injOn_insert fun hx => hn ⟨x,hx,rfl⟩).mpr
        ⟨R.distinct h0,fun ⟨y,hy,e⟩ => hn ⟨y,hy,e⟩⟩
  · intro hf
    have hy : ∃ y ∈ A, diskKey y = diskKey x := by
      by_contra hn
      rw [hfst.mpr hn] at hf
      cases hf
    refine ⟨⟨fun h => ?_,fun _ => ⟨fun k => ?_,hfin,hlim⟩,R.distinct⟩,.inr ⟨hlim,hy⟩⟩
    · rw [hmode] at h
      cases h
    · rw [diskKeys_add,hkeys]
      exact or_iff_left_of_imp fun e => e ▸ hy

theorem ncard_mem {l : List BlockHash} (hl : l.Nodup) (hA : ∀ x, x ∈ l ↔ x ∈ A) :
    A.Finite ∧ A.ncard = l.length := by
  have hset : A = ↑l.toFinset := by
    ext x
    rw [← hA,coe_toFinset]
    rfl
  rw [hset]
  exact ⟨Finset.finite_toSet _,by rw [Set.ncard_coe_finset,toFinset_card_of_nodup hl]⟩

section
variable (R : Represents limit w A)
include R

theorem memory_added (hm : w.useInMemory = true) (hlen : w.walked.length < limit) (x : BlockHash) :
    Added limit A x (if x ∈ w.walked then (false,w)
      else (true,{ w with walked := w.walked++[x] })) := by
  obtain ⟨hnodup,hmem,hdisk,-⟩ := R.memory hm
  split_ifs with hx
  · exact ⟨nofun,fun _ => ⟨R,.inl ((hmem x).mp hx)⟩⟩
  · refine ⟨fun _ => ⟨fun h => hx ((hmem x).mpr h),⟨fun _ => ⟨?_,fun y => ?_,hdisk,?_⟩,
      fun h => ?_,fun h0 => ?_⟩⟩,nofun⟩
    · exact nodup_append.mpr ⟨hnodup,nodup_singleton x,fun a ha b hb e =>
        hx (by rw [← mem_singleton.mp hb,← e]; exact ha)⟩
    · rw [mem_append,mem_singleton,hmem,Set.mem_insert_iff,or_comm]
    · rw [length_append,length_singleton]
      omega
    · rw [show w.useInMemory = false from h] at hm
      cases hm
    · omega

theorem moved_represents (hm : w.useInMemory = true) (hlen : ¬ w.walked.length < limit) :
    Represents limit { w.walked.foldl (fun w g => (addToWalkedBlocksDisk w g).2)
      { w with useInMemory := false } with walked := [] } A := by
  obtain ⟨hnodup,hmem,hdisk,-⟩ := R.memory hm
  obtain ⟨hfin,hcard⟩ := ncard_mem hnodup hmem
  have hmode := moved_useInMemory w.walked { w with useInMemory := false }
  refine ⟨fun h => ?_,fun _ => ⟨fun k => ?_,hfin,by omega⟩,R.distinct⟩
  · rw [show _ = true from h] at hmode
    cases hmode
  · refine (diskKeys_moved w.walked { w with useInMemory := false } k).trans ?_
    rw [diskKeys,hdisk,map_nil]
    simp [hmem]

theorem added (x : BlockHash) :
    Added limit A x (addToWalkedBlocks limit w x) := by
  unfold addToWalkedBlocks
  by_cases hm : w.useInMemory = true
  · rw [if_pos hm]
    by_cases hlen : w.walked.length < limit
    · rw [if_pos hlen]
      exact memory_added R hm hlen x
    · rw [if_neg hlen]
      exact disk_added (moved_represents R hm hlen) (moved_useInMemory w.walked _) x
  · rw [if_neg hm]
    exact disk_added R (Bool.eq_false_iff.mpr hm) x

end

theorem admits (limit : ℕ) (D : Set BlockHash) :
    Admits (addToWalkedBlocks limit) (Represents limit) D where
  fresh _ _ x R _ _ hf := (added R x).fresh hf
  known _ _ x R _ _ hf := ((added R x).known hf).1

theorem faithful (h : Set.InjOn diskKey D ∨ D.Finite ∧ D.ncard ≤ limit) :
    Faithful (addToWalkedBlocks limit) (Represents limit) D := by
  intro w A x R hA hx hf
  rcases ((added R x).known hf).2 with hmem | ⟨hlim,y,hy,e⟩
  · exact hmem
  · rcases h with hinj | ⟨hfin,hcard⟩
    · rwa [← hinj (hA hy) hx e]
    · rw [Set.eq_of_subset_of_ncard_le hA (hcard.trans hlim) hfin]
      exact hx

end
section
variable {C : Constants} {L : Ledger} {rs : List StoredBlock}

theorem decimal_injective : Function.Injective decimal := by
  have hdigit : ∀ n, ((decimal n).map fun b => b.toNat-48).reverse = Nat.digits 10 n := by
    intro n
    unfold decimal
    rw [map_reverse,map_reverse,reverse_reverse,map_map]
    refine (map_congr_left fun d hd => ?_).trans (map_id _)
    have hlt := Nat.digits_lt_base (by omega) hd
    simp only [Function.comp_apply,BitVec.toNat_ofNat,id]
    omega
  intro n m e
  apply Nat.digits.injective 10
  rw [← hdigit n,← hdigit m,e]

theorem cString_decimal (n : ℕ) : cString (decimal n) = decimal n := by
  apply cString_of_nonzero
  intro b hb
  obtain ⟨d,hd,rfl⟩ := mem_map.mp hb
  have hlt := Nat.digits_lt_base (by omega) (mem_reverse.mp hd)
  intro e
  have hmod : (48+d) % 2^8 = 0 := (BitVec.toNat_ofNat _ _).symm.trans (congrArg BitVec.toNat e)
  omega

variable (C) in
def numbered (rs : List StoredBlock) : ℕ × Table BlockHash :=
  rs.foldl (fun (x : ℕ × Table BlockHash) r =>
    (x.1+1,(insert x.2 (decimal (x.1+1)) (C.blockHash r.block)).2)) (0,[])

theorem numbered_append (rs : List StoredBlock) (r : StoredBlock) : numbered C (rs++[r]) =
    ((numbered C rs).1+1,(insert (numbered C rs).2 (decimal ((numbered C rs).1+1))
      (C.blockHash r.block)).2) := by
  unfold numbered
  rw [foldl_append,foldl_cons,foldl_nil]

theorem numbered_spec (rs : List StoredBlock) : (numbered C rs).1 = rs.length ∧
    (∀ k ∈ (numbered C rs).2.map Prod.fst, ∃ j < rs.length, k = decimal (j+1)) ∧
    ∀ i, lookup (numbered C rs).2 (decimal (i+1)) =
      rs[i]?.map fun r => C.blockHash r.block := by
  induction rs using reverseRecOn with
  | nil => exact ⟨rfl,fun k hk => absurd hk not_mem_nil,fun i => rfl⟩
  | append_singleton rs r ih =>
    obtain ⟨hlen,hkeys,hlook⟩ := ih
    have hnew : cString (decimal (rs.length+1)) ∉ (numbered C rs).2.map Prod.fst := by
      rw [cString_decimal]
      intro hk
      obtain ⟨j,hj,e⟩ := hkeys _ hk
      have := decimal_injective e
      omega
    rw [numbered_append,hlen]
    refine ⟨by rw [length_append,length_singleton],fun k hk => ?_,fun i => ?_⟩
    · rw [length_append,length_singleton]
      rcases (insert_keys k).mp hk with hk | rfl
      · obtain ⟨j,hj,e⟩ := hkeys k hk
        exact ⟨j,by omega,e⟩
      · exact ⟨rs.length,by omega,cString_decimal _⟩
    · rw [lookup_insert hnew,cString_decimal,cString_decimal,hlook]
      by_cases e : i = rs.length
      · rw [if_pos (by rw [e]),e,getElem?_concat_length]
        rfl
      · rw [if_neg (fun h => e (Nat.succ_injective (decimal_injective h)))]
        rcases Nat.lt_or_gt_of_ne e with hlt | hgt
        · rw [getElem?_append_left hlt]
        · rw [getElem?_eq_none (by omega),getElem?_eq_none]
          rw [length_append,length_singleton]
          omega

theorem filterMap_range (rs : List StoredBlock) :
    (range rs.length).filterMap (fun i => rs[i]?) = rs := by
  induction rs using reverseRecOn with
  | nil => rfl
  | append_singleton rs r ih =>
    rw [length_append,length_singleton,range_succ,filterMap_append]
    congr 1
    · refine Eq.trans ?_ ih
      refine filterMap_congr fun i hi => ?_
      exact getElem?_append_left (mem_range.mp hi)
    · simp

theorem walk_order (hrs : ∀ r ∈ rs, L.blocks[C.blockHash r.block]? = some r) :
    ((range rs.length).reverse.filterMap fun i =>
      (lookup (walkedBlocksOrder C rs) (decimal (i+1))).bind fun h => L.blocks[h]?) =
    rs.reverse := by
  have hlook := (numbered_spec (C := C) rs).2.2
  rw [filterMap_reverse]
  congr 1
  refine Eq.trans (filterMap_congr fun i _ => ?_) (filterMap_range rs)
  show (lookup (numbered C rs).2 (decimal (i+1))).bind _ = _
  rw [hlook]
  cases hi : rs[i]? with
  | none => rfl
  | some r => exact hrs r (mem_of_getElem? hi)

end
variable {C : Constants} {U : Set Hashables} {S : HashSound C U} {X : Nodes} {L : Ledger}
  {h b d : BlockHash} {r : StoredBlock} {limit : ℕ}

abbrev always (_ : StoredBlock) : Bool := true

section
variable (V : Valid S L X) (hr : L.blocks[b]? = some r)
include V hr

theorem stored_hash : C.blockHash r.block = b := by
  obtain ⟨n,hn,hs⟩ := V.mirrors.block b r hr
  rw [Constants.blockHash,hs.hashables]
  exact (Chains.built_hash V.built hn).1

theorem stored_dependency (hd : DependsOn C r d) :
    ∃ k, L.blocks[d]? = some k := by
  obtain ⟨n,hn,hs⟩ := V.mirrors.block b r hr
  obtain ⟨m,hm⟩ := Causal.Built.deps_present V.built hn ((dependsOn_iff V.built hn hs).mp hd)
  obtain ⟨k,hk,-⟩ := V.mirrors.get hm
  exact ⟨k,hk⟩

theorem mem_dependents :
    d ∈ dependents C L r ↔ DependsOn C r d := by
  unfold dependents
  rw [mem_filterMap]
  constructor
  · rintro ⟨e,he,hd⟩
    split_ifs at hd with h0
    obtain ⟨k,hk,rfl⟩ := Option.map_eq_some_iff.mp hd
    rw [stored_hash V hk]
    exact ⟨h0,by simpa using he⟩
  · intro hd
    obtain ⟨k,hk⟩ := stored_dependency V hr hd
    refine ⟨d,by simpa using hd.2,?_⟩
    rw [if_pos hd.1,hk,Option.map_some,stored_hash V hk]

end

section
variable (V : Valid S L X)
include V

theorem edge_iff : Edge (expand C L always) b d ↔
    ∃ r, L.blocks[b]? = some r ∧ DependsOn C r d := by
  constructor
  · rintro ⟨ds,he,hd⟩
    obtain ⟨r,hr,e⟩ := Option.map_eq_some_iff.mp he
    cases e
    exact ⟨r,hr,(mem_dependents V hr).mp hd⟩
  · rintro ⟨r,hr,hd⟩
    refine ⟨dependents C L r,?_,(mem_dependents V hr).mpr hd⟩
    rw [expand,hr]
    rfl

theorem reach_eq (h : BlockHash) :
    reach (expand C L always) h = {b | Needs C L h b} := by
  ext b
  constructor
  · intro hb
    induction hb with
    | refl => exact Needs.self
    | tail _ he ih =>
      obtain ⟨r,hr,hd⟩ := (edge_iff V).mp he
      exact Needs.step ih hr hd
  · intro hb
    induction hb with
    | self => exact .refl
    | step _ hr hd ih => exact ih.tail ((edge_iff V).mpr ⟨_,hr,hd⟩)

theorem needed_present (hh : L.blocks.contains h = true) (hb : Needs C L h b) :
    ∃ r, L.blocks[b]? = some r := by
  induction hb with
  | self =>
    rw [Std.ExtTreeMap.contains_eq_isSome_getElem?] at hh
    exact Option.isSome_iff_exists.mp hh
  | step _ hr hd _ => exact stored_dependency V hr hd

theorem dependencies_finite (hh : L.blocks.contains h = true) :
    {b | Needs C L h b}.Finite := by
  refine (Causal.Built.finite V.built).subset fun b hb => ?_
  obtain ⟨r,hr⟩ := needed_present V hh hb
  obtain ⟨n,hn,-⟩ := V.mirrors.block b r hr
  show X b ≠ none
  rw [hn]
  exact Option.some_ne_none n

end

/-- What a walk hands to the visitor: records of the ledger, none of them twice and
only dependencies; the second pass reverses them. -/
structure Walks (C : Constants) (L : Ledger) (limit : ℕ) (h : BlockHash) (rs : List StoredBlock) :
    Prop where
  backward : ∃ n, ∀ fuel, n ≤ fuel → walkBackward C L limit fuel always h = some rs ∧
    walk C L limit fuel always h = some rs.reverse
  records : ∀ r ∈ rs, L.blocks[C.blockHash r.block]? = some r
  once : (rs.map fun r => C.blockHash r.block).Nodup
  within : ∀ b ∈ rs.map (fun r => C.blockHash r.block), Needs C L h b

def Exact (C : Constants) (L : Ledger) (limit : ℕ) (h : BlockHash) : Prop :=
  ∃ rs, Walks C L limit h rs ∧
    ∀ b, b ∈ rs.map (fun r => C.blockHash r.block) ↔ Needs C L h b

theorem hashes_filterMap (V : Valid S L X) {hs : List BlockHash}
    (hall : ∀ b ∈ hs, ∃ r, L.blocks[b]? = some r) :
    (hs.filterMap fun b => L.blocks[b]?).map (fun r => C.blockHash r.block) = hs := by
  rw [map_filterMap]
  refine (filterMap_congr fun b hb => ?_).trans filterMap_some
  obtain ⟨r,hr⟩ := hall b hb
  rw [hr,Option.map_some,stored_hash V hr]

theorem expand_needed (V : Valid S L X) (hh : L.blocks.contains h = true)
    (hb : Needs C L h b) : ∃ ds, expand C L always b = some (some ds) := by
  obtain ⟨r,hr⟩ := needed_present V hh hb
  rw [expand,hr]
  exact ⟨dependents C L r,rfl⟩

theorem first_added (limit : ℕ) (h : BlockHash) : (addToWalkedBlocks limit {} h).1 = true := by
  by_contra hf
  rcases ((added (represents_empty limit) h).known (Bool.eq_false_iff.mpr hf)).2 with
    hm | ⟨-,y,hy,-⟩
  · exact hm
  · exact hy

section
variable (V : Valid S L X) (hh : L.blocks.contains h = true)
include V hh

theorem search_ends (limit : ℕ) : ∃ n t,
    Loop.loop (round (addToWalkedBlocks limit) (expand C L always)) n
      (enqueue (addToWalkedBlocks limit) ⟨{},[],[]⟩ h) = some t ∧
    Result (addToWalkedBlocks limit) (expand C L always) (Represents limit) h t := by
  have hreach := reach_eq V h
  have hpresent : ∀ x ∈ reach (expand C L always) h, expand C L always x ≠ none := by
    intro x hx
    rw [hreach] at hx
    obtain ⟨ds,hds⟩ := expand_needed V hh hx
    rw [hds]
    exact Option.some_ne_none _
  have hfin : (reach (expand C L always) h).Finite := by
    rw [hreach]
    exact dependencies_finite V hh
  exact ⟨_,search_total (admits limit _) hpresent hfin (represents_empty limit)
    (first_added limit h) (Nat.lt_succ_self _)⟩

/-- Every walk ends. What it visits is the set its container stands for, and all
dependencies if the container is faithful. -/
theorem walks (limit : ℕ) : ∃ rs w, Walks C L limit h rs ∧
      Represents limit w {b | b ∈ rs.map fun r => C.blockHash r.block} ∧
      (Faithful (addToWalkedBlocks limit) (Represents limit) {b | Needs C L h b} →
        ∀ b, Needs C L h b → b ∈ rs.map fun r => C.blockHash r.block) := by
  obtain ⟨n,t,ht,T⟩ := search_ends V hh limit
  have hreach := reach_eq V h
  obtain ⟨A,hA,hsub,hvis⟩ := T.seen
  rw [hreach] at hsub
  have hset : {b | b ∈ t.visited} = A := by
    ext x
    exact (hvis x).trans (and_iff_left_of_imp fun hx => expand_needed V hh (hsub hx))
  have hneeds : ∀ b ∈ t.visited, Needs C L h b := fun b hb => hsub ((hvis b).mp hb).1
  have hhash := hashes_filterMap V fun b hb => needed_present V hh (hneeds b hb)
  have hrec : ∀ r ∈ t.visited.filterMap (fun b => L.blocks[b]?),
      L.blocks[C.blockHash r.block]? = some r := by
    intro r hr
    obtain ⟨b,-,hb⟩ := mem_filterMap.mp hr
    rw [stored_hash V hb]
    exact hb
  have hback : ∀ fuel, n ≤ fuel → walkBackward C L limit fuel always h =
      some (t.visited.filterMap fun b => L.blocks[b]?) := by
    intro fuel hf
    rw [walkBackward,(Simulation.Follows.loop_extends (fun _ => .of_eq rfl) hf _).eq ht,
      Option.map_some]
  refine ⟨t.visited.filterMap fun b => L.blocks[b]?,t.seen,⟨⟨n,fun fuel hf => ?_⟩,hrec,?_,?_⟩,?_,?_⟩
  · rw [walk,hback fuel hf,Option.map_some,walk_order hrec]
    exact ⟨rfl,rfl⟩
  · rw [hhash]
    exact T.once
  · rw [hhash]
    exact hneeds
  · rw [hhash,hset]
    exact hA
  · intro hf b hb
    rw [hhash]
    rw [← hreach] at hf
    have hb' : b ∈ reach (expand C L always) h := by
      rw [hreach]
      exact hb
    exact T.complete hf b hb' (expand_needed V hh hb)

def KeysDistinct (C : Constants) (L : Ledger) (h : BlockHash) : Prop :=
  Set.InjOn diskKey {b | Needs C L h b}

theorem exact_of_distinct (hk : KeysDistinct C L h ∨ {b | Needs C L h b}.ncard ≤ limit) :
    Exact C L limit h := by
  obtain ⟨rs,w,W,-,hall⟩ := walks V hh limit
  have hf : Faithful (addToWalkedBlocks limit) (Represents limit)
      {b | Needs C L h b} :=
    faithful (hk.imp id fun hc => ⟨dependencies_finite V hh,hc⟩)
  exact ⟨rs,W,fun b => ⟨W.within b,hall hf b⟩⟩

theorem distinct_of_exact (hx : Exact C L 0 h) : KeysDistinct C L h := by
  obtain ⟨rs,W,hall⟩ := hx
  obtain ⟨rs',w,W',hR,-⟩ := walks V hh 0
  -- both lists are what the walk returns
  obtain ⟨n,hn⟩ := W.backward
  obtain ⟨m,hm⟩ := W'.backward
  have hn' := (hn (max n m) (le_max_left n m)).1
  have hm' := (hm (max n m) (le_max_right n m)).1
  obtain rfl : rs = rs' := Option.some.inj (hn'.symm.trans hm')
  have hset : {b | Needs C L h b} = {b | b ∈ rs.map fun r => C.blockHash r.block} := by
    ext b
    exact (hall b).symm
  rw [KeysDistinct,hset]
  exact hR.distinct rfl

end

/-- Every walk ends, visits nothing twice and nothing but dependencies, and the second
pass reverses it. It visits all dependencies whatever the limit exactly when their keys
are distinct, and the limit that is built in, zero, decides that. A limit that is never
exceeded needs no distinct keys. -/
theorem walker_exact_iff (S : HashSound C U) (hr : Reachable C U L)
    (hh : L.blocks.contains h = true) :
    (∀ limit, ∃ rs, Walks C L limit h rs) ∧
    ((∀ limit, Exact C L limit h) ↔ KeysDistinct C L h) ∧
    (Exact C L 0 h ↔ KeysDistinct C L h) ∧
    (∀ limit, {b | Needs C L h b}.ncard ≤ limit → Exact C L limit h) := by
  obtain ⟨X,V⟩ := reachable_valid S hr
  have hends : ∀ limit, ∃ rs, Walks C L limit h rs := by
    intro limit
    obtain ⟨rs,-,W,-⟩ := walks V hh limit
    exact ⟨rs,W⟩
  have hiff : Exact C L 0 h ↔ KeysDistinct C L h :=
    ⟨distinct_of_exact V hh,fun hk => exact_of_distinct V hh (.inl hk)⟩
  have hall : (∀ limit, Exact C L limit h) ↔ KeysDistinct C L h :=
    ⟨fun hx => hiff.mp (hx 0),fun hk limit => exact_of_distinct V hh (.inl hk)⟩
  exact ⟨hends,hall,hiff,fun limit hc => exact_of_distinct V hh (.inr hc)⟩

/-- The sample with the number of a hash in its first byte. -/
def keyed : Constants := { sample with hash := fun hs => sample.hash hs <<< 248 }

def keyedSend : Block := ⟨.send ⟨2 <<< 248,7,BitVec.allOnes 128-5⟩,0,0⟩

def keyedOpen : Block := ⟨.state ⟨7,0,9,5,3 <<< 248⟩,0,0⟩

theorem keyed_sound : HashSound keyed
    {keyed.genesis.hashables,keyedSend.hashables,keyedOpen.hashables} := by
  refine .of_forall ?_ ?_ (.inl rfl)
  · rintro a (rfl | rfl | rfl) b (rfl | rfl | rfl) h <;> first | rfl | (revert h; decide)
  · rintro a (rfl | rfl | rfl) <;> decide

theorem walker_exact_iff_sample :
    let L := processed keyed (processed keyed (storeInitialize keyed 0) keyedSend) keyedOpen
    L.blocks.contains (6 <<< 248) = true ∧ ∀ limit, Exact keyed L limit (6 <<< 248) := by
  intro L
  have hc : L.blocks.contains (6 <<< 248) = true := by decide +kernel
  have hr := reachable_processed keyed_sound (reachable_processed keyed_sound (.start 0)
    (.inr (.inl rfl)) (epochOpens_none (by decide))) (.inr (.inr rfl)) (epochOpens_none (by decide))
  refine ⟨hc,(walker_exact_iff keyed_sound hr hc).2.1.mpr fun x hx y hy => ?_⟩
  have hlist : ∀ b, Needs keyed L (6 <<< 248) b →
      b ∈ [(6 <<< 248 : BlockHash),3 <<< 248,2 <<< 248] :=
    fun b hb => needs_listed (by decide +kernel) mem_cons_self hb
  exact (by decide +kernel : ∀ x ∈ [(6 <<< 248 : BlockHash),3 <<< 248,2 <<< 248],
    ∀ y ∈ [(6 <<< 248 : BlockHash),3 <<< 248,2 <<< 248], diskKey x = diskKey y → x = y)
    x (hlist x hx) y (hlist y hy)

/-- The hashes of the sample ledger begin with a zero byte, so on disk they all have the
empty key: the block that was received is not visited. -/
theorem walker_misses_dependency : Reachable sample sampleBlocks sampleOpened ∧
    sampleOpened.blocks.contains 6 = true ∧ Needs sample sampleOpened 6 3 ∧
    diskKey 6 = diskKey 3 ∧
    ((walkBackward sample sampleOpened 0 2 always 6).map fun rs =>
      rs.map fun r => sample.blockHash r.block) = some [6] ∧
    ¬ Exact sample sampleOpened 0 6 := by
  have hc := sampleOpened_contains
  have hkey : diskKey 6 = diskKey 3 := by decide +kernel
  have hfollows : Option.any (fun r => decide (DependsOn sample r 3))
      (sampleOpened.blocks[(6 : BlockHash)]?) = true := by decide +kernel
  have hneeds : Needs sample sampleOpened 6 3 := by
    obtain ⟨r,hr,hd⟩ := (Option.any_eq_true _ _).mp hfollows
    exact .step .self hr (of_decide_eq_true hd)
  refine ⟨sampleOpened_reachable,hc,hneeds,hkey,by decide +kernel,fun hx => ?_⟩
  obtain ⟨X,V⟩ := reachable_valid sample_sound sampleOpened_reachable
  have hinj := distinct_of_exact V hc hx .self hneeds hkey
  exact absurd hinj (by decide)

end Vxldollar.LedgerWalker
