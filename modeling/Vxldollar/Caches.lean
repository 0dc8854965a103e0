import Vxldollar.Library.Ranges
import Vxldollar.Prefixes

/-!
# The caches and their recomputation

`ledger.initialize` rebuilds the caches from the tables, with threads that each
take one range of the keys. In every ledger that processing, rollbacks and the
confirmation height processors lead to, the caches kept along the way are what
the threads would compute, in whatever order they finish.
-/

namespace Vxldollar.Caches
open Blocks Store Vxldollar.Lattice Chains Heights Mirror Totals Process ProcessSpec Confirmation
  Runs Cementing Sources Traces CementingRuns Nesting Prefixes Table Ranges BitVec Nat
open List hiding count

section
def threadCount (hardwareConcurrency : BitVec 32) : ℕ :=
  max 10 (min 40 (10*hardwareConcurrency).toNat)

variable (threads : ℕ)

/-- `parallel_traversal` over 256-bit keys: the width of a range. -/
def split : Account := BitVec.allOnes 256/BitVec.ofNat 256 threads

def threadStart (t : ℕ) : Account := BitVec.ofNat 256 t*split threads

/-- The last thread goes on to the end of the table. -/
def threadStop (t : ℕ) : Option Account :=
  if t = threads-1 then none else some (BitVec.ofNat 256 (t+1)*split threads)

structure Gathered where
  blockCount : ℕ := 0
  accountCount : ℕ := 0
  repWeights : RepWeights := ∅

def gather (es : List (Account × AccountInfo)) : Gathered :=
  es.foldl (fun g e => ⟨g.blockCount+e.2.blockCount,g.accountCount+1,
    representationAdd g.repWeights e.2.representative e.2.balance⟩) {}

def copyFrom (w other : RepWeights) : RepWeights :=
  other.toList.foldl (fun w e => representationAdd w e.1 e.2) w

def accountsThread (L : Ledger) (c : Cache) (t : ℕ) : Cache :=
  let g := gather (Ranges.entries L.accounts (threadStart threads t) (threadStop threads t))
  { c with
    blockCount := c.blockCount+g.blockCount
    accountCount := c.accountCount+g.accountCount
    repWeights := copyFrom c.repWeights g.repWeights }

def heightsThread (L : Ledger) (c : Cache) (t : ℕ) : Cache :=
  let es := Ranges.entries L.confirmationHeight (threadStart threads t) (threadStop threads t)
  { c with cementedCount := c.cementedCount+es.foldl (fun n e => n+e.2.height) 0 }

/-- `ledger.initialize` with all flags set. The threads add their results in
the order in which they finish. -/
def ledgerInitialize (C : Constants) (L : Ledger) (accountsOrder heightsOrder : List ℕ) : Cache :=
  let c := accountsOrder.foldl (accountsThread threads L) {}
  let c := heightsOrder.foldl (heightsThread threads L) c
  match L.confirmationHeight[C.finalVotesCanaryAccount]? with
  | some info => { c with
      finalVotesConfirmationCanary := decide (info.height ≥ C.finalVotesCanaryHeight) }
  | none => c

end

section
variable {threads t : ℕ}

theorem compare_gt {k l : BitVec 256} : compare k l ≠ .gt ↔ ¬ l < k := by
  rw [ne_eq,Std.OrientedCmp.gt_iff_lt,compare_lt]

theorem within_iff (start : Account) (stop : Option Account) (k : Account) :
    within start stop k = true ↔ start ≤ k ∧ ∀ s ∈ stop, k < s := by
  unfold within
  rw [Bool.and_eq_true,bne_iff_ne,ne_eq,compare_lt,BitVec.not_lt]
  cases stop with
  | none => simp
  | some s => simp [compare_lt]

variable (h0 : 0 < threads) (h40 : threads ≤ 40)
include h0 h40

theorem split_mul_le (ht : t ≤ threads) : t*(split threads).toNat < 2^256 := by
  have hsplit : (split threads).toNat = (2^256-1)/threads := by
    unfold split
    rw [toNat_udiv,toNat_allOnes,toNat_ofNat,mod_eq_of_lt]
    omega
  have h1 : threads*((2^256-1)/threads) ≤ 2^256-1 := mul_div_le _ _
  have h2 : t*((2^256-1)/threads) ≤ threads*((2^256-1)/threads) := mul_le_mul_right _ ht
  rw [hsplit]
  omega

theorem mul_split_toNat (ht : t ≤ threads) :
    (BitVec.ofNat 256 t*split threads).toNat = t*(split threads).toNat := by
  have hlt := split_mul_le h0 h40 ht
  rw [toNat_mul,toNat_ofNat,mod_eq_of_lt (by omega : t < 2^256),
    mod_eq_of_lt hlt]

theorem within_thread_iff (ht : t < threads) (k : Account) :
    Ranges.within (threadStart threads t) (threadStop threads t) k = true ↔
      (t*(split threads).toNat ≤ k.toNat ∧
        (t = threads-1 ∨ k.toNat < (t+1)*(split threads).toNat)) := by
  rw [within_iff,threadStart,threadStop,le_def,mul_split_toNat h0 h40 ht.le]
  by_cases hl : t = threads-1
  · simp [hl]
  · rw [if_neg hl]
    simp [lt_def,mul_split_toNat h0 h40 ht,hl]

theorem split_pos : 0 < (split threads).toNat := by
  unfold split
  rw [toNat_udiv,toNat_allOnes,toNat_ofNat,mod_eq_of_lt (by omega)]
  apply Nat.div_pos
  · omega
  · exact h0

theorem one_thread (k : Account) : ∃ t < threads, ∀ u < threads,
      Ranges.within (threadStart threads u) (threadStop threads u) k = true ↔ u = t := by
  obtain ⟨t,ht,hone⟩ := even_exactly_one threads (split threads).toNat k.toNat h0
    (split_pos h0 h40)
  refine ⟨t,ht,fun u hu => ?_⟩
  rw [within_thread_iff h0 h40 hu,hone u hu]

theorem thread_entries {V : Type} (ht : t < threads) (m : Std.ExtTreeMap Account V) :
    Ranges.entries m (threadStart threads t) (threadStop threads t) =
      m.toList.filter (fun e => Ranges.within (threadStart threads t) (threadStop threads t)
        e.1) := by
  apply entries_eq_filter
  intro s hs
  rw [compare_gt,BitVec.not_lt,le_def,threadStart,mul_split_toNat h0 h40 ht.le]
  have hs' : s = BitVec.ofNat 256 (t+1)*split threads := by
    unfold threadStop at hs
    by_cases hl : t = threads-1
    · rw [if_pos hl] at hs
      cases hs
    · rw [if_neg hl] at hs
      exact (Option.mem_some_iff.mp hs).symm
  rw [hs',mul_split_toNat h0 h40 ht]
  exact mul_le_mul_right _ (le_succ t)

theorem threads_sum {V M : Type} [AddCommMonoid M] (m : Std.ExtTreeMap Account V)
    (f : Account × V → M) {order : List ℕ} (ho : order.Perm (List.range threads)) :
    (order.map (fun t => ((Ranges.entries m (threadStart threads t)
      (threadStop threads t)).map f).sum)).sum = Table.total (fun k v => f (k,v)) m := by
  have hfilter : (List.range threads).map (fun t => ((entries m (threadStart threads t)
        (threadStop threads t)).map f).sum) =
      (List.range threads).map (fun t => ((m.toList.filter (fun e => within
        (threadStart threads t) (threadStop threads t) e.1)).map f).sum) := by
    apply map_congr_left
    intro t ht
    rw [thread_entries h0 h40 (mem_range.mp ht)]
  rw [(ho.map _).sum_eq,hfilter]
  refine sum_parts (List.range threads) nodup_range
    (fun t (e : Account × V) => within (threadStart threads t) (threadStop threads t) e.1)
    f m.toList ?_
  intro e _
  obtain ⟨t,ht,hone⟩ := one_thread h0 h40 e.1
  exact ⟨t,mem_range.mpr ht,fun u hu => hone u (mem_range.mp hu)⟩

end

section
variable {threads : ℕ} {L : Ledger}

theorem weights_fold (es : List (Account × Amount)) (w : RepWeights) (r : Account) :
    representationGet (es.foldl (fun w e => representationAdd w e.1 e.2) w) r =
      representationGet w r+(es.map (fun e => if e.1 = r then e.2 else 0)).sum := by
  induction es generalizing w with
  | nil => simp
  | cons e es ih =>
    rw [foldl_cons,ih,Writes.representationGet_add,map_cons,sum_cons,add_assoc]

theorem copyFrom_get (w other : RepWeights) (r : Account) :
    representationGet (copyFrom w other) r = representationGet w r+representationGet other r := by
  have hzero : ∀ m, m[r]? = none →
      total (fun k v => if k = r then v else 0) m = (0 : Amount) := by
    intro m hm
    apply sum_eq_zero
    intro x hx
    obtain ⟨e,he,rfl⟩ := mem_map.mp hx
    refine if_neg ?_
    rintro rfl
    rw [(mem_entries m e.1 e.2).mp he] at hm
    cases hm
  rw [copyFrom,weights_fold]
  congr 1
  change total (fun k v => if k = r then v else 0) other = other[r]?.getD 0
  cases hr : other[r]? with
  | none => exact hzero other hr
  | some v =>
    rw [total_erase _ _ r v hr,hzero _ (by simp),if_pos rfl,add_zero,Option.getD_some]

theorem gather_spec (es : List (Account × AccountInfo)) :
    (gather es).blockCount = (es.map (fun e => e.2.blockCount)).sum ∧
    (gather es).accountCount = (es.map (fun _ => 1)).sum ∧
    ∀ r, representationGet (gather es).repWeights r =
      (es.map (fun e => if e.2.representative = r then e.2.balance else 0)).sum := by
  have hfold : ∀ (es : List (Account × AccountInfo)) (g : Gathered),
      (es.foldl (fun g e => Gathered.mk (g.blockCount+e.2.blockCount) (g.accountCount+1)
        (representationAdd g.repWeights e.2.representative e.2.balance)) g) =
      ⟨g.blockCount+(es.map (fun e => e.2.blockCount)).sum,
        g.accountCount+(es.map (fun _ => 1)).sum,
        (es.map (fun e => (e.2.representative,e.2.balance))).foldl
          (fun w e => representationAdd w e.1 e.2) g.repWeights⟩ := by
    intro es
    induction es with
    | nil =>
      intro g
      rfl
    | cons e es ih =>
      intro g
      rw [foldl_cons,ih]
      simp [add_assoc]
  unfold gather
  rw [hfold]
  refine ⟨by simp,by simp,fun r => ?_⟩
  rw [weights_fold,map_map]
  change (0 : Amount)+_ = _
  rw [zero_add]
  rfl

variable (threads L) in
theorem accounts_fold (order : List ℕ) (c : Cache) :
    let part := fun t => Ranges.entries L.accounts (threadStart threads t) (threadStop threads t)
    let c' := order.foldl (accountsThread threads L) c
    c'.blockCount = c.blockCount+
      (order.map (fun t => ((part t).map (fun e => e.2.blockCount)).sum)).sum ∧
    c'.accountCount = c.accountCount+(order.map (fun t => ((part t).map (fun _ => 1)).sum)).sum ∧
    (∀ r, representationGet c'.repWeights r = representationGet c.repWeights r+
      (order.map (fun t => ((part t).map (fun e =>
        if e.2.representative = r then e.2.balance else 0)).sum)).sum) ∧
    c'.cementedCount = c.cementedCount := by
  dsimp only
  induction order generalizing c with
  | nil => simp
  | cons t order ih =>
    obtain ⟨h1,h2,h3,h4⟩ := ih (accountsThread threads L c t)
    obtain ⟨g1,g2,g3⟩ := gather_spec
      (entries L.accounts (threadStart threads t) (threadStop threads t))
    simp only [foldl_cons,map_cons,sum_cons]
    refine ⟨?_,?_,fun r => ?_,h4⟩
    · rw [h1,← g1,← add_assoc]
      rfl
    · rw [h2,← g2,← add_assoc]
      rfl
    · rw [h3,← g3,← add_assoc,← copyFrom_get]
      rfl

theorem heights_fold (order : List ℕ) (c : Cache) :
    let part := fun t => Ranges.entries L.confirmationHeight (threadStart threads t)
      (threadStop threads t)
    order.foldl (heightsThread threads L) c = { c with cementedCount := c.cementedCount+
      (order.map (fun t => ((part t).map (fun e => e.2.height)).sum)).sum } := by
  dsimp only
  induction order generalizing c with
  | nil => rfl
  | cons t order ih =>
    have hsum : ∀ es : List (Account × ConfirmationHeightInfo),
        es.foldl (fun n e => n+e.2.height) 0 = (es.map (fun e => e.2.height)).sum := by
      intro es
      rw [sum_eq_foldl,foldl_map]
    rw [foldl_cons,ih,heightsThread]
    simp [hsum,add_assoc]

/-- A cache that holds the totals of the tables. Representatives without weight
may or may not have an entry. -/
structure Computes (L : Ledger) (c : Cache) : Prop where
  blockCount : c.blockCount = total (fun _ i => i.blockCount) L.accounts
  accountCount : c.accountCount = count L.accounts
  weights : ∀ r, representationGet c.repWeights r = represented L.accounts r
  cementedCount : c.cementedCount = heights L

theorem ledgerInitialize_computes (h0 : 0 < threads) (h40 : threads ≤ 40) (C : Constants)
    {accountsOrder heightsOrder : List ℕ} (ha : accountsOrder.Perm (List.range threads))
    (hh : heightsOrder.Perm (List.range threads)) :
    Computes L (ledgerInitialize threads C L accountsOrder heightsOrder) := by
  obtain ⟨h1,h2,h3,h4⟩ := accounts_fold threads L accountsOrder {}
  have hc : Computes L (heightsOrder.foldl (heightsThread threads L)
      (accountsOrder.foldl (accountsThread threads L) {})) := by
    rw [heights_fold]
    refine ⟨?_,?_,fun r => ?_,?_⟩
    · rw [h1,threads_sum h0 h40 _ _ ha]
      exact zero_add _
    · rw [h2,threads_sum h0 h40 _ _ ha]
      exact zero_add _
    · rw [h3,threads_sum h0 h40 _ _ ha]
      exact zero_add _
    · dsimp only at h4 ⊢
      rw [h4,threads_sum h0 h40 _ _ hh]
      exact zero_add _
  unfold ledgerInitialize
  dsimp only
  split
  · exact ⟨hc.blockCount,hc.accountCount,hc.weights,hc.cementedCount⟩
  · exact hc

end

section
variable {C : Constants} {U : Set Hashables} {S : HashSound C U} {X : Nodes} {L : Ledger}

theorem account_heights (M : Mirrors L X) (hb : Built S X) {a : Account} {i : AccountInfo}
    (hi : L.accounts[a]? = some i) :
    ((L.blocks.toList.filter (fun e => decide (e.2.accountCalculated = a))).map
      (fun e => e.2.sideband.height)).Perm (range' 1 i.blockCount) := by
  obtain ⟨h,n,hh,rfl,hinfo⟩ := M.account a i hi
  have hmem : ∀ e : BlockHash × StoredBlock, e ∈ L.blocks.toList.filter
      (fun e => decide (e.2.accountCalculated = n.account)) ↔
      ∃ m, X e.1 = some m ∧ Stores X e.1 m e.2 ∧ L.blocks[e.1]? = some e.2 ∧
        m.account = n.account := by
    intro e
    rw [mem_filter,mem_entries,decide_eq_true_eq]
    constructor
    · rintro ⟨hr,ha⟩
      obtain ⟨m,hm,hs⟩ := M.block e.1 e.2 hr
      exact ⟨m,hm,hs,hr,(stores_account hb hm hs).symm.trans ha⟩
    · rintro ⟨m,hm,hs,hr,ha⟩
      exact ⟨hr,(stores_account hb hm hs).trans ha⟩
  rw [perm_ext_iff_of_nodup ?_ nodup_range']
  · intro k
    rw [mem_map,mem_range'_1,hinfo]
    constructor
    · rintro ⟨e,he,rfl⟩
      obtain ⟨m,hm,hs,-,ha⟩ := (hmem e).mp he
      rw [stores_height hb hm hs]
      have := height_pos hb hm
      have : m.height ≤ n.height := height_le_head hb hm hh ha
      change 1 ≤ m.height ∧ m.height < 1+n.height
      omega
    · intro hk
      change 1 ≤ k ∧ k < 1+n.height at hk
      obtain ⟨m,hm,ha,hheight,-⟩ := back_iterate hb hh.1 (n.height-k) (by omega)
      obtain ⟨r,hr,hs⟩ := M.get hm
      refine ⟨(_,r),(hmem _).mpr ⟨m,hm,hs,hr,ha⟩,?_⟩
      rw [stores_height hb hm hs]
      omega
  · apply Nodup.map_on
    · intro e he e' he' heq
      obtain ⟨m,hm,hs,hr,ha⟩ := (hmem e).mp he
      obtain ⟨m',hm',hs',hr',ha'⟩ := (hmem e').mp he'
      rw [stores_height hb hm hs,stores_height hb hm' hs'] at heq
      have hkey := height_unique hb hm hm' (ha.trans ha'.symm) heq
      rw [hkey,hr'] at hr
      exact Prod.ext hkey (Option.some.inj hr).symm
    · exact (entries_nodup L.blocks).filter _

theorem blocks_counted (M : Mirrors L X) (hb : Built S X) :
    total (fun _ i => i.blockCount) L.accounts = count L.blocks := by
  have hpart : L.accounts.toList.map (fun t => t.2.blockCount) = L.accounts.toList.map (fun t =>
      ((L.blocks.toList.filter (fun e => decide (e.2.accountCalculated = t.1))).map
        (fun _ => 1)).sum) := by
    apply map_congr_left
    intro t ht
    have hlen := (account_heights M hb ((mem_entries _ _ _).mp ht)).length_eq
    rw [length_map,length_range'] at hlen
    rw [← hlen]
    simp
  change (L.accounts.toList.map (fun t => t.2.blockCount)).sum =
    (L.blocks.toList.map (fun _ => 1)).sum
  rw [hpart]
  apply sum_parts _ (entries_nodup L.accounts)
    (fun t (e : BlockHash × StoredBlock) => decide (e.2.accountCalculated = t.1))
  intro e he
  obtain ⟨m,hm,hs⟩ := M.block e.1 e.2 ((mem_entries _ _ _).mp he)
  obtain ⟨g,x,hx,hacc,-⟩ := head_exists hb hm
  obtain ⟨i,hi⟩ := M.opened g x hx
  refine ⟨(x.account,i),(mem_entries _ _ _).mpr hi,fun u hu => ?_⟩
  rw [decide_eq_true_eq,stores_account hb hm hs,← hacc]
  constructor
  · rintro heq
    have hu' := (mem_entries _ _ _).mp hu
    rw [← heq,hi] at hu'
    exact Prod.ext heq.symm (Option.some.inj hu').symm
  · rintro rfl
    rfl

end

variable {C : Constants} {U : Set Hashables} {L L' : Ledger} {F : Forest Account BlockHash}

/-- The ledgers that processing, rollbacks and the two confirmation height
processors lead to. A processor may be left at any stage of its run, and in the
middle of a write after a commit. Blocks are added to the bounded processor where
`ok` holds. -/
inductive Operated (C : Constants) (U : Set Hashables)
    (ok : Bounded.Processor → BlockHash → Prop) : Ledger → Prop
  | start (now : ℕ) : Operated C U ok (storeInitialize C now)
  | process {L L' : Ledger} {b : Block} {verified : SignatureVerification}
      {result : ProcessReturn} {now : ℕ} : Operated C U ok L → b.hashables ∈ U →
      Honest C L b verified → EpochOpens C L b →
      process C now L b verified = some (result,L') → Operated C U ok L'
  | rollback {L L' : Ledger} {h : BlockHash} {list list' : Rollback.RollbackList} {error : Bool}
      {fuel now : ℕ} : Operated C U ok L → L.blocks.contains h = true →
      Rollback.rollback C now fuel L h list = some (error,L',list') → Operated C U ok L'
  | unbounded {L : Ledger} {env : Environment} {size : ℕ}
      {s : Stage Unbounded.Processor Unbounded.Walk} : Operated C U ok L →
      Unbounded.Reaches C env (Unbounded.fresh L size) s →
      Operated C U ok (Unbounded.stageTrace s).ledger
  | bounded {L : Ledger} {env : Environment} {fuel size : ℕ}
      {s : Stage Bounded.Processor Bounded.Walk} : Operated C U ok L →
      (∀ (h : BlockHash) (r : StoredBlock), L.blocks[h]? = some r → r.sideband.height < fuel) →
      Bounded.Reaches C env fuel ok (Bounded.fresh L size) s →
      Operated C U ok (Bounded.stageTrace s).ledger
  | committed {L M : Ledger} {env : Environment} {fuel size : ℕ} {t : Trace} :
      Operated C U ok L →
      (∀ (h : BlockHash) (r : StoredBlock), L.blocks[h]? = some r → r.sideband.height < fuel) →
      Bounded.Shows C env fuel ok (Bounded.fresh L size) t → M ∈ t.commits → Operated C U ok M

theorem written_raised (g : Grounds C F L) {bs : List BlockHash} (hw : Written F L L')
    (ha : F.Advances (heightsIn L) bs (heightsIn L')) : Raised C L L' := by
  have hcanary : L'.cache.finalVotesConfirmationCanary =
      L.cache.finalVotesConfirmationCanary := by
    rw [hw.rest]
  refine ⟨?_,ha.le,fun a i hi => ?_,written_closed g hw ha,?_⟩
  · rw [hcanary]
    exact hw.rest
  · obtain ⟨hm,hacc,hheight⟩ := hw.frontier a i hi
    obtain ⟨r,hr,hread⟩ := g.backed.get _ hm
    exact ⟨r,hr,hread.account.trans hacc,hread.height.trans hheight⟩
  · rw [hw.count,g.written.count]
    exact add_comm _ _

theorem sound_raised (g : Grounds C F L) {t : Trace} {rs : List StoredBlock}
    (h : Sound F L t rs (heightsIn t.ledger)) : Raised C L t.ledger := by
  obtain ⟨bs,-,ha⟩ := h.listed
  exact written_raised g h.written ha

section
variable (S : HashSound C U) (G : Grounded C U) (hr : Operated C U (BriefFor C) L)
include S G hr

theorem operated_reachable :
    Reachable C U L := by
  induction hr with
  | start now => exact .start now
  | process _ hU hh ho hp ih => exact ih.process hU hh ho hp
  | rollback _ hh hr ih => exact ih.rollback hh hr
  | unbounded _ hs ih =>
    obtain ⟨F,g⟩ := reachable_grounds S G ih
    exact ih.cement (sound_raised g (unbounded_stage g hs))
  | bounded _ hfuel hs ih =>
    obtain ⟨F,g⟩ := reachable_grounds S G ih
    exact ih.cement (sound_raised g (bounded_stage g (fun b => g.height_lt hfuel) hs))
  | committed _ hfuel ht hM ih =>
    obtain ⟨F,g⟩ := reachable_grounds S G ih
    obtain ⟨rs,W,hs⟩ := bounded_shows g (fun b => g.height_lt hfuel)
      (fun _ _ _ T => brief_processor g T) ht
    obtain ⟨hw,bs,ha⟩ := hs.commits _ hM
    exact ih.cement (written_raised g hw ha)

theorem operated_processed {b : Block} (hU : b.hashables ∈ U) (ho : EpochOpens C L b) :
    Operated C U (BriefFor C) (processed C L b) := by
  obtain ⟨X,V⟩ := reachable_valid S (operated_reachable S G hr)
  have hh : Honest C L b .unknown := ⟨nofun,nofun⟩
  obtain ⟨result,L',hp,-⟩ := process_refines 0 V.mirrors V.built hU V.supply_lt hh ho
  rw [processed,hp]
  exact hr.process hU hh ho hp

end

theorem toNat_sum (l : List Amount) (h : (l.map BitVec.toNat).sum < 2^128) :
    l.sum.toNat = (l.map BitVec.toNat).sum := by
  induction l with
  | nil => rfl
  | cons x l ih =>
    rw [map_cons,sum_cons] at h
    rw [sum_cons,map_cons,sum_cons,toNat_add,ih (by omega),
      mod_eq_of_lt h]

theorem weight_exact {S : HashSound C U} {X : Nodes} (V : Valid S L X) (r : Account) :
    (representationGet L.cache.repWeights r).toNat =
      total (fun _ i => if i.representative = r then i.balance.toNat else 0)
        L.accounts := by
  have hmap : (L.accounts.toList.map (fun e => if e.2.representative = r then e.2.balance.toNat
        else 0)).sum = ((L.accounts.toList.map (fun e => if e.2.representative = r
          then e.2.balance else 0)).map BitVec.toNat).sum := by
    rw [map_map]
    congr 1
    apply map_congr_left
    intro e _
    rw [Function.comp_apply]
    split_ifs <;> rfl
  have hle : (L.accounts.toList.map (fun e => if e.2.representative = r then e.2.balance.toNat
        else 0)).sum ≤ (L.accounts.toList.map (fun e => e.2.balance.toNat)).sum := by
    apply sum_le_sum
    intro e _
    split_ifs
    · exact le_rfl
    · exact zero_le _
  have hsup : (L.accounts.toList.map (fun e => e.2.balance.toNat)).sum < 2^128 := by
    have : (L.accounts.toList.map (fun e => e.2.balance.toNat)).sum ≤ supply L :=
      le_add_right _ _
    rw [V.supply] at this
    have : (2 : ℕ)^128-1 < 2^128 := by decide
    omega
  have hget : representationGet L.cache.repWeights r = represented L.accounts r :=
    sub_eq_zero.mp (V.defect r)
  change _ = (L.accounts.toList.map _).sum
  rw [hget,hmap]
  apply toNat_sum
  rw [← hmap]
  omega

theorem threadCount_range (cores : BitVec 32) :
    10 ≤ threadCount cores ∧ threadCount cores ≤ 40 := by
  unfold threadCount
  omega

/-- In every ledger of a run the caches hold the totals of the tables, as
numbers, and so do the caches that `ledger.initialize` computes with any number
of threads from 10 to 40, each key being in the range of exactly one thread. -/
theorem caches_recomputed (S : HashSound C U) (G : Grounded C U)
    (hr : Operated C U (BriefFor C) L) :
    Computes L L.cache ∧
    (∀ r, (representationGet L.cache.repWeights r).toNat =
      total (fun _ i => if i.representative = r then i.balance.toNat else 0) L.accounts) ∧
    L.cache.blockCount = count L.blocks ∧
    (∀ cores, 10 ≤ threadCount cores ∧ threadCount cores ≤ 40) ∧
    ∀ threads, 10 ≤ threads → threads ≤ 40 →
      (∀ k : Account, ∃! t, t < threads ∧
        Ranges.within (threadStart threads t) (threadStop threads t) k = true) ∧
      ∀ accountsOrder heightsOrder : List ℕ, accountsOrder.Perm (range threads) →
        heightsOrder.Perm (range threads) →
        Computes L (ledgerInitialize threads C L accountsOrder heightsOrder) := by
  obtain ⟨X,V⟩ := reachable_valid S (operated_reachable S G hr)
  have M := V.mirrors
  refine ⟨⟨?_,M.accountCount,fun r => ?_,V.cementedCount⟩,weight_exact V,M.blockCount,
    threadCount_range,?_⟩
  · rw [M.blockCount,blocks_counted M V.built]
  · exact sub_eq_zero.mp (V.defect r)
  · intro threads h10 h40
    refine ⟨fun k => ?_,fun _ _ => ledgerInitialize_computes (by omega) h40 C⟩
    obtain ⟨t,ht,hone⟩ := one_thread (by omega) h40 k
    refine ⟨t,⟨ht,(hone t ht).mpr rfl⟩,?_⟩
    rintro u ⟨hu,hin⟩
    exact (hone u hu).mp hin

/-- The send is cemented by the bounded processor. -/
theorem caches_recomputed_sample : ∃ L, Operated sample sampleBlocks (BriefFor sample) L ∧
    L.cache.blockCount = 3 ∧ L.cache.cementedCount = 2 ∧
    Computes L (ledgerInitialize 10 sample L (List.range 10) (List.range 10)) := by
  have h1 : Operated sample sampleBlocks (BriefFor sample) sampleSent := operated_processed
    sample_sound sample_grounded (.start 0) (.inr (.inl rfl)) (epochOpens_none (by decide))
  have h2 : Operated sample sampleBlocks (BriefFor sample) sampleOpened := operated_processed
    sample_sound sample_grounded h1 (.inr (.inr rfl)) (epochOpens_none (by decide))
  obtain ⟨p,hp,-,hblocks,hcount⟩ := sampleOpened_sent
  have h3 := h2.bounded sampleOpened_low hp
  obtain ⟨-,-,-,-,hthreads⟩ := caches_recomputed sample_sound sample_grounded h3
  exact ⟨_,h3,hblocks,hcount,(hthreads 10 (by decide) (by decide)).2 _ _ (.refl _) (.refl _)⟩

/-- In the chain with more than 2^31 blocks above genesis, the count of a commit is not
the sum of its heights. -/
theorem long_write_miscounts : HashSound Rows.counting LongWrites.blocks ∧
    Grounded Rows.counting LongWrites.blocks ∧
    ∃ M, Operated Rows.counting LongWrites.blocks (fun _ _ => True) M ∧
      ¬ Computes M M.cache := by
  obtain ⟨L,X,hL,h⟩ := LongWrites.placed
    (P := Operated Rows.counting LongWrites.blocks (fun _ _ => True)) (.start 0)
    (fun _ _ _ _ hP hU ho hp => hP.process hU honest_unknown ho hp) (le_refl _)
  obtain ⟨hfuel,hwraps⟩ := LongWrites.placed_wraps h
  obtain ⟨t,ht,M,hM,hlt⟩ := hwraps _ (le_refl _)
  exact ⟨LongWrites.lawful.sound,LongWrites.lawful.grounded,M,hL.committed hfuel ht hM,
    fun hc => absurd hc.cementedCount hlt.ne⟩

end Vxldollar.Caches
