import Vxldollar.UnboundedWrites

/-!
# The walk down a chain

Walking down a chain leaves its receives on the stack, lowest first. Each
carries the hashes from itself down to the next lower receive, and every plain
block below a receive points at it. The hashes above the highest receive go to
the receive that waits for the chain, or to the added block.
-/

namespace Vxldollar.UnboundedWalk
open Blocks Store Cementing Sources Unbounded UnboundedWrites List Table Nat

abbrev Mapping := Std.ExtTreeMap BlockHash ℕ

/-- A receive on the stack, with the plain blocks above `base` that wait for
it. -/
structure Entry (F : Forest Account BlockHash) (m : Mapping) (a : Account) (base : ℕ)
    (e : ReceiveSourcePair) : Prop where
  mem : F.mem e.receiveDetails.hash
  owner : F.account e.receiveDetails.hash = a
  account : e.receiveDetails.account = a
  height : F.height e.receiveDetails.hash = e.receiveDetails.height
  source : F.source e.receiveDetails.hash = some e.sourceHash
  above : base < e.receiveDetails.height
  plain : ∀ c, F.mem c → F.account c = a → base < F.height c →
    F.height c < e.receiveDetails.height → F.source c = none ∧ m[c]? = some e.id
  num : e.receiveDetails.numBlocksConfirmed = e.receiveDetails.height-base
  callback : e.receiveDetails.blockCallbackData =
    (F.segment a base e.receiveDetails.height).reverse

def Listed (F : Forest Account BlockHash) (m : Mapping) (a : Account) (top : ℕ)
    (callback : List BlockHash) : ℕ → List ReceiveSourcePair → Prop
  | base, [] => base ≤ top ∧ (∀ c, F.mem c → F.account c = a → base < F.height c →
      F.height c ≤ top → F.source c = none) ∧ callback = (F.segment a base top).reverse
  | base, e :: es => Entry F m a base e ∧ Listed F m a top callback e.receiveDetails.height es

variable {C : Constants} {F : Forest Account BlockHash} {L₀ : Ledger} {p q : Processor}
  {m m' : Mapping} {a : Account} {base top j : ℕ} {callback : List BlockHash}
  {e : ReceiveSourcePair} {es P : List ReceiveSourcePair}

theorem Listed.base_le (h : Listed F m a top callback base es) : base ≤ top := by
  induction es generalizing base with
  | nil => exact h.1
  | cons e es ih => exact le_trans h.1.above.le (ih h.2)

theorem Entry.remap (h : Entry F m a base e)
    (hm : ∀ c, F.mem c → F.account c = a → base < F.height c → m'[c]? = m[c]?) :
    Entry F m' a base e := by
  refine { h with plain := fun c hc ha h1 h2 => ?_ }
  rw [hm c hc ha h1]
  exact h.plain c hc ha h1 h2

theorem Listed.remap (h : Listed F m a top callback base es)
    (hm : ∀ c, F.mem c → F.account c = a → base < F.height c → m'[c]? = m[c]?) :
    Listed F m' a top callback base es := by
  induction es generalizing base with
  | nil => exact h
  | cons e es ih =>
    refine ⟨h.1.remap hm,ih h.2 (fun c hc ha hh => hm c hc ha ?_)⟩
    have := h.1.above
    omega

section
structure Grown (L₀ : Ledger) (p q : Processor) : Prop where
  trace : q.trace = p.trace
  pairs : q.confirmedIteratedPairs = p.confirmedIteratedPairs
  pending : q.pendingWrites = p.pendingWrites
  cache : ∀ (h : BlockHash) (r : StoredBlock), q.blockCache[h]? = some r → L₀.blocks[h]? = some r
  cached : ∀ hs, Cached p hs → Cached q hs

theorem Grown.trans {r : Processor} (h : Grown L₀ p q) (h' : Grown L₀ q r) : Grown L₀ p r :=
  ⟨h'.trace.trans h.trace,h'.pairs.trans h.pairs,h'.pending.trans h.pending,h'.cache,
    fun hs hc => h'.cached hs (h.cached hs hc)⟩

variable {r : StoredBlock} {h : BlockHash}
  (hc : ∀ (h : BlockHash) (r : StoredBlock), p.blockCache[h]? = some r → L₀.blocks[h]? = some r)
include hc

theorem Grown.refl : Grown L₀ p p := ⟨rfl,rfl,rfl,hc,fun _ h => h⟩

theorem cacheBlock_grown (hr : L₀.blocks[h]? = some r) :
    Grown L₀ p (cacheBlock p h r) ∧ Cached (cacheBlock p h r) [h] := by
  refine ⟨⟨rfl,rfl,rfl,?_,?_⟩,?_⟩
  · intro k x hk
    change (p.blockCache.insert h r)[k]? = some x at hk
    rw [get_insert] at hk
    split at hk
    · rename_i e
      rw [e,← hk,hr]
    · exact hc k x hk
  · intro hs hcs k hk
    change ∃ x, (p.blockCache.insert h r)[k]? = some x
    rw [get_insert]
    split
    · exact ⟨r,rfl⟩
    · exact hcs k hk
  · intro k hk
    obtain rfl := mem_singleton.mp hk
    exact ⟨r,by simp [cacheBlock]⟩

theorem blockOf_spec (first : Option StoredBlock)
    (hl : p.trace.ledger.blocks = L₀.blocks) (hr : L₀.blocks[h]? = some r)
    (hf : ∀ x, first = some x → x = r) :
    ∃ q, blockOf p h first = some (r,q) ∧ Grown L₀ p q ∧ Cached q [h] ∧
      q.implicitReceiveCementedMapping = p.implicitReceiveCementedMapping ∧
      q.nextId = p.nextId := by
  obtain ⟨hg,hh⟩ := cacheBlock_grown hc hr
  cases first with
  | some x =>
    obtain rfl := hf x rfl
    exact ⟨_,rfl,hg,hh,rfl,rfl⟩
  | none =>
    unfold blockOf getBlockAndSideband
    cases hk : p.blockCache[h]? with
    | some x =>
      obtain rfl := Option.some.inj ((hc h x hk).symm.trans hr)
      refine ⟨p,rfl,Grown.refl hc,?_,rfl,rfl⟩
      intro k hkm
      obtain rfl := mem_singleton.mp hkm
      exact ⟨x,hk⟩
    | none =>
      dsimp only
      rw [hl,hr]
      exact ⟨_,rfl,hg,hh,rfl,rfl⟩

end

variable {O : List BlockHash} {original : Bool} {c : Collected} {x : BlockHash}

def withSource (callback : List BlockHash) : List ReceiveSourcePair → List ReceiveSourcePair
  | [] => []
  | e :: es => { e with receiveDetails := { e.receiveDetails with
      sourceBlockCallbackData := callback } } :: es

def Awaited (original : Bool) (P : List ReceiveSourcePair) : Prop :=
  original = false → ∃ e es, P = e :: es ∧ e.receiveDetails.sourceBlockCallbackData = []

theorem withSource_nil (h : Awaited false P) : withSource [] P = P := by
  obtain ⟨e,es,rfl,he⟩ := h rfl
  rw [withSource,← he]

structure Plainly (F : Forest Account BlockHash) (a : Account) (top j : ℕ)
    (P : List ReceiveSourcePair) (O : List BlockHash) (original : Bool) (c : Collected) :
    Prop where
  plain : ∀ x, F.mem x → F.account x = a → j < F.height x → F.height x ≤ top → F.source x = none
  pairs : c.receiveSourcePairs = P
  hit : c.hitReceive = false
  isOriginal : c.isOriginalBlock = original
  block : c.blockCallbackData = if original then [] else (F.segment a j top).reverse
  orig : c.origBlockCallbackData = if original then O ++ (F.segment a j top).reverse else O

structure Stacked (F : Forest Account BlockHash) (a : Account) (top j next : ℕ)
    (P : List ReceiveSourcePair) (O : List BlockHash) (original : Bool) (c : Collected)
    (es : List ReceiveSourcePair) (callback : List BlockHash) : Prop where
  listed : Listed F c.processor.implicitReceiveCementedMapping a top callback j es
  nonempty : es ≠ []
  ids : (es.map ReceiveSourcePair.id).Nodup
  fresh : ∀ e ∈ es, next ≤ e.id ∧ e.id < c.processor.nextId ∧
    e.receiveDetails.sourceBlockCallbackData = []
  hit : c.hitReceive = true
  isOriginal : c.isOriginalBlock = false
  block : c.blockCallbackData = []
  pairs : c.receiveSourcePairs = es ++ if original then P else withSource callback P
  orig : c.origBlockCallbackData = if original then O ++ callback else O

/-- The state of the walk with the blocks above height `j` behind it. -/
structure Mid (F : Forest Account BlockHash) (L₀ : Ledger) (a : Account) (top : ℕ) (p : Processor)
    (P : List ReceiveSourcePair) (O : List BlockHash) (original : Bool) (j : ℕ) (c : Collected) :
    Prop where
  grown : Grown L₀ p c.processor
  cached : Cached c.processor (F.segment a j top)
  mapping : ∀ x, ¬ (F.mem x ∧ F.account x = a ∧ j < F.height x) →
    c.processor.implicitReceiveCementedMapping[x]? = p.implicitReceiveCementedMapping[x]?
  nextId : p.nextId ≤ c.processor.nextId
  outcome : Plainly F a top j P O original c ∨
    ∃ es callback, Stacked F a top j p.nextId P O original c es callback

theorem handOver_plainly (hP : Awaited original P) (h : Plainly F a top j P O original c) :
    handOver c = some { c with
      blockCallbackData := []
      receiveSourcePairs :=
        if original then P else withSource (F.segment a j top).reverse P } := by
  have hb := h.block
  unfold handOver
  cases original with
  | true =>
    rw [if_pos rfl] at hb
    rw [if_neg (fun hc => hc.2 hb),if_pos rfl,← h.pairs,← hb]
  | false =>
    obtain ⟨e,es,hPe,he⟩ := hP rfl
    simp only [Bool.false_eq_true,if_false] at hb ⊢
    by_cases hs : (F.segment a j top).reverse = []
    · rw [hs] at hb
      rw [if_neg (fun hc => hc.2 hb),hs,withSource_nil hP,← h.pairs,← hb]
    · rw [if_pos ⟨h.hit,hb ▸ hs⟩,h.pairs,hPe,hb]
      rfl

section
variable (hx : F.mem x) (ha : F.account x = a) (hj : F.height x = j+1)
include hx ha hj

theorem reverse_segment (htop : j < top) :
    (F.segment a j top).reverse = (F.segment a (j+1) top).reverse ++ [x] := by
  rw [Forest.segment_first hx ha hj htop,reverse_cons]

theorem entry_new {s : BlockHash} {id : ℕ} (hs : F.source x = some s) :
    Entry F m a j ⟨id,⟨a,x,j+1,1,[x],[]⟩,s⟩ where
  mem := hx
  owner := ha
  account := rfl
  height := hj
  source := hs
  above := lt_succ_self j
  plain := by
    intro c _ _ h1 h2
    dsimp only at h2
    omega
  num := by
    dsimp only
    omega
  callback := by
    rw [reverse_segment hx ha hj (lt_succ_self j),Forest.segment_empty (le_refl _)]
    rfl

theorem entry_extend (hs : F.source x = none) (h : Entry F m a (j+1) e) :
    Entry F (m.insert x e.id) a j { e with receiveDetails := { e.receiveDetails with
      numBlocksConfirmed := e.receiveDetails.numBlocksConfirmed+1
      blockCallbackData := e.receiveDetails.blockCallbackData ++ [x] } } where
  mem := h.mem
  owner := h.owner
  account := h.account
  height := h.height
  source := h.source
  above := lt_of_succ_lt h.above
  plain := by
    intro c hc hca h1 h2
    rw [get_insert]
    by_cases hcj : F.height c = j+1
    · obtain rfl := F.unique hc hx (hca.trans ha.symm) (hcj.trans hj.symm)
      exact ⟨hs,by rw [if_pos rfl]⟩
    · obtain ⟨h3,h4⟩ := h.plain c hc hca (by omega) h2
      refine ⟨h3,?_⟩
      rw [if_neg (by rintro rfl; exact hcj hj)]
      exact h4
  num := by
    have := h.num
    have := h.above
    dsimp only
    omega
  callback := by
    have := h.above
    rw [reverse_segment hx ha hj (by omega : j < e.receiveDetails.height),← h.callback]

variable (htop : j < top) (h : Mid F L₀ a top p P O original (j+1) c) (hc : Cached c.processor [x])
include htop h hc

theorem Mid.next : Cached c.processor (F.segment a j top) ∧
      ∀ y, ¬ (F.mem y ∧ F.account y = a ∧ j < F.height y) →
        c.processor.implicitReceiveCementedMapping[y]? =
          p.implicitReceiveCementedMapping[y]? := by
  refine ⟨?_,fun y hy => h.mapping y (fun hn => hy ⟨hn.1,hn.2.1,by omega⟩)⟩
  rw [Forest.segment_first hx ha hj htop]
  exact forall_mem_cons.mpr ⟨hc x mem_cons_self,h.cached⟩

theorem collectReceive_spec (hP : Awaited original P) {s : BlockHash} (hs : F.source x = some s) :
    ∃ c', collectReceive a (j+1) x s c = some c' ∧ Mid F L₀ a top p P O original j c' := by
  obtain ⟨hcached,hmap⟩ := h.next hx ha hj htop hc
  have hgrown : Grown L₀ p { c.processor with nextId := c.processor.nextId+1 } :=
    ⟨h.grown.trace,h.grown.pairs,h.grown.pending,h.grown.cache,h.grown.cached⟩
  have hnext := h.nextId
  unfold collectReceive
  rcases h.outcome with hplain | ⟨es,callback,hst⟩
  · rw [handOver_plainly hP hplain]
    refine ⟨_,rfl,hgrown,hcached,hmap,le_succ_of_le hnext,.inr
      ⟨[⟨c.processor.nextId,⟨a,x,j+1,1,[x],[]⟩,s⟩],(F.segment a (j+1) top).reverse,?_⟩⟩
    refine ⟨⟨entry_new hx ha hj hs,htop,hplain.plain,rfl⟩,by simp,by simp,?_,rfl,rfl,rfl,rfl,
      hplain.orig⟩
    intro e he
    obtain rfl := mem_singleton.mp he
    exact ⟨hnext,lt_succ_self _,rfl⟩
  · have hhand : handOver c = some c := by
      unfold handOver
      rw [if_neg (fun hn => by rw [hst.hit] at hn; exact absurd hn.1 (by simp))]
    rw [hhand]
    refine ⟨_,rfl,hgrown,hcached,hmap,le_succ_of_le hnext,.inr
      ⟨⟨c.processor.nextId,⟨a,x,j+1,1,[x],[]⟩,s⟩ :: es,callback,?_⟩⟩
    refine ⟨⟨entry_new hx ha hj hs,hst.listed⟩,by simp,?_,?_,rfl,rfl,hst.block,?_,hst.orig⟩
    · rw [map_cons,nodup_cons]
      refine ⟨fun hm => ?_,hst.ids⟩
      obtain ⟨e,he,hid⟩ := mem_map.mp hm
      have := (hst.fresh e he).2.1
      simp only at hid
      omega
    · intro e he
      rcases mem_cons.mp he with rfl | he
      · exact ⟨hnext,lt_succ_self _,rfl⟩
      · obtain ⟨h1,h2,h3⟩ := hst.fresh e he
        exact ⟨h1,lt_succ_of_lt h2,h3⟩
    · change _ :: c.receiveSourcePairs = _
      rw [hst.pairs]
      rfl

theorem collectOther_spec (hs : F.source x = none) :
    ∃ c', collectOther x c = some c' ∧ Mid F L₀ a top p P O original j c' := by
  have hseg := reverse_segment hx ha hj htop
  obtain ⟨hcached,hmap⟩ := h.next hx ha hj htop hc
  unfold collectOther
  rcases h.outcome with hplain | ⟨es,callback,hst⟩
  · have hbelow : ∀ y, F.mem y → F.account y = a → j < F.height y → F.height y ≤ top →
        F.source y = none := by
      intro y hy hya h1 h2
      by_cases hyj : F.height y = j+1
      · rw [F.unique hy hx (hya.trans ha.symm) (hyj.trans hj.symm)]
        exact hs
      · exact hplain.plain y hy hya (by omega) h2
    have horig := hplain.orig
    have hblock := hplain.block
    cases original with
    | true =>
      rw [if_pos hplain.isOriginal]
      refine ⟨_,rfl,h.grown,hcached,hmap,h.nextId,.inl
        ⟨hbelow,hplain.pairs,hplain.hit,hplain.isOriginal,hblock,?_⟩⟩
      simp only [if_true] at horig ⊢
      rw [horig,hseg,append_assoc]
    | false =>
      rw [if_neg (by rw [hplain.isOriginal]; simp),if_pos hplain.hit]
      refine ⟨_,rfl,h.grown,hcached,hmap,h.nextId,.inl
        ⟨hbelow,hplain.pairs,hplain.hit,hplain.isOriginal,?_,horig⟩⟩
      simp only [Bool.false_eq_true,if_false] at hblock ⊢
      rw [hblock,hseg]
  · rw [if_neg (by rw [hst.isOriginal]; simp),if_neg (by rw [hst.hit]; simp),hst.pairs]
    cases hes : es with
    | nil => exact absurd hes hst.nonempty
    | cons e es' =>
      obtain ⟨hentry,hrest⟩ : Entry F c.processor.implicitReceiveCementedMapping a (j+1) e ∧
          Listed F c.processor.implicitReceiveCementedMapping a top callback
            e.receiveDetails.height es' := by
        have := hst.listed
        rw [hes] at this
        exact this
      have habove := hentry.above
      refine ⟨_,rfl,?_,hcached,?_,h.nextId,.inr ⟨{ e with receiveDetails :=
        { e.receiveDetails with
          numBlocksConfirmed := e.receiveDetails.numBlocksConfirmed+1
          blockCallbackData := e.receiveDetails.blockCallbackData ++ [x] } } :: es',callback,?_⟩⟩
      · exact ⟨h.grown.trace,h.grown.pairs,h.grown.pending,h.grown.cache,h.grown.cached⟩
      · intro y hy
        change (c.processor.implicitReceiveCementedMapping.insert x e.id)[y]? = _
        rw [get_insert,if_neg (by rintro rfl; exact hy ⟨hx,ha,by omega⟩)]
        exact hmap y hy
      · have hids := hst.ids
        have hfresh := hst.fresh
        rw [hes] at hids hfresh
        refine ⟨⟨entry_extend hx ha hj hs hentry,hrest.remap ?_⟩,by simp,hids,?_,hst.hit,
          hst.isOriginal,hst.block,rfl,hst.orig⟩
        · intro y hy hya hyh
          change (c.processor.implicitReceiveCementedMapping.insert x e.id)[y]? = _
          rw [get_insert,if_neg (by rintro rfl; omega)]
        · intro f hf
          rcases mem_cons.mp hf with rfl | hf
          · exact hfresh e mem_cons_self
          · exact hfresh f (mem_cons_of_mem _ hf)

end

/-- The walk reaches the height it started from with everything above behind
it. -/
theorem collectLoop_spec (B : Backed C F L₀) (hP : Awaited original P) {v : ℕ}
    (hl : p.trace.ledger.blocks = L₀.blocks) (n : ℕ) (hash : BlockHash)
    (first : Option StoredBlock) (c : Collected)
    (htop : v+n ≤ top) (hn : n ≠ 0 → F.mem hash ∧ F.account hash = a ∧ F.height hash = v+n)
    (hf : ∀ r, first = some r → L₀.blocks[hash]? = some r)
    (h : Mid F L₀ a top p P O original (v+n) c) :
    ∃ c', collectLoop C a v n hash first c = some c' ∧ Mid F L₀ a top p P O original v c' := by
  induction n generalizing hash first c with
  | zero => exact ⟨c,rfl,h⟩
  | succ n ih =>
    obtain ⟨hx,hxa,hxh⟩ := hn (succ_ne_zero n)
    have h0 : hash ≠ 0 := by
      rintro rfl
      exact B.zero hx
    obtain ⟨r,hr,hread⟩ := B.get hash hx
    have hblocks : c.processor.trace.ledger.blocks = L₀.blocks := by rw [h.grown.trace,hl]
    obtain ⟨q,hq,hgrow,hcq,hmq,hiq⟩ := blockOf_spec h.grown.cache first hblocks hr
      (fun x hx' => Option.some.inj ((hf x hx').symm.trans hr))
    have hM : Mid F L₀ a top p P O original (v+(n+1)) { c with processor := q } := by
      refine ⟨h.grown.trans hgrow,hgrow.cached _ h.cached,?_,by rw [hiq]; exact h.nextId,?_⟩
      · intro y hy
        rw [hmq]
        exact h.mapping y hy
      · rcases h.outcome with hp | ⟨es,cb,hst⟩
        · exact .inl ⟨hp.plain,hp.pairs,hp.hit,hp.isOriginal,hp.block,hp.orig⟩
        · refine .inr ⟨es,cb,?_,hst.nonempty,hst.ids,?_,hst.hit,hst.isOriginal,hst.block,
            hst.pairs,hst.orig⟩
          · rw [hmq]
            exact hst.listed
          · rw [hiq]
            exact hst.fresh
    have hsource : receiveSource C q.trace.ledger r.block = F.source hash := by
      rw [← hread.source,receiveSource,receiveSource,hgrow.trace,hblocks]
    obtain ⟨c',hc',hM'⟩ : ∃ c', collectBlock C a (v+(n+1)) hash r { c with processor := q } =
        some c' ∧ Mid F L₀ a top p P O original (v+n) c' := by
      unfold collectBlock
      dsimp only
      rw [hsource]
      cases hs : F.source hash with
      | some s => exact collectReceive_spec (j := v+n) hx hxa hxh (by omega) hM hcq hP hs
      | none => exact collectOther_spec hx hxa hxh (by omega) hM hcq hs
    have hprev : n ≠ 0 → F.mem r.block.previous ∧ F.account r.block.previous = a ∧
        F.height r.block.previous = v+n := by
      intro hn0
      obtain ⟨h1,h2,h3⟩ := hread.previous (by omega)
      exact ⟨h1,h2.trans hxa,by omega⟩
    obtain ⟨c'',hc'',hM''⟩ := ih r.block.previous none c' (by omega) hprev
      (fun r hr => by cases hr) hM'
    refine ⟨c'',?_,hM''⟩
    rw [collectLoop,if_neg h0,hq]
    dsimp only
    rw [hc']
    exact hc''

end Vxldollar.UnboundedWalk
