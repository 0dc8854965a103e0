import Vxldollar.Upgrades
import Vxldollar.Framing
import Vxldollar.Independence

/-!
# What the upgrades make of a ledger

The tables of a ledger are upgraded to its block table, except that what each state
block does is recomputed from the balance before it and the epoch of its source from
the source. The first upgrade fails if the predecessor of a state block is missing.
In a run without epoch blocks grafted onto a foreign chain nothing is missing, and
what is recomputed is what `process` stored.
-/

namespace Vxldollar.UpgradedBlocks
open Std Blocks Store Vxldollar.Lattice Chains Mirror Upgrades Runs List Option Table Cursors
  ExtTreeMap

variable {C : Constants} {U : Set Hashables} {S : HashSound C U} {L : Ledger} {D D' : Tables}
  {H : Type} {type : BlockType} {kind : H → Hashables} {t : ExtTreeMap BlockHash (RecordV18 H)}
  {h g : BlockHash} {r s : StoredBlock}

def contents (r : StoredBlock) : StoredBlock :=
  ⟨r.block,⟨r.sideband.successor,r.sideband.account,r.sideband.balance,r.sideband.height,
    r.sideband.timestamp,⟨r.sideband.details.epoch,false,false,false⟩,.epoch0⟩⟩

structure Keeps (L : Ledger) (type : BlockType) (kind : H → Hashables)
    (t : ExtTreeMap BlockHash (RecordV18 H)) : Prop where
  typed : ∀ x, (kind x).type = type
  sound : ∀ (h : BlockHash) (o : RecordV18 H), t[h]? = some o →
    ∃ r, L.blocks[h]? = some r ∧ contents (o.read kind) = contents r
  complete : ∀ (h : BlockHash) (r : StoredBlock), L.blocks[h]? = some r → r.block.type = type →
    ∃ o, t[h]? = some o

/-- The fields a state block does not store are read as their defaults. -/
structure Represents (L : Ledger) (D : Tables) : Prop where
  state : Keeps L .state .state D.state
  send : Keeps L .send .send D.send
  receive : Keeps L .receive .receive D.receive
  open_ : Keeps L .open_ .open_ D.open_
  change : Keeps L .change .change D.change
  stored : ∀ (h : BlockHash) (o : RecordV18 StateHashables), D.state[h]? = some o →
    o.sideband.storedState = o.sideband

def Connected (L : Ledger) : Prop := ∀ (h : BlockHash) (r : StoredBlock) (x : StateHashables),
  L.blocks[h]? = some r → r.block.hashables = .state x → ∃ b, L.balance x.previous = some b

/-- What a block does and the epoch of its source, from the blocks it refers to. -/
def recomputed (C : Constants) (L : Ledger) (r : StoredBlock) : StoredBlock :=
  match r.block.hashables with
  | .state x =>
    let details := detailsOf C x ((L.balance x.previous).getD 0) r.sideband.details.epoch
    written ⟨r.block,{ r.sideband with
      details := details
      sourceEpoch := if details.isReceive then L.version x.link else .epoch0 }⟩
  | _ => written ⟨r.block,{ r.sideband with details := {}, sourceEpoch := .epoch0 }⟩

/-- Both upgrades succeed. The new table has the blocks of the old ones with their
contents, and is the ledger's block table, with the details `process` stored. -/
def Upgraded (C : Constants) (first : StoredBlock → StoredBlock → Bool) (L : Ledger)
    (D : Tables) : Prop :=
  ∃ D' T, upgradeV17ToV18 C D = some D' ∧ upgradeV18ToV19 first D' = some T ∧
    (∀ h : BlockHash, T[h]?.map contents = (D.blockGetV18 h).map contents) ∧ T = L.blocks

structure Derived (C : Constants) (L : Ledger) : Prop where
  connected : Connected L
  unchanged : ∀ (h : BlockHash) (r : StoredBlock), L.blocks[h]? = some r → recomputed C L r = r

theorem contents_eq : contents r = contents s ↔ r.block = s.block ∧
    r.sideband.successor = s.sideband.successor ∧ r.sideband.account = s.sideband.account ∧
    r.sideband.balance = s.sideband.balance ∧ r.sideband.height = s.sideband.height ∧
    r.sideband.timestamp = s.sideband.timestamp ∧
    r.sideband.details.epoch = s.sideband.details.epoch := by
  simp [contents]

theorem contents_balance : (contents r).balanceCalculated = r.balanceCalculated := by
  unfold StoredBlock.balanceCalculated
  cases hh : r.block.hashables <;> simp [contents,hh]

section
variable (K : Keeps L type kind t)
include K

theorem Keeps.missing (hr : L.blocks[h]? = none) : t[h]? = none := by
  cases ho : t[h]? with
  | none => rfl
  | some o =>
    obtain ⟨r,hr',-⟩ := K.sound h o ho
    rw [hr] at hr'
    cases hr'

theorem Keeps.get {o : RecordV18 H} (ho : t[h]? = some o) :
    ∃ r, L.blocks[h]? = some r ∧ r.block.type = type ∧ r.block.hashables = kind o.hashables ∧
      contents (o.read kind) = contents r := by
  obtain ⟨r,hr,hc⟩ := K.sound h o ho
  have hb : o.block kind = r.block := (contents_eq.mp hc).1
  have hx : r.block.hashables = kind o.hashables := by
    rw [← hb]
    rfl
  refine ⟨r,hr,?_,hx,hc⟩
  rw [Block.type,hx,K.typed]

theorem Keeps.absent (hr : L.blocks[h]? = some r)
    (ht : r.block.type ≠ type) : t[h]? = none := by
  cases ho : t[h]? with
  | none => rfl
  | some o =>
    obtain ⟨r',hr',ht',-⟩ := K.get ho
    cases hr.symm.trans hr'
    exact absurd ht' ht

theorem Keeps.found (hr : L.blocks[h]? = some r)
    (ht : r.block.type = type) :
    ∃ o, t[h]? = some o ∧ contents (o.read kind) = contents r := by
  obtain ⟨o,ho⟩ := K.complete h r hr ht
  obtain ⟨r',hr',-,-,hc⟩ := K.get ho
  cases hr.symm.trans hr'
  exact ⟨o,ho,hc⟩

end

theorem Represents.get (R : Represents L D) (h : BlockHash) :
    (D.blockGetV18 h).map contents = L.blocks[h]?.map contents := by
  unfold Tables.blockGetV18
  cases hr : L.blocks[h]? with
  | none =>
    simp [R.state.missing hr,R.send.missing hr,R.receive.missing hr,R.open_.missing hr,
      R.change.missing hr]
  | some r =>
    have hstate := R.state.absent hr
    have hsend := R.send.absent hr
    have hreceive := R.receive.absent hr
    have hopen := R.open_.absent hr
    cases ht : r.block.type with
    | state =>
      obtain ⟨o,ho,hc⟩ := R.state.found hr ht
      simp [ho,hc]
    | send =>
      obtain ⟨o,ho,hc⟩ := R.send.found hr ht
      simp [hstate (by simp [ht]),ho,hc]
    | receive =>
      obtain ⟨o,ho,hc⟩ := R.receive.found hr ht
      simp [hstate (by simp [ht]),hsend (by simp [ht]),ho,hc]
    | open_ =>
      obtain ⟨o,ho,hc⟩ := R.open_.found hr ht
      simp [hstate (by simp [ht]),hsend (by simp [ht]),hreceive (by simp [ht]),ho,hc]
    | change =>
      obtain ⟨o,ho,hc⟩ := R.change.found hr ht
      simp [hstate (by simp [ht]),hsend (by simp [ht]),hreceive (by simp [ht]),
        hopen (by simp [ht]),ho,hc]

theorem Represents.balance (R : Represents L D) (h : BlockHash) :
    D.blockBalanceV18 h = L.blocks[h]?.map StoredBlock.balanceCalculated := by
  have hread : (fun r => (contents r).balanceCalculated) = StoredBlock.balanceCalculated :=
    funext fun _ => contents_balance
  have hget := congrArg (Option.map StoredBlock.balanceCalculated) (R.get h)
  rw [Option.map_map,Option.map_map] at hget
  unfold Tables.blockBalanceV18
  rw [← hread]
  exact hget

theorem Represents.sourceEpoch (R : Represents L D) (o : RecordV18 StateHashables) :
    sourceEpochV19 D o =
      if o.sideband.details.isReceive then L.version o.hashables.link else .epoch0 := by
  unfold sourceEpochV19
  apply ite_congr rfl (fun _ => ?_) (fun _ => rfl)
  unfold Ledger.version
  cases hr : L.blocks[o.hashables.link]? with
  | none =>
    rw [R.state.missing hr]
    rfl
  | some r =>
    simp only [map_some,StoredBlock.version]
    by_cases ht : r.block.type = .state
    · obtain ⟨source,hs,hc⟩ := R.state.found hr ht
      rw [hs,ht]
      exact (contents_eq.mp hc).2.2.2.2.2.2
    · rw [R.state.absent hr ht]
      cases hh : r.block.type with
      | state => exact absurd hh ht
      | _ => rfl

section
variable {o : RecordV18 StateHashables} {b : Amount} {ks : List BlockHash}

/-- The details are those of the ledger's balance before the block. -/
def Flagged (C : Constants) (L : Ledger) (o : RecordV18 StateHashables) : Prop :=
  ∃ b, L.balance o.hashables.previous = some b ∧
    o.sideband.details = detailsOf C o.hashables b o.sideband.details.epoch

theorem detailsOf_epoch (x : StateHashables) (b : Amount) (e : Epoch) :
    (detailsOf C x b e).epoch = e := by
  unfold detailsOf
  split_ifs <;> rfl

theorem upgradeRecord_eq (R : Represents L D) (o : RecordV18 StateHashables) :
    upgradeRecord C D o = (L.balance o.hashables.previous).map (o.flagged C) := by
  unfold upgradeRecord Ledger.balance
  by_cases h0 : o.hashables.previous = 0
  · rw [if_neg (not_not.mpr h0),if_pos h0]
    rfl
  · rw [if_pos h0,if_neg h0,R.balance]

theorem flagged_flagged (hb : L.balance o.hashables.previous = some b) :
    Flagged C L (o.flagged C b) := by
  refine ⟨b,hb,?_⟩
  show detailsOf C o.hashables b _ = detailsOf C o.hashables b (detailsOf C _ _ _).epoch
  rw [detailsOf_epoch]

theorem contents_flagged (hs : o.sideband.storedState = o.sideband) :
    contents ((o.flagged C b).read .state) = contents (o.read .state) := by
  have haccount : o.sideband.account = 0 := by
    rw [← hs]
    rfl
  have hbalance : o.sideband.balance = 0 := by
    rw [← hs]
    rfl
  rw [contents_eq]
  simp [RecordV18.read,RecordV18.flagged,RecordV18.block,SidebandV18.storedState,haccount,
    hbalance,detailsOf_epoch]

theorem Represents.insert (R : Represents L D) (ho : D.state[h]? = some o) (b : Amount) :
    Represents L { D with state := D.state.insert h (o.flagged C b) } where
  state :=
    { typed := R.state.typed
      sound := by
        intro g o' ho'
        rw [get_insert] at ho'
        split_ifs at ho' with hg
        · cases ho'
          rw [contents_flagged (R.stored h o ho),hg]
          exact R.state.sound h o ho
        · exact R.state.sound g o' ho'
      complete := by
        intro g r hr ht
        dsimp only
        rw [get_insert]
        split_ifs
        · exact ⟨_,rfl⟩
        · exact R.state.complete g r hr ht }
  send := R.send
  receive := R.receive
  open_ := R.open_
  change := R.change
  stored := by
    intro g o' ho'
    rw [get_insert] at ho'
    split_ifs at ho'
    · cases ho'
      rfl
    · exact R.stored g o' ho'

theorem upgradeAt_cases (R : Represents L D) (ho : D.state[h]? = some o) :
    (L.balance o.hashables.previous = none ∧ upgradeAt C D h = none) ∨
    ∃ b, L.balance o.hashables.previous = some b ∧
      upgradeAt C D h = some { D with state := D.state.insert h (o.flagged C b) } := by
  unfold upgradeAt
  rw [ho,bind_eq_bind,bind_some,upgradeRecord_eq R]
  cases hb : L.balance o.hashables.previous with
  | none => exact .inl ⟨rfl,rfl⟩
  | some b => exact .inr ⟨b,rfl,rfl⟩

theorem Represents.balance_some (R : Represents L D) (hc : Connected L)
    (ho : D.state[h]? = some o) : ∃ b, L.balance o.hashables.previous = some b := by
  obtain ⟨r,hr,-,hx,-⟩ := R.state.get ho
  exact hc h r o.hashables hr hx

theorem upgrade_run (hc : Connected L) (R : Represents L D) (hks : ∀ h ∈ ks, h ∈ D.state) :
    ∃ D', ks.foldlM (upgradeAt C) D = some D' ∧ Represents L D' ∧ D'.state.size = D.state.size ∧
      ∀ (h : BlockHash) (o' : RecordV18 StateHashables), D'.state[h]? = some o' →
        (h ∈ ks ∨ ∃ o, D.state[h]? = some o ∧ Flagged C L o) → Flagged C L o' := by
  induction ks generalizing D with
  | nil =>
    refine ⟨D,rfl,R,rfl,?_⟩
    rintro h o' ho' (hm | ⟨o,ho,hf⟩)
    · cases hm
    · cases ho.symm.trans ho'
      exact hf
  | cons k ks ih =>
    have hk := hks k (mem_cons_self ..)
    obtain ⟨o,ho⟩ := isSome_iff_exists.mp (mem_iff_isSome_getElem?.mp hk)
    obtain ⟨b,hb⟩ := R.balance_some hc ho
    have hstep := (upgradeAt_cases (C := C) R ho).resolve_left (fun hn => by simp [hb] at hn)
    obtain ⟨b,hb,hstep⟩ := hstep
    obtain ⟨D',hD',R',hsize,hflags⟩ := ih (R.insert ho b)
      (fun h hh => mem_insert.mpr (.inr (hks h (mem_cons_of_mem _ hh))))
    refine ⟨D',?_,R',?_,?_⟩
    · rw [foldlM_cons,hstep]
      exact hD'
    · rw [hsize,size_insert,if_pos (contains_iff_mem.mpr hk)]
    · intro h o' ho' hor
      apply hflags h o' ho'
      by_cases hkh : h = k
      · refine .inr ⟨_,?_,flagged_flagged hb⟩
        rw [get_insert,if_pos hkh]
      · rcases hor with hm | hold
        · exact .inl ((mem_cons.mp hm).resolve_left hkh)
        · right
          rw [get_insert,if_neg hkh]
          exact hold

theorem upgrade_stops (R : Represents L D) (hks : ∀ h ∈ ks, h ∈ D.state) (hg : g ∈ ks)
    {x : StateHashables} (hr : L.blocks[g]? = some r) (hx : r.block.hashables = .state x)
    (hb : L.balance x.previous = none) : ks.foldlM (upgradeAt C) D = none := by
  induction ks generalizing D with
  | nil => cases hg
  | cons k ks ih =>
    have hk := hks k (mem_cons_self ..)
    obtain ⟨o,ho⟩ := isSome_iff_exists.mp (mem_iff_isSome_getElem?.mp hk)
    rw [foldlM_cons]
    rcases upgradeAt_cases R ho with ⟨-,hn⟩ | ⟨b,hb',hs⟩
    · rw [hn]
      rfl
    · rw [hs]
      apply ih (R.insert ho b)
        (fun h hh => mem_insert.mpr (.inr (hks h (mem_cons_of_mem _ hh))))
      apply (mem_cons.mp hg).resolve_left
      rintro rfl
      obtain ⟨r',hr',-,hx',-⟩ := R.state.get ho
      cases hr.symm.trans hr'
      rw [hx] at hx'
      cases hx'
      rw [hb] at hb'
      cases hb'

theorem upgradeV17ToV18_flags (hc : Connected L) (R : Represents L D) :
    ∃ D', upgradeV17ToV18 C D = some D' ∧ Represents L D' ∧
      ∀ (h : BlockHash) (o : RecordV18 StateHashables), D'.state[h]? = some o → Flagged C L o := by
  obtain ⟨D',hD',R',hsize,hflags⟩ := upgrade_run hc R
    (fun h hh => mem_keys.mp hh)
  refine ⟨D',?_,R',fun h o ho => hflags h o ho (.inl ?_)⟩
  · rw [upgradeV17ToV18,hD',bind_eq_bind,bind_some,if_pos hsize.symm]
  · obtain ⟨r,hr,ht,-⟩ := R'.state.get ho
    obtain ⟨o₀,ho₀⟩ := R.state.complete h r hr ht
    rw [ExtTreeMap.mem_keys,mem_iff_isSome_getElem?,ho₀]
    rfl

/-- The first upgrade succeeds exactly if no predecessor is missing. -/
theorem connected_of_upgradeV17ToV18 (R : Represents L D) (hD' : upgradeV17ToV18 C D = some D') :
    Connected L := by
  intro h r x hr hx
  cases hb : L.balance x.previous with
  | some b => exact ⟨b,rfl⟩
  | none =>
    have ht : r.block.type = .state := by
      rw [Block.type,hx]
      rfl
    obtain ⟨o,ho⟩ := R.state.complete h r hr ht
    have hkey : h ∈ D.state.keys := by
      rw [ExtTreeMap.mem_keys,mem_iff_isSome_getElem?,ho]
      rfl
    rw [upgradeV17ToV18,upgrade_stops R (fun g hg => mem_keys.mp hg) hkey hr hx hb]
      at hD'
    cases hD'

end

section
variable {V W : Type} {f : V → W} {u : ExtTreeMap BlockHash V}

theorem mem_entries {w : W} : (h,w) ∈ entries f u ↔ ∃ v, u[h]? = some v ∧ f v = w := by
  unfold entries
  rw [List.mem_map]
  constructor
  · rintro ⟨⟨k,v⟩,hm,e⟩
    cases e
    exact ⟨v,(mem_entries u k v).mp hm,rfl⟩
  · rintro ⟨v,hv,rfl⟩
    exact ⟨(h,v),(Table.mem_entries u h v).mpr hv,rfl⟩

theorem sorted_entries (f : V → W) (u : ExtTreeMap BlockHash V) :
    Sorted (entries f u) := by
  unfold Sorted entries
  rw [pairwise_map]
  exact sorted_toList u

theorem length_entries (f : V → W) (u : ExtTreeMap BlockHash V) :
    (entries f u).length = u.size := by
  rw [entries,length_map,ExtTreeMap.length_toList]

theorem nodup_entries (f : V → W) (u : ExtTreeMap BlockHash V) :
    ((entries f u).map Prod.fst).Nodup := by
  rw [entries,List.map_map]
  exact Cursors.Holds.keys_nodup u

theorem Keeps.disjoint {H' : Type} {type' : BlockType} {kind' : H' → Hashables}
    {t' : ExtTreeMap BlockHash (RecordV18 H')} (K : Keeps L type kind t)
    (K' : Keeps L type' kind' t') (ht : type ≠ type') {f : RecordV18 H → W}
    {f' : RecordV18 H' → W} :
    ((entries f t).map Prod.fst).Disjoint ((entries f' t').map Prod.fst) := by
  simp only [List.Disjoint,List.mem_map,Prod.exists,mem_entries]
  rintro h ⟨_,w,⟨o,ho,-⟩,rfl⟩ ⟨_,w',⟨o',ho',-⟩,rfl⟩
  obtain ⟨r,hr,hrt,-⟩ := K.get ho
  rw [K'.absent hr (hrt.trans_ne ht)] at ho'
  cases ho'

end

section
variable {ts us : List BlockType} {l m : List (BlockHash × StoredBlock)}
  {T T' : ExtTreeMap BlockHash StoredBlock}

def Lists (C : Constants) (L : Ledger) (ts : List BlockType)
    (l : List (BlockHash × StoredBlock)) : Prop :=
  ∀ (h : BlockHash) (w : StoredBlock), (h,w) ∈ l ↔
    ∃ r, L.blocks[h]? = some r ∧ r.block.type ∈ ts ∧ recomputed C L r = w

theorem Lists.merge (first : StoredBlock → StoredBlock → Bool) (A : Lists C L ts l)
    (B : Lists C L us m) :
    Lists C L (ts++us) (merge first l m) := by
  intro h w
  rw [Cursors.mem_merge,A h w,B h w]
  simp only [mem_append]
  constructor
  · rintro (⟨r,hr,ht,hw⟩ | ⟨r,hr,ht,hw⟩)
    · exact ⟨r,hr,.inl ht,hw⟩
    · exact ⟨r,hr,.inr ht,hw⟩
  · rintro ⟨r,hr,ht | ht,hw⟩
    · exact .inl ⟨r,hr,ht,hw⟩
    · exact .inr ⟨r,hr,ht,hw⟩

theorem Lists.apart (A : Lists C L ts l) (B : Lists C L us m) (hd : ∀ k ∈ ts, k ∉ us) :
    ∀ a ∈ l, ∀ b ∈ m, a.1 ≠ b.1 := by
  rintro ⟨h,w⟩ ha ⟨g,v⟩ hb e
  dsimp only at e
  obtain rfl := e
  obtain ⟨r,hr,ht,-⟩ := (A h w).mp ha
  obtain ⟨r',hr',hu,-⟩ := (B h v).mp hb
  cases hr.symm.trans hr'
  exact hd _ ht hu

theorem Lists.append (A : Lists C L ts l) (hs : Sorted l) :
    ∃ T, appendAll l = some T ∧ Lists C L ts T.toList ∧ T.size = l.length := by
  obtain ⟨T,hT,H⟩ := appendAll_sorted hs
  refine ⟨T,hT,?_,H.size⟩
  intro h w
  rw [Table.mem_entries,H.entries]
  exact A h w

theorem Lists.appendMerge (first : StoredBlock → StoredBlock → Bool) (A : Lists C L ts T.toList)
    (B : Lists C L us T'.toList) (hd : ∀ k ∈ ts, k ∉ us) :
    ∃ M, Cursors.appendAll (Cursors.merge first T.toList T'.toList) = some M ∧
      Lists C L (ts++us) M.toList ∧ M.size = T.size+T'.size := by
  obtain ⟨M,hM,hl,hsize⟩ := (A.merge first B).append
    (merge_sorted (sorted_toList T) (sorted_toList T') (A.apart B hd))
  refine ⟨M,hM,hl,?_⟩
  rw [hsize,Cursors.length_merge,ExtTreeMap.length_toList,ExtTreeMap.length_toList]

theorem lists_entries (K : Keeps L type kind t) {f : RecordV18 H → StoredBlock}
    (hf : ∀ (h : BlockHash) (o : RecordV18 H) (r : StoredBlock), t[h]? = some o →
      L.blocks[h]? = some r → r.block.hashables = kind o.hashables →
      contents (o.read kind) = contents r → f o = recomputed C L r) :
    Lists C L [type] (entries f t) := by
  intro h w
  rw [mem_entries]
  constructor
  · rintro ⟨o,ho,rfl⟩
    obtain ⟨r,hr,ht,hx,hc⟩ := K.get ho
    exact ⟨r,hr,mem_singleton.mpr ht,(hf h o r ho hr hx hc).symm⟩
  · rintro ⟨r,hr,ht,rfl⟩
    obtain ⟨o,ho⟩ := K.complete h r hr (mem_singleton.mp ht)
    obtain ⟨r',hr',-,hx,hc⟩ := K.get ho
    cases hr.symm.trans hr'
    exact ⟨o,ho,hf h o r ho hr hx hc⟩

theorem legacyRecord_eq {o : RecordV18 H} (hc : contents (o.read kind) = contents r) :
    legacyRecord kind o = ⟨r.block,{ r.sideband with details := {}, sourceEpoch := .epoch0 }⟩ := by
  obtain ⟨hb,hs,ha,hbal,hh,ht,-⟩ := contents_eq.mp hc
  unfold legacyRecord
  dsimp only
  rw [← hs,← ha,← hbal,← hh,← ht,← hb]
  rfl

theorem written_legacy {o : RecordV18 H} (ht : r.block.type ≠ .state)
    (hc : contents (o.read kind) = contents r) :
    written (legacyRecord kind o) = recomputed C L r := by
  rw [legacyRecord_eq hc]
  unfold recomputed
  cases hx : r.block.hashables with
  | state x =>
    rw [Block.type,hx] at ht
    exact absurd rfl ht
  | _ => rfl

theorem written_state (R : Represents L D) {o : RecordV18 StateHashables}
    (hf : Flagged C L o) (hx : r.block.hashables = .state o.hashables)
    (hc : contents (o.read .state) = contents r) :
    written (stateRecord D o) = recomputed C L r := by
  obtain ⟨b,hb,hd⟩ := hf
  obtain ⟨hblock,hs,ha,hbal,hh,ht,he⟩ := contents_eq.mp hc
  have he' : o.sideband.details.epoch = r.sideband.details.epoch := he
  have hdetails : o.sideband.details =
      detailsOf C o.hashables ((L.balance o.hashables.previous).getD 0)
        r.sideband.details.epoch := by
    rw [hb,getD_some,← he']
    exact hd
  unfold recomputed stateRecord
  rw [hx,R.sourceEpoch]
  dsimp only
  rw [← hdetails,← hs,← ha,← hbal,← hh,← ht,← hblock]
  rfl

theorem legacy_holds (R : Represents L D) :
    Holds (legacyOpenReceiveChange D) (entries (legacyRecord .change) D.change++
      entries (legacyRecord .open_) D.open_++entries (legacyRecord .receive) D.receive) := by
  have hchange := nodup_entries (legacyRecord .change) D.change
  have hopen : ((entries (legacyRecord .change) D.change++
      entries (legacyRecord .open_) D.open_).map Prod.fst).Nodup := by
    rw [map_append]
    exact hchange.append (nodup_entries _ _) (R.change.disjoint R.open_ (by decide))
  have hreceive : ((entries (legacyRecord .change) D.change++
      entries (legacyRecord .open_) D.open_++
      entries (legacyRecord .receive) D.receive).map Prod.fst).Nodup := by
    rw [map_append]
    apply hopen.append (nodup_entries _ _)
    rw [map_append,disjoint_append_left]
    exact ⟨R.change.disjoint R.receive (by decide),R.open_.disjoint R.receive (by decide)⟩
  exact ((holds_empty.insertAll hchange).insertAll hopen).insertAll hreceive

theorem mem_entries_written {o : RecordV18 H → StoredBlock} {w : StoredBlock} :
    (∃ v, (h,v) ∈ entries o t ∧ written v = w) ↔ (h,w) ∈ entries (fun x => written (o x)) t := by
  simp only [mem_entries]
  constructor
  · rintro ⟨v,⟨x,hx,rfl⟩,hw⟩
    exact ⟨x,hx,hw⟩
  · rintro ⟨x,hx,hw⟩
    exact ⟨o x,⟨x,hx,rfl⟩,hw⟩

theorem lists_legacy (K : Keeps L type kind t) (ht : type ≠ .state) :
    Lists C L [type] (entries (fun o => written (legacyRecord kind o)) t) := by
  apply lists_entries K
  intro h o r _ _ hx hc
  apply written_legacy ?_ hc
  rw [Block.type,hx,K.typed]
  exact ht

theorem lists_openReceiveChange (R : Represents L D) :
    Lists C L [.change,.open_,.receive] (entries written (legacyOpenReceiveChange D)) := by
  intro h w
  have hchange := lists_legacy (C := C) R.change (by decide) h w
  have hopen := lists_legacy (C := C) R.open_ (by decide) h w
  have hreceive := lists_legacy (C := C) R.receive (by decide) h w
  rw [← mem_entries_written] at hchange hopen hreceive
  simp only [mem_singleton] at hchange hopen hreceive
  rw [mem_entries]
  simp [(legacy_holds R).entries,or_and_right,exists_or,hchange,hopen,hreceive,and_or_left]

theorem upgradeV18ToV19_lists (first : StoredBlock → StoredBlock → Bool) (R : Represents L D)
    (hf : ∀ (h : BlockHash) (o : RecordV18 StateHashables), D.state[h]? = some o →
      Flagged C L o) :
    ∃ T, upgradeV18ToV19 first D = some T ∧
      Lists C L [.change,.open_,.receive,.send,.state] T.toList := by
  obtain ⟨A,hA,hlA,hsA⟩ := (lists_openReceiveChange R).append (sorted_entries _ _)
  obtain ⟨B,hB,hlB,hsB⟩ := (lists_legacy R.send (by decide)).append (sorted_entries _ _)
  obtain ⟨M,hM,hlM,hsM⟩ := hlA.appendMerge first hlB (by decide)
  have hstate : Lists C L [.state] (entries (fun o => written (stateRecord D o)) D.state) :=
    lists_entries R.state fun h o r ho _ hx hc => written_state R (hf h o ho) hx hc
  obtain ⟨E,hE,hlE,hsE⟩ := hstate.append (sorted_entries _ _)
  obtain ⟨T,hT,hlT,hsT⟩ := hlM.appendMerge first hlE (by decide)
  have hlegacy := (legacy_holds R).size
  simp only [length_append,length_entries] at hlegacy hsA hsB hsE
  refine ⟨T,?_,hlT⟩
  unfold upgradeV18ToV19
  simp only [hA,hB,hM,hE,hT,bind_eq_bind,bind_some]
  rw [if_pos (by omega)]

end

section
variable {X : Nodes} {n : Node} {x : StateHashables}

theorem upgrades_recompute (first : StoredBlock → StoredBlock → Bool) (R : Represents L D)
    (hc : Connected L) : ∃ D' T, upgradeV17ToV18 C D = some D' ∧
      upgradeV18ToV19 first D' = some T ∧
      ∀ h : BlockHash, T[h]? = L.blocks[h]?.map (recomputed C L) := by
  obtain ⟨D',hD',R',hf⟩ := upgradeV17ToV18_flags hc R
  obtain ⟨T,hT,hl⟩ := upgradeV18ToV19_lists first R' hf
  refine ⟨D',T,hD',hT,fun h => ext fun w => ?_⟩
  rw [← Table.mem_entries,hl h w,map_eq_some_iff]
  constructor
  · rintro ⟨r,hr,-,hw⟩
    exact ⟨r,hr,hw⟩
  · rintro ⟨r,hr,hw⟩
    refine ⟨r,hr,?_,hw⟩
    cases r.block.type <;> decide

theorem upgraded_iff (first : StoredBlock → StoredBlock → Bool) (R : Represents L D) :
    Upgraded C first L D ↔ Derived C L := by
  constructor
  · rintro ⟨D',T,hD',hT,-,rfl⟩
    have hc := connected_of_upgradeV17ToV18 R hD'
    obtain ⟨D₁,T₁,hD₁,hT₁,hl⟩ := upgrades_recompute first R hc
    cases hD'.symm.trans hD₁
    cases hT.symm.trans hT₁
    refine ⟨hc,fun h r hr => ?_⟩
    have hh := hl h
    rw [hr,map_some] at hh
    exact (some.inj hh).symm
  · intro d
    obtain ⟨D',T,hD',hT,hl⟩ := upgrades_recompute first R d.connected
    have hTL : T = L.blocks := by
      apply Table.ext_get
      intro h
      rw [hl h]
      cases hr : L.blocks[h]? with
      | none => rfl
      | some r => rw [map_some,d.unchanged h r hr]
    refine ⟨D',T,hD',hT,fun h => ?_,hTL⟩
    rw [hTL,R.get h]

theorem justified_details (hj : Justified C U X h n) (hx : n.hashables = .state x) (e : Epoch) :
    n.move.details e = detailsOf C x (previousBalance (X n.previous)) e := by
  have hmove := justified_move hj
  have hbal := justified_balance hj
  have hcov := hj.covered
  rw [hx] at hmove hbal
  simp only [balanceOf] at hbal
  simp only [moveOf] at hmove
  unfold detailsOf
  split_ifs at hmove with hlt h0 he
  · rw [hmove,if_neg (fun hb => absurd hb.1 (BitVec.ne_of_lt hlt)),if_pos hlt]
    rfl
  · have hepoch : ¬ C.isEpochLink x.link = true :=
      fun he => (ProcessSpec.epoch_links _ he).1 h0
    rw [hmove,if_neg (fun hb => hepoch hb.2),if_neg hlt,if_neg (not_not.mpr h0)]
    rfl
  · rw [Covered,hmove] at hcov
    rw [hmove,if_pos ⟨hbal.symm.trans hcov,he⟩]
    rfl
  · rw [hmove,if_neg (fun hb => he hb.2),if_neg hlt,if_pos h0]
    rfl

theorem receive_link (hj : Justified C U X h n) (hx : n.hashables = .state x)
    (hr : (n.move.details n.epoch).isReceive = true) : n.move = .receive x.link := by
  have hmove := justified_move hj
  rw [hx] at hmove
  simp only [moveOf] at hmove
  split_ifs at hmove with hlt h0 he
  · rw [hmove] at hr
    cases hr
  · rw [hmove] at hr
    cases hr
  · rw [hmove] at hr
    cases hr
  · exact hmove

theorem stored_sourceEpoch (V : Valid S L X) (hj : Justified C U X h n) (hX : X h = some n)
    (hx : n.hashables = .state x) : n.sourceEpoch =
      if (n.move.details n.epoch).isReceive then L.version x.link else .epoch0 := by
  rw [justified_sourceEpoch hj,hx]
  split_ifs with hr
  · have hmove := receive_link hj hx hr
    obtain ⟨m,hm,-⟩ := built_source V.built hX hmove
    rw [hmove,V.mirrors.version V.built hm]
    simp [sourceEpochOf,Move.source,hm]
  · cases hmove : n.move with
    | receive s =>
      rw [hmove] at hr
      exact absurd rfl hr
    | _ => rfl

theorem stores_written (hs : Stores X h n r) : written r = r := by
  have htype := hs.type
  have hfix : r.sideband.stored r.block.type = r.sideband := by
    rw [hs.sideband,htype]
    unfold Node.sideband
    cases n.hashables.type <;> rfl
  unfold written
  rw [hfix]

theorem state_unchanged (V : Valid S L X) (hX : X h = some n) (hs : Stores X h n r)
    (hx : r.block.hashables = .state x) : recomputed C L r = r := by
  have hn : n.hashables = .state x := hs.hashables.symm.trans hx
  have hj : Justified C U X h n := by
    apply (built_justified V.built hX).resolve_left
    rintro ⟨-,rfl⟩
    cases hn
  have hprev : n.previous = x.previous := congrArg Hashables.previous hn
  have hside : r.sideband.details = n.move.details n.epoch ∧
      r.sideband.sourceEpoch = n.sourceEpoch := by
    rw [hs.sideband,Node.sideband,hn]
    exact ⟨rfl,rfl⟩
  have hepoch : r.sideband.details.epoch = n.epoch := by
    rw [hside.1]
    cases n.move <;> rfl
  have hdetails : detailsOf C x ((L.balance x.previous).getD 0) r.sideband.details.epoch =
      r.sideband.details := by
    rw [hepoch,hside.1,justified_details hj hn,← hprev,V.mirrors.previousBalance V.built hj]
    rfl
  have hsource : (if r.sideband.details.isReceive then L.version x.link else .epoch0) =
      r.sideband.sourceEpoch := by
    rw [hside.1,hside.2,stored_sourceEpoch V hj hX hn]
  unfold recomputed
  rw [hx]
  dsimp only
  rw [hdetails,hsource]
  exact stores_written hs

theorem legacy_unchanged (hs : Stores X h n r) (ht : r.block.type ≠ .state) :
    recomputed C L r = r := by
  conv_rhs => rw [← stores_written hs]
  unfold recomputed written
  rw [Block.type] at ht ⊢
  cases hx : r.block.hashables with
  | state x =>
    rw [hx] at ht
    exact absurd rfl ht
  | _ => rfl

theorem derived_of_valid (V : Valid S L X) : Derived C L where
  connected := by
    intro h r x hr hx
    obtain ⟨n,hX,hs⟩ := V.mirrors.block h r hr
    have hn : n.hashables = .state x := hs.hashables.symm.trans hx
    rcases built_justified V.built hX with ⟨-,rfl⟩ | hj
    · cases hn
    · have hprev : n.previous = x.previous := congrArg Hashables.previous hn
      rw [← hprev]
      exact ⟨_,V.mirrors.previousBalance V.built hj⟩
  unchanged := by
    intro h r hr
    obtain ⟨n,hX,hs⟩ := V.mirrors.block h r hr
    cases hx : r.block.hashables with
    | state x => exact state_unchanged V hX hs hx
    | _ =>
      apply legacy_unchanged hs
      rw [Block.type,hx]
      rintro ⟨⟩

end

section
open Framing
variable {os : List Offer}

theorem accepted_details (S : HashSound C U) (hr : Run C U os L) (hc : ∀ o ∈ os, o.Careful C)
    {o : Offer} (ho : o ∈ os) (hp : o.result.code = .progress)
    (hL : L.blocks[C.blockHash o.block]? = some r) :
    ∃ s, o.after.blocks[C.blockHash o.block]? = some s ∧
      s.sideband.details = r.sideband.details ∧
      s.sideband.sourceEpoch = r.sideband.sourceEpoch := by
  obtain ⟨hafter,-,hframe⟩ := careful_offers S hr hc ho
  obtain ⟨a,F⟩ := hframe hp
  obtain ⟨s,hs,-⟩ := F.record
  obtain ⟨X,V⟩ := reachable_valid S (reachable_of_careful hr hc)
  obtain ⟨Y,W⟩ := reachable_valid S hafter
  obtain ⟨n,hX,hn⟩ := V.mirrors.block _ r hL
  obtain ⟨m,hY,hm⟩ := W.mirrors.block _ s hs
  obtain rfl := Independence.built_agree V.built W.built hX hY
  refine ⟨s,hs,?_⟩
  rw [hn.sideband,hm.sideband]
  unfold Node.sideband
  cases n.hashables.type <;> exact ⟨rfl,rfl⟩

/-- The upgrades of the tables of any run's ledger do what they should exactly if the
predecessors of its state blocks are there and it stores what is recomputed. A run in
which the epoch-signed blocks accepted for unopened accounts have no predecessor leads
to such a ledger, and the details are those of the acceptance of each block. -/
theorem upgrade_exact_iff (S : HashSound C U) (hr : Run C U os L) (R : Represents L D)
    (first : StoredBlock → StoredBlock → Bool) :
    (Upgraded C first L D ↔ Derived C L) ∧
    ((∀ o ∈ os, o.Careful C) → Upgraded C first L D ∧
      ∀ o ∈ os, o.result.code = .progress → ∀ r, L.blocks[C.blockHash o.block]? = some r →
        ∃ s, o.after.blocks[C.blockHash o.block]? = some s ∧
          s.sideband.details = r.sideband.details ∧
          s.sideband.sourceEpoch = r.sideband.sourceEpoch) := by
  refine ⟨upgraded_iff first R,fun hc => ⟨?_,fun o ho hp r hL => ?_⟩⟩
  · obtain ⟨X,V⟩ := reachable_valid S (reachable_of_careful hr hc)
    exact (upgraded_iff first R).mpr (derived_of_valid V)
  · exact accepted_details S hr hc ho hp hL

end

open Framing

def downgraded (r : StoredBlock) (x : H) : RecordV18 H :=
  ⟨x,r.block.signature,r.block.work,⟨r.sideband.successor,r.sideband.account,r.sideband.balance,
    r.sideband.height,r.sideband.timestamp,⟨r.sideband.details.epoch,false,false,false⟩⟩⟩

def downgradedTable (pick : Hashables → Option H) (L : Ledger) :
    ExtTreeMap BlockHash (RecordV18 H) :=
  L.blocks.filterMap fun _ r => (pick r.block.hashables).map (downgraded r)

def downgrade (L : Ledger) : Tables where
  state := downgradedTable (fun | .state x => some x | _ => none) L
  send := downgradedTable (fun | .send x => some x | _ => none) L
  receive := downgradedTable (fun | .receive x => some x | _ => none) L
  open_ := downgradedTable (fun | .open_ x => some x | _ => none) L
  change := downgradedTable (fun | .change x => some x | _ => none) L

theorem get_downgradedTable {pick : Hashables → Option H} {o : RecordV18 H} :
    (downgradedTable pick L)[h]? = some o ↔ ∃ r x, L.blocks[h]? = some r ∧
      pick r.block.hashables = some x ∧ downgraded r x = o := by
  unfold downgradedTable
  rw [← Table.mem_entries,toList_filterMap,mem_filterMap]
  constructor
  · rintro ⟨⟨k,r⟩,hm,he⟩
    obtain ⟨o',ho',e⟩ := map_eq_some_iff.mp he
    cases e
    obtain ⟨x,hx,rfl⟩ := map_eq_some_iff.mp ho'
    exact ⟨r,x,(Table.mem_entries _ _ _).mp hm,hx,rfl⟩
  · rintro ⟨r,x,hr,hx,rfl⟩
    refine ⟨(h,r),(Table.mem_entries _ _ _).mpr hr,?_⟩
    simp [hx]

theorem keeps_downgradedTable {pick : Hashables → Option H} (ht : ∀ x, (kind x).type = type)
    (hpick : ∀ hs x, pick hs = some x → hs = kind x := by
      rintro (_ | _ | _ | _ | _) x <;> simp)
    (hall : ∀ hs : Hashables, hs.type = type → ∃ x, pick hs = some x := by
      rintro (_ | _ | _ | _ | _) <;> simp [Hashables.type]) :
    Keeps L type kind (downgradedTable pick L) where
  typed := ht
  sound := by
    intro h o ho
    obtain ⟨r,x,hr,hx,rfl⟩ := get_downgradedTable.mp ho
    refine ⟨r,hr,contents_eq.mpr ⟨?_,rfl,rfl,rfl,rfl,rfl,rfl⟩⟩
    show Block.mk (kind x) r.block.signature r.block.work = r.block
    rw [← hpick _ _ hx]
  complete := by
    intro h r hr hty
    obtain ⟨x,hx⟩ := hall _ hty
    exact ⟨_,get_downgradedTable.mpr ⟨r,x,hr,hx,rfl⟩⟩

theorem represents_downgrade (hs : (L.blocks.toList.all fun e =>
      (e.2.block.type != .state) || (e.2.sideband.account == 0 && e.2.sideband.balance == 0)) =
      true) : Represents L (downgrade L) where
  state := by
    dsimp only [downgrade]
    exact keeps_downgradedTable fun _ => rfl
  send := by
    dsimp only [downgrade]
    exact keeps_downgradedTable fun _ => rfl
  receive := by
    dsimp only [downgrade]
    exact keeps_downgradedTable fun _ => rfl
  open_ := by
    dsimp only [downgrade]
    exact keeps_downgradedTable fun _ => rfl
  change := by
    dsimp only [downgrade]
    exact keeps_downgradedTable fun _ => rfl
  stored := by
    intro h o ho
    obtain ⟨r,x,hr,hx,rfl⟩ := get_downgradedTable.mp ho
    have htype : r.block.type = .state := by
      rw [Block.type]
      cases hh : r.block.hashables with
      | state y => rfl
      | _ =>
        rw [hh] at hx
        cases hx
    have hr' := all_eq_true.mp hs (h,r) ((Table.mem_entries _ _ _).mpr hr)
    simp only [htype,bne_self_eq_false,Bool.false_or,Bool.and_eq_true,beq_iff_eq] at hr'
    simp [downgraded,SidebandV18.storedState,hr'.1,hr'.2]

theorem upgrade_exact_iff_sample :
    Upgraded sample (fun _ _ => true) sampleOpened (downgrade sampleOpened) := by
  have hrun : Run sample sampleBlocks ([offered sample (storeInitialize sample 0) sampleSend]++
      [offered sample sampleSent sampleOpen]) sampleOpened :=
    run_offered (run_offered (.start 0) (.inr (.inl rfl)) (by decide +kernel))
      (.inr (.inr rfl)) (by decide +kernel)
  apply ((upgrade_exact_iff sample_sound hrun
    (represents_downgrade (by decide +kernel)) (fun _ _ => true)).2 ?_).1
  intro o ho
  left
  rcases mem_append.mp ho with ho | ho
  · rw [mem_singleton.mp ho]
    exact epochOpens_none (by decide)
  · rw [mem_singleton.mp ho]
    exact epochOpens_none (by decide)

def orphaned : Ledger :=
  ((Rollback.rollback sample 0 3 (processed sample emptied epochOnTop) 3 []).map
    fun e => e.2.1).getD (storeInitialize sample 0)

/-- The epoch block stays behind without its predecessor. -/
theorem upgrade_stopped : Run sample grafted
      [offered sample (storeInitialize sample 0) sendAll,offered sample emptied epochOnTop]
      orphaned ∧
    Represents orphaned (downgrade orphaned) ∧ orphaned.blocks.keys = [2,6] ∧
    upgradeV17ToV18 sample (downgrade orphaned) = none := by
  refine ⟨?_,represents_downgrade (by decide +kernel),by decide +kernel,?_⟩
  · have hrun : Run sample grafted ([offered sample (storeInitialize sample 0) sendAll]++
        [offered sample emptied epochOnTop]) (processed sample emptied epochOnTop) :=
      run_offered (run_offered (.start 0) (.inr (.inl rfl)) (by decide +kernel))
        (.inr (.inr rfl)) (by decide +kernel)
    obtain ⟨⟨e,L,list⟩,hroll⟩ : ∃ r,
        Rollback.rollback sample 0 3 (processed sample emptied epochOnTop) 3 [] = some r :=
      isSome_iff_exists.mp (by decide +kernel)
    rw [orphaned,hroll]
    exact hrun.rollback (by decide +kernel) hroll
  · decide +kernel

end Vxldollar.UpgradedBlocks
