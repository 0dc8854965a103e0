import Vxldollar.Confirmation
import Vxldollar.ProcessSpec
import Vxldollar.RollbackSpec

/-!
# Reachable ledgers

A run starts from `initialize` and interleaves `process`, `rollback` and the
raising of confirmation heights. Every ledger a run reaches mirrors a lattice,
keeps the supply and the weights, and has a cemented set that is closed under
dependencies and holds the genesis block.
-/

namespace Vxldollar.Runs
open Blocks Store Vxldollar.Lattice Chains Mirror Growth Totals Process ProcessSpec RollbackSpec
  Commits Heights Confirmation Table Causal

inductive Reachable (C : Constants) (U : Set Hashables) : Ledger → Prop
  | start (now : ℕ) : Reachable C U (storeInitialize C now)
  | process {L L' : Ledger} {b : Block} {verified : SignatureVerification}
      {result : ProcessReturn} {now : ℕ} : Reachable C U L → b.hashables ∈ U →
      Honest C L b verified → EpochOpens C L b →
      process C now L b verified = some (result,L') → Reachable C U L'
  | rollback {L L' : Ledger} {h : BlockHash} {list list' : Rollback.RollbackList} {error : Bool}
      {fuel now : ℕ} : Reachable C U L → L.blocks.contains h = true →
      Rollback.rollback C now fuel L h list = some (error,L',list') → Reachable C U L'
  | cement {L L' : Ledger} : Reachable C U L → Raised C L L' → Reachable C U L'

variable {C : Constants} {U : Set Hashables} {S : HashSound C U} {X : Nodes} {L L' : Ledger}

structure Valid (S : HashSound C U) (L : Ledger) (X : Nodes) : Prop where
  built : Built S X
  mirrors : Mirrors L X
  supply : supply L = 2^128-1
  defect : ∀ a, defect L a = 0
  frontier : ∀ (a : Account) (i : ConfirmationHeightInfo), L.confirmationHeight[a]? = some i →
    ∃ n, X i.frontier = some n ∧ n.account = a ∧ n.height = i.height
  closed : ∀ h n, X h = some n → Cemented L n → ∀ d ∈ deps n, ∀ m, X d = some m → Cemented L m
  genesis : 1 ≤ (L.confirmationHeightGet C.genesisAccount).height
  cementedCount : L.cache.cementedCount = heights L

section
variable {h : BlockHash} {n : Node}

variable (V : Valid S L X)
include V

theorem Valid.confirmed :
    L.blockConfirmed h = true ↔ ∃ n, X h = some n ∧ Cemented L n :=
  blockConfirmed_iff V.mirrors V.built

theorem Valid.height_le (hh : Head X h n) :
    (L.confirmationHeightGet n.account).height ≤ n.height := by
  unfold Ledger.confirmationHeightGet
  cases hi : L.confirmationHeight[n.account]? with
  | none => exact Nat.zero_le _
  | some i =>
    obtain ⟨m,hm,hacc,hheight⟩ := V.frontier _ i hi
    rw [Option.getD_some,← hheight]
    exact height_le_head V.built hm hh hacc

theorem Valid.height_zero {a : Account} (ha : ∀ g m, X g = some m → m.account ≠ a) :
    (L.confirmationHeightGet a).height = 0 := by
  unfold Ledger.confirmationHeightGet
  cases hi : L.confirmationHeight[a]? with
  | none => rfl
  | some i =>
    obtain ⟨m,hm,hacc,-⟩ := V.frontier _ i hi
    exact absurd hacc (ha _ m hm)

theorem Valid.admitted_uncemented (ha : Admits C U X h n) : ¬ Cemented L n := by
  have hheight := justified_height ha.toJustified
  unfold Cemented
  by_cases hp : n.previous = 0
  · rw [V.height_zero (ha.unopened hp)]
    omega
  · obtain ⟨p,hp',hacc,-⟩ := ha.following hp
    have hle := V.height_le ⟨hp',ha.head hp⟩
    rw [hp'] at hheight
    rw [← hacc]
    simp only [Option.map_some,Option.getD_some] at hheight
    omega

theorem Valid.free (hX : X h = some n) (hc : ¬ Cemented L n) : Free S L X h := by
  have hall : ∀ g ∈ dependents (rules S) X h, ∀ m, X g = some m → ¬ Cemented L m := by
    intro g hg
    induction hg with
    | refl =>
      intro m hm
      rwa [← Option.some.inj (hX.symm.trans hm)]
    | @tail b c hb hd ih =>
      intro m hm hcem
      obtain ⟨m',hm',hmem⟩ := hd
      cases hm.symm.trans hm'
      obtain ⟨p,hp⟩ := Built.deps_present V.built hm hmem
      exact ih p hp (V.closed c m hm hcem b hmem p hp)
  refine ⟨fun hg => hall _ hg _ (built_genesis V.built) V.genesis,fun g hg m hm => ?_⟩
  exact Nat.lt_of_not_le (hall g hg m hm)

end
section
variable (S) (now : ℕ)

def genesisNodes (C : Constants) : Nodes :=
  Function.update (fun _ => none) C.genesisHash (some (genesisNode C))

variable {h : BlockHash} {n : Node}

theorem genesisNodes_eq_some : genesisNodes C h = some n ↔
    h = C.genesisHash ∧ n = genesisNode C := by
  unfold genesisNodes
  by_cases e : h = C.genesisHash
  · simp [e,eq_comm]
  · simp [e]

include S in
theorem genesis_head : Head (genesisNodes C) h n ↔ h = C.genesisHash ∧ n = genesisNode C := by
  constructor
  · exact fun hh => genesisNodes_eq_some.mp hh.1
  · intro he
    refine ⟨genesisNodes_eq_some.mpr he,fun g m hg => ?_⟩
    obtain ⟨-,rfl⟩ := genesisNodes_eq_some.mp hg
    rw [he.1]
    exact (S.ne_zero _ S.genesis_mem).symm

theorem start_account (a : Account) (i : AccountInfo) :
    (storeInitialize C now).accounts[a]? = some i ↔
      a = C.genesisAccount ∧ i = infoOf C.genesisHash (genesisNode C) now := by
  change ((∅ : Std.ExtTreeMap Account AccountInfo).insert C.genesisAccount _)[a]? = some i ↔ _
  rw [get_insert]
  split_ifs with e
  · simp [e,infoOf,genesisNode,eq_comm]
  · simp [e]

include S in
theorem start_mirrors : Mirrors (storeInitialize C now) (genesisNodes C) where
  block := by
    intro h r hr
    change ((∅ : Std.ExtTreeMap BlockHash StoredBlock).insert C.genesisHash _)[h]? = some r at hr
    rw [get_insert] at hr
    split_ifs at hr with e
    · cases hr
      refine ⟨genesisNode C,genesisNodes_eq_some.mpr ⟨e,rfl⟩,rfl,rfl,.inl ⟨rfl,?_⟩⟩
      exact ((genesis_head S).mpr ⟨e,rfl⟩).2
    · simp at hr
  present := by
    intro h n hn
    obtain ⟨rfl,-⟩ := genesisNodes_eq_some.mp hn
    exact ⟨_,(get_insert _ _ _ _).trans (if_pos rfl)⟩
  account := by
    intro a i hi
    obtain ⟨rfl,rfl⟩ := (start_account now a i).mp hi
    exact ⟨_,_,(genesis_head S).mpr ⟨rfl,rfl⟩,rfl,rfl⟩
  opened := by
    intro h n hh
    obtain ⟨-,rfl⟩ := (genesis_head S).mp hh
    exact ⟨_,(start_account now _ _).mpr ⟨rfl,rfl⟩⟩
  frontier := by
    intro h a
    change ((∅ : Std.ExtTreeMap BlockHash Account).insert C.genesisHash _)[h]? = some a ↔ _
    rw [get_insert]
    simp only [genesis_head S]
    constructor
    · intro hf
      split_ifs at hf with e
      · exact ⟨_,⟨e,rfl⟩,nofun,Option.some.inj hf⟩
      · simp at hf
    · rintro ⟨n,⟨rfl,rfl⟩,-,rfl⟩
      rw [if_pos rfl]
      rfl
  pending := by
    intro k i
    constructor
    · intro hp
      change (∅ : Std.ExtTreeMap PendingKey PendingInfo)[k]? = some i at hp
      simp at hp
    · rintro ⟨n,⟨hn,hm,-⟩,-⟩
      obtain ⟨-,rfl⟩ := genesisNodes_eq_some.mp hn
      cases hm
  pruned := rfl
  blockCount := by
    change 1 = count ((∅ : Std.ExtTreeMap BlockHash StoredBlock).insert C.genesisHash _)
    rw [count_insert_absent _ _ _ (by simp)]
    rfl
  accountCount := by
    change 1 = count ((∅ : Std.ExtTreeMap Account AccountInfo).insert C.genesisAccount _)
    rw [count_insert_absent _ _ _ (by simp)]
    rfl

theorem start_valid : Valid S (storeInitialize C now) (genesisNodes C) where
  built := Built.seed
  mirrors := start_mirrors S now
  supply := by
    change total _ ((∅ : Std.ExtTreeMap Account AccountInfo).insert C.genesisAccount _)+
      total _ (∅ : Std.ExtTreeMap PendingKey PendingInfo) = _
    rw [total_insert _ _ _ _ (by simp)]
    rfl
  defect := by
    intro a
    unfold defect represented storeInitialize
    dsimp only
    rw [total_insert _ _ _ _ (by simp),total_empty,representationGet,
      representationPut,get_insert]
    by_cases e : a = C.genesisAccount
    · simp [e]
    · simp [e,Ne.symm e]
  frontier := by
    intro a i hi
    change ((∅ : Std.ExtTreeMap Account ConfirmationHeightInfo).insert C.genesisAccount _)[a]? =
      some i at hi
    rw [get_insert] at hi
    split_ifs at hi with e
    · cases hi
      exact ⟨_,genesisNodes_eq_some.mpr ⟨rfl,rfl⟩,e.symm,rfl⟩
    · simp at hi
  closed := by
    intro h n hn _ d hd
    obtain ⟨-,rfl⟩ := genesisNodes_eq_some.mp hn
    exact absurd hd (genesis_deps C d)
  genesis := by
    have hget : (storeInitialize C now).confirmationHeight[C.genesisAccount]? =
        some ⟨1,C.genesisHash⟩ := (get_insert _ _ _ _).trans (if_pos rfl)
    rw [Ledger.confirmationHeightGet,hget]
    exact le_rfl
  cementedCount := by
    change 1 = total _ ((∅ : Std.ExtTreeMap Account ConfirmationHeightInfo).insert
      C.genesisAccount _)
    rw [total_insert _ _ _ _ (by simp)]
    rfl

end
section
variable {n : Node}

theorem cemented_congr (hc : L'.confirmationHeight = L.confirmationHeight) :
    Cemented L' n ↔ Cemented L n := by
  unfold Cemented Ledger.confirmationHeightGet
  rw [hc]

/-- The ledger is valid after a step that keeps the heights and whose lattice
has, up to blocks that are not cemented, the same nodes. -/
theorem Valid.transfer {Y : Nodes} (V : Valid S L X) (hb : Built S Y) (M : Mirrors L' Y)
    (hsup : Totals.supply L' = Totals.supply L) (hdef : ∀ a, Totals.defect L' a = Totals.defect L a)
    (hc : L'.confirmationHeight = L.confirmationHeight)
    (hcc : L'.cache.cementedCount = L.cache.cementedCount)
    (hsame : ∀ h n, Cemented L n → (X h = some n ↔ Y h = some n)) : Valid S L' Y where
  built := hb
  mirrors := M
  supply := hsup.trans V.supply
  defect := fun a => (hdef a).trans (V.defect a)
  frontier := by
    intro a i hi
    rw [hc] at hi
    obtain ⟨n,hn,hacc,hheight⟩ := V.frontier a i hi
    have hcem : Cemented L n := by
      rw [Cemented,Ledger.confirmationHeightGet,hacc,hi]
      exact hheight.le
    exact ⟨n,(hsame _ n hcem).mp hn,hacc,hheight⟩
  closed := by
    intro h n hn hcem d hd m hm
    rw [cemented_congr hc] at hcem ⊢
    have hX := (hsame h n hcem).mpr hn
    obtain ⟨m',hm'⟩ := Built.deps_present V.built hX hd
    have hcem' := V.closed h n hX hcem d hd m' hm'
    cases hm.symm.trans ((hsame d m' hcem').mp hm')
    exact hcem'
  genesis := by
    rw [Ledger.confirmationHeightGet,hc]
    exact V.genesis
  cementedCount := by
    rw [hcc,heights,hc]
    exact V.cementedCount

theorem Valid.supply_lt (V : Valid S L X) : Totals.supply L < 2^128 := by
  rw [V.supply]
  decide

theorem Valid.processed {b : Block} {verified : SignatureVerification} {result : ProcessReturn}
    {now : ℕ} (V : Valid S L X) (hU : b.hashables ∈ U) (hh : Honest C L b verified)
    (ho : EpochOpens C L b) (hp : Process.process C now L b verified = some (result,L')) :
    (result.code ≠ .progress ∧ L' = L) ∨
      (result.code = .progress ∧ X (C.blockHash b) = none ∧
        Admits C U X (C.blockHash b) (nodeFor C X b.hashables) ∧
        Grows L L' (C.blockHash b) b (nodeFor C X b.hashables) now ∧
        Valid S L' (add X (C.blockHash b) (nodeFor C X b.hashables))) := by
  obtain ⟨_,_,hp',hres⟩ := process_refines now V.mirrors V.built hU V.supply_lt hh ho
  cases hp'.symm.trans hp
  refine hres.imp_right ?_
  rintro ⟨hcode,hk,ha,G,hw⟩
  refine ⟨hcode,hk,ha,G,?_⟩
  refine V.transfer (Causal.Built.add V.built hk ha)
    (grow_mirrors V.mirrors V.built ha hk rfl G)
    (supply_grow V.mirrors V.built ha hk G.accounts G.pending)
    (defect_grow V.mirrors V.built ha G.accounts hw) G.confirmationHeight G.cementedCount ?_
  intro h n hcem
  rw [add_eq_some hk]
  refine ⟨.inr,fun hor => hor.resolve_left ?_⟩
  rintro ⟨-,rfl⟩
  exact V.admitted_uncemented ha hcem

variable {h : BlockHash}

theorem Valid.cleared (V : Valid S L X) {l : Rollback.RollbackList} (hf : Free S L X h)
    (c : Clears S L L' X (Causal.dependents (rules S) X h) l)
    (hd : ∀ a, Totals.defect L' a = Totals.defect L a) :
    Valid S L' (Causal.without X (Causal.dependents (rules S) X h)) := by
  refine V.transfer c.built c.mirrors c.supply hd c.confirmationHeight c.cementedCount ?_
  intro g n hcem
  rw [without_eq_some]
  refine ⟨fun hX => ⟨fun hg => ?_,hX⟩,And.right⟩
  exact absurd hcem (Nat.not_le_of_lt (hf.2 g hg n hX))

/-- What any rollback does, whatever fuel it returned with. -/
theorem Valid.rollback_cases (V : Valid S L X) (hX : X h = some n) {now fuel : ℕ}
    {list : Rollback.RollbackList} {out : Bool × Ledger × Rollback.RollbackList}
    (hr : Rollback.rollback C now fuel L h list = some out) : (Cemented L n ∧ out = (true,L,list)) ∨
    (¬ Cemented L n ∧ ∃ L' l, out = (false,L',list++l) ∧
      Clears S L L' X (Causal.dependents (rules S) X h) l ∧
      Valid S L' (Causal.without X (Causal.dependents (rules S) X h))) := by
  by_cases hc : Cemented L n
  · refine .inl ⟨hc,?_⟩
    have hr' := (Rollback.rollback_extends (Nat.le_succ fuel) _ _ _).eq hr
    rw [rollback_cemented V.mirrors V.built hX hc] at hr'
    exact (Option.some.inj hr').symm
  · refine .inr ⟨hc,?_⟩
    have hf := V.free hX hc
    -- enough fuel for the specification, and at least the given fuel
    obtain ⟨L',l,hs,c,hd⟩ := rollback_callSpec now
      (fuel+((dependents (rules S) X h).ncard+1)) L X h n list V.built V.mirrors hX hf
      (by omega)
    have hr' := (Rollback.rollback_extends
      (Nat.le_add_right fuel ((dependents (rules S) X h).ncard+1)) _ _ _).eq hr
    rw [hs] at hr'
    exact ⟨L',l,(Option.some.inj hr').symm,c,V.cleared hf c hd⟩

theorem Valid.raised (V : Valid S L X) (R : Raised C L L') : Valid S L' X := by
  have M : Mirrors L' X := by
    rw [R.rest]
    have M := V.mirrors
    exact ⟨M.block,M.present,M.account,M.opened,M.frontier,M.pending,M.pruned,M.blockCount,
      M.accountCount⟩
  have hacc : L'.accounts = L.accounts := by rw [R.rest]
  have hpend : L'.pending = L.pending := by rw [R.rest]
  have hw : L'.cache.repWeights = L.cache.repWeights := by rw [R.rest]
  refine ⟨V.built,M,?_,?_,?_,?_,V.genesis.trans (R.raised _),?_⟩
  · rw [Totals.supply,hacc,hpend]
    exact V.supply
  · intro a
    rw [Totals.defect,hacc,hw]
    exact V.defect a
  · intro a i hi
    obtain ⟨r,hr,ha,hh⟩ := R.frontier a i hi
    obtain ⟨n,hn,hs⟩ := V.mirrors.block _ r hr
    refine ⟨n,hn,?_,?_⟩
    · rw [← ha,stores_account V.built hn hs]
    · rw [← hh,stores_height V.built hn hs]
  · intro h n hn hcem d hd m hm
    obtain ⟨r,hr,hs⟩ := M.get hn
    have hconf := R.closed h r hr ((blockConfirmed_iff M V.built).mpr ⟨n,hn,hcem⟩) d
      ((dependsOn_iff V.built hn hs).mpr hd)
    obtain ⟨m',hm',hc'⟩ := (blockConfirmed_iff M V.built).mp hconf
    rwa [Option.some.inj (hm.symm.trans hm')]
  · have hcount := R.count
    rw [V.cementedCount] at hcount
    omega

end

/-- Every reachable ledger mirrors a lattice and keeps the totals. -/
theorem reachable_valid (S : HashSound C U) (hr : Reachable C U L) : ∃ X, Valid S L X := by
  induction hr with
  | start now => exact ⟨_,start_valid S now⟩
  | @process L L' b verified result now _ hU hh ho hp ih =>
    obtain ⟨X,V⟩ := ih
    rcases V.processed hU hh ho hp with ⟨-,rfl⟩ | ⟨-,-,-,-,V'⟩
    · exact ⟨X,V⟩
    · exact ⟨_,V'⟩
  | @rollback L L' h list list' error fuel now _ hh hr ih =>
    obtain ⟨X,V⟩ := ih
    obtain ⟨n,hX⟩ := V.mirrors.contains.mp hh
    rcases V.rollback_cases hX hr with ⟨-,e⟩ | ⟨-,L'',l,e,-,V'⟩
    · obtain rfl : L' = L := congrArg (fun o => o.2.1) e
      exact ⟨X,V⟩
    · obtain rfl : L' = L'' := congrArg (fun o => o.2.1) e
      exact ⟨_,V'⟩
  | cement _ R ih =>
    obtain ⟨X,V⟩ := ih
    exact ⟨X,V.raised R⟩

def cementTo (L : Ledger) (a : Account) (height : ℕ) (frontier : BlockHash) : Ledger :=
  { L with
    confirmationHeight := L.confirmationHeight.insert a ⟨height,frontier⟩
    cache.cementedCount := L.cache.cementedCount+(height-(L.confirmationHeightGet a).height) }

def closedCheck (C : Constants) (L : Ledger) : Bool := L.blocks.toList.all (fun e =>
  let d := dependentBlocks C e.2
  !L.blockConfirmed e.1 ||
    ((decide (d.1 = 0) || L.blockConfirmed d.1) && (decide (d.2 = 0) || L.blockConfirmed d.2)))

theorem closed_of_check (h : closedCheck C L = true) : Closed C L := by
  intro g r hr hc d ⟨h0,hd⟩
  have hr := List.all_eq_true.mp h (g,r) ((mem_entries _ _ _).mpr hr)
  simp only [hc,Bool.not_true,Bool.false_or,Bool.and_eq_true,Bool.or_eq_true,
    decide_eq_true_eq] at hr
  rcases hd with rfl | rfl
  · exact hr.1.resolve_left h0
  · exact hr.2.resolve_left h0

/-- The account's block at the height is the frontier, and what is cemented then is closed. -/
def cementCheck (C : Constants) (L : Ledger) (a : Account) (height : ℕ) (frontier : BlockHash) :
    Bool :=
  decide ((L.confirmationHeightGet a).height ≤ height) &&
    (L.blocks[frontier]?.any fun r => decide (r.accountCalculated = a) &&
      decide (r.sideband.height = height)) && closedCheck C (cementTo L a height frontier)

theorem raised_cementTo (V : Valid S L X) {a : Account} {height : ℕ} {frontier : BlockHash}
    (h : cementCheck C L a height frontier = true) : Raised C L (cementTo L a height frontier) := by
  simp only [cementCheck,Bool.and_eq_true,decide_eq_true_eq] at h
  obtain ⟨⟨hle,hfrontier⟩,hclosed⟩ := h
  refine ⟨rfl,fun b => ?_,fun b j hj => ?_,closed_of_check hclosed,?_⟩
  · change _ ≤ ((L.confirmationHeight.insert a ⟨height,frontier⟩)[b]?.getD {}).height
    rw [get_insert]
    split_ifs with e
    · rw [e]
      exact hle
    · rfl
  · change (L.confirmationHeight.insert a ⟨height,frontier⟩)[b]? = some j at hj
    rw [get_insert] at hj
    split_ifs at hj with e
    · cases hj
      obtain ⟨r,hr,hc⟩ := (Option.any_eq_true _ _).mp hfrontier
      rw [Bool.and_eq_true,decide_eq_true_eq,decide_eq_true_eq] at hc
      exact ⟨r,hr,hc.1.trans e.symm,hc.2⟩
    · obtain ⟨n,hn,hacc,hheight⟩ := V.frontier b j hj
      obtain ⟨r,hr,hs⟩ := V.mirrors.get hn
      exact ⟨r,hr,(stores_account V.built hn hs).trans hacc,
        (stores_height V.built hn hs).trans hheight⟩
  · change L.cache.cementedCount+(height-(L.confirmationHeightGet a).height)+heights L =
      L.cache.cementedCount+total _ (L.confirmationHeight.insert a ⟨height,frontier⟩)
    have hsum : total (fun _ (i : ConfirmationHeightInfo) => i.height)
        (L.confirmationHeight.insert a ⟨height,frontier⟩)+(L.confirmationHeightGet a).height =
        heights L+height := by
      unfold heights Ledger.confirmationHeightGet
      cases hi : L.confirmationHeight[a]? with
      | none => rw [total_insert _ _ _ _ hi,add_comm height]; rfl
      | some i => exact total_replace (fun _ i => i.height) _ _ _ _ hi
    omega

theorem Reachable.cementTo (hr : Reachable C U L) (S : HashSound C U) {a : Account} {height : ℕ}
    {frontier : BlockHash} (h : cementCheck C L a height frontier = true) :
    Reachable C U (cementTo L a height frontier) := by
  obtain ⟨X,V⟩ := reachable_valid S hr
  exact hr.cement (raised_cementTo V h)

def processed (C : Constants) (L : Ledger) (b : Block) : Ledger :=
  ((process C 0 L b .unknown).map Prod.snd).getD L

variable {b : Block}

theorem process_processed (h : (process C 0 L b .unknown).isSome = true) :
    ∃ result, process C 0 L b .unknown = some (result,processed C L b) := by
  obtain ⟨⟨result,L'⟩,hp⟩ := Option.isSome_iff_exists.mp h
  rw [processed,hp]
  exact ⟨result,rfl⟩

theorem reachable_processed (S : HashSound C U) (hr : Reachable C U L) (hU : b.hashables ∈ U)
    (ho : EpochOpens C L b) : Reachable C U (processed C L b) := by
  obtain ⟨X,V⟩ := reachable_valid S hr
  have hh : Honest C L b .unknown := ⟨nofun,nofun⟩
  obtain ⟨result,L',hp,-⟩ := process_refines 0 V.mirrors V.built hU V.supply_lt hh ho
  rw [processed,hp]
  exact hr.process hU hh ho hp

theorem epochOpens_none (h : C.epochSigner b.link = none) : EpochOpens C L b := by
  rintro ⟨signer,hs,-⟩
  rw [h] at hs
  cases hs

def sample : Constants where
  hash := fun
    | .open_ _ => 2
    | .send _ => 3
    | .receive _ => 4
    | .change _ => 5
    | .state _ => 6
  validateMessage := fun _ _ _ => false
  workValue := fun _ _ => BitVec.allOnes 64
  work := ⟨0,0,0⟩
  genesisAccount := 1
  genesisSignature := 0
  genesisWork := 0
  epochV2Signer := 8
  finalVotesCanaryAccount := 1
  finalVotesCanaryHeight := 5
  genesisAccount_ne_zero := by decide

def sampleSend : Block := ⟨.send ⟨2,7,BitVec.allOnes 128-5⟩,0,0⟩

def sampleOpen : Block := ⟨.state ⟨7,0,9,5,3⟩,0,0⟩

/-- Genesis, the send and one more block. -/
def sentWith (b : Block) : Set Hashables :=
  {sample.genesis.hashables,sampleSend.hashables,b.hashables}

theorem sample_hashSound (hg : sample.genesis.hashables ∈ U)
    (h : ∀ a ∈ U, ∀ b ∈ U, sample.hash a = sample.hash b → a = b) : HashSound sample U := by
  have hhash : ∀ n ∈ [(2 : BlockHash),3,4,5,6],
      n ≠ 0 ∧ sample.isEpochLink n = false ∧ n ≠ sample.genesisAccount := by decide
  exact .of_forall h (fun a _ => hhash _ (by cases a <;> simp [sample])) hg

theorem sentWith_sound (h2 : sample.blockHash b ≠ 2) (h3 : sample.blockHash b ≠ 3) :
    HashSound sample (sentWith b) := by
  refine sample_hashSound (.inl rfl) ?_
  rintro x (rfl | rfl | rfl) y (rfl | rfl | rfl) h
  all_goals first
    | rfl
    | cases h
    | exact absurd h h2
    | exact absurd h h3
    | exact absurd h.symm h2
    | exact absurd h.symm h3

abbrev sampleBlocks : Set Hashables := sentWith sampleOpen

theorem sample_sound : HashSound sample sampleBlocks := sentWith_sound (by decide) (by decide)

def sampleSent : Ledger := processed sample (storeInitialize sample 0) sampleSend

def sampleOpened : Ledger := processed sample sampleSent sampleOpen

theorem sampleOpened_contains : sampleOpened.blocks.contains 6 = true := by decide +kernel

theorem sampleSent_reachable : Reachable sample sampleBlocks sampleSent :=
  reachable_processed sample_sound (.start 0) (.inr (.inl rfl)) (epochOpens_none (by decide))

theorem sentWith_reachable (h2 : sample.blockHash b ≠ 2) (h3 : sample.blockHash b ≠ 3)
    (ho : EpochOpens sample sampleSent b) :
    Reachable sample (sentWith b) (processed sample sampleSent b) := by
  have S := sentWith_sound h2 h3
  refine reachable_processed S (reachable_processed S (.start 0) ?_ ?_) (.inr (.inr rfl)) ho
  · exact .inr (.inl rfl)
  · exact epochOpens_none (by decide)

theorem sampleOpened_reachable : Reachable sample sampleBlocks sampleOpened :=
  sentWith_reachable (by decide) (by decide) (epochOpens_none (by decide))

/-- Both transfers of the sample are cemented. -/
def sampleCemented : Ledger := cementTo (cementTo sampleOpened 1 2 3) 7 1 6

theorem sampleCemented_reachable : Reachable sample sampleBlocks sampleCemented :=
  (sampleOpened_reachable.cementTo sample_sound (by decide +kernel)).cementTo sample_sound
    (by decide +kernel)

end Vxldollar.Runs
