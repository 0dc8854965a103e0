import Vxldollar.Upgrades

/-!
# Upgrades of the accounts, pending entries and confirmation heights

Databases of version 14 keep the accounts, the pending entries and the state blocks of
each epoch in a table of its own, and an account's representative as the block that
names it. Version 15 merges each pair of tables, with the epoch in the entry, and moves
the confirmation heights to a table of their own; version 16 drops the representation
table; version 17 adds the hash of the block at each confirmation height, which is found
by a walk from the nearer end of the chain. The walk from the bottom counts in a signed
32 bit integer. `none` is a failed `release_assert`, a null dereference or an overflow
of that counter.
-/

namespace Vxldollar.AccountUpgrades
open Std Blocks Store Upgrades Cursors Option List ExtTreeMap

section
structure AccountInfoV14 where
  head : BlockHash := 0
  repBlock : BlockHash := 0
  openBlock : BlockHash := 0
  balance : Amount := 0
  modified : ℕ := 0
  blockCount : ℕ := 0
  confirmationHeight : ℕ := 0
  deriving DecidableEq, Repr

structure PendingInfoV14 where
  source : Account
  amount : Amount
  deriving DecidableEq, Repr

structure RecordV14 where
  hashables : StateHashables
  signature : Signature
  work : Work
  successor : BlockHash := 0
  height : ℕ := 0
  timestamp : ℕ := 0
  deriving DecidableEq, Repr

def RecordV14.withDetails (o : RecordV14) (details : BlockDetails) : RecordV18 StateHashables where
  hashables := o.hashables
  signature := o.signature
  work := o.work
  sideband := SidebandV18.storedState {
    successor := o.successor, height := o.height, timestamp := o.timestamp, details }

/-- The legacy blocks are stored as in version 18. -/
structure DatabaseV14 where
  accountsV0 : ExtTreeMap Account AccountInfoV14 := ∅
  accountsV1 : ExtTreeMap Account AccountInfoV14 := ∅
  pendingV0 : ExtTreeMap PendingKey PendingInfoV14 := ∅
  pendingV1 : ExtTreeMap PendingKey PendingInfoV14 := ∅
  stateV0 : ExtTreeMap BlockHash RecordV14 := ∅
  stateV1 : ExtTreeMap BlockHash RecordV14 := ∅
  send : ExtTreeMap BlockHash (RecordV18 SendHashables) := ∅
  receive : ExtTreeMap BlockHash (RecordV18 ReceiveHashables) := ∅
  open_ : ExtTreeMap BlockHash (RecordV18 OpenHashables) := ∅
  change : ExtTreeMap BlockHash (RecordV18 ChangeHashables) := ∅
  representation : Option (ExtTreeMap Account Amount) := none

structure DatabaseV15 where
  accounts : ExtTreeMap Account AccountInfo
  pending : ExtTreeMap PendingKey PendingInfo
  blocks : Tables
  confirmationHeight : ExtTreeMap Account ℕ
  representation : Option (ExtTreeMap Account Amount)

structure DatabaseV17 where
  accounts : ExtTreeMap Account AccountInfo
  pending : ExtTreeMap PendingKey PendingInfo
  blocks : Tables
  confirmationHeight : ExtTreeMap Account ConfirmationHeightInfo

/-- How the bytes of two values compare, for each pair of tables that is merged. -/
structure ValueOrder where
  account : AccountInfoV14 → AccountInfoV14 → Bool
  pending : PendingInfoV14 → PendingInfoV14 → Bool
  state : RecordV14 → RecordV14 → Bool

def epochOf (fromFirstDatabase : Bool) : Epoch := if fromFirstDatabase then .epoch0 else .epoch1

def DatabaseV14.blockGetV14 (D : DatabaseV14) (h : BlockHash) : Option StoredBlock :=
  D.stateV1[h]?.map (fun o => (o.withDetails {}).read .state) <|>
    D.stateV0[h]?.map (fun o => (o.withDetails {}).read .state) <|>
    D.send[h]?.map (RecordV18.read .send) <|> D.receive[h]?.map (RecordV18.read .receive) <|>
    D.open_[h]?.map (RecordV18.read .open_) <|> D.change[h]?.map (RecordV18.read .change)

def accountInfo (D : DatabaseV14) (info : AccountInfoV14) (fromFirstDatabase : Bool) :
    Option AccountInfo := do
  let repBlock ← D.blockGetV14 info.repBlock
  some ⟨info.head,repBlock.block.representative,info.openBlock,info.balance,info.modified,
    info.blockCount,epochOf fromFirstDatabase⟩

def pendingInfo (info : PendingInfoV14) (fromFirstDatabase : Bool) : PendingInfo :=
  ⟨info.source,info.amount,epochOf fromFirstDatabase⟩

def stateRecordV15 (o : RecordV14) (fromFirstDatabase : Bool) : RecordV18 StateHashables :=
  o.withDetails ⟨epochOf fromFirstDatabase,false,false,false⟩

/-- The status of a put is only looked at for the state blocks. -/
def upgradeV14ToV15 (cmp : ValueOrder) (D : DatabaseV14) : Option DatabaseV15 := do
  let iAccount := together cmp.account D.accountsV0 D.accountsV1
  let accountInfos ← convertM (fun e => accountInfo D e.1 e.2) iAccount
  let state ← appendAll (convert (fun e => stateRecordV15 e.1 e.2)
    (together cmp.state D.stateV0 D.stateV1))
  some {
    accounts := putAll accountInfos
    pending := putAll (convert (fun e => pendingInfo e.1 e.2)
      (together cmp.pending D.pendingV0 D.pendingV1))
    blocks := {
      state, send := D.send, receive := D.receive, open_ := D.open_, change := D.change }
    confirmationHeight := putAll (convert (·.1.confirmationHeight) iAccount)
    representation := D.representation }

def upgradeV15ToV16 (D : DatabaseV15) : DatabaseV15 := { D with representation := none }

/-- The walk up, with the rounds that are left; `height` is a signed 32 bit integer. -/
def climb (blocks : Tables) : ℕ → ℕ → StoredBlock → Option StoredBlock
  | 0, _, block => some block
  | n+1, height, block => do
    let next ← blocks.blockGetV18 block.sideband.successor
    if height = 2^31-1 then none else climb blocks n (height+1) next

def descend (blocks : Tables) : ℕ → StoredBlock → Option StoredBlock
  | 0, block => some block
  | n+1, block => do
    let next ← blocks.blockGetV18 block.block.previous
    descend blocks n next

/-- The block at the confirmation height, which is not zero. A walk down from below that
height passes the open block. -/
def frontierBlock (blocks : Tables) (info : AccountInfo) (confirmationHeight : ℕ) :
    Option StoredBlock :=
  if info.blockCount/2 ≥ confirmationHeight then do
    let block ← blocks.blockGetV18 info.openBlock
    climb blocks (confirmationHeight-1) 1 block
  else do
    let block ← blocks.blockGetV18 info.head
    if confirmationHeight ≤ block.sideband.height then
      descend blocks (block.sideband.height-confirmationHeight) block
    else none

variable (C : Constants)

def confirmationHeightInfo (blocks : Tables) (info : AccountInfo) (confirmationHeight : ℕ) :
    Option ConfirmationHeightInfo :=
  if confirmationHeight = 0 then some ⟨0,0⟩
  else (frontierBlock blocks info confirmationHeight).map fun block =>
    ⟨confirmationHeight,C.blockHash block.block⟩

/-- The accounts are read in step with the confirmation heights; past its end the cursor
holds an empty entry. -/
def confirmationHeightInfos (blocks : Tables) : List (Account × ℕ) →
    List (Account × AccountInfo) → Option (List (Account × ConfirmationHeightInfo))
  | [], _ => some []
  | (account,height)::heights, infos => do
    let x ← confirmationHeightInfo C blocks (infos.head?.elim {} Prod.snd) height
    let rest ← confirmationHeightInfos blocks heights infos.tail
    some ((account,x)::rest)

def upgradeV16ToV17 (D : DatabaseV15) : Option DatabaseV17 := do
  let infos ← confirmationHeightInfos C D.blocks D.confirmationHeight.toList D.accounts.toList
  some {
    accounts := D.accounts, pending := D.pending, blocks := D.blocks
    confirmationHeight := putAll infos }

def upgradeV14ToV17 (cmp : ValueOrder) (D : DatabaseV14) : Option DatabaseV17 := do
  let D15 ← upgradeV14ToV15 cmp D
  upgradeV16ToV17 C (upgradeV15ToV16 D15)

end

def DatabaseV14.Account (D : DatabaseV14) (a : Account) (info : AccountInfoV14) : Prop :=
  D.accountsV0[a]? = some info ∨ D.accountsV1[a]? = some info

structure Chain (D : DatabaseV14) (info : AccountInfoV14) (at_ : ℕ → BlockHash) : Prop where
  bottom : at_ 1 = info.openBlock
  top : at_ info.blockCount = info.head
  pos : 1 ≤ info.blockCount
  block : ∀ i, 1 ≤ i → i ≤ info.blockCount → ∃ b, D.blockGetV14 (at_ i) = some b ∧
    b.sideband.height = i ∧ (i < info.blockCount → b.sideband.successor = at_ (i+1)) ∧
    (1 < i → b.block.previous = at_ (i-1))

structure WellFormed (D : DatabaseV14) : Prop where
  accounts : ∀ a ∈ D.accountsV0, a ∉ D.accountsV1
  pending : ∀ k ∈ D.pendingV0, k ∉ D.pendingV1
  state : ∀ h ∈ D.stateV0, h ∉ D.stateV1
  repBlock : ∀ a info, D.Account a info → ∃ b, D.blockGetV14 info.repBlock = some b
  chain : ∀ a info, D.Account a info → ∃ at_, Chain D info at_
  height : ∀ a info, D.Account a info → info.confirmationHeight ≤ info.blockCount

def HeightOf (C : Constants) (D : DatabaseV14) (info : AccountInfoV14)
    (x : ConfirmationHeightInfo) : Prop :=
  x.height = info.confirmationHeight ∧ (x.height = 0 → x.frontier = 0) ∧
    (x.height ≠ 0 → ∀ at_, Chain D info at_ →
      ∃ b, D.blockGetV14 (at_ x.height) = some b ∧ x.frontier = C.blockHash b.block)

def AccountOf (D : DatabaseV14) (info : AccountInfoV14) (epoch : Epoch) (x : AccountInfo) : Prop :=
  ∃ b, D.blockGetV14 info.repBlock = some b ∧ x = ⟨info.head,b.block.representative,
    info.openBlock,info.balance,info.modified,info.blockCount,epoch⟩

def StateOf (o : RecordV14) (epoch : Epoch) (x : RecordV18 StateHashables) : Prop :=
  x.block .state = ⟨.state o.hashables,o.signature,o.work⟩ ∧
    x.sideband = {
      successor := o.successor, height := o.height, timestamp := o.timestamp
      details := ⟨epoch,false,false,false⟩ }

structure Upgraded (C : Constants) (D : DatabaseV14) (D' : DatabaseV17) : Prop where
  accounts : Joined (fun info fromFirst x => AccountOf D info (epochOf fromFirst) x)
    D.accountsV0 D.accountsV1 D'.accounts
  pending : Joined (fun info fromFirst x => x = ⟨info.source,info.amount,epochOf fromFirst⟩)
    D.pendingV0 D.pendingV1 D'.pending
  state : Joined (fun o fromFirst x => StateOf o (epochOf fromFirst) x)
    D.stateV0 D.stateV1 D'.blocks.state
  legacy : D'.blocks.send = D.send ∧ D'.blocks.receive = D.receive ∧
    D'.blocks.open_ = D.open_ ∧ D'.blocks.change = D.change
  confirmationHeight : Joined (fun info _ x => HeightOf C D info x)
    D.accountsV0 D.accountsV1 D'.confirmationHeight

/-- The walk to the account's height does not count beyond its integer. -/
def Countable (info : AccountInfoV14) : Prop :=
  info.confirmationHeight < 2^31 ∨ info.blockCount/2 < info.confirmationHeight

instance (info : AccountInfoV14) : Decidable (Countable info) := inferInstanceAs
  (Decidable (info.confirmationHeight < 2^31 ∨ info.blockCount/2 < info.confirmationHeight))

section
variable {T : Tables} {n : ℕ} {at_ : ℕ → BlockHash}

def Linked (T : Tables) (n : ℕ) (at_ : ℕ → BlockHash) : Prop :=
  ∀ i, 1 ≤ i → i ≤ n → ∃ b, T.blockGetV18 (at_ i) = some b ∧ b.sideband.height = i ∧
    (i < n → b.sideband.successor = at_ (i+1)) ∧ (1 < i → b.block.previous = at_ (i-1))

section
variable (hT : Linked T n at_) (k i : ℕ) (b : StoredBlock)
include hT k i b

theorem climb_linked (hi : 1 ≤ i) (hn : i+k ≤ n) (hint : i < 2^31)
    (hb : T.blockGetV18 (at_ i) = some b) :
    climb T k i b = if i+k < 2^31 then T.blockGetV18 (at_ (i+k)) else none := by
  induction k generalizing i b with
  | zero => rw [Nat.add_zero,if_pos hint,hb,climb]
  | succ k ih =>
    obtain ⟨b',hb',-,hsucc,-⟩ := hT i hi (by omega)
    cases hb.symm.trans hb'
    obtain ⟨next,hnext,-⟩ := hT (i+1) (by omega) (by omega)
    rw [climb,hsucc (by omega),hnext,bind_eq_bind,bind_some]
    by_cases hmax : i = 2^31-1
    · rw [if_pos hmax,if_neg (by omega)]
    · rw [if_neg hmax,ih (i+1) next (by omega) (by omega) (by omega) hnext,
        show i+1+k = i+(k+1) by omega]

theorem descend_linked (hk : k < i) (hn : i ≤ n) (hb : T.blockGetV18 (at_ i) = some b) :
    descend T k b = T.blockGetV18 (at_ (i-k)) := by
  induction k generalizing i b with
  | zero => rw [Nat.sub_zero,hb,descend]
  | succ k ih =>
    obtain ⟨b',hb',-,-,hprev⟩ := hT i (by omega) hn
    cases hb.symm.trans hb'
    obtain ⟨next,hnext,-⟩ := hT (i-1) (by omega) (by omega)
    rw [descend,hprev (by omega),hnext,bind_eq_bind,bind_some,
      ih (i-1) next (by omega) (by omega) hnext,show i-1-k = i-(k+1) by omega]

end

theorem frontierBlock_linked (hT : Linked T n at_) {info : AccountInfo} (hc : info.blockCount = n)
    (hopen : at_ 1 = info.openBlock) (hhead : at_ n = info.head) {c : ℕ} (hpos : 1 ≤ c)
    (hcn : c ≤ n) : frontierBlock T info c =
      if c < 2^31 ∨ n/2 < c then T.blockGetV18 (at_ c) else none := by
  rw [frontierBlock,hc,← hopen,← hhead]
  by_cases hlow : n/2 ≥ c
  · obtain ⟨b,hb,-⟩ := hT 1 (by omega) (by omega)
    rw [if_pos hlow,hb,bind_eq_bind,bind_some,
      climb_linked hT (c-1) 1 b (by omega) (by omega) (by omega) hb,show 1+(c-1) = c by omega]
    by_cases hint : c < 2^31
    · rw [if_pos hint,if_pos (.inl hint)]
    · rw [if_neg hint,if_neg (by omega)]
  · obtain ⟨b,hb,hheight,-⟩ := hT n (by omega) le_rfl
    rw [if_neg hlow,hb,bind_eq_bind,bind_some,hheight,if_pos hcn,
      descend_linked hT (n-c) n b (by omega) le_rfl hb,show n-(n-c) = c by omega,
      if_pos (.inr (by omega))]

end

section
variable {cmp : ValueOrder} {D : DatabaseV14} {E : DatabaseV15} {a : Account}
  {info : AccountInfoV14} {b : Bool}

def iAccount (cmp : ValueOrder) (D : DatabaseV14) : List (Account × (AccountInfoV14 × Bool)) :=
  together cmp.account D.accountsV0 D.accountsV1

def merged (D : DatabaseV14) (e : AccountInfoV14 × Bool) : AccountInfo :=
  (accountInfo D e.1 e.2).getD {}

structure Merged (cmp : ValueOrder) (D : DatabaseV14) (E : DatabaseV15) : Prop where
  accounts : Holds E.accounts (convert (merged D) (iAccount cmp D))
  pending : Holds E.pending (convert (fun e => pendingInfo e.1 e.2)
    (together cmp.pending D.pendingV0 D.pendingV1))
  state : Holds E.blocks.state (convert (fun e => stateRecordV15 e.1 e.2)
    (together cmp.state D.stateV0 D.stateV1))
  legacy : E.blocks.send = D.send ∧ E.blocks.receive = D.receive ∧
    E.blocks.open_ = D.open_ ∧ E.blocks.change = D.change
  heights : Holds E.confirmationHeight
    (convert (·.1.confirmationHeight) (iAccount cmp D))

theorem account_of_pick (h : (bif b then D.accountsV0 else D.accountsV1)[a]? = some info) :
    D.Account a info := by
  cases b with
  | true => exact .inl h
  | false => exact .inr h

theorem mem_iAccount (h : (a,info,b) ∈ iAccount cmp D) : D.Account a info :=
  account_of_pick (mem_together.mp h)

theorem exists_mem_iAccount (cmp : ValueOrder) (h : D.Account a info) :
    ∃ b, (a,info,b) ∈ iAccount cmp D :=
  h.elim (fun h => ⟨true,mem_together.mpr h⟩)
    (fun h => ⟨false,mem_together.mpr h⟩)

theorem WellFormed.merged (W : WellFormed D) (h : D.Account a info) (b : Bool) :
    accountInfo D info b = some (merged D (info,b)) := by
  obtain ⟨r,hr⟩ := W.repBlock a info h
  simp [AccountUpgrades.merged,accountInfo,hr]

theorem upgradeV14ToV15_merged (cmp : ValueOrder) (W : WellFormed D) :
    ∃ E, upgradeV14ToV15 cmp D = some E ∧ Merged cmp D E := by
  have haccounts := sorted_together cmp.account W.accounts
  have hpending := sorted_together cmp.pending W.pending
  have hinfos : convertM (fun e => accountInfo D e.1 e.2) (iAccount cmp D) =
      some (convert (merged D) (iAccount cmp D)) := by
    apply convertM_some
    rintro ⟨a,info,b⟩ he
    exact W.merged (mem_iAccount he) b
  obtain ⟨state,hstate,H⟩ := appendAll_sorted (sorted_convert
    (fun e => stateRecordV15 e.1 e.2) (sorted_together cmp.state W.state))
  rw [iAccount] at hinfos
  rw [upgradeV14ToV15,hinfos,hstate]
  exact ⟨_,rfl,putAll_sorted (sorted_convert _ haccounts),
    putAll_sorted (sorted_convert _ hpending),H,⟨rfl,rfl,rfl,rfl⟩,
    putAll_sorted (sorted_convert _ haccounts)⟩

def core (r : StoredBlock) : Block × BlockHash × ℕ :=
  (r.block,r.sideband.successor,r.sideband.height)

variable (M : Merged cmp D E)
include M

theorem Merged.state_get (h : BlockHash) : E.blocks.state[h]? =
    (D.stateV1[h]?.map (stateRecordV15 · false) <|>
      D.stateV0[h]?.map (stateRecordV15 · true)) := by
  have hget : ∀ o b, (bif b then D.stateV0 else D.stateV1)[h]? = some o →
      E.blocks.state[h]? = some (stateRecordV15 o b) := fun o b ho => (M.state.entries h _).mpr
    (mem_convert.mpr ⟨(o,b),mem_together.mpr ho,rfl⟩)
  cases h₁ : D.stateV1[h]? with
  | some o => exact hget o false h₁
  | none =>
    cases h₀ : D.stateV0[h]? with
    | some o => exact hget o true h₀
    | none =>
      apply eq_none_iff_forall_ne_some.mpr
      intro x hx
      obtain ⟨⟨o,b⟩,hm,-⟩ := mem_convert.mp ((M.state.entries h x).mp hx)
      rw [mem_together] at hm
      cases b with
      | true => exact some_ne_none o (hm.symm.trans h₀)
      | false => exact some_ne_none o (hm.symm.trans h₁)

theorem Merged.get (h : BlockHash) :
    (E.blocks.blockGetV18 h).map core = (D.blockGetV14 h).map core := by
  obtain ⟨hs,hr,ho,hc⟩ := M.legacy
  rw [Tables.blockGetV18,DatabaseV14.blockGetV14,M.state_get,hs,hr,ho,hc]
  cases D.stateV1[h]? with
  | some o => rfl
  | none =>
    cases D.stateV0[h]? with
    | some o => rfl
    | none => rfl

theorem Merged.get_some {h : BlockHash} {b : StoredBlock} (hb : D.blockGetV14 h = some b) :
    ∃ b', E.blocks.blockGetV18 h = some b' ∧
      b'.block = b.block ∧ b'.sideband.successor = b.sideband.successor ∧
      b'.sideband.height = b.sideband.height := by
  have hmap := M.get h
  rw [hb,map_some,map_eq_some_iff] at hmap
  obtain ⟨b',hb',hcore⟩ := hmap
  simp only [core,Prod.mk.injEq] at hcore
  exact ⟨b',hb',hcore⟩

theorem Merged.linked {at_ : ℕ → BlockHash} (hc : Chain D info at_) :
    Linked E.blocks info.blockCount at_ := by
  intro i hi hn
  obtain ⟨b,hb,hheight,hsucc,hprev⟩ := hc.block i hi hn
  obtain ⟨b',hb',hblock,hs,hh⟩ := M.get_some hb
  rw [← hh] at hheight
  rw [← hs] at hsucc
  rw [← hblock] at hprev
  exact ⟨b',hb',hheight,hsucc,hprev⟩

end

section
variable {C : Constants} {cmp : ValueOrder} {D : DatabaseV14} {E : DatabaseV15} {a : Account}
  {info : AccountInfoV14}

theorem merged_fields (W : WellFormed D) (h : D.Account a info) (b : Bool) :
    (merged D (info,b)).blockCount = info.blockCount ∧
    (merged D (info,b)).openBlock = info.openBlock ∧ (merged D (info,b)).head = info.head := by
  obtain ⟨r,hr⟩ := W.repBlock a info h
  simp [merged,accountInfo,hr]

section
variable (M : Merged cmp D E) (W : WellFormed D) (h : D.Account a info) (b : Bool)
include M W h b

theorem Merged.frontierBlock (hpos : info.confirmationHeight ≠ 0) {at_ : ℕ → BlockHash}
    (hc : Chain D info at_) :
    frontierBlock E.blocks (merged D (info,b)) info.confirmationHeight =
      if Countable info then E.blocks.blockGetV18 (at_ info.confirmationHeight) else none := by
  obtain ⟨hcount,hopen,hhead⟩ := merged_fields W h b
  exact frontierBlock_linked (M.linked hc) hcount (hopen ▸ hc.bottom) (hhead ▸ hc.top)
    (Nat.one_le_iff_ne_zero.mpr hpos) (W.height a info h)

theorem Merged.height (hk : Countable info) :
    ∃ x, confirmationHeightInfo C E.blocks (merged D (info,b))
      info.confirmationHeight = some x ∧ HeightOf C D info x := by
  rw [confirmationHeightInfo]
  by_cases hz : info.confirmationHeight = 0
  · rw [if_pos hz]
    exact ⟨⟨0,0⟩,rfl,hz.symm,fun _ => rfl,fun hne => absurd rfl hne⟩
  · obtain ⟨at_,hc⟩ := W.chain a info h
    have hle := W.height a info h
    have hone := Nat.one_le_iff_ne_zero.mpr hz
    obtain ⟨r,hr,-⟩ := M.linked hc _ hone hle
    have hfound := M.frontierBlock W h b hz hc
    rw [if_pos hk,hr] at hfound
    rw [if_neg hz,hfound]
    refine ⟨_,rfl,rfl,fun h0 => absurd h0 hz,fun _ at' hc' => ?_⟩
    -- the walk is the same for every way to name the blocks of the chain
    have hother := M.frontierBlock W h b hz hc'
    rw [if_pos hk,hfound] at hother
    obtain ⟨r',hr',-⟩ := hc'.block _ hone hle
    obtain ⟨s,hs,hblock,-⟩ := M.get_some hr'
    cases hother.trans hs
    exact ⟨r',hr',congrArg C.blockHash hblock⟩

theorem Merged.height_none (hk : ¬ Countable info) :
    confirmationHeightInfo C E.blocks (merged D (info,b))
      info.confirmationHeight = none := by
  have hz : info.confirmationHeight ≠ 0 := by
    unfold Countable at hk
    omega
  obtain ⟨at_,hc⟩ := W.chain a info h
  rw [confirmationHeightInfo,if_neg hz,M.frontierBlock W h b hz hc,if_neg hk,map_none]

end

theorem confirmationHeightInfos_eq (T : Tables) (g : AccountInfoV14 × Bool → AccountInfo)
    (l : List (Account × (AccountInfoV14 × Bool))) :
    confirmationHeightInfos C T (convert (·.1.confirmationHeight) l)
      (convert g l) =
    convertM (fun e => confirmationHeightInfo C T (g e) e.1.confirmationHeight) l := by
  induction l with
  | nil => rfl
  | cons e l ih =>
    rw [convertM_cons,← ih]
    show (confirmationHeightInfo C T (g e.2) e.2.1.confirmationHeight).bind _ = _
    cases confirmationHeightInfo C T (g e.2) e.2.1.confirmationHeight with
    | none => rfl
    | some x =>
      rw [bind_some,bind_some,map_eq_bind]
      rfl

section
variable (M : Merged cmp D E) (W : WellFormed D)
include M W

theorem Merged.infos :
    confirmationHeightInfos C E.blocks E.confirmationHeight.toList E.accounts.toList =
      convertM (fun e => confirmationHeightInfo C E.blocks (merged D e)
        e.1.confirmationHeight) (iAccount cmp D) := by
  have hsorted : Sorted (iAccount cmp D) := sorted_together _ W.accounts
  rw [M.heights.toList (sorted_convert _ hsorted),
    M.accounts.toList (sorted_convert _ hsorted),confirmationHeightInfos_eq]

theorem Merged.joined {heights : ExtTreeMap Account ConfirmationHeightInfo}
    (H : Joined (fun info _ x => HeightOf C D info x) D.accountsV0 D.accountsV1 heights) :
    Upgraded C D ⟨E.accounts,E.pending,E.blocks,heights⟩ where
  accounts := M.accounts.joined fun a info b hinfo => by
    obtain ⟨r,hr⟩ := W.repBlock a info (account_of_pick hinfo)
    exact ⟨r,hr,by simp [merged,accountInfo,hr]⟩
  pending := M.pending.joined fun _ _ _ _ => rfl
  state := M.state.joined fun _ _ _ _ => ⟨rfl,rfl⟩
  legacy := M.legacy
  confirmationHeight := H

end

theorem upgrade_exact (W : WellFormed D) (hk : ∀ a info, D.Account a info → Countable info) :
    ∃ D', upgradeV14ToV17 C cmp D = some D' ∧ Upgraded C D D' := by
  obtain ⟨E,hE,M⟩ := upgradeV14ToV15_merged cmp W
  have hsorted : Sorted (iAccount cmp D) := sorted_together _ W.accounts
  let f : AccountInfoV14 × Bool → ConfirmationHeightInfo := fun e =>
    (confirmationHeightInfo C E.blocks (merged D e) e.1.confirmationHeight).getD {}
  have hf : ∀ a info b, D.Account a info → confirmationHeightInfo C E.blocks (merged D (info,b))
      info.confirmationHeight = some (f (info,b)) ∧ HeightOf C D info (f (info,b)) := by
    intro a info b h
    obtain ⟨x,hx,hof⟩ := M.height (C := C) W h b (hk a info h)
    simp only [f,hx,getD_some,true_and]
    exact hof
  have hinfos := M.infos (C := C) W
  rw [convertM_some fun e he => (hf e.1 e.2.1 e.2.2 (mem_iAccount he)).1]
    at hinfos
  have hrun : upgradeV14ToV17 C cmp D = some ⟨E.accounts,E.pending,E.blocks,
      putAll (convert f (iAccount cmp D))⟩ := by
    rw [upgradeV14ToV17,hE,bind_eq_bind,bind_some,upgradeV16ToV17]
    show (confirmationHeightInfos C E.blocks E.confirmationHeight.toList E.accounts.toList).bind _
      = _
    rw [hinfos]
    rfl
  refine ⟨_,hrun,M.joined W ?_⟩
  apply (putAll_sorted (sorted_convert f hsorted)).joined
  intro a info b h
  exact (hf a info b (account_of_pick h)).2

theorem upgrade_overflows (C : Constants) (cmp : ValueOrder) (W : WellFormed D)
    (h : D.Account a info) (hk : ¬ Countable info) : upgradeV14ToV17 C cmp D = none := by
  obtain ⟨E,hE,M⟩ := upgradeV14ToV15_merged cmp W
  obtain ⟨b,hb⟩ := exists_mem_iAccount cmp h
  have hinfos := M.infos (C := C) W
  rw [convertM_none hb (M.height_none W h b hk)] at hinfos
  rw [upgradeV14ToV17,hE,bind_eq_bind,bind_some,upgradeV16ToV17]
  show (confirmationHeightInfos C E.blocks E.confirmationHeight.toList E.accounts.toList).bind _
    = _
  rw [hinfos,bind_none]

/-- The three upgrades merge the tables and find each account's frontier, exactly if no
walk from the bottom of a chain has to count to `2^31`. -/
theorem upgrade_merges_iff (C : Constants) (cmp : ValueOrder) (W : WellFormed D) :
    (∃ D', upgradeV14ToV17 C cmp D = some D' ∧ Upgraded C D D') ↔
      ∀ a info, D.Account a info →
        ¬ (2^31 ≤ info.confirmationHeight ∧ info.confirmationHeight ≤ info.blockCount/2) := by
  have hcount : ∀ info, Countable info ↔
      ¬ (2^31 ≤ info.confirmationHeight ∧ info.confirmationHeight ≤ info.blockCount/2) := by
    intro info
    unfold Countable
    omega
  constructor
  · rintro ⟨D',hD',-⟩ a info h hlong
    have hnone := upgrade_overflows C cmp W h
      (fun hk => (hcount info).mp hk hlong)
    rw [hnone] at hD'
    cases hD'
  · intro hall
    exact upgrade_exact W fun a info h => (hcount info).mpr (hall a info h)

end

variable {n c i : ℕ}

def counting : Constants := { Runs.sample with hash := fun h => h.previous+1 }

def anyOrder : ValueOrder := ⟨fun _ _ => true,fun _ _ => true,fun _ _ => true⟩

def linkRecord (n i : ℕ) : RecordV14 where
  hashables := ⟨1,BitVec.ofNat 256 (i-1),7,0,0⟩
  signature := 0
  work := 0
  successor := if i = n then 0 else BitVec.ofNat 256 (i+1)
  height := i

def linkEntries (n : ℕ) : List (BlockHash × RecordV14) :=
  (range n).map fun i => (BitVec.ofNat 256 (i+1),linkRecord n (i+1))

def longInfo (n c : ℕ) : AccountInfoV14 where
  head := BitVec.ofNat 256 n
  repBlock := 1
  openBlock := 1
  blockCount := n
  confirmationHeight := c

def long (n c : ℕ) : DatabaseV14 where
  accountsV0 := (∅ : ExtTreeMap Account AccountInfoV14).insert 1 (longInfo n c)
  stateV0 := insertAll ∅ (linkEntries n)

theorem long_holds (hn : n < 2^256) : Holds (long n c).stateV0 (linkEntries n) := by
  have hnodup : ((linkEntries n).map Prod.fst).Nodup := by
    rw [linkEntries,List.map_map]
    apply Nodup.map_on _ nodup_range
    intro i hi j hj h
    have hnat := congrArg BitVec.toNat h
    simp only [Function.comp,BitVec.toNat_ofNat] at hnat
    have := mem_range.mp hi
    have := mem_range.mp hj
    omega
  exact holds_empty.insertAll hnodup

theorem long_get (n c : ℕ) (h : BlockHash) : (long n c).blockGetV14 h =
    (long n c).stateV0[h]?.map fun o => (o.withDetails {}).read .state := by
  simp [DatabaseV14.blockGetV14,long]

theorem long_block (hn : n < 2^256) (hi : 1 ≤ i) (hin : i ≤ n) :
    (long n c).blockGetV14 (BitVec.ofNat 256 i) =
      some (((linkRecord n i).withDetails {}).read .state) := by
  have hget : (long n c).stateV0[BitVec.ofNat 256 i]? = some (linkRecord n i) := by
    rw [(long_holds hn).entries]
    apply List.mem_map.mpr
    exact ⟨i-1,mem_range.mpr (by omega),by rw [Nat.sub_add_cancel hi]⟩
  rw [long_get,hget,map_some]

theorem long_hash (hn : n < 2^256) {h : BlockHash} {b : StoredBlock}
    (hb : (long n c).blockGetV14 h = some b) : counting.blockHash b.block = h := by
  rw [long_get,map_eq_some_iff] at hb
  obtain ⟨o,ho,rfl⟩ := hb
  rw [(long_holds hn).entries] at ho
  obtain ⟨i,-,heq⟩ := mem_map.mp ho
  cases heq
  exact (BitVec.ofNat_add i 1).symm

theorem long_account {a : Account} {info : AccountInfoV14} (h : (long n c).Account a info) :
    info = longInfo n c := by
  rcases h with h | h
  · rw [long,Table.get_insert] at h
    split_ifs at h with ha
    · exact (some.inj h).symm
    · simp at h
  · simp [long] at h

theorem long_chain (hn : n < 2^256) (hpos : 1 ≤ n) :
    Chain (long n c) (longInfo n c) (BitVec.ofNat 256) where
  bottom := rfl
  top := rfl
  pos := hpos
  block i hi hin := by
    refine ⟨_,long_block hn hi hin,rfl,fun hlt => ?_,fun _ => rfl⟩
    exact if_neg hlt.ne

theorem long_wellFormed (hn : n < 2^256) (hpos : 1 ≤ n) (hc : c ≤ n) : WellFormed (long n c) where
  accounts a _ := not_mem_empty
  pending k hk := absurd hk not_mem_empty
  state h _ := not_mem_empty
  repBlock a info h := by
    rw [long_account h]
    exact ⟨_,long_block hn le_rfl hpos⟩
  chain a info h := by
    rw [long_account h]
    exact ⟨_,long_chain hn hpos⟩
  height a info h := by
    rw [long_account h]
    exact hc

theorem long_info (n c : ℕ) : (long n c).accountsV0[(1 : Account)]? = some (longInfo n c) := by
  rw [long,Table.get_insert,if_pos rfl]

theorem long_upgraded {D' : DatabaseV17} (hn : n < 2^256) (hpos : 1 ≤ n) (hc : c ≠ 0)
    (h : Upgraded counting (long n c) D') :
    D'.confirmationHeight[(1 : Account)]? = some ⟨c,BitVec.ofNat 256 c⟩ := by
  obtain ⟨⟨height,frontier⟩,hx,rfl,-,hblock⟩ := h.confirmationHeight.first 1 _ (long_info n c)
  obtain ⟨b,hb,rfl⟩ := hblock hc _ (long_chain hn hpos)
  rw [hx,long_hash hn hb]

theorem upgrade_merges_iff_sample :
    (∃ D', upgradeV14ToV17 counting anyOrder (long 5 2) = some D' ∧
      Upgraded counting (long 5 2) D' ∧ D'.confirmationHeight[(1 : Account)]? = some ⟨2,2⟩) ∧
    ∃ D', upgradeV14ToV17 counting anyOrder (long 5 4) = some D' ∧
      Upgraded counting (long 5 4) D' ∧ D'.confirmationHeight[(1 : Account)]? = some ⟨4,4⟩ := by
  have hrun : ∀ c ≤ 5, ∃ D', upgradeV14ToV17 counting anyOrder (long 5 c) = some D' ∧
      Upgraded counting (long 5 c) D' := by
    intro c hc
    apply (upgrade_merges_iff counting anyOrder
      (long_wellFormed (by omega) (by omega) hc)).mpr
    rintro a info h ⟨hlow,-⟩
    rw [long_account h] at hlow
    exact absurd (hlow.trans hc) (by decide)
  obtain ⟨D₂,h₂,hup₂⟩ := hrun 2 (by decide)
  obtain ⟨D₄,h₄,hup₄⟩ := hrun 4 (by decide)
  exact ⟨⟨D₂,h₂,hup₂,long_upgraded (by omega) (by omega) (by decide) hup₂⟩,
    ⟨D₄,h₄,hup₄,long_upgraded (by omega) (by omega) (by decide) hup₄⟩⟩

/-- The account has `2^32` blocks, half of which are confirmed. -/
theorem upgrade_stops_counting : ∃ D : DatabaseV14, WellFormed D ∧
    (∀ h b, D.blockGetV14 h = some b → counting.blockHash b.block = h) ∧
    upgradeV14ToV17 counting anyOrder D = none := by
  have W : WellFormed (long (2^32) (2^31)) := long_wellFormed (by omega) (by omega) (by omega)
  have hinfo : (long (2^32) (2^31)).Account 1 (longInfo (2^32) (2^31)) := .inl (long_info _ _)
  refine ⟨long (2^32) (2^31),W,fun h b hb => long_hash (by omega) hb,
    upgrade_overflows counting anyOrder W hinfo ?_⟩
  rintro (hlow | hhigh)
  · exact absurd hlow (Nat.lt_irrefl _)
  · exact absurd hhigh (by decide)

end Vxldollar.AccountUpgrades
