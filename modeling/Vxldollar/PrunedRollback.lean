import Vxldollar.RollbackReads
import Vxldollar.Truncation

/-!
# Rolling back on a pruned ledger

A rollback reads the block it removes, its predecessor and, to find the
representative to go back to, the blocks below that are sends or receives. The
first two are never gone above the confirmation height. The walk for the
representative may end in a block that is gone; whenever it does not, the
rollback runs in lockstep with the one on the full ledger.
-/

namespace Vxldollar.PrunedRollback
open Blocks Store Vxldollar.Lattice Chains Mirror Rollback RollbackSpec Pruning Truncation
  Simulation Causal Option

variable {C : Constants} {U : Set Hashables} {S : HashSound C U} {X : Nodes} {L L' P P' : Ledger}
  {gone : BlockHash → Prop} {g h : BlockHash} {n : Node} {r : StoredBlock} {now : ℕ}
  {call : Call} {bound k : ℕ} {list : RollbackList}

inductive Named (gone : BlockHash → Prop) (X : Nodes) : BlockHash → Prop
  | stop {h : BlockHash} {n : Node} : X h = some n → ¬ gone h → n.hashables.type ≠ .send →
      n.hashables.type ≠ .receive → Named gone X h
  | walk {h : BlockHash} {n : Node} : X h = some n → ¬ gone h →
      n.hashables.type = .send ∨ n.hashables.type = .receive → Named gone X n.previous →
      Named gone X h

theorem legacy_previous (hb : Built S X) (hX : X h = some n)
    (ht : n.hashables.type = .send ∨ n.hashables.type = .receive) : n.previous ≠ 0 := by
  intro h0
  rcases built_justified hb hX with ⟨-,rfl⟩ | hj
  · rcases ht with ht | ht <;> cases ht
  · rcases hj.opening h0 with ho | ho <;> rcases ht with ht | ht <;> rw [ht] at ho <;> cases ho

theorem Named.without {T : Set BlockHash} (N : Named gone X h) (hb : Built S (without X T))
    (hX : without X T h = some n) : Named gone (without X T) h := by
  induction N generalizing n with
  | stop hm hg hs hr =>
    cases hm.symm.trans (without_eq_some.mp hX).2
    exact .stop hX hg hs hr
  | walk hm hg ht _ ih =>
    cases hm.symm.trans (without_eq_some.mp hX).2
    obtain ⟨p,hp,-⟩ := built_following hb hX (legacy_previous hb hX ht)
    exact .walk hX hg ht (ih hp)

section
variable (M : Mirrors L X) (hb : Built S X) (T : Truncates True gone L P) (N : Named gone X h)
include M hb T N

theorem representativeCompute_eq (hX : X h = some n) (hk : n.height ≤ k) :
    ∃ f, ¬ gone f ∧ representativeCompute C L k h = some f ∧
      representativeCompute C P k h = some f := by
  induction k generalizing h n with
  | zero => exact absurd (Heights.height_pos hb hX) (by omega)
  | succ k ih =>
    obtain ⟨r,hr,hs⟩ := M.get hX
    have hself := stored_hash M hb hr
    have htype := hs.type
    have hprev := hs.previous
    unfold representativeCompute
    cases N with
    | stop hm hg hsend hreceive =>
      cases hX.symm.trans hm
      rw [blocks_eq T hg,hr]
      refine ⟨h,hg,?_⟩
      cases ht : n.hashables.type with
      | send => exact absurd ht hsend
      | receive => exact absurd ht hreceive
      | _ => simp [htype,hself]
    | walk hm hg ht N' =>
      cases hX.symm.trans hm
      obtain ⟨p,hp,-,-,hheight,-⟩ := built_following hb hX (legacy_previous hb hX ht)
      obtain ⟨f,hf,hL,hP⟩ := ih N' hp (by omega)
      rw [blocks_eq T hg,hr]
      refine ⟨f,hf,?_⟩
      simp only [htype,hprev]
      rcases ht with ht | ht
      · rw [ht]
        exact ⟨hL,hP⟩
      · rw [ht]
        exact ⟨hL,hP⟩

theorem representative_eq : ∃ f, ¬ gone f ∧ representative C L h = some f ∧
      representative C P h = some f := by
  obtain ⟨n,hX,hg⟩ : ∃ n, X h = some n ∧ ¬ gone h := by
    cases N with
    | stop hm hg _ _ => exact ⟨_,hm,hg⟩
    | walk hm hg _ _ => exact ⟨_,hm,hg⟩
  obtain ⟨r,hr,hs⟩ := M.get hX
  unfold representative
  rw [blocks_eq T hg,hr,map_some,getD_some,stores_height hb hX hs]
  exact representativeCompute_eq M hb T N hX (Nat.le_succ _)

end

theorem named_of_compute (M : Mirrors L X) (T : Truncates True gone L P) {f : BlockHash}
    (hc : representativeCompute C P k h = some f) : Named gone X h := by
  induction k generalizing h with
  | zero => cases hc
  | succ k ih =>
    unfold representativeCompute at hc
    cases hr : P.blocks[h]? with
    | none =>
      rw [hr] at hc
      cases hc
    | some r =>
      obtain ⟨hg,n,hX,hs⟩ := T.record M hr
      have htype := hs.type
      have hprev := hs.previous
      simp only [hr,htype,hprev] at hc
      cases ht : n.hashables.type with
      | send =>
        rw [ht] at hc
        exact .walk hX hg (.inl ht) (ih hc)
      | receive =>
        rw [ht] at hc
        exact .walk hX hg (.inr ht) (ih hc)
      | _ => exact .stop hX hg (by simp [ht]) (by simp [ht])

section
variable {b : Block}

theorem accountSafe_follows (T : Truncates True gone L P) (source : BlockHash) :
    Follows (fun a a' => a' = a ∨ gone source) (L.accountSafe source) (P.accountSafe source) := by
  intro a ha
  have hP : P.accountSafe source = some ((P.account source).getD 0) := by
    rw [Ledger.accountSafe,T.pruning]
    rfl
  refine ⟨_,hP,?_⟩
  by_cases hg : gone source
  · exact .inr hg
  · left
    rw [account_eq T hg]
    unfold Ledger.accountSafe at ha
    split at ha
    · exact some.inj ha
    · rw [ha,getD_some]

theorem samePending_source {a a' : Account} {source : BlockHash} {amount : Amount} {epoch : Epoch}
    (h : a' = a ∨ gone source) : SamePending True (gone source) (some ⟨a,amount,epoch⟩)
      (some ⟨a',amount,epoch⟩) := by
  rcases h with rfl | hg
  · exact .inl rfl
  · exact .inr ⟨trivial,hg,_,a',rfl,rfl⟩

variable (T : Truncates True gone L P)
include T

theorem sendCommit_follows {h : SendHashables} (hg : ¬ gone g) (hp : ¬ gone h.previous)
    (pending : PendingInfo) : Follows (Truncates True gone)
      (sendCommit now L g h pending) (sendCommit now P g h pending) := by
  unfold sendCommit
  rw [T.accounts]
  refine (pendingDel_follows T _).step fun T₁ => ?_
  have T₁' := weightAdd_truncates (a := (L.accounts[pending.source]?.getD {}).representative) T₁
    pending.amount
  refine Follows.read (balance_eq T₁' hp).symm fun balance _ => ?_
  refine (updateAccount_follows T₁' _ _).step fun T₂ => ?_
  refine (blockDel_follows T₂ hg).step fun T₃ => ?_
  refine (frontierDel_follows T₃).step fun T₄ => ?_
  exact successorClear_follows (frontierPut_truncates T₄) hp

section
variable (hg : ¬ gone (C.blockHash b))
include hg

section
variable (hr : ∀ r, L.blocks[C.blockHash b]? = some r → ¬ gone r.block.previous)
include hr

theorem receiveBlock_follows {h : ReceiveHashables} (hp : ¬ gone h.previous) :
    Follows (Truncates True gone) (receiveBlock C now L b h) (receiveBlock C now P b h) := by
  unfold receiveBlock
  rw [T.accounts]
  refine Follows.read (amount_eq T hg hr).symm fun amount _ => ?_
  refine .read (account_eq T hg).symm fun destination _ => ?_
  refine (accountSafe_follows T _).step fun hs => ?_
  have T₁ := weightAdd_truncates (a := (L.accounts[destination]?.getD {}).representative) T
    (0-amount)
  refine .read (balance_eq T₁ hp).symm fun balance _ => ?_
  refine (updateAccount_follows T₁ _ _).step fun T₂ => ?_
  refine (blockDel_follows T₂ hg).step fun T₃ => ?_
  refine (frontierDel_follows (pendingPut_truncates T₃ _ (samePending_source hs))).step fun T₄ => ?_
  exact successorClear_follows (frontierPut_truncates T₄) hp

theorem openBlock_follows {h : OpenHashables} :
    Follows (Truncates True gone) (openBlock C L b h) (openBlock C P b h) := by
  unfold openBlock
  refine Follows.read (amount_eq T hg hr).symm fun amount _ => ?_
  refine .read (account_eq T hg).symm fun destination _ => ?_
  refine (accountSafe_follows T _).step fun hs => ?_
  refine (updateAccount_follows (weightAdd_truncates T _) _ _).step fun T₂ => ?_
  refine (blockDel_follows T₂ hg).step fun T₃ => ?_
  exact frontierDel_follows (pendingPut_truncates T₃ _ (samePending_source hs))

end

def SameWalk (C : Constants) (gone : BlockHash → Prop) (L P : Ledger) (h : BlockHash) : Prop :=
  ∃ f, ¬ gone f ∧ representative C L h = some f ∧ representative C P h = some f

theorem changeBlock_follows {h : ChangeHashables} (hp : ¬ gone h.previous)
    (hw : SameWalk C gone L P h.previous) :
    Follows (Truncates True gone) (changeBlock C now L b h) (changeBlock C now P b h) := by
  obtain ⟨f,hf,hL,hP⟩ := hw
  unfold changeBlock
  rw [T.accounts]
  refine Follows.read (hL.trans hP.symm) fun repBlock hrep => ?_
  cases hL.symm.trans hrep
  refine .read (account_eq T hp).symm fun account _ => ?_
  refine .read (balance_eq T hp).symm fun balance _ => ?_
  refine .read (blocks_eq T hf).symm fun block _ => ?_
  refine (blockDel_follows (weightAddDual_truncates T _ _ _) hg).step fun T₁ => ?_
  refine (updateAccount_follows T₁ _ _).step fun T₂ => ?_
  refine (frontierDel_follows T₂).step fun T₃ => ?_
  exact successorClear_follows (frontierPut_truncates T₃) hp

end

variable {h : StateHashables}

theorem stateRepresentative_follows (hw : h.previous ≠ 0 → SameWalk C gone L P h.previous) :
    Follows Eq (stateRepresentative C L h) (stateRepresentative C P h) := by
  apply Follows.ite Iff.rfl
  · exact fun _ => .pure rfl
  · intro h0
    obtain ⟨f,hf,hL,hP⟩ := hw h0
    refine Follows.read (hL.trans hP.symm) fun repBlock hrep => ?_
    cases hL.symm.trans hrep
    refine Follows.read (blocks_eq T hf).symm fun block _ => ?_
    exact .pure rfl

theorem stateWeights_truncates (previous : Option Account) (balance : Amount) :
    Truncates True gone (stateWeights L h previous balance)
      (stateWeights P h previous balance) := by
  cases previous with
  | none => exact weightAdd_truncates T _
  | some representative => exact weightAddDual_truncates T _ _ _

def Same (gone : BlockHash → Prop) (x y : Ledger × RollbackList) : Prop :=
  y.2 = x.2 ∧ Truncates True gone x.1 y.1

def Awaited (gone : BlockHash → Prop) (call : Call) (bound : ℕ) (list : RollbackList)
    (key : PendingKey) (L P : Ledger) : Prop := ∀ accountError,
  Follows (Same gone) (stateAwait call bound key L list accountError)
    (stateAwait call bound key P list accountError)

theorem statePending_follows {accountError : Bool} {balance : Amount}
    (hawait : h.balance < balance →
      Awaited gone call bound list ⟨h.link,C.blockHash r.block⟩ L P) :
    Follows (Same gone) (statePending C call bound L list r h accountError balance)
      (statePending C call bound P list r h accountError balance) := by
  apply Follows.ite Iff.rfl
  · intro hlt
    apply (hawait hlt _).bind
    rintro ⟨L₁,l⟩ ⟨P₁,_⟩ _ _ ⟨rfl,T₁⟩
    refine (pendingDel_follows T₁ _).step fun T₂ => ?_
    exact .pure ⟨rfl,T₂⟩
  · intro _
    apply Follows.ite Iff.rfl
    · intro _
      refine (accountSafe_follows T _).step fun hs => ?_
      exact .pure ⟨rfl,pendingPut_truncates T _ (samePending_source hs)⟩
    · exact fun _ => .pure ⟨rfl,T⟩

theorem restorePrevious_follows (hp : ¬ gone h.previous) :
    Follows (Truncates True gone) (restorePrevious L h) (restorePrevious P h) := by
  unfold restorePrevious
  rw [blocks_eq T hp]
  cases L.blocks[h.previous]? with
  | none => exact .pure T
  | some previous =>
    refine (successorClear_follows T hp).step fun T₁ => ?_
    by_cases ht : previous.block.type = .state
    · simp only [if_pos ht]
      exact .pure T₁
    · simp only [if_neg ht]
      exact .pure (frontierPut_truncates T₁)

theorem stateCommit_follows (hg : ¬ gone g) (hp : ¬ gone h.previous) (info : AccountInfo)
    (representative : Account) (balance : Amount) :
    Follows (Truncates True gone) (stateCommit now L g h info representative balance)
      (stateCommit now P g h info representative balance) := by
  unfold stateCommit
  rw [version_eq T hp]
  refine (updateAccount_follows T _ _).step fun T₁ => ?_
  refine (restorePrevious_follows T₁ hp).step fun T₂ => ?_
  exact blockDel_follows T₂ hg

end

/-- The full ledger mirrors a lattice, what is gone is deep, and above the
confirmation heights every block that needs a representative finds one. -/
structure Lockstep (S : HashSound C U) (gone : BlockHash → Prop) (L : Ledger) (X : Nodes)
    (P : Ledger) : Prop where
  built : Built S X
  mirrors : Mirrors L X
  truncates : Truncates True gone L P
  deep : ∀ h n, gone h → X h = some n → n.height < (L.confirmationHeightGet n.account).height
  named : ∀ h n, X h = some n → (L.confirmationHeightGet n.account).height < n.height →
    n.hashables.type = .change ∨ n.hashables.type = .state → n.previous ≠ 0 →
    Named gone X n.previous

theorem Lockstep.after {T : Set BlockHash} {l : RollbackList} (K : Lockstep S gone L X P)
    (c : Clears S L L' X T l) (hT : Truncates True gone L' P') :
    Lockstep S gone L' (without X T) P' where
  built := c.built
  mirrors := c.mirrors
  truncates := hT
  deep h n hg hX := by
    unfold Ledger.confirmationHeightGet
    rw [c.confirmationHeight]
    exact K.deep h n hg (without_eq_some.mp hX).2
  named h n hX hlt ht h0 := by
    unfold Ledger.confirmationHeightGet at hlt
    rw [c.confirmationHeight] at hlt
    obtain ⟨p,hp,-⟩ := built_following c.built hX h0
    exact (K.named h n (without_eq_some.mp hX).2 hlt ht h0).without c.built hp

theorem Lockstep.not_gone (K : Lockstep S gone L X P) (hX : X g = some n)
    (hc : (L.confirmationHeightGet n.account).height ≤ n.height) : ¬ gone g :=
  fun hg => absurd (K.deep g n hg hX) (Nat.not_lt.mpr hc)

section
variable (K : Lockstep S gone L X P) (hX : X g = some n)
  (hc : (L.confirmationHeightGet n.account).height < n.height)
include K hX hc

theorem Lockstep.previous_not_gone : ¬ gone n.previous := by
  by_cases h0 : n.previous = 0
  · intro hg
    obtain ⟨m,hm⟩ := K.mirrors.contains.mp (K.truncates.removed _ hg).2
    rw [h0,built_zero K.built] at hm
    cases hm
  · obtain ⟨p,hp,hacc,-,hheight,-⟩ := built_following K.built hX h0
    refine K.not_gone hp ?_
    rw [hacc]
    omega

theorem Lockstep.walk (ht : n.hashables.type = .change ∨ n.hashables.type = .state)
    (h0 : n.previous ≠ 0) :
    SameWalk C gone L P n.previous :=
  representative_eq K.mirrors K.built K.truncates (K.named g n hX hc ht h0)

end

def SameRun (gone : BlockHash → Prop) (x y : Bool × Ledger × RollbackList) : Prop :=
  y.1 = x.1 ∧ Same gone x.2 y.2

theorem follows_run {x y : Option Ledger} (h : Follows (Truncates True gone) x y) :
    Follows (SameRun gone) (x.bind fun L => some (false,L,list))
      (y.bind fun P => some (false,P,list)) :=
  h.bind fun _ _ _ _ T => .pure ⟨rfl,rfl,T⟩

def CallFollows (S : HashSound C U) (gone : BlockHash → Prop) (call : Call) (k : ℕ) : Prop :=
  ∀ (L : Ledger) (X : Nodes) (P : Ledger) (h : BlockHash) (n : Node) (list : RollbackList),
    Lockstep S gone L X P → X h = some n → Free S L X h →
    (dependents (rules S) X h).ncard < k →
    Follows (SameRun gone) (call L h list) (call P h list)

section
variable (hcall : CallSpec S call k) (hsim : CallFollows S gone call k) (K : Lockstep S gone L X P)
  (hX : X g = some n) {d : Account} (hmove : n.move = .send d) (hfree : Free S L X g)
  (hk : (dependents (rules S) X g).ncard ≤ k)
include hcall hsim K hX hmove hfree hk

theorem untilPending_round {T : Set BlockHash} {l : RollbackList} (o : Opens S L L' X g T l)
    (hT : Truncates True gone L' P') :
    Follows (Rounds (fun a b => Same gone a b ∧ ∃ T l, a.2 = list++l ∧ Opens S L a.1 X g T l)
      (fun x y => y.1 = x.1 ∧ Same gone x.2 y.2))
      (untilPending call ⟨d,g⟩ (L',list++l)) (untilPending call ⟨d,g⟩ (P',list++l)) := by
  have hg : ¬ gone g :=
    K.not_gone hX (hfree.above hX).le
  have hpend : P'.pending[(⟨d,g⟩ : PendingKey)]? = L'.pending[(⟨d,g⟩ : PendingKey)]? :=
    (hT.pending ⟨d,g⟩).resolve_right (fun e => hg e.2.1)
  unfold untilPending
  dsimp only
  rw [hpend,latest_eq hT]
  cases hp : L'.pending[(⟨d,g⟩ : PendingKey)]? with
  | some i => exact .pure ⟨rfl,rfl,hT⟩
  | none =>
    obtain ⟨m,hm,hf,hlt,-⟩ := o.latest hX hmove K.built hfree hk hp
    apply (hsim L' _ P' _ m (list++l) (K.after o.toClears hT) hm hf hlt).bind
    rintro ⟨e,L₁,l₁⟩ ⟨_,P₁,_⟩ hL _ ⟨rfl,rfl,T₁⟩
    apply Follows.ite Iff.rfl
    · exact fun _ => .pure ⟨rfl,rfl,T₁⟩
    · intro he
      refine .pure ⟨⟨rfl,T₁⟩,?_⟩
      rcases untilPending_step hX hmove K.built hfree hk hcall list o with
        ⟨L₂,T',l',hs,o',-⟩ | ⟨-,hs⟩
      · rw [untilPending,hp] at hs
        dsimp only at hs
        rw [hL,bind_eq_bind,bind_some,if_neg he] at hs
        cases hs
        exact ⟨T',l',rfl,o'⟩
      · rw [hp] at hs
        cases hs

theorem untilPending_follows : Follows (fun x y => y.1 = x.1 ∧ Same gone x.2 y.2)
      (Loop.loop (untilPending call ⟨d,g⟩) bound (L,list))
      (Loop.loop (untilPending call ⟨d,g⟩) bound (P,list)) := by
  refine Follows.loop ?_ bound (R := fun a b => Same gone a b ∧
    ∃ T l, a.2 = list++l ∧ Opens S L a.1 X g T l)
    ⟨⟨rfl,K.truncates⟩,∅,[],(List.append_nil _).symm,Opens.nothing K.mirrors K.built⟩
  rintro ⟨L',_⟩ ⟨P',_⟩ ⟨⟨rfl,hT⟩,T,l,rfl,o⟩
  exact untilPending_round hcall hsim K hX hmove hfree hk o hT

end

theorem Lockstep.reweigh {w : RepWeights} (K : Lockstep S gone L X P)
    (hL : L' = { L with cache.repWeights := w }) (hT : Truncates True gone L' P') :
    Lockstep S gone L' X P' := by
  subst hL
  exact ⟨K.built,reweigh_mirrors K.mirrors,hT,K.deep,K.named⟩

section
variable (hcall : CallSpec S call k) (hsim : CallFollows S gone call k) (K : Lockstep S gone L X P)
include hcall hsim K

section
variable {d : Account} (hX : X g = some n) (hfree : Free S L X g)
  (hk : (dependents (rules S) X g).ncard ≤ k)
include hX hfree hk

theorem stateAwait_follows (hmove : n.move = .send d) :
    Awaited gone call bound list ⟨d,g⟩ L P := by
  intro accountError
  apply Follows.ite Iff.rfl
  · exact fun _ => .pure ⟨rfl,K.truncates⟩
  · intro _
    apply (untilPending_follows hcall hsim K hX hmove hfree hk).map
    exact fun _ _ _ h => h.2

variable (hhash : C.blockHash r.block = g)
include hhash

theorem sendBlock_follows {h : SendHashables} (hn : n.hashables = .send h)
    (hp : ¬ gone h.previous) :
    Follows (SameRun gone) (sendBlock C now call bound L list r.block h)
      (sendBlock C now call bound P list r.block h) := by
  have hmove : n.move = .send h.destination := by
    rw [justified_move (hfree.justified K.built hX),hn]
    rfl
  have hg : ¬ gone g := K.not_gone hX (hfree.above hX).le
  unfold sendBlock
  rw [hhash]
  apply (untilPending_follows hcall hsim K hX hmove hfree hk).bind
  rintro ⟨_,L₁,_⟩ ⟨p,P₁,_⟩ _ _ ⟨rfl,rfl,T₁⟩
  cases p with
  | none => exact .pure ⟨rfl,rfl,T₁⟩
  | some pending => exact follows_run (sendCommit_follows T₁ hg hp pending)

theorem stateBlock_follows {h : StateHashables} (hn : n.hashables = .state h)
    (hp : ¬ gone h.previous) (hw : h.previous ≠ 0 → SameWalk C gone L P h.previous) :
    Follows (Same gone) (stateBlock C now call bound L list r h)
      (stateBlock C now call bound P list r h) := by
  have hj := hfree.justified K.built hX
  obtain ⟨hrep,hbalance⟩ := Retractions.stateRepresentative_eq hn K.mirrors K.built hj
  obtain ⟨w,hweights,-⟩ := Retractions.stateWeights_shrinks (L := L) hn hj
  apply (stateRepresentative_follows K.truncates hw).bind
  rintro previous _ hrep' _ rfl
  cases hrep'.symm.trans hrep
  apply (Follows.of_eq (balance_eq K.truncates hp).symm).bind
  rintro balance _ hbalance' _ rfl
  cases hbalance'.symm.trans hbalance
  have T₁ := stateWeights_truncates (h := h) K.truncates ((X n.previous).map Node.representative)
    (previousBalance (X n.previous))
  dsimp only
  rw [T₁.accounts]
  refine (statePending_follows T₁ fun hlt => ?_).bind ?_
  · rw [hhash]
    refine stateAwait_follows hcall hsim (K.reweigh hweights T₁) hX ?_ hk ?_
    · rw [hweights]
      exact hfree.congr rfl
    · rw [justified_move hj,hn,moveOf,if_pos hlt]
  rintro ⟨L₂,l⟩ ⟨P₂,_⟩ _ _ ⟨rfl,T₂⟩
  have hg := K.not_gone hX (hfree.above hX).le
  refine (stateCommit_follows T₂ (hhash ▸ hg) hp _ _ _).step fun T₃ => ?_
  exact .pure ⟨rfl,T₃⟩

end

theorem visit_follows (hh : Head X g n) (hr : L.blocks[g]? = some r) (hfree : Free S L X g)
    (hk : (dependents (rules S) X g).ncard ≤ k) :
    Follows (SameRun gone) (visit C now call bound L list r) (visit C now call bound P list r) := by
  have hX := hh.1
  have hc := hfree.above hX
  have hp : ¬ gone n.previous := K.previous_not_gone hX hc
  obtain ⟨m,hm,hs⟩ := K.mirrors.block g r hr
  cases hX.symm.trans hm
  have hhash : C.blockHash r.block = g := stored_hash K.mirrors K.built hr
  have hg : ¬ gone (C.blockHash r.block) := hhash ▸ K.not_gone hX hc.le
  have hread : ∀ r', L.blocks[C.blockHash r.block]? = some r' → ¬ gone r'.block.previous := by
    intro r' hr'
    rw [hhash,hr] at hr'
    cases hr'
    rwa [hs.previous]
  unfold visit
  rw [hs.hashables]
  unfold Node.previous at hp
  cases hn : n.hashables with
  | send h =>
    rw [hn] at hp
    exact sendBlock_follows hcall hsim K hX hfree hk hhash hn hp
  | receive h =>
    rw [hn] at hp
    exact follows_run (receiveBlock_follows K.truncates hg hread hp)
  | open_ h => exact follows_run (openBlock_follows K.truncates hg hread)
  | change h =>
    have h0 : n.previous ≠ 0 := by
      intro h0
      rcases (hfree.justified K.built hX).opening h0 with e | e <;> rw [hn] at e <;> cases e
    have hw := K.walk hX hc (.inl (by rw [hn]; rfl)) h0
    rw [Node.previous,hn] at hw
    rw [hn] at hp
    exact follows_run (changeBlock_follows K.truncates hg hp hw)
  | state h =>
    have hw := K.walk hX hc (.inr (by rw [hn]; rfl))
    rw [Node.previous,hn] at hw
    rw [hn] at hp
    apply (stateBlock_follows hcall hsim K hX hfree hk hhash hn hp hw).bind
    rintro ⟨L₁,l₁⟩ ⟨P₁,_⟩ _ _ ⟨rfl,T₁⟩
    exact .pure ⟨rfl,rfl,T₁⟩

def SameRound (S : HashSound C U) (gone : BlockHash → Prop) (L : Ledger) (X : Nodes)
    (h : BlockHash) (list : RollbackList) (a b : Ledger × RollbackList × AccountInfo) : Prop :=
  b.2 = a.2 ∧ Truncates True gone a.1 b.1 ∧ ∃ T l, a.2.1 = list++l ∧ Partly S L a.1 X h T l

theorem rollbackRound_follows (hX : X h = some n) (hfree : Free S L X h)
    (hk : (dependents (rules S) X h).ncard ≤ k) (hbound : k < bound)
    (a b : Ledger × RollbackList × AccountInfo) (hab : SameRound S gone L X h list a b) :
    Follows (Rounds (SameRound S gone L X h list) (SameRun gone))
      (rollbackRound C now call bound h n.account n.height a)
      (rollbackRound C now call bound h n.account n.height b) := by
  obtain ⟨L',_,info⟩ := a
  obtain ⟨P',_,_⟩ := b
  obtain ⟨e,hT,T,l,hl,p⟩ := hab
  cases e
  dsimp only at hl p hT
  subst hl
  have hg : ¬ gone h := K.not_gone hX (hfree.above hX).le
  unfold rollbackRound
  dsimp only
  rw [contains_eq hT hg,confirmationHeightGet_eq hT,hT.accounts]
  apply Follows.ite Iff.rfl
  · exact fun _ => .pure ⟨rfl,rfl,hT⟩
  intro hcon
  apply Follows.ite Iff.rfl
  · intro _
    obtain ⟨m,hm⟩ := p.mirrors.contains.mp (not_not.mp hcon)
    cases hX.symm.trans (without_eq_some.mp hm).2
    -- the head of the chain, in what is left of the lattice
    obtain ⟨f,x,hf,hacc,hdep⟩ := head_exists p.built hm
    have hfree' := (hfree.after p.toClears).dependent hdep
    have K' := K.after p.toClears hT
    have hgf : ¬ gone f :=
      K'.not_gone hf.1 (hfree'.above hf.1).le
    obtain ⟨t,ht⟩ := p.mirrors.head p.built hf
    have hsub : dependents (rules S) (without X T) f ⊆ dependents (rules S) X h :=
      (dependents_subset hdep).trans dependents_without
    have hkf := (Set.ncard_le_ncard hsub (dependents_finite K.built hX)).trans hk
    rw [← hacc,ht]
    refine Follows.read (blocks_eq hT hgf).symm fun r hr => ?_
    apply (visit_follows hcall hsim K' hf hr hfree' hkf).bind
    rintro ⟨_,L₁,_⟩ ⟨e,P₁,_⟩ hv _ ⟨rfl,rfl,T₁⟩
    apply Follows.ite Iff.rfl
    · exact fun _ => .pure ⟨rfl,rfl,T₁⟩
    · intro _
      obtain ⟨L₂,l₂,hv',c,hd⟩ := visit_spec now (list++l++[r]) hcall p.mirrors p.built hf hr hfree'
        hkf hbound
      obtain ⟨-,e⟩ := Prod.mk.inj (some.inj (hv.symm.trans hv'))
      obtain ⟨rfl,rfl⟩ := Prod.mk.inj e
      refine .pure ⟨rfl,?_,_,l++r::l₂,?_,p.toClears.trans c,
        fun a => (hd a).trans (p.defect a),Set.union_subset p.inside hsub⟩
      · refine { T₁ with cache := ?_ }
        rw [T₁.cache]
      · simp
  · exact fun _ => .pure ⟨rfl,rfl,hT⟩

end

variable (now) in
theorem rollback_callFollows (fuel : ℕ) : CallFollows S gone (rollback C now fuel) fuel := by
  induction fuel with
  | zero => exact fun _ _ _ _ _ _ _ _ _ _ => Follows.none _
  | succ fuel ih =>
    intro L X P h n list K hX hfree hlt
    have hg : ¬ gone h := K.not_gone hX (hfree.above hX).le
    have hP : rollback C now (fuel+1) P h list = Loop.loop
        (rollbackRound C now (rollback C now fuel) (fuel+1) h n.account n.height) (fuel+1)
        (P,list,{}) := by
      obtain ⟨r,hr,hs⟩ := K.mirrors.get hX
      rw [rollback]
      simp [account_eq K.truncates hg,blocks_eq K.truncates hg,K.mirrors.owner K.built hX,hr,
        stores_height K.built hX hs]
    rw [hP,rollback_eq K.mirrors K.built hX]
    exact .loop (rollbackRound_follows (rollback_callSpec now fuel) ih K hX hfree
      (Nat.le_of_lt_succ hlt) (Nat.lt_succ_self _)) (fuel+1)
      ⟨rfl,K.truncates,∅,[],(List.append_nil _).symm,Partly.nothing K.mirrors K.built⟩

section
open Runs RollbackReads

/-- What is left of a full and of a pruned ledger. Only the source of a pending
entry whose send was pruned may differ. -/
structure AgreeAfter (P L' P' : Ledger) : Prop where
  accounts : P'.accounts = L'.accounts
  confirmationHeight : P'.confirmationHeight = L'.confirmationHeight
  repWeights : P'.cache.repWeights = L'.cache.repWeights
  frontiers : P'.frontiers = L'.frontiers
  pending : ∀ k : PendingKey, P'.pending[k]? = L'.pending[k]? ∨ (P.pruned.contains k.hash = true ∧
    ∃ i source, L'.pending[k]? = some i ∧ P'.pending[k]? = some { i with source := source })

def RollsBack (C : Constants) (now : ℕ) (L P : Ledger) (h : BlockHash) : Prop :=
  ∃ k, ∀ fuel, k ≤ fuel → ∃ L' P' l, rollback C now fuel L h [] = some (false,L',l) ∧
    rollback C now fuel P h [] = some (false,P',l) ∧ AgreeAfter P L' P'

def Unconfirmed (P : Ledger) (r : StoredBlock) : Prop :=
  (P.confirmationHeightGet r.accountCalculated).height < r.sideband.height

def AllRollBack (C : Constants) (now : ℕ) (L P : Ledger) : Prop := ∀ (h : BlockHash)
  (r : StoredBlock), P.blocks[h]? = some r → Unconfirmed P r → RollsBack C now L P h

/-- Below every unconfirmed change or state block that has a predecessor, the
walk for the representative finds all blocks it asks for. -/
def Resolvable (C : Constants) (P : Ledger) : Prop := ∀ (h : BlockHash) (r : StoredBlock),
  P.blocks[h]? = some r → Unconfirmed P r → Needs r →
  (representative C P r.block.previous).isSome = true

theorem agreeAfter_of_truncates (T : Truncates True (Gone P) L' P') : AgreeAfter P L' P' where
  accounts := T.accounts
  confirmationHeight := T.confirmationHeight
  repWeights := by rw [T.cache]
  frontiers := T.frontiers
  pending k := by
    rcases T.pending k with e | ⟨-,hg,i,source,hi,hj⟩
    · exact .inl e
    · exact .inr ⟨hg,i,source,hi,hj⟩

theorem Truncates.loosen (T : Truncates False gone L P) : Truncates True gone L P :=
  { T with pending := fun k => .inl ((T.pending k).resolve_right (fun h => h.1)) }

section
variable (V : Valid S L X) (I : Pruned L X P)
include V I

theorem Pruned.unconfirmed_iff (hr : P.blocks[h]? = some r) :
    ∃ n, X h = some n ∧ r.block.hashables = n.hashables ∧
      (Unconfirmed P r ↔ (L.confirmationHeightGet n.account).height < n.height) := by
  obtain ⟨-,n,hX,hs⟩ := I.truncates.record V.mirrors hr
  refine ⟨n,hX,hs.hashables,?_⟩
  rw [Unconfirmed,confirmationHeightGet_eq I.truncates,stores_account V.built hX hs,
    stores_height V.built hX hs]

theorem Pruned.hashed : Hashed C P := by
  intro f r hr
  obtain ⟨n,hX,hb,-⟩ := Pruned.unconfirmed_iff V I hr
  rw [Constants.blockHash,hb]
  exact (built_hash V.built hX).1

theorem Pruned.lockstep (hres : Resolvable C P) :
    Lockstep S (Gone P) L X P where
  built := V.built
  mirrors := V.mirrors
  truncates := Truncates.loosen I.truncates
  deep h n hg hX := by
    obtain ⟨m,hm,hlt⟩ := I.deep h hg
    cases hX.symm.trans hm
    exact hlt
  named h n hX hlt ht h0 := by
    have hg : ¬ Gone P h := by
      intro hg
      obtain ⟨m,hm,hlt'⟩ := I.deep h hg
      cases hX.symm.trans hm
      omega
    obtain ⟨r,hr,hs⟩ := V.mirrors.get hX
    rw [← blocks_eq I.truncates hg] at hr
    obtain ⟨m,hm,hb,hu⟩ := Pruned.unconfirmed_iff V I hr
    cases hX.symm.trans hm
    have hprev : r.block.previous = n.previous := congrArg Hashables.previous hb
    have hneeds : Needs r := by
      rw [Needs,hprev,Block.type,hb]
      exact ⟨ht,h0⟩
    obtain ⟨f,hf⟩ := isSome_iff_exists.mp (hres h r hr (hu.mpr hlt) hneeds)
    rw [hprev] at hf
    exact named_of_compute V.mirrors (Truncates.loosen I.truncates) hf

theorem Pruned.rollsBack (hres : Resolvable C P) (hr : P.blocks[h]? = some r)
    (hu : Unconfirmed P r) : RollsBack C now L P h := by
  obtain ⟨n,hX,-,hiff⟩ := Pruned.unconfirmed_iff V I hr
  have hfree : Free S L X h :=
    V.free hX (fun hc => absurd (hiff.mp hu) (Nat.not_lt.mpr hc))
  refine ⟨(dependents (rules S) X h).ncard+1,fun fuel hfuel => ?_⟩
  obtain ⟨L',l,hL,-⟩ := rollback_callSpec now fuel L X h n [] V.built V.mirrors hX hfree hfuel
  obtain ⟨⟨e,P',l'⟩,hP,he,hl,T⟩ := rollback_callFollows now fuel L X P h n []
    (Pruned.lockstep V I hres) hX hfree hfuel _ hL
  dsimp only at he hl
  rw [he,hl] at hP
  exact ⟨L',P',_,hL,hP,agreeAfter_of_truncates T⟩

end

theorem RollsBack.walked (hb : RollsBack C now L P h) (hP : Hashed C P)
    (hr : P.blocks[h]? = some r) (hneeds : Needs r) :
    (representative C P r.block.previous).isSome = true := by
  obtain ⟨k,hk⟩ := hb
  obtain ⟨L',P',l,-,hroll,-⟩ := hk k le_rfl
  obtain ⟨F,hnone⟩ := rollback_removes C now k hP _ hroll
  exact F.walked h r hr (hnone rfl) hneeds

/-- Rollback works on a pruned ledger exactly when the walks for the
representatives do not end in pruned blocks. -/
theorem pruned_rollback_iff (S : HashSound C U) (hr : Reachable C U L) {targets : List BlockHash}
    (hp : Prunes C L targets P) (now : ℕ) : AllRollBack C now L P ↔ Resolvable C P := by
  obtain ⟨X,V⟩ := reachable_valid S hr
  obtain ⟨I,-⟩ := prunes_pruned V hp
  constructor
  · intro hall h r hr hu hneeds
    exact (hall h r hr hu).walked (Pruned.hashed V I) hr hneeds
  · exact fun hres h r hr hu => Pruned.rollsBack V I hres hr hu

end

open Runs RollbackReads

def resolvableCheck (C : Constants) (P : Ledger) : Bool := P.blocks.toList.all (fun e =>
  decide (e.2.sideband.height ≤ (P.confirmationHeightGet e.2.accountCalculated).height) ||
    decide (e.2.block.previous = 0) || (representative C P e.2.block.previous).isSome)

theorem resolvable_of_check (hc : resolvableCheck C P = true) : Resolvable C P := by
  intro h r hr hu hneeds
  have hr' := List.all_eq_true.mp hc (h,r) ((Table.mem_entries _ _ _).mpr hr)
  simp only [Bool.or_eq_true,decide_eq_true_eq] at hr'
  rcases hr' with (hle | h0) | hs
  · exact absurd hu (Nat.not_lt.mpr hle)
  · exact absurd h0 hneeds.2
  · exact hs

structure Chain where
  first : Block
  second : Block
  third : Block

def Chain.blocks (c : Chain) : Set Hashables :=
  {sample.genesis.hashables,c.first.hashables,c.second.hashables,c.third.hashables}

def Chain.full (c : Chain) : Ledger := processed sample (processed sample
  (processed sample (storeInitialize sample 0) c.first) c.second) c.third

def Chain.ledger (c : Chain) : Ledger := cementTo c.full 1 3 (sample.blockHash c.second)

def Chain.pruned (c : Chain) : Ledger :=
  prunedFrom sample c.ledger (sample.blockHash c.first)

theorem Chain.reachable {c : Chain} (S : HashSound sample c.blocks)
    (h₁ : sample.epochSigner c.first.link = none) (h₂ : sample.epochSigner c.second.link = none)
    (h₃ : sample.epochSigner c.third.link = none)
    (hc : cementCheck sample c.full 1 3 (sample.blockHash c.second) = true) :
    Reachable sample c.blocks c.ledger := by
  have hfull : Reachable sample c.blocks c.full := by
    refine reachable_processed S (reachable_processed S (reachable_processed S (.start 0)
      (.inr (.inl rfl)) ?_) (.inr (.inr (.inl rfl))) ?_)
      (.inr (.inr (.inr rfl))) ?_
    · exact epochOpens_none h₁
    · exact epochOpens_none h₂
    · exact epochOpens_none h₃
  exact hfull.cementTo S hc

def named : Chain where
  first := ⟨.send ⟨2,7,BitVec.allOnes 128-5⟩,0,0⟩
  second := ⟨.change ⟨3,9⟩,0,0⟩
  third := ⟨.state ⟨1,5,9,BitVec.allOnes 128-5,0⟩,0,0⟩

theorem named_sound : HashSound sample named.blocks := by
  refine sample_hashSound (.inl rfl) ?_
  rintro a (rfl | rfl | rfl | rfl) b (rfl | rfl | rfl | rfl) h <;> first | rfl | cases h

theorem named_reachable : Reachable sample named.blocks named.ledger :=
  Chain.reachable named_sound (by decide) (by decide) (by decide) (by decide +kernel)

theorem pruned_rollback_iff_sample : named.pruned.pruned.contains 3 = true ∧
    AllRollBack sample 0 named.ledger named.pruned :=
  ⟨by decide +kernel,(pruned_rollback_iff named_sound named_reachable
    (prunes_prunedFrom (by decide +kernel) (by decide +kernel)) 0).mpr
    (resolvable_of_check (by decide +kernel))⟩

def unnamed : Chain where
  first := ⟨.change ⟨2,9⟩,0,0⟩
  second := ⟨.send ⟨5,7,BitVec.allOnes 128-5⟩,0,0⟩
  third := ⟨.state ⟨1,3,9,BitVec.allOnes 128-5,0⟩,0,0⟩

theorem unnamed_sound : HashSound sample unnamed.blocks := by
  refine sample_hashSound (.inl rfl) ?_
  rintro a (rfl | rfl | rfl | rfl) b (rfl | rfl | rfl | rfl) h <;> first | rfl | cases h

theorem unnamed_reachable : Reachable sample unnamed.blocks unnamed.ledger :=
  Chain.reachable unnamed_sound (by decide) (by decide) (by decide) (by decide +kernel)

theorem unnamed_prunes : Prunes sample unnamed.ledger [5] unnamed.pruned :=
  prunes_prunedFrom (by decide +kernel) (by decide +kernel)

/-- The state block at hash 6 is not cemented and cannot be rolled back. -/
theorem pruned_rollback_aborts : Reachable sample unnamed.blocks unnamed.ledger ∧
    Prunes sample unnamed.ledger [5] unnamed.pruned ∧
    ¬ AllRollBack sample 0 unnamed.ledger unnamed.pruned := by
  refine ⟨unnamed_reachable,unnamed_prunes,fun hall => ?_⟩
  obtain ⟨X,V⟩ := reachable_valid unnamed_sound unnamed_reachable
  obtain ⟨I,-⟩ := prunes_pruned V unnamed_prunes
  have hcheck : (unnamed.pruned.blocks[(6 : BlockHash)]?.any fun r =>
      decide ((unnamed.pruned.confirmationHeightGet r.accountCalculated).height <
        r.sideband.height) && decide (r.block.type = .state) && decide (r.block.previous ≠ 0) &&
      (representative sample unnamed.pruned r.block.previous).isNone) = true := by decide +kernel
  obtain ⟨r,hr,hc⟩ := (any_eq_true _ _).mp hcheck
  simp only [Bool.and_eq_true,decide_eq_true_eq] at hc
  obtain ⟨⟨⟨hu,ht⟩,h0⟩,hnone⟩ := hc
  have hwalk := (hall 6 r hr hu).walked (Pruned.hashed V I) hr ⟨.inr ht,h0⟩
  rw [isNone_iff_eq_none.mp hnone] at hwalk
  cases hwalk

end Vxldollar.PrunedRollback
