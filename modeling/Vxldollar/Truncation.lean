import Vxldollar.Pruning
import Vxldollar.Library.Simulation

/-!
# Store operations on a truncated ledger

Every operation of the store that keeps away from the blocks that are gone does
the same to a ledger and to its truncation.
-/

namespace Vxldollar.Truncation
open Blocks Store Pruning Simulation Table Std.ExtTreeMap

variable {loose : Prop} {gone : BlockHash → Prop} {L P : Ledger} {h : BlockHash} {a : Account}

section
variable (T : Truncates loose gone L P)
include T

theorem blocks_eq (hg : ¬ gone h) : P.blocks[h]? = L.blocks[h]? :=
  T.kept h hg

theorem contains_eq (hg : ¬ gone h) : P.blocks.contains h = L.blocks.contains h := by
  rw [contains_eq_isSome_getElem?,T.kept h hg,
    ← contains_eq_isSome_getElem?]

theorem exists_eq (h : BlockHash) : P.blockOrPrunedExists h = L.blockOrPrunedExists h := by
  unfold Ledger.blockOrPrunedExists
  rw [T.unpruned,contains_empty,Bool.false_or]
  by_cases hg : gone h
  · rw [(T.pruned h).mpr hg,(T.removed h hg).2,Bool.true_or]
  · rw [contains_eq T hg,Bool.eq_false_iff.mpr (fun hp => hg ((T.pruned h).mp hp)),Bool.false_or]

section
variable (hg : ¬ gone h)
include hg

theorem balance_eq : P.balance h = L.balance h := by
  unfold Ledger.balance
  rw [T.kept h hg]

theorem account_eq : P.account h = L.account h := by
  unfold Ledger.account
  rw [T.kept h hg]

theorem version_eq : P.version h = L.version h := by
  unfold Ledger.version
  rw [T.kept h hg]

theorem amount_eq (hp : ∀ r, L.blocks[h]? = some r → ¬ gone r.block.previous) :
    P.amount h = L.amount h := by
  unfold Ledger.amount
  rw [T.kept h hg,balance_eq T hg]
  cases hr : L.blocks[h]? with
  | none => rfl
  | some r => simp [balance_eq T (hp r hr)]

end

theorem latest_eq : P.latest a = L.latest a := by
  unfold Ledger.latest
  rw [T.accounts]

theorem frontierGet_eq : P.frontierGet h = L.frontierGet h := by
  unfold Ledger.frontierGet
  rw [T.frontiers]

theorem confirmationHeightGet_eq : P.confirmationHeightGet a = L.confirmationHeightGet a := by
  unfold Ledger.confirmationHeightGet
  rw [T.confirmationHeight]

end

section
variable (T : Truncates loose gone L P)
include T

theorem insert_truncates (hg : ¬ gone h) (r : StoredBlock) :
    Truncates loose gone { L with blocks := L.blocks.insert h r }
      { P with blocks := P.blocks.insert h r } :=
  { T with
    kept := fun g hk => by
      show (P.blocks.insert h r)[g]? = (L.blocks.insert h r)[g]?
      rw [get_insert,get_insert,T.kept g hk]
    removed := fun g hk => by
      have hne : g ≠ h := fun e => hg (e ▸ hk)
      show (P.blocks.insert h r)[g]? = none ∧ (L.blocks.insert h r).contains g = true
      rw [get_insert,if_neg hne,contains_eq_isSome_getElem?,
        get_insert,if_neg hne,← contains_eq_isSome_getElem?]
      exact T.removed g hk }

theorem erase_truncates (hg : ¬ gone h) : Truncates loose gone { L with blocks := L.blocks.erase h }
      { P with blocks := P.blocks.erase h } :=
  { T with
    kept := fun g hk => by
      show (P.blocks.erase h)[g]? = (L.blocks.erase h)[g]?
      rw [get_erase,get_erase,T.kept g hk]
    removed := fun g hk => by
      have hne : g ≠ h := fun e => hg (e ▸ hk)
      show (P.blocks.erase h)[g]? = none ∧ (L.blocks.erase h).contains g = true
      rw [get_erase,if_neg hne,contains_eq_isSome_getElem?,
        get_erase,if_neg hne,← contains_eq_isSome_getElem?]
      exact T.removed g hk }

theorem blockPut_follows {hash : BlockHash} {r : StoredBlock} (hg : ¬ gone hash)
    (hp : Ledger.hasPredecessor r.block = true → ¬ gone r.block.previous) :
    Follows (Truncates loose gone) (L.blockPut hash r) (P.blockPut hash r) := by
  have T' := insert_truncates T hg ⟨r.block,r.sideband.stored r.block.type⟩
  unfold Ledger.blockPut
  apply Follows.ite Iff.rfl
  · intro hpred
    have hkept := T'.kept _ (hp hpred)
    refine (Follows.of_eq hkept.symm).step fun e => ?_
    subst e
    exact .pure (insert_truncates T' (hp hpred) _)
  · exact fun _ => .pure T'

theorem blockDel_follows (hg : ¬ gone h) :
    Follows (Truncates loose gone) (L.blockDel h) (P.blockDel h) := by
  intro L' hL'
  obtain ⟨m,hm,hL'⟩ := Option.bind_eq_some_iff.mp hL'
  cases hL'
  obtain ⟨⟨r,hr⟩,rfl⟩ := delete_eq _ _ _ hm
  refine ⟨_,?_,erase_truncates T hg⟩
  show (delete P.blocks h).bind _ = _
  rw [delete_present _ _ r ((T.kept h hg).trans hr)]
  rfl

theorem successorClear_follows (hg : ¬ gone h) :
    Follows (Truncates loose gone) (L.successorClear h) (P.successorClear h) := by
  refine (Follows.of_eq (T.kept h hg).symm).step fun e => ?_
  subst e
  exact .pure (insert_truncates T hg _)

theorem frontierPut_truncates : Truncates loose gone (L.frontierPut h a) (P.frontierPut h a) :=
  { T with frontiers := congrArg (fun m => m.insert h a) T.frontiers }

theorem frontierDel_follows :
    Follows (Truncates loose gone) (L.frontierDel h) (P.frontierDel h) := by
  unfold Ledger.frontierDel
  rw [T.frontiers]
  refine (Follows.of_eq rfl).step fun e => ?_
  subst e
  exact .pure { T with frontiers := rfl }

theorem weightAdd_truncates (x : Amount) :
    Truncates loose gone (L.weightAdd a x) (P.weightAdd a x) :=
  { T with cache := by unfold Ledger.weightAdd; rw [T.cache] }

theorem weightAddDual_truncates (x : Amount) (b : Account) (y : Amount) :
    Truncates loose gone (L.weightAddDual a x b y) (P.weightAddDual a x b y) :=
  { T with cache := by unfold Ledger.weightAddDual; rw [T.cache] }

theorem updateAccount_follows (old new : AccountInfo) :
    Follows (Truncates loose gone) (L.updateAccount a old new) (P.updateAccount a old new) := by
  unfold Ledger.updateAccount
  rw [T.accounts,T.cache]
  apply Follows.ite Iff.rfl
  · intro _
    apply Follows.ite Iff.rfl
    · intro _
      apply (Follows.of_eq rfl).bind
      intro m m' _ _ e
      subst e
      exact .pure { T with accounts := rfl, cache := rfl }
    · exact fun _ => .pure { T with accounts := rfl, cache := rfl }
  · intro _
    refine (Follows.of_eq rfl).step fun e => ?_
    subst e
    exact .pure { T with accounts := rfl, cache := rfl }

end

theorem samePending_refl (g : Prop) (i : Option PendingInfo) : SamePending loose g i i :=
  .inl rfl

variable (T : Truncates loose gone L P) (k : PendingKey)
include T k

theorem pendingPut_truncates {i j : PendingInfo}
    (hij : SamePending loose (gone k.hash) (some i) (some j)) :
    Truncates loose gone (L.pendingPut k i) (P.pendingPut k j) :=
  { T with
    pending := fun l => by
      show SamePending loose (gone l.hash) (L.pending.insert k i)[l]? (P.pending.insert k j)[l]?
      rw [get_insert,get_insert]
      split
      · subst l
        exact hij
      · exact T.pending l }

theorem pendingDel_follows :
    Follows (Truncates loose gone) (L.pendingDel k) (P.pendingDel k) := by
  intro L' hL'
  obtain ⟨m,hm,hL'⟩ := Option.bind_eq_some_iff.mp hL'
  cases hL'
  obtain ⟨⟨i,hi⟩,rfl⟩ := delete_eq _ _ _ hm
  obtain ⟨j,hj⟩ : ∃ j, P.pending[k]? = some j := by
    rcases T.pending k with e | ⟨-,-,e,source,-,hj⟩
    · exact ⟨i,e.trans hi⟩
    · exact ⟨_,hj⟩
  refine ⟨{ P with pending := P.pending.erase k },?_,{ T with pending := fun l => ?_ }⟩
  · show (delete P.pending k).bind _ = _
    rw [delete_present _ _ j hj]
    rfl
  · show SamePending loose (gone l.hash) (L.pending.erase k)[l]? (P.pending.erase k)[l]?
    rw [get_erase,get_erase]
    split
    · exact samePending_refl _ _
    · exact T.pending l

end Vxldollar.Truncation
