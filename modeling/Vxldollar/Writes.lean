import Vxldollar.Store

/-!
# What the store operations write

One lemma for each operation: when it succeeds, and the ledger it leaves,
described by lookups.
-/

namespace Vxldollar.Writes
open Blocks Store Table

variable (L : Ledger)

section
variable (w : RepWeights)

theorem representationGet_add (a c : Account) (x : Amount) :
    representationGet (representationAdd w a x) c =
      representationGet w c+if a = c then x else 0 := by
  unfold representationAdd representationPut representationGet
  rw [get_insert]
  by_cases e : c = a
  · simp [e]
  · simp [e,Ne.symm e]

theorem representationGet_addDual (a b c : Account) (x y : Amount) :
    representationGet (representationAddDual w a x b y) c =
      representationGet w c+(if a = c then x else 0)+if b = c then y else 0 := by
  unfold representationAddDual
  split_ifs with hab h1 h2 h2 <;> simp_all [representationGet_add,add_assoc]

end

/-- A block whose predecessor is stored, or one that needs none and names no
stored block. -/
def Placed (b : Block) : Prop :=
  (Ledger.hasPredecessor b = true ∧ ∃ p, L.blocks[b.previous]? = some p) ∨
  (Ledger.hasPredecessor b = false ∧ L.blocks[b.previous]? = none)

variable {L} {r : StoredBlock} {old new i : AccountInfo} {h hash : BlockHash} {a : Account}

theorem blockPut_eq (hp : Placed L r.block) (hne : r.block.previous ≠ hash) :
    ∃ B, L.blockPut hash r = some { L with blocks := B } ∧ ∀ g, B[g]? =
      if g = hash then some ⟨r.block,r.sideband.stored r.block.type⟩
      else if g = r.block.previous then L.blocks[g]?.map (fun p => p.withSuccessor hash)
      else L.blocks[g]? := by
  unfold Ledger.blockPut
  rcases hp with ⟨h,p,hp⟩ | ⟨h,hp⟩
  · have hget : (L.blocks.insert hash ⟨r.block,r.sideband.stored r.block.type⟩)[r.block.previous]? =
        some p := by
      rw [get_insert,if_neg hne,hp]
    refine ⟨(L.blocks.insert hash ⟨r.block,r.sideband.stored r.block.type⟩).insert
      r.block.previous (p.withSuccessor hash),by simp [h,hget],?_⟩
    intro g
    rw [get_insert,get_insert]
    split_ifs with e1 e2 e2
    · exact absurd (e1.symm.trans e2) hne
    · rw [e1,hp]
      rfl
    · rfl
    · rfl
  · refine ⟨L.blocks.insert hash ⟨r.block,r.sideband.stored r.block.type⟩,by simp [h],?_⟩
    intro g
    rw [get_insert]
    split_ifs with e1 e2
    · rfl
    · rw [e2,hp]
      rfl
    · rfl

theorem frontierDel_eq (hf : L.frontiers[h]? = some a) :
    L.frontierDel h = some { L with frontiers := L.frontiers.erase h } := by
  simp [Ledger.frontierDel,delete_present _ _ _ hf]

theorem pendingDel_eq {k : PendingKey} {i : PendingInfo} (hp : L.pending[k]? = some i) :
    L.pendingDel k = some { L with pending := L.pending.erase k } := by
  simp [Ledger.pendingDel,delete_present _ _ _ hp]

theorem blockDel_eq (hr : L.blocks[h]? = some r) :
    L.blockDel h = some { L with blocks := L.blocks.erase h } := by
  simp [Ledger.blockDel,delete_present _ _ _ hr]

theorem successorClear_eq (hr : L.blocks[h]? = some r) :
    L.successorClear h = some { L with blocks := L.blocks.insert h (r.withSuccessor 0) } := by
  simp [Ledger.successorClear,hr]

theorem updateAccount_put (hnew : new.head ≠ 0)
    (hold : (old.head = 0 ∧ new.openBlock = new.head) ∨
      (old.head ≠ 0 ∧ ∃ i, L.accounts[a]? = some i)) :
    L.updateAccount a old new = some { L with
      accounts := L.accounts.insert a new,
      cache.accountCount := L.cache.accountCount+if old.head = 0 then 1 else 0 } := by
  unfold Ledger.updateAccount
  rw [if_pos hnew]
  rcases hold with ⟨h0,ho⟩ | ⟨h0,i,hi⟩
  · simp [h0,ho]
  · have hc : ¬ (old.head = 0 ∧ new.openBlock = new.head) := fun h => h0 h.1
    simp only [if_neg hc,if_neg h0,Nat.add_zero]
    by_cases he : old.epoch = new.epoch
    · rw [if_neg (fun h => h.2 he)]
      rfl
    · rw [if_pos ⟨h0,he⟩,delete_present _ _ _ hi]
      simp [insert_erase]

theorem updateAccount_del (hnew : new.head = 0) (hi : L.accounts[a]? = some i) :
    L.updateAccount a old new = some { L with
      accounts := L.accounts.erase a, cache.accountCount := L.cache.accountCount-1 } := by
  simp [Ledger.updateAccount,hnew,delete_present _ _ _ hi]

end Vxldollar.Writes
