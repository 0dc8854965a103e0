import Vxldollar.Acceptance
import Vxldollar.Library.Ranges

/-!
# The receivable total of an account

`ledger::account_receivable` walks the pending table from a cursor at the
account's first key to a cursor at the first key of the next account. The next
account is the successor modulo `2^256`, so for the last account the second
cursor stands at the start of the table. A cursor is what is left of the table
from it on. Reading an entry at the end of the table is an error.
-/

namespace Vxldollar.Receivable
open Std Blocks Store List Acceptance Ranges Option

variable (confirmed : BlockHash → Bool) (onlyConfirmed : Bool)

def counted (e : PendingKey × PendingInfo) : Amount :=
  if onlyConfirmed then
    if confirmed e.1.hash then e.2.amount else 0
  else e.2.amount

/-- The loop from the cursor `i` until the cursor with `n` entries left is met. -/
def sumUntil (n : ℕ) : (i : List (PendingKey × PendingInfo)) → Amount → Option Amount
  | [], result => if n = 0 then some result else none
  | e :: i, result =>
    if i.length+1 = n then some result
    else sumUntil n i (result+counted confirmed onlyConfirmed e)

def begins (m : ExtTreeMap PendingKey PendingInfo) (k : PendingKey) :
    List (PendingKey × PendingInfo) :=
  m.toList.dropWhile (fun e => compare e.1 k == .lt)

def accountReceivable (m : ExtTreeMap PendingKey PendingInfo) (a : Account) : Option Amount :=
  sumUntil confirmed onlyConfirmed (begins m ⟨a+1,0⟩).length (begins m ⟨a,0⟩) 0

/-- The amounts of the entries with destination `a`, of the confirmed sends
only when these are asked for. -/
def due (m : ExtTreeMap PendingKey PendingInfo) (a : Account) : ℕ :=
  Table.total (fun k i =>
    if k.account = a ∧ (onlyConfirmed = true → confirmed k.hash = true) then
      i.amount.toNat else 0) m

section
variable {confirmed onlyConfirmed}

theorem sumUntil_append (before rest : List (PendingKey × PendingInfo)) (result : Amount) :
    sumUntil confirmed onlyConfirmed rest.length (before++rest) result =
      some (result+(before.map (counted confirmed onlyConfirmed)).sum) := by
  induction before generalizing result with
  | nil => cases rest <;> simp [sumUntil]
  | cons e before ih =>
    have hne : (before++rest).length+1 ≠ rest.length := by
      rw [length_append]
      omega
    rw [cons_append,sumUntil,if_neg hne,ih,map_cons,sum_cons,add_assoc]

/-- From beyond the second cursor the loop never meets it. -/
theorem sumUntil_beyond (n : ℕ) (i : List (PendingKey × PendingInfo)) (result : Amount)
    (h : i.length < n) : sumUntil confirmed onlyConfirmed n i result = none := by
  induction i generalizing result with
  | nil => exact if_neg (Nat.ne_of_gt h)
  | cons e i ih =>
    rw [length_cons] at h
    rw [sumUntil,if_neg (Nat.ne_of_lt h),ih _ (by omega)]

end

section
variable {confirmed onlyConfirmed} {m : ExtTreeMap PendingKey PendingInfo} {a : Account}

theorem counted_toNat (e : PendingKey × PendingInfo) :
    (counted confirmed onlyConfirmed e).toNat =
      if onlyConfirmed = true → confirmed e.1.hash = true then e.2.amount.toNat else 0 := by
  cases onlyConfirmed <;> cases h : confirmed e.1.hash <;> simp [counted,h]

theorem sum_toNat (l : List Amount) (h : (l.map BitVec.toNat).sum < 2^128) :
    l.sum.toNat = (l.map BitVec.toNat).sum := by
  induction l with
  | nil => rfl
  | cons x l ih =>
    rw [map_cons,sum_cons] at h
    rw [sum_cons,map_cons,sum_cons,BitVec.toNat_add,ih (by omega),
      Nat.mod_eq_of_lt h]

theorem due_eq : due confirmed onlyConfirmed m a =
    (((m.toList.filter (fun e => decide (e.1.account = a))).map
      (counted confirmed onlyConfirmed)).map BitVec.toNat).sum := by
  unfold due Table.total
  induction m.toList with
  | nil => rfl
  | cons e l ih =>
    rw [map_cons,sum_cons,ih,filter_cons]
    by_cases ha : e.1.account = a
    · simp [ha,counted_toNat]
    · simp [ha]

theorem due_le : due confirmed onlyConfirmed m a ≤ Table.total (fun _ i => i.amount.toNat) m := by
  apply sum_le_sum
  intro e _
  dsimp only
  split_ifs
  · exact le_rfl
  · exact Nat.zero_le _

end

section
variable {m : ExtTreeMap PendingKey PendingInfo} {a : Account}

theorem begins_eq (k : PendingKey) :
    begins m k = m.toList.filter (fun e => within k none e.1) :=
  drop_filter m.toList k ExtTreeMap.ordered_keys_toList

theorem begins_next (ha : a ≠ BitVec.allOnes 256) :
    begins m ⟨a,0⟩ = m.toList.filter (fun e => decide (e.1.account = a))++begins m ⟨a+1,0⟩ := by
  have hmax : a.toNat ≠ 2^256-1 := fun h =>
    ha (BitVec.eq_of_toNat_eq (h.trans BitVec.toNat_allOnes.symm))
  have hlt : compare (⟨a,0⟩ : PendingKey) ⟨a+1,0⟩ = .lt := by
    rw [pendingKey_lt]
    simp only
    bv_omega
  have hle : compare (⟨a,0⟩ : PendingKey) ⟨a+1,0⟩ ≠ .gt := by
    rw [hlt]
    decide
  rw [begins_eq,begins_eq,
    split_filter m.toList ⟨a,0⟩ ⟨a+1,0⟩ ExtTreeMap.ordered_keys_toList hle]
  congr 1
  apply filter_congr
  rintro ⟨k,i⟩ -
  rw [Bool.eq_iff_iff]
  simp only [within,all_some,Bool.and_eq_true,bne_iff_ne,beq_iff_eq,
    decide_eq_true_eq,ne_eq,pendingKey_lt]
  bv_omega

theorem begins_last (ha : a = BitVec.allOnes 256) :
    begins m ⟨a,0⟩ = m.toList.filter (fun e => decide (e.1.account = a)) := by
  have hmax : a.toNat = 2^256-1 := by rw [ha,BitVec.toNat_allOnes]
  rw [begins_eq]
  apply filter_congr
  rintro ⟨k,i⟩ -
  rw [Bool.eq_iff_iff]
  simp only [within,all_none,Bool.and_true,bne_iff_ne,ne_eq,decide_eq_true_eq,
    pendingKey_lt]
  bv_omega

theorem begins_first : begins m ⟨0,0⟩ = m.toList := by
  rw [begins_eq]
  apply filter_eq_self.mpr
  rintro ⟨k,i⟩ -
  simp only [within,all_none,Bool.and_true,bne_iff_ne,ne_eq,
    pendingKey_lt]
  bv_omega

end

/-- The walk ends inside the table with the amount due exactly for the accounts
other than the last one, and for the last one when no other account has an
entry and nothing is due. -/
theorem accountReceivable_due (m : ExtTreeMap PendingKey PendingInfo) (a : Account)
    (hsum : Table.total (fun _ (i : PendingInfo) => i.amount.toNat) m < 2^128) :
    (accountReceivable confirmed onlyConfirmed m a).map BitVec.toNat =
        some (due confirmed onlyConfirmed m a) ↔
      a ≠ BitVec.allOnes 256 ∨
        (∀ e ∈ m.toList, e.1.account = a) ∧ due confirmed onlyConfirmed m a = 0 := by
  unfold accountReceivable
  by_cases ha : a = BitVec.allOnes 256
  · have hnext : a+1 = 0 := by
      rw [ha]
      rfl
    rw [hnext,begins_first,begins_last ha,or_iff_right (not_not.mpr ha)]
    by_cases hall : ∀ e ∈ m.toList, e.1.account = a
    · -- both cursors stand at the start of the table
      have h : sumUntil confirmed onlyConfirmed m.toList.length m.toList 0 = some 0 :=
        (sumUntil_append [] m.toList 0).trans (by simp)
      rw [filter_eq_self.mpr (fun e he => decide_eq_true (hall e he)),h,and_iff_right hall]
      simp [eq_comm]
    · -- the second cursor has been passed
      obtain ⟨e,he,hea⟩ : ∃ e ∈ m.toList, e.1.account ≠ a := by
        by_contra h
        exact hall (fun e he => by_contra fun hea => h ⟨e,he,hea⟩)
      have hlt : (m.toList.filter (fun e => decide (e.1.account = a))).length < m.toList.length :=
        length_filter_lt_length_iff_exists.mpr ⟨e,he,by simpa using hea⟩
      rw [sumUntil_beyond _ _ 0 hlt]
      exact iff_of_false nofun (fun h => hall h.1)
  · have hfit : due confirmed onlyConfirmed m a < 2^128 := due_le.trans_lt hsum
    rw [due_eq] at hfit
    rw [begins_next ha,sumUntil_append,map_some,zero_add,sum_toNat _ hfit,← due_eq]
    exact iff_of_true rfl (.inl ha)

def sample : ExtTreeMap PendingKey PendingInfo :=
  (∅ : ExtTreeMap PendingKey PendingInfo).insert ⟨1,7⟩ ⟨2,5,.epoch0⟩

theorem accountReceivable_due_sample :
    (accountReceivable (fun _ => true) true sample 1).map BitVec.toNat =
      some (due (fun _ => true) true sample 1) :=
  (accountReceivable_due (fun _ => true) true sample 1 (by decide +kernel)).mpr
    (.inl (by decide))

/-- A single send to the last account is not counted. With a send to another
account before it the walk runs past the end of the table. -/
theorem accountReceivable_last :
    let last : ExtTreeMap PendingKey PendingInfo :=
      (∅ : ExtTreeMap PendingKey PendingInfo).insert ⟨BitVec.allOnes 256,7⟩ ⟨2,5,.epoch0⟩
    due (fun _ => true) false last (BitVec.allOnes 256) = 5 ∧
      accountReceivable (fun _ => true) false last (BitVec.allOnes 256) = some 0 ∧
      accountReceivable (fun _ => true) false (last.insert ⟨1,7⟩ ⟨2,5,.epoch0⟩)
        (BitVec.allOnes 256) = none := by
  decide +kernel

end Vxldollar.Receivable
