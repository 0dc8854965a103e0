import Vxldollar.Rollback
import Vxldollar.Library.Simulation

/-!
# What a completed rollback has read

A rollback only removes blocks and clears successors. Before it removes a
change or state block with a predecessor it walks down from the predecessor to
a block that names a representative, so every such block that is gone in the
end had a walk that succeeds, already on the ledger the rollback started from.
-/

namespace Vxldollar.RollbackReads
open Blocks Store Rollback Simulation Option Table

variable {C : Constants} {P P' P'' : Ledger} {g h hash : BlockHash} {r : StoredBlock} {now : ℕ}
  {call : Call} {bound : ℕ} {list : RollbackList}

def Kept (P P' : Ledger) : Prop := ∀ (h : BlockHash) (r' : StoredBlock),
  P'.blocks[h]? = some r' → ∃ r, P.blocks[h]? = some r ∧ r.block = r'.block ∧
    r.sideband.height = r'.sideband.height

structure Only (hash : BlockHash) (P P' : Ledger) : Prop where
  kept : Kept P P'
  removed : ∀ (h : BlockHash) (r : StoredBlock), P.blocks[h]? = some r →
    P'.blocks[h]? = none → h = hash

theorem Kept.trans (h : Kept P P') (h' : Kept P' P'') : Kept P P'' := by
  intro f r hr
  obtain ⟨r₁,hr₁,hb₁,hh₁⟩ := h' f r hr
  obtain ⟨r₀,hr₀,hb₀,hh₀⟩ := h f r₁ hr₁
  exact ⟨r₀,hr₀,hb₀.trans hb₁,hh₀.trans hh₁⟩

theorem Only.trans (h : Only hash P P') (h' : Only hash P' P'') : Only hash P P'' where
  kept := h.kept.trans h'.kept
  removed f r hr hn := by
    cases hf : P'.blocks[f]? with
    | none => exact h.removed f r hr hf
    | some r' => exact h'.removed f r' hf hn

theorem only_of_blocks (e : P'.blocks = P.blocks) : Only hash P P' where
  kept f r hr := ⟨r,e ▸ hr,rfl,rfl⟩
  removed f r hr hn := by
    rw [e,hr] at hn
    cases hn

theorem blockDel_only : Yields (Only hash P) (P.blockDel hash) := by
  intro P' hP
  obtain ⟨B,hB,hP⟩ := bind_eq_some_iff.mp hP
  obtain ⟨-,rfl⟩ := delete_eq _ _ _ hB
  cases hP
  constructor
  · intro f r hr
    rw [get_erase] at hr
    split at hr
    · cases hr
    · exact ⟨r,hr,rfl,rfl⟩
  · intro f r hr hn
    rw [get_erase] at hn
    by_contra e
    rw [if_neg e,hr] at hn
    cases hn

theorem successorClear_only (f : BlockHash) : Yields (Only hash P) (P.successorClear f) := by
  intro P' hP
  obtain ⟨p,hp,hP⟩ := bind_eq_some_iff.mp hP
  cases hP
  constructor
  · intro e r hr
    rw [get_insert] at hr
    split at hr
    · rename_i he
      cases hr
      exact ⟨p,he ▸ hp,rfl,rfl⟩
    · exact ⟨r,hr,rfl,rfl⟩
  · intro e r hr hn
    rw [get_insert] at hn
    split at hn
    · cases hn
    · rw [hr] at hn
      cases hn

theorem pendingDel_only (k : PendingKey) : Yields (Only hash P) (P.pendingDel k) :=
  Yields.read fun _ _ => .pure (only_of_blocks rfl)

theorem frontierDel_only (f : BlockHash) : Yields (Only hash P) (P.frontierDel f) :=
  Yields.read fun _ _ => .pure (only_of_blocks rfl)

theorem updateAccount_only (a : Account) (old new : AccountInfo) :
    Yields (Only hash P) (P.updateAccount a old new) := by
  refine Yields.ite (fun _ => ?_) (fun _ => ?_)
  · refine .ite (fun _ => ?_) (fun _ => ?_)
    · exact .read (fun _ _ => .pure (only_of_blocks rfl))
    · exact .pure (only_of_blocks rfl)
  · exact .read (fun _ _ => .pure (only_of_blocks rfl))

instance : IsTrans Ledger (Only hash) := ⟨fun _ _ _ => Only.trans⟩

theorem sendCommit_only (h : SendHashables) (pending : PendingInfo) :
    Yields (Only hash P) (sendCommit now P hash h pending) := by
  refine Yields.step (pendingDel_only _) (only_of_blocks rfl) fun P₁ o₁ => ?_
  refine .read fun balance _ => ?_
  refine .step (updateAccount_only _ _ _) (o₁.trans (only_of_blocks rfl)) fun P₂ o₂ => ?_
  refine .step blockDel_only o₂ fun P₃ o₃ => ?_
  refine .step (frontierDel_only _) o₃ fun P₄ o₄ => ?_
  exact .last (successorClear_only _) (o₄.trans (only_of_blocks rfl))

theorem receiveBlock_only (b : Block) (h : ReceiveHashables) :
    Yields (Only (C.blockHash b) P) (receiveBlock C now P b h) := by
  refine Yields.read fun amount _ => Yields.read fun destination _ => ?_
  refine .read fun source _ => .read fun balance _ => ?_
  refine .step (updateAccount_only _ _ _) (only_of_blocks rfl) fun P₁ o₁ => ?_
  refine .step blockDel_only o₁ fun P₂ o₂ => ?_
  refine .step (frontierDel_only _) (o₂.trans (only_of_blocks rfl)) fun P₃ o₃ => ?_
  exact .last (successorClear_only _) (o₃.trans (only_of_blocks rfl))

theorem openBlock_only (b : Block) (h : OpenHashables) :
    Yields (Only (C.blockHash b) P) (openBlock C P b h) := by
  refine Yields.read fun amount _ => Yields.read fun destination _ => ?_
  refine .read fun source _ => ?_
  refine .step (updateAccount_only _ _ _) (only_of_blocks rfl) fun P₁ o₁ => ?_
  refine .step blockDel_only o₁ fun P₂ o₂ => ?_
  exact .last (frontierDel_only _) (o₂.trans (only_of_blocks rfl))

theorem changeBlock_only (b : Block) (h : ChangeHashables) :
    Yields (Only (C.blockHash b) P) (changeBlock C now P b h) := by
  refine Yields.read fun repBlock _ => Yields.read fun account _ => ?_
  refine .read fun balance _ => .read fun block _ => ?_
  refine .step blockDel_only (only_of_blocks rfl) fun P₁ o₁ => ?_
  refine .step (updateAccount_only _ _ _) o₁ fun P₂ o₂ => ?_
  refine .step (frontierDel_only _) o₂ fun P₃ o₃ => ?_
  exact .last (successorClear_only _) (o₃.trans (only_of_blocks rfl))

theorem changeBlock_walks (b : Block) (h : ChangeHashables) :
    Yields (fun _ => (representative C P h.previous).isSome = true) (changeBlock C now P b h) := by
  refine Yields.read fun repBlock hrep => ?_
  rw [hrep]
  exact fun _ _ => rfl

theorem restorePrevious_only (h : StateHashables) :
    Yields (Only hash P) (restorePrevious P h) := by
  unfold restorePrevious
  cases P.blocks[h.previous]? with
  | none => exact .pure (only_of_blocks rfl)
  | some previous =>
    refine Yields.step (successorClear_only _) (only_of_blocks rfl) fun P₁ o₁ => ?_
    refine .pure (o₁.trans (only_of_blocks ?_))
    split <;> rfl

theorem stateCommit_only (h : StateHashables) (info : AccountInfo) (rep : Account)
    (balance : Amount) : Yields (Only hash P) (stateCommit now P hash h info rep balance) := by
  refine Yields.step (updateAccount_only _ _ _) (only_of_blocks rfl) fun P₁ o₁ => ?_
  refine .step (restorePrevious_only h) o₁ fun P₂ o₂ => ?_
  exact .last blockDel_only o₂

def Needs (r : StoredBlock) : Prop :=
  (r.block.type = .change ∨ r.block.type = .state) ∧ r.block.previous ≠ 0

def Hashed (C : Constants) (P : Ledger) : Prop :=
  ∀ (h : BlockHash) (r : StoredBlock), P.blocks[h]? = some r → C.blockHash r.block = h

structure Fewer (C : Constants) (P P' : Ledger) : Prop where
  kept : Kept P P'
  walked : ∀ (h : BlockHash) (r : StoredBlock), P.blocks[h]? = some r → P'.blocks[h]? = none →
    Needs r → (representative C P r.block.previous).isSome = true

theorem Hashed.kept (hP : Hashed C P) (hk : Kept P P') : Hashed C P' := by
  intro h r' hr'
  obtain ⟨r,hr,hb,-⟩ := hk h r' hr'
  rw [← hb]
  exact hP h r hr

theorem representativeCompute_kept (hk : Kept P P') {k : ℕ} {f : BlockHash}
    (hf : representativeCompute C P' k h = some f) : representativeCompute C P k h = some f := by
  induction k generalizing h with
  | zero => cases hf
  | succ k ih =>
    unfold representativeCompute at hf ⊢
    cases hr : P'.blocks[h]? with
    | none =>
      rw [hr] at hf
      cases hf
    | some r' =>
      obtain ⟨r,hr₀,hb,-⟩ := hk h r' hr
      rw [hr₀]
      simp only [hr,hb] at hf ⊢
      cases ht : r'.block.type with
      | send =>
        simp only [ht] at hf ⊢
        exact ih hf
      | receive =>
        simp only [ht] at hf ⊢
        exact ih hf
      | _ => simpa [ht] using hf

theorem representative_kept (hk : Kept P P') (hs : (representative C P' h).isSome = true) :
    (representative C P h).isSome = true := by
  obtain ⟨f,hf⟩ := isSome_iff_exists.mp hs
  unfold representative at hf ⊢
  cases hr : P'.blocks[h]? with
  | none =>
    simp only [hr,representativeCompute] at hf
    cases hf
  | some r' =>
    obtain ⟨r,hr₀,-,hheight⟩ := hk h r' hr
    rw [hr,map_some,getD_some] at hf
    rw [hr₀,map_some,getD_some,hheight,representativeCompute_kept hk hf]
    rfl

theorem fewer_of_blocks (e : P'.blocks = P.blocks) : Fewer C P P' where
  kept f r hr := ⟨r,e ▸ hr,rfl,rfl⟩
  walked f r hr hn := by
    rw [e,hr] at hn
    cases hn

theorem Fewer.trans (F : Fewer C P P') (F' : Fewer C P' P'') : Fewer C P P'' where
  kept := F.kept.trans F'.kept
  walked f r hr hn hneeds := by
    cases hf : P'.blocks[f]? with
    | none => exact F.walked f r hr hf hneeds
    | some r' =>
      obtain ⟨r₀,hr₀,hb,-⟩ := F.kept f r' hf
      cases hr.symm.trans hr₀
      have hneeds' : Needs r' := by rwa [Needs,← hb]
      rw [hb]
      exact representative_kept F.kept (F'.walked f r' hf hn hneeds')

theorem Fewer.remove (F : Fewer C P P') (o : Only hash P' P'') (hr : P.blocks[hash]? = some r)
    (hw : Needs r → (representative C P r.block.previous).isSome = true) : Fewer C P P'' where
  kept := F.kept.trans o.kept
  walked f r₀ hr₀ hn hneeds := by
    cases hf : P'.blocks[f]? with
    | none => exact F.walked f r₀ hr₀ hf hneeds
    | some r' =>
      obtain rfl := o.removed f r' hf hn
      cases hr.symm.trans hr₀
      exact hw hneeds

def CallReads (C : Constants) (call : Call) : Prop := ∀ (P : Ledger) (h : BlockHash)
  (list : RollbackList), Hashed C P → Yields (fun out => Fewer C P out.2.1) (call P h list)

section
variable (hcall : CallReads C call) (hP : Hashed C P)
include hcall hP

theorem untilPending_fewer (key : PendingKey) :
    Yields (fun out => Fewer C P out.2.1)
      (Loop.loop (untilPending call key) bound (P,list)) := by
  refine Yields.loop (I := fun s => Fewer C P s.1) ?_ bound (fewer_of_blocks rfl)
  rintro ⟨P',l⟩ F
  unfold untilPending
  dsimp only
  cases P'.pending[key]? with
  | some pending => exact .pure F
  | none =>
    refine .bind (hcall P' _ l (hP.kept F.kept)) ?_
    rintro ⟨e,P₁,l₁⟩ _ F₁
    exact .ite (fun _ => .pure (F.trans F₁)) (fun _ => .pure (F.trans F₁))

theorem statePending_fewer (h : StateHashables) (accountError : Bool) (balance : Amount) :
    Yields (fun out => Fewer C P out.1)
      (statePending C call bound P list r h accountError balance) := by
  refine Yields.ite (fun _ => ?_) (fun _ => ?_)
  · have hawait : Yields (fun out => Fewer C P out.1)
        (stateAwait call bound ⟨h.link,C.blockHash r.block⟩ P list accountError) := by
      refine .ite (fun _ => .pure (fewer_of_blocks rfl)) (fun _ => ?_)
      intro out hout
      obtain ⟨x,hx,rfl⟩ := map_eq_some_iff.mp hout
      exact untilPending_fewer hcall hP _ x hx
    refine .bind hawait ?_
    rintro ⟨P₁,l₁⟩ _ F₁
    refine .read fun P₂ hdel => ?_
    obtain ⟨B,-,hB⟩ := bind_eq_some_iff.mp hdel
    cases hB
    exact .pure (F₁.trans (fewer_of_blocks rfl))
  · refine .ite (fun _ => ?_) (fun _ => .pure (fewer_of_blocks rfl))
    exact .read fun _ _ => .pure (fewer_of_blocks rfl)

end

theorem stateRepresentative_walks {h : StateHashables} {previous : Option Account}
    (hs : stateRepresentative C P h = some previous) (h0 : h.previous ≠ 0) :
    (representative C P h.previous).isSome = true := by
  unfold stateRepresentative at hs
  rw [if_neg h0] at hs
  obtain ⟨f,hf,-⟩ := bind_eq_some_iff.mp hs
  rw [hf]
  rfl

section
variable (hcall : CallReads C call) (hP : Hashed C P)
include hcall hP

theorem stateBlock_fewer {h : StateHashables} (hb : r.block.hashables = .state h)
    (hr : P.blocks[C.blockHash r.block]? = some r) :
    Yields (fun out => Fewer C P out.1) (stateBlock C now call bound P list r h) := by
  refine Yields.read fun previous hprevious => Yields.read fun balance _ => ?_
  have hblocks : (stateWeights P h previous balance).blocks = P.blocks := by
    cases previous <;> rfl
  have F₀ : Fewer C P (stateWeights P h previous balance) := fewer_of_blocks hblocks
  refine .bind (statePending_fewer hcall (hP.kept F₀.kept) h _ _) ?_
  rintro ⟨P₁,l₁⟩ _ F₁
  refine .bind (stateCommit_only h _ _ _) ?_
  intro P₂ _ o₂
  refine .pure ((F₀.trans F₁).remove o₂ hr ?_)
  rintro ⟨-,h0⟩
  rw [Block.previous,hb] at h0 ⊢
  exact stateRepresentative_walks hprevious h0

theorem visit_fewer (hr : P.blocks[g]? = some r) :
    Yields (fun out => Fewer C P out.2.1) (visit C now call bound P list r) := by
  have hr' : P.blocks[C.blockHash r.block]? = some r := by rwa [hP g r hr]
  unfold visit
  cases hb : r.block.hashables with
  | send h =>
    refine Yields.bind (untilPending_fewer hcall hP _) ?_
    rintro ⟨pending,P₁,l₁⟩ _ F₁
    cases pending with
    | none => exact .pure F₁
    | some pending =>
      refine .bind (sendCommit_only h pending) ?_
      intro P₂ _ o₂
      exact .pure (F₁.remove o₂ hr' (fun hn => by simp [Needs,Block.type,hb,Hashables.type] at hn))
  | receive h =>
    refine .bind (receiveBlock_only r.block h) ?_
    intro P₁ _ o₁
    exact .pure ((fewer_of_blocks rfl).remove o₁ hr'
      (fun hn => by simp [Needs,Block.type,hb,Hashables.type] at hn))
  | open_ h =>
    refine .bind (openBlock_only r.block h) ?_
    intro P₁ _ o₁
    exact .pure ((fewer_of_blocks rfl).remove o₁ hr'
      (fun hn => by simp [Needs,Block.type,hb,Hashables.type] at hn))
  | change h =>
    refine .bind (changeBlock_only r.block h) ?_
    intro P₁ hc o₁
    refine .pure ((fewer_of_blocks rfl).remove o₁ hr' fun _ => ?_)
    rw [Block.previous,hb]
    exact changeBlock_walks r.block h P₁ hc
  | state h =>
    refine .bind (stateBlock_fewer hcall hP hb hr') ?_
    rintro ⟨P₁,l₁⟩ _ F₁
    exact .pure F₁

def Removes (C : Constants) (P : Ledger) (h : BlockHash) (out : Bool × Ledger × RollbackList) :
    Prop :=
  Fewer C P out.2.1 ∧ (out.1 = false → out.2.1.blocks[h]? = none)

theorem rollbackRound_fewer (account : Account) (height : ℕ)
    (s : Ledger × RollbackList × AccountInfo) (F : Fewer C P s.1) :
    Yields (Sum.elim (fun s' => Fewer C P s'.1) (Removes C P h))
      (rollbackRound C now call bound h account height s) := by
  obtain ⟨P',l,info⟩ := s
  refine Yields.ite (fun hn => ?_) (fun _ => Yields.ite (fun _ => ?_) (fun _ => ?_))
  · rw [Std.ExtTreeMap.contains_eq_isSome_getElem?] at hn
    exact .pure ⟨F,fun _ => not_isSome_iff_eq_none.mp hn⟩
  · refine .read fun r hr => .bind (visit_fewer hcall (hP.kept F.kept) hr) ?_
    rintro ⟨e,P₁,l₁⟩ _ F₁
    refine .ite (fun _ => .pure ⟨F.trans F₁,fun he => nomatch he⟩) (fun _ => .pure ?_)
    exact (F.trans F₁).trans (fewer_of_blocks rfl)
  · exact .pure ⟨F,fun he => nomatch he⟩

end

variable (C now) in
theorem rollback_removes (fuel : ℕ) (hP : Hashed C P) :
    Yields (Removes C P h) (rollback C now fuel P h list) := by
  induction fuel generalizing P h list with
  | zero => exact Yields.none
  | succ fuel ih =>
    have hcall : CallReads C (rollback C now fuel) := fun P h list hP out hout =>
      (ih hP out hout).1
    refine .read fun account _ => .read fun r _ => ?_
    exact .loop (rollbackRound_fewer hcall hP account _) (fuel+1) (fewer_of_blocks rfl)
end Vxldollar.RollbackReads
