import Vxldollar.Runs

/-!
# Pruning

`collect_ledger_pruning_targets` walks down from every cemented frontier,
always past the frontier itself, and `pruning_action` replaces a target and all
blocks below it by their hashes. Only the local timestamps, the depth limit and
how many accounts fit into a batch decide where it starts. Whatever is pruned
lies strictly below the cemented frontier of its account.
-/

namespace Vxldollar.Pruning
open Blocks Store Vxldollar.Lattice Chains Mirror Heights Confirmation Runs Table Option
  Std.ExtTreeMap

section
variable (L : Ledger) (cutoffTime : ℕ)

/-- The walk down one chain. `remaining` is what is left of the depth limit. A
missing cemented frontier fails a `release_assert`. -/
def targetBelow : ℕ → ℕ → BlockHash → Option (BlockHash × ℕ)
  | 0, depth, hash => some (hash,depth)
  | remaining+1, depth, hash =>
    if hash = 0 then some (0,depth)
    else match L.blocks[hash]? with
      | some r =>
        if r.sideband.timestamp > cutoffTime ∨ depth = 0 then
          targetBelow remaining (depth+1) r.block.previous
        else some (hash,depth)
      | none => if depth = 0 then none else targetBelow remaining (depth+1) 0

/-- The loop over the confirmation heights. It returns the targets, the account
to go on with and whether all accounts were visited. -/
def collectTargets (batchReadSize maxDepth : ℕ) : List (Account × ConfirmationHeightInfo) → ℕ →
    List BlockHash → Account → Option (List BlockHash × Account × Bool)
  | [], _, targets, last => some (targets,last,true)
  | (a,i) :: rest, readOperations, targets, last =>
    (targetBelow L cutoffTime maxDepth 0 i.frontier).bind (fun (hash,depth) =>
      let targets := if hash ≠ 0 then targets ++ [hash] else targets
      let readOperations := readOperations+1+depth
      if readOperations ≥ batchReadSize then some (targets,a+1,decide (a+1 = 0))
      else collectTargets batchReadSize maxDepth rest readOperations targets last)

def collectLedgerPruningTargets (targets : List BlockHash) (lastAccount : Account)
    (batchReadSize maxDepth : ℕ) : Option (List BlockHash × Account × Bool) :=
  collectTargets L cutoffTime batchReadSize maxDepth
    (L.confirmationHeight.toList.filter (fun e => decide (lastAccount ≤ e.1))) 0 targets lastAccount

end

section
variable (C : Constants)

def prune (L : Ledger) (hash : BlockHash) : Ledger :=
  { L with
    blocks := L.blocks.erase hash
    pruned := L.pruned.insert hash () }

/-- One round of `pruning_action`. Where the transaction is committed does not
matter here. -/
def pruningStep (s : Ledger × BlockHash × ℕ) :
    Option ((Ledger × BlockHash × ℕ) ⊕ (Ledger × ℕ)) :=
  let (L,hash,count) := s
  if hash = 0 ∨ hash = C.genesisHash then some (.inr (L,count))
  else match L.blocks[hash]? with
    | some r => some (.inl (prune L hash,r.block.previous,count+1))
    | none => if L.pruned.contains hash then some (.inl (L,0,count)) else none

def pruningAction (fuel : ℕ) (L : Ledger) (hash : BlockHash) : Option (Ledger × ℕ) :=
  Loop.loop (pruningStep C) fuel (L,hash,0)

/-- Pruning runs: targets are collected at any moment with any limits, and any
collected target may be pruned at any later moment. -/
inductive Prunes (L : Ledger) : List BlockHash → Ledger → Prop
  | start : Prunes L [] { L with pruning := true }
  | collect {targets targets' : List BlockHash} {P : Ledger} {last last' : Account}
      {finished : Bool} {batchReadSize maxDepth cutoffTime : ℕ} : Prunes L targets P →
      1 ≤ maxDepth → collectLedgerPruningTargets P cutoffTime targets last batchReadSize maxDepth =
        some (targets',last',finished) → Prunes L targets' P
  | prune {targets : List BlockHash} {P P' : Ledger} {target : BlockHash} {fuel count : ℕ} :
      Prunes L targets P → target ∈ targets → pruningAction C fuel P target = some (P',count) →
      Prunes L targets P'

end

/-- Pending entries agree; where `loose` allows it the source account of an
entry whose send is gone may differ. -/
def SamePending (loose gone : Prop) (i j : Option PendingInfo) : Prop :=
  j = i ∨ (loose ∧ gone ∧ ∃ e source, i = some e ∧ j = some { e with source := source })

structure Truncates (loose : Prop) (gone : BlockHash → Prop) (L P : Ledger) : Prop where
  pruned : ∀ h, P.pruned.contains h = true ↔ gone h
  kept : ∀ h, ¬ gone h → P.blocks[h]? = L.blocks[h]?
  removed : ∀ h, gone h → P.blocks[h]? = none ∧ L.blocks.contains h = true
  accounts : P.accounts = L.accounts
  frontiers : P.frontiers = L.frontiers
  pending : ∀ k : PendingKey, SamePending loose (gone k.hash) L.pending[k]? P.pending[k]?
  confirmationHeight : P.confirmationHeight = L.confirmationHeight
  cache : P.cache = L.cache
  unpruned : L.pruned = ∅
  pruning : P.pruning = true

/-- What is gone lies strictly below the cemented frontier of its chain. -/
def Deep (gone : BlockHash → Prop) (L : Ledger) (X : Nodes) : Prop :=
  ∀ h, gone h → ∃ n, X h = some n ∧ n.height < (L.confirmationHeightGet n.account).height

section
variable {C : Constants} {U : Set Hashables} {S : HashSound C U} {X : Nodes} {L P P' : Ledger}
  {h target : BlockHash} {n : Node} {gone : BlockHash → Prop} {loose : Prop} {cutoffTime : ℕ}

def Eligible (L : Ledger) (X : Nodes) (h : BlockHash) : Prop :=
  ∃ n, X h = some n ∧ n.height < (L.confirmationHeightGet n.account).height

abbrev Gone (P : Ledger) (h : BlockHash) : Prop := P.pruned.contains h = true

theorem eligible_previous (V : Valid S L X) (hX : X h = some n) (hc : Cemented L n) :
    n.previous = 0 ∨ Eligible L X n.previous := by
  by_cases h0 : n.previous = 0
  · exact .inl h0
  · obtain ⟨m,hm,hacc,-,hheight,-⟩ := built_following V.built hX h0
    refine .inr ⟨m,hm,?_⟩
    unfold Cemented at hc
    rw [hacc]
    omega

variable {r : StoredBlock}

theorem Truncates.record (T : Truncates loose gone L P) (M : Mirrors L X)
    (hr : P.blocks[h]? = some r) : ¬ gone h ∧ ∃ n, X h = some n ∧ Stores X h n r := by
  have hng : ¬ gone h := by
    intro hg
    rw [(T.removed h hg).1] at hr
    cases hr
  rw [T.kept h hng] at hr
  exact ⟨hng,M.block h r hr⟩

section
variable (V : Valid S L X) (T : Truncates loose gone L P)
include V T

theorem targetBelow_eligible {k depth d : ℕ} (hdepth : depth ≠ 0) (hh : h = 0 ∨ Eligible L X h)
    (ht : targetBelow P cutoffTime k depth h = some (target,d)) :
    target = 0 ∨ Eligible L X target := by
  induction k generalizing depth h with
  | zero =>
    cases ht
    exact hh
  | succ k ih =>
    unfold targetBelow at ht
    split at ht
    · cases ht
      exact .inl rfl
    · rename_i h0
      split at ht
      · rename_i r hr
        obtain ⟨-,n,hX,hs⟩ := T.record V.mirrors hr
        obtain ⟨n',hX',hlt⟩ := hh.resolve_left h0
        cases hX.symm.trans hX'
        split at ht
        · refine ih (Nat.succ_ne_zero _) ?_ ht
          rw [Block.previous,hs.hashables]
          exact eligible_previous V hX hlt.le
        · cases ht
          exact hh
      · exact ih (Nat.succ_ne_zero _) (.inl rfl) ht

theorem target_eligible {a : Account} {i : ConfirmationHeightInfo}
    (hi : L.confirmationHeight[a]? = some i) {maxDepth d : ℕ} (hmax : 1 ≤ maxDepth)
    (ht : targetBelow P cutoffTime maxDepth 0 i.frontier = some (target,d)) :
    target = 0 ∨ Eligible L X target := by
  obtain ⟨k,rfl⟩ : ∃ k, maxDepth = k+1 := ⟨maxDepth-1,by omega⟩
  obtain ⟨n,hX,hacc,hheight⟩ := V.frontier a i hi
  unfold targetBelow at ht
  rw [if_neg (built_key_ne_zero V.built hX)] at ht
  split at ht
  · rename_i r hr
    obtain ⟨-,n',hX',hs⟩ := T.record V.mirrors hr
    cases hX.symm.trans hX'
    rw [if_pos (.inr rfl)] at ht
    refine targetBelow_eligible V T (Nat.succ_ne_zero _) ?_ ht
    rw [Block.previous,hs.hashables]
    refine eligible_previous V hX ?_
    rw [Cemented,hacc,Ledger.confirmationHeightGet,hi]
    exact hheight.le
  · cases ht

theorem collectTargets_eligible {maxDepth batch reads : ℕ} (hmax : 1 ≤ maxDepth)
    {entries : List (Account × ConfirmationHeightInfo)} {targets targets' : List BlockHash}
    {last last' : Account} {finished : Bool}
    (hentries : ∀ e ∈ entries, L.confirmationHeight[e.1]? = some e.2)
    (htargets : ∀ t ∈ targets, Eligible L X t)
    (hc : collectTargets P cutoffTime batch maxDepth entries reads targets last =
      some (targets',last',finished)) :
    ∀ t ∈ targets', Eligible L X t := by
  induction entries generalizing reads targets with
  | nil =>
    cases hc
    exact htargets
  | cons e entries ih =>
    obtain ⟨a,i⟩ := e
    obtain ⟨⟨target,depth⟩,ht,hc⟩ := bind_eq_some_iff.mp hc
    have hi := hentries _ List.mem_cons_self
    have hnext : ∀ t ∈ (if target ≠ 0 then targets ++ [target] else targets), Eligible L X t := by
      intro t hmem
      split at hmem
      · rename_i h0
        rcases List.mem_append.mp hmem with hmem | hmem
        · exact htargets t hmem
        · obtain rfl := List.mem_singleton.mp hmem
          exact (target_eligible V T hi hmax ht).resolve_left h0
      · exact htargets t hmem
    dsimp only at hc
    split at hc
    · cases hc
      exact hnext
    · exact ih (fun e he => hentries e (List.mem_cons_of_mem _ he)) hnext hc

end

theorem gone_prune {g : BlockHash} : Gone (prune P h) g ↔ g = h ∨ Gone P g := by
  unfold Gone prune
  rw [contains_eq_isSome_getElem?,get_insert,
    contains_eq_isSome_getElem?]
  by_cases e : g = h
  · simp [e]
  · simp [e]

theorem prune_truncates (T : Truncates False (Gone P) L P)
    (hr : P.blocks[h]? = some r) : Truncates False (Gone (prune P h)) L (prune P h) where
  pruned _ := Iff.rfl
  kept g hg := by
    rw [gone_prune,not_or] at hg
    change (P.blocks.erase h)[g]? = _
    rw [get_erase,if_neg hg.1]
    exact T.kept g hg.2
  removed g hg := by
    change (P.blocks.erase h)[g]? = none ∧ _
    rw [get_erase]
    by_cases e : g = h
    · subst e
      have hng : ¬ Gone P g := by
        intro hg
        rw [(T.removed g hg).1] at hr
        cases hr
      rw [T.kept g hng] at hr
      rw [if_pos rfl,contains_eq_isSome_getElem?,hr]
      exact ⟨rfl,rfl⟩
    · rw [if_neg e]
      exact T.removed g ((gone_prune.mp hg).resolve_left e)
  accounts := T.accounts
  frontiers := T.frontiers
  pending k := .inl ((T.pending k).resolve_right (fun hl => hl.1))
  confirmationHeight := T.confirmationHeight
  cache := T.cache
  unpruned := T.unpruned
  pruning := T.pruning

structure Pruned (L : Ledger) (X : Nodes) (P : Ledger) : Prop where
  truncates : Truncates False (Gone P) L P
  deep : Deep (Gone P) L X

theorem Pruned.prune (I : Pruned L X P) (he : Eligible L X h)
    (hr : P.blocks[h]? = some r) : Pruned L X (prune P h) where
  truncates := prune_truncates I.truncates hr
  deep g hg := by
    rcases gone_prune.mp hg with rfl | hg
    · exact he
    · exact I.deep g hg

variable (V : Valid S L X)
include V

theorem Pruned.present (I : Pruned L X P) (he : Eligible L X h) (hn : P.blocks[h]? = none) :
    Gone P h := by
  by_contra hg
  obtain ⟨n,hX,-⟩ := he
  obtain ⟨r,hr⟩ := V.mirrors.present h n hX
  rw [I.truncates.kept h hg,hr] at hn
  cases hn

theorem pruningAction_pruned (I : Pruned L X P) (he : Eligible L X target) {fuel count : ℕ}
    (hp : pruningAction C fuel P target = some (P',count)) : Pruned L X P' := by
  refine Loop.loop_partial
    (fun s => Pruned L X s.1 ∧ (s.2.1 = 0 ∨ Eligible L X s.2.1)) (fun r => Pruned L X r.1)
    ?_ ?_ fuel (P,target,0) (P',count) ⟨I,.inr he⟩ hp
  · rintro ⟨Q,h,c⟩ s' ⟨J,hh⟩ hs
    unfold pruningStep at hs
    dsimp only at hs J hh
    split at hs
    · cases hs
    · rename_i hstop
      have he := hh.resolve_left (fun h0 => hstop (.inl h0))
      split at hs
      · rename_i r hr
        cases hs
        obtain ⟨-,n,hX,hst⟩ := J.truncates.record V.mirrors hr
        refine ⟨J.prune he hr,?_⟩
        obtain ⟨n',hX',hlt⟩ := he
        cases hX.symm.trans hX'
        dsimp only
        rw [Block.previous,hst.hashables]
        exact eligible_previous V hX hlt.le
      · split at hs
        · cases hs
          exact ⟨J,.inl rfl⟩
        · cases hs
  · rintro ⟨Q,h,c⟩ r ⟨J,-⟩ hs
    unfold pruningStep at hs
    dsimp only at hs
    split at hs
    · cases hs
      exact J
    · split at hs
      · cases hs
      · split at hs <;> cases hs

/-- Every pruning run of a valid ledger removes only blocks strictly below the
cemented frontiers, and all its targets lie there. -/
theorem prunes_pruned {targets : List BlockHash} (hp : Prunes C L targets P) :
    Pruned L X P ∧ ∀ t ∈ targets, Eligible L X t := by
  induction hp with
  | start =>
    have hnone : ∀ h, ¬ Gone { L with pruning := true } h := by
      intro h
      unfold Gone
      rw [show ({ L with pruning := true } : Ledger).pruned = ∅ from V.mirrors.pruned]
      simp
    refine ⟨⟨⟨fun _ => Iff.rfl,fun _ _ => rfl,fun h hg => (hnone h hg).elim,rfl,rfl,
      fun _ => .inl rfl,rfl,rfl,V.mirrors.pruned,rfl⟩,fun h hg => (hnone h hg).elim⟩,?_⟩
    exact fun t ht => (List.not_mem_nil ht).elim
  | collect _ hmax hc ih =>
    refine ⟨ih.1,collectTargets_eligible V ih.1.truncates hmax ?_ ih.2 hc⟩
    rintro ⟨a,i⟩ he
    rw [← ih.1.truncates.confirmationHeight]
    exact (mem_entries _ _ _).mp (List.mem_of_mem_filter he)
  | prune _ ht hp ih => exact ⟨pruningAction_pruned V ih.1 (ih.2 _ ht) hp,ih.2⟩

def Walking (L : Ledger) (X : Nodes) (k : ℕ) (s : Ledger × BlockHash × ℕ) : Prop :=
  Pruned L X s.1 ∧ (s.2.1 = 0 ∨ Eligible L X s.2.1) ∧ k = ((X s.2.1).map Node.height).getD 0

theorem pruningStep_total (k : ℕ) (s : Ledger × BlockHash × ℕ) (hw : Walking L X k s) :
    (∃ s' k', pruningStep C s = some (.inl s') ∧ Walking L X k' s' ∧ k' < k) ∨
    (∃ r, pruningStep C s = some (.inr r) ∧ True) := by
  obtain ⟨Q,h,c⟩ := s
  obtain ⟨J,hh,rfl⟩ := hw
  by_cases hstop : h = 0 ∨ h = C.genesisHash
  · exact .inr ⟨(Q,c),by rw [pruningStep,if_pos hstop],trivial⟩
  · have he := hh.resolve_left (fun h0 => hstop (.inl h0))
    obtain ⟨m,hm,hml⟩ := id he
    left
    cases hr : Q.blocks[h]? with
    | some r =>
      obtain ⟨-,m',hm',hst⟩ := J.truncates.record V.mirrors hr
      cases hm.symm.trans hm'
      have hprev : r.block.previous = m.previous := by
        rw [Block.previous,hst.hashables,Node.previous]
      refine ⟨_,_,by rw [pruningStep,if_neg hstop,hr],⟨J.prune he hr,?_,rfl⟩,?_⟩
      · rw [hprev]
        exact eligible_previous V hm hml.le
      · obtain ⟨e,-⟩ | hj := built_justified V.built hm
        · exact absurd (.inr e) hstop
        · simp [hm,hprev,justified_height hj]
    | none =>
      have hg := J.present V he hr
      refine ⟨(Q,0,c),0,?_,⟨J,.inl rfl,?_⟩,?_⟩
      · rw [pruningStep,if_neg hstop,hr]
        exact if_pos hg
      · dsimp only
        rw [built_zero V.built]
        rfl
      · rw [hm]
        exact height_pos V.built hm

end

variable {C : Constants} {L : Ledger}

def prunedFrom (C : Constants) (L : Ledger) (target : BlockHash) : Ledger :=
  ((pruningAction C 9 { L with pruning := true } target).map Prod.fst).getD L

theorem prunes_prunedFrom {target : BlockHash}
    (hc : ((collectLedgerPruningTargets { L with pruning := true } 9 [] 0 9 1).any
      fun t => decide (t.1 = [target])) = true)
    (hp : (pruningAction C 9 { L with pruning := true } target).isSome = true) :
    Prunes C L [target] (prunedFrom C L target) := by
  obtain ⟨⟨targets,last,finished⟩,ht,hmem⟩ := (any_eq_true _ _).mp hc
  obtain rfl := of_decide_eq_true hmem
  obtain ⟨⟨P,count⟩,hp⟩ := isSome_iff_exists.mp hp
  rw [prunedFrom,hp]
  exact .prune (.collect .start (Nat.le_refl 1) ht) (List.mem_singleton.mpr rfl) hp

end Vxldollar.Pruning
