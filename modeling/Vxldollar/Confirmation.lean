import Vxldollar.Heights
import Vxldollar.Mirror

/-!
# Cemented blocks

`dependent_blocks`, and confirmation heights seen as a set of cemented blocks.
Over tables that mirror a lattice the blocks a record depends on are the
dependencies of its node.
-/

namespace Vxldollar.Confirmation
open Blocks Store Vxldollar.Lattice Chains Mirror

section
variable (C : Constants)

/-- The two slots of `dependent_blocks` for a block loaded with its sideband.
The genesis block names its own account as source. -/
def dependentBlocks (r : StoredBlock) : BlockHash × BlockHash := match r.block.hashables with
  | .send h => (h.previous,0)
  | .receive h => (h.previous,h.source)
  | .open_ h => if h.source ≠ C.genesisAccount then (h.source,0) else (0,0)
  | .change h => (h.previous,0)
  | .state h => (h.previous,
      if C.isEpochLink h.link || r.sideband.details.isSend then 0 else h.link)

def DependsOn (r : StoredBlock) (d : BlockHash) : Prop :=
  d ≠ 0 ∧ (d = (dependentBlocks C r).1 ∨ d = (dependentBlocks C r).2)

instance (r : StoredBlock) (d : BlockHash) : Decidable (DependsOn C r d) :=
  inferInstanceAs (Decidable (_ ∧ _))

def Closed (L : Ledger) : Prop := ∀ (h : BlockHash) (r : StoredBlock), L.blocks[h]? = some r →
  L.blockConfirmed h = true → ∀ d, DependsOn C r d → L.blockConfirmed d = true

def heights (L : Ledger) : ℕ := Table.total (fun _ i => i.height) L.confirmationHeight

/-- Confirmation heights are raised to a set closed under dependencies; each
frontier is the account's block at the stored height. -/
structure Raised (L L' : Ledger) : Prop where
  rest : L' = { L with
    confirmationHeight := L'.confirmationHeight
    cache.cementedCount := L'.cache.cementedCount
    cache.finalVotesConfirmationCanary := L'.cache.finalVotesConfirmationCanary }
  raised : ∀ a, (L.confirmationHeightGet a).height ≤ (L'.confirmationHeightGet a).height
  frontier : ∀ (a : Account) (i : ConfirmationHeightInfo), L'.confirmationHeight[a]? = some i →
    ∃ r : StoredBlock, L.blocks[i.frontier]? = some r ∧ r.accountCalculated = a ∧
      r.sideband.height = i.height
  closed : Closed C L'
  count : L'.cache.cementedCount+heights L = L.cache.cementedCount+heights L'

end

variable {C : Constants} {U : Set Hashables} {S : HashSound C U} {X : Nodes} {L : Ledger}
  {h d : BlockHash} {n m : Node} {r : StoredBlock}

def Cemented (L : Ledger) (n : Node) : Prop :=
  n.height ≤ (L.confirmationHeightGet n.account).height

theorem blockConfirmed_iff (M : Mirrors L X) (hb : Built S X) :
    L.blockConfirmed h = true ↔ ∃ n, X h = some n ∧ Cemented L n := by
  unfold Ledger.blockConfirmed
  rw [M.pruned]
  cases hX : X h with
  | none => simp [M.absent.mpr hX]
  | some n =>
    obtain ⟨r,hr,hs⟩ := M.get hX
    simp [hr,stores_account hb hX hs,stores_height hb hX hs,Cemented]

theorem legacy_sideband (hs : Stores X h n r) (ht : n.hashables.type = .state) :
    r.sideband.details = n.move.details n.epoch := by
  rw [hs.sideband]
  simp [Node.sideband,ht,Sideband.stored]

theorem state_isSend (hj : Justified C U X h n) {q : StateHashables}
    (hn : n.hashables = .state q) (hs : Stores X h n r) :
    (if C.isEpochLink q.link || r.sideband.details.isSend then 0 else q.link) =
      (n.move.source).getD 0 := by
  have hd := legacy_sideband hs (by rw [hn]; rfl)
  have hm := justified_move hj
  rw [hn] at hm
  unfold moveOf at hm
  dsimp only at hm
  rw [hd,hm]
  split_ifs <;> simp_all [Move.details,Move.source]

variable (hb : Built S X) (hX : X h = some n)
include hb hX

theorem source_key (hm : n.move = .receive d) :
    d ≠ 0 ∧ d ≠ C.genesisAccount := by
  obtain ⟨m,hm',-⟩ := built_source hb hX hm
  refine ⟨built_key_ne_zero hb hm',?_⟩
  obtain ⟨e,hU⟩ := built_hash hb hm'
  rw [← e]
  exact S.ne_genesis _ hU

theorem mem_deps_iff :
    d ∈ deps n ↔ d ≠ 0 ∧ (d = n.previous ∨ d = n.move.source.getD 0) := by
  change (d = n.previous ∧ d ≠ 0) ∨ n.move = .receive d ↔ _
  cases hm : n.move with
  | receive s =>
    have h0 := (source_key hb hX hm).1
    simp only [Move.receive.injEq]
    constructor
    · rintro (⟨e,hd⟩ | rfl)
      · exact ⟨hd,.inl e⟩
      · exact ⟨h0,.inr rfl⟩
    · rintro ⟨hd,e | e⟩
      · exact .inl ⟨e,hd⟩
      · exact .inr e.symm
  | _ =>
    simp only [reduceCtorEq,or_false]
    constructor
    · rintro ⟨e,hd⟩
      exact ⟨hd,.inl e⟩
    · rintro ⟨hd,e | e⟩
      · exact ⟨e,hd⟩
      · exact absurd e hd

theorem dependsOn_iff (hs : Stores X h n r) :
    DependsOn C r d ↔ d ∈ deps n := by
  rw [mem_deps_iff hb hX]
  unfold DependsOn dependentBlocks
  rw [hs.hashables,Node.previous]
  rcases built_justified hb hX with ⟨-,rfl⟩ | hj
  · simp [genesisNode,Constants.genesis,Hashables.previous,Move.source]
  · have hm := justified_move hj
    have hsrc := fun s => source_key (d := s) hb hX
    cases hn : n.hashables with
    | send q => simp [hm,hn,moveOf,Hashables.previous,Move.source]
    | receive q => simp [hm,hn,moveOf,Hashables.previous,Move.source]
    | change q => simp [hm,hn,moveOf,Hashables.previous,Move.source]
    | open_ q =>
      have hne : q.source ≠ C.genesisAccount := (hsrc q.source (by rw [hm,hn]; rfl)).2
      simp [hm,hn,moveOf,Hashables.previous,Move.source,hne,or_comm]
    | state q =>
      simp only [state_isSend hj hn hs]
      rfl

end Vxldollar.Confirmation
