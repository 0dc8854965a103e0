import Vxldollar.Refusals
import Vxldollar.Successors
import Vxldollar.Exactness

/-!
# Reported forks

A fork is reported from the head of an account or from the frontiers table, not from
the root of the block. A state block whose predecessor is the head of another account is
reported as well, although nothing stands where it would stand.
-/

namespace Vxldollar.Forks
open Blocks Store Process Vxldollar.Lattice Chains Successors Refusals ProcessSpec Runs Exactness

variable {C : Constants} {U : Set Hashables} {S : HashSound C U} {X : Nodes} {L L' : Ledger}
  {b : Block} {now : ℕ} {verified : SignatureVerification} {result : ProcessReturn}

/-- Another block stands where `b` would stand, and `successor` finds it. -/
def RealFork (C : Constants) (L : Ledger) (b : Block) : Prop :=
  ∃ (h : BlockHash) (r : StoredBlock), L.blocks[h]? = some r ∧ h ≠ C.blockHash b ∧
    r.block.qualifiedRoot = b.qualifiedRoot ∧ successor L b.qualifiedRoot = some r

def OnHead (L : Ledger) (b : Block) : Prop :=
  ∃ (a : Account) (info : AccountInfo), L.accounts[a]? = some info ∧ info.head = b.previous

theorem place_of_fork (h : TellsFork C L b) :
    b.previous = 0 ∧ L.accounts.contains b.root = true ∨ L.blocks.contains b.previous = true := by
  obtain ⟨hashables,sig,work⟩ := b
  cases hashables with
  | open_ h' => exact .inl ⟨rfl,h.2⟩
  | state h' =>
    rcases h.2 with ⟨h0,ha⟩ | hc
    · left
      simp [Block.root,Block.previous,Hashables.root,Hashables.previous,h0,ha]
    · exact .inr hc
  | _ => exact .inr h.2

section
variable (V : Valid S L X)
include V

theorem onHead_iff : OnHead L b ↔ ∃ n, Head X b.previous n := by
  constructor
  · rintro ⟨a,info,ha,hhead⟩
    obtain ⟨g,n,hg,-,hinfo⟩ := V.mirrors.account a info ha
    have hgp : g = b.previous := by
      rw [← hhead,hinfo]
      rfl
    exact ⟨n,hgp ▸ hg⟩
  · rintro ⟨n,hn⟩
    obtain ⟨t,ht⟩ := V.mirrors.head V.built hn
    exact ⟨n.account,_,ht,rfl⟩

theorem onHead_of_none (hplace : b.previous = 0 ∧ L.accounts.contains b.root = true ∨
      L.blocks.contains b.previous = true)
    (hnone : ∀ g m, X g = some m → m.hashables.root = b.root → m.previous ≠ b.previous) :
    OnHead L b := by
  rcases hplace with ⟨h0,ha⟩ | hc
  · rcases openBlock_of_account V b.root with ⟨i,n,-,hX,hp,hacc⟩ | ⟨hi,-⟩
    · exact absurd (hp.trans h0.symm)
        (hnone _ n hX ((opening_root V.built hX hp).trans hacc))
    · rw [Std.ExtTreeMap.contains_eq_isSome_getElem?,hi] at ha
      cases ha
  · obtain ⟨n,hn⟩ := V.mirrors.contains.mp hc
    have h0 := built_key_ne_zero V.built hn
    refine (onHead_iff V).mpr ⟨n,hn,fun g m hm hp => hnone g m hm ?_ hp⟩
    have hm0 : m.hashables.previous ≠ 0 := fun e => h0 (hp.symm.trans e)
    rw [Block.root,following_root h0,following_root hm0]
    exact hp

end

/-- A reported fork is a real one unless the predecessor is the head of an account. -/
theorem fork_real_iff (S : HashSound C U) (hr : Reachable C U L)
    (hp : process C now L b verified = some (result,L')) (hf : result.code = .fork) :
    RealFork C L b ↔ ¬ OnHead L b := by
  obtain ⟨X,V⟩ := reachable_valid S hr
  have htold : TellsFork C L b := by
    have ht := (process_told _ hp).tells
    rw [hf] at ht
    exact ht
  rcases successor_cases V b with ⟨h,n,r,hX,hroot,hprev,hr,hs⟩ | ⟨hs,hnone⟩
  · apply iff_of_true
    · obtain ⟨m,hm,hmr,hmp⟩ := record_root V hr
      cases hX.symm.trans hm
      refine ⟨h,r,hr,?_,?_,hs⟩
      · rintro rfl
        have hnew := htold.1
        rw [V.mirrors.contains.mpr ⟨n,hX⟩] at hnew
        cases hnew
      · rw [Block.qualifiedRoot,hmr,hmp,hroot,hprev]
        rfl
    · intro hhead
      obtain ⟨m,hm⟩ := (onHead_iff V).mp hhead
      exact hm.2 h n hX hprev
  · apply iff_of_false
    · rintro ⟨h,r,-,-,-,hr⟩
      rw [hs] at hr
      cases hr
    · exact not_not.mpr (onHead_of_none V (place_of_fork htold) hnone)

def stray : Block := ⟨.state ⟨7,3,9,5,0⟩,0,0⟩

def rival : Block := ⟨.change ⟨2,9⟩,0,0⟩

def strayBlocks : Set Hashables :=
  {linking.genesis.hashables,sampleSend.hashables,sampleOpen.hashables,stray.hashables}

theorem stray_sound : HashSound linking strayBlocks := by
  refine .of_forall ?_ ?_ (.inl rfl)
  · rintro a (rfl | rfl | rfl | rfl) b (rfl | rfl | rfl | rfl) h <;>
      first | rfl | (revert h; decide)
  · rintro a (rfl | rfl | rfl | rfl) <;> decide

def strayLedger : Ledger :=
  processed linking (processed linking (storeInitialize linking 0) sampleSend) sampleOpen

theorem strayLedger_reachable : Reachable linking strayBlocks strayLedger := by
  have hsent := reachable_processed stray_sound (.start 0)
    (.inr (.inl rfl)) (epochOpens_none (by decide))
  exact reachable_processed stray_sound hsent
    (.inr (.inr (.inl rfl))) (epochOpens_none (by decide))

theorem fork_real_iff_sample :
    (process linking 0 strayLedger rival .unknown).map (fun o => o.1.code) = some .fork ∧
      (RealFork linking strayLedger rival ↔ ¬ OnHead strayLedger rival) := by
  have hcode : (process linking 0 strayLedger rival .unknown).map (fun o => o.1.code) =
      some .fork := by decide +kernel
  obtain ⟨o,ho,hf⟩ := Option.map_eq_some_iff.mp hcode
  exact ⟨hcode,fork_real_iff stray_sound strayLedger_reachable ho hf⟩

/-- The stray block is reported as a fork, and nothing stands in its place. -/
theorem fork_unreal : HashSound linking strayBlocks ∧ stray.hashables ∈ strayBlocks ∧
    Reachable linking strayBlocks strayLedger ∧
    (process linking 0 strayLedger stray .unknown).map (fun o => o.1.code) = some .fork ∧
    successor strayLedger stray.qualifiedRoot = none ∧ ¬ RealFork linking strayLedger stray := by
  have hnone : successor strayLedger stray.qualifiedRoot = none := by decide +kernel
  refine ⟨stray_sound,.inr (.inr (.inr rfl)),strayLedger_reachable,by decide +kernel,hnone,?_⟩
  rintro ⟨h,r,-,-,-,hs⟩
  rw [hnone] at hs
  cases hs
end Vxldollar.Forks
