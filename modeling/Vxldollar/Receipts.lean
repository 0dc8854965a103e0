import Vxldollar.Structure

/-!
# The receive of a send

`ledger::find_receive_block_by_send_hash` walks down from the cemented frontier of the
destination to the block that received the send.
-/

namespace Vxldollar.Receipts
open Blocks Store Vxldollar.Lattice Chains Mirror Heights Confirmation Runs Structure

/-- The source of a loaded block. Only a state block that receives names one in its link. -/
def sourceRead (r : StoredBlock) : BlockHash := match r.block.hashables with
  | .state h => if r.sideband.details.isReceive then h.link else 0
  | hs => hs.source

def searchDown (L : Ledger) (send : BlockHash) : ℕ → BlockHash → Option (Option StoredBlock)
  | 0, _ => none
  | fuel+1, h => match L.blocks[h]? with
    | none => some none
    | some r =>
      if send = sourceRead r then some (some r) else searchDown L send fuel r.block.previous

def findReceiveBlockBySendHash (L : Ledger) (fuel : ℕ) (destination : Account)
    (send : BlockHash) : Option (Option StoredBlock) :=
  match L.confirmationHeight[destination]? with
  | none => some none
  | some info => searchDown L send fuel info.frontier

variable {C : Constants} {U : Set Hashables} {S : HashSound C U} {X : Nodes} {L : Ledger}
  {h s : BlockHash} {n m : Node} {r : StoredBlock}

section
variable (hb : Built S X) (hs : X s = some m)
include hb hs

theorem sourceRead_eq (hX : X h = some n) (hr : Stores X h n r) :
    sourceRead r = s ↔ n.move = .receive s := by
  have h0 : 0 ≠ s := (built_key_ne_zero hb hs).symm
  obtain ⟨e,hU⟩ := built_hash hb hs
  have hne : s ≠ C.genesisAccount := e ▸ S.ne_genesis _ hU
  unfold sourceRead
  rw [hr.hashables]
  rcases built_justified hb hX with ⟨-,rfl⟩ | hj
  · exact ⟨fun h => absurd h.symm hne,nofun⟩
  · have hm := justified_move hj
    cases hn : n.hashables with
    | state q =>
      rw [legacy_sideband hr (by rw [hn]; rfl)]
      rw [hn] at hm
      unfold moveOf at hm
      dsimp only at hm ⊢
      rw [hm]
      split_ifs <;> simp_all [Move.details]
    | receive q => simp [hm,hn,moveOf,Hashables.source]
    | open_ q => simp [hm,hn,moveOf,Hashables.source]
    | _ => simpa [hm,hn,moveOf,Hashables.source] using h0

/-- The walk finds the block at or below `h` on its chain that receives the send. -/
theorem searchDown_spec (M : Mirrors L X) (fuel : ℕ) (hX : X h = some n) (hf : n.height < fuel) :
    ∃ result, searchDown L s fuel h = some result ∧ ∀ r, result = some r ↔
      ∃ g p, X g = some p ∧ L.blocks[g]? = some r ∧ p.account = n.account ∧
        p.height ≤ n.height ∧ p.move = .receive s := by
  induction fuel generalizing h n with
  | zero => omega
  | succ fuel ih =>
    obtain ⟨r,hr,hst⟩ := M.get hX
    have hread := eq_comm.trans (sourceRead_eq hb hs hX hst)
    unfold searchDown
    rw [hr]
    dsimp only
    by_cases hsend : s = sourceRead r
    · rw [if_pos hsend]
      refine ⟨some r,rfl,fun r' => ⟨?_,?_⟩⟩
      · rintro ⟨rfl⟩
        exact ⟨h,n,hX,hr,rfl,le_rfl,hread.mp hsend⟩
      · rintro ⟨g,p,hg,hr',-,-,hp⟩
        rw [received_once hb hg hX hp (hread.mp hsend),hr] at hr'
        exact hr'
    · rw [if_neg hsend]
      -- a block that receives the send is not this one
      have hlt : ∀ {g p}, X g = some p → p.account = n.account → p.height ≤ n.height →
          p.move = .receive s → p.height < n.height := by
        intro g p hg ha hle hp
        refine lt_of_le_of_ne hle fun he => hsend (hread.mpr ?_)
        obtain rfl := height_unique hb hg hX ha he
        obtain rfl := Option.some.inj (hg.symm.trans hX)
        exact hp
      have hprev := hst.previous
      rw [hprev]
      by_cases hp0 : n.previous = 0
      · have hone := (built_opening hb hX hp0).1
        obtain ⟨fuel,rfl⟩ : ∃ k, fuel = k+1 := ⟨fuel-1,by omega⟩
        rw [hp0,searchDown,M.absent.mpr (built_zero hb)]
        refine ⟨none,rfl,fun r' => ⟨nofun,?_⟩⟩
        rintro ⟨g,p,hg,-,ha,hle,hp⟩
        have := hlt hg ha hle hp
        have := height_pos hb hg
        omega
      · obtain ⟨q,hq,hacc,-,hheight,-⟩ := built_following hb hX hp0
        obtain ⟨result,hres,hiff⟩ := ih hq (by omega)
        refine ⟨result,hres,fun r' => (hiff r').trans ⟨?_,?_⟩⟩
        · rintro ⟨g,p,hg,hr',ha,hle,hp⟩
          exact ⟨g,p,hg,hr',ha.trans hacc,by omega,hp⟩
        · rintro ⟨g,p,hg,hr',ha,hle,hp⟩
          have := hlt hg ha hle hp
          exact ⟨g,p,hg,hr',ha.trans hacc.symm,by omega,hp⟩

end

/-- The search returns the block that receives the send if there is one and it is cemented.
No other block receives it. -/
theorem findReceive_spec (S : HashSound C U) (hL : Reachable C U L) {a : Account}
    (hr : L.blocks[s]? = some r) (ha : sentTo L r = some a) (fuel : ℕ)
    (hfuel : (L.confirmationHeightGet a).height < fuel) :
    (∃ result, findReceiveBlockBySendHash L fuel a s = some result ∧ ∀ q, result = some q ↔
      ∃ g : BlockHash, L.blocks[g]? = some q ∧ receivedFrom C L q = some s ∧
        L.blockConfirmed g = true) ∧
    ∀ (g g' : BlockHash) q q', L.blocks[g]? = some q → L.blocks[g']? = some q' →
      receivedFrom C L q = some s → receivedFrom C L q' = some s → g = g' := by
  obtain ⟨X,V⟩ := reachable_valid S hL
  have M := V.mirrors
  have hb := V.built
  obtain ⟨m,hm,hms⟩ := M.block s r hr
  have hsent := (sentTo_eq M hb hm hms a).mp ha
  -- the blocks that receive the send, in the lattice
  have hrec : ∀ {g : BlockHash} {q}, L.blocks[g]? = some q ∧ receivedFrom C L q = some s ↔
      ∃ p, X g = some p ∧ L.blocks[g]? = some q ∧ p.account = a ∧ p.move = .receive s := by
    intro g q
    constructor
    · rintro ⟨hq,hfrom⟩
      obtain ⟨p,hp,hps⟩ := M.block g q hq
      have hmove := (receivedFrom_eq M hb hp hps hm).mp hfrom
      obtain ⟨m',hm',hsend,-⟩ := built_source hb hp hmove
      obtain rfl := Option.some.inj (hm.symm.trans hm')
      exact ⟨p,hp,hq,Move.send.inj (hsend.symm.trans hsent),hmove⟩
    · rintro ⟨p,hp,hq,-,hmove⟩
      obtain ⟨p',hp',hps⟩ := M.block g q hq
      obtain rfl := Option.some.inj (hp.symm.trans hp')
      exact ⟨hq,(receivedFrom_eq M hb hp hps hm).mpr hmove⟩
  constructor
  · unfold findReceiveBlockBySendHash
    unfold Ledger.confirmationHeightGet at hfuel
    cases hi : L.confirmationHeight[a]? with
    | none =>
      refine ⟨none,rfl,fun q => ⟨nofun,?_⟩⟩
      rintro ⟨g,hq,hfrom,hc⟩
      obtain ⟨p,hp,-,hacc,-⟩ := hrec.mp ⟨hq,hfrom⟩
      obtain ⟨p',hp',hcem⟩ := V.confirmed.mp hc
      obtain rfl := Option.some.inj (hp.symm.trans hp')
      have hpos := height_pos hb hp
      rw [Cemented,hacc,Ledger.confirmationHeightGet,hi] at hcem
      exact absurd (hpos.trans hcem) (by decide)
    | some i =>
      obtain ⟨n,hn,hacc,hheight⟩ := V.frontier a i hi
      rw [hi,Option.getD_some,← hheight] at hfuel
      obtain ⟨result,hres,hiff⟩ := searchDown_spec hb hm M fuel hn hfuel
      have hcem : ∀ {p : Node}, p.account = a → (Cemented L p ↔ p.height ≤ n.height) := by
        intro p hp
        rw [Cemented,hp,Ledger.confirmationHeightGet,hi,Option.getD_some,hheight]
      refine ⟨result,hres,fun q => (hiff q).trans ⟨?_,?_⟩⟩
      · rintro ⟨g,p,hg,hq,hpa,hle,hp⟩
        have hpa' := hpa.trans hacc
        obtain ⟨-,hfrom⟩ := hrec.mpr ⟨p,hg,hq,hpa',hp⟩
        exact ⟨g,hq,hfrom,V.confirmed.mpr ⟨p,hg,(hcem hpa').mpr hle⟩⟩
      · rintro ⟨g,hq,hfrom,hc⟩
        obtain ⟨p,hp,-,hpa,hmove⟩ := hrec.mp ⟨hq,hfrom⟩
        obtain ⟨p',hp',hc⟩ := V.confirmed.mp hc
        obtain rfl := Option.some.inj (hp.symm.trans hp')
        exact ⟨g,p,hp,hq,hpa.trans hacc.symm,(hcem hpa).mp hc,hmove⟩
  · intro g g' q q' hq hq' hfrom hfrom'
    obtain ⟨p,hp,-,-,hmove⟩ := hrec.mp ⟨hq,hfrom⟩
    obtain ⟨p',hp',-,-,hmove'⟩ := hrec.mp ⟨hq',hfrom'⟩
    exact received_once hb hp hp' hmove hmove'

theorem findReceive_spec_sample : ∃ r, sampleCemented.blocks[(6 : BlockHash)]? = some r ∧
    findReceiveBlockBySendHash sampleCemented 2 7 3 = some (some r) := by
  have hs : sampleCemented.blocks[(3 : BlockHash)]?.bind (sentTo sampleCemented) = some 7 := by
    decide +kernel
  have hq : sampleCemented.blocks[(6 : BlockHash)]?.bind (receivedFrom sample sampleCemented) =
      some 3 := by decide +kernel
  obtain ⟨r,hr,hs⟩ := Option.bind_eq_some_iff.mp hs
  obtain ⟨q,hq,hfrom⟩ := Option.bind_eq_some_iff.mp hq
  obtain ⟨⟨result,hres,hiff⟩,-⟩ := findReceive_spec sample_sound sampleCemented_reachable hr hs 2
    (by decide +kernel)
  rw [(hiff q).mpr ⟨6,hq,hfrom,by decide +kernel⟩] at hres
  exact ⟨q,hq,hres⟩

end Vxldollar.Receipts
