import Vxldollar.Epochs
import Vxldollar.Independence
import Vxldollar.Structure

/-!
# Replaying a ledger

A bootstrapping node processes the blocks of a ledger in some order, starting
from the genesis block. Every acceptance condition of a stored block is still
met when its dependencies come first, but for one: an epoch block that opens an
account needs something to receive, and the send it was accepted on may be gone
by a rollback. A ledger can be replayed exactly when each account that an epoch
block opened is sent to by some block of the ledger.
-/

namespace Vxldollar.Replay
open Blocks Store Vxldollar.Lattice Chains Heights Mirror Process Commits ProcessSpec Acceptance
  Certificates Runs Independence Structure Function List Option Std.ExtTreeMap

section
variable (C : Constants)

def replay (now : ℕ) : Ledger → List Block → Option Ledger
  | L, [] => some L
  | L, b :: bs => (process C now L b .unknown).bind (fun out =>
      if out.1.code = .progress then replay now out.2 bs else none)

structure OrderOf (L : Ledger) (bs : List Block) : Prop where
  once : (bs.map C.blockHash).Nodup
  stored : ∀ b ∈ bs, C.blockHash b ≠ C.genesisHash ∧
    ∃ r, L.blocks[C.blockHash b]? = some r ∧ r.block = b
  all : ∀ (h : BlockHash) (r : StoredBlock), L.blocks[h]? = some r → h ≠ C.genesisHash →
    r.block ∈ bs

/-- A fresh ledger accepts the blocks in some order and is then the same
ledger up to local times. -/
def Replayable (L : Ledger) : Prop := ∃ bs, OrderOf C L bs ∧ ∀ now, ∃ L',
  replay C now (storeInitialize C now) bs = some L' ∧ Agree L L'

end

/-- Each account that an epoch block opened is sent to by a block of the
ledger. -/
def OpensFunded (L : Ledger) : Prop := ∀ (h : BlockHash) (r : StoredBlock),
  L.blocks[h]? = some r → r.sideband.details.isEpoch = true → r.block.previous = 0 →
  ∃ (g : BlockHash) (q : StoredBlock), L.blocks[g]? = some q ∧ sentTo L q = some r.block.account

variable {C : Constants} {U : Set Hashables} {S : HashSound C U} {X : Nodes} {L : Ledger}
  {h g k : BlockHash} {n m : Node} {b : Block}

def Endowed (X : Nodes) : Prop := ∀ o n, X o = some n → n.move = .upgrade → n.previous = 0 →
  ∃ g m, X g = some m ∧ m.move = .send n.account

theorem exists_maximal (hb : Built S X) (hk : X k = some n) (hs : k ≠ C.genesisHash) :
    ∃ g m, X g = some m ∧ g ≠ C.genesisHash ∧ Causal.Maximal (rules S) X g := by
  obtain ⟨rank,bound,hbound,hdeps⟩ := Causal.Built.ranked hb
  induction hd : bound-rank k using Nat.strong_induction_on generalizing k n with
  | _ d ih =>
    by_cases hm : Causal.Maximal (rules S) X k
    · exact ⟨k,n,hk,hs,hm⟩
    · unfold Causal.Maximal at hm
      push Not at hm
      obtain ⟨g,m,hg,hmem⟩ := hm
      have hlt := hdeps g m k hg hmem
      have hb' := hbound g m hg
      refine ih (bound-rank g) (by omega) hg ?_ rfl
      rintro rfl
      cases hg.symm.trans (built_genesis hb)
      exact genesis_deps C k hmem

theorem upgrade_state (hb : Built S X) (hX : X h = some n) (hm : n.move = .upgrade) :
    ¬ n.legacy := by
  obtain ⟨k,hk,-⟩ := upgrade_form hb hX hm
  rw [Node.legacy,hk,not_not]
  rfl

theorem idle_chain (hb : Built S X) (ho : X h = some n) (hup : n.move = .upgrade)
    (h0 : n.previous = 0)
    (hno : ∀ g m, X g = some m → m.account = n.account → ∀ s, m.move ≠ .receive s)
    (hg : X g = some m) (hacc : m.account = n.account) :
    m.balance = 0 ∧ ¬ m.legacy ∧ ∀ d, m.move ≠ .send d := by
  induction hd : m.height generalizing g m with
  | zero =>
    have := height_pos hb hg
    omega
  | succ d ih =>
    by_cases hp : m.previous = 0
    · obtain rfl := one_opening hb hg ho hacc hp h0
      cases hg.symm.trans ho
      refine ⟨?_,upgrade_state hb hg hup,by rw [hup]; rintro _ ⟨⟩⟩
      rcases built_justified hb hg with ⟨-,rfl⟩ | hj
      · cases hup
      · have hc := hj.covered
        unfold Covered at hc
        rw [hup] at hc
        rw [hc,hp,built_zero hb]
        rfl
    · obtain ⟨p,hp',hpa,hpl,hph,-⟩ := built_following hb hg hp
      obtain ⟨hbal,hleg,-⟩ := ih hp' (hpa.trans hacc) (by omega)
      rcases built_justified hb hg with ⟨-,rfl⟩ | hj
      · exact absurd rfl hp
      have hl : ¬ m.legacy := fun hl => hleg (hpl hl)
      have hsend : ∀ d, m.move ≠ .send d := by
        intro d hm
        have hmove := justified_move hj
        rw [hp'] at hmove
        change m.move = moveOf C m.hashables p.balance at hmove
        rw [hbal,hm] at hmove
        cases hh : m.hashables with
        | state s =>
          rw [hh] at hmove
          simp only [moveOf] at hmove
          have hz : ¬ s.balance < (0 : Amount) := BitVec.not_lt_zero
          rw [if_neg hz] at hmove
          split_ifs at hmove
        | _ =>
          rw [Node.legacy,hh] at hl
          exact hl (by rintro ⟨⟩)
      refine ⟨?_,hl,hsend⟩
      have hc := hj.covered
      unfold Covered at hc
      cases hm : m.move with
      | send d => exact absurd hm (hsend d)
      | receive s => exact absurd hm (hno g m hg hacc s)
      | keep =>
        rw [hm,hp'] at hc
        exact hc.trans hbal
      | upgrade =>
        rw [hm,hp'] at hc
        exact hc.trans hbal

theorem drop_eq_some : update X g none k = some n ↔ k ≠ g ∧ X k = some n := by
  by_cases e : k = g
  · simp [e]
  · simp [e]

theorem endowed_drop
    (hg : ∀ o x, X o = some x → x.move = .upgrade → x.previous = 0 → o ≠ g →
      ∃ k y, k ≠ g ∧ X k = some y ∧ y.move = .send x.account) :
    Endowed (update X g none) := by
  intro o x ho hup h0
  obtain ⟨hne,hX⟩ := drop_eq_some.mp ho
  obtain ⟨k,y,hk,hy,hm⟩ := hg o x hX hup h0 hne
  exact ⟨k,y,drop_eq_some.mpr ⟨hk,hy⟩,hm⟩

/-- Some block that nothing depends on can be dropped from an endowed lattice.
The last send to an account that an upgrade opened is not dropped before the
account's own blocks. -/
theorem peel (hb : Built S X) (he : Endowed X) (hk : X k = some n) (hs : k ≠ C.genesisHash) :
    ∃ g m, X g = some m ∧ g ≠ C.genesisHash ∧ Causal.Maximal (rules S) X g ∧
      Endowed (update X g none) := by
  obtain ⟨g,m,hg,hgen,hmax⟩ := exists_maximal hb hk hs
  by_cases hlast : ∃ o x, X o = some x ∧ x.move = .upgrade ∧ x.previous = 0 ∧ o ≠ g ∧
      ∀ k y, X k = some y → y.move = .send x.account → k = g
  · obtain ⟨o,x,ho,hup,h0,-,honly⟩ := hlast
    -- nothing was received by the account, so its head is free
    have hno : ∀ k y, X k = some y → y.account = x.account → ∀ s, y.move ≠ .receive s := by
      intro k y hy hacc s hm
      obtain ⟨z,hz,hzm,-⟩ := built_source hb hy hm
      rw [hacc] at hzm
      obtain rfl := honly s z hz hzm
      exact hmax k y hy (.inr hm)
    obtain ⟨t,y,hh,hacc,-⟩ := head_exists hb ho
    have hidle := idle_chain hb ho hup h0 hno hh.1 hacc
    refine ⟨t,y,hh.1,?_,?_,endowed_drop ?_⟩
    · rintro rfl
      cases hh.1.symm.trans (built_genesis hb)
      exact hidle.2.1 nofun
    · rintro k z hz (⟨hp,-⟩ | hm)
      · exact hh.2 k z hz hp.symm
      · obtain ⟨w,hw,hwm,-⟩ := built_source hb hz hm
        cases hh.1.symm.trans hw
        exact hidle.2.2 _ hwm
    · intro o' x' ho' hup' h0' _
      obtain ⟨k,z,hz,hzm⟩ := he o' x' ho' hup' h0'
      refine ⟨k,z,?_,hz,hzm⟩
      rintro rfl
      cases hh.1.symm.trans hz
      exact hidle.2.2 _ hzm
  · push Not at hlast
    refine ⟨g,m,hg,hgen,hmax,endowed_drop ?_⟩
    intro o x ho hup h0 hne
    obtain ⟨k,y,hy,hym,hkg⟩ := hlast o x ho hup h0 hne
    exact ⟨k,y,hkg,hy,hym⟩

theorem replay_append (now : ℕ) (L : Ledger) (bs cs : List Block) :
    replay C now L (bs ++ cs) = (replay C now L bs).bind (fun L' => replay C now L' cs) := by
  induction bs generalizing L with
  | nil => rfl
  | cons b bs ih =>
    rw [cons_append,replay,replay,bind_assoc]
    congr 1
    funext out
    split_ifs
    · exact ih out.2
    · rfl

theorem replay_one {now : ℕ} {L L' : Ledger} {result : ProcessReturn}
    (hp : process C now L b .unknown = some (result,L')) (hc : result.code = .progress) :
    replay C now L [b] = some L' := by
  rw [replay,hp,bind_some,if_pos hc]
  rfl

theorem dropped_acceptable (hb : Built S X) (he : Endowed X) (hX : X g = some n)
    (hgen : g ≠ C.genesisHash) (hmax : Causal.Maximal (rules S) X g)
    (hbn : b.hashables = n.hashables) (hc : Certified C X b n) :
    Acceptable C U (update X g none) b .unknown n ∧ C.blockHash b = g := by
  have hhash : C.blockHash b = g := by
    rw [Constants.blockHash,hbn]
    exact (built_hash hb hX).1
  obtain ⟨-,hadm⟩ := Causal.Built.drop hb hX hgen hmax
  have hprev : update X g none n.previous = X n.previous := by
    apply update_of_ne
    intro e
    by_cases h0 : n.previous = 0
    · exact built_key_ne_zero hb hX (e ▸ h0)
    · exact hmax g n hX (.inl ⟨e.symm,e ▸ h0⟩)
  have hc' := hc.congr hprev.symm
  refine ⟨⟨?_,?_,hc'.signed,hc'.worked,hc'.opens,fun hup => ⟨hc'.representative hup,?_⟩⟩,hhash⟩
  · rw [hhash]
    exact update_self ..
  · rw [hhash]
    exact hadm
  · cases hp : update X g none n.previous with
    | some p => exact hc'.sequential hup p hp
    | none =>
      -- the account has no block left that could have received the send
      have h0 : n.previous = 0 := by
        by_contra h0
        obtain ⟨p,hp',-⟩ := built_following hb hX h0
        rw [hprev,hp'] at hp
        cases hp
      obtain ⟨k,y,hy,hym⟩ := he g n hX hup h0
      have hkg : k ≠ g := by
        rintro rfl
        cases hX.symm.trans hy
        rw [hup] at hym
        cases hym
      refine ⟨k,y,drop_eq_some.mpr ⟨hkg,hy⟩,hym,fun t z hz hzm => ?_⟩
      obtain ⟨htg,hz'⟩ := drop_eq_some.mp hz
      obtain ⟨w,hw,hwm,-⟩ := built_source hb hz' hzm
      cases hy.symm.trans hw
      have hacc : n.account = z.account := Move.send.inj (hym.symm.trans hwm)
      exact hadm.unopened h0 t z hz hacc.symm

/-- An endowed lattice of certified blocks can be rebuilt from genesis. -/
theorem rebuild (hb : Built S X) (he : Endowed X) (blockOf : BlockHash → Block)
    (hc : ∀ h n, X h = some n → h ≠ C.genesisHash →
      (blockOf h).hashables = n.hashables ∧ Certified C X (blockOf h) n) :
    ∃ bs, (bs.map C.blockHash).Nodup ∧
      (∀ b, b ∈ bs ↔ ∃ h n, X h = some n ∧ h ≠ C.genesisHash ∧ b = blockOf h) ∧
      ∀ now, ∃ L', replay C now (storeInitialize C now) bs = some L' ∧ Valid S L' X := by
  induction hd : {k | X k ≠ none}.ncard generalizing X with
  | zero =>
    have := (Set.ncard_eq_zero (Causal.Built.finite hb)).mp hd
    have hg : C.genesisHash ∈ {k | X k ≠ none} := by
      change X C.genesisHash ≠ none
      rw [built_genesis hb]
      exact nofun
    rw [this] at hg
    cases hg
  | succ d ih =>
    by_cases hone : ∃ k n, X k = some n ∧ k ≠ C.genesisHash
    · obtain ⟨k,n,hk,hs⟩ := hone
      obtain ⟨g,m,hg,hgen,hmax,he'⟩ := peel hb he hk hs
      obtain ⟨hb',-⟩ := Causal.Built.drop hb hg hgen hmax
      obtain ⟨hbm,hcm⟩ := hc g m hg hgen
      obtain ⟨hA,hhash⟩ := dropped_acceptable hb he hg hgen hmax hbm hcm
      have hcard : {k | update X g none k ≠ none}.ncard = d := by
        have hset : {k | update X g none k ≠ none} = {k | X k ≠ none} \ {g} := by
          ext k
          by_cases e : k = g
          · simp [e]
          · simp [e]
        have hgm : g ∈ {k | X k ≠ none} := by
          change X g ≠ none
          rw [hg]
          exact nofun
        rw [hset,Set.ncard_sdiff_singleton_of_mem hgm,hd]
        rfl
      obtain ⟨bs,hnodup,hmem,hreplay⟩ := ih hb' he' (fun h n hn hne => by
        obtain ⟨hng,hX⟩ := drop_eq_some.mp hn
        obtain ⟨h1,h2⟩ := hc h n hX hne
        refine ⟨h1,h2.congr (update_of_ne ?_ _ _).symm⟩
        intro e
        by_cases h0 : n.previous = 0
        · exact built_key_ne_zero hb hg (e ▸ h0)
        · exact hmax h n hX (.inl ⟨e.symm,e ▸ h0⟩)) hcard
      refine ⟨bs ++ [blockOf g],?_,fun b => ?_,fun now => ?_⟩
      · rw [map_append,map_singleton,hhash]
        refine nodup_append.mpr ⟨hnodup,nodup_singleton g,?_⟩
        rintro x hx y hy rfl
        obtain rfl := mem_singleton.mp hy
        obtain ⟨b,hb',hbx⟩ := mem_map.mp hx
        obtain ⟨h,n,hn,hne,rfl⟩ := (hmem b).mp hb'
        obtain ⟨hng,hX⟩ := drop_eq_some.mp hn
        apply hng
        rw [← hbx,Constants.blockHash,(hc h n hX hne).1]
        exact (built_hash hb hX).1.symm
      · rw [mem_append,mem_singleton,hmem]
        constructor
        · rintro (⟨h,n,hn,hne,rfl⟩ | rfl)
          · exact ⟨h,n,(drop_eq_some.mp hn).2,hne,rfl⟩
          · exact ⟨g,m,hg,hgen,rfl⟩
        · rintro ⟨h,n,hn,hne,rfl⟩
          by_cases e : h = g
          · exact .inr (e ▸ rfl)
          · exact .inl ⟨h,n,drop_eq_some.mpr ⟨e,hn⟩,hne,rfl⟩
      · obtain ⟨L',hL',V'⟩ := hreplay now
        obtain ⟨result,L'',hp,hcode,-,V''⟩ := valid_accepts V' now hbm honest_unknown hA
        refine ⟨L'',?_,?_⟩
        · rw [replay_append,hL',bind_some,replay_one hp hcode]
        · rw [hhash,add,update_idem,← hg,update_eq_self] at V''
          exact V''
    · push Not at hone
      have hX : X = genesisNodes C := by
        apply built_determined hb (start_valid S 0).built
        intro h
        constructor
        · rintro ⟨n,hn⟩
          obtain rfl := hone h n hn
          exact ⟨_,built_genesis (start_valid S 0).built⟩
        · rintro ⟨n,hn⟩
          rw [(genesisNodes_eq_some.mp hn).1]
          exact ⟨_,built_genesis hb⟩
      subst hX
      refine ⟨[],nodup_nil,fun b => ?_,fun now => ⟨_,rfl,start_valid S now⟩⟩
      constructor
      · intro hmem
        cases hmem
      · rintro ⟨h,n,hn,hne,-⟩
        exact absurd (hone h n hn) hne

section
variable {now : ℕ} {L' : Ledger} {Y : Nodes}

theorem gap_refused {verified : SignatureVerification} (he : EpochSigned C b) (h0 : b.previous ≠ 0)
    (hp : L.blocks[b.previous]? = none) :
    ¬ Accepted (process C now L b verified) := by
  obtain ⟨signer,hs,-⟩ := he
  have hlink := epochLink_of_signer hs
  rw [process_accepted]
  obtain ⟨hs',sig,work⟩ := b
  cases hs' with
  | state k =>
    have hgap : k.previous ≠ 0 ∧ ¬ L.blocks.contains k.previous = true := by
      refine ⟨h0,?_⟩
      rw [contains_eq_isSome_getElem?]
      change ¬ (L.blocks[(Block.mk (.state k) sig work).previous]?).isSome = true
      rw [hp]
      exact nofun
    obtain ⟨code,v,hcode,hne⟩ := gapEpochBlock_code ⟨.state k,sig,work⟩ verified hlink
    have hout : visit C now L ⟨.state k,sig,work⟩ verified = reject L code v none := by
      change stateBlock C now L ⟨.state k,sig,work⟩ k verified = _
      unfold stateBlock
      have hlink' : C.isEpochLink k.link = true := hlink
      rw [if_pos hlink',if_pos hgap,hcode,bind_eq_bind,bind_some]
    rw [hout]
    exact accepted_reject hne
  | _ => exact absurd rfl (epoch_links _ hlink).1

theorem signed_state (he : EpochSigned C b) (hbn : b.hashables = n.hashables) :
    n.hashables.type = .state := by
  obtain ⟨signer,hs,-⟩ := he
  have hlink := epochLink_of_signer hs
  rw [Block.link,hbn] at hlink
  cases hh : n.hashables with
  | state k => rfl
  | _ =>
    rw [hh] at hlink
    exact absurd rfl (epoch_links _ hlink).1

/-- What a replay of blocks of a lattice builds: a part of the lattice, in
which upgrades opened accounts that the lattice sends to. -/
structure Partly (X Y : Nodes) : Prop where
  sub : ∀ h n, Y h = some n → X h = some n
  funded : ∀ o n, Y o = some n → n.move = .upgrade → n.previous = 0 →
    ∃ g m, X g = some m ∧ m.move = .send n.account

variable (hX : Built S X) (V : Valid S L Y) (P : Partly X Y)
include hX V P

theorem replay_step {result : ProcessReturn} (hn : X (C.blockHash b) = some n)
    (hbn : b.hashables = n.hashables) (hp : process C now L b .unknown = some (result,L'))
    (hc : result.code = .progress) :
    ∃ Z, Valid S L' Z ∧ Partly X Z ∧ Z (C.blockHash b) = some n ∧
      ∀ h m, Y h = some m → Z h = some m := by
  have hU : b.hashables ∈ U := hbn ▸ (built_hash hX hn).2
  have hh : Honest C L b .unknown := ⟨nofun,nofun⟩
  have hacc : Accepted (process C now L b .unknown) := ⟨result,L',hp,hc⟩
  have ho : EpochOpens C L b := by
    intro hsigned hfree
    by_contra h0
    have hn0 : n.previous ≠ 0 := by rwa [Node.previous,← hbn]
    obtain ⟨p,hpX,hpa,-⟩ := built_following hX hn hn0
    cases hY : Y n.previous with
    | none =>
      refine gap_refused hsigned h0 ?_ hacc
      rw [Block.previous,hbn]
      exact V.mirrors.absent.mpr hY
    | some p' =>
      cases hpX.symm.trans (P.sub _ _ hY)
      refine (V.mirrors.unopened V.built _).mp hfree _ p hY (hpa.trans ?_)
      rw [Block.account,hbn]
      exact ((built_account_field hX hn).1 (.inr (signed_state hsigned hbn))).symm
  obtain ⟨-,hk,-,-,V'⟩ := (V.processed hU hh ho hp).resolve_left fun h => h.1 hc
  generalize hm : nodeFor C Y b.hashables = m at V'
  have hself : add Y (C.blockHash b) m (C.blockHash b) = some m :=
    add_new
  have hsub : ∀ h x, add Y (C.blockHash b) m h = some x → X h = some x := by
    intro h x
    apply built_subset V'.built hX
    intro g y hy
    rcases (add_eq_some hk).mp hy with ⟨rfl,-⟩ | hy
    · exact ⟨n,hn⟩
    · exact ⟨y,P.sub g y hy⟩
  cases (hsub _ _ hself).symm.trans hn
  refine ⟨_,V',⟨hsub,fun o x hx hup h0 => ?_⟩,hself,fun h x hx => add_old hk hx⟩
  rcases (add_eq_some hk).mp hx with ⟨rfl,rfl⟩ | hx
  · have hA := (process_accepts_iff now V.mirrors V.built hU V.supply_lt hh ho).mp hacc
    rw [hm] at hA
    have hany := (hA.upgradable hup).2
    rw [h0,built_zero V.built] at hany
    obtain ⟨g,y,hy,hym,-⟩ := hany
    exact ⟨g,y,P.sub g y hy,hym⟩
  · exact P.funded o x hx hup h0

theorem replay_partly {bs : List Block}
    (hbs : ∀ b ∈ bs, ∃ n, X (C.blockHash b) = some n ∧ b.hashables = n.hashables)
    (hr : replay C now L bs = some L') :
    ∃ Z, Partly X Z ∧ (∀ b ∈ bs, ∃ n, Z (C.blockHash b) = some n) ∧
      ∀ h m, Y h = some m → Z h = some m := by
  induction bs generalizing L Y with
  | nil => exact ⟨Y,P,fun b hb => absurd hb not_mem_nil,fun h m hm => hm⟩
  | cons b bs ih =>
    obtain ⟨⟨result,L₁⟩,hp,hr⟩ := bind_eq_some_iff.mp hr
    obtain ⟨n,hn,hbn⟩ := hbs b mem_cons_self
    by_cases hc : result.code = .progress
    · rw [if_pos hc] at hr
      obtain ⟨Z₁,V₁,P₁,hself,hmono⟩ := replay_step hX V P hn hbn hp hc
      obtain ⟨Z,PZ,hall,hmono'⟩ :=
        ih V₁ P₁ (fun c hcm => hbs c (mem_cons_of_mem _ hcm)) hr
      refine ⟨Z,PZ,fun c hcm => ?_,fun h m hm => hmono' h m (hmono h m hm)⟩
      rcases mem_cons.mp hcm with rfl | hcm
      · exact ⟨n,hmono' _ _ hself⟩
      · exact hall c hcm
    · rw [if_neg hc] at hr
      cases hr

end

section
variable {r : StoredBlock}

section
variable (hb : Built S X) (hX : X h = some n) (hs : Stores X h n r)
include hb hX hs

theorem isEpoch_iff :
    r.sideband.details.isEpoch = true ↔ n.move = .upgrade := by
  rcases Epochs.stored_details hs with ⟨hl,hd⟩ | ⟨k,-,hd⟩
  · rw [hd]
    constructor
    · intro he
      cases he
    · intro hm
      exact absurd hl (upgrade_state hb hX hm)
  · rw [hd]
    cases n.move <;> simp [Move.details]

theorem stores_own_account (hm : n.move = .upgrade) : r.block.account = n.account := by
  have hstate : n.hashables.type = .state := not_not.mp (upgrade_state hb hX hm)
  rw [Block.account,hs.hashables]
  exact (built_account_field hb hX).1 (.inr hstate)

end

theorem endowed_iff (M : Mirrors L X) (hb : Built S X) : Endowed X ↔ OpensFunded L := by
  constructor
  · intro he h r hr hep h0
    obtain ⟨n,hn,hs⟩ := M.block h r hr
    have hm := (isEpoch_iff hb hn hs).mp hep
    rw [Block.previous,hs.hashables] at h0
    obtain ⟨g,m,hg,hgm⟩ := he h n hn hm h0
    obtain ⟨q,hq,hsq⟩ := M.get hg
    rw [stores_own_account hb hn hs hm]
    exact ⟨g,q,hq,(sentTo_eq M hb hg hsq _).mpr hgm⟩
  · intro hf o n hn hm h0
    obtain ⟨r,hr,hs⟩ := M.get hn
    have hp : r.block.previous = 0 := by
      rw [Block.previous,hs.hashables]
      exact h0
    obtain ⟨g,q,hq,hsent⟩ := hf o r hr ((isEpoch_iff hb hn hs).mpr hm) hp
    obtain ⟨m,hg,hsq⟩ := M.block g q hq
    rw [stores_own_account hb hn hs hm] at hsent
    exact ⟨g,m,hg,(sentTo_eq M hb hg hsq _).mp hsent⟩

theorem funded_replayable (V : Valid S L X) (hc : Certifies C L X) (hf : OpensFunded L) :
    Replayable C L := by
  let blockOf : BlockHash → Block := fun h => (L.blocks[h]?.map StoredBlock.block).getD C.genesis
  have hget : ∀ h r, L.blocks[h]? = some r →
      blockOf h = r.block := by
    intro h r hr
    change (L.blocks[h]?.map StoredBlock.block).getD C.genesis = r.block
    rw [hr]
    rfl
  have he : Endowed X := (endowed_iff V.mirrors V.built).mpr hf
  have hcert : ∀ h n, X h = some n → h ≠ C.genesisHash →
      (blockOf h).hashables = n.hashables ∧ Certified C X (blockOf h) n := by
    intro h n hn hne
    obtain ⟨r,hr,hs⟩ := V.mirrors.get hn
    rw [hget h r hr]
    exact ⟨hs.hashables,hc h r n hr hn hne⟩
  obtain ⟨bs,hnodup,hmem,hreplay⟩ := rebuild V.built he blockOf hcert
  refine ⟨bs,⟨hnodup,fun b hb => ?_,fun h r hr hne => ?_⟩,fun now => ?_⟩
  · obtain ⟨h,n,hn,hne,rfl⟩ := (hmem b).mp hb
    obtain ⟨r,hr,-⟩ := V.mirrors.get hn
    rw [hget h r hr,stored_hash V.mirrors V.built hr]
    exact ⟨hne,r,hr,rfl⟩
  · obtain ⟨n,hn,-⟩ := V.mirrors.block h r hr
    exact (hmem r.block).mpr ⟨h,n,hn,hne,(hget h r hr).symm⟩
  · obtain ⟨L',hL',V'⟩ := hreplay now
    exact ⟨L',hL',mirrors_agree V.built V.mirrors V'.mirrors V.defect V'.defect⟩

theorem accepted_funded (V : Valid S L X) {bs : List Block} (hbs : OrderOf C L bs) {now : ℕ}
    {L' : Ledger} (hr : replay C now (storeInitialize C now) bs = some L') : OpensFunded L := by
  have hnode : ∀ b ∈ bs, ∃ n, X (C.blockHash b) = some n ∧ b.hashables = n.hashables := by
    intro b hb
    obtain ⟨-,r,hr,rfl⟩ := hbs.stored b hb
    obtain ⟨n,hn,hs⟩ := V.mirrors.block _ r hr
    exact ⟨n,hn,hs.hashables⟩
  have P : Partly X (genesisNodes C) := by
    constructor
    · intro h n hn
      obtain ⟨rfl,rfl⟩ := genesisNodes_eq_some.mp hn
      exact built_genesis V.built
    · intro o n hn hm
      obtain ⟨-,rfl⟩ := genesisNodes_eq_some.mp hn
      cases hm
  obtain ⟨Z,PZ,hall,-⟩ := replay_partly V.built (start_valid S now) P hnode hr
  refine (endowed_iff V.mirrors V.built).mp fun o n hn hm h0 => ?_
  obtain ⟨r,hr,-⟩ := V.mirrors.get hn
  have hne : o ≠ C.genesisHash := by
    rintro rfl
    cases hn.symm.trans (built_genesis V.built)
    cases hm
  obtain ⟨m,hZ⟩ := hall r.block (hbs.all o r hr hne)
  rw [stored_hash V.mirrors V.built hr] at hZ
  cases hn.symm.trans (PZ.sub o m hZ)
  exact PZ.funded o n hZ hm h0

end

/-- A reachable ledger can be rebuilt by a fresh one exactly when each account
that an epoch block opened is sent to by a block of the ledger. -/
theorem replayable_iff (S : HashSound C U) (hr : Reachable C U L) :
    Replayable C L ↔ OpensFunded L := by
  obtain ⟨X,V,hc⟩ := reachable_certified S hr
  constructor
  · rintro ⟨bs,hbs,hreplay⟩
    obtain ⟨L',hL',-⟩ := hreplay 0
    exact accepted_funded V hbs hL'
  · exact funded_replayable V hc

def orphanUpgrade : Block := ⟨.state ⟨7,0,0,0,epochLinkV1⟩,0,0⟩

abbrev orphanBlocks : Set Hashables := sentWith orphanUpgrade

theorem orphan_sound : HashSound sample orphanBlocks := sentWith_sound (by decide) (by decide)

def orphanOpened : Ledger := processed sample sampleSent orphanUpgrade

theorem orphanOpened_reachable : Reachable sample orphanBlocks orphanOpened :=
  sentWith_reachable (by decide) (by decide) (fun _ _ => rfl)

theorem replayable_iff_sample : (orphanOpened.blocks[(6 : BlockHash)]?).any
      (fun r => r.sideband.details.isEpoch) = true ∧ Replayable sample orphanOpened := by
  refine ⟨by decide +kernel,(replayable_iff orphan_sound orphanOpened_reachable).mpr ?_⟩
  intro h r hr he h0
  have hopens : orphanOpened.blocks.toList.all (fun e => !e.2.sideband.details.isEpoch ||
      e.2.block.account == 7) = true := by decide +kernel
  have hsend : orphanOpened.blocks[(3 : BlockHash)]?.bind (sentTo orphanOpened) = some 7 := by
    decide +kernel
  have hmem := all_eq_true.mp hopens _ (mem_toList_iff_getElem?_eq_some.mpr hr)
  rw [he,Bool.not_true,Bool.false_or,beq_iff_eq] at hmem
  obtain ⟨q,hq,hsent⟩ := bind_eq_some_iff.mp hsend
  exact ⟨3,q,hq,hmem ▸ hsent⟩

def orphan : Ledger :=
  ((Rollback.rollback sample 1 3 orphanOpened 3 []).map (fun r => r.2.1)).getD orphanOpened

theorem orphan_reachable : Reachable sample orphanBlocks orphan := by
  obtain ⟨⟨e,L,list⟩,hr⟩ : ∃ r, Rollback.rollback sample 1 3 orphanOpened 3 [] = some r :=
    isSome_iff_exists.mp (by decide +kernel)
  unfold orphan
  rw [hr]
  exact orphanOpened_reachable.rollback (by decide +kernel) hr

/-- The rollback of a send leaves the epoch block that was accepted on it, and
no order of the blocks left is accepted. -/
theorem replay_fails : Reachable sample orphanBlocks orphan ∧
    orphan.confirmationHeight.toList = [(1,⟨1,2⟩)] ∧
    ∀ bs, OrderOf sample orphan bs → ∀ now,
      replay sample now (storeInitialize sample now) bs = none := by
  refine ⟨orphan_reachable,by decide +kernel,fun bs hbs now => ?_⟩
  rw [eq_none_iff_forall_ne_some]
  intro L' hL'
  obtain ⟨X,V⟩ := reachable_valid orphan_sound orphan_reachable
  have hf := accepted_funded V hbs hL'
  obtain ⟨r,hr⟩ : ∃ r, orphan.blocks[(6 : BlockHash)]? = some r :=
    isSome_iff_exists.mp (by decide +kernel)
  have hopens : (orphan.blocks[(6 : BlockHash)]?).all (fun r => r.sideband.details.isEpoch &&
      r.block.previous == 0 && r.block.account == 7) = true := by
    decide +kernel
  have hsends : orphan.blocks.toList.all (fun e => sentTo orphan e.2 != some 7) = true := by
    decide +kernel
  rw [hr] at hopens
  simp only [all_some,Bool.and_eq_true,beq_iff_eq] at hopens
  obtain ⟨g,q,hq,hsent⟩ := hf 6 r hr hopens.1.1 hopens.1.2
  rw [hopens.2] at hsent
  have hmem := mem_toList_iff_getElem?_eq_some.mpr hq
  have := all_eq_true.mp hsends _ hmem
  rw [hsent] at this
  simp at this
end Vxldollar.Replay
