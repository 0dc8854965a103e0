import Vxldollar.Successors
import Vxldollar.Voting

/-!
# Final votes of one node

A final vote is signed for a block that the table `final_votes` has locked or
that is cemented, as long as the blocks named by the table stay in the ledger.
Two such blocks share a ledger, and a ledger has one block for each qualified
root, as long as an epoch block for an unopened account has no predecessor. Once
a named block has been rolled back, a request finds the table entry without its
block and the election winner is signed in its place.
-/

namespace Vxldollar.FinalVotes
open Blocks Store Vxldollar.Lattice Chains Mirror Confirmation Runs Voting List
open Elections (timestampMax)

section
variable (C : Constants) (U : Set Hashables)

/-- No two final votes name different blocks with one qualified root. -/
def FinalsUnique (s : State) : Prop := ∀ v ∈ s.signed, ∀ w ∈ s.signed, ∀ b c : Block,
  b.hashables ∈ U → c.hashables ∈ U → C.blockHash b ∈ v.blocks → C.blockHash c ∈ w.blocks →
  b.qualifiedRoot = c.qualifiedRoot → C.blockHash b = C.blockHash c

/-- The blocks that the table names are in the ledger after the step. -/
def KeepsVoted (s t : State) : Prop := ∀ (q : QualifiedRoot) (h : BlockHash),
  s.finalVotes[q]? = some h → t.ledger.blocks.contains h = true

/-- Runs that keep the voted blocks, in which every accepted epoch-signed block for an
unopened account has no predecessor. -/
def KeepingRun (P : Config) : State → State → Prop :=
  Relation.ReflTransGen (fun s t => Step C P U (Framing.Offer.Careful C) s t ∧ KeepsVoted s t)

end

variable {C : Constants} {U : Set Hashables} {S : HashSound C U} {X : Nodes} {L L' : Ledger}
  {P : Config} {s t : State} {h g : BlockHash}

structure Keeps (L L' : Ledger) : Prop where
  contains : ∀ h, L.blocks.contains h = true → L'.blocks.contains h = true
  confirmed : ∀ h, L.blockConfirmed h = true → L'.blockConfirmed h = true

section
variable (V : Valid S L X) {now fuel : ℕ}
include V

theorem cemented_kept {Y : Nodes} (V' : Valid S L' Y)
    (hh : ∀ a, (L.confirmationHeightGet a).height ≤ (L'.confirmationHeightGet a).height)
    (hX : ∀ g n, X g = some n → Cemented L n → Y g = some n) (hc : L.blockConfirmed h = true) :
    L'.blockConfirmed h = true := by
  obtain ⟨n,hn,hcem⟩ := V.confirmed.mp hc
  exact V'.confirmed.mpr ⟨n,hX h n hn hcem,hcem.trans (hh n.account)⟩

theorem process_keeps {b : Block} {verified : Process.SignatureVerification}
    {result : Process.ProcessReturn} (hU : b.hashables ∈ U) (hh : ProcessSpec.Honest C L b verified)
    (ho : Framing.Offer.Careful C ⟨L,b,result,L'⟩)
    (hp : Process.process C now L b verified = some (result,L')) :
    (∃ Y, Valid S L' Y) ∧ Keeps L L' := by
  have hsame : (∃ Y, Valid S L Y) ∧ Keeps L L := ⟨⟨X,V⟩,⟨fun _ h => h,fun _ h => h⟩⟩
  rcases ho with ho | hn
  swap
  · obtain rfl : L' = L := (Refusals.process_told _ hp).refused hn
    exact hsame
  rcases V.processed hU hh ho hp with ⟨-,rfl⟩ | ⟨-,hk,-,G,V'⟩
  · exact hsame
  · have hkept : ∀ {n g m}, X g = some m → add X (C.blockHash b) n g = some m :=
      fun hm => (add_eq_some hk).mpr (Or.inr hm)
    refine ⟨⟨_,V'⟩,fun h hc => ?_,fun h => cemented_kept V V' ?_ fun g m hm _ => hkept hm⟩
    · obtain ⟨m,hm⟩ := V.mirrors.contains.mp hc
      exact V'.mirrors.contains.mpr ⟨m,hkept hm⟩
    · intro a
      rw [Ledger.confirmationHeightGet,Ledger.confirmationHeightGet,G.confirmationHeight]

theorem raised_keeps (R : Raised C L L') : Valid S L' X ∧ Keeps L L' := by
  have V' := V.raised R
  refine ⟨V',fun h hc => ?_,fun h => cemented_kept V V' R.raised fun _ _ hm _ => hm⟩
  exact V'.mirrors.contains.mpr (V.mirrors.contains.mp hc)

theorem rollback_keeps {list list' : Rollback.RollbackList} {error : Bool}
    (hc : L.blocks.contains h = true)
    (hr : Rollback.rollback C now fuel L h list = some (error,L',list')) :
    (∃ Y, Valid S L' Y) ∧ ∀ g, L.blockConfirmed g = true → L'.blockConfirmed g = true := by
  obtain ⟨n,hn⟩ := V.mirrors.contains.mp hc
  rcases V.rollback_cases hn hr with ⟨-,hout⟩ | ⟨hfree,L₁,l,hout,c,V'⟩
  · cases hout
    exact ⟨⟨X,V⟩,fun _ h => h⟩
  · cases hout
    refine ⟨⟨_,V'⟩,fun g => cemented_kept V V' ?_ fun k m hm hcem => ?_⟩
    · intro a
      rw [Ledger.confirmationHeightGet,Ledger.confirmationHeightGet,c.confirmationHeight]
    · apply Causal.without_eq_some.mpr
      refine ⟨fun hd => ?_,hm⟩
      exact absurd hcem (Nat.not_le_of_lt ((V.free hn hfree).2 k hd m hm))

end

def Locked (s : State) (h : BlockHash) : Prop :=
  (∃ q : QualifiedRoot, s.finalVotes[q]? = some h) ∨ s.ledger.blockConfirmed h = true

def held (C : Constants) (s : State) : List BlockHash :=
  (s.candidates++s.replying++s.requests.flatten++s.batches.flatten).map Prod.snd++
    s.aggregated.flatten.map (fun b => C.blockHash b.block)++s.signed.flatMap Vote.blocks

theorem mem_finalVoteGet {table : FinalVotes} {root : Root} (hm : h ∈ finalVoteGet table root) :
    ∃ q : QualifiedRoot, table[q]? = some h := by
  obtain ⟨⟨q,h⟩,he,rfl⟩ := mem_map.mp hm
  have hmem := (takeWhile_sublist _).subset he
  rw [Ranges.entries_eq_filter _ _ _ nofun,mem_filter,Table.mem_entries] at hmem
  exact ⟨q,hmem.1⟩

theorem finalVotePut_get (table : FinalVotes) (q : QualifiedRoot) :
    ((finalVotePut table q h).1 = true → (finalVotePut table q h).2[q]? = some h) ∧
    ∀ (p : QualifiedRoot) (g : BlockHash), table[p]? = some g →
      (finalVotePut table q h).2[p]? = some g := by
  unfold finalVotePut
  cases hq : table[q]? with
  | some k =>
    refine ⟨fun hk => ?_,fun _ _ h => h⟩
    rw [hq,of_decide_eq_true hk]
  | none =>
    refine ⟨fun _ => ?_,fun p g hp => ?_⟩
    · rw [Table.get_insert,if_pos rfl]
    · have hne : p ≠ q := by
        rintro rfl
        rw [hq] at hp
        cases hp
      rw [Table.get_insert,if_neg hne,hp]

theorem finalVotePut_new (table : FinalVotes) (q : QualifiedRoot) (h : BlockHash)
    (p : QualifiedRoot) (g : BlockHash) (hp : (finalVotePut table q h).2[p]? = some g) :
    table[p]? = some g ∨ p = q ∧ g = h := by
  unfold finalVotePut at hp
  cases hq : table[q]? with
  | some k =>
    rw [hq] at hp
    exact Or.inl hp
  | none =>
    rw [hq,Table.get_insert] at hp
    split_ifs at hp with e
    · exact Or.inr ⟨e,(Option.some.inj hp).symm⟩
    · exact Or.inl hp

theorem fill_subset (now : ℕ) (batch l : List Candidate) :
    (fill P s now batch l).1 ⊆ batch++l ∧ (fill P s now batch l).2 ⊆ l := by
  induction l generalizing batch with
  | nil => exact ⟨subset_append_left _ _,Subset.refl _⟩
  | cons x l ih =>
    rw [fill]
    split_ifs with hfull hvote
    · exact ⟨subset_append_left _ _,Subset.refl _⟩
    · obtain ⟨h1,h2⟩ := ih (batch++[x])
      rw [append_assoc] at h1
      exact ⟨h1,subset_cons_of_subset _ h2⟩
    · obtain ⟨h1,h2⟩ := ih batch
      refine ⟨Subset.trans h1 ?_,subset_cons_of_subset _ h2⟩
      simp

section
structure Inv (S : HashSound C U) (s : State) : Prop where
  valid : ∃ X, Valid S s.ledger X
  recorded : ∀ (q : QualifiedRoot) (h : BlockHash), s.finalVotes[q]? = some h →
    s.ledger.blocks.contains h = true
  locked : ∀ h ∈ held C s, Locked s h

variable {b : Loaded}

theorem Inv.stored (I : Inv S s) (hb : blockGet s.ledger h = some b) :
    C.blockHash b.block = h := by
  obtain ⟨X,V⟩ := I.valid
  obtain ⟨r,hr,rfl⟩ := Option.map_eq_some_iff.mp hb
  exact stored_hash V.mirrors V.built hr

variable {root : Root}

theorem Inv.found (I : Inv S s) (hm : h ∈ finalVoteGet s.finalVotes root) :
    ∃ b, blockGet s.ledger h = some b ∧ C.blockHash b.block = h := by
  obtain ⟨q,hq⟩ := mem_finalVoteGet hm
  obtain ⟨X,V⟩ := I.valid
  obtain ⟨n,hn⟩ := V.mirrors.contains.mp (I.recorded q h hq)
  obtain ⟨r,hr,-⟩ := V.mirrors.get hn
  have hb : blockGet s.ledger h = some ⟨r.block,some r.sideband⟩ := by rw [blockGet,hr]; rfl
  exact ⟨_,hb,I.stored hb⟩

theorem Inv.ledgerBlock (I : Inv S s) (hb : ledgerBlock s h root = some (b,true)) :
    s.ledger.blockConfirmed (C.blockHash b.block) = true := by
  have hcem : ∀ {k : BlockHash} {r : StoredBlock}, s.ledger.blocks[k]? = some r →
      confirmed s.ledger r = true → s.ledger.blockConfirmed (C.blockHash r.block) = true := by
    intro k r hr hc
    obtain ⟨X,V⟩ := I.valid
    rw [stored_hash V.mirrors V.built hr,Ledger.blockConfirmed,hr]
    split_ifs
    · rfl
    · exact hc
  unfold Voting.ledgerBlock at hb
  cases hr : s.ledger.blocks[h]? with
  | some r =>
    simp only [hr] at hb
    obtain ⟨rfl,hc⟩ := Prod.mk.inj (Option.some.inj hb)
    exact hcem hr hc
  | none =>
    cases hs : s.ledger.blocks[rootSuccessor s.ledger root]? with
    | none => simp [hr,hs] at hb
    | some r =>
      simp only [hr,hs] at hb
      split_ifs at hb
      obtain ⟨rfl,hc⟩ := Prod.mk.inj (Option.some.inj hb)
      exact hcem hs hc

theorem Inv.aggregateOne (I : Inv S s) (hb : b ∈ (aggregateOne s h root).2) :
    Locked s (C.blockHash b.block) := by
  have locked : ∀ {k : BlockHash} {c : Loaded}, k ∈ finalVoteGet s.finalVotes root →
      blockGet s.ledger k = some c → Locked s (C.blockHash c.block) := by
    intro k c hk hc
    rw [I.stored hc]
    exact Or.inl (mem_finalVoteGet hk)
  unfold Voting.aggregateOne at hb
  split_ifs at hb with hcached
  · cases hb
  cases hl : finalVoteGet s.finalVotes root with
  | nil =>
    -- without an entry the winner gets an ordinary vote
    cases hw : s.winner h with
    | some w => simp [hl,hw] at hb
    | none =>
      cases hc : Voting.ledgerBlock s h root with
      | none => simp [hl,hw,hc] at hb
      | some c =>
        obtain ⟨c,final⟩ := c
        cases final with
        | false => simp [hl,hw,hc] at hb
        | true =>
          simp [hl,hw,hc] at hb
          subst hb
          exact Or.inr (I.ledgerBlock hc)
  | cons k l =>
    have hk : k ∈ finalVoteGet s.finalVotes root := by simp [hl]
    obtain ⟨c,hc,-⟩ := I.found hk
    cases l with
    | nil =>
      simp [hl,hc] at hb
      subst hb
      exact locked hk hc
    | cons k' l =>
      have hk' : k' ∈ finalVoteGet s.finalVotes root := by simp [hl]
      obtain ⟨c',hc',-⟩ := I.found hk'
      simp [hl,hc,hc'] at hb
      rcases hb with rfl | rfl
      · exact locked hk hc
      · exact locked hk' hc'

theorem add_cases (s : State) (root : Root) (hash : BlockHash) :
    add C s root hash = s ∨ ∃ b q, blockGet s.ledger hash = some b ∧
      (add C s root hash = { s with finalVotes := (finalVotePut s.finalVotes q hash).2 } ∧
        (finalVotePut s.finalVotes q hash).1 = false ∨
      add C s root hash = { s with
        finalVotes := (finalVotePut s.finalVotes q hash).2
        candidates := s.candidates++[(root,hash)] } ∧
        (finalVotePut s.finalVotes q hash).1 = true) := by
  unfold Voting.add
  by_cases hv : historyVotes s.history root hash true ≠ []
  · exact Or.inl (if_pos hv)
  · rw [if_neg hv]
    cases hb : blockGet s.ledger hash with
    | none => exact Or.inl rfl
    | some b =>
      by_cases hd : dependentsConfirmed C s.ledger b = true
      · refine Or.inr ⟨b,b.block.qualifiedRoot,rfl,?_⟩
        cases hp : (finalVotePut s.finalVotes b.block.qualifiedRoot hash).1 with
        | false => simp [hd,hp]
        | true => simp [hd,hp]
      · exact Or.inl (by simp [hd])

theorem generate_held (s : State) (blocks : List Loaded) (hh : h ∈ held C (generate C s blocks)) :
    h ∈ held C s ∨ h ∈ blocks.map (fun b => C.blockHash b.block) := by
  have hnew : h ∈ (generate C s blocks).requests.flatten.map Prod.snd →
      h ∈ s.requests.flatten.map Prod.snd ∨ h ∈ blocks.map (fun b => C.blockHash b.block) := by
    intro hm
    obtain ⟨c,hc,rfl⟩ := mem_map.mp hm
    obtain ⟨l,hl,hcl⟩ := mem_flatten.mp hc
    simp only [generate] at hl
    rcases mem_append.mp (mem_of_mem_drop hl) with hl | hl
    · exact Or.inl (mem_map_of_mem (mem_flatten.mpr ⟨l,hl,hcl⟩))
    · rw [mem_singleton.mp hl] at hcl
      obtain ⟨b,hb,rfl⟩ := mem_map.mp hcl
      exact Or.inr (mem_map_of_mem (mem_of_mem_filter hb))
  simp only [held,map_append,mem_append] at hh ⊢
  simp only [generate] at hh hnew
  generalize drop _ _ = requests at hh hnew
  grind

theorem act_held (I : Inv S s) (e : Event) (hh : h ∈ held C (act C P s e)) :
    h ∈ held C s ∨ Locked (act C P s e) h := by
  have filled : ∀ (now : ℕ) (l : List Candidate),
      (h ∈ (fill P s now [] l).1.map Prod.snd → h ∈ l.map Prod.snd) ∧
      (h ∈ (fill P s now [] l).2.map Prod.snd → h ∈ l.map Prod.snd) :=
    fun now l => ⟨fun hm => map_subset _ (fill_subset now [] l).1 hm,
      fun hm => map_subset _ (fill_subset now [] l).2 hm⟩
  cases e with
  | add root hash =>
    rcases add_cases s root hash with he | ⟨b,q,-,⟨he,-⟩ | ⟨he,hput⟩⟩
    · rw [act,he] at hh
      exact Or.inl hh
    · rw [act,he] at hh
      exact Or.inl hh
    · rw [act,he] at hh ⊢
      by_cases e : h = hash
      · subst e
        exact Or.inr (Or.inl ⟨q,(finalVotePut_get _ q).1 hput⟩)
      · left
        simpa [held,e] using hh
  | request pairs =>
    by_cases ha : h ∈ (aggregate s pairs).2.map (fun b => C.blockHash b.block)
    · right
      obtain ⟨b,hb,rfl⟩ := mem_map.mp ha
      obtain ⟨p,-,hp⟩ := mem_flatMap.mp hb
      exact I.aggregateOne hp
    · left
      simp only [held,act,map_append,flatten_append,flatten_singleton,
        mem_append] at hh ⊢
      grind
  | generate =>
    left
    cases ha : s.aggregated with
    | nil => simpa only [act,ha] using hh
    | cons blocks rest =>
      rw [act,ha] at hh
      have hg := generate_held _ blocks hh
      simp only [held,ha,map_append,mem_append,flatten_cons] at hg ⊢
      grind
  | broadcast now =>
    left
    have hf := filled now s.candidates
    simp only [held,act,map_append,flatten_append,flatten_singleton,
      mem_append] at hh ⊢
    grind
  | reply now =>
    left
    cases hr : s.replying with
    | cons c l =>
      have hf := filled now (c::l)
      simp only [held,act,hr,map_append,flatten_append,flatten_singleton,
        mem_append] at hh ⊢
      grind
    | nil =>
      cases hq : s.requests with
      | nil => simpa only [act,hr,hq] using hh
      | cons request requests =>
        have hf := filled now request
        simp only [held,act,hr,hq,map_append,flatten_append,flatten_cons,
          mem_append] at hh ⊢
        grind
  | vote now representatives =>
    left
    cases hb : s.batches with
    | nil => simpa only [act,hb] using hh
    | cons batch rest =>
      have hsigned : h ∈ (representatives.map (fun a =>
          (⟨a,timestampMax,batch.map Prod.snd⟩ : Vote))).flatMap Vote.blocks →
          h ∈ batch.map Prod.snd := by
        intro hm
        obtain ⟨v,hv,hm⟩ := mem_flatMap.mp hm
        obtain ⟨a,-,rfl⟩ := mem_map.mp hv
        exact hm
      simp only [held,act,hb,vote,map_append,flatMap_append,flatten_cons,
        mem_append] at hh ⊢
      grind
  | winner => exact Or.inl hh
  | erase root => exact Or.inl hh
  | record root hash vote => exact Or.inl hh

theorem act_table (e : Event) : (act C P s e).ledger = s.ledger ∧
    (∀ (q : QualifiedRoot) (h : BlockHash), s.finalVotes[q]? = some h →
      (act C P s e).finalVotes[q]? = some h) ∧
    ∀ (q : QualifiedRoot) (h : BlockHash), (act C P s e).finalVotes[q]? = some h →
      s.finalVotes[q]? = some h ∨ s.ledger.blocks.contains h = true := by
  cases e with
  | add root hash =>
    rw [act]
    rcases add_cases s root hash with he | ⟨b,q,hb,he⟩
    · rw [he]
      exact ⟨rfl,fun _ _ h => h,fun _ _ => Or.inl⟩
    · have hput : (add C s root hash).finalVotes = (finalVotePut s.finalVotes q hash).2 ∧
          (add C s root hash).ledger = s.ledger := by
        rcases he with ⟨he,-⟩ | ⟨he,-⟩ <;> rw [he] <;> exact ⟨rfl,rfl⟩
      obtain ⟨r,hr,-⟩ := Option.map_eq_some_iff.mp hb
      rw [hput.1,hput.2]
      refine ⟨rfl,(finalVotePut_get _ q).2,fun p g hp => ?_⟩
      rcases finalVotePut_new _ _ _ p g hp with hp | ⟨-,rfl⟩
      · exact Or.inl hp
      · exact .inr (Table.contains_of_get hr)
  | generate =>
    simp only [act]
    split <;> exact ⟨rfl,fun _ _ h => h,fun _ _ => Or.inl⟩
  | reply now =>
    simp only [act]
    split <;> exact ⟨rfl,fun _ _ h => h,fun _ _ => Or.inl⟩
  | vote now representatives =>
    simp only [act]
    split <;> exact ⟨rfl,fun _ _ h => h,fun _ _ => Or.inl⟩
  | _ => exact ⟨rfl,fun _ _ h => h,fun _ _ => Or.inl⟩

section
variable (I : Inv S s)
include I

theorem Inv.acts (e : Event) : Inv S (act C P s e) := by
  obtain ⟨hL,hold,hnew⟩ := act_table (s := s) e
  refine ⟨hL ▸ I.valid,fun q h hq => ?_,fun h hh => ?_⟩
  · rw [hL]
    exact (hnew q h hq).elim (I.recorded q h) id
  · rcases act_held I e hh with hh | hh
    · exact (I.locked h hh).imp (fun ⟨q,hq⟩ => ⟨q,hold q h hq⟩) (fun hc => hL.symm ▸ hc)
    · exact hh

theorem Inv.ledgers (V : ∃ Y, Valid S L Y) (hk : KeepsVoted s { s with ledger := L })
    (hc : ∀ h, s.ledger.blockConfirmed h = true → L.blockConfirmed h = true) :
    Inv S { s with ledger := L } where
  valid := V
  recorded := hk
  locked := fun h hh => (I.locked h hh).imp_right (hc h)

theorem Inv.step (hs : Step C P U (Framing.Offer.Careful C) s t) (hk : KeepsVoted s t) :
    Inv S t := by
  obtain ⟨X,V⟩ := I.valid
  cases hs with
  | act e => exact I.acts e
  | process hU hh ho hp =>
    obtain ⟨V',K⟩ := process_keeps V hU hh ho hp
    exact I.ledgers V' hk K.confirmed
  | rollback hc hr =>
    obtain ⟨V',K⟩ := rollback_keeps V hc hr
    exact I.ledgers V' hk K
  | cement R =>
    obtain ⟨V',K⟩ := raised_keeps V R
    exact I.ledgers ⟨X,V'⟩ hk K.confirmed

theorem Inv.run (hr : KeepingRun C U P s t) : Inv S t := by
  induction hr with
  | refl => exact I
  | tail _ hs ih => exact ih.step hs.1 hs.2

end

theorem start_inv (S : HashSound C U) (now : ℕ) :
    Inv S { ledger := storeInitialize C now } where
  valid := reachable_valid S (.start now)
  recorded := by
    intro q h hq
    simp at hq
  locked := by
    intro h hh
    simp [held] at hh

theorem Inv.unique (I : Inv S s) {b c : Block} (hb : b.hashables ∈ U) (hc : c.hashables ∈ U)
    (hlb : Locked s (C.blockHash b)) (hlc : Locked s (C.blockHash c))
    (hq : b.qualifiedRoot = c.qualifiedRoot) : C.blockHash b = C.blockHash c := by
  obtain ⟨X,V⟩ := I.valid
  have node : ∀ {d : Block}, d.hashables ∈ U → Locked s (C.blockHash d) →
      ∃ n, X (C.blockHash d) = some n ∧ n.hashables = d.hashables := by
    intro d hd hl
    obtain ⟨n,hn⟩ : ∃ n, X (C.blockHash d) = some n := by
      rcases hl with ⟨q,hq⟩ | hl
      · exact V.mirrors.contains.mp (I.recorded q _ hq)
      · obtain ⟨n,hn,-⟩ := V.confirmed.mp hl
        exact ⟨n,hn⟩
    obtain ⟨hh,hU⟩ := built_hash V.built hn
    exact ⟨n,hn,S.injective _ hU _ hd hh⟩
  obtain ⟨n,hn,hnb⟩ := node hb hlb
  obtain ⟨m,hm,hmc⟩ := node hc hlc
  obtain ⟨hroot,hprev⟩ := QualifiedRoot.mk.inj hq
  apply Successors.one_root V.built hn hm
  · rw [hnb,hmc]
    exact hroot
  · rw [Node.previous,Node.previous,hnb,hmc]
    exact hprev

end

/-- In a run that rolls back no block with a recorded final vote, and in which the accepted
epoch-signed blocks for unopened accounts have no predecessor, final votes are unique. -/
theorem finals_unique (S : HashSound C U) (now : ℕ)
    (h : KeepingRun C U P { ledger := storeInitialize C now } s) : FinalsUnique C U s := by
  have I := (start_inv S now).run h
  intro v hv w hw b c hb hc hvb hwc hq
  have signed : ∀ {v : Vote} {g : BlockHash}, v ∈ s.signed → g ∈ v.blocks → Locked s g := by
    intro v g hv hg
    exact I.locked g (mem_append_right _ (mem_flatMap.mpr ⟨v,hv,hg⟩))
  exact I.unique hb hc (signed hv hvb) (signed hw hwc) hq

def sampleVoting : Config := ⟨256,15⟩

def sampleChange : Block := ⟨.change ⟨2,9⟩,0,0⟩

abbrev forkBlocks : Set Hashables := sentWith sampleChange

theorem fork_sound : HashSound sample forkBlocks := sentWith_sound (by decide) (by decide)

def acts (s : State) (es : List Event) : State := es.foldl (act sample sampleVoting) s

theorem acts_run {ok : Framing.Offer → Prop} (s : State) (es : List Event) :
    Relation.ReflTransGen (Step sample sampleVoting U ok) s (acts s es) := by
  induction es generalizing s with
  | nil => exact .refl
  | cons e es ih => exact (ih _).head (.act s e)

theorem acts_keeping {S : HashSound sample U} (I : Inv S s) (es : List Event) :
    KeepingRun sample U sampleVoting s (acts s es) := by
  induction es generalizing s with
  | nil => exact .refl
  | cons e es ih =>
    refine (ih (I.acts e)).head ⟨.act s e,fun q h hq => ?_⟩
    rw [(act_table e).1]
    exact I.recorded q h hq

theorem processed_step (ok : Framing.Offer → Prop) (s : State) {b : Block} (hU : b.hashables ∈ U)
    (hp : (Process.process sample 0 s.ledger b .unknown).isSome = true)
    (hok : ok (Framing.offered sample s.ledger b)) :
    Step sample sampleVoting U ok s { s with ledger := processed sample s.ledger b } := by
  obtain ⟨result,hp⟩ := process_processed hp
  unfold Framing.offered at hok
  rw [hp] at hok
  exact Step.process hU (ProcessSpec.honest_unknown) hok hp

def sendVoted : State := acts { ledger := sampleSent } [.add 2 3,.broadcast 0,.vote 0 [42]]

def sendUndone : Ledger :=
  ((Rollback.rollback sample 0 4 sampleSent 3 []).map (fun out => out.2.1)).getD sampleSent

def forked : State := { sendVoted with ledger := processed sample sendUndone sampleChange }

def changeVoted : State := acts forked
  [.winner (fun h => if h = 5 then blockGet forked.ledger 5 else none),.request [(5,2)],.generate,
    .reply 100,.vote 100 [42]]

theorem finals_unique_sample : sendVoted.signed = [⟨42,timestampMax,[3]⟩] ∧
    FinalsUnique sample forkBlocks sendVoted := by
  refine ⟨by decide +kernel,finals_unique fork_sound 0 (P := sampleVoting) ?_⟩
  have hstep : KeepingRun sample forkBlocks sampleVoting
      { ledger := storeInitialize sample 0 } { ledger := sampleSent } :=
    .single ⟨processed_step _ { ledger := storeInitialize sample 0 } (.inr (.inl rfl))
      (by decide +kernel) (.inl (epochOpens_none (by decide))),fun q h hq => by simp at hq⟩
  exact hstep.trans (acts_keeping ((start_inv fork_sound 0).run hstep) _)

/-- After the rollback the same representative signs final votes for both. -/
theorem finals_conflict : Relation.ReflTransGen (Step sample sampleVoting forkBlocks fun _ => True)
      { ledger := storeInitialize sample 0 } changeVoted ∧
    changeVoted.signed = [⟨42,timestampMax,[3]⟩,⟨42,timestampMax,[5]⟩] ∧
    ¬ FinalsUnique sample forkBlocks changeVoted := by
  have hsigned : changeVoted.signed = [⟨42,timestampMax,[3]⟩,⟨42,timestampMax,[5]⟩] := by
    decide +kernel
  obtain ⟨⟨error,L,list⟩,hr⟩ :
      ∃ out, Rollback.rollback sample 0 4 sampleSent 3 [] = some out :=
    Option.isSome_iff_exists.mp (by decide +kernel)
  have hundone : sendUndone = L := by
    rw [sendUndone,hr]
    rfl
  have hstored : sampleSent.blocks.contains 3 = true := by decide +kernel
  have hledger : sendVoted.ledger = sampleSent := by
    simp [sendVoted,acts,(act_table _).1]
  refine ⟨?_,hsigned,fun hu => ?_⟩
  · have hsent := processed_step (U := forkBlocks) (b := sampleSend) (fun _ => True)
      { ledger := storeInitialize sample 0 } (.inr (.inl rfl)) (by decide +kernel) trivial
    have hback : Step sample sampleVoting forkBlocks (fun _ => True) sendVoted
        { sendVoted with ledger := sendUndone } := by
      rw [hundone]
      exact .rollback (hledger ▸ hstored) (hledger ▸ hr)
    have hfork := processed_step (U := forkBlocks) (b := sampleChange) (fun _ => True)
      { sendVoted with ledger := sendUndone } (.inr (.inr rfl)) (by decide +kernel) trivial
    exact ((((Relation.ReflTransGen.single hsent).trans (acts_run _ _)).tail hback).tail
      hfork).trans (acts_run _ _)
  · have hconflict := hu _ (hsigned ▸ mem_cons_self)
      _ (hsigned ▸ mem_cons_of_mem _ mem_cons_self) sampleSend sampleChange
      (Or.inr (Or.inl rfl)) (Or.inr (Or.inr rfl)) (by decide) (by decide) (by decide)
    exact absurd hconflict (by decide)
end Vxldollar.FinalVotes
