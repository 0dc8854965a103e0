import Vxldollar.Intake
import Vxldollar.Refusals
import Vxldollar.Runs

/-!
# The verification tags of the block pipeline

The batch verification checks a signature against the account that accompanied
the block, when there is one, and the ledger trusts the tag it gives. The tags
tell the truth and the assertion of `process_one` holds as long as no block is
accompanied by an account that is not its own; nothing makes sure of that.
-/

namespace Vxldollar.Tags
open Blocks Store Process ProcessSpec Refusals Vxldollar.Lattice Chains Mirror Runs Option Bool
open List hiding swap
open Intake hiding add

section
variable (C : Constants) (U : Set Hashables)

/-- The account a block belongs to: its own field, or that of the chain it
extends. -/
inductive Owns (a : Account) : Hashables → Prop
  | open_ (h : OpenHashables) : h.account = a → Owns a (.open_ h)
  | state (h : StateHashables) : h.account = a → Owns a (.state h)
  | follows (hs previous : Hashables) : hs.type ≠ .open_ → hs.type ≠ .state → previous ∈ U →
      C.hash previous = hs.previous → Owns a previous → Owns a hs

def OwnSigned (b : Block) : Prop := ∀ a, Owns C U a b.hashables →
  C.validateMessage a (C.blockHash b) b.signature = false

def Truthful (b : Block) (verified : SignatureVerification) : Prop :=
  (verified = .valid → OwnSigned C U b) ∧ (verified = .validEpoch → EpochSigned C b)

def Recorded (L : Ledger) (b : Block) : Prop := ∃ r : StoredBlock,
  L.blocks[C.blockHash b]? = some r ∧ r.block = b ∧ Owns C U r.accountCalculated b.hashables ∧
  if r.sideband.details.isEpoch then EpochSigned C b else OwnSigned C U b

def Accompanied (info : UncheckedInfo) : Prop :=
  info.account = 0 ∨ Owns C U info.account info.block.hashables

end

variable {C : Constants} {U : Set Hashables} {S : HashSound C U} {L L' : Ledger} {b : Block}
  {a c : Account} {hs : Hashables} {verified : SignatureVerification} {now : ℕ}

theorem owns_unique (S : HashSound C U) (ha : Owns C U a hs) (hc : Owns C U c hs) : a = c := by
  induction ha generalizing c with
  | open_ h ha =>
    cases hc with
    | open_ _ hc => exact ha.symm.trans hc
    | follows _ _ ht => exact absurd rfl ht
  | state h ha =>
    cases hc with
    | state _ hc => exact ha.symm.trans hc
    | follows _ _ _ ht => exact absurd rfl ht
  | follows hs previous ht1 ht2 hU hp _ ih =>
    cases hc with
    | open_ => exact absurd rfl ht1
    | state => exact absurd rfl ht2
    | follows _ previous' _ _ hU' hp' hc =>
      obtain rfl := S.injective _ hU _ hU' (hp.trans hp'.symm)
      exact ih hc

theorem owns_node {X : Nodes} (hb : Built S X) {h : BlockHash} {n : Node} (hX : X h = some n) :
    Owns C U n.account n.hashables := by
  induction hd : n.height generalizing h n with
  | zero =>
    have := Heights.height_pos hb hX
    omega
  | succ d ih =>
    have hacc := (built_account_field hb hX).1
    cases hh : n.hashables with
    | open_ k =>
      rw [hh] at hacc
      exact .open_ k (hacc (.inl rfl))
    | state k =>
      rw [hh] at hacc
      exact .state k (hacc (.inr rfl))
    | _ =>
      have h0 : n.previous ≠ 0 := by
        intro h0
        rcases built_justified hb hX with ⟨-,rfl⟩ | hj
        · cases hh
        · have hopen := hj.opening h0
          rw [hh] at hopen
          rcases hopen with e | e <;> cases e
      obtain ⟨p,hp,hpa,-,hheight,-⟩ := built_following hb hX h0
      have hmem := (built_hash hb hp)
      have howner := ih hp (by omega)
      rw [hpa] at howner
      refine .follows _ p.hashables (by rintro ⟨⟩) (by rintro ⟨⟩) hmem.2 ?_ howner
      rw [hmem.1,Node.previous,hh]

def FrontiersOwned (C : Constants) (U : Set Hashables) (L : Ledger) : Prop :=
  ∀ (h : BlockHash) (a : Account), L.frontiers[h]? = some a →
    ∃ hs ∈ U, C.hash hs = h ∧ Owns C U a hs

theorem reachable_frontiersOwned (S : HashSound C U) (hr : Reachable C U L) :
    FrontiersOwned C U L := by
  obtain ⟨X,V⟩ := reachable_valid S hr
  intro h a ha
  obtain ⟨n,hh,-,rfl⟩ := (V.mirrors.frontier h a).mp ha
  obtain ⟨h1,h2⟩ := built_hash V.built hh.1
  exact ⟨n.hashables,h2,h1,owns_node V.built hh.1⟩

theorem frontier_owns (hs : Hashables) (hF : FrontiersOwned C U L) (ht1 : hs.type ≠ .open_)
    (ht2 : hs.type ≠ .state) (h0 : L.frontierGet hs.previous ≠ 0) :
    Owns C U (L.frontierGet hs.previous) hs := by
  unfold Ledger.frontierGet at h0 ⊢
  cases hf : L.frontiers[hs.previous]? with
  | none =>
    rw [hf] at h0
    exact absurd rfl h0
  | some a =>
    obtain ⟨previous,hU,hp,ho⟩ := hF _ a hf
    exact .follows hs previous ht1 ht2 hU hp ho

theorem truthful_valid (S : HashSound C U) (ht : Truthful C U b verified)
    (ho : Owns C U a b.hashables) (hg : badSignature C verified .valid a b = false) :
    Truthful C U b .valid := by
  refine ⟨fun _ => ?_,nofun⟩
  by_cases hv : verified = .valid
  · exact ht.1 hv
  · intro c hc
    obtain rfl := owns_unique S ho hc
    simpa [badSignature,hv] using hg

/-- An answer that keeps the tags true: refused without a change, or recorded
for the account that signed. -/
def Fair (C : Constants) (U : Set Hashables) (L : Ledger) (b : Block) (out : Outcome) : Prop :=
  ∀ result L', out = some (result,L') →
    (result.code ≠ .progress ∧ L' = L ∧ Truthful C U b result.verified) ∨
    (result.code = .progress ∧ Recorded C U L' b ∧ FrontiersOwned C U L')

theorem claims_owns (hF : FrontiersOwned C U L) (h : Claims L b a) : Owns C U a b.hashables := by
  obtain ⟨hs,sig,work⟩ := b
  cases hs with
  | open_ h' => exact .open_ h' h.symm
  | state h' => exact .state h' h.symm
  | _ =>
    obtain ⟨rfl,h0⟩ := h
    exact frontier_owns _ hF nofun nofun h0

theorem vetted_truthful (S : HashSound C U) (hF : FrontiersOwned C U L)
    (ht : Truthful C U b verified) {tag : SignatureVerification}
    (h : Vetted C L b verified tag) : Truthful C U b tag := by
  cases h with
  | same => exact ht
  | bad => exact ⟨nofun,nofun⟩
  | owner ha hg => exact truthful_valid S ht (claims_owns hF ha) hg
  | @epoch signer hs hg =>
    refine ⟨nofun,fun _ => ?_⟩
    by_cases he : verified = .validEpoch
    · exact ht.2 he
    · exact ⟨signer,hs,by simpa [badSignature,he] using hg⟩

/-- `process` trusts only true tags and passes only true tags on. -/
theorem process_fair (S : HashSound C U) (hF : FrontiersOwned C U L) (hU : b.hashables ∈ U)
    (ht : Truthful C U b verified) : Fair C U L b (process C now L b verified) := by
  intro result L' hp
  have htold := process_told _ hp
  have htag : Truthful C U b result.verified := vetted_truthful S hF ht htold.vetted
  by_cases hc : result.code = .progress
  · obtain ⟨a,isEpoch,ha,hv,hw⟩ := htold.accepted hc
    obtain ⟨q,hq,hblock,hacc,he⟩ := hw.record
    have ho := claims_owns hF ha
    refine .inr ⟨hc,⟨q,hq,hblock,hacc ▸ ho,?_⟩,fun h c hc' => ?_⟩
    · rw [he]
      cases isEpoch with
      | false => exact htag.1 hv
      | true => exact htag.2 hv
    · rcases hw.frontiers h c hc' with hc' | ⟨rfl,rfl⟩
      · exact hF h c hc'
      · exact ⟨b.hashables,hU,rfl,ho⟩
  · exact .inl ⟨hc,htold.refused hc,htag⟩

structure Inv (C : Constants) (U : Set Hashables) (s : State) : Prop where
  frontiers : FrontiersOwned C U s.ledger
  mem : ∀ x, Present s x → x.block.hashables ∈ U
  truthful : ∀ x, Present s x → Truthful C U x.block x.verified
  accompanied : ∀ x, Present s x → Accompanied C U x
  verifying : ∀ x ∈ s.stateBlocks,
    x.block.type = .state ∨ x.block.type = .open_ ∨ x.account ≠ 0

section
variable {s s' : State} {info : UncheckedInfo} {disableDelete : Bool}

theorem Inv.moves (I : Inv C U s) (hF : FrontiersOwned C U s'.ledger)
    (hp : ∀ x, Present s' x → Present s x ∨
      ∃ y, Present s y ∧ x.block = y.block ∧ x.account = y.account ∧
        Truthful C U y.block x.verified)
    (hv : ∀ x ∈ s'.stateBlocks, x.block.type = .state ∨ x.block.type = .open_ ∨ x.account ≠ 0) :
    Inv C U s' := by
  refine ⟨hF,fun x hx => ?_,fun x hx => ?_,fun x hx => ?_,hv⟩
  · rcases hp x hx with h | ⟨y,hy,hb,-⟩
    · exact I.mem x h
    · exact hb ▸ I.mem y hy
  · rcases hp x hx with h | ⟨y,-,hb,-,ht⟩
    · exact I.truthful x h
    · exact hb ▸ ht
  · rcases hp x hx with h | ⟨y,hy,hb,ha,-⟩
    · exact I.accompanied x h
    · have := I.accompanied y hy
      rw [Accompanied,← ha,← hb] at this
      exact this

theorem add_verifying
    (hs : ∀ x ∈ s.stateBlocks, x.block.type = .state ∨ x.block.type = .open_ ∨ x.account ≠ 0) :
    ∀ x ∈ (Intake.add s info).stateBlocks,
      x.block.type = .state ∨ x.block.type = .open_ ∨ x.account ≠ 0 := by
  unfold Intake.add
  split_ifs with h
  · intro x hx
    rcases mem_append.mp hx with hx | hx
    · exact hs x hx
    · obtain rfl := mem_singleton.mp hx
      exact h.2
  · exact hs

theorem verified_truthful (S : HashSound C U) (hA : Accompanied C U info)
    (ht : info.block.type = .state ∨ info.block.type = .open_ ∨ info.account ≠ 0)
    {account : Account} {info' : UncheckedInfo} (hacc : verifyingAccount C info = some account)
    (hinfo : verifiedInfo C info
      (!C.validateMessage account (C.blockHash info.block) info.block.signature) = some info') :
    info'.block = info.block ∧ info'.account = info.account ∧
      Truthful C U info.block info'.verified := by
  unfold verifyingAccount at hacc
  unfold verifiedInfo at hinfo
  by_cases he : hasEpochLink C info.block = true
  · rw [if_pos he] at hacc hinfo
    cases hinfo
    refine ⟨rfl,rfl,?_⟩
    cases hgood : C.validateMessage account (C.blockHash info.block) info.block.signature with
    | true => exact ⟨(by rintro ⟨⟩),(by rintro ⟨⟩)⟩
    | false => exact ⟨(by rintro ⟨⟩),fun _ => ⟨account,hacc,hgood⟩⟩
  · rw [if_neg he] at hacc hinfo
    have howner : Owns C U account info.block.hashables := by
      split_ifs at hacc with h0
      · cases hacc
        exact hA.resolve_left h0
      · cases hacc
        rw [Block.account]
        have ht' := ht.imp_right (fun h => h.resolve_right h0)
        rw [Block.type] at ht'
        cases hh : info.block.hashables with
        | open_ k => exact .open_ k rfl
        | state k => exact .state k rfl
        | _ =>
          rw [hh] at ht'
          rcases ht' with e | e <;> cases e
    cases hgood : C.validateMessage account (C.blockHash info.block) info.block.signature with
    | true =>
      rw [hgood] at hinfo
      cases hinfo
    | false =>
      rw [hgood] at hinfo
      cases hinfo
      refine ⟨rfl,rfl,fun _ c hc => ?_,(by rintro ⟨⟩)⟩
      obtain rfl := owns_unique S howner hc
      exact hgood

theorem Inv.verify (S : HashSound C U) (I : Inv C U s) (hs : verifyStateBlock C s = .ok s') :
    Inv C U s' := by
  unfold verifyStateBlock at hs
  cases hb : s.stateBlocks with
  | nil =>
    rw [hb] at hs
    cases hs
    exact I
  | cons info rest =>
    have hpresent : Present s info := .inl (by simp [queue,hb])
    have hv := I.verifying
    rw [hb] at hs hv
    cases hacc : verifyingAccount C info with
    | none =>
      simp only [hacc] at hs
      cases hs
    | some account =>
      simp only [hacc] at hs
      cases hs
      refine I.moves I.frontiers (fun x hx => ?_) (fun x hx => hv x (mem_cons_of_mem _ hx))
      rcases hx with hx | hx | hx
      · simp only [queue,mem_append,mem_toList] at hx
        rcases hx with (hx | hx | hx) | hx
        · exact .inl (.inl (by simp [queue,hb,hx]))
        · exact .inl (.inl (by simp [queue,hx]))
        · exact .inr ⟨info,hpresent,verified_truthful S (I.accompanied info hpresent)
            (hv info mem_cons_self) hacc hx⟩
        · exact .inl (.inl (by simp [queue,hx]))
      · exact .inl (.inr (.inl hx))
      · exact .inl (.inr (.inr hx))

theorem Inv.arrives (I : Inv C U s) (hU : info.block.hashables ∈ U) (hv : info.verified = .unknown)
    (hA : Accompanied C U info) : Inv C U (Intake.add s info) := by
  refine ⟨(add_rest s info).1 ▸ I.frontiers,fun x hx => ?_,fun x hx => ?_,fun x hx => ?_,
    add_verifying I.verifying⟩
  · rcases present_add hx with h | rfl
    · exact I.mem x h
    · exact hU
  · rcases present_add hx with h | rfl
    · exact I.truthful x h
    · rw [hv]
      exact ⟨nofun,nofun⟩
  · rcases present_add hx with h | rfl
    · exact I.accompanied x h
    · exact hA

theorem Inv.passes {rest : List UncheckedInfo} {L₁ : Ledger} {l : List Item} (I : Inv C U s)
    (hs : s.blocks = info :: rest) (hF : FrontiersOwned C U L₁)
    (hl : ∀ d x, .insert d x ∈ l →
      x.block = info.block ∧ x.account = info.account ∧ Truthful C U info.block x.verified) :
    Inv C U { s with blocks := rest, ledger := L₁, buffer := s.buffer ++ l } := by
  have hpresent : Present s info := Or.inl (by simp [queue,hs])
  refine I.moves hF ?_ I.verifying
  rintro x (hx | ⟨d,hx⟩ | hx)
  · exact Or.inl (Or.inl ((queue_process hs).mpr (Or.inl hx)))
  · simp only [items,mem_append] at hx
    rcases hx with hx | hx | hx
    · exact Or.inl (Or.inr (Or.inl ⟨d,mem_append_left _ hx⟩))
    · exact Or.inl (Or.inr (Or.inl ⟨d,mem_append_right _ hx⟩))
    · exact Or.inr ⟨info,hpresent,hl d x hx⟩
  · exact Or.inl (Or.inr (Or.inr hx))

theorem progressed_ok (S : HashSound C U) (hA : Accompanied C U info) {stored : StoredBlock}
    (ho : Owns C U stored.accountCalculated info.block.hashables) (s : State) :
    ∃ qs : List BlockHash, progressed C s info stored = .ok { s with
      buffer := s.buffer ++ qs.map Item.query } := by
  have hassert : ¬ (info.account ≠ 0 ∧ info.account ≠ stored.accountCalculated) := by
    rintro ⟨h0,hne⟩
    exact hne (owns_unique S (hA.resolve_left h0) ho)
  unfold progressed
  rw [if_neg hassert]
  by_cases ht : triggersDestination stored = true
  · refine ⟨[C.blockHash info.block,
      if info.block.destination = 0 then info.block.link else info.block.destination],?_⟩
    simp [ht,trigger]
  · exact ⟨[C.blockHash info.block],by simp only [ht]; rfl⟩

def Fine (C : Constants) (U : Set Hashables) (out : Except Abort State) : Prop :=
  (∀ s', out = .ok s' → Inv C U s') ∧ out ≠ .error .releaseAssert

theorem fine_ok (I : Inv C U s) : Fine C U (.ok s) := by
  refine ⟨fun s' h => ?_,nofun⟩
  cases h
  exact I

theorem Inv.processes (S : HashSound C U) (I : Inv C U s) (now : ℕ) :
    Fine C U (processFront C now s) := by
  unfold processFront
  cases hs : s.blocks with
  | nil => exact fine_ok I
  | cons info rest =>
    have hpresent : Present s info := .inl (by simp [queue,hs])
    have hfair : Fair C U s.ledger info.block (process C now s.ledger info.block info.verified) :=
      process_fair S I.frontiers (I.mem info hpresent) (I.truthful info hpresent)
    have hdrop : Inv C U { s with blocks := rest } := I.moves I.frontiers
      (fun x hx => .inl (hx.imp_left fun h => (queue_process hs).mpr (.inl h))) I.verifying
    unfold processOne
    simp only
    cases hp : process C now s.ledger info.block info.verified with
    | none => exact ⟨(by rintro _ ⟨⟩),(by rintro ⟨⟩)⟩
    | some out =>
      obtain ⟨result,L₁⟩ := out
      rcases hfair result L₁ hp with ⟨hc,rfl,ht⟩ | ⟨hc,⟨r,hr,-,ho,-⟩,hF⟩
      · -- refused: parked with a true tag, or dropped
        have hpark : ∀ d, Inv C U (put { s with blocks := rest } d
            { info with verified := result.verified }) := by
          intro d
          refine I.passes hs I.frontiers fun e x hx => ?_
          cases mem_singleton.mp hx
          exact ⟨rfl,rfl,ht⟩
        obtain ⟨code,tag,previousBalance⟩ := result
        cases code with
        | progress => exact absurd rfl hc
        | gapPrevious => exact fine_ok (hpark _)
        | gapSource =>
          simp only
          cases blockSource s.ledger info.block with
          | none => exact ⟨(by rintro _ ⟨⟩),(by rintro ⟨⟩)⟩
          | some source => exact fine_ok (hpark source)
        | gapEpochOpenPending => exact fine_ok (hpark _)
        | _ => exact fine_ok hdrop
      · simp only [hc,hr]
        obtain ⟨qs,hqs⟩ := progressed_ok S (I.accompanied info hpresent) ho
          { s with blocks := rest, ledger := L₁ }
        rw [hqs]
        refine fine_ok (I.passes hs hF fun d x hx => ?_)
        obtain ⟨q,-,hq⟩ := mem_map.mp hx
        cases hq

theorem Inv.step (S : HashSound C U) (I : Inv C U s) {e : Event}
    (he : ∀ x, e = .add x → x.block.hashables ∈ U ∧ x.verified = .unknown ∧ Accompanied C U x) :
    Fine C U (step C disableDelete s e) := by
  cases e with
  | add x =>
    obtain ⟨hU,hv,hA⟩ := he x rfl
    exact fine_ok (I.arrives hU hv hA)
  | verify =>
    refine ⟨fun s' hs => I.verify S hs,?_⟩
    change verifyStateBlock C s ≠ _
    unfold verifyStateBlock
    split
    · exact nofun
    · split
      · exact nofun
      · exact nofun
  | process now => exact I.processes S now
  | swap =>
    have hrest : (swap s).ledger = s.ledger ∧ (swap s).stateBlocks = s.stateBlocks := by
      unfold swap
      split_ifs <;> exact ⟨rfl,rfl⟩
    exact fine_ok (I.moves (hrest.1 ▸ I.frontiers) (fun x hx => .inl (present_swap hx))
      (hrest.2 ▸ I.verifying))
  | visit =>
    have hrest : (visitItem C disableDelete s).ledger = s.ledger ∧
        (visitItem C disableDelete s).stateBlocks = s.stateBlocks := by
      unfold visitItem
      split
      · exact ⟨rfl,rfl⟩
      · split <;> exact ⟨rfl,rfl⟩
    exact fine_ok (I.moves (hrest.1 ▸ I.frontiers) (fun x hx => .inl (present_visit hx))
      (hrest.2 ▸ I.verifying))
  | satisfy =>
    refine fine_ok (I.moves ?_ (fun x hx => .inl (present_satisfy hx)) ?_)
    · unfold satisfy
      split
      · exact I.frontiers
      · rw [(add_rest _ _).1]
        exact I.frontiers
    · unfold satisfy
      split
      · exact I.verifying
      · exact add_verifying I.verifying
  | delete =>
    have hrest : (deleteKey s).ledger = s.ledger ∧ (deleteKey s).stateBlocks = s.stateBlocks := by
      unfold deleteKey
      split <;> exact ⟨rfl,rfl⟩
    exact fine_ok (I.moves (hrest.1 ▸ I.frontiers) (fun x hx => .inl (present_delete hx))
      (hrest.2 ▸ I.verifying))

theorem Inv.run (S : HashSound C U) (I : Inv C U s) {es : List Event}
    (hes : ∀ x, .add x ∈ es → x.block.hashables ∈ U ∧ x.verified = .unknown ∧ Accompanied C U x) :
    Fine C U (run C disableDelete s es) := by
  induction es generalizing s with
  | nil => exact fine_ok I
  | cons e es ih =>
    have hfine : Fine C U (Intake.step C disableDelete s e) :=
      I.step S (fun x hx => hes x (hx ▸ mem_cons_self))
    rw [run]
    cases hs : Intake.step C disableDelete s e with
    | error a =>
      rw [hs] at hfine
      exact ⟨nofun,fun h => hfine.2 (congrArg Except.error (Except.error.inj h))⟩
    | ok s₁ => exact ih (hfine.1 s₁ hs) (fun x hx => hes x (mem_cons_of_mem _ hx))

theorem start_inv (S : HashSound C U) (hr : Reachable C U L) : Inv C U { ledger := L } := by
  have hnone : ∀ x, ¬ Present { ledger := L } x := by
    rintro x (h | ⟨d,h⟩ | ⟨k,h⟩)
    · cases h
    · cases h
    · simp at h
  exact ⟨reachable_frontiersOwned S hr,fun x hx => absurd hx (hnone x),
    fun x hx => absurd hx (hnone x),fun x hx => absurd hx (hnone x),
    fun x hx => absurd hx not_mem_nil⟩

end

/-- What the tags of a state promise: each one in the pipeline is true, and the
next block is accepted only if its own account signed it, or the epoch signer
if it is an epoch block. -/
structure Sound (C : Constants) (U : Set Hashables) (s : State) : Prop where
  tags : ∀ x, Present s x → Truthful C U x.block x.verified
  accepted : ∀ info rest now result L', s.blocks = info :: rest →
    process C now s.ledger info.block info.verified = some (result,L') →
    result.code = .progress → Recorded C U L' info.block

/-- When every block comes alone or with its own account, all tags are true in
every state of the pipeline and the assertion on the account never fails. -/
theorem pipeline_sound (S : HashSound C U) (hr : Reachable C U L) (disableDelete : Bool)
    {es : List Event} (hes : ∀ x, .add x ∈ es →
      x.block.hashables ∈ U ∧ x.verified = .unknown ∧ Accompanied C U x) :
    run C disableDelete { ledger := L } es ≠ .error .releaseAssert ∧
    ∀ s, run C disableDelete { ledger := L } es = .ok s → Sound C U s := by
  obtain ⟨hinv,hassert⟩ : Fine C U (run C disableDelete { ledger := L } es) :=
    (start_inv S hr).run S hes
  refine ⟨hassert,fun s hs => ⟨(hinv s hs).truthful,fun info rest now result L' hq hp hc => ?_⟩⟩
  have I := hinv s hs
  have hpresent : Present s info := .inl (by simp [queue,hq])
  rcases process_fair S I.frontiers (I.mem info hpresent) (I.truthful info hpresent) result L' hp
    with ⟨h,-⟩ | ⟨-,h,-⟩
  · exact absurd hc h
  · exact h

theorem pipeline_sound_sample :
    Accompanied sample sampleBlocks ⟨sampleOpen,7,.unknown⟩ ∧
    ∃ s, run sample false { ledger := sampleSent }
        [.add ⟨sampleOpen,7,.unknown⟩,.verify] = .ok s ∧
      s.blocks.map UncheckedInfo.verified = [.valid] ∧ Sound sample sampleBlocks s := by
  have hA : Accompanied sample sampleBlocks ⟨sampleOpen,7,.unknown⟩ := .inr (.state _ rfl)
  have hes : ∀ x, .add x ∈ [Event.add ⟨sampleOpen,7,.unknown⟩,.verify] →
      x.block.hashables ∈ sampleBlocks ∧ x.verified = .unknown ∧
        Accompanied sample sampleBlocks x := by
    intro x hx
    have : x = ⟨sampleOpen,7,.unknown⟩ := by simpa using hx
    rw [this]
    exact ⟨.inr (.inr rfl),rfl,hA⟩
  obtain ⟨-,hsound⟩ := pipeline_sound sample_sound sampleSent_reachable false hes
  have hrun : (match run sample false { ledger := sampleSent }
      [.add ⟨sampleOpen,7,.unknown⟩,.verify] with
      | .ok s => decide (s.blocks.map UncheckedInfo.verified = [.valid])
      | .error _ => false) = true := by
    decide +kernel
  cases hs : run sample false { ledger := sampleSent }
      [.add ⟨sampleOpen,7,.unknown⟩,.verify] with
  | error a =>
    rw [hs] at hrun
    cases hrun
  | ok s =>
    rw [hs] at hrun
    exact ⟨hA,s,rfl,of_decide_eq_true hrun,hsound s hs⟩

def forgery : Constants := { sample with
  validateMessage := fun account _ signature => decide (signature ≠ account.setWidth 512) }

def forgedSend : Block := ⟨sampleSend.hashables,1,0⟩

def forgedOpen : Block := ⟨sampleOpen.hashables,5,0⟩

def forgedEvents : List Event :=
  [.add ⟨forgedSend,0,.unknown⟩,.process 0,.add ⟨forgedOpen,5,.unknown⟩,.verify]

/-- The block of account 7 is queued as valid though only account 5 signed it,
the ledger accepts it, and then the assertion on the account fails. -/
theorem pipeline_forged :
    forgery.validateMessage 7 (forgery.blockHash forgedOpen) forgedOpen.signature = true ∧
    (∃ s, run forgery false { ledger := storeInitialize forgery 0 } forgedEvents = .ok s ∧
      s.blocks = [⟨forgedOpen,5,.valid⟩] ∧
      (process forgery 1 s.ledger forgedOpen .valid).map (fun o => o.1.code) = some .progress) ∧
    run forgery false { ledger := storeInitialize forgery 0 } (forgedEvents ++ [.process 1]) =
      .error .releaseAssert := by
  have hrun : (match run forgery false { ledger := storeInitialize forgery 0 } forgedEvents with
      | .ok s => decide (s.blocks = [⟨forgedOpen,5,.valid⟩]) &&
          decide ((process forgery 1 s.ledger forgedOpen .valid).map (fun o => o.1.code) =
            some .progress)
      | .error _ => false) = true := by
    decide +kernel
  have hlast : (match run forgery false { ledger := storeInitialize forgery 0 }
      (forgedEvents ++ [.process 1]) with
      | .ok _ => false
      | .error a => decide (a = .releaseAssert)) = true := by
    decide +kernel
  refine ⟨by decide +kernel,?_,?_⟩
  · cases hs : run forgery false { ledger := storeInitialize forgery 0 } forgedEvents with
    | error a =>
      rw [hs] at hrun
      cases hrun
    | ok s =>
      rw [hs] at hrun
      simp only [and_eq_true,decide_eq_true_eq] at hrun
      exact ⟨s,rfl,hrun⟩
  · cases hs : run forgery false { ledger := storeInitialize forgery 0 }
        (forgedEvents ++ [.process 1]) with
    | ok s =>
      rw [hs] at hlast
      cases hlast
    | error a =>
      rw [hs] at hlast
      rw [of_decide_eq_true hlast]
end Vxldollar.Tags
