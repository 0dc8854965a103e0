import Vxldollar.Gaps
import Vxldollar.Independence
import Vxldollar.Intake

/-!
# The order of arrival does not matter

Blocks that some order turns into a ledger reach that ledger in every order. A
block that comes too early is parked under the block it misses; when that one is
stored, a query goes into the same first-in first-out buffer behind the parked
block, so no wake-up is lost. Each block still missing is on its way or parked
under another missing block, hence none is missing once everything is quiet.
-/

namespace Vxldollar.Arrivals
open Blocks Store Vxldollar.Lattice Chains Mirror Process ProcessSpec Acceptance Certificates Runs
  Gaps Independence Option Table Set
open Intake hiding add
open List (mem_append mem_cons mem_append_left mem_append_right mem_cons_self mem_cons_of_mem
  not_mem_nil length_cons length_append length_nil length_singleton)

/-- Blocks accepted one after the other. No epoch block opens an account. -/
inductive Accepts (C : Constants) : Ledger → List Block → Ledger → Prop
  | nil (L : Ledger) : Accepts C L [] L
  | cons {L L₁ L' : Ledger} {b : Block} {bs : List Block} {now : ℕ} {result : ProcessReturn} :
      process C now L b .unknown = some (result,L₁) → result.code = .progress →
      (C.isEpochLink b.link = true → ∃ info, L.accounts[b.account]? = some info) →
      Accepts C L₁ bs L' → Accepts C L (b :: bs) L'

def arrival (b : Block) : UncheckedInfo := ⟨b,0,.unknown⟩

structure SameLedger (L L' : Ledger) : Prop where
  agree : Agree L L'
  blocks : ∀ h : BlockHash, L.blocks[h]?.map StoredBlock.block = L'.blocks[h]?.map StoredBlock.block
  confirmationHeight : L.confirmationHeight = L'.confirmationHeight
  cementedCount : L.cache.cementedCount = L'.cache.cementedCount

variable {C : Constants} {U : Set Hashables} {S : HashSound C U} {X Y Z : Nodes}
  {L L' : Ledger} {bs : List Block} {b : Block} {n : Node}

section
structure Wanted (C : Constants) (X Z : Nodes) (b : Block) (n : Node) : Prop where
  node : Z (C.blockHash b) = some n
  hashables : b.hashables = n.hashables
  certified : Certified C Z b n
  fresh : X (C.blockHash b) = none
  follows : n.move = .upgrade → n.previous ≠ 0

structure Target (S : HashSound C U) (X : Nodes) (L : Ledger) (bs : List Block) (Z : Nodes)
    (L' : Ledger) : Prop where
  start : Valid S L X
  valid : Valid S L' Z
  part : Part X Z
  wanted : ∀ b ∈ bs, ∃ n, Wanted C X Z b n
  only : ∀ h n, Z h = some n → X h = some n ∨ ∃ b ∈ bs, C.blockHash b = h
  kept : ∀ (h : BlockHash) (r : StoredBlock), L.blocks[h]? = some r →
    ∃ r', L'.blocks[h]? = some r' ∧ r'.block = r.block
  stored : ∀ b ∈ bs, ∃ r, L'.blocks[C.blockHash b]? = some r ∧ r.block = b
  confirmationHeight : L'.confirmationHeight = L.confirmationHeight
  cementedCount : L'.cache.cementedCount = L.cache.cementedCount

variable {now : ℕ} {hash h : BlockHash}

section
variable (G : Growth.Grows L L' hash b n now)
include G

theorem grows_kept {r : StoredBlock} (hr : L.blocks[h]? = some r) (hne : h ≠ hash) :
    ∃ r', L'.blocks[h]? = some r' ∧ r'.block = r.block := by
  have hg := G.blocks h
  rw [if_neg hne,hr] at hg
  split_ifs at hg with hp
  · exact ⟨_,hg,rfl⟩
  · exact ⟨r,hg,rfl⟩

theorem grows_stored :
    ∃ r, L'.blocks[hash]? = some r ∧ r.block = b := by
  have hg := G.blocks hash
  rw [if_pos rfl] at hg
  exact ⟨_,hg,rfl⟩

end

variable (V : Valid S L X)
include V

theorem progress_grows {verified : SignatureVerification} {result : ProcessReturn}
    (hU : b.hashables ∈ U) (hh : Honest C L b verified) (ho : EpochOpens C L b)
    (hp : process C now L b verified = some (result,L')) (hc : result.code = .progress) :
    ∃ n, X (C.blockHash b) = none ∧ b.hashables = n.hashables ∧
      Admits C U X (C.blockHash b) n ∧ Certified C X b n ∧
      Growth.Grows L L' (C.blockHash b) b n now ∧ Valid S L' (add X (C.blockHash b) n) := by
  have hA := (process_accepts_iff now V.mirrors V.built hU V.supply_lt hh ho).mp ⟨result,L',hp,hc⟩
  obtain ⟨-,hk,ha,G,V'⟩ := (V.processed hU hh ho hp).resolve_left fun h => h.1 hc
  exact ⟨_,hk,rfl,ha,acceptable_certified V.mirrors V.built hh hA,G,V'⟩

theorem target_refl : Target S X L [] X L where
  start := V
  valid := V
  part := fun _ _ hn => hn
  wanted := fun _ hb => absurd hb not_mem_nil
  only := fun _ _ hn => .inl hn
  kept := fun _ r hr => ⟨r,hr,rfl⟩
  stored := fun _ hb => absurd hb not_mem_nil
  confirmationHeight := rfl
  cementedCount := rfl

theorem target_cons {L₁ : Ledger} (hk : X (C.blockHash b) = none) (hbn : b.hashables = n.hashables)
    (hc : Certified C X b n) (ha : Admits C U X (C.blockHash b) n)
    (hup : n.move = .upgrade → n.previous ≠ 0) (G : Growth.Grows L L₁ (C.blockHash b) b n now)
    (T : Target S (add X (C.blockHash b) n) L₁ bs Z L') : Target S X L (b :: bs) Z L' := by
  have hpart : Part X Z := by
    intro h m hm
    exact T.part h m (add_old hk hm)
  have hprev : X n.previous = Z n.previous := by
    by_cases h0 : n.previous = 0
    · rw [h0,built_zero V.built,built_zero T.valid.built]
    · obtain ⟨p,hp,-⟩ := ha.following h0
      rw [hp,hpart _ p hp]
  have hself : Z (C.blockHash b) = some n :=
    T.part _ n add_new
  refine ⟨V,T.valid,hpart,fun c hc' => ?_,fun h m hm => ?_,fun h r hr => ?_,fun c hc' => ?_,
    T.confirmationHeight.trans G.confirmationHeight,T.cementedCount.trans G.cementedCount⟩
  · rcases mem_cons.mp hc' with rfl | hc'
    · exact ⟨n,hself,hbn,hc.congr hprev,hk,hup⟩
    · obtain ⟨m,W⟩ := T.wanted c hc'
      refine ⟨m,W.node,W.hashables,W.certified,?_,W.follows⟩
      by_contra hX
      obtain ⟨x,hx⟩ := ne_none_iff_exists'.mp hX
      have hadd : add X (C.blockHash b) n (C.blockHash c) = some x :=
        add_old hk hx
      rw [W.fresh] at hadd
      cases hadd
  · rcases T.only h m hm with hm | ⟨c,hc',rfl⟩
    · rcases (add_eq_some hk).mp hm with ⟨rfl,-⟩ | hm
      · exact .inr ⟨b,mem_cons_self,rfl⟩
      · exact .inl hm
    · exact .inr ⟨c,mem_cons_of_mem _ hc',rfl⟩
  · have hne : h ≠ C.blockHash b := by
      rintro rfl
      rw [V.mirrors.absent.mpr hk] at hr
      cases hr
    obtain ⟨r₁,hr₁,h₁⟩ := grows_kept G hr hne
    obtain ⟨r',hr',h'⟩ := T.kept h r₁ hr₁
    exact ⟨r',hr',h'.trans h₁⟩
  · rcases mem_cons.mp hc' with rfl | hc'
    · obtain ⟨r₁,hr₁,h₁⟩ := grows_stored G
      obtain ⟨r',hr',h'⟩ := T.kept _ r₁ hr₁
      exact ⟨r',hr',h'.trans h₁⟩
    · exact T.stored c hc'

theorem accepts_target (hU : ∀ b ∈ bs, b.hashables ∈ U) (ha : Accepts C L bs L') :
    ∃ Z, Target S X L bs Z L' := by
  induction ha generalizing X with
  | nil L => exact ⟨X,target_refl V⟩
  | @cons L L₁ L' b bs now result hp hc hepoch _ ih =>
    have ho : EpochOpens C L b := by
      rintro ⟨signer,hs,-⟩ hfree
      obtain ⟨info,hi⟩ := hepoch (epochLink_of_signer hs)
      rw [hfree] at hi
      cases hi
    obtain ⟨n,hk,hbn,hadm,hcert,G,V₁⟩ :=
      progress_grows V (hU b mem_cons_self) honest_unknown ho hp hc
    obtain ⟨Z,T⟩ := ih V₁ (fun c hc' => hU c (mem_cons_of_mem _ hc'))
    refine ⟨Z,target_cons V hk hbn hcert hadm ?_ G T⟩
    intro hup h0
    have hself : add X (C.blockHash b) n (C.blockHash b) = some n :=
      add_new
    obtain ⟨k,hform,hlink⟩ := upgrade_form V₁.built hself hup
    obtain ⟨info,hi⟩ := hepoch (by rw [Block.link,hbn,hform]; exact hlink)
    obtain ⟨g,m,hh,hacc,-⟩ := V.mirrors.account _ info hi
    refine hadm.unopened h0 g m hh.1 (hacc.trans ?_)
    rw [Block.account,hbn]
    exact (built_account_field V₁.built hself).1 (.inr (by rw [hform]; rfl))

end

section
variable {s : State} {info : UncheckedInfo} {d : BlockHash}

structure Known (C : Constants) (bs : List Block) (Z : Nodes) (info : UncheckedInfo) : Prop where
  mem : info.block ∈ bs
  account : info.account = 0
  vouched : ∀ n, Z (C.blockHash info.block) = some n → Vouched C info.block n info.verified

def Awaits (C : Constants) (Z : Nodes) (d : BlockHash) (info : UncheckedInfo) : Prop :=
  ∃ n, Z (C.blockHash info.block) = some n ∧ d ∈ deps n

theorem known_arrival (hb : b ∈ bs) : Known C bs Z (arrival b) :=
  ⟨hb,rfl,fun _ _ => ⟨nofun,nofun⟩⟩

theorem Target.not_genesis (T : Target S X L bs Z L') (W : Wanted C X Z b n) :
    C.blockHash b ≠ C.genesisHash := by
  intro e
  have hf := W.fresh
  rw [e,built_genesis T.start.built] at hf
  cases hf

theorem blockSource_eq (M : Mirrors L Y) (hY : Built S Y) (hZ : Built S Z) (hp : Part Y Z)
    (hn : Z (C.blockHash b) = some n) (hbn : b.hashables = n.hashables) (hm : n.move = .receive d)
    (hprev : n.previous ≠ 0 → ∃ p, Y n.previous = some p) :
    blockSource L b = some d := by
  have hj : Justified C U Z (C.blockHash b) n := by
    refine (built_justified hZ hn).resolve_left ?_
    rintro ⟨-,rfl⟩
    cases hm
  have hmove := justified_move hj
  rw [hm,← hbn] at hmove
  have hpn : n.previous = b.hashables.previous := by rw [hbn,Node.previous]
  unfold blockSource
  cases hh : b.hashables with
  | state k =>
    rw [hh] at hmove hpn
    have hpk : n.previous = k.previous := hpn
    simp only [moveOf] at hmove
    split_ifs at hmove with hsend hl he
    cases hmove
    have hno : isSend L k = some false := by
      unfold isSend
      by_cases h0 : k.previous = 0
      · rw [if_pos h0]
      · obtain ⟨p,hpY⟩ := hprev (hpk ▸ h0)
        rw [hp _ p hpY] at hsend
        rw [if_neg h0,← hpk,M.balance hY hpY,map_some]
        exact congrArg some (decide_eq_false hsend)
    simp [hno]
  | receive k =>
    rw [hh] at hmove
    cases hmove
    simp [Block.source,hh,Hashables.source]
  | open_ k =>
    rw [hh] at hmove
    cases hmove
    simp [Block.source,hh,Hashables.source]
  | send k =>
    rw [hh] at hmove
    cases hmove
  | change k =>
    rw [hh] at hmove
    cases hmove

inductive Outcome (C : Constants) (S : HashSound C U) (bs : List Block) (Z Y : Nodes) (s : State)
    (info : UncheckedInfo) : State → Prop
  | old {n : Node} : Y (C.blockHash info.block) = some n → Outcome C S bs Z Y s info s
  | parked (d : BlockHash) (info' : UncheckedInfo) : info'.block = info.block →
      Known C bs Z info' → Awaits C Z d info' → Y d = none →
      Outcome C S bs Z Y s info (put s d info')
  | stored (L₁ : Ledger) (n : Node) (now : ℕ) (qs : List BlockHash) :
      Y (C.blockHash info.block) = none → Z (C.blockHash info.block) = some n →
      Growth.Grows s.ledger L₁ (C.blockHash info.block) info.block n now →
      Valid S L₁ (add Y (C.blockHash info.block) n) →
      Outcome C S bs Z Y s info { s with
        ledger := L₁, buffer := s.buffer ++ (C.blockHash info.block :: qs).map Item.query }

theorem progressed_eq (hk : info.account = 0) (stored : StoredBlock) :
    ∃ qs, progressed C s info stored = .ok { s with
      buffer := s.buffer ++ (C.blockHash info.block :: qs).map Item.query } := by
  unfold progressed
  rw [if_neg (fun h => h.1 hk)]
  by_cases ht : triggersDestination stored = true
  · refine ⟨[if info.block.destination = 0 then info.block.link else info.block.destination],?_⟩
    simp [ht,trigger]
  · exact ⟨[],by simp only [ht]; rfl⟩

theorem processOne_waits {now : ℕ} {code : ProcessResult} (hk : Known C bs Z info)
    (hn : Z (C.blockHash info.block) = some n) (hd : d ∈ deps n) (hmiss : Y d = none)
    (hw : Waits C s.ledger info.block n code (process C now s.ledger info.block info.verified))
    (hcode : code = .gapPrevious ∧ info.block.previous = d ∨
      code = .gapSource ∧ blockSource s.ledger info.block = some d) :
    ∃ s', processOne C now s info = .ok s' ∧ Outcome C S bs Z Y s info s' := by
  obtain ⟨tag,previousBalance,hout,hv⟩ := hw
  have hknown : Known C bs Z { info with verified := tag } := by
    refine ⟨hk.mem,hk.account,fun m hm => ?_⟩
    cases hn.symm.trans hm
    exact hv
  refine ⟨_,?_,.parked d { info with verified := tag } rfl hknown ⟨n,hn,hd⟩ hmiss⟩
  unfold processOne
  rw [hout,reject]
  rcases hcode with ⟨rfl,hd⟩ | ⟨rfl,hd⟩
  · simp only [hd]
  · simp only [hd]

theorem processOne_outcome (T : Target S X L bs Z L') (VY : Valid S s.ledger Y)
    (hp : Part Y Z) (hk : Known C bs Z info) (now : ℕ) :
    ∃ s', processOne C now s info = .ok s' ∧ Outcome C S bs Z Y s info s' := by
  obtain ⟨n,W⟩ := T.wanted info.block hk.mem
  have hv := hk.vouched n W.node
  have hprevious : info.block.previous = n.previous := by
    rw [Block.previous,W.hashables,Node.previous]
  cases hY : Y (C.blockHash info.block) with
  | some m =>
    cases W.node.symm.trans (hp _ m hY)
    refine ⟨s,?_,.old hY⟩
    unfold processOne
    rw [process_old VY.mirrors VY.built hY W.hashables,reject]
  | none =>
    by_cases hmiss : n.previous ≠ 0 ∧ Y n.previous = none
    · exact processOne_waits hk W.node (previous_dep hmiss.1) hmiss.2
        (waits_previous VY.mirrors T.valid.built W.node W.hashables W.certified.signed hv hY
          hmiss.1 hmiss.2) (Or.inl ⟨rfl,hprevious⟩)
    have hprev : n.previous ≠ 0 → ∃ p, Y n.previous = some p := by
      intro h0
      exact ne_none_iff_exists'.mp (fun e => hmiss ⟨h0,e⟩)
    by_cases hsrc : ∃ d, n.move = .receive d ∧ Y d = none
    · obtain ⟨d,hm,hd⟩ := hsrc
      exact processOne_waits hk W.node (Or.inr hm) hd
        (waits_source VY.mirrors VY.built T.valid.built hp W.node W.hashables W.certified.signed
          hY hm hprev hd)
        (Or.inr ⟨rfl,blockSource_eq VY.mirrors VY.built T.valid.built hp W.node W.hashables hm
          hprev⟩)
    have hdeps : ∀ d ∈ deps n, ∃ m, Y d = some m := by
      rintro d (⟨rfl,h0⟩ | hm)
      · exact hprev h0
      · exact ne_none_iff_exists'.mp (fun e => hsrc ⟨d,hm,e⟩)
    obtain ⟨result,L₁,hproc,hcode,G,V₁⟩ := part_accepts now VY T.valid.built hp W.node
      W.hashables W.certified hv (T.not_genesis W) hY hdeps W.follows
    obtain ⟨r,hr,-⟩ := grows_stored G
    obtain ⟨qs,hqs⟩ := progressed_eq hk.account r
    refine ⟨_,?_,.stored L₁ n now qs hY W.node G V₁⟩
    unfold processOne
    rw [hproc]
    simp only [hcode,hr]
    exact hqs

end

section
variable {s : State} {info : UncheckedInfo} {l : List Item}

def Held (Y : Nodes) : List Item → Prop
  | [] => True
  | .insert d _ :: rest => (Y d = none ∨ .query d ∈ rest) ∧ Held Y rest
  | .query _ :: rest => Held Y rest

inductive Settled (C : Constants) (Y : Nodes) (s : State) : Block → Prop
  | stored {b : Block} {n : Node} : Y (C.blockHash b) = some n → Settled C Y s b
  | queued {info : UncheckedInfo} : info ∈ queue s → Settled C Y s info.block
  | buffered {d : BlockHash} {info : UncheckedInfo} : .insert d info ∈ items s →
      Settled C Y s info.block
  | parked {k : UncheckedKey} {info : UncheckedInfo} : s.unchecked[k]? = some info →
      k ∉ s.deleteQueue → Y k.previous = none ∨ .query k.previous ∈ items s →
      Settled C Y s info.block

/-- The invariant of the intake: what is where, and that no added block is
lost. -/
structure Inv (T : Target S X L bs Z L') (disableDelete : Bool) (added : Set Block) (Y : Nodes)
    (s : State) : Prop where
  valid : Valid S s.ledger Y
  base : Part X Y
  part : Part Y Z
  blocks : ∀ (h : BlockHash) (r : StoredBlock), s.ledger.blocks[h]? = some r →
    ∃ r', L'.blocks[h]? = some r' ∧ r'.block = r.block
  confirmationHeight : s.ledger.confirmationHeight = L'.confirmationHeight
  cementedCount : s.ledger.cache.cementedCount = L'.cache.cementedCount
  queued : ∀ info ∈ queue s, Known C bs Z info
  verifying : ∀ info ∈ s.stateBlocks, info.block.type = .state ∨ info.block.type = .open_
  buffered : ∀ d info, .insert d info ∈ items s → Known C bs Z info ∧ Awaits C Z d info
  parked : ∀ (k : UncheckedKey) (info : UncheckedInfo), s.unchecked[k]? = some info →
    Known C bs Z info ∧ Awaits C Z k.previous info ∧ k.hash = C.blockHash info.block
  held : Held Y (items s)
  settled : ∀ b ∈ added, Settled C Y s b
  clean : disableDelete = false → ∀ (k : UncheckedKey) (info : UncheckedInfo),
    s.unchecked[k]? = some info →
    k ∈ s.deleteQueue ∨ Y k.previous = none ∨ .query k.previous ∈ items s

theorem held_insert {d : BlockHash} (h : Held Y l) (hd : Y d = none) :
    Held Y (l ++ [.insert d info]) := by
  induction l with
  | nil => exact ⟨.inl hd,trivial⟩
  | cons i l ih =>
    cases i with
    | insert e j => exact ⟨h.1.imp_right (fun hq => mem_append_left _ hq),ih h.2⟩
    | query e => exact ih h

theorem held_stored {k : BlockHash} (h : Held Y l) (qs : List BlockHash) :
    Held (add Y k n) (l ++ (k :: qs).map Item.query) := by
  induction l with
  | nil =>
    have hq : ∀ qs : List BlockHash, Held (add Y k n) (qs.map Item.query) := by
      intro qs
      induction qs with
      | nil => trivial
      | cons q qs ih => exact ih
    exact hq (k :: qs)
  | cons i l ih =>
    cases i with
    | insert e j =>
      refine ⟨?_,ih h.2⟩
      by_cases hek : e = k
      · right
        apply mem_append_right
        rw [hek]
        exact mem_cons_self
      · rcases h.1 with hY | hq
        · exact .inl ((Function.update_of_ne hek _ _).trans hY)
        · exact .inr (mem_append_left _ hq)
    | query e => exact ih h

end

section
variable {s s' : State} {info : UncheckedInfo} {disableDelete : Bool}

noncomputable def missing (Z Y : Nodes) : ℕ := {h | Z h ≠ none ∧ Y h = none}.ncard

def queries (l : List Item) : ℕ := l.countP (fun i => match i with
  | .query _ => true
  | .insert _ _ => false)

/-- How many moves the blocks and items are from rest, while no block is stored
and no query answered. -/
def load (s : State) : ℕ := 7*s.found.length+6*s.stateBlocks.length+5*s.blocks.length+
  4*s.buffer.length+3*s.backBuffer.length+s.deleteQueue.length

noncomputable def distance (Z Y : Nodes) (s : State) : ℕ ×ₗ ℕ ×ₗ ℕ :=
  toLex (missing Z Y,toLex (queries (items s),load s))

theorem distance_load (hi : items s' = items s) (hl : load s' < load s) :
    distance Z Y s' < distance Z Y s := by
  apply Prod.Lex.toLex_lt_toLex.mpr
  refine .inr ⟨rfl,Prod.Lex.toLex_lt_toLex.mpr (.inr ⟨?_,hl⟩)⟩
  simp [hi]

theorem load_add (s : State) (info : UncheckedInfo) : load (Intake.add s info) ≤ load s+6 := by
  unfold Intake.add load
  split_ifs
  · simp only [length_append,length_singleton]
    omega
  · simp only [length_append,length_singleton]
    omega

theorem missing_add {k : BlockHash} (hZ : Built S Z) (hk : Z k = some n) (hY : Y k = none) :
    missing Z (add Y k n) < missing Z Y := by
  apply ncard_lt_ncard
  · refine ⟨fun h hh => ⟨hh.1,?_⟩,fun hsub => ?_⟩
    · have hne : h ≠ k := by
        rintro rfl
        exact absurd hh.2 (by simp)
      rw [← hh.2,add,Function.update_of_ne hne]
    · have hmem : k ∈ {h | Z h ≠ none ∧ Y h = none} := ⟨by rw [hk]; rintro ⟨⟩,hY⟩
      exact absurd (hsub hmem).2 (by simp)
  · exact (Causal.Built.finite hZ).subset fun h hh => hh.1

theorem verify_load (h : s.stateBlocks ≠ []) (hs : verifyStateBlock C s = .ok s') :
    items s' = items s ∧ load s' < load s := by
  unfold verifyStateBlock at hs
  cases hb : s.stateBlocks with
  | nil => exact absurd hb h
  | cons info rest =>
    rw [hb] at hs
    cases hv : verifyingAccount C info with
    | none =>
      simp only [hv] at hs
      cases hs
    | some account =>
      simp only [hv] at hs
      cases hs
      refine ⟨rfl,?_⟩
      have hlen : ∀ o : Option UncheckedInfo, o.toList.length ≤ 1 := by
        intro o
        cases o <;> simp
      have := hlen (verifiedInfo C info
        (!C.validateMessage account (C.blockHash info.block) info.block.signature))
      simp only [load,hb,length_append,length_cons]
      omega

theorem satisfy_load (h : s.found ≠ []) :
    items (satisfy s) = items s ∧ load (satisfy s) < load s := by
  unfold satisfy
  cases hf : s.found with
  | nil => exact absurd hf h
  | cons info rest =>
    refine ⟨(add_rest { s with found := rest } info).2.1,?_⟩
    have := load_add { s with found := rest } info
    simp only [load,hf,length_cons] at this ⊢
    omega

theorem delete_load (hf : s.found = []) (h : s.deleteQueue ≠ []) :
    items (deleteKey s) = items s ∧ load (deleteKey s) < load s := by
  unfold deleteKey
  cases hd : s.deleteQueue with
  | nil => exact absurd hd h
  | cons key rest =>
    simp only [hf]
    refine ⟨rfl,?_⟩
    simp only [load,hf,hd,length_cons]
    omega

variable (hf : s.found = []) (hd : s.deleteQueue = [])
include hf hd

theorem swap_load (hb : s.backBuffer = []) (h : s.buffer ≠ []) :
    items (swap s) = items s ∧ load (swap s) < load s := by
  have hw : writing s = false := by simp [writing,hf,hd,hb]
  have hlen : 0 < s.buffer.length := List.length_pos_iff.mpr h
  unfold swap
  simp only [hw,Bool.false_eq_true,if_false]
  refine ⟨by simp [items,hb],?_⟩
  simp only [load,length_nil]
  omega

theorem visit_closer (hb : s.backBuffer ≠ []) :
    distance Z Y (visitItem C disableDelete s) < distance Z Y s := by
  unfold visitItem
  have hidle : (!s.found.isEmpty || !s.deleteQueue.isEmpty) = false := by simp [hf,hd]
  rw [hidle,if_neg Bool.false_ne_true]
  cases hback : s.backBuffer with
  | nil => exact absurd hback hb
  | cons item rest =>
    apply Prod.Lex.toLex_lt_toLex.mpr
    refine .inr ⟨rfl,Prod.Lex.toLex_lt_toLex.mpr ?_⟩
    cases item with
    | insert d info =>
      refine .inr ⟨?_,?_⟩
      · simp [queries,items,hback]
      · simp only [load,hback,length_cons]
        omega
    | query d =>
      left
      simp [queries,items,hback]

end

section
variable {s s' : State} {info : UncheckedInfo} {disableDelete : Bool} {added : Set Block}

theorem add_verifying (hk : info.account = 0)
    (hs : ∀ x ∈ s.stateBlocks, x.block.type = .state ∨ x.block.type = .open_) :
    ∀ x ∈ (Intake.add s info).stateBlocks, x.block.type = .state ∨ x.block.type = .open_ := by
  unfold Intake.add
  split_ifs with h
  · intro x hx
    rcases mem_append.mp hx with hx | hx
    · exact hs x hx
    · obtain rfl := List.mem_singleton.mp hx
      rcases h.2 with h | h | h
      · exact .inl h
      · exact .inr h
      · exact absurd hk h
  · exact hs

theorem verified_known (T : Target S X L bs Z L') (hk : Known C bs Z info)
    (ht : info.block.type = .state ∨ info.block.type = .open_) :
    ∃ account info', verifyingAccount C info = some account ∧
      verifiedInfo C info
        (!C.validateMessage account (C.blockHash info.block) info.block.signature) = some info' ∧
      info'.block = info.block ∧ Known C bs Z info' := by
  obtain ⟨n,W⟩ := T.wanted info.block hk.mem
  have hknown : ∀ tag, Vouched C info.block n tag → Known C bs Z { info with verified := tag } := by
    intro tag hv
    refine ⟨hk.mem,hk.account,fun m hm => ?_⟩
    cases W.node.symm.trans hm
    exact hv
  unfold verifyingAccount verifiedInfo
  by_cases he : hasEpochLink C info.block = true
  · have hlink : C.isEpochLink info.block.link = true := by
      rw [hasEpochLink,Bool.and_eq_true] at he
      exact he.2
    obtain ⟨-,signer,epoch,hs,-⟩ := epoch_links _ hlink
    simp only [he]
    refine ⟨signer,_,hs,rfl,rfl,hknown _ ?_⟩
    cases hgood : C.validateMessage signer (C.blockHash info.block) info.block.signature with
    | true => exact ⟨nofun,nofun⟩
    | false => exact ⟨nofun,fun _ => ⟨signer,hs,hgood⟩⟩
  · have hm : n.move ≠ .upgrade := by
      intro hm
      obtain ⟨k,hform,hlink⟩ := upgrade_form T.valid.built W.node hm
      apply he
      rw [hasEpochLink,Block.link,W.hashables,hform]
      simp only [Hashables.link,hlink,Bool.and_true]
      exact decide_eq_true (epoch_links _ hlink).1
    have hacc : info.block.account = n.account := by
      rw [Block.account,W.hashables]
      refine (built_account_field T.valid.built W.node).1 ?_
      rw [Block.type,W.hashables] at ht
      exact ht.symm
    have hgood := transfer_signed W.certified.signed hm
    rw [← hacc] at hgood
    refine ⟨info.block.account,{ info with verified := .valid },?_,?_,rfl,
      hknown .valid (vouched_valid W.certified.signed hm)⟩
    · simp [he,hk.account]
    · simp [he,hgood]

theorem add_none {k d : BlockHash} (hY : Y d = none) : add Y k n d = none ∨ d = k := by
  by_cases hd : d = k
  · exact .inr hd
  · exact .inl ((Function.update_of_ne hd _ _).trans hY)

theorem target_inj (T : Target S X L bs Z L') {b c : Block} (hb : b ∈ bs) (hc : c ∈ bs)
    (he : C.blockHash b = C.blockHash c) : b = c := by
  obtain ⟨r,hr,rfl⟩ := T.stored b hb
  obtain ⟨q,hq,rfl⟩ := T.stored c hc
  rw [he,hq] at hr
  rw [some.inj hr]

theorem items_back {i : Item} {rest : List Item} (hback : s.backBuffer = i :: rest) :
    items s = i :: (rest ++ s.buffer) := by
  rw [items,hback]
  rfl

section
variable {T : Target S X L bs Z L'} (I : Inv T disableDelete added Y s)
  {rest : List UncheckedInfo} {d : BlockHash}
include I

theorem Inv.requeue {added' : Set Block} (hl : s'.ledger = s.ledger) (hi : items s' = items s)
    (hu : s'.unchecked = s.unchecked) (hd : s'.deleteQueue = s.deleteQueue)
    (hq : ∀ x ∈ queue s', Known C bs Z x)
    (hv : ∀ x ∈ s'.stateBlocks, x.block.type = .state ∨ x.block.type = .open_)
    (ha : ∀ b ∈ added', b ∈ added ∨ ∃ x ∈ queue s', x.block = b)
    (hback : ∀ x ∈ queue s, Settled C Y s' x.block) :
    Inv T disableDelete added' Y s' where
  valid := hl ▸ I.valid
  base := I.base
  part := I.part
  blocks := hl ▸ I.blocks
  confirmationHeight := hl ▸ I.confirmationHeight
  cementedCount := hl ▸ I.cementedCount
  queued := hq
  verifying := hv
  buffered := hi ▸ I.buffered
  parked := hu ▸ I.parked
  held := hi ▸ I.held
  settled := by
    intro b hb
    rcases ha b hb with hb | hb
    · cases I.settled b hb with
      | stored h => exact .stored h
      | queued hx => exact hback _ hx
      | buffered h => exact .buffered (hi ▸ h)
      | parked h hn hq => exact .parked (hu ▸ h) (hd ▸ hn) (hi ▸ hq)
    · obtain ⟨x,hx,rfl⟩ := hb
      exact .queued hx
  clean := by
    rw [hu,hd,hi]
    exact I.clean

theorem Inv.arrives (hb : b ∈ bs) :
    Inv T disableDelete (insert b added) Y (Intake.add s (arrival b)) := by
  obtain ⟨hl,hi,hu,hd⟩ := add_rest s (arrival b)
  apply I.requeue hl hi hu hd
  · intro x hx
    rcases mem_queue_add.mp hx with hx | rfl
    · exact I.queued x hx
    · exact known_arrival hb
  · exact add_verifying rfl I.verifying
  · rintro c (rfl | hc)
    · exact .inr ⟨arrival c,mem_queue_add.mpr (.inr rfl),rfl⟩
    · exact .inl hc
  · exact fun x hx => .queued (mem_queue_add.mpr (.inl hx))

theorem Inv.satisfy : Inv T disableDelete added Y (satisfy s) := by
  unfold Intake.satisfy
  cases hf : s.found with
  | nil => exact I
  | cons info rest =>
    obtain ⟨hl,hi,hu,hd⟩ := add_rest { s with found := rest } info
    have hold : ∀ x, x ∈ queue s ↔ x ∈ queue { s with found := rest } ∨ x = info := by
      intro x
      unfold queue
      rw [hf]
      simp only [mem_append]
      grind
    have hknown := I.queued info ((hold info).mpr (.inr rfl))
    apply I.requeue hl hi hu hd
    · intro x hx
      exact I.queued x ((hold x).mpr (mem_queue_add.mp hx))
    · exact add_verifying hknown.account I.verifying
    · exact fun c hc => .inl hc
    · exact fun x hx => .queued (mem_queue_add.mpr ((hold x).mp hx))

theorem Inv.swap : Inv T disableDelete added Y (swap s) := by
  unfold Intake.swap
  split_ifs with h
  · exact I
  · have hback : s.backBuffer = [] := by
      by_contra hne
      apply h
      simp [writing,hne]
    refine I.requeue rfl ?_ rfl rfl I.queued I.verifying (fun c hc => .inl hc)
      fun x hx => .queued hx
    simp [items,hback]

theorem Inv.parks {info' : UncheckedInfo} (hs : s.blocks = info :: rest)
    (hblock : info'.block = info.block) (hk : Known C bs Z info') (hawait : Awaits C Z d info')
    (hmiss : Y d = none) :
    Inv T disableDelete added Y (put { s with blocks := rest } d info') := by
  refine { I with
    queued := fun x hx => I.queued x ((queue_process hs).mpr (.inl hx))
    buffered := fun e x hx => ?_
    held := (items_put ..).symm ▸ held_insert I.held hmiss
    settled := fun b hb => ?_
    clean := fun hdd k x hx => ?_ }
  · rw [items_put] at hx
    rcases mem_append.mp hx with hx | hx
    · exact I.buffered e x hx
    · cases List.mem_singleton.mp hx
      exact ⟨hk,hawait⟩
  · have hkeep : ∀ {i}, i ∈ items s → i ∈ items (put { s with blocks := rest } d info') :=
      fun hi => (items_put ..).symm ▸ mem_append_left _ hi
    cases I.settled b hb with
    | stored h => exact .stored h
    | queued hx =>
      rcases (queue_process hs).mp hx with hx | rfl
      · exact .queued hx
      · rw [← hblock]
        exact .buffered ((items_put ..).symm ▸ mem_append_right _ mem_cons_self)
    | buffered hx => exact .buffered (hkeep hx)
    | parked hx hd hq => exact .parked hx hd (hq.imp_right hkeep)
  · rw [items_put]
    exact (I.clean hdd k x hx).imp_right (Or.imp_right (fun hq => mem_append_left _ hq))

theorem Inv.visitQuery {rest : List Item} (hback : s.backBuffer = .query d :: rest)
    (hdel : s.deleteQueue = []) (hfound : s.found = []) :
    Inv T disableDelete added Y { s with
      backBuffer := rest
      found := (equalRange s.unchecked d).map Prod.snd
      deleteQueue := if disableDelete then []
        else (equalRange s.unchecked d).map Prod.fst } := by
  have hitems := items_back hback
  have hheld := I.held
  rw [hitems] at hheld
  have hquery : ∀ e, e ≠ d → Item.query e ∈ items s → Item.query e ∈ rest ++ s.buffer := by
    intro e hne he
    rw [hitems] at he
    refine (mem_cons.mp he).resolve_left ?_
    rintro ⟨⟩
    exact hne rfl
  have hdeleted : ∀ k, k ∈ (if disableDelete then []
      else (equalRange s.unchecked d).map Prod.fst) → k.previous = d := by
    intro k hk
    split_ifs at hk with h
    · cases hk
    · obtain ⟨⟨k',x⟩,hx,rfl⟩ := List.mem_map.mp hk
      exact (mem_equalRange.mp hx).2
  refine { I with
    queued := fun x hx => ?_
    buffered := fun e x hx => I.buffered e x (hitems ▸ mem_cons_of_mem _ hx)
    held := hheld
    settled := fun b hb => ?_
    clean := fun hdd k x hx => ?_ }
  · rcases mem_append.mp hx with hx | hx
    · exact I.queued x (mem_append_left _ hx)
    · obtain ⟨⟨k,y⟩,hy,rfl⟩ := List.mem_map.mp hx
      exact (I.parked k y (mem_equalRange.mp hy).1).1
  · cases I.settled b hb with
    | stored h => exact .stored h
    | queued hx =>
      rw [queue,hfound,List.append_nil] at hx
      exact .queued (mem_append_left _ hx)
    | buffered hx =>
      rw [hitems] at hx
      exact .buffered ((mem_cons.mp hx).resolve_left (by rintro ⟨⟩))
    | @parked k x hx hd hq =>
      by_cases hkd : k.previous = d
      · refine .queued (mem_append_right _ ?_)
        exact List.mem_map.mpr ⟨(k,x),mem_equalRange.mpr ⟨hx,hkd⟩,rfl⟩
      · exact .parked hx (fun hk => hkd (hdeleted k hk)) (hq.imp_right (hquery _ hkd))
  · by_cases hkd : k.previous = d
    · left
      rw [hdd]
      exact List.mem_map.mpr ⟨(k,x),mem_equalRange.mpr ⟨hx,hkd⟩,rfl⟩
    · have := I.clean hdd k x hx
      rw [hdel] at this
      exact .inr ((this.resolve_left not_mem_nil).imp_right (hquery _ hkd))

theorem Inv.delete : Inv T disableDelete added Y (deleteKey s) := by
  unfold deleteKey
  split
  · next key rest hfound hdel =>
    have hget : ∀ k, k ≠ key →
        (s.unchecked.erase key)[k]? = s.unchecked[k]? := by
      intro k hk
      rw [get_erase,if_neg hk]
    have hsome : ∀ k x,
        (s.unchecked.erase key)[k]? = some x → k ≠ key ∧ s.unchecked[k]? = some x := by
      intro k x hx
      rw [get_erase] at hx
      split_ifs at hx with hk
      exact ⟨hk,hx⟩
    refine { I with
      parked := fun k x hx => I.parked k x (hsome k x hx).2
      settled := fun b hb => ?_
      clean := fun hdd k x hx => ?_ }
    · cases I.settled b hb with
      | stored h => exact .stored h
      | queued h => exact .queued h
      | buffered h => exact .buffered h
      | parked hx hd hq =>
        rw [hdel,mem_cons,not_or] at hd
        exact .parked ((hget _ hd.1).trans hx) hd.2 hq
    · obtain ⟨hk,hx⟩ := hsome k x hx
      have := I.clean hdd k x hx
      rw [hdel] at this
      exact this.imp_left (fun hm => (mem_cons.mp hm).resolve_left hk)
  · exact I

theorem Inv.verify :
    ∃ s', verifyStateBlock C s = .ok s' ∧ Inv T disableDelete added Y s' := by
  unfold verifyStateBlock
  cases hs : s.stateBlocks with
  | nil => exact ⟨s,rfl,I⟩
  | cons info rest =>
    have hin : info ∈ queue s := by
      simp [queue,hs]
    have hv := I.verifying
    rw [hs] at hv
    obtain ⟨account,info',hacc,hinfo,hblock,hknown⟩ :=
      verified_known T (I.queued info hin) (hv info mem_cons_self)
    simp only [hacc,hinfo]
    refine ⟨_,rfl,I.requeue rfl rfl rfl rfl ?_ ?_ (fun c hc => .inl hc) ?_⟩
    · intro x hx
      simp only [queue,toList_some,mem_append,List.mem_singleton] at hx
      rcases hx with (hx | hx | rfl) | hx
      · exact I.queued x (by simp [queue,hs,hx])
      · exact I.queued x (by simp [queue,hx])
      · exact hknown
      · exact I.queued x (by simp [queue,hx])
    · exact fun x hx => hv x (mem_cons_of_mem _ hx)
    · intro x hx
      simp only [queue,hs,mem_append,mem_cons] at hx
      rcases hx with ((rfl | hx) | hx) | hx
      · exact hblock ▸ .queued (by simp [queue])
      all_goals exact .queued (by simp [queue,hx])

theorem Inv.stores {L₁ : Ledger} {now : ℕ} (qs : List BlockHash) (hs : s.blocks = info :: rest)
    (hfree : Y (C.blockHash info.block) = none) (hZ : Z (C.blockHash info.block) = some n)
    (G : Growth.Grows s.ledger L₁ (C.blockHash info.block) info.block n now)
    (V₁ : Valid S L₁ (add Y (C.blockHash info.block) n)) :
    Inv T disableDelete added (add Y (C.blockHash info.block) n) { s with
      blocks := rest, ledger := L₁,
      buffer := s.buffer ++ (C.blockHash info.block :: qs).map Item.query } := by
  have hitems : items { s with
      blocks := rest, ledger := L₁,
      buffer := s.buffer ++ (C.blockHash info.block :: qs).map Item.query } =
      items s ++ (C.blockHash info.block :: qs).map Item.query :=
    (List.append_assoc ..).symm
  have hgrow : ∀ {h m}, Y h = some m → add Y (C.blockHash info.block) n h = some m :=
    fun hm => add_old hfree hm
  have hself : add Y (C.blockHash info.block) n (C.blockHash info.block) = some n :=
    add_new
  -- an entry still waits, or the query behind it is in the buffer
  have hwait : ∀ d, Y d = none ∨ .query d ∈ items s →
      add Y (C.blockHash info.block) n d = none ∨
        .query d ∈ items s ++ (C.blockHash info.block :: qs).map Item.query := by
    rintro d (hd | hd)
    · rcases add_none (k := C.blockHash info.block) hd with h | rfl
      · exact .inl h
      · exact .inr (mem_append_right _ mem_cons_self)
    · exact .inr (mem_append_left _ hd)
  refine { I with
    valid := V₁
    base := fun h m hm => hgrow (I.base h m hm)
    part := fun h m hm => ?_
    blocks := fun h r hr => ?_
    confirmationHeight := G.confirmationHeight.trans I.confirmationHeight
    cementedCount := G.cementedCount.trans I.cementedCount
    queued := fun x hx => I.queued x ((queue_process hs).mpr (.inl hx))
    buffered := fun d x hx => ?_
    held := hitems ▸ held_stored I.held qs
    settled := fun b hb => ?_
    clean := fun hdd k x hx => hitems ▸ (I.clean hdd k x hx).imp_right (hwait _) }
  · rcases (add_eq_some hfree).mp hm with ⟨rfl,rfl⟩ | hm
    · exact hZ
    · exact I.part h m hm
  · by_cases hh : h = C.blockHash info.block
    · subst hh
      obtain ⟨r₁,hr₁,hb₁⟩ := grows_stored G
      cases hr.symm.trans hr₁
      obtain ⟨r',hr',hb'⟩ :=
        T.stored info.block (I.queued info ((queue_process hs).mpr (.inr rfl))).mem
      exact ⟨r',hr',hb'.trans hb₁.symm⟩
    · obtain ⟨m,hm,-⟩ := V₁.mirrors.block h r hr
      obtain ⟨r₀,hr₀,-⟩ := I.valid.mirrors.get
        (((add_eq_some hfree).mp hm).resolve_left (fun e => hh e.1))
      obtain ⟨r₁,hr₁,hb₁⟩ := grows_kept G hr₀ hh
      cases hr.symm.trans hr₁
      obtain ⟨r',hr',hb'⟩ := I.blocks h r₀ hr₀
      exact ⟨r',hr',hb'.trans hb₁.symm⟩
  · rw [hitems] at hx
    rcases mem_append.mp hx with hx | hx
    · exact I.buffered d x hx
    · obtain ⟨q,-,hq⟩ := List.mem_map.mp hx
      cases hq
  · cases I.settled b hb with
    | stored hm => exact .stored (hgrow hm)
    | queued hx =>
      rcases (queue_process hs).mp hx with hx | rfl
      · exact .queued hx
      · exact .stored hself
    | buffered hx => exact .buffered (hitems ▸ mem_append_left _ hx)
    | parked hx hd hq => exact .parked hx hd (hitems ▸ hwait _ hq)

theorem Inv.visitInsert {rest : List Item} (hback : s.backBuffer = .insert d info :: rest)
    (hdel : s.deleteQueue = []) :
    Inv T disableDelete added Y { s with
      backBuffer := rest
      unchecked := s.unchecked.insert ⟨d,C.blockHash info.block⟩ info } := by
  have hitems := items_back hback
  have hheld := I.held
  rw [hitems] at hheld
  have hin : Item.insert d info ∈ items s := by
    rw [hitems]
    exact mem_cons_self
  obtain ⟨hk,hawait⟩ := I.buffered d info hin
  have hquery : ∀ e, Item.query e ∈ items s → Item.query e ∈ rest ++ s.buffer := by
    intro e he
    rw [hitems] at he
    exact (mem_cons.mp he).resolve_left nofun
  refine { I with
    buffered := fun e x hx => I.buffered e x (hitems ▸ mem_cons_of_mem _ hx)
    parked := fun k x hx => ?_
    held := hheld.2
    settled := fun b hb => ?_
    clean := fun hdd k x hx => ?_ }
  · rw [get_insert] at hx
    split_ifs at hx with h
    · cases hx
      exact ⟨hk,h ▸ hawait,h ▸ rfl⟩
    · exact I.parked k x hx
  · -- the entry just written, unless it was overtaken
    have hnew : Settled C Y { s with
        backBuffer := rest
        unchecked := s.unchecked.insert ⟨d,C.blockHash info.block⟩ info } info.block :=
      .parked (by rw [get_insert,if_pos rfl]) (by rw [hdel]; exact not_mem_nil) hheld.1
    cases I.settled b hb with
    | stored h => exact .stored h
    | queued h => exact .queued h
    | buffered hx =>
      rw [hitems] at hx
      rcases mem_cons.mp hx with hx | hx
      · cases hx
        exact hnew
      · exact .buffered hx
    | @parked k x hx hd hq =>
      by_cases hkey : k = ⟨d,C.blockHash info.block⟩
      · obtain ⟨hkx,-,hhash⟩ := I.parked k x hx
        rw [hkey] at hhash
        exact target_inj T hkx.mem hk.mem hhash.symm ▸ hnew
      · refine .parked ?_ hd (hq.imp_right (hquery _))
        rw [get_insert,if_neg hkey]
        exact hx
  · rw [get_insert] at hx
    split_ifs at hx with h
    · rw [h]
      exact .inr hheld.1
    · exact (I.clean hdd k x hx).imp_right (Or.imp_right (hquery _))

theorem Inv.visit : Inv T disableDelete added Y (visitItem C disableDelete s) := by
  unfold visitItem
  by_cases h : (!s.found.isEmpty || !s.deleteQueue.isEmpty) = true
  · rw [if_pos h]
    exact I
  · rw [if_neg h]
    simp only [Bool.or_eq_true,Bool.not_eq_true',List.isEmpty_eq_false_iff,not_or,not_not] at h
    split
    · exact I
    · next hback => exact I.visitInsert hback h.2
    · next hback => exact I.visitQuery hback h.2 h.1

/-- Once everything is quiet nothing is missing: a missing block would be parked
under another missing one, with nothing at the end of the line. -/
theorem Inv.complete (hq : Quiet s) (hadd : ∀ b ∈ bs, b ∈ added) : Y = Z := by
  obtain ⟨hq1,hq2,hq3,hq4,hq5,-⟩ := hq
  have hitems : items s = [] := by rw [items,hq3,hq4,List.append_nil]
  have hqueue : queue s = [] := by rw [queue,hq1,hq2,hq5]; rfl
  obtain ⟨rank,bound,-,hdeps⟩ := Causal.Built.ranked T.valid.built
  have hall : ∀ h n, Z h = some n → Y h = some n := by
    intro h
    induction hd : rank h using Nat.strong_induction_on generalizing h with
    | _ d ih =>
      intro n hn
      rcases T.only h n hn with hX | ⟨b,hb,rfl⟩
      · exact I.base h n hX
      cases I.settled b (hadd b hb) with
      | stored hm => rw [hm,← I.part _ _ hm,hn]
      | queued hx =>
        rw [hqueue] at hx
        cases hx
      | buffered hx =>
        rw [hitems] at hx
        cases hx
      | @parked k x hx _ hk =>
        obtain ⟨-,⟨m,hm,hdep⟩,-⟩ := I.parked k x hx
        cases hn.symm.trans hm
        obtain ⟨p,hp⟩ := Causal.Built.deps_present T.valid.built hn hdep
        have hY := ih _ (hd ▸ hdeps _ n _ hn hdep) k.previous rfl p hp
        rw [hitems] at hk
        rw [hk.resolve_right not_mem_nil] at hY
        cases hY
  funext h
  cases hZ : Z h with
  | some n => exact hall h n hZ
  | none =>
    cases hY : Y h with
    | none => rfl
    | some n =>
      rw [I.part h n hY] at hZ
      cases hZ

theorem Inv.process (now : ℕ) :
    ∃ s' Y', processFront C now s = .ok s' ∧ Inv T disableDelete added Y' s' ∧
      (s.blocks ≠ [] → distance Z Y' s' < distance Z Y s) := by
  unfold processFront
  cases hs : s.blocks with
  | nil => exact ⟨s,Y,rfl,I,fun h => absurd rfl h⟩
  | cons info rest =>
    have hq : ∀ {x}, x ∈ queue s ↔ x ∈ queue { s with blocks := rest } ∨ x = info :=
      queue_process hs
    have hknown := I.queued info (hq.mpr (Or.inr rfl))
    obtain ⟨s',hs',ho⟩ :=
      processOne_outcome (s := { s with blocks := rest }) T I.valid I.part hknown now
    refine ⟨s',?_⟩
    cases ho with
    | old hY =>
      refine ⟨Y,hs',I.requeue rfl rfl rfl rfl (fun x hx => I.queued x (hq.mpr (Or.inl hx)))
        I.verifying (fun c hc => Or.inl hc) ?_,fun _ => distance_load rfl ?_⟩
      · intro x hx
        rcases hq.mp hx with hx | rfl
        · exact .queued hx
        · exact .stored hY
      · simp only [load,hs,length_cons]
        omega
    | parked d info' hblock hk' hawait hmiss =>
      refine ⟨Y,hs',I.parks hs hblock hk' hawait hmiss,fun _ => ?_⟩
      apply Prod.Lex.toLex_lt_toLex.mpr
      refine Or.inr ⟨rfl,Prod.Lex.toLex_lt_toLex.mpr (Or.inr ⟨?_,?_⟩)⟩
      · rw [items_put]
        simp [queries,items]
      · simp only [load,put,hs,length_append,length_cons,length_nil]
        omega
    | stored L₁ n now qs hfree hZ G V₁ =>
      have I₁ := I.stores qs hs hfree hZ G V₁
      exact ⟨_,hs',I₁,fun _ =>
        Prod.Lex.toLex_lt_toLex.mpr (Or.inl (missing_add T.valid.built hZ hfree))⟩

theorem Inv.step {e : Event} (he : ∀ x, e = .add x → ∃ b ∈ bs, x = arrival b) :
    ∃ s' Y', Intake.step C disableDelete s e = .ok s' ∧
      Inv T disableDelete (added ∪ {b | e = .add (arrival b)}) Y' s' := by
  have hsame : ∀ {Y' s'}, Inv T disableDelete added Y' s' →
      (∀ b, e ≠ .add (arrival b)) →
      Inv T disableDelete (added ∪ {b | e = .add (arrival b)}) Y' s' := by
    intro Y' s' I' hno
    have : {b | e = .add (arrival b)} = ∅ := eq_empty_iff_forall_notMem.mpr hno
    rw [this,union_empty]
    exact I'
  cases e with
  | add x =>
    obtain ⟨b,hb,rfl⟩ := he x rfl
    refine ⟨_,Y,rfl,?_⟩
    have : {c | Event.add (arrival b) = .add (arrival c)} = {b} := by
      ext c
      simp [arrival]
    rw [this,union_singleton]
    exact I.arrives hb
  | verify =>
    obtain ⟨s',hs',I'⟩ := I.verify
    exact ⟨s',Y,hs',hsame I' (fun _ h => nomatch h)⟩
  | process now =>
    obtain ⟨s',Y',hs',I',-⟩ := I.process now
    exact ⟨s',Y',hs',hsame I' (fun _ h => nomatch h)⟩
  | swap => exact ⟨_,Y,rfl,hsame I.swap (fun _ h => nomatch h)⟩
  | visit => exact ⟨_,Y,rfl,hsame I.visit (fun _ h => nomatch h)⟩
  | satisfy => exact ⟨_,Y,rfl,hsame I.satisfy (fun _ h => nomatch h)⟩
  | delete => exact ⟨_,Y,rfl,hsame I.delete (fun _ h => nomatch h)⟩

theorem Inv.closer (hq : ¬ Quiet s) :
    ∃ e s' Y', e.internal = true ∧ Intake.step C disableDelete s e = .ok s' ∧
      Inv T disableDelete added Y' s' ∧ distance Z Y' s' < distance Z Y s := by
  by_cases h1 : s.blocks = []
  swap
  · obtain ⟨s',Y',hs',I',hlt⟩ := I.process 0
    exact ⟨.process 0,s',Y',rfl,hs',I',hlt h1⟩
  by_cases h2 : s.stateBlocks = []
  swap
  · obtain ⟨s',hs',I'⟩ := I.verify
    obtain ⟨hi,hl⟩ := verify_load h2 hs'
    exact ⟨.verify,s',Y,rfl,hs',I',distance_load hi hl⟩
  by_cases h3 : s.found = []
  swap
  · obtain ⟨hi,hl⟩ := satisfy_load h3
    exact ⟨.satisfy,_,Y,rfl,rfl,I.satisfy,distance_load hi hl⟩
  by_cases h4 : s.deleteQueue = []
  swap
  · obtain ⟨hi,hl⟩ := delete_load h3 h4
    exact ⟨.delete,_,Y,rfl,rfl,I.delete,distance_load hi hl⟩
  by_cases h5 : s.backBuffer = []
  swap
  · exact ⟨.visit,_,Y,rfl,rfl,I.visit,visit_closer h3 h4 h5⟩
  have h6 : s.buffer ≠ [] := fun h6 => hq ⟨h2,h1,h6,h5,h3,h4⟩
  obtain ⟨hi,hl⟩ := swap_load h3 h4 h5 h6
  exact ⟨.swap,_,Y,rfl,rfl,I.swap,distance_load hi hl⟩

end

variable (T : Target S X L bs Z L')

theorem start_inv (disableDelete : Bool) : Inv T disableDelete ∅ X { ledger := L } where
  valid := T.start
  base := fun _ _ h => h
  part := T.part
  blocks := T.kept
  confirmationHeight := T.confirmationHeight.symm
  cementedCount := T.cementedCount.symm
  queued := fun _ h => absurd h not_mem_nil
  verifying := fun _ h => absurd h not_mem_nil
  buffered := fun _ _ h => absurd h not_mem_nil
  parked := by
    intro k x hx
    simp at hx
  held := trivial
  settled := fun _ h => absurd h (notMem_empty _)
  clean := by
    intro _ k x hx
    simp at hx

variable {T} (I : Inv T disableDelete added Y s)
include I

theorem Inv.run {es : List Event} (hes : ∀ x, .add x ∈ es → ∃ b ∈ bs, x = arrival b) :
    ∃ s' Y', run C disableDelete s es = .ok s' ∧
      Inv T disableDelete (added ∪ {b | .add (arrival b) ∈ es}) Y' s' := by
  induction es generalizing s Y added with
  | nil =>
    refine ⟨s,Y,rfl,?_⟩
    simp only [not_mem_nil,ofPred_false,union_empty]
    exact I
  | cons e es ih =>
    obtain ⟨s₁,Y₁,hs₁,I₁⟩ := I.step (fun x hx => hes x (hx ▸ mem_cons_self))
    obtain ⟨s',Y',hs',I'⟩ := ih I₁ (fun x hx => hes x (mem_cons_of_mem _ hx))
    refine ⟨s',Y',?_,?_⟩
    · rw [run,hs₁]
      exact hs'
    · rw [union_assoc] at I'
      have : {b | .add (arrival b) ∈ e :: es} =
          {b | e = .add (arrival b)} ∪ {b | .add (arrival b) ∈ es} := by
        ext b
        simp [eq_comm]
      rw [this]
      exact I'

theorem Inv.drains :
    ∃ es s', es.all Event.internal = true ∧ Intake.run C disableDelete s es = .ok s' ∧
      Quiet s' := by
  induction hd : distance Z Y s using WellFoundedLT.induction generalizing Y s with
  | _ d ih =>
    by_cases hq : Quiet s
    · exact ⟨[],s,rfl,rfl,hq⟩
    · obtain ⟨e,s₁,Y₁,he,hs₁,I₁,hlt⟩ := I.closer hq
      obtain ⟨es,s',hes,hs',hq'⟩ := ih _ (hd ▸ hlt) I₁ rfl
      refine ⟨e :: es,s',?_,?_,hq'⟩
      · rw [List.all_cons,he,hes]
        rfl
      · rw [Intake.run,hs₁]
        exact hs'

end

/-- Blocks that some order turns into a ledger are given to the block processor
in any order. No thread fails, everything can come to rest, and whenever
everything is at rest all the blocks are stored, none is left in the unchecked
table, and the ledger is the one of that order. -/
theorem intake_order_independent (S : HashSound C U) (hr : Reachable C U L)
    (hU : ∀ b ∈ bs, b.hashables ∈ U) (ha : Accepts C L bs L') (disableDelete : Bool)
    {es : List Event} (hes : ∀ x, .add x ∈ es ↔ ∃ b ∈ bs, x = arrival b) :
    ∃ s, run C disableDelete { ledger := L } es = .ok s ∧
      (∃ es' s', es'.all Event.internal = true ∧ run C disableDelete s es' = .ok s' ∧ Quiet s') ∧
      (Quiet s → (∀ b ∈ bs, ∃ r, s.ledger.blocks[C.blockHash b]? = some r ∧ r.block = b) ∧
        (disableDelete = false → ∀ k : UncheckedKey, s.unchecked[k]? = none) ∧
        SameLedger s.ledger L') := by
  obtain ⟨X,V⟩ := reachable_valid S hr
  obtain ⟨Z,T⟩ := accepts_target V hU ha
  obtain ⟨s,Y,hs,I⟩ := (start_inv T disableDelete).run (fun x hx => (hes x).mp hx)
  refine ⟨s,hs,I.drains,fun hq => ?_⟩
  obtain rfl := I.complete hq (fun b hb => .inr ((hes _).mpr ⟨b,hb,rfl⟩))
  have hagree := mirrors_agree I.valid.built I.valid.mirrors T.valid.mirrors I.valid.defect
    T.valid.defect
  have hstored : ∀ b ∈ bs, ∃ r, s.ledger.blocks[C.blockHash b]? = some r ∧ r.block = b := by
    intro b hb
    obtain ⟨n,W⟩ := T.wanted b hb
    obtain ⟨r,hr,-⟩ := I.valid.mirrors.get W.node
    obtain ⟨r',hr',hb'⟩ := I.blocks _ r hr
    obtain ⟨q,hq',hb''⟩ := T.stored b hb
    cases hr'.symm.trans hq'
    exact ⟨r,hr,hb'.symm.trans hb''⟩
  refine ⟨hstored,fun hdd k => ?_,hagree,fun h => ?_,I.confirmationHeight,I.cementedCount⟩
  · obtain ⟨-,-,hbuffer,hback,-,hdelete⟩ := hq
    rw [eq_none_iff_forall_ne_some]
    intro x hx
    obtain ⟨-,⟨n,hn,hdep⟩,-⟩ := I.parked k x hx
    obtain ⟨p,hp⟩ := Causal.Built.deps_present I.valid.built hn hdep
    rcases I.clean hdd k x hx with h | h | h
    · rw [hdelete] at h
      cases h
    · rw [h] at hp
      cases hp
    · rw [items,hbuffer,hback] at h
      cases h
  · cases hY : Y h with
    | none => rw [I.valid.mirrors.absent.mpr hY,T.valid.mirrors.absent.mpr hY]
    | some n =>
      obtain ⟨r,hr,-⟩ := I.valid.mirrors.get hY
      obtain ⟨r',hr',hb'⟩ := I.blocks h r hr
      rw [hr,hr',map_some,map_some,hb']

theorem accepts_processed (hc : (process C 0 L b .unknown).map (fun o => o.1.code) = some .progress)
    (he : C.isEpochLink b.link = false) (ha : Accepts C (processed C L b) bs L') :
    Accepts C L (b :: bs) L' := by
  obtain ⟨⟨result,L₁⟩,hp,hcode⟩ := map_eq_some_iff.mp hc
  rw [processed,hp] at ha
  exact .cons hp hcode (fun h => absurd h (by rw [he]; exact Bool.false_ne_true)) ha

def sampleArrivals : List Event :=
  [.add (arrival sampleOpen),.verify,.process 1,.swap,.add (arrival sampleSend),.process 2,.visit,
    .swap,.visit,.satisfy,.delete,.visit,.process 3,.swap,.visit]

theorem intake_order_independent_sample :
    Accepts sample (storeInitialize sample 0) [sampleSend,sampleOpen] sampleOpened ∧
    ∃ s, run sample false { ledger := storeInitialize sample 0 } sampleArrivals = .ok s ∧
      Quiet s ∧ SameLedger s.ledger sampleOpened := by
  have ha : Accepts sample (storeInitialize sample 0) [sampleSend,sampleOpen] sampleOpened :=
    accepts_processed (by decide +kernel) (by decide)
      (accepts_processed (by decide +kernel) (by decide) (.nil _))
  have hU : ∀ b ∈ [sampleSend,sampleOpen], b.hashables ∈ sampleBlocks := by
    intro b hb
    rcases mem_cons.mp hb with rfl | hb
    · exact .inr (.inl rfl)
    · obtain rfl := List.mem_singleton.mp hb
      exact .inr (.inr rfl)
  have hes : ∀ x, .add x ∈ sampleArrivals ↔ ∃ b ∈ [sampleSend,sampleOpen], x = arrival b := by
    intro x
    simp [sampleArrivals,or_comm]
  obtain ⟨s,hs,-,hend⟩ := intake_order_independent sample_sound (.start 0) hU ha false hes
  have hquiet : (match run sample false { ledger := storeInitialize sample 0 } sampleArrivals with
      | .ok s => s.stateBlocks.isEmpty && s.blocks.isEmpty && s.buffer.isEmpty &&
          s.backBuffer.isEmpty && s.found.isEmpty && s.deleteQueue.isEmpty
      | .error _ => false) = true := by
    decide +kernel
  rw [hs] at hquiet
  simp only [Bool.and_eq_true,List.isEmpty_iff] at hquiet
  obtain ⟨⟨⟨⟨⟨h1,h2⟩,h3⟩,h4⟩,h5⟩,h6⟩ := hquiet
  have hq : Quiet s := ⟨h1,h2,h3,h4,h5,h6⟩
  exact ⟨ha,s,hs,hq,(hend hq).2.2⟩
end Vxldollar.Arrivals
