import Vxldollar.ActiveIndex

/-!
# Coherence of the index

Between operations the index of blocks should list exactly the blocks of the
elections in the index of roots. A thread inside `publish` has a block in an election
that is not listed yet, or has taken one from the index that is still in the
election. The account of these is the invariant. It needs that a root is not erased
while a thread works on its election and that a replacement has the election to
itself.
-/

namespace Vxldollar.IndexCoherence
open Std Blocks ActiveIndex Function Table
open Elections (maxBlocks)

def Live (s : State) (e : ℕ) : Prop := s.roots[(s.elections e).root]? = some e

def Coherent (s : State) : Prop := ∀ (h : BlockHash) (e : ℕ),
  s.blocks[h]? = some e ↔ Live s e ∧ h ∈ (s.elections e).lastBlocks

def Quiet (s : State) : Prop := ∀ t, s.threads t = .idle

def works : Pc → Option (BlockHash × ℕ)
  | .idle => none
  | .publishing h e | .replacing h e _ | .removing h e _ | .inserted h e => some (h,e)

def replaces : Pc → Option (ℕ × BlockHash)
  | .replacing _ e r | .removing _ e r => some (e,r)
  | _ => none

def Unused (s : State) (root : QualifiedRoot) : Prop := ∀ e, s.roots[root]? = some e →
  ∀ t h, works (s.threads t) ≠ some (h,e)

/-- A root is erased only while no thread works on its election, a block does not
become the winner while it is being replaced, and a thread enters a full election,
or one in which a block is being replaced, only when no other thread has
unfinished work there. -/
def Careful (s : State) : Event → Prop
  | .erase root => Unused s root
  | .eraseOldest => ∀ root ∈ s.order.head?, Unused s root
  | .winner e h => ∀ t, replaces (s.threads t) ≠ some (e,h)
  | .publish t _ => ∀ h e, s.threads t = .publishing h e → ∀ u, u ≠ t →
      (∀ r, replaces (s.threads u) ≠ some (e,r)) ∧
      ((s.elections e).lastBlocks.length ≥ maxBlocks → ∀ g, s.threads u ≠ .inserted g e)
  | _ => True

inductive Reaches (rootOf : BlockHash → QualifiedRoot) (P : State → Event → Prop) : State → Prop
  | start : Reaches rootOf P .empty
  | step {s : State} {ev : Event} : Reaches rootOf P s → P s ev →
      Reaches rootOf P (step rootOf s ev)

/-- The election in which a thread replaces a block or has one that is not in the
index. -/
def unfinished : Pc → Option ℕ
  | .replacing _ e _ | .removing _ e _ | .inserted _ e => some e
  | _ => none

/-- The block of an election that a thread keeps out of the index. -/
def withheld : Pc → Option (BlockHash × ℕ)
  | .removing _ e h | .inserted h e => some (h,e)
  | _ => none

def Listed (s : State) (h : BlockHash) (e : ℕ) : Prop :=
  Live s e ∧ h ∈ (s.elections e).lastBlocks ∧ ∀ t, withheld (s.threads t) ≠ some (h,e)

/-- Threads with unfinished work in one election have each added a block of their own. -/
def Apart (p q : Pc) : Prop := ∀ e, unfinished p = some e → unfinished q = some e →
  replaces p = none ∧ replaces q = none ∧ withheld p ≠ withheld q

section
variable (rootOf : BlockHash → QualifiedRoot)

/-- What a thread relies on. -/
structure Fits (s : State) (pc : Pc) : Prop where
  live : ∀ h e, works pc = some (h,e) → Live s e ∧ rootOf h = (s.elections e).root
  victim : ∀ e r, replaces pc = some (e,r) →
    rootOf r = (s.elections e).root ∧ r ≠ (s.elections e).winner
  pending : ∀ h e, pc = .inserted h e → h ∈ (s.elections e).lastBlocks

structure Inv (s : State) : Prop where
  roots : ∀ (q : QualifiedRoot) (e : ℕ), s.roots[q]? = some e →
    e < s.next ∧ (s.elections e).root = q
  hashes : ∀ e < s.next, ∀ h ∈ (s.elections e).lastBlocks, rootOf h = (s.elections e).root
  fits : ∀ t, Fits rootOf s (s.threads t)
  apart : ∀ t u, u ≠ t → Apart (s.threads t) (s.threads u)
  listed : ∀ (h : BlockHash) (e : ℕ), s.blocks[h]? = some e ↔ Listed s h e

theorem Inv.coherent {s : State} (I : Inv rootOf s) (hq : Quiet s) : Coherent s := by
  intro h e
  rw [I.listed h e]
  refine ⟨fun hl => ⟨hl.1,hl.2.1⟩,fun hl => ⟨hl.1,hl.2,fun t => ?_⟩⟩
  rw [hq t]
  exact nofun

theorem fits_idle (s : State) : Fits rootOf s .idle := ⟨nofun,nofun,nofun⟩

theorem empty_inv : Inv rootOf .empty where
  roots := by simp [State.empty]
  hashes := by simp [State.empty]
  fits := fun _ => fits_idle rootOf _
  apart := fun _ _ _ => nofun
  listed := by simp [State.empty,Listed]

end

section
variable {rootOf : BlockHash → QualifiedRoot} {s s' : State} {t e d : ℕ} {h : BlockHash} {pc : Pc}

theorem works_of_unfinished (hu : unfinished pc = some e) : ∃ h, works pc = some (h,e) := by
  cases pc <;> cases hu <;> exact ⟨_,rfl⟩

theorem unfinished_of_replaces {r : BlockHash} (hr : replaces pc = some (e,r)) :
    unfinished pc = some e := by
  cases pc <;> cases hr <;> rfl

theorem unfinished_of_withheld (hw : withheld pc = some (h,e)) : unfinished pc = some e := by
  cases pc <;> cases hw <;> rfl

theorem inserted_of_unfinished (hu : unfinished pc = some e) (hr : replaces pc = none) :
    ∃ h, pc = .inserted h e := by
  cases pc <;> cases hu <;> first | cases hr; done | exact ⟨_,rfl⟩

theorem live_unique (hd : Live s d) (he : Live s e)
    (hr : (s.elections d).root = (s.elections e).root) : d = e := by
  rw [Live,hr] at hd
  exact Option.some.inj (hd.symm.trans he)

/-- A thread relies on its own election only. -/
theorem Fits.mono (F : Fits rootOf s pc)
    (hlive : ∀ h e, works pc = some (h,e) → Live s' e ∧
      (s'.elections e).root = (s.elections e).root)
    (hwin : ∀ e r, replaces pc = some (e,r) → r ≠ (s'.elections e).winner)
    (hkeep : ∀ h e, pc = .inserted h e → h ∈ (s'.elections e).lastBlocks) : Fits rootOf s' pc where
  live := by
    intro h e hw
    rw [(hlive h e hw).2]
    exact ⟨(hlive h e hw).1,(F.live h e hw).2⟩
  victim := by
    intro e r hr
    obtain ⟨h,hw⟩ := works_of_unfinished (unfinished_of_replaces hr)
    rw [(hlive h e hw).2]
    exact ⟨(F.victim e r hr).1,hwin e r hr⟩
  pending := hkeep

theorem Fits.of_same (F : Fits rootOf s pc) (hsame : ∀ h e, works pc = some (h,e) →
    Live s' e ∧ s'.elections e = s.elections e) : Fits rootOf s' pc := by
  refine F.mono (fun h e hw => ?_) (fun e r hr => ?_) (fun h e hp => ?_)
  · exact ⟨(hsame h e hw).1,by rw [(hsame h e hw).2]⟩
  · obtain ⟨h,hw⟩ := works_of_unfinished (unfinished_of_replaces hr)
    rw [(hsame h e hw).2]
    exact (F.victim e r hr).2
  · rw [(hsame h e (by rw [hp]; rfl)).2]
    exact F.pending h e hp

section
variable (I : Inv rootOf s)
include I

theorem Inv.ownRoot (hl : Live s e) (hm : h ∈ (s.elections e).lastBlocks) :
    rootOf h = (s.elections e).root :=
  I.hashes e (I.roots _ _ hl).1 h hm

theorem Inv.blockRoot (hb : s.blocks[h]? = some e) :
    Live s e ∧ rootOf h = (s.elections e).root := by
  obtain ⟨hl,hm,-⟩ := (I.listed h e).mp hb
  exact ⟨hl,I.ownRoot hl hm⟩

/-- A block whose root has no other election than `e`, and which is not listed there, is free
in the index. -/
theorem Inv.emplaced (hroot : ∀ d, Live s d → rootOf h = (s.elections d).root → d = e)
    (hn : ¬ Listed s h e) :
    s.blocks[h]? = none ∧ blocksEmplace s.blocks h e = s.blocks.insert h e := by
  have hfree : s.blocks[h]? = none := by
    cases hb : s.blocks[h]? with
    | none => rfl
    | some d =>
      obtain ⟨hd,hr⟩ := I.blockRoot hb
      obtain rfl := hroot d hd hr
      exact absurd ((I.listed h d).mp hb) hn
  refine ⟨hfree,?_⟩
  rw [blocksEmplace,ExtTreeMap.contains_eq_isSome_getElem?,hfree]
  rfl

end

/-- The state after a section in which thread `t`, working on election `e`, goes on to
`pc` and leaves the election with the blocks `l` and the index as `m`. -/
def moved (s : State) (t e : ℕ) (l : List BlockHash) (m : ExtTreeMap BlockHash ℕ)
    (pc : Pc) : State :=
  setThread { setBlocks s e l with blocks := m } t pc

theorem moved_same (e : ℕ) (m : ExtTreeMap BlockHash ℕ) :
    moved s t e (s.elections e).lastBlocks m pc = setThread { s with blocks := m } t pc := by
  rw [moved,setBlocks,update_eq_self]

section
variable {l : List BlockHash} {m : ExtTreeMap BlockHash ℕ}

@[simp] theorem moved_root : ((moved s t e l m pc).elections d).root = (s.elections d).root := by
  simp only [moved,setThread,setBlocks,update_apply]
  split_ifs with hd
  · rw [hd]
  · rfl

@[simp] theorem moved_winner :
    ((moved s t e l m pc).elections d).winner = (s.elections d).winner := by
  simp only [moved,setThread,setBlocks,update_apply]
  split_ifs with hd
  · rw [hd]
  · rfl

@[simp] theorem moved_lastBlocks : ((moved s t e l m pc).elections d).lastBlocks =
    if d = e then l else (s.elections d).lastBlocks := by
  simp only [moved,setThread,setBlocks,update_apply]
  split_ifs <;> rfl

@[simp] theorem moved_live : Live (moved s t e l m pc) d ↔ Live s d := by
  rw [Live,Live,moved_root]
  rfl

theorem moved_thread : (moved s t e l m pc).threads t = pc := update_self ..

theorem moved_other {u : ℕ} (hu : u ≠ t) : (moved s t e l m pc).threads u = s.threads u :=
  update_of_ne hu ..

/-- What the threads keep out of the index is asked of thread `t` and of the others. -/
theorem withheld_split {g : BlockHash} : (∀ u, withheld (s.threads u) ≠ some (g,d)) ↔
    withheld (s.threads t) ≠ some (g,d) ∧ ∀ u, u ≠ t → withheld (s.threads u) ≠ some (g,d) := by
  refine ⟨fun hw => ⟨hw t,fun u _ => hw u⟩,fun hw u => ?_⟩
  by_cases hu : u = t
  · exact hu ▸ hw.1
  · exact hw.2 u hu

variable (I : Inv rootOf s) (hl : Live s e)
include I hl

theorem Inv.listed_here (t : ℕ) : s.blocks[h]? = some e ↔ h ∈ (s.elections e).lastBlocks ∧
    withheld (s.threads t) ≠ some (h,e) ∧
    ∀ u, u ≠ t → withheld (s.threads u) ≠ some (h,e) := by
  rw [I.listed h e,Listed,withheld_split (t := t)]
  exact and_iff_right hl

/-- What a turn has to leave behind. -/
theorem Inv.turn (hbefore : ∀ h d, works (s.threads t) = some (h,d) → d = e)
    (hafter : ∀ h d, works pc = some (h,d) → d = e)
    (hlast : ∀ h ∈ l, rootOf h = (s.elections e).root)
    (hfits : Fits rootOf (moved s t e l m pc) pc)
    (hkeep : ∀ u, u ≠ t → ∀ h, s.threads u = .inserted h e → h ∈ l)
    (hapart : ∀ u, u ≠ t → Apart pc (s.threads u))
    (hother : ∀ (h : BlockHash) (d : ℕ), d ≠ e → (m[h]? = some d ↔ s.blocks[h]? = some d))
    (hhere : ∀ h : BlockHash, m[h]? = some e ↔ h ∈ l ∧ withheld pc ≠ some (h,e) ∧
      ∀ u, u ≠ t → withheld (s.threads u) ≠ some (h,e)) :
    Inv rootOf (moved s t e l m pc) where
  roots := fun q d hd => by
    rw [moved_root]
    exact I.roots q d hd
  hashes := by
    intro d hd g hg
    rw [moved_root]
    rw [moved_lastBlocks] at hg
    split_ifs at hg with he
    · exact he ▸ hlast g hg
    · exact I.hashes d hd g hg
  fits := by
    intro u
    by_cases hu : u = t
    · rwa [hu,moved_thread]
    rw [moved_other hu]
    refine (I.fits u).mono (fun g d hw => ?_) (fun d r hr => ?_) (fun g d hp => ?_)
    · exact ⟨moved_live.mpr ((I.fits u).live g d hw).1,moved_root⟩
    · rw [moved_winner]
      exact ((I.fits u).victim d r hr).2
    · rw [moved_lastBlocks]
      split_ifs with he
      · exact hkeep u hu g (he ▸ hp)
      · exact (I.fits u).pending g d hp
  apart := by
    intro u v huv
    by_cases hu : u = t
    · rw [hu] at huv ⊢
      rw [moved_thread,moved_other huv]
      exact hapart v huv
    rw [moved_other hu]
    by_cases hv : v = t
    · rw [hv,moved_thread]
      intro d hd hpc
      obtain ⟨h1,h2,h3⟩ := hapart u hu d hpc hd
      exact ⟨h2,h1,h3.symm⟩
    · rw [moved_other hv]
      exact I.apart u v huv
  listed := by
    intro g d
    have hsplit := withheld_split (s := moved s t e l m pc) (t := t) (d := d) (g := g)
    have hcongr : (∀ u, u ≠ t → withheld ((moved s t e l m pc).threads u) ≠ some (g,d)) ↔
        ∀ u, u ≠ t → withheld (s.threads u) ≠ some (g,d) :=
      forall₂_congr fun u hu => by rw [moved_other hu]
    rw [hcongr,moved_thread] at hsplit
    rw [Listed,moved_live,moved_lastBlocks,hsplit]
    by_cases he : d = e
    · rw [he,if_pos rfl,and_iff_right hl]
      exact hhere g
    -- Thread `t` withholds no block of another election.
    have hnone : ∀ p, (∀ h d, works p = some (h,d) → d = e) → withheld p ≠ some (g,d) := by
      intro p hp hw
      obtain ⟨k,hk⟩ := works_of_unfinished (unfinished_of_withheld hw)
      exact he (hp k d hk)
    rw [if_neg he]
    refine (hother g d he).trans ((I.listed g d).trans ?_)
    rw [Listed,withheld_split (t := t),and_iff_right (hnone _ hbefore),
      and_iff_right (hnone _ hafter)]

/-- A turn that changes neither the election nor the index. -/
theorem Inv.silent (hbefore : ∀ h d, works (s.threads t) = some (h,d) → d = e)
    (hafter : ∀ h d, works pc = some (h,d) → d = e)
    (hw : withheld (s.threads t) = none) (hw' : withheld pc = none) (hfits : Fits rootOf s pc)
    (hapart : ∀ u, u ≠ t → Apart pc (s.threads u)) : Inv rootOf (setThread s t pc) := by
  have hturn : moved s t e (s.elections e).lastBlocks s.blocks pc = setThread s t pc :=
    moved_same e s.blocks
  refine hturn ▸ I.turn hl hbefore hafter (fun g => I.ownRoot hl) ?_
    (fun u _ g hu => (I.fits u).pending g e hu) hapart (fun _ _ _ => Iff.rfl) (fun g => ?_)
  · exact hturn ▸ ⟨hfits.live,hfits.victim,hfits.pending⟩
  · rw [I.listed_here hl t,hw,hw']

end

variable (I : Inv rootOf s)
include I

theorem Inv.lookup : Inv rootOf (lookup rootOf s t h) := by
  unfold ActiveIndex.lookup
  split
  · rename_i e hidle hroot
    have hq := (I.roots _ _ hroot).2
    have hl : Live s e := by rw [Live,hq,hroot]
    apply I.silent hl
    · simp [hidle,works]
    · simp +contextual [works]
    · simp [hidle,withheld]
    · rfl
    · refine ⟨fun g d hw => ?_,nofun,nofun⟩
      cases hw
      exact ⟨hl,hq.symm⟩
    · exact fun u _ => nofun
  · exact I

theorem Inv.idles (ht : s.threads t = .publishing h e) : Inv rootOf (setThread s t .idle) := by
  apply I.silent ((I.fits t).live h e (by rw [ht]; rfl)).1
  · simp +contextual [ht,works]
  · exact nofun
  · rw [ht]
    rfl
  · rfl
  · exact fits_idle ..
  · exact fun u _ => nofun

/-- A turn that adds a block to an election in which no other thread replaces one. -/
theorem Inv.adds {l : List BlockHash} (hl : Live s e)
    (hbefore : ∀ h d, works (s.threads t) = some (h,d) → d = e)
    (hroot : rootOf h = (s.elections e).root) (hn : h ∉ l)
    (hlast : ∀ g ∈ l, rootOf g = (s.elections e).root)
    (hkeep : ∀ u, u ≠ t → ∀ g, s.threads u = .inserted g e → g ∈ l)
    (hr : ∀ u, u ≠ t → ∀ r, replaces (s.threads u) ≠ some (e,r))
    (hlist : ∀ g : BlockHash, s.blocks[g]? = some e ↔ g ∈ l ∧
      ∀ u, u ≠ t → withheld (s.threads u) ≠ some (g,e)) :
    Inv rootOf (setThread (setBlocks s e (l++[h])) t (.inserted h e)) := by
  refine I.turn hl hbefore ?_ ?_ ⟨?_,nofun,?_⟩ ?_ ?_ (fun _ _ _ => Iff.rfl) ?_
  · simp +contextual [works]
  · intro g hg
    rcases List.mem_append.mp hg with hg | hg
    · exact hlast g hg
    · rw [List.mem_singleton.mp hg]
      exact hroot
  · intro g d hw
    cases hw
    simpa using ⟨hl,hroot⟩
  · intro g d hp
    cases hp
    simp
  · exact fun u hu g hg => List.mem_append_left _ (hkeep u hu g hg)
  · intro u hu d hd hud
    cases hd
    have hnone : replaces (s.threads u) = none := by
      refine Option.eq_none_iff_forall_ne_some.mpr fun x hx => ?_
      have hx' := hud.symm.trans (unfinished_of_replaces hx)
      exact hr u hu x.2 (Option.some.inj hx' ▸ hx)
    obtain ⟨g,hg⟩ := inserted_of_unfinished hud hnone
    refine ⟨rfl,hnone,fun hw => hn ?_⟩
    rw [hg] at hw
    cases hw
    exact hkeep u hu h hg
  · intro g
    rw [hlist]
    by_cases hg : g = h
    · simp [hg,hn,withheld]
    · simp [hg,Ne.symm hg,withheld]

theorem Inv.joins (ht : s.threads t = .publishing h e) (hn : h ∉ (s.elections e).lastBlocks)
    (hr : ∀ u, u ≠ t → ∀ r, replaces (s.threads u) ≠ some (e,r)) :
    Inv rootOf (setThread (setBlocks s e ((s.elections e).lastBlocks++[h])) t (.inserted h e)) := by
  obtain ⟨hl,hroot⟩ := (I.fits t).live h e (by rw [ht]; rfl)
  refine I.adds hl ?_ hroot hn (fun g => I.ownRoot hl) (fun u _ g => (I.fits u).pending g e) hr ?_
  · simp +contextual [ht,works]
  · intro g
    rw [I.listed_here hl t,ht]
    simp [withheld]

theorem Inv.replacing {r : BlockHash} (ht : s.threads t = .publishing h e)
    (hr : r ≠ (s.elections e).winner ∧ rootOf r = (s.elections e).root)
    (halone : ∀ u, u ≠ t → unfinished (s.threads u) ≠ some e) :
    Inv rootOf (setThread s t (.replacing h e r)) := by
  have hlive := (I.fits t).live h e (by rw [ht]; rfl)
  apply I.silent hlive.1
  · simp +contextual [ht,works]
  · simp +contextual [works]
  · rw [ht]
    rfl
  · rfl
  · refine ⟨fun g d hw => ?_,fun d x hx => ?_,nofun⟩
    · cases hw
      exact hlive
    · cases hx
      exact hr.symm
  · intro u hu d hd hud
    cases hd
    exact absurd hud (halone u hu)

theorem Inv.publish {replaced : Option BlockHash} (hc : Careful s (.publish t replaced)) :
    Inv rootOf (publish rootOf s t replaced) := by
  unfold ActiveIndex.publish
  split
  · rename_i h e ht
    have hcare := hc h e ht
    dsimp only
    split_ifs with hconf hfull hmem
    · exact I.idles ht
    · split
      · split_ifs with hr
        · refine I.replacing ht hr fun u hu hud => ?_
          cases hx : replaces (s.threads u) with
          | none =>
            obtain ⟨g,hg⟩ := inserted_of_unfinished hud hx
            exact (hcare u hu).2 hfull.1 g hg
          | some x =>
            have hx' := hud.symm.trans (unfinished_of_replaces hx)
            exact (hcare u hu).1 x.2 (Option.some.inj hx' ▸ hx)
        · exact I.idles ht
      · exact I.idles ht
    · exact I.idles ht
    · exact I.joins ht hmem fun u hu => (hcare u hu).1
  · exact I

/-- A thread that replaces a block has the election to itself. -/
theorem Inv.alone {r : BlockHash} (hr : replaces (s.threads t) = some (e,r)) {u : ℕ} (hu : u ≠ t) :
    unfinished (s.threads u) ≠ some e := by
  intro hud
  have := (I.apart t u hu e (unfinished_of_replaces hr) hud).1
  rw [hr] at this
  cases this

theorem Inv.eraseHash : Inv rootOf (eraseHash s t) := by
  unfold ActiveIndex.eraseHash
  split
  · rename_i g e r ht
    have hv : replaces (s.threads t) = some (e,r) := by rw [ht]; rfl
    have hlive := (I.fits t).live g e (by rw [ht]; rfl)
    have hvict := (I.fits t).victim e r hv
    rw [← moved_same e]
    refine I.turn hlive.1 ?_ ?_ (fun k => I.ownRoot hlive.1) ⟨?_,?_,nofun⟩ ?_ ?_ ?_ ?_
    · simp +contextual [ht,works]
    · simp +contextual [works]
    · intro k d hw
      cases hw
      simpa using hlive
    · intro d x hx
      cases hx
      simpa using hvict
    · exact fun u _ k hu => (I.fits u).pending k e hu
    · intro u hu d hd hud
      cases hd
      exact absurd hud (I.alone hv hu)
    · intro k d hd
      rw [get_erase]
      split_ifs with hk
      · refine ⟨nofun,fun hb => ?_⟩
        obtain ⟨hld,hrd⟩ := I.blockRoot hb
        exact absurd (live_unique hld hlive.1 (hrd.symm.trans (hk ▸ hvict.1))) hd
      · rfl
    · intro k
      rw [get_erase]
      split_ifs with hk
      · simp [hk,withheld]
      · rw [I.listed_here hlive.1 t,ht]
        simp [Ne.symm hk,withheld]
  · exact I

theorem Inv.removeBlock : Inv rootOf (removeBlock s t) := by
  unfold ActiveIndex.removeBlock
  split
  · rename_i g e r ht
    have hv : replaces (s.threads t) = some (e,r) := by rw [ht]; rfl
    obtain ⟨hl,hroot⟩ := (I.fits t).live g e (by rw [ht]; rfl)
    have hbefore : ∀ h d, works (s.threads t) = some (h,d) → d = e := by
      simp +contextual [ht,works]
    have hfree : ∀ u, u ≠ t → ∀ k, withheld (s.threads u) ≠ some (k,e) := fun u hu k hk =>
      I.alone hv hu (unfinished_of_withheld hk)
    have hkeep : ∀ l : List BlockHash, ∀ u, u ≠ t → ∀ k, s.threads u = .inserted k e → k ∈ l :=
      fun l u hu k hk => absurd (by rw [hk]; rfl) (hfree u hu k)
    dsimp only
    rw [if_pos ((I.fits t).victim e r hv).2]
    generalize hkept : (s.elections e).lastBlocks.filter (fun h => decide (h ≠ r)) = kept
    have hmem : ∀ k, k ∈ kept ↔ k ∈ (s.elections e).lastBlocks ∧ k ≠ r := by
      intro k
      rw [← hkept,List.mem_filter,decide_eq_true_eq]
    have hhash : ∀ k ∈ kept, rootOf k = (s.elections e).root := fun k hk =>
      I.ownRoot hl ((hmem k).mp hk).1
    have hlist : ∀ k, s.blocks[k]? = some e ↔ k ∈ kept := by
      intro k
      rw [I.listed_here hl t,hmem,ht,and_iff_left fun u hu => hfree u hu k]
      simp [withheld,eq_comm]
    split_ifs with hin
    · refine I.turn hl hbefore nofun hhash (fits_idle ..) (hkeep _) (fun u _ => nofun)
        (fun _ _ _ => Iff.rfl) fun k => ?_
      rw [hlist]
      exact ⟨fun hk => ⟨hk,nofun,fun u hu => hfree u hu k⟩,And.left⟩
    · refine I.adds hl hbefore hroot hin hhash (hkeep _) (fun u hu x hx => ?_) fun k => ?_
      · exact I.alone hv hu (unfinished_of_replaces hx)
      · rw [hlist,and_iff_left fun u hu => hfree u hu k]
  · exact I

theorem Inv.emplace : Inv rootOf (emplace s t) := by
  unfold ActiveIndex.emplace
  split
  · rename_i h e ht
    obtain ⟨hl,hroot⟩ := (I.fits t).live h e (by rw [ht]; rfl)
    have hfree : ∀ u, u ≠ t → withheld (s.threads u) ≠ some (h,e) := by
      intro u hu hw
      have := (I.apart t u hu e (by rw [ht]; rfl) (unfinished_of_withheld hw)).2.2
      rw [ht,hw] at this
      exact this rfl
    obtain ⟨hnone,hput⟩ := I.emplaced (fun d hd hr => live_unique hd hl (hr.symm.trans hroot))
      (fun hx => hx.2.2 t (by rw [ht]; rfl))
    rw [hput,← moved_same e]
    refine I.turn hl ?_ nofun (fun k => I.ownRoot hl) (fits_idle ..)
      (fun u _ k hu => (I.fits u).pending k e hu) (fun u _ => nofun) ?_ ?_
    · simp +contextual [ht,works]
    · intro k d hd
      rw [get_insert]
      split_ifs with hk
      · rw [hk,hnone]
        exact ⟨fun he => absurd (Option.some.inj he).symm hd,nofun⟩
      · rfl
    · intro k
      rw [get_insert]
      split_ifs with hk
      · rw [hk]
        exact iff_of_true rfl ⟨(I.fits t).pending h e ht,nofun,hfree⟩
      · rw [I.listed_here hl t,ht]
        simp [Ne.symm hk,withheld]
  · exact I

theorem Inv.edits {c : Contest} (hroot : c.root = (s.elections e).root)
    (hlast : c.lastBlocks = (s.elections e).lastBlocks)
    (hwin : ∀ t r, replaces (s.threads t) = some (e,r) → r ≠ c.winner) :
    Inv rootOf { s with elections := update s.elections e c } := by
  have hr : ∀ d, (update s.elections e c d).root = (s.elections d).root := by
    intro d
    by_cases hd : d = e
    · rw [hd,update_self,hroot]
    · rw [update_of_ne hd]
  have hl : ∀ d, (update s.elections e c d).lastBlocks = (s.elections d).lastBlocks := by
    intro d
    by_cases hd : d = e
    · rw [hd,update_self,hlast]
    · rw [update_of_ne hd]
  constructor
  · simpa only [hr] using I.roots
  · simpa only [hr,hl] using I.hashes
  · intro t
    refine (I.fits t).mono (fun g d hw => ⟨?_,hr d⟩) (fun d r hv => ?_) (fun g d hp => ?_)
    · simpa only [Live,hr] using ((I.fits t).live g d hw).1
    · dsimp only
      by_cases hd : d = e
      · subst hd
        rw [update_self]
        exact hwin t r hv
      · rw [update_of_ne hd]
        exact ((I.fits t).victim d r hv).2
    · exact (hl d).symm ▸ (I.fits t).pending g d hp
  · exact I.apart
  · simpa only [Live,Listed,hr,hl] using I.listed

theorem Inv.next_free : ¬ Live s s.next :=
  fun hl => Nat.lt_irrefl _ (I.roots _ _ hl).1

theorem Inv.insert {recentlyConfirmed : Bool} :
    Inv rootOf (insertImpl rootOf s h recentlyConfirmed) := by
  unfold insertImpl
  dsimp only
  split_ifs with hc
  · exact I
  have hroot : s.roots[rootOf h]? = none := by
    rw [ExtTreeMap.contains_eq_isSome_getElem?] at hc
    simp_all
  have hunlive : ∀ d, Live s d → rootOf h ≠ (s.elections d).root := by
    intro d hd hq
    rw [Live,← hq,hroot] at hd
    cases hd
  obtain ⟨hfree,hput⟩ := I.emplaced (e := s.next) (fun d hd hq => absurd hq (hunlive d hd))
    fun hx => I.next_free hx.1
  rw [hput]
  have hold : ∀ d, d ≠ s.next → update s.elections s.next ⟨rootOf h,[h],h,false⟩ d =
      s.elections d :=
    fun d hd => update_of_ne hd ..
  have hlive : ∀ d, d ≠ s.next →
      ((s.roots.insert (rootOf h) s.next)[(s.elections d).root]? = some d ↔ Live s d) := by
    intro d hd
    rw [get_insert]
    split_ifs with hq
    · exact ⟨fun he => absurd (Option.some.inj he).symm hd,fun hl => absurd hq.symm (hunlive d hl)⟩
    · rfl
  have hne : ∀ t g d, works (s.threads t) = some (g,d) → Live s d ∧ d ≠ s.next := by
    intro t g d hw
    have hl := ((I.fits t).live g d hw).1
    exact ⟨hl,fun he => I.next_free (he ▸ hl)⟩
  constructor
  · intro q d hd
    rw [get_insert] at hd
    split_ifs at hd with hq
    · cases hd
      exact ⟨Nat.lt_succ_self _,by dsimp only; rw [update_self,hq]⟩
    · obtain ⟨hlt,hr⟩ := I.roots q d hd
      exact ⟨Nat.lt_succ_of_lt hlt,by dsimp only; rw [hold d (Nat.ne_of_lt hlt),hr]⟩
  · intro d hd g hg
    dsimp only at hd hg ⊢
    by_cases he : d = s.next
    · rw [he,update_self] at hg ⊢
      rw [List.mem_singleton.mp hg]
    · rw [hold d he] at hg ⊢
      exact I.hashes d (by omega) g hg
  · intro t
    refine (I.fits t).of_same fun g d hw => ?_
    obtain ⟨hl,hd⟩ := hne t g d hw
    simp only [Live,hold d hd]
    exact ⟨(hlive d hd).mpr hl,trivial⟩
  · exact I.apart
  · intro g d
    dsimp only [Listed,Live]
    rw [get_insert]
    by_cases hd : d = s.next
    · subst hd
      rw [update_self,get_insert,if_pos rfl]
      split_ifs with hg
      · refine iff_of_true rfl ⟨rfl,by rw [hg]; exact List.mem_cons_self,fun t hw => ?_⟩
        obtain ⟨k,hk⟩ := works_of_unfinished (unfinished_of_withheld hw)
        exact (hne t k s.next hk).2 rfl
      · refine ⟨fun hb => absurd (I.blockRoot hb).1 I.next_free,fun hx => ?_⟩
        exact absurd (List.mem_singleton.mp hx.2.1) hg
    · rw [hold d hd,hlive d hd]
      split_ifs with hg
      · refine ⟨fun he => absurd (Option.some.inj he).symm hd,fun hx => ?_⟩
        exact absurd (hg ▸ I.ownRoot hx.1 hx.2.1) (hunlive d hx.1)
      · exact I.listed g d

theorem Inv.erase {root : QualifiedRoot} (hu : Unused s root) : Inv rootOf (erase s root) := by
  unfold ActiveIndex.erase
  cases he : s.roots[root]? with
  | none => exact I
  | some e =>
    have hroot := (I.roots root e he).2
    have hl : Live s e := by rw [Live,hroot,he]
    have hlive : ∀ d, (s.roots.erase (s.elections e).root)[(s.elections d).root]? = some d ↔
        Live s d ∧ d ≠ e := by
      intro d
      rw [get_erase]
      split_ifs with hq
      · exact ⟨nofun,fun hd => absurd (live_unique hd.1 hl hq) hd.2⟩
      · exact ⟨fun hd => ⟨hd,fun h => hq (by rw [h])⟩,And.left⟩
    constructor
    · intro q d hd
      rw [get_erase] at hd
      split_ifs at hd
      exact I.roots q d hd
    · exact I.hashes
    · intro t
      refine (I.fits t).of_same fun g d hw => ⟨(hlive d).mpr ⟨((I.fits t).live g d hw).1,?_⟩,rfl⟩
      exact fun h => hu e he t g (h ▸ hw)
    · exact I.apart
    · intro g d
      dsimp only [Listed,Live]
      rw [get_eraseAll,hlive d]
      split_ifs with hg
      · refine ⟨nofun,?_⟩
        rintro ⟨⟨hd,hne⟩,hm,-⟩
        exact absurd (live_unique hd hl ((I.ownRoot hd hm).symm.trans (I.ownRoot hl hg))) hne
      · rw [I.listed g d]
        exact ⟨fun hx => ⟨⟨hx.1,fun h => hg (h ▸ hx.2.1)⟩,hx.2⟩,fun hx => ⟨hx.1.1,hx.2⟩⟩

theorem Inv.step {ev : Event} (hc : Careful s ev) : Inv rootOf (step rootOf s ev) := by
  cases ev with
  | insert hash recentlyConfirmed => exact I.insert
  | erase root => exact I.erase hc
  | eraseOldest =>
    rw [ActiveIndex.step,eraseOldest]
    split
    · rename_i root order ho
      exact I.erase (hc root (by rw [ho]; rfl))
    · exact I
  | winner e hash =>
    rw [ActiveIndex.step]
    split_ifs
    · exact I.edits rfl rfl fun t r hv (he : r = hash) => hc t (he ▸ hv)
    · exact I
  | confirm e => exact I.edits rfl rfl fun t r hv => ((I.fits t).victim e r hv).2
  | lookup t hash => exact I.lookup
  | publish t replaced => exact I.publish hc
  | eraseHash t => exact I.eraseHash
  | removeBlock t => exact I.removeBlock
  | emplace t => exact I.emplace

omit I in
theorem reaches_inv (hr : Reaches rootOf Careful s) : Inv rootOf s := by
  induction hr with
  | start => exact empty_inv rootOf
  | step _ hc ih => exact ih.step hc

end

/-- After careful sections the index is coherent whenever no thread is inside an
operation. -/
theorem index_coherent {rootOf : BlockHash → QualifiedRoot} {s : State}
    (hr : Reaches rootOf Careful s) (hq : Quiet s) : Coherent s :=
  (reaches_inv hr).coherent rootOf hq

def thread : Event → Option ℕ
  | .lookup t _ | .publish t _ | .eraseHash t | .removeBlock t | .emplace t => some t
  | _ => none

section
variable {rootOf : BlockHash → QualifiedRoot} {s : State} {ev : Event} {evs : List Event} {u : ℕ}

theorem step_threads (hu : thread ev ≠ some u) : (step rootOf s ev).threads u = s.threads u := by
  have hset : ∀ (s : State) t pc, some t ≠ some u → (setThread s t pc).threads u = s.threads u :=
    fun s t pc ht => update_of_ne (fun h => ht (congrArg some h.symm)) ..
  cases ev <;>
    simp only [step,insertImpl,eraseOldest,erase,lookup,publish,eraseHash,removeBlock,emplace] <;>
    repeat' split
  all_goals first | rfl | exact hset _ _ _ hu

theorem run_threads (hu : ∀ ev ∈ evs, thread ev ≠ some u) :
    (run rootOf s evs).threads u = s.threads u := by
  induction evs generalizing s with
  | nil => rfl
  | cons ev evs ih =>
    rw [run,List.foldl_cons]
    exact (ih fun x hx => hu x (List.mem_cons_of_mem _ hx)).trans
      (step_threads (hu ev List.mem_cons_self))

theorem Reaches.snoc {P : State → Event → Prop} (hs : Reaches rootOf P (run rootOf .empty evs))
    (hp : P (run rootOf .empty evs) ev) : Reaches rootOf P (run rootOf .empty (evs++[ev])) := by
  rw [run,List.foldl_append]
  exact hs.step hp

/-- One thread may run while the others have no unfinished work. -/
theorem reaches_alone {more : List Event} {t : ℕ}
    (hs : Reaches rootOf Careful (run rootOf .empty evs))
    (hrest : ∀ u, u ≠ t → unfinished ((run rootOf .empty evs).threads u) = none)
    (hmore : ∀ ev ∈ more, thread ev = some t) :
    Reaches rootOf Careful (run rootOf .empty (evs++more)) := by
  induction more generalizing evs with
  | nil => rwa [List.append_nil]
  | cons ev more ih =>
    have ht := hmore ev List.mem_cons_self
    have hcareful : Careful (run rootOf .empty evs) ev := by
      cases ev with
      | publish u replaced =>
        cases ht
        refine fun h e _ u hu => ⟨fun r hr => ?_,fun _ g hg => ?_⟩
        · exact nomatch (hrest u hu).symm.trans (unfinished_of_replaces hr)
        · exact nomatch (hrest u hu).symm.trans (congrArg unfinished hg)
      | lookup | eraseHash | removeBlock | emplace => trivial
      | _ => cases ht
    rw [List.append_cons]
    refine ih (hs.snoc hcareful) (fun u hu => ?_) fun x hx => hmore x (List.mem_cons_of_mem _ hx)
    rw [run,List.foldl_append]
    refine (congrArg unfinished (step_threads fun h => hu ?_)).trans (hrest u hu)
    exact Option.some.inj (h.symm.trans ht)

theorem run_reaches (hs : Reaches rootOf (fun _ _ => True) s) (evs : List Event) :
    Reaches rootOf (fun _ _ => True) (run rootOf s evs) := by
  induction evs generalizing s with
  | nil => exact hs
  | cons ev evs ih => exact ih (hs.step trivial)

end

def sampleRoot : BlockHash → QualifiedRoot := fun _ => ⟨1,0⟩

def publishAll (t : ℕ) (hash : BlockHash) : List Event :=
  [.lookup t hash,.publish t none,.emplace t]

def full : List Event :=
  .insert 1 false::[2,3,4,5,6,7,8,9,10].flatMap (publishAll 0)

def erasedRun : List Event := [.insert 1 false,.lookup 0 2,.erase ⟨1,0⟩,.publish 0 none,.emplace 0]

def winnerRun : List Event :=
  full++[.lookup 0 11,.publish 0 (some 2),.winner 0 2,.eraseHash 0,.removeBlock 0,.emplace 0]

def replacedRun : List Event :=
  full++[.lookup 0 11,.publish 0 (some 2),.lookup 1 12,.publish 1 (some 2),.eraseHash 0,
    .removeBlock 0,.emplace 0,.lookup 2 2,.publish 2 (some 3),.eraseHash 2,.removeBlock 2,
    .eraseHash 1,.emplace 2,.removeBlock 1,.emplace 1]

def Spoils (evs : List Event) : Prop :=
  Reaches sampleRoot (fun _ _ => True) (run sampleRoot .empty evs) ∧
    Quiet (run sampleRoot .empty evs) ∧ ¬ Coherent (run sampleRoot .empty evs)

theorem threads_of_check {P : ℕ → Pc → Prop} {evs : List Event} (hidle : ∀ u, P u .idle)
    (hcheck : (∀ ev ∈ evs, ∀ t ∈ thread ev, t < 3) ∧
      ∀ u < 3, P u ((run sampleRoot .empty evs).threads u)) (u : ℕ) :
    P u ((run sampleRoot .empty evs).threads u) := by
  by_cases hu : u < 3
  · exact hcheck.2 u hu
  · rw [run_threads fun ev hev ht => hu (hcheck.1 ev hev u ht)]
    exact hidle u

theorem quiet_of_check {evs : List Event}
    (hcheck : (∀ ev ∈ evs, ∀ t ∈ thread ev, t < 3) ∧
      ∀ u < 3, (run sampleRoot .empty evs).threads u = .idle) : Quiet (run sampleRoot .empty evs) :=
  threads_of_check (P := fun _ pc => pc = .idle) (fun _ => rfl) hcheck

theorem spoils_of_check {evs : List Event}
    (hquiet : (∀ ev ∈ evs, ∀ t ∈ thread ev, t < 3) ∧
      ∀ u < 3, (run sampleRoot .empty evs).threads u = .idle)
    (hcheck : (let s := run sampleRoot .empty evs
      decide (s.blocks[(2 : BlockHash)]? = some 0) !=
        decide (s.roots[(s.elections 0).root]? = some 0 ∧ 2 ∈ (s.elections 0).lastBlocks)) =
      true) : Spoils evs := by
  simp only [bne_iff_ne,ne_eq,decide_eq_decide] at hcheck
  exact ⟨run_reaches .start evs,quiet_of_check hquiet,fun hc => hcheck (hc 2 0)⟩

/-- Each of the three leaves an incoherent index behind. -/
theorem index_incoherent : Spoils erasedRun ∧ Spoils winnerRun ∧ Spoils replacedRun := by
  refine ⟨?_,?_,?_⟩ <;> exact spoils_of_check (by decide +kernel) (by decide +kernel)

def begun : List Event := [.insert 1 false]++publishAll 0 2

def again : List Event :=
  begun++[.erase ⟨1,0⟩]++[.insert 1 false]++[2,3,4,5,6,7,8,9,10].flatMap (publishAll 0)++
    [.lookup 1 12]

/-- The election is erased and made again. Then two threads replace a block each,
the second of which has found the election before the first is done. -/
def inTurn : List Event :=
  again++[.lookup 0 11,.publish 0 (some 2),.eraseHash 0,.removeBlock 0,.emplace 0]++
    [.publish 1 (some 3),.eraseHash 1,.removeBlock 1,.emplace 1]

theorem index_coherent_sample : (run sampleRoot .empty inTurn).blocks[(12 : BlockHash)]? = some 1 ∧
    Quiet (run sampleRoot .empty inTurn) ∧ Coherent (run sampleRoot .empty inTurn) := by
  have halone : ∀ evs more t, Reaches sampleRoot Careful (run sampleRoot .empty evs) →
      ((∀ ev ∈ evs, ∀ t ∈ thread ev, t < 3) ∧ ∀ u < 3, u ≠ t →
        unfinished ((run sampleRoot .empty evs).threads u) = none) →
      (∀ ev ∈ more, thread ev = some t) →
      Reaches sampleRoot Careful (run sampleRoot .empty (evs++more)) := fun evs more t hs hrest =>
    reaches_alone hs (threads_of_check (P := fun u pc => u ≠ t → unfinished pc = none)
      (fun _ _ => rfl) hrest)
  have hstart : Reaches sampleRoot Careful (run sampleRoot .empty []) := .start
  have hbegun : Reaches sampleRoot Careful (run sampleRoot .empty begun) :=
    halone _ _ 0 (hstart.snoc trivial) (by decide +kernel) (by decide +kernel)
  have hidle : Quiet (run sampleRoot .empty begun) := quiet_of_check (by decide +kernel)
  have hunused : Careful (run sampleRoot .empty begun) (.erase ⟨1,0⟩) := by
    intro e _ t h
    rw [hidle t]
    exact nofun
  have hagain : Reaches sampleRoot Careful (run sampleRoot .empty again) :=
    halone _ _ 1 (halone _ _ 0 ((hbegun.snoc hunused).snoc trivial) (by decide +kernel)
      (by decide +kernel)) (by decide +kernel) (by decide +kernel)
  have hreach : Reaches sampleRoot Careful (run sampleRoot .empty inTurn) :=
    halone _ _ 1 (halone _ _ 0 hagain (by decide +kernel) (by decide +kernel)) (by decide +kernel)
      (by decide +kernel)
  have hquiet : Quiet (run sampleRoot .empty inTurn) := quiet_of_check (by decide +kernel)
  exact ⟨by decide +kernel,hquiet,index_coherent hreach hquiet⟩
end Vxldollar.IndexCoherence
