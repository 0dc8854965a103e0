import Vxldollar.CementingRuns

/-!
# What the bounded walk depends on

Two things in the ledger can keep the bounded processor from its work: a chain of nested
receives that fills the buffer at a block whose checkpoint is not erased, and a stretch
of plain blocks longer than an `int` can count. Both are stated here on the tables alone.
-/

namespace Vxldollar.Nesting
open Blocks Store Cementing Sources Traces CementingRuns Bounded BoundedWrites BoundedReturns List

def Confirmed (L : Ledger) (b : BlockHash) : Prop := L.blockConfirmed b = true

/-- The block is cemented, or a pending write will cement it. -/
def Covers (p : Processor) (b : BlockHash) : Prop :=
  p.trace.ledger.blockConfirmed b = true ∨ ∃ r, p.trace.ledger.blocks[b]? = some r ∧
    ∃ d ∈ p.pendingWrites, d.account = r.accountCalculated ∧ r.sideband.height ≤ d.topHeight

section
variable (C : Constants) (L : Ledger) (covered : BlockHash → Prop)

def Below (c b : BlockHash) : Prop := ∃ k r, L.blocks[c]? = some k ∧ L.blocks[b]? = some r ∧
  k.accountCalculated = r.accountCalculated ∧ k.sideband.height < r.sideband.height

def sourceOf (b : BlockHash) : Option BlockHash :=
  L.blocks[b]?.bind (fun r => receiveSource C L r.block)

variable (h : BlockHash)

/-- The uncovered blocks that a block pulls in: those below it, and what is taken for a
source. -/
inductive Pulls : BlockHash → Prop
  | self : ¬ covered h → Pulls h
  | chain {b c : BlockHash} : Pulls b → Below L c b → ¬ covered c → Pulls c
  | source {b s : BlockHash} : Pulls b → sourceOf C L b = some s → ¬ covered s → Pulls s

/-- Of 2^31 blocks of an account that end in a pulled one, some block below the last is
covered or taken for a receive. -/
def Brief : Prop := ∀ b r, Pulls C L covered h b → L.blocks[b]? = some r →
  2^31 ≤ r.sideband.height → ∃ c k, L.blocks[c]? = some k ∧ Below L c b ∧
    r.sideband.height < k.sideband.height+2^31 ∧ (covered c ∨ sourceOf C L c ≠ none)

/-- The receives that wait for a block when the walk comes to it: each stands at or below the
source that the one before it waits for, and no such source is pulled in by a receive that
stands below one of them, which would have come first. -/
inductive Nests : List BlockHash → BlockHash → Prop
  | start : ¬ covered h → Nests [] h
  | step {rs : List BlockHash} {t r s : BlockHash} : Nests rs t → r = t ∨ Below L r t →
      ¬ covered r → sourceOf C L r = some s → ¬ covered s →
      (∀ q ∈ r :: rs, ∀ c, Below L c q → sourceOf C L c ≠ none → ¬ Pulls C L covered c s) →
      Nests (r :: rs) s

/-- A block for which as many receives wait as a buffer holds is not itself taken for a receive,
unless it is the head of its chain. -/
def Erasable (n : ℕ) : Prop := ∀ rs t r, Nests C L covered h rs t → n ≤ rs.length+1 →
  L.blocks[t]? = some r → receiveSource C L r.block = none ∨ r.sideband.successor = 0

end

section
variable {C : Constants} {L : Ledger} {covered : BlockHash → Prop} {h : BlockHash}

theorem brief_of_heights (hh : ∀ (b : BlockHash) (r : StoredBlock), L.blocks[b]? = some r →
    r.sideband.height < 2^31) : Brief C L covered h := by
  intro b r _ hr hlong
  exact absurd (hh b r hr) (Nat.not_lt.mpr hlong)

theorem erasable_of_plain {n : ℕ} (hn : 2 ≤ n)
    (hplain : ∀ b s, sourceOf C L b = some s → sourceOf C L s = none) :
    Erasable C L covered h n := by
  intro rs t r hnest hlen hr
  cases hnest with
  | start => rw [length_nil] at hlen; omega
  | step _ _ _ hs _ _ =>
    left
    have := hplain _ _ hs
    rwa [sourceOf,hr,Option.bind_some] at this

end

section
variable {F : Forest Account BlockHash} {V V' : Account → ℕ} {ws : List WriteDetails}

theorem queue_le (h : Queue F V ws V') (a : Account) : V a ≤ V' a := by
  induction h with
  | nil => exact le_rfl
  | cons hw _ ih => exact (hw.raise.le a).trans ih

theorem queue_height (h : Queue F V ws V') (a : Account) (k : ℕ) :
    k ≤ V' a ↔ k ≤ V a ∨ ∃ d ∈ ws, d.account = a ∧ k ≤ d.topHeight := by
  induction h with
  | nil => simp
  | @cons V V₁ V₂ d ws hw _ ih =>
    rw [ih,hw.eq]
    have habove := hw.raise.above
    rw [← hw.account,← hw.height] at habove
    by_cases ha : a = d.account
    · subst ha
      simp only [Function.update_self,mem_cons,exists_eq_or_imp,true_and]
      constructor
      · rintro (hk | hk)
        · exact .inr (.inl hk)
        · exact .inr (.inr hk)
      · rintro (hk | hk | hk)
        · exact .inl (by omega)
        · exact .inl hk
        · exact .inr hk
    · rw [Function.update_of_ne ha]
      simp [Ne.symm ha]

theorem covers_iff {C : Constants} {L₀ : Ledger} {p : Processor} {b : BlockHash}
    (g : Grounds C F L₀) (T : Tracked F L₀ p V) : Covers p b ↔ F.Covered V b := by
  have BL := T.sound.written.backed g.backed
  unfold Covers
  rw [g.confirmed T.sound.written]
  constructor
  · rintro (⟨hm,hle⟩ | ⟨r,hr,d,hd,ha,hle⟩)
    · exact ⟨hm,hle.trans (queue_le T.pending _)⟩
    · obtain ⟨hm,hread⟩ := BL.record hr
      rw [hread.account] at ha
      rw [hread.height] at hle
      exact ⟨hm,(queue_height T.pending _ _).mpr (.inr ⟨d,hd,ha,hle⟩)⟩
  · rintro ⟨hm,hle⟩
    obtain ⟨r,hr,hread⟩ := BL.get b hm
    rcases (queue_height T.pending _ _).mp hle with hle | ⟨d,hd,ha,hle⟩
    · exact .inl ⟨hm,hle⟩
    · rw [← hread.account] at ha
      rw [← hread.height] at hle
      exact .inr ⟨r,hr,d,hd,ha,hle⟩

end

section
variable {C : Constants} {F : Forest Account BlockHash} {L : Ledger} {covered : BlockHash → Prop}
  {V : Account → ℕ} {h b c s : BlockHash} {rs : List BlockHash}

section
variable (B : Backed C F L)
include B

theorem below_iff : Below L c b ↔
    F.mem c ∧ F.mem b ∧ F.account c = F.account b ∧ F.height c < F.height b := by
  constructor
  · rintro ⟨k,r,hk,hr,ha,hh⟩
    obtain ⟨hc,hreadc⟩ := B.record hk
    obtain ⟨hb,hreadb⟩ := B.record hr
    rw [hreadc.account,hreadb.account] at ha
    rw [hreadc.height,hreadb.height] at hh
    exact ⟨hc,hb,ha,hh⟩
  · rintro ⟨hc,hb,ha,hh⟩
    obtain ⟨k,hk,hreadc⟩ := B.get c hc
    obtain ⟨r,hr,hreadb⟩ := B.get b hb
    refine ⟨k,r,hk,hr,?_,?_⟩
    · rw [hreadc.account,hreadb.account,ha]
    · rw [hreadc.height,hreadb.height]
      exact hh

theorem sourceOf_eq (hb : F.mem b) : sourceOf C L b = F.source b := by
  obtain ⟨r,hr,hread⟩ := B.get b hb
  rw [sourceOf,hr,Option.bind_some,hread.source]

end

variable (B : Backed C F L) (hcov : ∀ b, covered b ↔ F.Covered V b)
include B hcov

theorem pulls_iff (hm : F.mem h) : Pulls C L covered h b ↔ F.Pull V h b := by
  constructor
  · intro hp
    induction hp with
    | self hu => exact .self hm (fun hc => hu ((hcov _).mpr hc))
    | chain _ hbelow hu ih =>
      obtain ⟨hc,-,ha,hh⟩ := (below_iff B).mp hbelow
      exact ih.chain hc ha hh (fun hc => hu ((hcov _).mpr hc))
    | source _ hs hu ih =>
      rw [sourceOf_eq B ih.mem] at hs
      exact ih.source hs (fun hc => hu ((hcov _).mpr hc))
  · intro hp
    induction hp with
    | self _ hu => exact .self (fun hc => hu ((hcov _).mp hc))
    | chain hb hc ha hh hu ih =>
      exact ih.chain ((below_iff B).mpr ⟨hc,hb.mem,ha,hh⟩) (fun hc => hu ((hcov _).mp hc))
    | source hb hs hu ih =>
      exact ih.source ((sourceOf_eq B hb.mem).trans hs) (fun hc => hu ((hcov _).mp hc))

theorem brief_forest (hm : F.mem h) (hbrief : Brief C L covered h) : F.Brief (2^31) V h := by
  intro b hb hlong
  obtain ⟨r,hr,hread⟩ := B.get b hb.mem
  rw [← hread.height] at hlong
  obtain ⟨c,k,hk,hbelow,hh,hc⟩ := hbrief b r ((pulls_iff B hcov hm).mpr hb) hr hlong
  obtain ⟨hcm,-,ha,hlt⟩ := (below_iff B).mp hbelow
  rw [(B.record hk).2.height,hread.height] at hh
  rw [hcov,sourceOf_eq B hcm] at hc
  exact ⟨c,hcm,ha,hlt,hh,hc⟩

theorem nests_of_forest (hn : F.Nests V h rs b) : Nests C L covered h rs b := by
  induction hn with
  | start _ hu => exact .start (fun hc => hu ((hcov _).mp hc))
  | @step rs u r s hu hr ha hh hru hs hsu hfirst ih =>
    have humem := hu.mem
    refine ih.step ?_ (fun hc => hru ((hcov _).mp hc)) ((sourceOf_eq B hr).trans hs)
      (fun hc => hsu ((hcov _).mp hc)) (fun q hq c hbelow hsrc hp => ?_)
    · rcases Nat.lt_or_eq_of_le hh with hlt | heq
      · exact .inr ((below_iff B).mpr ⟨hr,humem,ha,hlt⟩)
      · exact .inl (F.unique hr humem ha heq)
    · obtain ⟨hc,-,hca,hlt⟩ := (below_iff B).mp hbelow
      rw [sourceOf_eq B hc] at hsrc
      exact hfirst q hq c hc hca hlt hsrc ((pulls_iff B hcov hc).mp hp)

theorem erases_forest {n : ℕ} (herase : Erasable C L covered h n) : Erases n F V h := by
  intro rs c hn hlen
  obtain ⟨r,hr,hread⟩ := B.get c hn.mem
  rcases herase rs c r (nests_of_forest B hcov hn) hlen hr with hs | h0
  · exact .inl (hread.source.symm.trans hs)
  · right
    rcases hread.successor with ⟨-,hhead⟩ | ⟨hs,-⟩
    · exact fun d hd ha => hhead d hd ha
    · rw [h0] at hs
      exact absurd hs B.zero

end

section
/-- Adding the block to the processor leads to no stretch that is too long. -/
def BriefFor (C : Constants) (p : Processor) (h : BlockHash) : Prop :=
  Brief C p.trace.ledger (Covers p) h

variable {C : Constants} {F : Forest Account BlockHash} {L : Ledger} {V : Account → ℕ}
  {h : BlockHash} (g : Grounds C F L)
include g

theorem erases_ledger {n : ℕ} (he : Erasable C L (Confirmed L) h n) :
    Erases n F (heightsIn L) h :=
  erases_forest g.backed (fun _ => g.confirmed g.written) he

theorem brief_ledger (hm : F.mem h) (hb : Brief C L (Confirmed L) h) :
    F.Brief (2^31) (heightsIn L) h :=
  brief_forest g.backed (fun _ => g.confirmed g.written) hm hb

theorem brief_processor {p : Processor} (T : Tracked F L p V) (hm : F.mem h)
    (hb : BriefFor C p h) : F.Brief (2^31) V h :=
  brief_forest (T.sound.written.backed g.backed) (fun _ => covers_iff g T) hm hb

end

section
open Runs

theorem sampleOpened_low (h : BlockHash) (r : StoredBlock)
    (hr : sampleOpened.blocks[h]? = some r) : r.sideband.height < 40 := by
  have hall : sampleOpened.blocks.toList.all (fun e => e.2.sideband.height < 40) = true := by
    decide +kernel
  simpa using all_eq_true.mp hall (h,r) ((Table.mem_entries _ _ _).mpr hr)

theorem sampleOpened_brief (covered : BlockHash → Prop) (h : BlockHash) :
    Brief sample sampleOpened covered h :=
  brief_of_heights (fun b r hr => (sampleOpened_low b r hr).trans (by decide))

theorem sampleOpened_sent : ∃ p, Reaches sample (fun _ => ⟨false,true,true,0⟩) 40
      (BriefFor sample) (fresh sampleOpened 16384) (.between p) ∧ p.trace.commits.length = 1 ∧
    p.trace.ledger.cache.blockCount = 3 ∧ p.trace.ledger.cache.cementedCount = 2 := by
  obtain ⟨r,hr,p,hp,h⟩ : ∃ r ∈ sampleOpened.blocks[(3 : BlockHash)]?, ∃ p ∈
      (processStep sample (fun _ => ⟨false,true,true,0⟩) 40 3 r
        (begin (fresh sampleOpened 16384))).bind Sum.getRight?, p.trace.commits.length = 1 ∧
      p.trace.ledger.cache.blockCount = 3 ∧ p.trace.ledger.cache.cementedCount = 2 := by
    decide +kernel
  obtain ⟨o,ho,hp⟩ := Option.bind_eq_some_iff.mp hp
  obtain rfl := Sum.getRight?_eq_some_iff.mp hp
  exact ⟨p,.finished (.added .start hr (sampleOpened_brief _ 3)) ho,h⟩

theorem sampleOpened_erasable (covered : BlockHash → Prop) (h : BlockHash) {n : ℕ} (hn : 2 ≤ n) :
    Erasable sample sampleOpened covered h n := by
  apply erasable_of_plain hn
  intro b s hs
  obtain ⟨r,hr,hs⟩ := Option.bind_eq_some_iff.mp hs
  have hall : sampleOpened.blocks.toList.all (fun e => (receiveSource sample sampleOpened
      e.2.block).all (fun s => sourceOf sample sampleOpened s = none)) = true := by decide +kernel
  have := all_eq_true.mp hall (b,r) ((Table.mem_entries _ _ _).mpr hr)
  rw [hs] at this
  simpa using this

end

end Vxldollar.Nesting
