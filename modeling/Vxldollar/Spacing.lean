import Vxldollar.Voting

/-!
# Vote spacing

A vote generator, of final or of ordinary votes, with every reading of the steady
clock. Its thread fills a batch from the queued candidates or from a request, signs
the batch for each representative and then flags what was signed. The entry of a
root in the spacing keeps its first hash, so what has to be shown is that an entry
for another hash is always trimmed away before the root is flagged.
-/

namespace Vxldollar.Spacing
open Blocks Store List
open Elections (timestampMax)
open Voting (Vote LocalVote SpacingEntry Candidate Config Loaded FinalVotes votable trim
  flag historyVotes historyAdd historyErase blockGet dependentsConfirmed finalVotePut
  confirmAckHashesMax maxRequests)

section
inductive Source where
  | broadcast
  | reply (rest : List Candidate)
  deriving DecidableEq, Repr

/-- Where the thread of the generator stands: between two calls, in the loop that
fills a batch, in `foreach_representative`, in the loop that flags. -/
inductive Phase where
  | waiting
  | filling (source : Source) (batch : List Candidate)
  | signing (source : Source) (batch : List Candidate) (votes : List Vote)
  | flagging (source : Source) (entries : List (Candidate × Vote))
  deriving DecidableEq, Repr

structure Signed where
  time : ℕ
  vote : Vote
  batch : List Candidate
  deriving DecidableEq, Repr

structure State where
  clock : ℕ
  history : List LocalVote := []
  recent : List SpacingEntry := []
  candidates : List Candidate := []
  requests : List (List Candidate) := []
  stopped : Bool := false
  phase : Phase := .waiting
  signed : List Signed := []
  deriving DecidableEq, Repr

/-- What the threads do. `add` has read the history, the ledger and the table of
final votes before it locks the generator, `generate` the ledger. `record` and
`erase` are the history as other components use it. From `broadcast` on it is the
thread of the generator; `finish` leaves the loop that signs or the one that flags. -/
inductive Event where
  | tick (n : ℕ)
  | add (history : List LocalVote) (L : Ledger) (table : FinalVotes) (root : Root)
    (hash : BlockHash)
  | generate (L : Ledger) (blocks : List Loaded)
  | record (root : Root) (hash : BlockHash) (vote : Vote)
  | erase (root : Root)
  | stop
  | broadcast
  | reply
  | fill
  | sign (account : Account) (milliseconds : BitVec 64)
  | finish
  | flag (pause : ℕ)

variable (C : Constants) (P : Config) (isFinal : Bool)

def shouldVote (L : Ledger) (table : FinalVotes) (hash : BlockHash) : Bool :=
  match blockGet L hash with
  | none => false
  | some b => dependentsConfirmed C L b &&
    (!isFinal || (finalVotePut table b.block.qualifiedRoot hash).1)

def timestampMask : BitVec 64 := 0xfffffffffffffff0

def timestamp (milliseconds : BitVec 64) : BitVec 64 :=
  if isFinal then timestampMax else milliseconds &&& timestampMask

namespace State

def locked (s : State) : Bool := match s.phase with
  | .filling .broadcast _ => true
  | _ => false

def resume (s : State) : Source → Phase
  | .broadcast => .waiting
  | .reply rest => if rest = [] ∨ s.stopped then .waiting else .filling (.reply rest) []

def queue (s : State) : Source → List Candidate
  | .broadcast => s.candidates
  | .reply rest => rest

def popFront (s : State) : Source → Source × List Candidate
  | .broadcast => (.broadcast,s.candidates.tail)
  | .reply rest => (.reply rest.tail,s.candidates)

def takes (s : State) (batch : List Candidate) (c : Candidate) : Bool :=
  decide (historyVotes s.history c.1 c.2 isFinal = []) && decide (c.1 ∉ batch.map Prod.fst) &&
    votable P.delay s.clock s.recent c.1 c.2

def fill (s : State) (source : Source) (batch : List Candidate) : State :=
  match s.queue source with
  | c::_ =>
    if batch.length < confirmAckHashesMax then
      { s with
        candidates := (s.popFront source).2
        phase := .filling (s.popFront source).1
          (if s.takes P isFinal batch c then batch++[c] else batch) }
    else { s with phase := .signing source batch [] }
  | [] => { s with phase := if batch = [] then s.resume source else .signing source batch [] }

end State

/-- An event that is not possible in the state gives none. -/
def act (s : State) : Event → Option State
  | .tick n => some { s with clock := s.clock+n }
  | .add history L table root hash =>
    if s.locked then none
    else if historyVotes history root hash isFinal = [] ∧ shouldVote C isFinal L table hash then
      some { s with candidates := s.candidates++[(root,hash)] }
    else some s
  | .generate L blocks =>
    if s.locked then none
    else
      let candidates := (blocks.filter (dependentsConfirmed C L)).map
        fun b => (b.block.root,C.blockHash b.block)
      let requests := s.requests++[candidates]
      some { s with requests := requests.drop (requests.length-maxRequests) }
  | .record root hash vote =>
    some { s with history := historyAdd P.maxCache s.history root hash vote }
  | .erase root => some { s with history := historyErase s.history root }
  | .stop => some { s with stopped := true }
  | .broadcast =>
    if s.phase = .waiting ∧ s.candidates ≠ [] then
      some { s with phase := .filling .broadcast [] }
    else none
  | .reply => match s.phase,s.requests with
    | .waiting,request::requests =>
      if s.candidates.length < confirmAckHashesMax ∧ s.stopped = false then
        some { s with requests := requests, phase := s.resume (.reply request) }
      else none
    | _,_ => none
  | .fill => match s.phase with
    | .filling source batch => some (s.fill P isFinal source batch)
    | _ => none
  | .sign account milliseconds => match s.phase with
    | .signing source batch votes =>
      let vote := ⟨account,timestamp isFinal milliseconds,batch.map Prod.snd⟩
      some { s with
        phase := .signing source batch (votes++[vote])
        signed := s.signed++[⟨s.clock,vote,batch⟩] }
    | _ => none
  | .finish => match s.phase with
    | .signing source batch votes => some { s with
        phase := .flagging source (votes.flatMap fun v => batch.map fun c => (c,v)) }
    | .flagging source [] => some { s with phase := s.resume source }
    | _ => none
  | .flag pause => match s.phase with
    | .flagging source (e::rest) => some { s with
        clock := s.clock+pause
        history := historyAdd P.maxCache s.history e.1.1 e.1.2 e.2
        recent := flag P.delay s.clock (s.clock+pause) s.recent e.1.1 e.1.2
        phase := .flagging source rest }
    | _ => none

def run (s : State) (events : List Event) : Option State :=
  events.foldlM (act C P isFinal) s

end

section
variable {C : Constants} {P : Config} {isFinal : Bool} {s t : State} {c d : Candidate}

/-- The loop over the queue has left a batch and the rest of the queue. -/
def State.filled (s : State) (out : List Candidate × List Candidate) : Source → State
  | .broadcast => { s with
    candidates := out.2
    phase := if out.1 = [] then .waiting else .signing .broadcast out.1 [] }
  | .reply _ => { s with
    phase := if out.1 = [] then s.resume (.reply out.2) else .signing (.reply out.2) out.1 [] }

/-- The steps that fill a batch of final votes come to what `Voting.fill` takes at once. -/
theorem run_fill {source : Source} {batch : List Candidate} (v : Voting.State)
    (hh : v.history = s.history) (hr : v.recent = s.recent) (hp : s.phase = .filling source batch) :
    ∃ k, run C P true s (replicate k .fill) =
      some (s.filled (Voting.fill P v s.clock batch (s.queue source)) source) := by
  generalize hl : s.queue source = l
  induction l generalizing s source batch with
  | nil =>
    have hact : act C P true s .fill = some (s.filled (batch,[]) source) := by
      simp only [act,hp,State.fill,hl]
      cases source <;> by_cases hb : batch = [] <;> simp_all [State.queue,State.filled,State.resume]
    exact ⟨1,by simp [run,hact,Voting.fill]⟩
  | cons c l ih =>
    by_cases hb : batch.length < confirmAckHashesMax
    · let t := { s with
        candidates := (s.popFront source).2
        phase := .filling (s.popFront source).1
          (if s.takes P true batch c then batch++[c] else batch) }
      have hact : act C P true s .fill = some t := by simp only [act,hp,State.fill,hl,if_pos hb,t]
      have htail : (s.queue source).tail = l := by rw [hl]; rfl
      obtain ⟨k,hk⟩ := ih (s := t) hh hr rfl (by cases source <;> exact htail)
      refine ⟨k+1,?_⟩
      rw [run,replicate_succ,foldlM_cons,hact]
      refine hk.trans (congrArg some ?_)
      obtain ⟨root,hash⟩ := c
      have htake : s.takes P true batch (root,hash) = true ↔
          historyVotes v.history root hash true = [] ∧ root ∉ batch.map Prod.fst ∧
            votable P.delay s.clock v.recent root hash = true := by
        simp [State.takes,hh,hr,and_assoc]
      simp only [Voting.fill,if_neg (not_le.mpr hb),← htake,t]
      cases source <;> split_ifs <;> simp [State.filled,State.popFront,State.resume]
    · have hne : batch ≠ [] := by
        rintro rfl
        exact hb (by decide)
      have hact : act C P true s .fill = some (s.filled (batch,c::l) source) := by
        simp only [act,hp,State.fill,hl,if_neg hb]
        cases source <;> simp_all [State.queue,State.filled]
      exact ⟨1,by simp [run,hact,Voting.fill,not_lt.mp hb]⟩

def Phase.batch : Phase → List Candidate
  | .waiting => []
  | .filling _ batch | .signing _ batch _ => batch
  | .flagging _ entries => entries.map Prod.fst

def Phase.unflagged : Phase → List Candidate
  | .signing _ batch votes => if votes = [] then [] else batch
  | .flagging _ entries => entries.map Prod.fst
  | _ => []

theorem unflagged_subset (p : Phase) (h : c ∈ p.unflagged) : c ∈ p.batch := by
  cases p with
  | signing source batch votes =>
    simp only [Phase.unflagged] at h
    split at h
    · cases h
    · exact h
  | flagging source entries => exact h
  | _ => cases h

/-- Votes for one root and different hashes are signed `delay` apart. -/
def Spaced (delay : ℕ) (x y : Signed) : Prop :=
  ∀ c ∈ x.batch, ∀ d ∈ y.batch, c.1 = d.1 → c.2 ≠ d.2 → x.time+delay ≤ y.time

/-- A vote is old, or waits to be flagged, or its entry is younger. An entry for
another hash of a root in the batch is so old that the next flag trims it. -/
structure Inv (P : Config) (s : State) : Prop where
  past : ∀ x ∈ s.signed, x.time ≤ s.clock
  spaced : s.signed.Pairwise (Spaced P.delay)
  remembered : ∀ x ∈ s.signed, ∀ c ∈ x.batch, x.time+P.delay ≤ s.clock ∨ c ∈ s.phase.unflagged ∨
    ∃ e ∈ s.recent, e.root = c.1 ∧ e.hash = c.2 ∧ x.time ≤ e.time
  clear : ∀ c ∈ s.phase.batch, ∀ e ∈ s.recent, e.root = c.1 →
    e.hash = c.2 ∨ e.time+P.delay < s.clock
  distinct : ∀ c ∈ s.phase.batch, ∀ d ∈ s.phase.batch, c.1 = d.1 → c = d

theorem inv_start (clock : ℕ) (history : List LocalVote) :
    Inv P { clock := clock, history := history } where
  past x hx := by cases hx
  spaced := Pairwise.nil
  remembered x hx := by cases hx
  clear c hc := by cases hc
  distinct c hc := by cases hc

theorem Inv.frame (I : Inv P s) (hsigned : t.signed = s.signed) (hrecent : t.recent = s.recent)
    (hclock : s.clock ≤ t.clock) (hbatch : ∀ c ∈ t.phase.batch, c ∈ s.phase.batch)
    (hunflagged : ∀ c ∈ s.phase.unflagged, c ∈ t.phase.unflagged) : Inv P t where
  past x hx := by
    rw [hsigned] at hx
    exact (I.past x hx).trans hclock
  spaced := by
    rw [hsigned]
    exact I.spaced
  remembered x hx c hc := by
    rw [hsigned] at hx
    rw [hrecent]
    rcases I.remembered x hx c hc with h | h | h
    · exact .inl (h.trans hclock)
    · exact .inr (.inl (hunflagged c h))
    · exact .inr (.inr h)
  clear c hc e he hr := by
    rw [hrecent] at he
    exact (I.clear c (hbatch c hc) e he hr).imp_right fun h => h.trans_le hclock
  distinct c hc d hd := I.distinct c (hbatch c hc) d (hbatch d hd)

theorem Inv.old (I : Inv P s) (hc : c ∈ s.phase.batch) {x : Signed} (hx : x ∈ s.signed)
    (hd : d ∈ x.batch) (hr : d.1 = c.1) (hne : d.2 ≠ c.2) : x.time+P.delay ≤ s.clock := by
  rcases I.remembered x hx d hd with h | h | ⟨e,he,hroot,hhash,htime⟩
  · exact h
  · have := I.distinct d (unflagged_subset _ h) c hc hr
    exact absurd (congrArg Prod.snd this) hne
  · rcases I.clear c hc e he (hroot.trans hr) with h | h
    · exact absurd (hhash.symm.trans h) hne
    · omega

theorem resume_batch (s : State) (source : Source) : (s.resume source).batch = [] := by
  cases source with
  | broadcast => rfl
  | reply rest =>
    simp only [State.resume]
    split <;> rfl

theorem Inv.resume (I : Inv P s) (source : Source) (h : s.phase.unflagged = []) :
    Inv P { s with phase := s.resume source } := by
  refine I.frame rfl rfl le_rfl ?_ ?_
  · intro c hc
    simp only [resume_batch] at hc
    cases hc
  · intro c hc
    rw [h] at hc
    cases hc

theorem Inv.join (I : Inv P s) (hc : s.takes P isFinal s.phase.batch c = true)
    (hclock : t.clock = s.clock) (hsigned : t.signed = s.signed) (hrecent : t.recent = s.recent)
    (hbatch : t.phase.batch = s.phase.batch++[c]) (hunflagged : s.phase.unflagged = []) :
    Inv P t := by
  simp only [State.takes,Bool.and_eq_true,decide_eq_true_eq] at hc
  obtain ⟨⟨-,hroot⟩,hvotable⟩ := hc
  simp only [votable,all_eq_true,decide_eq_true_eq] at hvotable
  have hmem : ∀ d ∈ t.phase.batch, d ∈ s.phase.batch ∨ d = c := by
    intro d hd
    rw [hbatch] at hd
    simpa using hd
  have hfresh : ∀ d ∈ s.phase.batch, d.1 ≠ c.1 := by
    intro d hd h
    exact hroot (mem_map.mpr ⟨d,hd,h⟩)
  constructor
  · rw [hsigned,hclock]
    exact I.past
  · rw [hsigned]
    exact I.spaced
  · intro x hx d hd
    rw [hsigned] at hx
    rw [hclock,hrecent]
    have := I.remembered x hx d hd
    rw [hunflagged] at this
    simp only [not_mem_nil,false_or] at this
    exact this.imp_right .inr
  · intro d hd e he hr
    rw [hclock]
    rw [hrecent] at he
    rcases hmem d hd with h | rfl
    · exact I.clear d h e he hr
    · exact (hvotable e he hr).imp_left Eq.symm
  · intro d hd d' hd' hr
    rcases hmem d hd with h | rfl <;> rcases hmem d' hd' with h' | rfl
    · exact I.distinct d h d' h' hr
    · exact absurd hr (hfresh d h)
    · exact absurd hr.symm (hfresh d' h')
    · rfl

variable {source : Source} {batch : List Candidate} {votes : List Vote}

theorem Inv.fill (I : Inv P s)
    (hp : s.phase = .filling source batch) : Inv P (s.fill P isFinal source batch) := by
  have hb : s.phase.batch = batch := by rw [hp]; rfl
  have hu : s.phase.unflagged = [] := by rw [hp]; rfl
  have hsign : Inv P { s with phase := .signing source batch [] } := by
    refine I.frame rfl rfl le_rfl ?_ ?_
    · intro c hc
      rw [hb]
      exact hc
    · intro c hc
      rw [hu] at hc
      cases hc
  simp only [State.fill]
  split
  · rename_i c _ hq
    by_cases hlen : batch.length < confirmAckHashesMax
    · rw [if_pos hlen]
      by_cases ht : s.takes P isFinal batch c
      · rw [if_pos ht]
        exact I.join (hb.symm ▸ ht) rfl rfl rfl (by rw [hb]; rfl) hu
      · rw [if_neg ht]
        refine I.frame rfl rfl le_rfl ?_ ?_
        · intro d hd
          rw [hb]
          exact hd
        · intro d hd
          rw [hu] at hd
          cases hd
    · rw [if_neg hlen]
      exact hsign
  · by_cases hnil : batch = []
    · rw [if_pos hnil]
      exact I.resume source hu
    · rw [if_neg hnil]
      exact hsign

theorem Inv.sign (I : Inv P s) (hp : s.phase = .signing source batch votes) (vote : Vote) :
    Inv P { s with
      phase := .signing source batch (votes++[vote])
      signed := s.signed++[⟨s.clock,vote,batch⟩] } := by
  have hb : s.phase.batch = batch := by rw [hp]; rfl
  have hu : (Phase.signing source batch (votes++[vote])).unflagged = batch := by
    simp [Phase.unflagged]
  have hx : ∀ x ∈ s.signed++[⟨s.clock,vote,batch⟩],
      x ∈ s.signed ∨ x = ⟨s.clock,vote,batch⟩ := by
    intro x hx
    simpa using hx
  constructor
  · intro x h
    rcases hx x h with h | rfl
    · exact I.past x h
    · exact le_rfl
  · apply pairwise_append.mpr
    constructor
    · exact I.spaced
    constructor
    · exact pairwise_singleton _ _
    · intro x h y hy d hd c hc hr hne
      rw [mem_singleton.mp hy] at hc ⊢
      exact I.old (hb.symm ▸ hc) h hd hr hne
  · intro x h c hc
    simp only [hu]
    rcases hx x h with h | rfl
    · rcases I.remembered x h c hc with h | h | h
      · exact .inl h
      · have := unflagged_subset _ h
        rw [hb] at this
        exact .inr (.inl this)
      · exact .inr (.inr h)
    · exact .inr (.inl hc)
  · intro c hc
    exact I.clear c (hb.symm ▸ hc)
  · intro c hc d hd
    exact I.distinct c (hb.symm ▸ hc) d (hb.symm ▸ hd)

theorem mem_flag (now : ℕ) {delay trimmed : ℕ} {recent : List SpacingEntry} {root : Root}
    {hash : BlockHash}
    (hclear : ∀ e ∈ recent, e.root = root → e.hash = hash ∨ e.time+delay < trimmed)
    (e : SpacingEntry) : e ∈ flag delay trimmed now recent root hash ↔
      e = ⟨root,now,hash⟩ ∨ e ∈ trim delay trimmed recent ∧ e.root ≠ root := by
  have hsame : ∀ e ∈ trim delay trimmed recent, e.root = root →
      ({ e with time := now } : SpacingEntry) = ⟨root,now,hash⟩ := by
    intro e he hr
    simp only [trim,mem_filter,decide_eq_true_eq] at he
    rcases hclear e he.1 hr with h | h
    · rw [hr,h]
    · omega
  simp only [flag]
  by_cases hany : (trim delay trimmed recent).any (fun e => e.root = root)
  · rw [if_pos hany,mem_map]
    simp only [any_eq_true,decide_eq_true_eq] at hany
    obtain ⟨o,ho,hor⟩ := hany
    constructor
    · rintro ⟨f,hf,rfl⟩
      by_cases hr : f.root = root
      · rw [if_pos hr]
        exact .inl (hsame f hf hr)
      · rw [if_neg hr]
        exact .inr ⟨hf,hr⟩
    · rintro (rfl | ⟨he,hr⟩)
      · exact ⟨o,ho,(if_pos hor).trans (hsame o ho hor)⟩
      · exact ⟨e,he,if_neg hr⟩
  · rw [if_neg hany,mem_append,mem_singleton]
    simp only [any_eq_true,decide_eq_true_eq] at hany
    constructor
    · rintro (he | rfl)
      · exact .inr ⟨he,fun hr => hany ⟨e,he,hr⟩⟩
      · exact .inl rfl
    · rintro (rfl | ⟨he,-⟩)
      · exact .inr rfl
      · exact .inl he

variable (I : Inv P s)
include I

theorem Inv.flagged {entry : Candidate × Vote} {rest : List (Candidate × Vote)}
    (hp : s.phase = .flagging source (entry::rest)) (pause : ℕ) (history : List LocalVote) :
    Inv P { s with
      clock := s.clock+pause
      history := history
      recent := flag P.delay s.clock (s.clock+pause) s.recent entry.1.1 entry.1.2
      phase := .flagging source rest } := by
  have hb : s.phase.batch = entry.1::rest.map Prod.fst := by rw [hp]; rfl
  have hu : s.phase.unflagged = entry.1::rest.map Prod.fst := by rw [hp]; rfl
  have hentry : entry.1 ∈ s.phase.batch := by simp [hb]
  have hrest : ∀ c ∈ rest.map Prod.fst, c ∈ s.phase.batch := by
    intro c hc
    rw [hb]
    exact mem_cons_of_mem _ hc
  have hmem := mem_flag (s.clock+pause) (I.clear entry.1 hentry)
  constructor
  · intro x hx
    exact (I.past x hx).trans (Nat.le_add_right _ _)
  · exact I.spaced
  · intro x hx c hc
    have hpast := I.past x hx
    -- the flagged root has a new entry, which is younger than every vote
    have hnew : c = entry.1 → ∃ e ∈ flag P.delay s.clock (s.clock+pause) s.recent entry.1.1
        entry.1.2, e.root = c.1 ∧ e.hash = c.2 ∧ x.time ≤ e.time := by
      rintro rfl
      exact ⟨_,(hmem _).mpr (.inl rfl),rfl,rfl,hpast.trans (Nat.le_add_right _ _)⟩
    rcases I.remembered x hx c hc with h | h | ⟨e,he,hroot,hhash,htime⟩
    · exact .inl (h.trans (Nat.le_add_right _ _))
    · rw [hu,mem_cons] at h
      rcases h with h | h
      · exact .inr (.inr (hnew h))
      · exact .inr (.inl h)
    · by_cases hold : e.time+P.delay ≤ s.clock
      · exact .inl (by dsimp only; omega)
      by_cases hr : e.root = entry.1.1
      · rcases I.clear entry.1 hentry e he hr with h | h
        · have : c = entry.1 := Prod.ext (hroot.symm.trans hr) (hhash.symm.trans h)
          exact .inr (.inr (hnew this))
        · omega
      · have htrim : e ∈ trim P.delay s.clock s.recent := by
          simp [trim,he,Nat.lt_of_not_le hold]
        exact .inr (.inr ⟨e,(hmem e).mpr (.inr ⟨htrim,hr⟩),hroot,hhash,htime⟩)
  · intro c hc e he hr
    rcases (hmem e).mp he with rfl | ⟨he,-⟩
    · exact .inl (congrArg Prod.snd (I.distinct _ hentry c (hrest c hc) hr))
    · rcases I.clear c (hrest c hc) e (mem_filter.mp he).1 hr with h | h
      · exact .inl h
      · exact .inr (h.trans_le (Nat.le_add_right _ _))
  · intro c hc d hd
    exact I.distinct c (hrest c hc) d (hrest d hd)

theorem Inv.finish (hp : s.phase = .signing source batch votes) : Inv P { s with
      phase := .flagging source (votes.flatMap fun v => batch.map fun c => (c,v)) } := by
  refine I.frame rfl rfl le_rfl ?_ ?_
  · intro c hc
    rw [hp]
    simp only [Phase.batch,map_flatMap,map_map,mem_flatMap,mem_map] at hc
    obtain ⟨v,-,d,hd,rfl⟩ := hc
    exact hd
  · intro c hc
    rw [hp,Phase.unflagged] at hc
    by_cases hv : votes = []
    · rw [if_pos hv] at hc
      cases hc
    · rw [if_neg hv] at hc
      obtain ⟨v,hv⟩ := exists_mem_of_ne_nil votes hv
      simp only [Phase.unflagged,map_flatMap,map_map,mem_flatMap,mem_map]
      exact ⟨v,hv,c,hc,rfl⟩

theorem act_inv {event : Event} (h : act C P isFinal s event = some t) : Inv P t := by
  cases event with
  | tick n =>
    cases h
    exact I.frame rfl rfl (Nat.le_add_right _ _) (fun _ h => h) fun _ h => h
  | add history L table root hash =>
    simp only [act] at h
    split at h
    · cases h
    split at h <;> cases h
    · exact I.frame rfl rfl le_rfl (fun _ h => h) fun _ h => h
    · exact I
  | generate L blocks =>
    simp only [act] at h
    split at h <;> cases h
    exact I.frame rfl rfl le_rfl (fun _ h => h) fun _ h => h
  | record root hash vote | erase root | stop =>
    cases h
    exact I.frame rfl rfl le_rfl (fun _ h => h) fun _ h => h
  | broadcast =>
    simp only [act] at h
    split at h
    · rename_i hw
      cases h
      refine I.frame rfl rfl le_rfl (fun _ h => nomatch h) ?_
      rw [hw.1]
      exact fun _ h => h
    · cases h
  | reply =>
    simp only [act] at h
    split at h
    · rename_i request requests hp hq
      split at h <;> cases h
      have J : Inv P { s with requests := requests } :=
        I.frame rfl rfl le_rfl (fun _ h => h) fun _ h => h
      exact J.resume (.reply request) (by rw [hp]; rfl)
    · cases h
  | fill =>
    simp only [act] at h
    split at h <;> cases h
    exact I.fill ‹_›
  | sign account milliseconds =>
    simp only [act] at h
    split at h <;> cases h
    exact I.sign ‹_› _
  | finish =>
    simp only [act] at h
    split at h
    · cases h
      exact I.finish ‹_›
    · rename_i source hp
      cases h
      exact I.resume source (by rw [hp]; rfl)
    · cases h
  | flag pause =>
    simp only [act] at h
    split at h <;> cases h
    exact I.flagged ‹_› pause _

theorem run_inv {events : List Event} (h : run C P isFinal s events = some t) :
    Inv P t := by
  induction events generalizing s with
  | nil =>
    cases h
    exact I
  | cons event events ih =>
    rw [run,foldlM_cons,Option.bind_eq_bind,Option.bind_eq_some_iff] at h
    obtain ⟨u,hu,h⟩ := h
    exact ih (act_inv I hu) h

end

/-- Of two votes of the generator for one root and different hashes, the later is
signed at least the delay after the earlier. -/
theorem votes_spaced (C : Constants) (P : Config) (isFinal : Bool) (clock : ℕ)
    (history : List LocalVote) (events : List Event) (s : State)
    (h : run C P isFinal { clock := clock, history := history } events = some s) :
    s.signed.Pairwise (Spaced P.delay) :=
  (run_inv (inv_start clock history) h).spaced

def sampleRivals : List Loaded :=
  [⟨⟨.open_ ⟨1,9,7⟩,0,0⟩,none⟩,⟨⟨.state ⟨7,0,9,0,0⟩,0,0⟩,none⟩]

def sampleEvents : List Event :=
  [.generate {} (sampleRivals.take 1),.reply,.fill,.fill,.sign 4 0,.finish,.tick 3,.flag 2,.finish,
    .tick 10,.generate {} (sampleRivals.drop 1),.reply,.fill,.fill,
    .tick 1,.generate {} (sampleRivals.drop 1),.reply,.fill,.tick 4,.fill,.sign 4 0]

def sampleVotes : Option (List (ℕ × List Candidate)) :=
  (run Runs.sample ⟨10,10⟩ false { clock := 0 } sampleEvents).map fun s =>
    s.signed.map fun x => (x.time,x.batch)

theorem votes_spaced_sample : ∃ s,
    run Runs.sample ⟨10,10⟩ false { clock := 0 } sampleEvents = some s ∧
    s.signed.map (fun x => (x.time,x.batch)) = [(0,[(7,2)]),(20,[(7,6)])] ∧
    s.signed.Pairwise (Spaced 10) := by
  have h : sampleVotes = some [(0,[(7,2)]),(20,[(7,6)])] := by decide +kernel
  obtain ⟨s,hs,hv⟩ := Option.map_eq_some_iff.mp h
  exact ⟨s,hs,hv,votes_spaced Runs.sample ⟨10,10⟩ false 0 [] sampleEvents s hs⟩

end Vxldollar.Spacing
