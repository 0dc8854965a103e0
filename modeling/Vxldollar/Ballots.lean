import Vxldollar.Quorum
import Mathlib.Data.Prod.Lex
import Mathlib.Order.WithBot
import Mathlib.Order.Bounds.Basic

/-!
# Votes in any order

`election::vote` keeps the largest pair of timestamp and hash that a
representative has sent, so that the recorded votes, and with them the weights,
do not depend on the order in which votes arrive. The field `final_weight` does:
a tally whose first block has no final vote leaves the value of an earlier
tally in place.
-/

namespace Vxldollar.Ballots
open Blocks Elections Quorum List Option Table

section
structure Ballot where
  rep : Account
  timestamp : BitVec 64
  hash : BlockHash
  deriving DecidableEq, Repr

/-- Pairs of timestamp and hash in lexicographic order, with a least element for
no vote. -/
abbrev Rank := WithBot (ℕ ×ₗ ℕ)

def rankOf (timestamp : BitVec 64) (hash : BlockHash) : Rank :=
  ((toLex (timestamp.toNat,hash.toNat) : ℕ ×ₗ ℕ) : WithBot (ℕ ×ₗ ℕ))

def Ballot.rank (b : Ballot) : Rank := rankOf b.timestamp b.hash

def recorded (votes : Votes) (a : Account) : Rank := match votes[a]? with
  | some i => rankOf i.timestamp i.hash
  | none => ⊥

variable {votes votes' : Votes} {a : Account} {t t' : BitVec 64} {h h' : BlockHash}

theorem rankOf_lt :
    rankOf t h < rankOf t' h' ↔ t < t' ∨ (t = t' ∧ h < h') := by
  unfold rankOf
  rw [WithBot.coe_lt_coe,Prod.Lex.toLex_lt_toLex,BitVec.lt_def,BitVec.lt_def,BitVec.toNat_inj]

theorem rankOf_inj (e : rankOf t h = rankOf t' h') :
    t = t' ∧ h = h' := by
  obtain ⟨ht,hh⟩ := Prod.mk.inj (toLex.injective (WithBot.coe_injective e))
  exact ⟨BitVec.toNat_inj.mp ht,BitVec.toNat_inj.mp hh⟩

theorem recorded_insert (i : VoteInfo) (b : Account) : recorded (votes.insert b i) a =
    if a = b then rankOf i.timestamp i.hash else recorded votes a := by
  unfold recorded
  rw [get_insert]
  by_cases e : a = b
  · rw [if_pos e,if_pos e]
  · rw [if_neg e,if_neg e]

theorem recorded_eq (e : recorded votes' a = recorded votes a) :
    votes'[a]?.map (fun i => (i.timestamp,i.hash)) =
      votes[a]?.map (fun i => (i.timestamp,i.hash)) := by
  unfold recorded at e
  cases hi : votes[a]? with
  | none =>
    cases hj : votes'[a]? with
    | none => rfl
    | some j =>
      rw [hi,hj] at e
      exact absurd e (WithBot.coe_ne_bot)
  | some i =>
    cases hj : votes'[a]? with
    | none =>
      rw [hi,hj] at e
      exact absurd e.symm (WithBot.coe_ne_bot)
    | some j =>
      rw [hi,hj] at e
      obtain ⟨ht,hh⟩ := rankOf_inj e
      rw [map_some,map_some,ht,hh]

end

section
@[mk_iff]
structure Eligible (s : State) (now : ℕ) (b : Ballot) : Prop where
  principal : s.env.devNetwork = true ∨
    s.env.weight b.rep > s.env.trended/principalWeightFactor
  paced : ∀ i ∈ s.election.lastVotes[b.rep]?, rankOf i.timestamp i.hash < b.rank →
    (i.time.all fun time => decide (time+cooldown s.env (s.env.weight b.rep) ≤ now)) = true

instance (s : State) (now : ℕ) (b : Ballot) : Decidable (Eligible s now b) :=
  decidable_of_iff' _ (eligible_iff s now b)

def Ballot.event (b : Ballot) (now : ℕ) (order : List BlockHash) : Event :=
  .vote now b.rep b.timestamp b.hash order

/-- Votes delivered to an election one after the other, with the rest of a call
that gave the lock back anywhere in between. Each tally on the way, of the votes
recorded so far in the order in which they are traversed, satisfies `Q`. -/
inductive Delivers (Q : State → List BlockHash → Prop) (s : State) : List Ballot → State → Prop
  | start : Delivers Q s [] s
  | vote {bs : List Ballot} {t u : State} {b : Ballot} {now : ℕ} {order : List BlockHash}
      {called : Bool} : Delivers Q s bs t → Eligible t now b → Traverses t (b.event now order) →
      (∀ o ∈ (record t (b.event now order)).2, Q (record t (b.event now order)).1 o) →
      step t (b.event now order) = some (u,called) → Delivers Q s (bs++[b]) u
  | resume {bs : List Ballot} {t u : State} {called : Bool} : Delivers Q s bs t →
      step t .resume = some (u,called) → Delivers Q s bs u

def Unremoving (env : Environment) : Prop := env.voting = true → ∀ h, env.generated h = []

structure Fixed (s t : State) : Prop where
  blocks : t.election.lastBlocks = s.election.lastBlocks
  weight : t.env.weight = s.env.weight
  devNetwork : t.env.devNetwork = s.env.devNetwork
  trended : t.env.trended = s.env.trended
  unremoving : Unremoving s.env → Unremoving t.env

theorem Fixed.refl (s : State) : Fixed s s := ⟨rfl,rfl,rfl,rfl,id⟩

theorem Fixed.trans {s t u : State} (h : Fixed s t) (h' : Fixed t u) : Fixed s u where
  blocks := h'.blocks.trans h.blocks
  weight := h'.weight.trans h.weight
  devNetwork := h'.devNetwork.trans h.devNetwork
  trended := h'.trended.trans h.trended
  unremoving := fun hs => h'.unremoving (h.unremoving hs)

variable {s t u : State} {b : Ballot} {bs : List Ballot} {now : ℕ} {order : List BlockHash}
  {called : Bool} {a : Account}

structure Untouched (s t : State) : Prop extends Fixed s t where
  votes : t.election.lastVotes = s.election.lastVotes
  finalWeight : t.election.finalWeight = s.election.finalWeight

theorem Untouched.trans (h : Untouched s t) (h' : Untouched t u) : Untouched s u where
  toFixed := h.toFixed.trans h'.toFixed
  votes := h'.votes.trans h.votes
  finalWeight := h'.finalWeight.trans h.finalWeight

theorem decideFinal_untouched (s : State) : Untouched s (decideFinal s).1 := by
  unfold decideFinal
  split_ifs <;> exact ⟨⟨rfl,rfl,rfl,rfl,id⟩,rfl,rfl⟩

theorem removeVotes_untouched (hu : Unremoving s.env) (hash : BlockHash) :
    Untouched s (removeVotes s hash) := by
  unfold removeVotes
  split_ifs with hv
  · refine ⟨⟨rfl,rfl,rfl,rfl,fun _ _ _ => rfl⟩,?_,rfl⟩
    rw [hu hv hash]
    rfl
  · exact ⟨.refl s,rfl,rfl⟩

theorem changeWinner_untouched (hu : Unremoving s.env) (tally : List (ℕ × BlockHash))
    (top : BlockHash) : Untouched s (changeWinner s tally top) := by
  unfold changeWinner
  split_ifs
  · have h : Untouched s { s with election.winner := top } := ⟨⟨rfl,rfl,rfl,rfl,id⟩,rfl,rfl⟩
    exact h.trans (removeVotes_untouched (s := { s with election.winner := top }) hu _)
  · exact ⟨.refl s,rfl,rfl⟩

theorem confirmIfQuorum_winner (h : confirmIfQuorum s order = some (t,called)) :
    ∃ a top rest, (tallyImpl s.env.weight s.election order).1 = (a,top)::rest ∧
      Untouched (changeWinner { s with election := (tallyImpl s.env.weight s.election order).2 }
        ((a,top)::rest) top) t := by
  unfold confirmIfQuorum at h
  generalize hx : tallyImpl s.env.weight s.election order = x at h ⊢
  obtain ⟨tally,e⟩ := x
  cases tally with
  | nil => cases h
  | cons x rest =>
    obtain ⟨a,top⟩ := x
    refine ⟨a,top,rest,rfl,?_⟩
    dsimp only at h ⊢
    generalize changeWinner { s with election := e } ((a,top)::rest) top = v at h
    have hv : Untouched v { v with election.isQuorum := true } := ⟨⟨rfl,rfl,rfl,rfl,id⟩,rfl,rfl⟩
    split_ifs at h
    · cases h
      exact ⟨⟨rfl,rfl,rfl,rfl,id⟩,rfl,rfl⟩
    · obtain rfl : (decideFinal { v with election.isQuorum := true }).1 = t :=
        congrArg Prod.fst (some.inj h)
      exact hv.trans (decideFinal_untouched _)
    · obtain rfl : (decideFinal v).1 = t := congrArg Prod.fst (some.inj h)
      exact decideFinal_untouched _
    · cases h
      exact ⟨.refl _,rfl,rfl⟩

theorem confirmIfQuorum_untouched (hu : Unremoving s.env)
    (h : confirmIfQuorum s order = some (t,called)) :
    Untouched { s with election := (tallyImpl s.env.weight s.election order).2 } t := by
  obtain ⟨a,top,rest,-,hv⟩ := confirmIfQuorum_winner h
  exact (changeWinner_untouched
    (s := { s with election := (tallyImpl s.env.weight s.election order).2 }) hu _ _).trans hv

def counted (votes : Votes) (now : ℕ) (b : Ballot) : Votes :=
  if recorded votes b.rep < b.rank then votes.insert b.rep ⟨some now,b.timestamp,b.hash⟩ else votes

theorem recorded_counted (votes : Votes) (now : ℕ) (b : Ballot) (a : Account) :
    recorded (counted votes now b) a =
      if a = b.rep then max (recorded votes a) b.rank else recorded votes a := by
  unfold counted
  by_cases hlt : recorded votes b.rep < b.rank
  · rw [if_pos hlt,recorded_insert]
    by_cases e : a = b.rep
    · rw [if_pos e,if_pos e,e,max_eq_right hlt.le]
      rfl
    · rw [if_neg e,if_neg e]
  · rw [if_neg hlt]
    by_cases e : a = b.rep
    · rw [if_pos e,e,max_eq_left (not_lt.mp hlt)]
    · rw [if_neg e]

theorem shouldProcess_eq (he : Eligible t now b) :
    shouldProcess t now b.rep b.timestamp b.hash =
      decide (recorded t.election.lastVotes b.rep < b.rank) := by
  have hp : (t.env.devNetwork ||
      decide (t.env.weight b.rep > t.env.trended/principalWeightFactor)) = true := by
    rw [Bool.or_eq_true,decide_eq_true_eq]
    exact he.principal
  unfold shouldProcess recorded
  dsimp only
  rw [hp,Bool.true_and]
  cases hi : t.election.lastVotes[b.rep]? with
  | none => exact (decide_eq_true (WithBot.bot_lt_coe _)).symm
  | some last =>
    dsimp only
    by_cases hlt : rankOf last.timestamp last.hash < b.rank
    · rw [if_pos (rankOf_lt.mp hlt),he.paced last hi hlt,Bool.or_true,decide_eq_true hlt]
    · rw [if_neg (fun h => hlt (rankOf_lt.mpr h)),decide_eq_false hlt]

def withVotes (t : State) (votes : Votes) : State := { t with election.lastVotes := votes }

theorem record_ballot (t : State) (b : Ballot) (now : ℕ) (order : List BlockHash) :
    record t (b.event now order) = if shouldProcess t now b.rep b.timestamp b.hash then
      (withVotes t (t.election.lastVotes.insert b.rep ⟨some now,b.timestamp,b.hash⟩),
        if t.election.confirmed then none else some order)
      else (t,none) :=
  rfl

theorem vote_eq (t : State) (b : Ballot) (now : ℕ) (order : List BlockHash) :
    step t (b.event now order) = if shouldProcess t now b.rep b.timestamp b.hash then
      let t' := withVotes t (t.election.lastVotes.insert b.rep ⟨some now,b.timestamp,b.hash⟩)
      if t.election.confirmed then some (t',false) else confirmIfQuorum t' order
    else some (t,false) := by
  rw [step_record (by rintro ⟨⟩),record_ballot]
  by_cases hp : shouldProcess t now b.rep b.timestamp b.hash = true
  · rw [if_pos hp,if_pos hp]
    by_cases hc : t.election.confirmed = true
    · simp [if_pos hc]
    · simp [if_neg hc]
  · rw [if_neg hp,if_neg hp]
    rfl

theorem vote_step (hu : Unremoving t.env) (he : Eligible t now b)
    (h : step t (b.event now order) = some (u,called)) :
    Fixed t u ∧ u.election.lastVotes = counted t.election.lastVotes now b ∧
    (u.election.finalWeight = t.election.finalWeight ∨
      (record t (b.event now order)).2 = some order ∧ u.election.finalWeight = (tallyImpl
        t.env.weight (record t (b.event now order)).1.election order).2.finalWeight) := by
  rw [vote_eq,shouldProcess_eq he] at h
  rw [record_ballot,shouldProcess_eq he]
  unfold counted
  by_cases hlt : recorded t.election.lastVotes b.rep < b.rank
  · rw [if_pos (decide_eq_true hlt)] at h ⊢
    rw [if_pos hlt]
    dsimp only at h
    split_ifs at h with hc
    · cases h
      exact ⟨⟨rfl,rfl,rfl,rfl,id⟩,rfl,.inl rfl⟩
    · have U := confirmIfQuorum_untouched (s := withVotes t (t.election.lastVotes.insert b.rep
        ⟨some now,b.timestamp,b.hash⟩)) hu h
      exact ⟨⟨U.blocks,U.weight,U.devNetwork,U.trended,U.unremoving⟩,U.votes,
        .inr ⟨if_neg hc,U.finalWeight⟩⟩
  · rw [if_neg (by rw [decide_eq_false hlt]; exact Bool.false_ne_true)] at h
    cases h
    rw [if_neg hlt]
    exact ⟨.refl t,rfl,.inl rfl⟩

theorem resume_step (h : step t .resume = some (u,called)) : Untouched t u := by
  rw [step] at h
  split_ifs at h
  · cases h
    exact ⟨.refl t,rfl,rfl⟩
  · obtain rfl : (decideFinal { t with released := t.released-1 }).1 = u :=
      congrArg Prod.fst (some.inj h)
    have ht : Untouched t { t with released := t.released-1 } := ⟨⟨rfl,rfl,rfl,rfl,id⟩,rfl,rfl⟩
    exact ht.trans (decideFinal_untouched _)

variable {Q Q' : State → List BlockHash → Prop} (d : Delivers Q s bs t) (hu : Unremoving s.env)
include d hu

theorem Delivers.fixed : Fixed s t := by
  induction d with
  | start => exact .refl s
  | vote _ he _ _ h ih => exact ih.trans (vote_step (ih.unremoving hu) he h).1
  | resume _ h ih => exact ih.trans (resume_step h).toFixed

theorem Delivers.largest (a : Account) :
    IsGreatest {x | x = recorded s.election.lastVotes a ∨ ∃ b ∈ bs, b.rep = a ∧ x = b.rank}
      (recorded t.election.lastVotes a) := by
  induction d with
  | start =>
    refine ⟨.inl rfl,?_⟩
    rintro x (rfl | ⟨b,hb,-⟩)
    · exact le_rfl
    · cases hb
  | @vote bs t u b now order called d he _ _ h ih =>
    rw [(vote_step ((d.fixed hu).unremoving hu) he h).2.1,recorded_counted]
    obtain ⟨hmem,hle⟩ := ih
    constructor
    · by_cases e : a = b.rep
      · rw [if_pos e]
        rcases max_choice (recorded t.election.lastVotes a) b.rank with hm | hm
        · rw [hm]
          exact hmem.imp_right fun ⟨c,hc,h⟩ => ⟨c,mem_append_left _ hc,h⟩
        · rw [hm]
          exact .inr ⟨b,mem_append_right _ (mem_singleton.mpr rfl),e.symm,rfl⟩
      · rw [if_neg e]
        exact hmem.imp_right fun ⟨c,hc,h⟩ => ⟨c,mem_append_left _ hc,h⟩
    · have hold : recorded t.election.lastVotes a ≤
          if a = b.rep then max (recorded t.election.lastVotes a) b.rank
          else recorded t.election.lastVotes a := by
        split
        · exact le_max_left _ _
        · exact le_rfl
      rintro x (rfl | ⟨c,hc,hca,rfl⟩)
      · exact (hle (.inl rfl)).trans hold
      · rcases mem_append.mp hc with hc | hc
        · exact (hle (.inr ⟨c,hc,hca,rfl⟩)).trans hold
        · obtain rfl := mem_singleton.mp hc
          rw [if_pos hca.symm]
          exact le_max_right _ _
  | resume _ h ih =>
    rw [(resume_step h).votes]
    exact ih

theorem Delivers.increases (a : Account) :
    recorded s.election.lastVotes a ≤ recorded t.election.lastVotes a :=
  (d.largest hu a).2 (.inl rfl)

end

section
variable {w : Account → ℕ} {votes votes' : Votes} {blocks order order' : List BlockHash}
  {h : BlockHash}

theorem mem_voted : h ∈ voted votes ↔
    ∃ (a : Account) (i : VoteInfo), votes[a]? = some i ∧ i.hash = h := by
  unfold voted
  rw [mem_dedup,List.mem_map]
  constructor
  · rintro ⟨⟨a,i⟩,he,rfl⟩
    exact ⟨a,i,(mem_entries _ _ _).mp he,rfl⟩
  · rintro ⟨a,i,hi,rfl⟩
    exact ⟨(a,i),(mem_entries _ _ _).mpr hi,rfl⟩

theorem hasFinal_iff : hasFinal votes h = true ↔
    ∃ (a : Account) (i : VoteInfo), votes[a]? = some i ∧ i.hash = h ∧
      i.timestamp = timestampMax := by
  unfold hasFinal
  rw [List.any_eq_true]
  constructor
  · rintro ⟨⟨a,i⟩,he,hi⟩
    exact ⟨a,i,(mem_entries _ _ _).mp he,of_decide_eq_true hi⟩
  · rintro ⟨a,i,hi,hh⟩
    exact ⟨(a,i),(mem_entries _ _ _).mpr hi,decide_eq_true hh⟩

def SameVotes (votes votes' : Votes) : Prop := ∀ a : Account,
  votes'[a]?.map (fun i => (i.timestamp,i.hash)) = votes[a]?.map (fun i => (i.timestamp,i.hash))

section
variable (hs : SameVotes votes votes')
include hs

theorem SameVotes.find {a : Account} {i : VoteInfo} (hi : votes[a]? = some i) :
    ∃ j, votes'[a]? = some j ∧ j.timestamp = i.timestamp ∧
      j.hash = i.hash := by
  have e := hs a
  rw [hi,map_some] at e
  obtain ⟨j,hj,e⟩ := map_eq_some_iff.mp e
  obtain ⟨ht,hh⟩ := Prod.mk.inj e
  exact ⟨j,hj,ht,hh⟩

theorem SameVotes.symm : SameVotes votes' votes :=
  fun a => (hs a).symm

theorem SameVotes.total (f : Account → BitVec 64 → BlockHash → ℕ) :
    total (fun a (i : VoteInfo) => f a i.timestamp i.hash) votes' =
      total (fun a (i : VoteInfo) => f a i.timestamp i.hash) votes := by
  apply total_congr
  intro a
  have e := congrArg (Option.map (fun x => f a x.1 x.2)) (hs a)
  simpa [Function.comp_def] using e

theorem SameVotes.blockWeight (h : BlockHash) :
    blockWeight w votes' h = blockWeight w votes h :=
  hs.total (fun a _ g => if g = h then w a else 0)

theorem SameVotes.finalWeightOf (h : BlockHash) :
    finalWeightOf w votes' h = finalWeightOf w votes h :=
  hs.total (fun a t g => if g = h ∧ t = timestampMax then w a else 0)

theorem SameVotes.hasFinal (h : BlockHash) :
    hasFinal votes' h = hasFinal votes h := by
  have half : ∀ {v v' : Votes}, SameVotes v v' → Elections.hasFinal v h = true →
      Elections.hasFinal v' h = true := by
    intro v v' hv hf
    obtain ⟨a,i,hi,hh,ht⟩ := hasFinal_iff.mp hf
    obtain ⟨j,hj,hjt,hjh⟩ := hv.find hi
    exact hasFinal_iff.mpr ⟨a,j,hj,hjh.trans hh,hjt.trans ht⟩
  exact Bool.eq_iff_iff.mpr ⟨half hs.symm,half hs⟩

theorem SameVotes.voted : h ∈ Elections.voted votes' ↔ h ∈ Elections.voted votes := by
  have half : ∀ {v v' : Votes}, SameVotes v v' → h ∈ Elections.voted v →
      h ∈ Elections.voted v' := by
    intro v v' hv hm
    obtain ⟨a,i,hi,hh⟩ := mem_voted.mp hm
    obtain ⟨j,hj,-,hjh⟩ := hv.find hi
    exact mem_voted.mpr ⟨a,j,hj,hjh.trans hh⟩
  exact ⟨half hs.symm,half hs⟩

end

theorem mem_amounts {x : ℕ} : x ∈ (tallyOf w votes blocks order).map Prod.fst ↔
    ∃ h ∈ order, h ∈ blocks ∧ x = blockWeight w votes h := by
  have T := tallied_tallyOf w votes blocks order
  constructor
  · intro hx
    obtain ⟨e,he,rfl⟩ := mem_map.mp hx
    exact ⟨e.2,T.listed e he,T.entry e he⟩
  · rintro ⟨h,ho,hb,rfl⟩
    exact T.amount h ho hb

/-- The amounts of a tally depend on the votes alone. -/
theorem amounts_eq (hs : SameVotes votes votes') (ho : order.Perm (voted votes))
    (ho' : order'.Perm (voted votes')) :
    (tallyOf w votes' blocks order').map Prod.fst =
      (tallyOf w votes blocks order).map Prod.fst := by
  have descends : ∀ v o,
      ((tallyOf w v blocks o).map Prod.fst).Pairwise (fun x y => y < x) := fun v o =>
    pairwise_map.mpr (tallied_tallyOf w v blocks o).descending
  have hmem : ∀ x, x ∈ (tallyOf w votes' blocks order').map Prod.fst ↔
      x ∈ (tallyOf w votes blocks order).map Prod.fst := by
    intro x
    rw [mem_amounts,mem_amounts]
    simp only [hs.blockWeight,ho.mem_iff,ho'.mem_iff,hs.voted]
  have nodup : ∀ v o, ((tallyOf w v blocks o).map Prod.fst).Nodup :=
    fun v o => (descends v o).imp (fun h => h.ne')
  have hperm := (perm_ext_iff_of_nodup (nodup votes' order') (nodup votes order)).mpr hmem
  exact hperm.eq_of_pairwise (fun x y _ _ h h' => absurd (h.trans h') (lt_irrefl _))
    (descends _ _) (descends _ _)

end
section
variable {s t u : State} {b : Ballot} {bs bs' : List Ballot} {now : ℕ} {o o' : List BlockHash}
  {top h : BlockHash} {votes : Votes} {Q Q' : State → List BlockHash → Prop}

def tallyAt (t : State) (o : List BlockHash) : List (ℕ × BlockHash) × Election :=
  tallyImpl t.env.weight t.election o

def First (t : State) (o : List BlockHash) (top : BlockHash) : Prop :=
  (tallyAt t o).1.head?.map Prod.snd = some top

instance (t : State) (o : List BlockHash) (top : BlockHash) : Decidable (First t o top) :=
  inferInstanceAs (Decidable (_ = _))

/-- Two states with the same tally: the weights, the amounts, the winner up to
ties, and the final weight where the winner is the same. -/
structure SameTally (t u : State) (o o' : List BlockHash) : Prop where
  weights : ∀ h, blockWeight u.env.weight u.election.lastVotes h =
    blockWeight t.env.weight t.election.lastVotes h
  amounts : (tallyAt u o').1.map Prod.fst = (tallyAt t o).1.map Prod.fst
  winners : ∀ top top', First t o top → First u o' top' →
    blockWeight t.env.weight t.election.lastVotes top' =
      blockWeight t.env.weight t.election.lastVotes top
  final : ∀ top, First t o top → First u o' top →
    (tallyAt u o').2.finalWeight = (tallyAt t o).2.finalWeight

/-- The first block of a tally has no final vote, so that the final weight is left
as it is. -/
def Unfinal (t : State) (o : List BlockHash) : Prop :=
  ∀ top, First t o top → hasFinal t.election.lastVotes top = false

theorem first_amount (h : First t o top) :
    (tallyAt t o).1.head?.map Prod.fst =
      some (blockWeight t.env.weight t.election.lastVotes top) := by
  obtain ⟨⟨a,g⟩,hx,rfl⟩ := map_eq_some_iff.mp h
  have hmem : (a,g) ∈ (tallyAt t o).1 := mem_of_mem_head? hx
  rw [hx,map_some,((tallied_tallyOf _ _ _ o).entry _ hmem).2]

theorem first_final (h : First t o top) : (tallyAt t o).2.finalWeight =
    if hasFinal t.election.lastVotes top then finalWeightOf t.env.weight t.election.lastVotes top
    else t.election.finalWeight := by
  show refreshFinal _ _ (tallyAt t o).1 = _
  obtain ⟨⟨a,g⟩,hx,rfl⟩ := map_eq_some_iff.mp h
  obtain ⟨rest,hrest⟩ := head?_eq_some_iff.mp hx
  rw [hrest]
  rfl

theorem unfinal_tally (h : Unfinal t o) :
    (tallyAt t o).2.finalWeight = t.election.finalWeight := by
  cases hx : (tallyAt t o).1 with
  | nil =>
    show refreshFinal _ _ (tallyAt t o).1 = _
    rw [hx]
    rfl
  | cons x rest =>
    have hf : First t o x.2 := by rw [First,hx,head?_cons,map_some]
    rw [first_final hf,h x.2 hf,if_neg Bool.false_ne_true]

theorem sameTally_of_votes (hv : SameVotes t.election.lastVotes u.election.lastVotes)
    (hw : u.env.weight = t.env.weight) (hb : u.election.lastBlocks = t.election.lastBlocks)
    (ho : o.Perm (voted t.election.lastVotes)) (ho' : o'.Perm (voted u.election.lastVotes))
    (hf : (∀ top, First t o top → hasFinal t.election.lastVotes top = true) ∨
      u.election.finalWeight = t.election.finalWeight) : SameTally t u o o' := by
  have weights : ∀ h, blockWeight u.env.weight u.election.lastVotes h =
      blockWeight t.env.weight t.election.lastVotes h := fun h => by rw [hw,hv.blockWeight]
  have amounts : (tallyAt u o').1.map Prod.fst = (tallyAt t o).1.map Prod.fst := by
    show (tallyOf _ _ _ o').map Prod.fst = (tallyOf _ _ _ o).map Prod.fst
    rw [hw,hb]
    exact amounts_eq hv ho ho'
  refine ⟨weights,amounts,fun top top' ht hu => ?_,fun top ht hu => ?_⟩
  · have e := congrArg head? amounts
    rw [head?_map,head?_map,first_amount ht,first_amount hu,weights] at e
    exact some.inj e
  · rw [first_final ht,first_final hu,hw,hv.hasFinal,hv.finalWeightOf]
    by_cases h : hasFinal t.election.lastVotes top = true
    · rw [if_pos h,if_pos h]
    · rw [if_neg h,if_neg h]
      exact hf.resolve_left fun hf => h (hf top ht)

theorem Delivers.same (d : Delivers Q s bs t) (d' : Delivers Q' s bs' u) (hu : Unremoving s.env)
    (hset : ∀ b, b ∈ bs ↔ b ∈ bs') : SameVotes t.election.lastVotes u.election.lastVotes := by
  intro a
  apply recorded_eq
  have hd := d.largest hu a
  simp only [hset] at hd
  exact (d'.largest hu a).unique hd

theorem record_finalWeight (t : State) (b : Ballot) (now : ℕ) (o : List BlockHash) :
    (record t (b.event now o)).1.election.finalWeight = t.election.finalWeight ∧
      (record t (b.event now o)).1.env = t.env := by
  rw [record_ballot]
  split_ifs <;> exact ⟨rfl,rfl⟩

/-- The final weight is left as it is by a delivery in which no block with a final vote
comes first. -/
theorem Delivers.left (d : Delivers Unfinal s bs t) (hu : Unremoving s.env) :
    t.election.finalWeight = s.election.finalWeight := by
  induction d with
  | start => rfl
  | @vote bs t u b now order called d he _ hq h ih =>
    obtain ⟨hkept,henv⟩ := record_finalWeight t b now order
    rcases (vote_step ((d.fixed hu).unremoving hu) he h).2.2 with hf | ⟨ho,hf⟩
    · exact hf.trans ih
    · rw [hf,← ih,← hkept,← unfinal_tally (hq order ho),tallyAt,henv]
  | resume _ h ih =>
    rw [(resume_step h).finalWeight]
    exact ih

def NoFinal (votes : Votes) : Prop :=
  ∀ (a : Account) (i : VoteInfo), votes[a]? = some i → i.timestamp ≠ timestampMax

theorem NoFinal.unfinal (h : NoFinal t.election.lastVotes) : Unfinal t o := by
  intro top _
  rw [Bool.eq_false_iff]
  intro hf
  obtain ⟨a,i,hi,-,ht⟩ := hasFinal_iff.mp hf
  exact h a i hi ht

theorem noFinal_insert (hv : NoFinal votes) (hb : b.timestamp ≠ timestampMax) (now : ℕ) :
    NoFinal (votes.insert b.rep ⟨some now,b.timestamp,b.hash⟩) := by
  intro a i hi
  rw [get_insert] at hi
  split_ifs at hi
  · rw [← some.inj hi]
    exact hb
  · exact hv a i hi

theorem Delivers.unfinal (d : Delivers Q s bs t) (hu : Unremoving s.env)
    (hs : NoFinal s.election.lastVotes) (hb : ∀ b ∈ bs, b.timestamp ≠ timestampMax) :
    NoFinal t.election.lastVotes ∧ Delivers Unfinal s bs t := by
  induction d with
  | start => exact ⟨hs,.start⟩
  | @vote bs t u b now order called d he ht _ h ih =>
    obtain ⟨hn,d'⟩ := ih fun c hc => hb c (mem_append_left _ hc)
    have hnew := noFinal_insert hn (hb b (mem_append_right _ (mem_singleton.mpr rfl))) now
    have hrecord : NoFinal (record t (b.event now order)).1.election.lastVotes := by
      rw [record_ballot]
      split_ifs
      exacts [hnew,hnew,hn]
    refine ⟨?_,d'.vote he ht (fun _ _ => hrecord.unfinal) h⟩
    rw [(vote_step ((d.fixed hu).unremoving hu) he h).2.1,counted]
    split_ifs
    · exact hnew
    · exact hn
  | resume _ h ih =>
    rw [(resume_step h).votes]
    exact ⟨(ih hb).1,(ih hb).2.resume h⟩

theorem confirmIfQuorum_returns (ho : o.Perm (voted t.election.lastVotes))
    (hv : h ∈ voted t.election.lastVotes) (hb : h ∈ t.election.lastBlocks) :
    ∃ u called, confirmIfQuorum t o = some (u,called) := by
  have hmem := (tallied_tallyOf t.env.weight t.election.lastVotes t.election.lastBlocks o).amount
    h (ho.mem_iff.mpr hv) hb
  unfold confirmIfQuorum
  generalize hx : tallyImpl t.env.weight t.election o = x
  obtain ⟨tally,e⟩ := x
  obtain rfl : tallyOf t.env.weight t.election.lastVotes t.election.lastBlocks o = tally :=
    congrArg Prod.fst hx
  cases hl : tallyOf t.env.weight t.election.lastVotes t.election.lastBlocks o with
  | nil =>
    rw [hl] at hmem
    cases hmem
  | cons x rest =>
    dsimp only
    split_ifs <;> exact ⟨_,_,rfl⟩

theorem vote_returns (ht : Traverses t (b.event now o))
    (hb : b.hash ∈ t.election.lastBlocks) :
    ∃ u called, step t (b.event now o) = some (u,called) := by
  rw [vote_eq]
  rw [Traverses,record_ballot] at ht
  split_ifs with hp hc
  · exact ⟨_,_,rfl⟩
  · rw [if_pos hp,if_neg hc] at ht
    have hi : (t.election.lastVotes.insert b.rep ⟨some now,b.timestamp,b.hash⟩)[b.rep]? =
        some ⟨some now,b.timestamp,b.hash⟩ := (get_insert _ _ _ _).trans (if_pos rfl)
    exact confirmIfQuorum_returns (ht o rfl) (mem_voted.mpr ⟨b.rep,_,hi,rfl⟩) hb
  · exact ⟨_,_,rfl⟩

/-- Every delivery of the same ballots records the same largest pairs, which only
increase on the way. The tallies agree when the winner has a final vote or when in
neither delivery a tally finds a block with a final vote in the first place, in
particular when there are no final votes. -/
theorem delivery_order (hu : Unremoving s.env) (d : Delivers Q s bs t) (d' : Delivers Q' s bs' u)
    (hset : ∀ b, b ∈ bs ↔ b ∈ bs') :
    (∀ a, IsGreatest {x | x = recorded s.election.lastVotes a ∨ ∃ b ∈ bs, b.rep = a ∧ x = b.rank}
      (recorded t.election.lastVotes a)) ∧
    (∀ cs v cs' v', Delivers Q s cs v → Delivers Q' v cs' v' → ∀ a,
      recorded v.election.lastVotes a ≤ recorded v'.election.lastVotes a) ∧
    (∀ (b : Ballot) now o, b.hash ∈ s.election.lastBlocks → Traverses t (b.event now o) →
      ∃ v called, step t (b.event now o) = some (v,called)) ∧
    SameVotes t.election.lastVotes u.election.lastVotes ∧
    ∀ o o', o.Perm (voted t.election.lastVotes) → o'.Perm (voted u.election.lastVotes) →
      ((∀ top, First t o top → hasFinal t.election.lastVotes top = true) ∨
        Delivers Unfinal s bs t ∧ Delivers Unfinal s bs' u ∨
        NoFinal s.election.lastVotes ∧ (∀ b ∈ bs, b.timestamp ≠ timestampMax)) →
      SameTally t u o o' := by
  have F := d.fixed hu
  have F' := d'.fixed hu
  have hsame := d.same d' hu hset
  refine ⟨d.largest hu,fun cs v cs' v' h h' a => h'.increases ((h.fixed hu).unremoving hu) a,?_,
    hsame,?_⟩
  · intro b now o hb ht
    exact vote_returns ht (F.blocks ▸ hb)
  · intro o o' ho ho' hcond
    refine sameTally_of_votes hsame (F'.weight.trans F.weight.symm)
      (F'.blocks.trans F.blocks.symm) ho ho' (hcond.imp_right fun h => ?_)
    have hleft : Delivers Unfinal s bs t ∧ Delivers Unfinal s bs' u := by
      refine h.elim id fun ⟨hs,hb⟩ => ⟨(d.unfinal hu hs hb).2,(d'.unfinal hu hs ?_).2⟩
      exact fun b hm => hb b ((hset b).mpr hm)
    exact (hleft.2.left hu).trans (hleft.1.left hu).symm

end

def deliver : State → List (ℕ × Ballot × List BlockHash) → Option State
  | s,[] => some s
  | s,(now,b,o)::l =>
    if Eligible s now b ∧ Traverses s (b.event now o) then
      (step s (b.event now o)).bind (fun x => deliver x.1 l)
    else none

theorem delivers_of_deliver {s t u : State} {bs : List Ballot}
    {l : List (ℕ × Ballot × List BlockHash)} (d : Delivers (fun _ _ => True) s bs t)
    (h : deliver t l = some u) : Delivers (fun _ _ => True) s (bs++l.map fun x => x.2.1) u := by
  induction l generalizing t bs with
  | nil =>
    cases h
    rwa [map_nil,append_nil]
  | cons x l ih =>
    obtain ⟨now,b,o⟩ := x
    rw [deliver] at h
    split_ifs at h with hc
    obtain ⟨⟨v,called⟩,hv,h⟩ := bind_eq_some_iff.mp h
    have := ih (d.vote hc.1 hc.2 (fun _ _ => trivial) hv) h
    rwa [append_assoc] at this

def forkedElection : State where
  env := sampleEnvironment
  election := { Election.start 0 0 10 with lastBlocks := [10,11] }

theorem forkedElection_unremoving : Unremoving forkedElection.env := nofun

def early : Ballot := ⟨1,5,10⟩
def late : Ballot := ⟨1,7,11⟩

theorem delivery_order_sample : ∃ t u, Delivers (fun _ _ => True) forkedElection [early,late] t ∧
    Delivers (fun _ _ => True) forkedElection [late,early,late] u ∧
    SameVotes t.election.lastVotes u.election.lastVotes ∧
    SameTally t u (voted t.election.lastVotes) (voted u.election.lastVotes) := by
  have ht : (deliver forkedElection [(1,early,[10]),(2,late,[10,11])]).isSome = true := by
    decide +kernel
  have hu : (deliver forkedElection [(1,late,[10,11]),(2,early,[10,11]),(3,late,[10,11])]).isSome =
      true := by decide +kernel
  have hs : NoFinal forkedElection.election.lastVotes := by
    intro a i hi
    have hi := (get_insert _ _ _ _).symm.trans hi
    split_ifs at hi
    · rw [← some.inj hi]
      decide
    · cases hi
  obtain ⟨t,ht⟩ := isSome_iff_exists.mp ht
  obtain ⟨u,hu⟩ := isSome_iff_exists.mp hu
  have d := delivers_of_deliver .start ht
  have d' := delivers_of_deliver .start hu
  have hset : ∀ b, b ∈ [early,late] ↔ b ∈ [late,early,late] := by
    intro b
    simp only [mem_cons,not_mem_nil,or_false]
    constructor
    · rintro (h | h)
      · exact .inr (.inl h)
      · exact .inl h
    · rintro (h | h | h)
      · exact .inr h
      · exact .inl h
      · exact .inr h
  obtain ⟨-,-,-,hsame,htally⟩ := delivery_order forkedElection_unremoving d d' hset
  refine ⟨t,u,d,d',hsame,htally _ _ (.refl _) (.refl _) (.inr (.inr ⟨hs,?_⟩))⟩
  rintro b hb
  rcases mem_pair.mp hb with rfl | rfl
  · decide
  · decide

def final : Ballot := ⟨2,timestampMax,10⟩

/-- Representative 2 sends a final vote for block 10, and representative 1, which
has more weight, a vote for block 11. If the final vote comes first, its weight
is left as the final weight of block 11. -/
theorem delivery_order_matters : ∃ t u o o', forkedElection.election.confirmed = false ∧
    Unremoving forkedElection.env ∧ Delivers (fun _ _ => True) forkedElection [final,late] t ∧
    Delivers (fun _ _ => True) forkedElection [late,final] u ∧
    o.Perm (voted t.election.lastVotes) ∧ o'.Perm (voted u.election.lastVotes) ∧
    First t o 11 ∧ First u o' 11 ∧
    (tallyAt t o).2.finalWeight = 60 ∧ (tallyAt u o').2.finalWeight = 0 ∧
    ¬ SameTally t u o o' := by
  have ht : (deliver forkedElection [(1,final,[10]),(2,late,[10,11])]).any (fun t =>
      [10,11].isPerm (voted t.election.lastVotes) && decide (First t [10,11] 11) &&
        decide ((tallyAt t [10,11]).2.finalWeight = 60)) = true := by decide +kernel
  have hu : (deliver forkedElection [(1,late,[10,11]),(2,final,[10,11])]).any (fun u =>
      [10,11].isPerm (voted u.election.lastVotes) && decide (First u [10,11] 11) &&
        decide ((tallyAt u [10,11]).2.finalWeight = 0)) = true := by decide +kernel
  obtain ⟨t,ht,hvalues⟩ := (any_eq_true _ _).mp ht
  obtain ⟨u,hu,hvalues'⟩ := (any_eq_true _ _).mp hu
  simp only [Bool.and_eq_true,decide_eq_true_eq,isPerm_iff] at hvalues hvalues'
  obtain ⟨⟨ho,hf⟩,hw⟩ := hvalues
  obtain ⟨⟨ho',hf'⟩,hw'⟩ := hvalues'
  refine ⟨t,u,[10,11],[10,11],rfl,forkedElection_unremoving,delivers_of_deliver .start ht,
    delivers_of_deliver .start hu,ho,ho',hf,hf',hw,hw',fun h => ?_⟩
  have e := h.final 11 hf hf'
  rw [hw,hw'] at e
  cases e
end Vxldollar.Ballots
