import Vxldollar.Quorum
import Vxldollar.Library.Machine

/-!
# The life cycle of an election

`state_change` moves the state of an election with a compare-exchange that is
guarded by `valid_change`; `confirm_once` writes it with an exchange. A thread that
holds a reference may call `confirm_once` after the election has expired: `vote`
asks only whether the election is confirmed, and a call that has given the lock
back does not ask again. Which events make the call can be told from the votes
before them; as long as none of these meets an expired election, every change is
a valid one and `process_confirmed` is called once.
-/

namespace Vxldollar.Lifecycle
open Blocks Elections Quorum List Option

/-- `election_winner_details`: the elections that wait for their winner to be
cemented. -/
abbrev Details := Std.ExtTreeMap BlockHash ℕ

/-- What `confirm_once` does with the winner details when it finds the election in
the given phase, and whether it calls `process_confirmed`. -/
def confirmOnce (details : Details) (id : ℕ) (phase : Phase) (winner : BlockHash) :
    Details × Bool :=
  if phase ≠ .confirmed ∧ details[winner]? = none then (details.insert winner id,true)
  else (details,false)

/-- An election, numbered 0, with the winner details of the node. `processed` counts
the calls of `process_confirmed` for it. -/
structure State where
  core : Elections.State
  details : Details := ∅
  processed : ℕ := 0

def phase (s : State) : Phase := s.core.election.phase

def confirm (s : State) (core : Elections.State) : State :=
  let (details,processes) := confirmOnce s.details 0 (phase s) core.election.winner
  ⟨core,details,if processes then s.processed+1 else s.processed⟩

def stateChange (s : State) (expected desired : Phase) : State :=
  if validChange expected desired = true ∧ phase s = expected then
    { s with core.election.phase := desired }
  else s

/-- What the threads do. `locked` is a section of `vote`, `insert_inactive_votes_cache`
or `publish`. `transition_active` and `transition_time` change the state without
the lock, except for the last change, whose expected value was loaded before.
Callbacks and other elections change the winner details. -/
inductive Event where
  | locked (ev : Elections.Event)
  | confirmBlock (hash : BlockHash)
  | activate
  | expireConfirmed
  | expireUnconfirmed (loaded : Phase)
  | details (details : Details)

def step (s : State) : Event → Option (State × Bool)
  | .locked ev => (Elections.step s.core ev).map fun (core,called) =>
    if called then (confirm s core,true) else ({ s with core := core },false)
  | .confirmBlock hash =>
    if s.core.election.winner = hash ∧ s.core.election.confirmed = false then
      some (confirm s { s.core with election.phase := .confirmed },true)
    else some (s,false)
  | .activate => some (stateChange s .passive .active,false)
  | .expireConfirmed => some (stateChange s .confirmed .expiredConfirmed,false)
  | .expireUnconfirmed loaded => some (stateChange s loaded .expiredUnconfirmed,false)
  | .details details => some ({ s with details := details },false)

def Possible (s : State) : Event → Prop
  | .locked ev => Traverses s.core ev
  | _ => True

instance (s : State) (ev : Event) : Decidable (Possible s ev) := by
  cases ev <;> unfold Possible <;> infer_instance

abbrev Runs := Machine.Runs (fun s ev => (step s ev).map Prod.fst) Possible

def start (env : Environment) (now : ℕ) (hash : BlockHash) (details : Details) : State where
  core := { env := env, election := .start env.null now hash }
  details := details

def Lawful (s : State) (ev : Event) : Prop := ∀ x ∈ step s ev, phase s ≠ phase x.1 →
  validChange (phase s) (phase x.1) = true

def expired (p : Phase) : Bool := p = .expiredConfirmed || p = .expiredUnconfirmed

/-- The votes decide the election: there is a quorum, and with the canary active the
vote for it was asked for before, or needs not be, and the final votes reach the
quorum too. -/
def Decided (s : Elections.State) (order : List BlockHash) : Prop :=
  haveQuorum s.env (tallyOf s.env.weight s.election.lastVotes s.election.lastBlocks order) = true ∧
  (s.env.canary = false ∨ (s.election.isQuorum = true ∨ s.env.voting = false) ∧
    s.env.delta ≤ refreshFinal s.env.weight s.election
      (tallyOf s.env.weight s.election.lastVotes s.election.lastBlocks order))

instance (s : Elections.State) (order : List BlockHash) : Decidable (Decided s order) :=
  inferInstanceAs (Decidable (_ ∧ _))

/-- The events that decide an election: votes, the rest of a call that has given the
lock back, and the cementing of the winner of an unconfirmed election. -/
def Decides (s : State) : Event → Prop
  | .locked .resume => s.core.released ≠ 0 ∧
      (s.core.env.canary = false ∨ s.core.env.delta ≤ s.core.election.finalWeight)
  | .locked ev => ∃ order ∈ (record s.core ev).2, Decided (record s.core ev).1 order
  | .confirmBlock hash => s.core.election.winner = hash ∧ s.core.election.confirmed = false
  | _ => False

instance (s : State) (ev : Event) : Decidable (Decides s ev) := by
  unfold Decides
  split <;> infer_instance

/-- The event does not decide an election that has expired. -/
def Timely (s : State) (ev : Event) : Prop := expired (phase s) = true → ¬ Decides s ev

instance (s : State) (ev : Event) : Decidable (Timely s ev) :=
  inferInstanceAs (Decidable (_ → _))

section
variable {s t : State} {ev : Event} {called : Bool} {ms : List (State × Event)}

theorem record_phase (s : Elections.State) (ev : Elections.Event) :
    (record s ev).1.election.phase = s.election.phase ∨
      validChange s.election.phase (record s ev).1.election.phase = true ∧
        (record s ev).2 = none := by
  cases ev with
  | transition p =>
    rw [record]
    split_ifs with h
    · exact .inr ⟨h,rfl⟩
    · exact .inl rfl
  | vote now rep timestamp hash order =>
    rw [record]
    split_ifs <;> exact .inl rfl
  | insertBlock hash =>
    rw [record]
    split_ifs <;> exact .inl rfl
  | removeBlock hash =>
    rw [record]
    split_ifs <;> exact .inl rfl
  | cached voters hash order => exact .inl rfl
  | tally order => exact .inl rfl
  | environment env => exact .inl rfl
  | resume => exact .inl rfl

theorem changeWinner_phase (s : Elections.State) (tally : List (ℕ × BlockHash)) (top : BlockHash) :
    (changeWinner s tally top).election.phase = s.election.phase := by
  unfold changeWinner removeVotes
  split_ifs <;> rfl

def Confirms (s t : Elections.State) (called : Bool) : Prop :=
  t.election.phase = if called then .confirmed else s.election.phase

theorem decideFinal_confirms (s : Elections.State) :
    Confirms s (decideFinal s).1 (decideFinal s).2 := by
  unfold decideFinal
  split_ifs <;> rfl

theorem confirmIfQuorum_confirms {s t : Elections.State} {order : List BlockHash}
    (h : confirmIfQuorum s order = some (t,called)) : Confirms s t called := by
  unfold confirmIfQuorum at h
  generalize hx : tallyImpl s.env.weight s.election order = x at h
  obtain ⟨tally,e⟩ := x
  have he : e.phase = s.election.phase := by
    rw [show e = (tallyImpl s.env.weight s.election order).2 by rw [hx]]
    rfl
  cases tally with
  | nil => cases h
  | cons x rest =>
    dsimp only at h
    have hw := (changeWinner_phase { s with election := e } (x::rest) x.2).trans he
    generalize changeWinner { s with election := e } (x::rest) x.2 = v at h hw
    have hv : ∀ w, w.election.phase = v.election.phase →
        some (decideFinal w) = some (t,called) → Confirms s t called := by
      intro w hwv hd
      have hc := decideFinal_confirms w
      rw [Option.some.inj hd] at hc
      unfold Confirms at hc ⊢
      rw [hc,hwv,hw]
    split_ifs at h
    · cases h
      exact hw
    · exact hv { v with election.isQuorum := true } rfl h
    · exact hv v rfl h
    · cases h
      exact hw

theorem decideFinal_called (s : Elections.State) : (decideFinal s).2 = true ↔
    s.env.canary = false ∨ s.env.delta ≤ s.election.finalWeight := by
  unfold decideFinal
  split_ifs with h <;> simpa using h

theorem changeWinner_kept (s : Elections.State) (tally : List (ℕ × BlockHash)) (top : BlockHash) :
    (changeWinner s tally top).env.canary = s.env.canary ∧
    (changeWinner s tally top).env.voting = s.env.voting ∧
    (changeWinner s tally top).election.isQuorum = s.election.isQuorum ∧
    (changeWinner s tally top).election.finalWeight = s.election.finalWeight := by
  unfold changeWinner removeVotes
  split_ifs <;> exact ⟨rfl,rfl,rfl,rfl⟩

theorem confirmIfQuorum_called {s t : Elections.State} {order : List BlockHash}
    (h : confirmIfQuorum s order = some (t,called)) : called = true ↔ Decided s order := by
  unfold confirmIfQuorum tallyImpl at h
  unfold Decided
  dsimp only at h
  generalize tallyOf s.env.weight s.election.lastVotes s.election.lastBlocks order = tally at h ⊢
  cases tally with
  | nil => cases h
  | cons x rest =>
    dsimp only at h
    generalize hw : changeWinner _ (x::rest) x.2 = v at h
    obtain ⟨hcanary,hvoting,hasked,hfinal⟩ := hw ▸ changeWinner_kept _ (x::rest) x.2
    have hdelta : v.env.delta = s.env.delta := hw ▸ (changeWinner_rest _ _ _).2
    dsimp only at hcanary hvoting hasked hfinal
    rw [haveQuorum_congr hdelta] at h
    split_ifs at h with hq hc hask
    · -- the lock is given back
      cases h
      rw [hasked,hvoting] at hask
      rw [hcanary] at hc
      simp [hc] at hask ⊢
      simp [hask]
    · have hd := decideFinal_called { v with election.isQuorum := true }
      rw [Option.some.inj h,hfinal,hdelta,hcanary] at hd
      rw [hd]
      rw [hasked,hvoting] at hask
      rw [hcanary] at hc
      simp [hc] at hask ⊢
      simp [hq]
      intro _
      cases he : s.election.isQuorum with
      | true => exact .inl rfl
      | false => exact .inr (hask he)
    · have hd := decideFinal_called v
      rw [Option.some.inj h,hfinal,hdelta,hcanary] at hd
      rw [hd]
      rw [hcanary] at hc
      simp [hc,hq]
    · cases h
      simp [hq]

theorem section_phase {s t : Elections.State} {ev : Elections.Event}
    (h : Elections.step s ev = some (t,called)) : Confirms s t called ∨
      called = false ∧ validChange s.election.phase t.election.phase = true := by
  by_cases he : ev = .resume
  · subst he
    rw [Elections.step] at h
    split_ifs at h
    · cases h
      exact .inl rfl
    · have hc := decideFinal_confirms { s with released := s.released-1 }
      rw [Option.some.inj h] at hc
      exact .inl hc
  rw [Elections.step_record he] at h
  have hr := record_phase s ev
  generalize record s ev = x at h hr
  obtain ⟨v,_ | order⟩ := x
  · cases h
    exact hr.imp id fun h => ⟨rfl,h.1⟩
  · have hc := confirmIfQuorum_confirms h
    unfold Confirms at hc ⊢
    rcases hr with hr | hr
    · rw [← hr]
      exact .inl hc
    · cases hr.2

theorem confirm_processed (s : State) (core : Elections.State) :
    (confirm s core).processed = s.processed ∨
      phase s ≠ .confirmed ∧ (confirm s core).processed = s.processed+1 := by
  unfold confirm confirmOnce
  split_ifs with h
  · exact .inr ⟨h.1,rfl⟩
  · exact .inl rfl

theorem stateChange_phase (s : State) (expected desired : Phase) :
    phase (stateChange s expected desired) = phase s ∨
      validChange (phase s) (phase (stateChange s expected desired)) = true := by
  unfold stateChange
  split_ifs with h
  · rw [h.2]
    exact .inr h.1
  · exact .inl rfl

theorem stateChange_processed (s : State) (expected desired : Phase) :
    (stateChange s expected desired).processed = s.processed := by
  unfold stateChange
  split_ifs <;> rfl

structure Moves (s t : State) (called : Bool) : Prop where
  confirms : called = true → phase t = .confirmed ∧ (t.processed = s.processed ∨
    phase s ≠ .confirmed ∧ t.processed = s.processed+1)
  changes : called = false → t.processed = s.processed ∧
    (phase t = phase s ∨ validChange (phase s) (phase t) = true)

theorem step_moves (h : step s ev = some (t,called)) : Moves s t called := by
  have hchange : ∀ {expected desired}, some (stateChange s expected desired,false) =
      some (t,called) → Moves s t called := by
    intro expected desired h
    cases h
    exact ⟨nofun,fun _ => ⟨stateChange_processed s _ _,stateChange_phase s _ _⟩⟩
  cases ev with
  | locked ev =>
    obtain ⟨⟨core,c⟩,hcore,h⟩ := map_eq_some_iff.mp h
    have hphase := section_phase hcore
    dsimp only at h
    cases c with
    | true =>
      cases h
      refine ⟨fun _ => ⟨?_,confirm_processed s core⟩,nofun⟩
      exact hphase.elim id fun h => nomatch h.1
    | false =>
      cases h
      exact ⟨nofun,fun _ => ⟨rfl,hphase.imp id fun h => h.2⟩⟩
  | confirmBlock hash =>
    rw [step] at h
    split_ifs at h
    · cases h
      exact ⟨fun _ => ⟨rfl,confirm_processed s _⟩,nofun⟩
    · cases h
      exact ⟨nofun,fun _ => ⟨rfl,.inl rfl⟩⟩
  | activate => exact hchange h
  | expireConfirmed => exact hchange h
  | expireUnconfirmed loaded => exact hchange h
  | details d =>
    cases h
    exact ⟨nofun,fun _ => ⟨rfl,.inl rfl⟩⟩

theorem step_called (h : step s ev = some (t,called)) : called = true ↔ Decides s ev := by
  cases ev with
  | locked ev =>
    obtain ⟨⟨core,c⟩,hcore,h⟩ := map_eq_some_iff.mp h
    obtain rfl : c = called := by
      cases c <;> cases h <;> rfl
    by_cases he : ev = .resume
    · subst he
      rw [Elections.step] at hcore
      unfold Decides
      split_ifs at hcore with h0
      · cases hcore
        simp [h0]
      · have hd := decideFinal_called { s.core with released := s.core.released-1 }
        rw [Option.some.inj hcore] at hd
        rw [hd]
        exact (and_iff_right h0).symm
    · have hD : Decides s (.locked ev) ↔
          ∃ order ∈ (record s.core ev).2, Decided (record s.core ev).1 order := by
        cases ev with
        | resume => exact absurd rfl he
        | _ => rfl
      rw [Elections.step_record he] at hcore
      rw [hD]
      generalize record s.core ev = x at hcore ⊢
      obtain ⟨v,_ | order⟩ := x
      · cases hcore
        simp
      · rw [confirmIfQuorum_called hcore]
        simp
  | confirmBlock hash =>
    rw [step] at h
    unfold Decides
    split_ifs at h with hw
    · cases h
      exact iff_of_true rfl hw
    · cases h
      exact iff_of_false Bool.false_ne_true hw
  | _ =>
    cases h
    exact iff_of_false Bool.false_ne_true id

theorem lawful_iff (h : step s ev = some (t,called)) : Lawful s ev ↔ Timely s ev := by
  have M := step_moves h
  have hcalled := step_called h
  unfold Lawful Timely
  simp only [h,Option.mem_def,Option.some.injEq,forall_eq',← hcalled]
  cases called with
  | false =>
    refine iff_of_true (fun hne => ?_) fun _ => Bool.false_ne_true
    exact (M.changes rfl).2.resolve_left fun e => hne e.symm
  | true =>
    rw [(M.confirms rfl).1]
    cases phase s <;> decide

theorem Runs.lawful_iff (r : Runs s ms t) :
    (∀ m ∈ ms, Lawful m.1 m.2) ↔ ∀ m ∈ ms, Timely m.1 m.2 := by
  refine forall_congr' fun m => forall_congr' fun hm => ?_
  obtain ⟨-,u,hu⟩ := r.stepped m hm
  obtain ⟨⟨u,called⟩,hu,-⟩ := map_eq_some_iff.mp hu
  exact Lifecycle.lawful_iff hu

def Counted (s : State) : Prop := s.processed = 0 ∨
  s.processed = 1 ∧ (phase s = .confirmed ∨ phase s = .expiredConfirmed)

theorem Counted.step (hc : Counted s) (hs : step s ev = some (t,called)) (htimely : Timely s ev) :
    Counted t := by
  have M := step_moves hs
  have ht : called = true → expired (phase s) = false := fun h =>
    Bool.eq_false_iff.mpr fun he => htimely he ((step_called hs).mp h)
  cases called with
  | true =>
    obtain ⟨hphase,hsame | ⟨hne,hmore⟩⟩ := M.confirms rfl
    · unfold Counted
      rw [hsame]
      exact hc.imp id fun h => ⟨h.1,.inl hphase⟩
    · -- the first call: an election that was processed before is confirmed or expired
      rcases hc with h0 | ⟨-,h | h⟩
      · exact .inr ⟨by rw [hmore,h0],.inl hphase⟩
      · exact absurd h hne
      · have := ht rfl
        rw [h] at this
        cases this
  | false =>
    obtain ⟨hsame,hphase⟩ := M.changes rfl
    unfold Counted
    rw [hsame]
    refine hc.imp id fun ⟨h1,hp⟩ => ⟨h1,?_⟩
    rcases hphase with e | hv
    · rw [e]
      exact hp
    · rcases hp with e | e
      · rw [e] at hv
        cases h : phase t <;> rw [h] at hv <;> first | exact .inr rfl | cases hv
      · rw [e] at hv
        cases h : phase t <;> rw [h] at hv <;> cases hv

theorem Runs.counted (r : Runs s ms t) (hs : s.processed = 0)
    (ht : ∀ m ∈ ms, Timely m.1 m.2) : Counted t := by
  refine r.good (.inl hs) (fun s ev u hc _ hu hF => ?_) ht
  obtain ⟨⟨v,called⟩,hv,rfl⟩ := map_eq_some_iff.mp hu
  exact hc.step hv hF

end

section
variable {env : Environment} {now : ℕ} {hash : BlockHash} {details : Details}
  {ms : List (State × Event)} {t : State}

/-- In every run of an election the changes of its state are valid and
`process_confirmed` is called at most once, exactly when no event decides the
election after it has expired. -/
theorem lifecycle_iff (r : Runs (start env now hash details) ms t) :
    ((∀ m ∈ ms, Lawful m.1 m.2) ∧ t.processed ≤ 1) ↔ ∀ m ∈ ms, Timely m.1 m.2 := by
  rw [r.lawful_iff]
  refine ⟨fun h => h.1,fun h => ⟨h,?_⟩⟩
  rcases r.counted rfl h with e | ⟨e,-⟩
  · rw [e]
    exact Nat.zero_le 1
  · exact e.le

end

theorem runs_of_exec (E : Environment) (l : List Event) (c : List (State × Event) × State → Bool)
    (h : (Machine.exec (fun s ev => (step s ev).map Prod.fst) Possible (start E 0 10 ∅) l).any c =
      true) : ∃ ms t, Runs (start E 0 10 ∅) ms t ∧ c (ms,t) = true :=
  Machine.exec_any h

theorem lifecycle_iff_sample : ∃ ms t, Runs (start sampleEnvironment 0 10 ∅) ms t ∧
    ms.length = 4 ∧ (∀ m ∈ ms, Lawful m.1 m.2) ∧ t.processed ≤ 1 := by
  obtain ⟨ms,t,r,hcheck⟩ := runs_of_exec sampleEnvironment
    [.activate,.locked (.vote 1 1 timestampMax 10 [10]),.expireConfirmed,
      .locked (.vote 2 3 timestampMax 10 [10])]
    (fun o => decide (o.1.length = 4) && o.1.all fun m => decide (Timely m.1 m.2))
    (by decide +kernel)
  obtain ⟨hlen,hall⟩ := Bool.and_eq_true_iff.mp hcheck
  refine ⟨ms,t,r,of_decide_eq_true hlen,(lifecycle_iff r).mpr fun m hm => ?_⟩
  exact of_decide_eq_true (all_eq_true.mp hall m hm)

def lateVote : List Event := [.expireUnconfirmed .passive,.locked (.vote 1 1 timestampMax 10 [10])]

/-- The first vote finds the quorum and gives the lock back. A second vote confirms;
the election expires, its winner is cemented and its details are erased. Then
the first call goes on. -/
def lateCall : List Event :=
  [.locked (.vote 1 1 timestampMax 10 [10]),.locked (.vote 2 3 timestampMax 10 [10]),
    .expireConfirmed,.details ∅,.locked .resume]

/-- An expired election becomes confirmed, and `process_confirmed` is called
twice. -/
theorem lifecycle_fails :
    (∃ ms t m, Runs (start sampleEnvironment 0 10 ∅) ms t ∧ ms.getLast? = some m ∧
      phase m.1 = .expiredUnconfirmed ∧ phase t = .confirmed ∧ ¬ Lawful m.1 m.2) ∧
    (∃ ms t, Runs (start { sampleEnvironment with voting := true } 0 10 ∅) ms t ∧
      t.processed = 2) := by
  constructor
  · obtain ⟨ms,t,r,hcheck⟩ := runs_of_exec sampleEnvironment lateVote (fun o =>
      o.1.getLast?.any fun m => decide (phase m.1 = .expiredUnconfirmed ∧
        phase o.2 = .confirmed ∧ Decides m.1 m.2)) (by decide +kernel)
    obtain ⟨m,hm,hphase⟩ := (any_eq_true _ _).mp hcheck
    obtain ⟨hb,ha,hd⟩ := of_decide_eq_true hphase
    obtain ⟨-,u,hu⟩ := r.stepped m (mem_of_getLast? hm)
    obtain ⟨⟨u,called⟩,hu,-⟩ := map_eq_some_iff.mp hu
    refine ⟨ms,t,m,r,hm,hb,ha,fun h => (lawful_iff hu).mp h ?_ hd⟩
    rw [hb]
    rfl
  · obtain ⟨ms,t,r,hcheck⟩ := runs_of_exec { sampleEnvironment with voting := true } lateCall
      (fun o => decide (o.2.processed = 2)) (by decide +kernel)
    exact ⟨ms,t,r,of_decide_eq_true hcheck⟩
end Vxldollar.Lifecycle
