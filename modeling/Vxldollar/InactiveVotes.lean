import Vxldollar.Ballots

/-!
# Votes that arrive before their election

A vote for a block that no election holds goes to the inactive votes cache, and
an election that starts with the block, or into which the block is published,
takes over what the cache holds. The cache keeps one vote of each
representative, the first that arrived, and takes none in once its entry needs no
further evaluation. The lock is given back while an entry is evaluated, so that
an addition has three sections.
-/

namespace Vxldollar.InactiveVotes
open Blocks Elections Quorum Option List Table Std.ExtTreeMap

structure Status where
  bootstrapStarted : Bool := false
  electionStarted : Bool := false
  confirmed : Bool := false
  tally : ℕ := 0
  deriving DecidableEq, Repr

structure Information where
  arrival : ℕ
  status : Status
  voters : List (Account × BitVec 64)
  deriving DecidableEq, Repr

def Information.needsEval (i : Information) : Bool :=
  !i.status.bootstrapStarted || !i.status.electionStarted || !i.status.confirmed

structure Conditions where
  weight : Account → ℕ
  trended : ℕ
  delta : ℕ
  devNetwork : Bool
  betaNetwork : Bool
  disableLegacyBootstrap : Bool
  disableLazyBootstrap : Bool
  bootstrapThreshold : ℕ
  electionHintWeightPercent : ℕ
  inactiveVotesCacheSize : ℕ

def electionStartVotersMin (env : Conditions) : ℕ :=
  if env.devNetwork then 2 else if env.betaNetwork then 5 else 15

/-- The status that `inactive_votes_bootstrap_check_impl` returns. -/
def bootstrapCheck (env : Conditions) (tally voters : ℕ) (previously : Status) : Status :=
  let status := { previously with tally := tally }
  let status :=
    if !previously.confirmed && decide (tally ≥ env.delta) then
      { status with bootstrapStarted := true, confirmed := true }
    else if !previously.bootstrapStarted && !env.disableLegacyBootstrap &&
        env.disableLazyBootstrap && decide (tally > env.bootstrapThreshold) then
      { status with bootstrapStarted := true }
    else status
  if !previously.electionStarted && decide (voters ≥ electionStartVotersMin env) &&
      decide (tally ≥ env.trended/100*env.electionHintWeightPercent) then
    { status with electionStarted := true }
  else status

/-- An addition that has given the lock back. `initial` is the representative whose
vote made the entry, and `status` is there once the check has returned. -/
structure Pending where
  hash : BlockHash
  initial : Option Account
  previously : Status
  status : Option Status := none

structure State where
  cache : Std.ExtTreeMap BlockHash Information := ∅
  pending : List Pending := []

def addInactiveVotesCache (env : Conditions) (s : State) (now : ℕ) (hash : BlockHash)
    (rep : Account) (timestamp : BitVec 64) : State :=
  if env.weight rep > env.trended/principalWeightFactor then
    match s.cache[hash]? with
    | some info =>
      if info.needsEval then
        if info.voters.any (fun x => x.1 = rep) then s
        else {
          cache := s.cache.insert hash { info with
            arrival := now
            voters := info.voters++[(rep,timestamp)] }
          pending := s.pending++[⟨hash,none,info.status,none⟩] }
      else s
    | none => {
      cache := s.cache.insert hash ⟨now,{},[(rep,timestamp)]⟩
      pending := s.pending++[⟨hash,some rep,{},none⟩] }
  else s

def votersOf (s : State) (hash : BlockHash) : List (Account × BitVec 64) :=
  (s.cache[hash]?.map Information.voters).getD []

def check (env : Conditions) (s : State) (i : ℕ) : State := match s.pending[i]? with
  | some p =>
    let voters := match p.initial with
      | some rep => [rep]
      | none => (votersOf s p.hash).map Prod.fst
    { s with pending := s.pending.set i { p with
        status := some
          (bootstrapCheck env (voters.map env.weight).sum voters.length p.previously) } }
  | none => s

/-- The end of the addition, with the lock again. `oldest` is the first entry by
arrival. -/
def finish (env : Conditions) (s : State) (i : ℕ) (oldest : BlockHash) : State :=
  match s.pending[i]? with
  | some ⟨hash,initial,previously,some status⟩ =>
    let cache := if status ≠ previously then
        match s.cache[hash]? with
        | some info => s.cache.insert hash { info with status := status }
        | none => s.cache
      else s.cache
    { cache := if initial.isSome && decide (cache.size > env.inactiveVotesCacheSize) then
        cache.erase oldest else cache
      pending := s.pending.eraseIdx i }
  | _ => s

inductive Event where
  | vote (env : Conditions) (now : ℕ) (hash : BlockHash) (rep : Account) (timestamp : BitVec 64)
  | check (env : Conditions) (i : ℕ)
  | finish (env : Conditions) (i : ℕ) (oldest : BlockHash)
  | erase (hash : BlockHash)

def step (s : State) : Event → State
  | .vote env now hash rep timestamp => addInactiveVotesCache env s now hash rep timestamp
  | .check env i => check env s i
  | .finish env i oldest => finish env s i oldest
  | .erase hash => { s with cache := s.cache.erase hash }

section
variable (h : BlockHash)

def Event.votes : Event → List (Account × BitVec 64)
  | .vote _ _ hash rep timestamp => if hash = h then [(rep,timestamp)] else []
  | _ => []

/-- Votes for the block are by principal representatives, nothing is evicted, and
no election with the block ends. -/
def Valid (s : State) : Event → Prop
  | .vote env _ hash rep _ =>
    hash = h → env.weight rep > env.trended/principalWeightFactor
  | .check _ _ => True
  | .finish env _ _ => s.cache.size ≤ env.inactiveVotesCacheSize
  | .erase hash => hash ≠ h

def exec (s : State) (evs : List Event) : State := evs.foldl step s

def Each (P : State → Event → Prop) : State → List Event → Prop
  | _,[] => True
  | s,ev::evs => P s ev ∧ Each P (step s ev) evs

def Throughout (P : State → List (Account × BitVec 64) → Prop) :
    State → List (Account × BitVec 64) → List Event → Prop
  | s,sent,[] => P s sent
  | s,sent,ev::evs => P s sent ∧ Throughout P (step s ev) (sent++ev.votes h) evs

def Open (s : State) : Prop := s.cache[h]?.all Information.needsEval = true

instance (s : State) : Decidable (Open h s) := inferInstanceAs (Decidable (_ = _))

def voterOf (voters : List (Account × BitVec 64)) (rep : Account) : Option (BitVec 64) :=
  (voters.find? fun x => decide (x.1 = rep)).map Prod.snd

def cachedVote (s : State) (rep : Account) : Option (BitVec 64) := voterOf (votersOf s h) rep

/-- A vote for the block is the first of its representative and the entry is open,
or it is not newer than the one that is cached. -/
def Careful (s : State) : Event → Prop
  | .vote _ _ hash rep timestamp => hash = h →
    (cachedVote h s rep).all (fun t => decide (timestamp ≤ t)) = true ∧
      (cachedVote h s rep = none → Open h s)
  | .check _ _ => True
  | .finish _ _ _ => True
  | .erase _ => True

instance (s : State) : (ev : Event) → Decidable (Valid h s ev)
  | .vote env _ hash rep _ => inferInstanceAs (Decidable
      (hash = h → env.weight rep > env.trended/principalWeightFactor))
  | .check _ _ => isTrue trivial
  | .finish env _ _ => inferInstanceAs (Decidable (s.cache.size ≤ env.inactiveVotesCacheSize))
  | .erase hash => inferInstanceAs (Decidable (hash ≠ h))

instance (s : State) : (ev : Event) → Decidable (Careful h s ev)
  | .vote _ _ hash rep timestamp => inferInstanceAs (Decidable (hash = h →
      (cachedVote h s rep).all (fun t => decide (timestamp ≤ t)) = true ∧
        (cachedVote h s rep = none → Open h s)))
  | .check _ _ => isTrue trivial
  | .finish _ _ _ => isTrue trivial
  | .erase _ => isTrue trivial

instance (P : State → Event → Prop) [∀ s ev, Decidable (P s ev)] :
    (s : State) → (evs : List Event) → Decidable (Each P s evs)
  | _,[] => isTrue trivial
  | s,ev::evs =>
    have := instDecidableEach P (step s ev) evs
    inferInstanceAs (Decidable (P s ev ∧ Each P (step s ev) evs))

end

section
variable {h g : BlockHash} {s : State} {env : Conditions} {rep r : Account} {now : ℕ}
  {timestamp : BitVec 64} {ev : Event} {sent : List (Account × BitVec 64)} {info : Information}
  {evs : List Event} {t : State}

theorem voterOf_append (voters : List (Account × BitVec 64)) (rep r : Account)
    (timestamp : BitVec 64) : voterOf (voters++[(rep,timestamp)]) r =
      (voterOf voters r).or (if rep = r then some timestamp else none) := by
  unfold voterOf
  rw [List.find?_append,map_or,List.find?_singleton]
  by_cases e : rep = r
  · rw [if_pos e,if_pos (decide_eq_true e),map_some]
  · rw [if_neg e,if_neg (by rw [decide_eq_false e]; exact Bool.false_ne_true),map_none]

theorem any_voter (voters : List (Account × BitVec 64)) (rep : Account) :
    voters.any (fun x => decide (x.1 = rep)) = (voterOf voters rep).isSome := by
  rw [voterOf,isSome_map,isSome_find?]

theorem cachedVote_insert (info : Information) (p : List Pending) : cachedVote h
    ⟨s.cache.insert h info,p⟩ r = voterOf info.voters r := by
  unfold cachedVote votersOf
  rw [get_insert,if_pos rfl]
  rfl

theorem cachedVote_congr
    (e : t.cache[h]?.map Information.voters = s.cache[h]?.map Information.voters) :
    cachedVote h t r = cachedVote h s r := by
  unfold cachedVote votersOf
  rw [e]

theorem cachedVote_none (hn : s.cache[h]? = none) (r : Account) : cachedVote h s r = none := by
  unfold cachedVote votersOf
  rw [hn]
  rfl

theorem cachedVote_some (hi : s.cache[h]? = some info) (r : Account) :
    cachedVote h s r = voterOf info.voters r := by
  unfold cachedVote votersOf
  rw [hi]
  rfl

theorem open_none (hn : s.cache[h]? = none) : Open h s := by
  rw [Open,hn]
  rfl

theorem open_some (hi : s.cache[h]? = some info) :
    Open h s ↔ info.needsEval = true := by
  rw [Open,hi,all_some]

theorem cachedVote_add (hw : env.weight rep > env.trended/principalWeightFactor) (r : Account) :
    cachedVote h (addInactiveVotesCache env s now h rep timestamp) r =
      if Open h s ∧ cachedVote h s rep = none ∧ rep = r then some timestamp
      else cachedVote h s r := by
  unfold addInactiveVotesCache
  rw [if_pos hw]
  cases hi : s.cache[h]? with
  | none =>
    dsimp only
    have hempty := voterOf_append [] rep r timestamp
    rw [cachedVote_insert,cachedVote_none hi,cachedVote_none hi]
    simp only [open_none hi,true_and]
    exact hempty.trans none_or
  | some info =>
    dsimp only
    rw [cachedVote_some hi,cachedVote_some hi]
    by_cases he : info.needsEval = true
    · rw [if_pos he,any_voter]
      cases hv : voterOf info.voters rep with
      | some t =>
        rw [if_pos isSome_some,cachedVote_some hi,if_neg (by rintro ⟨-,h,-⟩; cases h)]
      | none =>
        rw [if_neg (by rw [isSome_none]; exact Bool.false_ne_true),cachedVote_insert]
        dsimp only
        rw [voterOf_append]
        by_cases e : rep = r
        · rw [if_pos e,if_pos ⟨(open_some hi).mpr he,rfl,e⟩,← e,hv,none_or]
        · rw [if_neg e,if_neg (fun h => e h.2.2),or_none]
    · rw [if_neg he,if_neg (fun h => he ((open_some hi).mp h.1)),cachedVote_some hi]

theorem add_other (hg : g ≠ h) :
    (addInactiveVotesCache env s now g rep timestamp).cache[h]? = s.cache[h]? := by
  unfold addInactiveVotesCache
  split_ifs
  · split
    · split_ifs
      · rfl
      · exact (get_insert _ _ _ _).trans (if_neg hg.symm)
      · rfl
    · exact (get_insert _ _ _ _).trans (if_neg hg.symm)
  · rfl

theorem check_cache (env : Conditions) (s : State) (i : ℕ) : (check env s i).cache = s.cache := by
  unfold check
  split <;> rfl

theorem finish_voters (hsize : s.cache.size ≤ env.inactiveVotesCacheSize) (i : ℕ)
    (oldest : BlockHash) :
    (finish env s i oldest).cache[h]?.map Information.voters =
      s.cache[h]?.map Information.voters := by
  unfold finish
  split
  · rename_i hash initial previously status _
    generalize hc : (if status ≠ previously then (match s.cache[hash]? with
      | some info => s.cache.insert hash { info with status := status }
      | none => s.cache) else s.cache) = entries
    have hkept : entries.size = s.cache.size ∧
        entries[h]?.map Information.voters = s.cache[h]?.map Information.voters := by
      rw [← hc]
      split_ifs
      · cases hi : s.cache[hash]? with
        | none => exact ⟨rfl,rfl⟩
        | some info =>
          constructor
          · have hmem : hash ∈ s.cache := by
              rw [mem_iff_isSome_getElem?,hi]
              rfl
            exact size_insert.trans (if_pos hmem)
          · rw [get_insert]
            split_ifs with e
            · rw [e,hi]
              rfl
            · rfl
      · exact ⟨rfl,rfl⟩
    dsimp only
    rw [if_neg]
    · exact hkept.2
    · rw [Bool.and_eq_true,decide_eq_true_eq,hkept.1]
      exact fun hlt => absurd hsize (Nat.not_le.mpr hlt.2)
  · rfl

theorem cachedVote_quiet (hv : Valid h s ev) (hq : ev.votes h = []) (r : Account) :
    cachedVote h (step s ev) r = cachedVote h s r := by
  apply cachedVote_congr
  cases ev with
  | vote env now hash rep timestamp =>
    have hne : hash ≠ h := by
      rintro rfl
      rw [Event.votes,if_pos rfl] at hq
      cases hq
    rw [step,add_other hne]
  | check env i => rw [step,check_cache]
  | finish env i oldest => exact finish_voters hv i oldest
  | erase g =>
    show (s.cache.erase g)[h]?.map _ = _
    rw [get_erase,if_neg (fun e : h = g => hv e.symm)]

/-- Each vote that was sent has its representative's newest vote in the cache. -/
def Holds (h : BlockHash) (s : State) (sent : List (Account × BitVec 64)) : Prop :=
  ∀ rep t, (rep,t) ∈ sent → ∃ t', cachedVote h s rep = some t' ∧ (rep,t') ∈ sent ∧
    ∀ u, (rep,u) ∈ sent → u ≤ t'

def Sent (h : BlockHash) (s : State) (sent : List (Account × BitVec 64)) : Prop :=
  ∀ rep t, cachedVote h s rep = some t → (rep,t) ∈ sent

theorem Holds.quiet (e : ∀ r, cachedVote h t r = cachedVote h s r) :
    Holds h t sent ↔ Holds h s sent := by
  simp [Holds,e]

theorem holds_vote (hH : Holds h s sent) (hS : Sent h s sent)
    (hw : env.weight rep > env.trended/principalWeightFactor) :
    Holds h (addInactiveVotesCache env s now h rep timestamp) (sent++[(rep,timestamp)]) ↔
      Careful h s (.vote env now h rep timestamp) := by
  have hmem : ∀ {r t}, (r,t) ∈ sent++[(rep,timestamp)] ↔
      (r,t) ∈ sent ∨ r = rep ∧ t = timestamp := by
    intro r t
    rw [mem_append,mem_singleton,Prod.mk.injEq]
  have hother : ∀ r, r ≠ rep → cachedVote h (addInactiveVotesCache env s now h rep timestamp) r =
      cachedVote h s r := fun r hr => by
    rw [cachedVote_add hw,if_neg (fun h => hr h.2.2.symm)]
  have hrest : ∀ r t, r ≠ rep → (r,t) ∈ sent++[(rep,timestamp)] →
      ∃ t', cachedVote h (addInactiveVotesCache env s now h rep timestamp) r = some t' ∧
        (r,t') ∈ sent++[(rep,timestamp)] ∧ ∀ u, (r,u) ∈ sent++[(rep,timestamp)] → u ≤ t' := by
    intro r t e hr
    obtain ⟨t',ht',hsent,hmax⟩ := hH r t ((hmem.mp hr).resolve_right fun h => e h.1)
    refine ⟨t',(hother r e).trans ht',hmem.mpr (Or.inl hsent),fun u hu => ?_⟩
    exact hmax u ((hmem.mp hu).resolve_right fun h => e h.1)
  have hcareful : Careful h s (.vote env now h rep timestamp) ↔
      (cachedVote h s rep).all (fun t => decide (timestamp ≤ t)) = true ∧
        (cachedVote h s rep = none → Open h s) :=
    ⟨fun h => h rfl,fun h _ => h⟩
  rw [hcareful]
  cases hc : cachedVote h s rep with
  | none =>
    -- nothing of this representative was sent before
    have hnew : ∀ u, (rep,u) ∉ sent := by
      intro u hu
      obtain ⟨t',ht',-⟩ := hH rep u hu
      rw [hc] at ht'
      cases ht'
    have hself : cachedVote h (addInactiveVotesCache env s now h rep timestamp) rep =
        if Open h s then some timestamp else none := by
      rw [cachedVote_add hw,hc]
      simp only [and_true]
    constructor
    · intro hafter
      refine ⟨rfl,fun _ => ?_⟩
      obtain ⟨t',ht',-⟩ := hafter rep timestamp (hmem.mpr (Or.inr ⟨rfl,rfl⟩))
      by_contra hclosed
      rw [hself,if_neg hclosed] at ht'
      cases ht'
    · intro hopen r t hr
      by_cases e : r = rep
      · obtain rfl := e
        refine ⟨timestamp,hself.trans (if_pos (hopen.2 rfl)),
          hmem.mpr (Or.inr ⟨rfl,rfl⟩),fun u hu => ?_⟩
        rcases hmem.mp hu with hu | ⟨-,rfl⟩
        · exact absurd hu (hnew u)
        · exact BitVec.le_refl _
      · exact hrest r t e hr
  | some t₀ =>
    have hself : cachedVote h (addInactiveVotesCache env s now h rep timestamp) rep = some t₀ := by
      rw [cachedVote_add hw,hc,if_neg (by rintro ⟨-,h,-⟩; cases h)]
    constructor
    · intro hafter
      obtain ⟨t',ht',-,hmax⟩ := hafter rep timestamp (hmem.mpr (Or.inr ⟨rfl,rfl⟩))
      rw [← Option.some.inj (hself.symm.trans ht')] at hmax
      exact ⟨decide_eq_true (hmax timestamp (hmem.mpr (Or.inr ⟨rfl,rfl⟩))),nofun⟩
    · intro hle r t hr
      by_cases e : r = rep
      · obtain rfl := e
        have hsent := hS r t₀ hc
        obtain ⟨t',ht',-,hmax⟩ := hH r t₀ hsent
        rw [← Option.some.inj (hc.symm.trans ht')] at hmax
        refine ⟨t₀,hself,hmem.mpr (Or.inl hsent),fun u hu => ?_⟩
        rcases hmem.mp hu with hu | ⟨-,rfl⟩
        · exact hmax u hu
        · exact of_decide_eq_true hle.1
      · exact hrest r t e hr

theorem votes_cases (h : BlockHash) (ev : Event) : ev.votes h = [] ∨
    ∃ env now rep timestamp, ev = .vote env now h rep timestamp := by
  cases ev with
  | vote env now hash rep timestamp =>
    by_cases e : hash = h
    · exact .inr ⟨env,now,rep,timestamp,by rw [e]⟩
    · exact .inl (if_neg e)
  | check env i => exact .inl rfl
  | finish env i oldest => exact .inl rfl
  | erase g => exact .inl rfl

theorem careful_quiet (hq : ev.votes h = []) : Careful h s ev := by
  cases ev with
  | vote env now hash rep timestamp =>
    rintro rfl
    rw [Event.votes,if_pos rfl] at hq
    cases hq
  | check env i => trivial
  | finish env i oldest => trivial
  | erase g => trivial

theorem Sent.step (hS : Sent h s sent) (hv : Valid h s ev) :
    Sent h (step s ev) (sent++ev.votes h) := by
  rcases votes_cases h ev with hq | ⟨env,now,rep,timestamp,rfl⟩
  · rw [hq,append_nil]
    intro r t ht
    rw [cachedVote_quiet hv hq] at ht
    exact hS r t ht
  · rw [Event.votes,if_pos rfl]
    intro r t ht
    rw [InactiveVotes.step,cachedVote_add (hv rfl)] at ht
    split_ifs at ht with hc
    · rw [← Option.some.inj ht,← hc.2.2]
      exact mem_append_right _ (mem_singleton.mpr rfl)
    · exact mem_append_left _ (hS r t ht)

theorem holds_step (hH : Holds h s sent) (hS : Sent h s sent) (hv : Valid h s ev) :
    Holds h (step s ev) (sent++ev.votes h) ↔ Careful h s ev := by
  rcases votes_cases h ev with hq | ⟨env,now,rep,timestamp,rfl⟩
  · rw [hq,append_nil,Holds.quiet (cachedVote_quiet hv hq)]
    exact iff_of_true hH (careful_quiet hq)
  · rw [Event.votes,if_pos rfl]
    exact holds_vote hH hS (hv rfl)

theorem throughout_iff {P Q : State → List (Account × BitVec 64) → Prop}
    (hPQ : ∀ s sent, P s sent ↔ Q s sent) :
    Throughout h P s sent evs ↔ Throughout h Q s sent evs := by
  induction evs generalizing s sent with
  | nil => exact hPQ s sent
  | cons ev evs ih => exact and_congr (hPQ s sent) ih

/-- The newest votes are in the cache throughout a run exactly when each of its
events is careful. -/
theorem throughout_holds (hv : Each (Valid h) s evs) (hH : Holds h s sent) (hS : Sent h s sent) :
    Throughout h (Holds h) s sent evs ↔ Each (Careful h) s evs := by
  induction evs generalizing s sent with
  | nil => exact iff_of_true hH trivial
  | cons ev evs ih =>
    have hstep := holds_step hH hS hv.1
    constructor
    · rintro ⟨-,hrest⟩
      have hnext : Holds h (step s ev) (sent++ev.votes h) := by
        cases evs with
        | nil => exact hrest
        | cons ev' evs => exact hrest.1
      exact ⟨hstep.mp hnext,(ih hv.2 hnext (hS.step hv.1)).mp hrest⟩
    · rintro ⟨hc,hrest⟩
      exact ⟨hH,(ih hv.2 (hstep.mpr hc) (hS.step hv.1)).mpr hrest⟩

end
section
variable {h : BlockHash} {s : State} {sent : List (Account × BitVec 64)} {rep : Account}
  {E u : Elections.State} {order : List BlockHash} {called : Bool}

theorem voterOf_cons (x : Account × BitVec 64) (l : List (Account × BitVec 64)) (r : Account) :
    voterOf (x::l) r = if x.1 = r then some x.2 else voterOf l r := by
  unfold voterOf
  rw [List.find?_cons]
  by_cases e : x.1 = r
  · rw [decide_eq_true e,if_pos e]
    rfl
  · rw [decide_eq_false e,if_neg e]

/-- The loop of `insert_inactive_votes_cache`. -/
def emplaceVotes (voters : List (Account × BitVec 64)) (hash : BlockHash) (votes : Votes) : Votes :=
  voters.foldl (fun v x => if v.contains x.1 then v else v.insert x.1 ⟨none,x.2,hash⟩) votes

theorem emplaceVotes_get (voters : List (Account × BitVec 64)) (votes : Votes) (r : Account) :
    (emplaceVotes voters h votes)[r]? =
      votes[r]?.or ((voterOf voters r).map fun t => ⟨none,t,h⟩) := by
  unfold emplaceVotes
  induction voters generalizing votes with
  | nil => exact or_none.symm
  | cons x l ih =>
    rw [foldl_cons,ih,voterOf_cons]
    by_cases hc : votes.contains x.1 = true
    · rw [if_pos hc]
      by_cases e : x.1 = r
      · rw [contains_eq_isSome_getElem?,e] at hc
        obtain ⟨i,hi⟩ := isSome_iff_exists.mp hc
        rw [hi,some_or,some_or]
      · rw [if_neg e]
    · rw [if_neg hc,get_insert]
      by_cases e : x.1 = r
      · rw [contains_eq_isSome_getElem?,e,Bool.not_eq_true,
          isSome_eq_false_iff,isNone_iff_eq_none] at hc
        rw [if_pos e.symm,if_pos e,hc,some_or,none_or,map_some]
      · rw [if_neg (fun h => e h.symm),if_neg e]

def takes (s : State) (h : BlockHash) (order : List BlockHash) : Elections.Event :=
  .cached (votersOf s h) h order

def taken (s : State) (h : BlockHash) (E : Elections.State) : Elections.State :=
  Ballots.withVotes E (emplaceVotes (votersOf s h) h E.election.lastVotes)

theorem record_takes (s : State) (h : BlockHash) (E : Elections.State) (order : List BlockHash) :
    record E (takes s h order) = (taken s h E,
      if (taken s h E).election.confirmed ∨ (taken s h E).election.lastVotes.size ≤ 1 then none
      else some order) := rfl

theorem step_takes (s : State) (h : BlockHash) (E : Elections.State) (order : List BlockHash) :
    Elections.step E (takes s h order) =
      if (taken s h E).election.confirmed ∨ (taken s h E).election.lastVotes.size ≤ 1 then
        some (taken s h E,false)
      else confirmIfQuorum (taken s h E) order := by
  rw [step_record (by rintro ⟨⟩),record_takes]
  split_ifs <;> rfl

/-- The winner changes in the call, and the local history has a vote of the
representative for the previous one, so that `remove_votes` erases it. -/
def Erases (E : Elections.State) (order : List BlockHash) (rep : Account) : Prop :=
  E.env.voting = true ∧ rep ∈ E.env.generated E.election.winner ∧
  ∃ a top rest, (tallyImpl E.env.weight E.election order).1 = (a,top)::rest ∧
    (((a,top)::rest).map Prod.fst).sum ≥ E.env.delta ∧ top ≠ E.election.winner

theorem confirmIfQuorum_keeps (he : ¬ Erases E order rep)
    (h : confirmIfQuorum E order = some (u,called)) :
    u.election.lastVotes[rep]? = E.election.lastVotes[rep]? := by
  obtain ⟨a,top,rest,htally,hu⟩ := Ballots.confirmIfQuorum_winner h
  rw [hu.votes]
  unfold changeWinner
  split_ifs with hc
  · unfold removeVotes
    split_ifs with hv
    · refine (get_eraseAll _ _ _).trans (if_neg fun hg => ?_)
      exact he ⟨hv,hg,a,top,rest,htally,hc⟩
    · rfl
  · rfl

theorem takes_keeps (he : ¬ Erases (taken s h E) order rep)
    (hstep : Elections.step E (takes s h order) = some (u,called)) :
    u.election.lastVotes[rep]? = (taken s h E).election.lastVotes[rep]? := by
  rw [step_takes] at hstep
  split_ifs at hstep
  · rw [(Prod.mk.inj (Option.some.inj hstep)).1]
  · exact confirmIfQuorum_keeps he hstep

theorem taken_vote (hn : E.election.lastVotes[rep]? = none) :
    (taken s h E).election.lastVotes[rep]? = (cachedVote h s rep).map fun t => ⟨none,t,h⟩ := by
  refine (emplaceVotes_get (votersOf s h) E.election.lastVotes rep).trans ?_
  rw [hn,none_or]
  rfl

theorem takes_returns {t : BitVec 64} (hc : cachedVote h s rep = some t)
    (hb : h ∈ E.election.lastBlocks) (hn : E.election.lastVotes[rep]? = none)
    (ht : Traverses E (takes s h order)) :
    ∃ u called, Elections.step E (takes s h order) = some (u,called) := by
  have hvote : (taken s h E).election.lastVotes[rep]? = some ⟨none,t,h⟩ := by
    rw [taken_vote hn,hc,map_some]
  rw [step_takes]
  rw [Traverses,record_takes] at ht
  split_ifs with hd
  · exact ⟨_,_,rfl⟩
  · rw [if_neg hd] at ht
    exact Ballots.confirmIfQuorum_returns (ht order rfl)
      (Ballots.mem_voted.mpr ⟨rep,_,hvote,rfl⟩) hb

/-- An election with the block takes the newest vote of each representative that
has no other vote there. -/
def Counts (h : BlockHash) (s : State) (sent : List (Account × BitVec 64)) : Prop :=
  ∀ rep t, (rep,t) ∈ sent → ∀ (E : Elections.State) (order : List BlockHash),
    Reaches (fun _ _ => True) E → h ∈ E.election.lastBlocks → E.election.lastVotes[rep]? = none →
    Traverses E (takes s h order) → ¬ Erases (taken s h E) order rep →
    ∃ u called t', Elections.step E (takes s h order) = some (u,called) ∧
      u.election.lastVotes[rep]? = some ⟨none,t',h⟩ ∧ (rep,t') ∈ sent ∧
      ∀ v, (rep,v) ∈ sent → v ≤ t'

def quietEnvironment (null : Account) : Environment where
  null := null
  weight := fun _ => 0
  delta := 0
  trended := 0
  canary := true
  voting := false
  devNetwork := false
  generated := fun _ => []

theorem counts_iff : Counts h s sent ↔ Holds h s sent := by
  constructor
  · intro hC rep t hr
    -- the election that starts with the block
    let E : Elections.State := { env := quietEnvironment (rep+1), election := .start (rep+1) 0 h }
    have hn : E.election.lastVotes[rep]? = none :=
      (get_insert _ _ _ _).trans (if_neg (by bv_omega))
    have hquiet : ¬ Erases (taken s h E) (voted (taken s h E).election.lastVotes) rep := nofun
    have ht : Traverses E (takes s h (voted (taken s h E).election.lastVotes)) := by
      intro o ho
      rw [record_takes] at ho ⊢
      split_ifs at ho
      · cases ho
      · rw [← Option.some.inj ho]
    obtain ⟨u,called,t',hstep,hu,hsent,hmax⟩ := hC rep t hr E _ (.start _ 0 h)
      (mem_singleton.mpr rfl) hn ht hquiet
    rw [takes_keeps hquiet hstep,taken_vote hn] at hu
    obtain ⟨t'',hc,e⟩ := map_eq_some_iff.mp hu
    obtain ⟨-,rfl,-⟩ := VoteInfo.mk.inj e
    exact ⟨t'',hc,hsent,hmax⟩
  · intro hH rep t hr E order _ hb hn ht he
    obtain ⟨t',hc,hsent,hmax⟩ := hH rep t hr
    obtain ⟨u,called,hu⟩ := takes_returns hc hb hn ht
    refine ⟨u,called,t',hu,?_,hsent,hmax⟩
    rw [takes_keeps he hu,taken_vote hn,hc,map_some]

/-- Throughout a run elections take the newest votes exactly when each event of
the run is careful. -/
theorem cached_votes_count {evs : List Event} (hs : s.cache[h]? = none)
    (hv : Each (Valid h) s evs) :
    Throughout h (Counts h) s [] evs ↔ Each (Careful h) s evs := by
  have hS : Sent h s [] := by
    intro rep t ht
    rw [cachedVote_none hs] at ht
    cases ht
  have hH : Holds h s [] := fun _ _ hr => nomatch hr
  rw [throughout_iff (fun _ _ => counts_iff),throughout_holds hv hH hS]

end

def sampleConditions : Conditions where
  weight := fun a => if a = 1 ∨ a = 2 ∨ a = 3 then 10 else 0
  trended := 30
  delta := 20
  devNetwork := true
  betaNetwork := false
  disableLegacyBootstrap := false
  disableLazyBootstrap := false
  bootstrapThreshold := 0
  electionHintWeightPercent := 10
  inactiveVotesCacheSize := 16

def sampleVote (rep : Account) (timestamp : BitVec 64) : Event :=
  .vote sampleConditions 0 10 rep timestamp

def wholeVote (rep : Account) (timestamp : BitVec 64) : List Event :=
  [sampleVote rep timestamp,.check sampleConditions 0,.finish sampleConditions 0 10]

def finalFirst : List Event := wholeVote 1 timestampMax++wholeVote 1 5++wholeVote 2 5

theorem cached_votes_count_sample : Each (Valid 10) {} finalFirst ∧
    Throughout 10 (Counts 10) {} [] finalFirst := by
  have hv : Each (Valid 10) {} finalFirst := by decide +kernel
  exact ⟨hv,(cached_votes_count rfl hv).mpr (by decide +kernel)⟩

def Drops (evs : List Event) (rep : Account) (t : BitVec 64) : Prop :=
  Each (Valid 10) {} evs ∧ (rep,t) ∈ evs.flatMap (Event.votes 10) ∧
  ∃ (E : Elections.State) (order : List BlockHash) (u : Elections.State) (called : Bool),
    Reaches (fun _ _ => True) E ∧ 10 ∈ E.election.lastBlocks ∧ E.election.lastVotes[rep]? = none ∧
    Traverses E (takes (exec {} evs) 10 order) ∧ ¬ Erases (taken (exec {} evs) 10 E) order rep ∧
    Elections.step E (takes (exec {} evs) 10 order) = some (u,called) ∧
    ∀ i : VoteInfo, u.election.lastVotes[rep]? = some i → i.timestamp < t

theorem drops_of_step {evs : List Event} {rep : Account} {t : BitVec 64}
    (hv : Each (Valid 10) {} evs) (hr : (evs.flatMap (Event.votes 10)).contains (rep,t) = true)
    (hn : rep ≠ 0)
    (ht : Traverses (sampleElection sampleEnvironment) (takes (exec {} evs) 10 [10]))
    (hu : (Elections.step (sampleElection sampleEnvironment) (takes (exec {} evs) 10 [10])).any
      (fun x => x.1.election.lastVotes[rep]?.all fun i => decide (i.timestamp < t)) = true) :
    Drops evs rep t := by
  obtain ⟨⟨u,called⟩,hu,hall⟩ := (any_eq_true _ _).mp hu
  refine ⟨hv,contains_iff_mem.mp hr,sampleElection sampleEnvironment,[10],u,called,
    .start _ 0 10,mem_singleton.mpr rfl,?_,ht,nofun,hu,fun i hi => ?_⟩
  · exact (get_insert _ _ _ _).trans (if_neg hn)
  · rw [hi,all_some,decide_eq_true_eq] at hall
    exact hall

def finalSecond : List Event := wholeVote 1 5++wholeVote 1 timestampMax

def closedEntry : List Event := wholeVote 1 5++wholeVote 2 5++wholeVote 3 timestampMax

theorem cached_votes_dropped : Drops finalSecond 1 timestampMax ∧
    Drops closedEntry 3 timestampMax := by
  constructor
  · exact drops_of_step (by decide +kernel) (by decide +kernel) (by decide) (by decide +kernel)
      (by decide +kernel)
  · exact drops_of_step (by decide +kernel) (by decide +kernel) (by decide) (by decide +kernel)
      (by decide +kernel)
end Vxldollar.InactiveVotes
