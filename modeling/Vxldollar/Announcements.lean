import Vxldollar.Answers
import Vxldollar.Framing
import Vxldollar.Lifecycle

/-!
# Announcements of cemented blocks

The confirmation height processor hands each newly cemented block to
`block_cemented_callback`, which passes it to the observers on some paths only. It
looks at the added hashes, the index of active blocks, the election and the winner
details one after the other, each under its own lock, while other threads change
them. A block that it drops is never announced, since no block is handed over
twice. `confirm_block` keeps an iterator into the index when it gives the lock back:
if the entry is erased before the election is locked, the iterator points nowhere.
-/

namespace Vxldollar.Announcements
open Blocks Store Vxldollar.Lattice Runs Cementing CementingRuns Elections Lifecycle Answers Sources
  Option List Bool

section
variable {P W : Type}

inductive Job where
  | cemented (hash : BlockHash)
  | alreadyCemented (hash : BlockHash)
  deriving DecidableEq, Repr

/-- Where a call of `block_cemented_callback` stands: before `confirm_block` looks for
the election, before it locks that election, before the look at the winner
details, and before the look at the election found there. `settle` has the entry of
the index that the iterator points at, none once it is erased. -/
inductive Callback where
  | confirmBlock (hash : BlockHash)
  | settle (hash : BlockHash) (entry : Option ℕ)
  | winners (hash : BlockHash)
  | notify (hash : BlockHash) (id : ℕ)
  deriving DecidableEq, Repr

def Callback.hash : Callback → BlockHash
  | .confirmBlock h | .settle h _ | .winners h | .notify h _ => h

/-- The processor with its queue `awaiting_processing` and `original_hashes_pending`;
the elections, those that were erased included, with the index of active blocks
and the winner details; the calls of `process_confirmed` that wait for their
block; the calls of observers that are due; the blocks for which the callback has
returned, and those that it announced; and whether an erased entry was read, after
which the behaviour of the source is undefined. -/
structure Node (P W : Type) where
  stage : Stage P W
  flushed : Bool := false
  awaiting : List BlockHash := []
  original : List BlockHash := []
  elections : List Elections.State := []
  blocks : Std.ExtTreeMap BlockHash ℕ := ∅
  details : Details := ∅
  confirming : List BlockHash := []
  jobs : List Job := []
  current : Option Callback := none
  returned : List BlockHash := []
  announced : List BlockHash := []
  undefined : Bool := false

/-- What the threads do. `callback` is the next section of the thread of the
processor while it calls observers, `election` a section of an election. A block is
published into an election by a section of the election and `emplace`. -/
inductive Event where
  | take
  | round
  | idle
  | cleanup
  | callback
  | election (id : ℕ) (ev : Elections.Event)
  | insert (env : Elections.Environment) (now : ℕ) (hash : BlockHash)
  | emplace (id : ℕ) (hash : BlockHash)
  | erase (id : ℕ)
  | eraseHash (hash : BlockHash)
  | processConfirmed (hash : BlockHash)
  | giveUp (hash : BlockHash)

namespace Node

def isProcessingAddedBlock (n : Node P W) (h : BlockHash) : Bool :=
  n.original.contains h || n.awaiting.contains h

def free (n : Node P W) : Bool := n.jobs.isEmpty && n.current.isNone

def returns (n : Node P W) (h : BlockHash) (heard : Bool) : Node P W := { n with
  current := none
  returned := n.returned++[h]
  announced := if heard then n.announced++[h] else n.announced }

def confirm (n : Node P W) (id : ℕ) (e e' : Elections.State) : Node P W :=
  let (details,processes) := confirmOnce n.details id e.election.phase e'.election.winner
  { n with
    elections := n.elections.set id e'
    details := details
    confirming := if processes then n.confirming++[e'.election.winner] else n.confirming }

def emplace (n : Node P W) (h : BlockHash) (id : ℕ) : Node P W :=
  if n.blocks.contains h then n else { n with blocks := n.blocks.insert h id }

def Callback.invalidate (hashes : List BlockHash) : Callback → Callback
  | .settle h entry => .settle h (if h ∈ hashes then none else entry)
  | c => c

def erase (n : Node P W) (hashes : List BlockHash) : Node P W := { n with
  blocks := hashes.foldl (fun m h => m.erase h) n.blocks
  current := n.current.map (Callback.invalidate hashes) }

def callback (n : Node P W) : Option (Node P W) := match n.current with
  | none => match n.jobs with
    | [] => none
    | .alreadyCemented h::rest => some { n with jobs := rest, details := n.details.erase h }
    | .cemented h::rest => some { n with
        jobs := rest
        current := some (if n.isProcessingAddedBlock h then .winners h else .confirmBlock h) }
  | some (.confirmBlock h) => match n.blocks[h]? with
    | none => some (n.returns h true)
    | some id => some { n with current := some (.settle h (some id)) }
  | some (.settle h none) => some { n.returns h false with undefined := true }
  | some (.settle h (some id)) => n.elections[id]?.map fun e =>
    if e.election.winner = h then
      if e.election.confirmed then { n with current := some (.winners h) }
      else { n.confirm id e { e with election.phase := .confirmed } with
        current := some (.winners h) }
    else n.returns h false
  | some (.winners h) => match n.details[h]? with
    | none => some (n.returns h false)
    | some id => some { n with
        details := n.details.erase h
        current := some (.notify h id) }
  | some (.notify h id) => n.elections[id]?.map fun e =>
    n.returns h (e.election.confirmed && decide (e.election.winner = h))

end Node

variable (C : Constants) (M : Mode P W)

/-- The calls of observers between two traces of the processor. A round tells of
a block that was already cemented before it flushes. -/
def newJobs (t t' : Trace) : List Job :=
  (t'.alreadyCemented.drop t.alreadyCemented.length).map .alreadyCemented++
  (t'.notified.drop t.notified.length).flatten.map fun r => .cemented (C.blockHash r.block)

def advance (n : Node P W) (s : Stage P W) : Node P W := { n with
  stage := s
  jobs := newJobs C (M.stageTrace n.stage) (M.stageTrace s) }

def step (n : Node P W) : Event → Option (Node P W)
  | .take => if n.free && !n.flushed then
      match n.stage,n.awaiting with
      | .between p,h::rest => (M.trace p).ledger.blocks[h]?.map fun r =>
        { advance C M n (.within h r (M.begin p h)) with
          awaiting := rest
          original := (if M.pendingEmpty p then [] else n.original)++[h] }
      | _,_ => none
    else none
  | .round => if n.free then
      match n.stage with
      | .within h r w => (M.round h r w).map fun o => advance C M n (o.elim (.within h r) .between)
      | .between _ => none
    else none
  | .idle => if n.free && !n.flushed then
      match n.stage with
      | .between p => (M.idle p).map fun q =>
        { advance C M n (.between q) with flushed := true }
      | .within _ _ _ => none
    else none
  | .cleanup => if n.free && n.flushed then some { n with flushed := false, original := [] }
    else none
  | .callback => n.callback
  | .election id ev => n.elections[id]?.bind fun e => (Elections.step e ev).map fun (e',called) =>
    if called then n.confirm id e e' else { n with elections := n.elections.set id e' }
  | .insert env now h => some (Node.emplace
      { n with elections := n.elections++[{ env := env, election := .start env.null now h }] }
      h n.elections.length)
  | .emplace id h => n.elections[id]?.map fun e =>
    if h ∈ e.election.lastBlocks then n.emplace h id else n
  | .erase id => n.elections[id]?.map fun e => n.erase e.election.lastBlocks
  | .eraseHash h => some (n.erase [h])
  | .processConfirmed h =>
    if n.confirming.contains h && (M.stageTrace n.stage).ledger.blocks.contains h then some { n with
      confirming := n.confirming.erase h
      awaiting := if n.awaiting.contains h then n.awaiting else n.awaiting++[h] }
    else none
  | .giveUp h =>
    if n.confirming.contains h && !(M.stageTrace n.stage).ledger.blocks.contains h then
      some { n with
      confirming := n.confirming.erase h
      details := n.details.erase h }
    else none

def Possible (n : Node P W) : Event → Prop
  | .election id ev => ∀ e ∈ n.elections[id]?, Quorum.Traverses e ev
  | _ => True

instance (n : Node P W) (ev : Event) : Decidable (Possible n ev) := by
  cases ev <;> unfold Possible <;> infer_instance

abbrev Runs := Machine.Runs (step C M) Possible

/-- The callback finds the block as the winner of the election that holds it, whose
entry in the index has not been erased meanwhile; it finds the winner details of the
block; and the election there is confirmed, with the block as its winner. -/
def Careful (n : Node P W) : Event → Prop
  | .callback => match n.current with
    | some (.settle h entry) =>
        (entry.bind (n.elections[·]?)).map (fun e => e.election.winner) = some h
    | some (.winners h) => n.details[h]? ≠ none
    | some (.notify h id) => n.elections[id]?.map (fun e =>
        (e.election.confirmed,e.election.winner)) = some (true,h)
    | _ => True
  | _ => True

instance (n : Node P W) (ev : Event) : Decidable (Careful n ev) := by
  cases ev <;> unfold Careful
  case callback => dsimp only; split <;> infer_instance
  all_goals infer_instance

end
section
variable {P W : Type} {C : Constants} {M : Mode P W} {n n' n₀ : Node P W} {ev : Event}
  {ms : List (Node P W × Event)} {heard : Bool}

def cementedJobs (jobs : List Job) : List BlockHash := jobs.filterMap fun
  | .cemented h => some h
  | .alreadyCemented _ => none

def handed (n : Node P W) : List BlockHash :=
  n.returned++(n.current.map Callback.hash).toList++cementedJobs n.jobs

/-- What a section does to the lists of blocks: nothing; a callback returns with an
announcement; or it returns without one, and only if it is not careful. -/
inductive Effect (careful : Prop) (n n' : Node P W) : Prop
  | quiet : careful → n'.returned = n.returned → n'.announced = n.announced →
      n'.undefined = n.undefined → Effect careful n n'
  | heard (h : BlockHash) : careful → n'.returned = n.returned++[h] →
      n'.announced = n.announced++[h] → n'.undefined = n.undefined → Effect careful n n'
  | lost (h : BlockHash) : ¬ careful → n'.returned = n.returned++[h] →
      n'.announced = n.announced → Effect careful n n'

theorem returns_effect {careful : Prop} {h : BlockHash} (hc : careful ↔ heard = true) :
    Effect careful n (n.returns h heard) := by
  cases heard with
  | true => exact .heard h (hc.mpr rfl) rfl rfl rfl
  | false => exact .lost h (fun h => nomatch hc.mp h) rfl rfl

theorem returns_handed {c : Callback} (hc : n.current = some c) :
    handed (n.returns c.hash heard) = handed n := by
  unfold handed Node.returns
  rw [hc]
  simp

theorem current_handed {c c' : Callback} (hc : n.current = some c) (hcur : n'.current = some c')
    (hh : c'.hash = c.hash) (hr : n'.returned = n.returned) (hj : n'.jobs = n.jobs) :
    handed n' = handed n := by
  unfold handed
  rw [hc,hcur,hr,hj,map_some,map_some,hh]

theorem callback_spec (h : n.callback = some n') : n'.stage = n.stage ∧ handed n' = handed n ∧
    Effect (Careful n .callback) n n' := by
  unfold Node.callback at h
  unfold Careful
  cases hc : n.current with
  | none =>
    rw [hc] at h
    dsimp only at h ⊢
    cases hj : n.jobs with
    | nil =>
      rw [hj] at h
      cases h
    | cons job rest =>
      rw [hj] at h
      cases job with
      | alreadyCemented g =>
        cases h
        refine ⟨rfl,?_,.quiet trivial rfl rfl rfl⟩
        unfold handed
        rw [hj,hc]
        rfl
      | cemented g =>
        cases h
        refine ⟨rfl,?_,.quiet trivial rfl rfl rfl⟩
        have hhash : (if n.isProcessingAddedBlock g = true then Callback.winners g
            else Callback.confirmBlock g).hash = g := by
          split_ifs <;> rfl
        unfold handed
        rw [hj,hc]
        simp only [map_some,hhash,map_none,toList_none,append_nil]
        exact append_assoc _ _ _
  | some c =>
    rw [hc] at h
    cases c with
    | confirmBlock g =>
      dsimp only at h ⊢
      split at h
      · cases h
        exact ⟨rfl,returns_handed hc,returns_effect (iff_of_true trivial rfl)⟩
      · cases h
        exact ⟨rfl,current_handed hc rfl rfl rfl rfl,.quiet trivial rfl rfl rfl⟩
    | settle g entry =>
      cases entry with
      | none =>
        cases h
        have hh : handed (n.returns g false) = handed n := returns_handed hc
        exact ⟨rfl,hh,.lost g nofun rfl rfl⟩
      | some id =>
        obtain ⟨e,he,rfl⟩ := map_eq_some_iff.mp h
        have hiff : ((some id).bind (n.elections[·]?)).map (fun e => e.election.winner) = some g ↔
            e.election.winner = g := by
          rw [bind_some,he,map_some,Option.some.injEq]
        dsimp only
        rw [hiff]
        split_ifs with hw hd
        · exact ⟨rfl,current_handed hc rfl rfl rfl rfl,.quiet hw rfl rfl rfl⟩
        · exact ⟨rfl,current_handed hc rfl rfl rfl rfl,.quiet hw rfl rfl rfl⟩
        · exact ⟨rfl,returns_handed hc,returns_effect (iff_of_false hw nofun)⟩
    | winners g =>
      dsimp only at h ⊢
      split at h
      · rename_i hd
        cases h
        exact ⟨rfl,returns_handed hc,returns_effect (iff_of_false (fun h => h hd) nofun)⟩
      · rename_i id hd
        cases h
        refine ⟨rfl,current_handed hc rfl rfl rfl rfl,.quiet ?_ rfl rfl rfl⟩
        rw [hd]
        exact some_ne_none id
    | notify g id =>
      obtain ⟨e,he,rfl⟩ := map_eq_some_iff.mp h
      refine ⟨rfl,returns_handed hc,returns_effect ?_⟩
      rw [and_eq_true,decide_eq_true_eq]
      dsimp only
      rw [he,map_some,Option.some.injEq,Prod.mk.injEq]

theorem cementedJobs_new (t t' : Trace) : cementedJobs (newJobs C t t') =
    (t'.notified.drop t.notified.length).flatten.map fun r => C.blockHash r.block := by
  unfold cementedJobs newJobs
  rw [filterMap_append,filterMap_map,filterMap_map]
  simp only [Function.comp_def,filterMap_none]
  exact congrFun filterMap_eq_map _

inductive Turns (M : Mode P W) : Stage P W → Stage P W → Prop
  | begin {p : P} {h : BlockHash} {r : StoredBlock} : (M.trace p).ledger.blocks[h]? = some r →
      Turns M (.between p) (.within h r (M.begin p h))
  | round {h : BlockHash} {r : StoredBlock} {w : W} {o : W ⊕ P} : M.round h r w = some o →
      Turns M (.within h r w) (o.elim (.within h r) .between)
  | idle {p q : P} : M.idle p = some q → Turns M (.between p) (.between q)

variable (C M) in
def Hands (n n' : Node P W) : Prop :=
  (n'.stage = n.stage ∧ handed n' = handed n) ∨
  (Turns M n.stage n'.stage ∧ handed n' = handed n++
    ((M.stageTrace n'.stage).notified.drop
      (M.stageTrace n.stage).notified.length).flatten.map fun r => C.blockHash r.block)

theorem advance_handed (hf : n.free = true) (s : Stage P W) : handed (advance C M n s) = handed n++
    ((M.stageTrace s).notified.drop (M.stageTrace n.stage).notified.length).flatten.map
      fun r => C.blockHash r.block := by
  obtain ⟨hj,hc⟩ := and_eq_true_iff.mp hf
  rw [List.isEmpty_iff] at hj
  rw [isNone_iff_eq_none] at hc
  unfold handed advance
  dsimp only
  rw [hj,hc,cementedJobs_new]
  exact (congrArg (· ++ _) (append_nil _)).symm

theorem emplace_same (n : Node P W) (h : BlockHash) (id : ℕ) : (n.emplace h id).stage = n.stage ∧
    handed (n.emplace h id) = handed n ∧ (n.emplace h id).returned = n.returned ∧
    (n.emplace h id).announced = n.announced ∧ (n.emplace h id).undefined = n.undefined := by
  unfold Node.emplace
  split_ifs <;> exact ⟨rfl,rfl,rfl,rfl,rfl⟩

theorem erase_same (n : Node P W) (hs : List BlockHash) : (n.erase hs).stage = n.stage ∧
    handed (n.erase hs) = handed n := by
  refine ⟨rfl,?_⟩
  unfold handed Node.erase
  rcases n.current with _ | (_ | _ | _ | _) <;> rfl

theorem step_spec (h : step C M n ev = some n') : Effect (Careful n ev) n n' ∧ Hands C M n n' := by
  cases ev with
  | take =>
    rw [step] at h
    split_ifs at h with hf
    split at h
    · rename_i p a rest hs ha
      obtain ⟨r,hr,rfl⟩ := map_eq_some_iff.mp h
      refine ⟨.quiet trivial rfl rfl rfl,.inr ⟨hs ▸ .begin hr,?_⟩⟩
      exact advance_handed (and_eq_true_iff.mp hf).1 _
    · cases h
  | round =>
    rw [step] at h
    split_ifs at h with hf
    split at h
    · rename_i a r w hs
      obtain ⟨o,ho,rfl⟩ := map_eq_some_iff.mp h
      exact ⟨.quiet trivial rfl rfl rfl,.inr ⟨hs ▸ .round ho,advance_handed hf _⟩⟩
    · cases h
  | idle =>
    rw [step] at h
    split_ifs at h with hf
    split at h
    · rename_i p hs
      obtain ⟨q,hq,rfl⟩ := map_eq_some_iff.mp h
      refine ⟨.quiet trivial rfl rfl rfl,.inr ⟨hs ▸ .idle hq,?_⟩⟩
      exact advance_handed (and_eq_true_iff.mp hf).1 _
    · cases h
  | cleanup =>
    rw [step] at h
    split_ifs at h
    cases h
    exact ⟨.quiet trivial rfl rfl rfl,.inl ⟨rfl,rfl⟩⟩
  | callback =>
    obtain ⟨hs,hh,he⟩ := callback_spec h
    exact ⟨he,.inl ⟨hs,hh⟩⟩
  | election id ev =>
    obtain ⟨e,-,h⟩ := bind_eq_some_iff.mp h
    obtain ⟨⟨e',called⟩,-,rfl⟩ := map_eq_some_iff.mp h
    dsimp only
    split_ifs <;> exact ⟨.quiet trivial rfl rfl rfl,.inl ⟨rfl,rfl⟩⟩
  | insert env now a =>
    cases h
    obtain ⟨hs,hh,hr,ha,hu⟩ := emplace_same
      { n with elections := n.elections++[{ env := env, election := .start env.null now a }] } a
      n.elections.length
    exact ⟨.quiet trivial hr ha hu,.inl ⟨hs,hh⟩⟩
  | emplace id a =>
    obtain ⟨e,-,rfl⟩ := map_eq_some_iff.mp h
    split_ifs
    · obtain ⟨hs,hh,hr,ha,hu⟩ := emplace_same n a id
      exact ⟨.quiet trivial hr ha hu,.inl ⟨hs,hh⟩⟩
    · exact ⟨.quiet trivial rfl rfl rfl,.inl ⟨rfl,rfl⟩⟩
  | erase id =>
    obtain ⟨e,-,rfl⟩ := map_eq_some_iff.mp h
    exact ⟨.quiet trivial rfl rfl rfl,.inl (erase_same n _)⟩
  | eraseHash a =>
    cases h
    exact ⟨.quiet trivial rfl rfl rfl,.inl (erase_same n _)⟩
  | processConfirmed a =>
    rw [step] at h
    split_ifs at h
    · cases h
      exact ⟨.quiet trivial rfl rfl rfl,.inl ⟨rfl,rfl⟩⟩
    · cases h
      exact ⟨.quiet trivial rfl rfl rfl,.inl ⟨rfl,rfl⟩⟩
  | giveUp a =>
    rw [step] at h
    split_ifs at h
    cases h
    exact ⟨.quiet trivial rfl rfl rfl,.inl ⟨rfl,rfl⟩⟩

theorem Runs.effects (r : Runs C M n₀ ms n) (h₀ : n₀.announced = n₀.returned)
    (hu₀ : n₀.undefined = false) : n.announced.Sublist n.returned ∧
      (n.announced = n.returned ↔ ∀ m ∈ ms, Careful m.1 m.2) ∧
      (n.announced = n.returned → n.undefined = false) := by
  induction r with
  | start =>
    simp only [not_mem_nil,false_imp_iff,implies_true,iff_true]
    exact ⟨h₀ ▸ List.Sublist.refl _,h₀,fun _ => hu₀⟩
  | @step ms n n' ev _ _ h ih =>
    obtain ⟨hsub,hiff,hu⟩ := ih
    simp only [mem_append,mem_singleton,or_imp,forall_and,forall_eq]
    rw [← hiff]
    cases (step_spec h).1 with
    | quiet hc hr ha hsame =>
      rw [hr,ha,hsame]
      exact ⟨hsub,(and_iff_left hc).symm,hu⟩
    | heard g hc hr ha hsame =>
      rw [hr,ha,hsame,append_left_inj]
      exact ⟨hsub.append (List.Sublist.refl _),(and_iff_left hc).symm,hu⟩
    | lost g hc hr ha =>
      rw [hr,ha]
      have hne : n.announced ≠ n.returned++[g] := by
        intro e
        have := hsub.length_le
        rw [e,length_append,length_singleton] at this
        omega
      exact ⟨hsub.trans (sublist_append_left _ _),iff_of_false hne fun h => hc h.2,
        fun e => absurd e hne⟩

end

section
variable {P W : Type} {C : Constants} {M : Mode P W} {n n' n₀ : Node P W} {p₀ : P}
  {F : Forest Account BlockHash} {L₀ : Ledger} {inv : Stage P W → (Account → ℕ) → Prop}
  {ms : List (Node P W × Event)} {s s' : Stage P W} {V₀ : Account → ℕ}

section
variable (H : Lawful M F L₀ inv)
include H

theorem Turns.kept (ht : Turns M s s') (hs : ∃ V, inv s V) :
    (∃ V, inv s' V) ∧ (M.stageTrace s).notified <+: (M.stageTrace s').notified := by
  obtain ⟨V,hV⟩ := hs
  cases ht with
  | begin hr =>
    have hb := (H.sound _ _ hV).written.blocks
    rw [Mode.stageTrace] at hb
    refine ⟨⟨V,H.begin _ _ _ _ hV (hb ▸ hr)⟩,?_⟩
    show _ <+: (M.walkTrace _).notified
    rw [H.unchanged]
    exact prefix_rfl
  | @round h r w o ho =>
    have he := (H.extended _ _ _ _ ho).notified
    cases o with
    | inl w' => exact ⟨⟨V,H.round _ _ _ _ _ hV ho⟩,he⟩
    | inr p =>
      obtain ⟨V',hV',-⟩ := H.finished _ _ _ _ _ hV ho
      exact ⟨⟨V',hV'⟩,he⟩
  | idle hq => exact ⟨⟨V,H.idle _ _ _ hV hq⟩,(H.kept _ _ hq).notified⟩

structure Handing (C : Constants) (M : Mode P W) (inv : Stage P W → (Account → ℕ) → Prop)
    (n : Node P W) : Prop where
  stage : ∃ V, inv n.stage V
  handed : (M.stageTrace n.stage).notified.flatten.map (fun r => C.blockHash r.block) = handed n

theorem Handing.step (h : Handing C M inv n) (hh : Hands C M n n') :
    Handing C M inv n' := by
  rcases hh with ⟨hs,hh⟩ | ⟨ht,hh⟩
  · exact ⟨hs ▸ h.stage,by rw [hs,hh,h.handed]⟩
  · obtain ⟨hinv,vs,hvs⟩ := ht.kept H h.stage
    refine ⟨hinv,?_⟩
    rw [hh,← h.handed,← hvs,drop_left,flatten_append,map_append]

theorem Runs.handing (h₀ : Handing C M inv n₀) (r : Runs C M n₀ ms n) :
    Handing C M inv n := by
  induction r with
  | start => exact h₀
  | step _ _ h ih => exact ih.step H (step_spec h).2

end

def Delivered (n : Node P W) : Prop := n.jobs = [] ∧ n.current = none

/-- Each block that was cemented since the start was announced exactly once, and nothing
undefined was done. -/
def Announced (M : Mode P W) (L : Ledger) (n : Node P W) : Prop := n.undefined = false ∧
  ∀ b, (M.stageTrace n.stage).ledger.blockConfirmed b = true → L.blockConfirmed b = false →
    n.announced.count b = 1

def start (p : P) : Node P W := { stage := .between p }

theorem start_handing (hp : inv (.between p₀) V₀)
    (hn : (M.trace p₀).notified = []) : Handing C M inv (start p₀) := by
  refine ⟨⟨V₀,hp⟩,?_⟩
  show ((M.trace p₀).notified.flatten.map _) = _
  rw [hn]
  rfl

def Genuine (M : Mode P W) (L : Ledger) (n : Node P W) : Prop := n.announced.Nodup ∧
  ∀ b ∈ n.announced, (M.stageTrace n.stage).ledger.blockConfirmed b = true ∧
    L.blockConfirmed b = false

theorem announced_iff (g : Grounds C F L₀) (H : Lawful M F L₀ inv) (hp : inv (.between p₀) V₀)
    (hn : (M.trace p₀).notified = []) (r : Runs C M (start p₀) ms n) (hd : Delivered n) :
    Genuine M L₀ n ∧ (Announced M L₀ n ↔ ∀ m ∈ ms, Careful m.1 m.2) := by
  have I := Runs.handing H (start_handing hp hn) r
  obtain ⟨V,hV⟩ := I.stage
  have N := Prefixes.sound_notified g (H.sound _ _ hV)
  have hret : (M.stageTrace n.stage).notified.flatten.map (fun r => C.blockHash r.block) =
      n.returned := by
    rw [I.handed,handed,hd.1,hd.2]
    exact (append_nil _).trans (append_nil _)
  have hnodup := N.once
  have hnewly := N.newly
  rw [hret] at hnodup
  simp only [hret] at hnewly
  obtain ⟨hsub,hiff,hdefined⟩ := Runs.effects r rfl rfl
  refine ⟨⟨hnodup.sublist hsub,fun b hb => (hnewly b).mp (hsub.subset hb)⟩,?_⟩
  rw [← hiff]
  constructor
  · rintro ⟨-,ha⟩
    -- all that was returned is in the announced list, which is no longer
    apply hsub.eq_of_length_le
    refine (hnodup.subperm fun b hb => ?_).length_le
    obtain ⟨hc,hu⟩ := (hnewly b).mp hb
    exact count_pos_iff.mp (by rw [ha b hc hu]; exact Nat.one_pos)
  · intro e
    refine ⟨hdefined e,fun b hc hu => ?_⟩
    rw [e]
    exact count_eq_one_of_mem hnodup ((hnewly b).mpr ⟨hc,hu⟩)

end
section
variable {C : Constants} {U : Set Hashables} {L : Ledger}

end

def prompt : Cementing.Environment := fun _ => ⟨false,true,true,0⟩

abbrev sampleNode : Node Unbounded.Processor Unbounded.Walk :=
  start (Unbounded.fresh sampleOpened 16384)

theorem exec_sample (l : List Event)
    (c : List (Node Unbounded.Processor Unbounded.Walk × Event) ×
      Node Unbounded.Processor Unbounded.Walk → Bool)
    (h : (Machine.exec (step sample (unbounded sample prompt)) Possible sampleNode l).any (fun o =>
      o.2.jobs.isEmpty && o.2.current.isNone && c o) = true) :
    ∃ ms n, Runs sample (unbounded sample prompt) sampleNode ms n ∧ Delivered n ∧
      c (ms,n) = true := by
  obtain ⟨ms,n,r,hcheck⟩ := Machine.exec_any h
  obtain ⟨hd,hc⟩ := and_eq_true_iff.mp hcheck
  obtain ⟨hj,hn⟩ := and_eq_true_iff.mp hd
  exact ⟨ms,n,r,⟨isEmpty_iff.mp hj,isNone_iff_eq_none.mp hn⟩,hc⟩

def cementing : List Event :=
  [.insert Quorum.sampleEnvironment 0 6,.election 1 (.vote 1 1 timestampMax 6 [6]),
    .processConfirmed 6,.take,.round,.round]

theorem sampleOpened_run : ∃ os, Framing.Run sample sampleBlocks os sampleOpened ∧
    ∀ o ∈ os, o.Careful sample := by
  refine ⟨_,Framing.run_offered (Framing.run_offered (.start 0) (.inr (.inl rfl))
    (by decide +kernel)) (.inr (.inr rfl)) (by decide +kernel),fun o ho => ?_⟩
  rcases mem_append.mp ho with ho | ho
  · obtain rfl := mem_singleton.mp ho
    exact .inl (epochOpens_none (by decide))
  · obtain rfl := mem_singleton.mp ho
    exact .inl (epochOpens_none (by decide))

def outvoted : List Event :=
  [.insert Quorum.sampleEnvironment 0 3,.election 0 (.insertBlock 20),.emplace 0 20,
    .election 0 (.vote 1 1 5 20 [3,20])]

def erased : List Event :=
  .insert Quorum.sampleEnvironment 0 3::cementing++[.callback,.callback,.erase 0,.callback]++
    List.replicate 3 .callback

end Vxldollar.Announcements
