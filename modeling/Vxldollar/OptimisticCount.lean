import Mathlib.Algebra.BigOperators.Ring.Finset
import Mathlib.Data.Int.ModEq
import Vxldollar.Lifecycle

/-!
# The count of optimistic elections

`optimistic_elections_count` goes up when an optimistic election has been inserted. It goes
down in the confirmation callback, which runs in the background, and when
`request_confirm` finds that the election has expired. `erase` and `erase_oldest` take
elections out without counting them down, and a thread that still holds an election can
confirm it after it has expired.
-/

namespace Vxldollar.OptimisticCount
open Blocks Elections List Function Bool

/-- `started` is set at the end of the insertion, `pending` counts the callbacks that have
not run. `down` counts how often the election has been counted down; nothing reads it. -/
structure Election where
  root : QualifiedRoot := ⟨0,0⟩
  optimistic : Bool := false
  phase : Phase := .passive
  started : Bool := false
  pending : ℕ := 0
  down : ℕ := 0

def Election.confirmed (e : Election) : Bool :=
  e.phase = .confirmed || e.phase = .expiredConfirmed

/-- Elections are numbered as they are created; `roots` holds those in the container,
oldest first. `loop` is what is left of the list that `request_confirm` goes through,
`turn` the election it takes out, with whether it has asked if the election failed. -/
structure State where
  elections : ℕ → Election := fun _ => {}
  created : ℕ := 0
  roots : List ℕ := []
  counter : BitVec 32 := 0
  loop : List ℕ := []
  turn : Option (ℕ × Bool) := none

/-- Sections of the threads. Whether a root was confirmed recently, whether the winner of
an election is new to `election_winner_details`, and the clock are left open. -/
inductive Event where
  | insert (root : QualifiedRoot) (optimistic recent : Bool)
  | inserted (i : ℕ)
  | confirmOnce (i : ℕ) (free : Bool)
  | callback (i : ℕ)
  | requestConfirm
  | transitionTime (elapsed expired : Bool)
  | failed
  | finish
  | erase (root : QualifiedRoot)
  | eraseOldest

def modify (s : State) (i : ℕ) (f : Election → Election) : State :=
  { s with elections := update s.elections i (f (s.elections i)) }

def find (s : State) (root : QualifiedRoot) : Option ℕ :=
  s.roots.find? fun i => (s.elections i).root = root

def insert (s : State) (root : QualifiedRoot) (optimistic recent : Bool) : State :=
  if (find s root).isSome || recent then s
  else { s with
    elections := update s.elections s.created { root := root, optimistic := optimistic }
    created := s.created+1
    roots := s.roots++[s.created] }

def begun (e : Election) : Election :=
  { e with phase := if e.phase = .passive then .active else e.phase, started := true }

/-- The rest of the insertion: the election is made active and counted. -/
def inserted (s : State) (i : ℕ) : State :=
  if (s.elections i).started then s
  else { modify s i begun with
    counter := if (s.elections i).optimistic then s.counter+1 else s.counter }

/-- Optimistic elections are the ones that have a confirmation callback. -/
def confirmOnce (s : State) (i : ℕ) (free : Bool) : State :=
  modify s i fun e => { e with
    phase := .confirmed
    pending := if e.phase ≠ .confirmed ∧ free = true ∧ e.optimistic = true then e.pending+1
      else e.pending }

def countDown (s : State) (i : ℕ) : State :=
  { modify s i (fun e => { e with down := e.down+1 }) with counter := s.counter-1 }

def callback (s : State) (i : ℕ) : State :=
  if (s.elections i).pending = 0 then s
  else countDown (modify s i fun e => { e with pending := e.pending-1 }) i

/-- `transition_time` of an election: its new phase, and whether it is to be taken out. -/
def transition (p : Phase) (elapsed expired : Bool) : Phase × Bool := match p with
  | .confirmed => if elapsed then (.expiredConfirmed,true) else (.confirmed,false)
  | .passive =>
    if expired then (.expiredUnconfirmed,true)
    else (if elapsed then .active else .passive,false)
  | .active => if expired then (.expiredUnconfirmed,true) else (.active,false)
  | .expiredConfirmed => (.expiredConfirmed,false)
  | .expiredUnconfirmed => (.expiredUnconfirmed,false)

def transitionTime (s : State) (elapsed expired : Bool) : State := match s.turn,s.loop with
  | none,i::rest =>
    let o := transition (s.elections i).phase elapsed expired
    { modify s i (fun e => { e with phase := o.1 }) with
      loop := rest
      turn := if o.2 then some (i,false) else none }
  | _,_ => s

def failed (s : State) : State := match s.turn with
  | some (i,false) =>
    let e := s.elections i
    let s := if e.optimistic = true ∧ e.phase = .expiredUnconfirmed then countDown s i else s
    { s with turn := some (i,true) }
  | _ => s

def erase (s : State) (root : QualifiedRoot) : State := match find s root with
  | some i => { s with roots := s.roots.erase i }
  | none => s

def finish (s : State) : State := match s.turn with
  | some (i,true) => { erase s (s.elections i).root with turn := none }
  | _ => s

def act (s : State) : Event → State
  | .insert root optimistic recent => insert s root optimistic recent
  | .inserted i => inserted s i
  | .confirmOnce i free => confirmOnce s i free
  | .callback i => callback s i
  | .requestConfirm => if s.loop = [] ∧ s.turn = none then { s with loop := s.roots } else s
  | .transitionTime elapsed expired => transitionTime s elapsed expired
  | .failed => failed s
  | .finish => finish s
  | .erase root => erase s root
  | .eraseOldest => { s with roots := s.roots.tail }

def Possible (s : State) : Event → Prop
  | .inserted i | .confirmOnce i _ | .callback i => i < s.created
  | _ => True

instance (s : State) (ev : Event) : Decidable (Possible s ev) := by
  cases ev <;> unfold Possible <;> infer_instance

abbrev Runs := Machine.Runs (fun s ev => some (act s ev)) Possible {}

section
variable (s : State)

def Quiet : Prop :=
  (∀ i < s.created, (s.elections i).started = true ∧ (s.elections i).pending = 0) ∧
    s.loop = [] ∧ s.turn = none

instance : Decidable (Quiet s) := inferInstanceAs (Decidable (_ ∧ _))

def counts (i : ℕ) : Bool := (s.elections i).optimistic && !(s.elections i).confirmed

def live : ℕ := s.roots.countP (counts s)

def Exact : Prop := s.counter.toNat = live s

def ended : ℕ := ((Finset.range s.created).filter fun i =>
  (s.elections i).optimistic = true ∧ ¬ (i ∈ s.roots ∧ counts s i = true)).card

def downs : ℕ := ∑ i ∈ Finset.range s.created, (s.elections i).down

def Balanced : Prop := live s < 2^32 ∧ (ended s : ℤ) ≡ downs s [ZMOD 2^32]

def Waiting (e : Election) : Prop :=
  e.optimistic = true ∧ (e.phase = .passive ∨ e.phase = .active)

instance (e : Election) : Decidable (Waiting e) := inferInstanceAs (Decidable (_ ∧ _))

/-- No election that waits for votes is taken out, none is confirmed that has expired, and
the winner of a confirmed one is new. -/
def Careful : Event → Prop
  | .confirmOnce i free => (s.elections i).optimistic = true →
      (s.elections i).phase ≠ .expiredConfirmed ∧ (s.elections i).phase ≠ .expiredUnconfirmed ∧
        ((s.elections i).phase ≠ .confirmed → free = true)
  | .finish => ∀ x ∈ s.turn, x.2 = true → ∀ j ∈ find s (s.elections x.1).root,
      ¬ Waiting (s.elections j)
  | .erase root => ∀ i ∈ find s root, ¬ Waiting (s.elections i)
  | .eraseOldest => ∀ i ∈ s.roots.head?, ¬ Waiting (s.elections i)
  | _ => True

instance (ev : Event) : Decidable (Careful s ev) := by
  cases ev <;> unfold Careful <;> infer_instance

end

variable {s : State} {i : ℕ} {ms : List (State × Event)}

section
def score (e : Election) : ℤ := (if e.optimistic && e.started then 1 else 0)-e.down

def total (s : State) : ℤ := ∑ i ∈ Finset.range s.created, score (s.elections i)

theorem total_modify (hi : i < s.created) (f : Election → Election) :
    total (modify s i f) = total s+(score (f (s.elections i))-score (s.elections i)) := by
  have hmem : i ∈ Finset.range s.created := Finset.mem_range.mpr hi
  have hcomp : (fun j => score ((modify s i f).elections j)) =
      update (fun j => score (s.elections j)) i (score (f (s.elections i))) := by
    funext j
    by_cases hj : j = i
    · subst hj
      simp [modify]
    · simp [modify,hj]
  have hrest := Finset.add_sum_erase (Finset.range s.created) (fun j => score (s.elections j)) hmem
  show ∑ j ∈ Finset.range s.created, (fun j => score ((modify s i f).elections j)) j = _
  rw [hcomp,Finset.sum_update_of_mem hmem,← Finset.erase_eq]
  unfold total
  omega

structure Known (s : State) : Prop where
  nodup : s.roots.Nodup
  roots : ∀ i ∈ s.roots, i < s.created
  distinct : ∀ i ∈ s.roots, ∀ j ∈ s.roots, (s.elections i).root = (s.elections j).root → i = j
  loop : ∀ i ∈ s.loop, i < s.created
  turn : ∀ i b, s.turn = some (i,b) → i < s.created
  counter : (s.counter.toNat : ℤ) ≡ total s [ZMOD 2^32]

theorem modify_root (f : Election → Election) (hf : ∀ e, (f e).root = e.root) (j : ℕ) :
    ((modify s i f).elections j).root = (s.elections j).root := by
  by_cases hj : j = i
  · subst hj
    simp [modify,hf]
  · simp [modify,hj]

section
variable (K : Known s) (hi : i < s.created) (f : Election → Election)
  (hf : ∀ e, (f e).root = e.root)
include K hi f hf

theorem Known.modify {c : BitVec 32}
    (hc : (c.toNat : ℤ) ≡
      s.counter.toNat+(score (f (s.elections i))-score (s.elections i)) [ZMOD 2^32]) :
    Known { modify s i f with counter := c } where
  nodup := K.nodup
  roots := K.roots
  distinct := fun a ha b hb h => K.distinct a ha b hb (by
    rwa [show ({ OptimisticCount.modify s i f with counter := c } : State).elections =
      (OptimisticCount.modify s i f).elections from rfl,modify_root f hf,modify_root f hf] at h)
  loop := K.loop
  turn := K.turn
  counter := by
    have ht : total { OptimisticCount.modify s i f with counter := c } =
        total (OptimisticCount.modify s i f) := rfl
    rw [ht,total_modify hi]
    exact hc.trans (K.counter.add_right _)

theorem Known.same (hs : score (f (s.elections i)) = score (s.elections i)) :
    Known (OptimisticCount.modify s i f) :=
  K.modify hi f hf (by rw [hs,sub_self,add_zero])

end

theorem Known.countDown (K : Known s) (hi : i < s.created) : Known (countDown s i) := by
  apply K.modify hi (fun e => { e with down := e.down+1 }) fun _ => rfl
  have hscore : score { s.elections i with down := (s.elections i).down+1 }-
      score (s.elections i) = -1 := by
    simp [score]
  have hsub : (s.counter-1).toNat = (2^32-1+s.counter.toNat)%2^32 := by
    simp
  have hlt := s.counter.isLt
  rw [hscore,hsub,Int.ModEq]
  omega

theorem Known.remove (K : Known s) {l : List ℕ} (hl : l.Sublist s.roots) :
    Known { s with roots := l } where
  nodup := K.nodup.sublist hl
  roots := fun i hi => K.roots i (hl.subset hi)
  distinct := fun i hi j hj => K.distinct i (hl.subset hi) j (hl.subset hj)
  loop := K.loop
  turn := K.turn
  counter := K.counter

variable {root : QualifiedRoot}

theorem find_some (h : find s root = some i) :
    i ∈ s.roots ∧ (s.elections i).root = root :=
  ⟨mem_of_find?_eq_some h,by simpa using find?_some h⟩

theorem find_none (h : find s root = none) {j : ℕ} (hj : j ∈ s.roots) :
    (s.elections j).root ≠ root := by
  have hnone := find?_eq_none.mp h j hj
  simpa using hnone

theorem total_insert (e : Election) (he : score e = 0) :
    total { s with elections := update s.elections s.created e,created := s.created+1 } =
      total s := by
  unfold total
  rw [Finset.sum_range_succ]
  have hold : ∀ j ∈ Finset.range s.created,
      score (update s.elections s.created e j) = score (s.elections j) := by
    intro j hj
    rw [update_of_ne (Finset.mem_range.mp hj).ne]
  rw [Finset.sum_congr rfl hold]
  dsimp only
  rw [update_self,he,add_zero]

theorem Known.insert (K : Known s) (root : QualifiedRoot) (optimistic recent : Bool) :
    Known (insert s root optimistic recent) := by
  unfold OptimisticCount.insert
  split
  · exact K
  next hc =>
    have hfree : find s root = none := by
      simpa using (or_eq_false_iff.mp (eq_false_iff.mpr hc)).1
    have hnew : ∀ j ∈ s.roots, j ≠ s.created := fun j hj => (K.roots j hj).ne
    have hold : ∀ j ∈ s.roots, (update s.elections s.created
        { root := root, optimistic := optimistic } j).root = (s.elections j).root := by
      intro j hj
      rw [update_of_ne (hnew j hj)]
    constructor
    · show (s.roots++[s.created]).Nodup
      rw [nodup_append]
      refine ⟨K.nodup,nodup_singleton _,fun j hj k hk => ?_⟩
      rw [mem_singleton.mp hk]
      exact hnew j hj
    · intro j hj
      rcases mem_append.mp hj with hj | hj
      · exact (K.roots j hj).trans (Nat.lt_succ_self _)
      · rw [mem_singleton.mp hj]
        exact Nat.lt_succ_self _
    · intro j hj k hk h
      dsimp only at h
      rcases mem_append.mp hj with hj | hj <;> rcases mem_append.mp hk with hk | hk
      · rw [hold j hj,hold k hk] at h
        exact K.distinct j hj k hk h
      · rw [mem_singleton.mp hk,update_self,hold j hj] at h
        exact absurd h (find_none hfree hj)
      · rw [mem_singleton.mp hj,update_self,hold k hk] at h
        exact absurd h.symm (find_none hfree hk)
      · rw [mem_singleton.mp hj,mem_singleton.mp hk]
    · exact fun j hj => (K.loop j hj).trans (Nat.lt_succ_self _)
    · exact fun j b hj => (K.turn j b hj).trans (Nat.lt_succ_self _)
    · have ht := total_insert (s := s) { root := root, optimistic := optimistic } (by simp [score])
      show (s.counter.toNat : ℤ) ≡
        total { s with elections := _, created := s.created+1 } [ZMOD 2^32]
      rw [ht]
      exact K.counter

theorem erase_sublist (s : State) (root : QualifiedRoot) :
    (erase s root) = { s with roots := (erase s root).roots } ∧
      (erase s root).roots.Sublist s.roots := by
  unfold erase
  split
  · exact ⟨rfl,List.erase_sublist⟩
  · exact ⟨rfl,Sublist.refl _⟩

section
variable {x : Lifecycle.State} {q : Phase}

/-- One step of the life cycle of an election, or `confirm_once`, leads to the phase. -/
def Moves (x : Lifecycle.State) (q : Phase) : Prop := q = .confirmed ∨
  ∃ ev, (Lifecycle.step x ev).map (fun o => Lifecycle.phase o.1) = some q

theorem moves_valid (hv : q = Lifecycle.phase x ∨ validChange (Lifecycle.phase x) q = true) :
    Moves x q := by
  rcases hv with rfl | hv
  · exact .inr ⟨.details x.details,rfl⟩
  obtain ⟨p,hp⟩ : ∃ p, Lifecycle.phase x = p := ⟨_,rfl⟩
  rw [hp] at hv
  have hchange : Lifecycle.phase (Lifecycle.stateChange x p q) = q := by
    rw [Lifecycle.stateChange,if_pos ⟨hv,hp⟩]
    rfl
  cases p <;> cases q <;> cases hv
  any_goals exact .inl rfl
  · exact .inr ⟨.activate,congrArg some hchange⟩
  · exact .inr ⟨.expireUnconfirmed .passive,congrArg some hchange⟩
  · exact .inr ⟨.expireUnconfirmed .active,congrArg some hchange⟩
  · exact .inr ⟨.expireConfirmed,congrArg some hchange⟩

variable (hx : Lifecycle.phase x = (s.elections i).phase)
include hx

theorem modify_moves {t : State} (j : ℕ) (f : Election → Election)
    (ht : t.elections = (modify s j f).elections)
    (hf : i = j → Moves x (f (s.elections i)).phase) : Moves x (t.elections i).phase := by
  rw [ht]
  by_cases hij : i = j
  · subst hij
    simpa [modify] using hf rfl
  · simpa [modify,hij] using moves_valid (.inl hx.symm)

/-- The phase of an election goes through its life cycle. -/
theorem act_moves (hi : i < s.created) (ev : Event) : Moves x ((act s ev).elections i).phase := by
  have hsame : Moves x (s.elections i).phase := moves_valid (.inl hx.symm)
  cases ev with
  | insert root optimistic recent =>
    simp only [act,insert]
    split_ifs
    · exact hsame
    · simpa [hi.ne] using hsame
  | inserted j =>
    simp only [act,inserted]
    split
    · exact hsame
    · refine modify_moves hx j begun rfl fun _ => moves_valid ?_
      simp only [hx,begun]
      cases (s.elections i).phase <;> decide
  | confirmOnce j free => exact modify_moves hx j _ rfl fun _ => .inl rfl
  | callback j =>
    simp only [act,callback]
    split
    · exact hsame
    · exact modify_moves hx j (fun e => { e with pending := e.pending-1, down := e.down+1 })
        (by simp [countDown,modify]) fun _ => hsame
  | transitionTime elapsed expired =>
    simp only [act,transitionTime]
    split
    next j rest _ _ =>
      refine modify_moves hx j
        (fun e => { e with phase := (transition (s.elections j).phase elapsed expired).1 }) rfl ?_
      rintro rfl
      apply moves_valid
      simp only [hx]
      cases elapsed <;> cases expired <;> cases (s.elections i).phase <;> decide
    · exact hsame
  | failed =>
    simp only [act,failed]
    split
    · split_ifs
      · exact modify_moves hx _ (fun e => { e with down := e.down+1 }) rfl fun _ => hsame
      · exact hsame
    · exact hsame
  | finish =>
    simp only [act,finish]
    split
    · rw [(erase_sublist s _).1]
      exact hsame
    · exact hsame
  | erase root =>
    rw [act,(erase_sublist s root).1]
    exact hsame
  | requestConfirm =>
    simp only [act]
    split <;> exact hsame
  | eraseOldest => exact hsame

end

section
variable (K : Known s)
include K

theorem Known.erase (root : QualifiedRoot) : Known (erase s root) := by
  rw [(erase_sublist s root).1]
  exact K.remove (erase_sublist s root).2

section
variable (hi : i < s.created)
include hi

theorem Known.inserted : Known (inserted s i) := by
  unfold OptimisticCount.inserted
  split
  · exact K
  next hstarted =>
    apply K.modify hi begun fun _ => rfl
    have hlt := s.counter.isLt
    have hold : (s.elections i).started = false := eq_false_iff.mpr hstarted
    by_cases ho : (s.elections i).optimistic = true
    · have hscore : score (begun (s.elections i))-score (s.elections i) = 1 := by
        simp [score,begun,ho,hold]
      have hadd : (s.counter+1).toNat = (s.counter.toNat+1)%2^32 := by
        simp
      rw [if_pos ho,hscore,hadd,Int.ModEq]
      omega
    · have hscore : score (begun (s.elections i))-score (s.elections i) = 0 := by
        simp [score,begun,ho]
      rw [if_neg ho,hscore,add_zero]

theorem Known.confirmOnce (free : Bool) :
    Known (confirmOnce s i free) :=
  K.same hi _ (fun _ => rfl) rfl

theorem Known.callback : Known (callback s i) := by
  unfold OptimisticCount.callback
  split
  · exact K
  · exact (K.same hi (fun e => { e with pending := e.pending-1 }) (fun _ => rfl) rfl).countDown hi

end

theorem Known.transitionTime (elapsed expired : Bool) :
    Known (transitionTime s elapsed expired) := by
  unfold OptimisticCount.transitionTime
  split
  next i rest _ hloop =>
    have hi : i < s.created := K.loop i (hloop ▸ mem_cons_self)
    have hsame := K.same hi (fun e => { e with
      phase := (transition (s.elections i).phase elapsed expired).1 }) (fun _ => rfl) rfl
    refine ⟨hsame.nodup,hsame.roots,hsame.distinct,fun j hj => ?_,fun j b hj => ?_,hsame.counter⟩
    · exact K.loop j (hloop ▸ mem_cons_of_mem _ hj)
    · dsimp only at hj
      split at hj
      · cases hj
        exact hi
      · cases hj
  · exact K

theorem Known.failed : Known (failed s) := by
  unfold OptimisticCount.failed
  split
  next i hturn =>
    have hi := K.turn i false hturn
    have hafter : ∀ t, Known t → t.created = s.created →
        Known { t with turn := some (i,true) } := by
      intro t T hc
      refine ⟨T.nodup,T.roots,T.distinct,T.loop,fun j b hj => ?_,T.counter⟩
      cases hj
      exact hc ▸ hi
    dsimp only
    split
    · exact hafter _ (K.countDown hi) rfl
    · exact hafter _ K rfl
  · exact K

theorem act_known {ev : Event} (hp : Possible s ev) : Known (act s ev) := by
  cases ev with
  | insert root optimistic recent => exact K.insert root optimistic recent
  | inserted i => exact K.inserted hp
  | confirmOnce i free => exact K.confirmOnce hp free
  | callback i => exact K.callback hp
  | requestConfirm =>
    unfold act
    dsimp only
    split
    · exact ⟨K.nodup,K.roots,K.distinct,K.roots,K.turn,K.counter⟩
    · exact K
  | transitionTime elapsed expired => exact K.transitionTime elapsed expired
  | failed => exact K.failed
  | finish =>
    unfold act finish
    dsimp only
    split
    next i _ =>
      have E := K.erase (s.elections i).root
      exact ⟨E.nodup,E.roots,E.distinct,E.loop,nofun,E.counter⟩
    · exact K
  | erase root => exact K.erase root
  | eraseOldest => exact K.remove (tail_sublist _)

end

theorem known_start : Known {} :=
  ⟨nodup_nil,nofun,nofun,nofun,nofun,by simp [total]⟩

theorem runs_known (h : Runs ms s) : Known s := by
  apply h.invariant known_start
  intro t ev t' T hp ht
  cases ht
  exact act_known T hp

end

theorem live_card (K : Known s) : live s = ((Finset.range s.created).filter fun i =>
    i ∈ s.roots ∧ counts s i = true).card := by
  have hset : (Finset.range s.created).filter (fun i => i ∈ s.roots ∧ counts s i = true) =
      (s.roots.filter (counts s)).toFinset := by
    ext i
    simp only [Finset.mem_filter,Finset.mem_range,mem_toFinset,mem_filter]
    exact ⟨fun h => h.2,fun h => ⟨K.roots i h.1,h⟩⟩
  rw [hset,toFinset_card_of_nodup (K.nodup.filter _),live,countP_eq_length_filter]

theorem total_quiet (K : Known s) (hq : Quiet s) :
    total s = (live s : ℤ)+ended s-downs s := by
  have hsplit : ∀ i ∈ Finset.range s.created, score (s.elections i) =
      (if i ∈ s.roots ∧ counts s i = true then 1 else 0)+
      (if (s.elections i).optimistic = true ∧ ¬ (i ∈ s.roots ∧ counts s i = true) then 1 else 0)-
      ((s.elections i).down : ℤ) := by
    intro i hi
    have hstarted := (hq.1 i (Finset.mem_range.mp hi)).1
    by_cases hl : i ∈ s.roots ∧ counts s i = true
    · have ho : (s.elections i).optimistic = true := (and_eq_true_iff.mp hl.2).1
      simp [score,hstarted,ho,hl]
    · simp [score,hstarted,hl]
  rw [total,Finset.sum_congr rfl hsplit,Finset.sum_sub_distrib,Finset.sum_add_distrib,live_card K,
    ended,downs,Finset.card_filter,Finset.card_filter]
  simp

theorem exact_iff_balanced (K : Known s) (hq : Quiet s) : Exact s ↔ Balanced s := by
  have hc := K.counter
  rw [total_quiet K hq,Int.ModEq] at hc
  have hlt := s.counter.isLt
  unfold Exact Balanced Int.ModEq
  omega

section
/-- Where an election stands with the counter, by its phase. An expired one is counted down
in its turn and is then taken out. -/
def Settled (s : State) (i : ℕ) : Prop :=
  let e := s.elections i
  if e.optimistic = true then match e.phase with
    | .passive | .active => i ∈ s.roots ∧ e.pending = 0 ∧ e.down = 0 ∧ ∀ b, s.turn ≠ some (i,b)
    | .confirmed | .expiredConfirmed => e.pending+e.down = 1
    | .expiredUnconfirmed => e.pending = 0 ∧
        e.down = (if s.turn = some (i,false) then 0 else 1) ∧
        ((∀ b, s.turn ≠ some (i,b)) → i ∉ s.roots)
  else e.pending = 0 ∧ e.down = 0

def AllSettled (s : State) : Prop := ∀ i < s.created, Settled s i

structure Fair (s : State) : Prop where
  known : Known s
  settled : AllSettled s

theorem down_quiet (hq : Quiet s) (hi : i < s.created) (h : Settled s i) :
    (s.elections i).down = if (s.elections i).optimistic = true ∧
      ¬ (i ∈ s.roots ∧ counts s i = true) then 1 else 0 := by
  have hpending := (hq.1 i hi).2
  have hturn := hq.2.2
  unfold Settled at h
  unfold counts Election.confirmed
  by_cases ho : (s.elections i).optimistic = true
  · cases hphase : (s.elections i).phase <;> simp_all
  · simp_all

theorem fair_exact (F : Fair s) (hq : Quiet s) (hlive : live s < 2^32) : Exact s := by
  rw [exact_iff_balanced F.known hq]
  refine ⟨hlive,?_⟩
  have hdowns : downs s = ended s := by
    rw [downs,ended,Finset.card_filter]
    apply Finset.sum_congr rfl
    intro i hi
    exact down_quiet hq (Finset.mem_range.mp hi) (F.settled i (Finset.mem_range.mp hi))
  rw [hdowns]

variable {t : State} {j : ℕ} {root : QualifiedRoot}

theorem Settled.frame (h : Settled s j) (he : t.elections j = s.elections j)
    (hturn : ∀ b, t.turn = some (j,b) ↔ s.turn = some (j,b))
    (hsub : j ∈ t.roots → j ∈ s.roots)
    (hkeep : j ∈ s.roots → Waiting (s.elections j) → j ∈ t.roots) : Settled t j := by
  unfold Settled at h ⊢
  unfold Waiting at hkeep
  simp only [he,ne_eq,hturn]
  by_cases ho : (s.elections j).optimistic = true
  · cases hphase : (s.elections j).phase with
    | expiredUnconfirmed =>
      simp only [ho,hphase] at h ⊢
      exact ⟨h.1,h.2.1,fun hn hr => h.2.2 hn (hsub hr)⟩
    | _ => simp_all
  · simpa [ho] using h

theorem modify_other (f : Election → Election) (hj : j ≠ i) :
    (modify s i f).elections j = s.elections j := by
  simp [modify,hj]

theorem modify_self (f : Election → Election) : (modify s i f).elections i = f (s.elections i) := by
  simp [modify]

section
variable (F : Fair s)
include F

theorem settled_modify (f : Election → Election) (hr : t.roots = s.roots)
    (hc : t.created = s.created) (he : t.elections = (modify s i f).elections)
    (hturn : ∀ j b, j ≠ i → (t.turn = some (j,b) ↔ s.turn = some (j,b)))
    (hi : i < s.created → Settled t i) : AllSettled t := by
  intro j hj
  rw [hc] at hj
  by_cases hji : j = i
  · subst hji
    exact hi hj
  · apply (F.settled j hj).frame
    · rw [he,modify_other f hji]
    · exact fun b => hturn j b hji
    · exact fun h => hr ▸ h
    · exact fun h _ => hr.symm ▸ h

theorem settled_remove {l : List ℕ} (hl : l.Sublist s.roots)
    (hw : ∀ i ∈ s.roots, i ∉ l → ¬ Waiting (s.elections i)) :
    AllSettled { s with roots := l } := by
  intro j hj
  refine (F.settled j hj).frame rfl (fun _ => Iff.rfl) (fun h => hl.subset h) ?_
  intro h hwait
  by_contra hn
  exact hw j h hn hwait

theorem settled_insert (root : QualifiedRoot) (optimistic recent : Bool) :
    AllSettled (insert s root optimistic recent) := by
  unfold insert
  split
  · exact F.settled
  · intro j hj
    rcases Nat.lt_succ_iff_lt_or_eq.mp hj with hlt | rfl
    · apply (F.settled j hlt).frame
      · exact update_of_ne hlt.ne _ _
      · exact fun _ => Iff.rfl
      · intro h
        rcases mem_append.mp h with h | h
        · exact h
        · exact absurd (mem_singleton.mp h) hlt.ne
      · exact fun h _ => mem_append_left _ h
    · have hturn : ∀ b, s.turn ≠ some (s.created,b) :=
        fun b h => absurd (F.known.turn _ b h) (lt_irrefl _)
      cases optimistic <;> simp [Settled,hturn]

theorem settled_inserted : AllSettled (inserted s i) := by
  unfold inserted
  split
  · exact F.settled
  · refine settled_modify F begun rfl rfl rfl (fun _ _ _ => Iff.rfl) ?_
    intro hi
    have h := F.settled i hi
    unfold Settled at h ⊢
    simp only [modify_self,begun]
    by_cases ho : (s.elections i).optimistic = true
    · cases hphase : (s.elections i).phase with
      | expiredUnconfirmed =>
        simp only [hphase] at h ⊢
        exact h
      | _ => simp_all [modify]
    · simp_all

theorem settled_confirmOnce {free : Bool} (hc : Careful s (.confirmOnce i free)) :
    AllSettled (confirmOnce s i free) := by
  refine settled_modify F _ rfl rfl rfl (fun _ _ _ => Iff.rfl) ?_
  intro hi
  have h := F.settled i hi
  unfold Careful at hc
  unfold Settled at h ⊢
  simp only [confirmOnce,modify_self]
  by_cases ho : (s.elections i).optimistic = true
  · cases hphase : (s.elections i).phase <;> simp_all
  · simp_all

theorem settled_callback : AllSettled (callback s i) := by
  unfold callback
  split
  · exact F.settled
  next hp =>
    refine settled_modify (i := i) F (fun e => { e with pending := e.pending-1, down := e.down+1 })
      rfl rfl (by simp [countDown,modify]) (fun _ _ _ => Iff.rfl) ?_
    intro hi
    have h := F.settled i hi
    unfold Settled at h ⊢
    simp only [countDown,modify_self]
    by_cases ho : (s.elections i).optimistic = true
    · cases hphase : (s.elections i).phase <;> simp_all <;> omega
    · simp_all

theorem settled_transitionTime (elapsed expired : Bool) :
    AllSettled (transitionTime s elapsed expired) := by
  unfold transitionTime
  split
  next i rest hnone hloop =>
    refine settled_modify F
      (fun e => { e with phase := (transition (s.elections i).phase elapsed expired).1 })
      rfl rfl rfl (fun j b hj => ?_) fun hi => ?_
    · rw [hnone]
      dsimp only
      split
      · exact iff_of_false (fun e => hj (Prod.mk.inj (Option.some.inj e)).1.symm) nofun
      · exact Iff.rfl
    · have h := F.settled i hi
      unfold Settled at h ⊢
      simp only [modify_self] at h ⊢
      by_cases ho : (s.elections i).optimistic = true
      · cases hphase : (s.elections i).phase <;> cases elapsed <;> cases expired <;>
          simp_all [transition,modify]
      · simp_all
  · exact F.settled

theorem settled_failed : AllSettled (failed s) := by
  unfold failed
  split
  next i hturn =>
    have hother : ∀ (j : ℕ) (b : Bool), j ≠ i →
        ((some (i,true) : Option (ℕ × Bool)) = some (j,b) ↔ s.turn = some (j,b)) := by
      intro j b hj
      rw [hturn]
      simp [hj.symm]
    dsimp only
    split
    next he =>
      refine settled_modify F (fun e => { e with down := e.down+1 }) rfl rfl rfl hother
        fun hi => ?_
      have h := F.settled i hi
      unfold Settled at h ⊢
      simp only [countDown,modify_self] at h ⊢
      simp_all
    next he =>
      refine settled_modify F id rfl rfl (by simp [modify]) hother fun hi => ?_
      have h := F.settled i hi
      unfold Settled at h ⊢
      simp only [hturn] at h ⊢
      by_cases ho : (s.elections i).optimistic = true
      · cases hphase : (s.elections i).phase <;> simp_all
      · simp_all
  · exact F.settled

end

theorem erase_removes (hi : i ∈ s.roots) (hn : i ∉ (erase s root).roots) :
    find s root = some i := by
  unfold erase at hn
  split at hn
  next j hj =>
    by_cases hji : j = i
    · exact hji ▸ hj
    · exact absurd ((mem_erase_of_ne (Ne.symm hji)).mpr hi) hn
  · exact absurd hi hn

theorem settled_erase (F : Fair s) (hc : ∀ i, find s root = some i → ¬ Waiting (s.elections i)) :
    AllSettled (erase s root) := by
  obtain ⟨he,hl⟩ := erase_sublist s root
  rw [he]
  exact settled_remove F hl fun i hi hn => hc i (erase_removes hi hn)

theorem not_mem_erase (K : Known s) (i : ℕ) : i ∉ (erase s (s.elections i).root).roots := by
  intro hi
  have hmem := (erase_sublist s _).2.subset hi
  cases hf : find s (s.elections i).root with
  | none => exact find_none hf hmem rfl
  | some j =>
    obtain ⟨hj,hroot⟩ := find_some hf
    obtain rfl := K.distinct j hj i hmem hroot
    rw [erase,hf] at hi
    exact K.nodup.not_mem_erase hi

theorem settled_finish (F : Fair s) (hc : Careful s .finish) :
    AllSettled (finish s) := by
  unfold finish
  split
  next i hturn =>
    have E := settled_erase F (fun j hj => hc (i,true) hturn rfl j hj)
    obtain ⟨he,-⟩ := erase_sublist s (s.elections i).root
    intro j hj
    have h := E j hj
    by_cases hji : j = i
    · subst hji
      have hout := not_mem_erase F.known j
      have hstate : (erase s (s.elections j).root).turn = some (j,true) := by rw [he,hturn]
      clear he E
      unfold Settled at h ⊢
      simp only [hstate] at h ⊢
      by_cases ho : ((erase s (s.elections j).root).elections j).optimistic = true
      · cases hphase : ((erase s (s.elections j).root).elections j).phase <;> simp_all
      · simp_all
    · refine h.frame rfl (fun b => ?_) id fun h _ => h
      rw [he,hturn]
      exact iff_of_false nofun fun e => hji (Prod.mk.inj (Option.some.inj e)).1.symm
  · exact F.settled

theorem act_fair (F : Fair s) {ev : Event} (hp : Possible s ev) (hc : Careful s ev) :
    Fair (act s ev) := by
  refine ⟨act_known F.known hp,?_⟩
  cases ev with
  | insert root optimistic recent => exact settled_insert F root optimistic recent
  | inserted i => exact settled_inserted F
  | confirmOnce i free => exact settled_confirmOnce F hc
  | callback i => exact settled_callback F
  | requestConfirm =>
    unfold act
    dsimp only
    split
    · exact F.settled
    · exact F.settled
  | transitionTime elapsed expired => exact settled_transitionTime F elapsed expired
  | failed => exact settled_failed F
  | finish => exact settled_finish F hc
  | erase root => exact settled_erase F hc
  | eraseOldest =>
    apply settled_remove F (tail_sublist _)
    intro i hi hn
    cases hr : s.roots with
    | nil => simp [hr] at hi
    | cons j rest =>
      rw [hr] at hi hn
      rcases mem_cons.mp hi with rfl | hi
      · exact hc i (by rw [hr]; rfl)
      · exact absurd hi hn

end

/-- In every run of careful steps, whenever no operation is in progress, the counter is the
number of unconfirmed optimistic elections in the container. In any run it is that number
exactly if as many elections have ended as have been counted down. -/
theorem optimistic_count_iff (h : Runs ms s) (hq : Quiet s) :
    ((∀ m ∈ ms, Careful m.1 m.2) → live s < 2^32 → Exact s) ∧ (Exact s ↔ Balanced s) := by
  refine ⟨fun hc hlive => ?_,exact_iff_balanced (runs_known h) hq⟩
  have F : Fair s := by
    apply h.good ⟨known_start,nofun⟩ _ hc
    intro t ev t' T hp ht hcare
    cases ht
    exact act_fair T hp hcare
  exact fair_exact F hq hlive

theorem runs_of_exec (evs : List Event) (c : List (State × Event) × State → Bool)
    (h : (Machine.exec (fun s ev => some (act s ev)) Possible {} evs).any
      (fun o => decide (Quiet o.2) && c o) = true) :
    ∃ ms s, Runs ms s ∧ Quiet s ∧ c (ms,s) = true := by
  obtain ⟨ms,s,hr,hs⟩ := Machine.exec_any h
  obtain ⟨hq,hc⟩ := and_eq_true_iff.mp hs
  exact ⟨ms,s,hr,of_decide_eq_true hq,hc⟩

def endingRun : List Event :=
  [.insert ⟨1,1⟩ true false,.confirmOnce 0 true,.callback 0,.inserted 0,.insert ⟨2,2⟩ true false,
    .inserted 1,.insert ⟨3,3⟩ true false,.inserted 2,.requestConfirm,.transitionTime false false,
    .transitionTime false true,.failed,.finish,.transitionTime false false]

theorem optimistic_count_iff_sample : ∃ ms s, Runs ms s ∧ Quiet s ∧ s.counter = 1 ∧
    (∀ m ∈ ms, Careful m.1 m.2) ∧ Exact s := by
  obtain ⟨ms,s,h,hq,hc⟩ := runs_of_exec endingRun (fun o => decide (o.2.counter = 1 ∧
    live o.2 < 2^32) && o.1.all fun m => decide (Careful m.1 m.2)) (by decide +kernel)
  obtain ⟨hvalues,hall⟩ := and_eq_true_iff.mp hc
  obtain ⟨hcounter,hlive⟩ := of_decide_eq_true hvalues
  have hcareful : ∀ m ∈ ms, Careful m.1 m.2 := fun m hm =>
    of_decide_eq_true (all_eq_true.mp hall m hm)
  exact ⟨ms,s,h,hq,hcounter,hcareful,(optimistic_count_iff h hq).1 hcareful hlive⟩

/-- An optimistic election is erased after a rollback: it is counted for good. -/
theorem erased_counts : ∃ ms s, Runs ms s ∧ Quiet s ∧ s.roots = [] ∧ s.counter = 1 ∧
    ¬ Exact s := by
  obtain ⟨ms,s,h,hq,hs⟩ := runs_of_exec [.insert ⟨1,1⟩ true false,.inserted 0,.erase ⟨1,1⟩]
    (fun o => decide (o.2.roots = [] ∧ o.2.counter = 1)) (by decide +kernel)
  obtain ⟨hroots,hcounter⟩ := of_decide_eq_true hs
  refine ⟨ms,s,h,hq,hroots,hcounter,?_⟩
  unfold Exact live
  rw [hroots,hcounter,countP_nil]
  decide
end Vxldollar.OptimisticCount
