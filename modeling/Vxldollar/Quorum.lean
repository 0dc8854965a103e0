import Vxldollar.Elections

/-!
# When an election confirms its winner

A call of `confirm_once` is sound if the winner leads by the quorum delta and
final votes of that weight stand behind it. The call relies on a tally that merges
equal amounts, on a final weight that the tally may have left from an earlier
winner, on votes that `remove_votes` may have erased, and on all this still being
true when the lock was given back in between. Runs that avoid the four are sound.
-/

namespace Vxldollar.Quorum
open Std Blocks Elections List Table Bool

@[mk_iff]
structure Leads (env : Environment) (e : Election) : Prop where
  winner : e.winner ∈ e.lastBlocks
  largest : ∀ h ∈ e.lastBlocks, blockWeight env.weight e.lastVotes h ≤
    blockWeight env.weight e.lastVotes e.winner
  margin : env.delta ≤ blockWeight env.weight e.lastVotes e.winner ∧ ∀ h ∈ e.lastBlocks,
    h ≠ e.winner → blockWeight env.weight e.lastVotes h+env.delta ≤
      blockWeight env.weight e.lastVotes e.winner

def Sound (s : State) : Prop := Leads s.env s.election ∧
  s.env.delta ≤ finalWeightOf s.env.weight s.election.lastVotes s.election.winner

def Traverses (s : State) (ev : Event) : Prop := ∀ order ∈ (record s ev).2,
  order.Perm (voted (record s ev).1.election.lastVotes)

/-- A block with votes that no block of the election outweighs. -/
@[mk_iff]
structure Foremost (s : State) (top : BlockHash) : Prop where
  block : top ∈ s.election.lastBlocks
  voted : top ∈ voted s.election.lastVotes
  largest : ∀ h ∈ s.election.lastBlocks, blockWeight s.env.weight s.election.lastVotes h ≤
    blockWeight s.env.weight s.election.lastVotes top

/-- What a call has to find of the foremost block: no other block has its weight, it has
a final vote or no final weight was left behind, and no vote for it is erased with the
votes for the previous winner. -/
@[mk_iff]
structure Clear (s : State) (top : BlockHash) : Prop where
  untied : ∀ h ∈ s.election.lastBlocks, h ≠ top →
    blockWeight s.env.weight s.election.lastVotes h ≠
      blockWeight s.env.weight s.election.lastVotes top
  fresh : hasFinal s.election.lastVotes top = true ∨ s.election.finalWeight = 0
  kept : s.env.voting = true → top ≠ s.election.winner →
    ∀ a ∈ s.env.generated s.election.winner,
      s.election.lastVotes[a]?.map VoteInfo.hash ≠ some top

/-- A section does not run while a call has given the lock back, except for the
rest of that call, and what a call finds is clear. -/
def Careful (s : State) (ev : Event) : Prop := (s.released ≠ 0 → ev = .resume) ∧
  ((record s ev).2.isSome = true → ∀ top ∈ (record s ev).1.election.lastBlocks,
    Foremost (record s ev).1 top → Clear (record s ev).1 top)

inductive Reaches (P : State → Event → Prop) : State → Prop
  | start (env : Environment) (now : ℕ) (hash : BlockHash) :
      Reaches P { env := env, election := .start env.null now hash }
  | step {s t : State} {ev : Event} {called : Bool} : Reaches P s → Traverses s ev → P s ev →
      step s ev = some (t,called) → Reaches P t

section
variable (env : Environment) (e : Election) (s : State) (ev : Event) (top : BlockHash)

instance : Decidable (Leads env e) := decidable_of_iff' _ (leads_iff env e)

instance : Decidable (Sound s) := inferInstanceAs (Decidable (_ ∧ _))

instance : Decidable (Traverses s ev) := inferInstanceAs (Decidable (∀ _ ∈ (record s ev).2, _))

instance : Decidable (Foremost s top) := decidable_of_iff' _ (foremost_iff s top)

instance : Decidable (Clear s top) := decidable_of_iff' _ (clear_iff s top)

end

section
variable {w : Account → ℕ} {votes : Votes} {blocks order : List BlockHash} {h : BlockHash}

abbrev Descending (l : List (ℕ × BlockHash)) : Prop := l.Pairwise (fun x y => y.1 < x.1)

variable {l : List (ℕ × BlockHash)} {a : ℕ}

theorem mem_emplace {x : ℕ × BlockHash} (hx : x ∈ emplace l a h) : x = (a,h) ∨ x ∈ l := by
  induction l with
  | nil => exact .inl (mem_singleton.mp hx)
  | cons y l ih =>
    rw [emplace] at hx
    split_ifs at hx
    · exact .inr hx
    · exact mem_cons.mp hx
    · rcases mem_cons.mp hx with rfl | hx
      · exact .inr mem_cons_self
      · exact (ih hx).imp_right (mem_cons_of_mem _)

theorem emplace_descending (hl : Descending l) : Descending (emplace l a h) := by
  induction l with
  | nil => exact pairwise_singleton _ _
  | cons y l ih =>
    obtain ⟨hy,hl'⟩ := pairwise_cons.mp hl
    rw [emplace]
    split_ifs with he hlt
    · exact hl
    · refine pairwise_cons.mpr ⟨fun x hx => ?_,hl⟩
      rcases mem_cons.mp hx with rfl | hx
      · exact hlt
      · exact (hy x hx).trans hlt
    · refine pairwise_cons.mpr ⟨fun x hx => ?_,ih hl'⟩
      rcases mem_emplace hx with rfl | hx
      · show a < y.1
        omega
      · exact hy x hx

theorem emplace_amount {a b : ℕ} :
    b ∈ (emplace l a h).map Prod.fst ↔ b = a ∨ b ∈ l.map Prod.fst := by
  induction l with
  | nil => simp [emplace]
  | cons y l ih =>
    obtain ⟨c,g⟩ := y
    rw [emplace]
    split_ifs with he hlt
    · subst he
      simp
    · simp
    · rw [map_cons,mem_cons,ih,map_cons,mem_cons]
      grind

/-- The tally lists the amounts of the blocks that have votes, each once. -/
structure Tallied (w : Account → ℕ) (votes : Votes) (blocks order : List BlockHash)
    (t : List (ℕ × BlockHash)) : Prop where
  descending : Descending t
  entry : ∀ x ∈ t, x.2 ∈ blocks ∧ x.1 = blockWeight w votes x.2
  listed : ∀ x ∈ t, x.2 ∈ order
  amount : ∀ h ∈ order, h ∈ blocks → blockWeight w votes h ∈ t.map Prod.fst

variable (w votes blocks order) in
theorem tallied_tallyOf : Tallied w votes blocks order (tallyOf w votes blocks order) := by
  induction order using reverseRecOn with
  | nil => exact ⟨Pairwise.nil,nofun,nofun,nofun⟩
  | append_singleton order h ih =>
    rw [tallyOf,foldl_append,foldl_cons,foldl_nil]
    show Tallied w votes blocks (order++[h]) (if h ∈ blocks then
      emplace (tallyOf w votes blocks order) _ h else tallyOf w votes blocks order)
    split_ifs with hb
    · refine ⟨emplace_descending ih.descending,fun x hx => ?_,fun x hx => ?_,fun g hg hgb => ?_⟩
      · rcases mem_emplace hx with rfl | hx
        · exact ⟨hb,rfl⟩
        · exact ih.entry x hx
      · rcases mem_emplace hx with rfl | hx
        · exact mem_append_right _ (mem_singleton.mpr rfl)
        · exact mem_append_left _ (ih.listed x hx)
      · rw [emplace_amount]
        rcases mem_append.mp hg with hg | hg
        · exact .inr (ih.amount g hg hgb)
        · exact .inl (by rw [mem_singleton.mp hg])
    · refine ⟨ih.descending,ih.entry,fun x hx => mem_append_left _ (ih.listed x hx),
        fun g hg hgb => ?_⟩
      rcases mem_append.mp hg with hg | hg
      · exact ih.amount g hg hgb
      · exact absurd (mem_singleton.mp hg ▸ hgb) hb

theorem unvoted_weight (hv : h ∉ voted votes) : blockWeight w votes h = 0 := by
  apply sum_eq_zero
  intro x hx
  obtain ⟨e,he,rfl⟩ := mem_map.mp hx
  have hne : e.2.hash ≠ h := by
    rintro rfl
    exact hv (mem_dedup.mpr (mem_map_of_mem he))
  exact if_neg hne

theorem tallied_foremost {env : Environment} {top : BlockHash} {rest : List (ℕ × BlockHash)}
    (T : Tallied env.weight votes blocks order ((a,top)::rest)) (ho : order.Perm (voted votes)) :
    top ∈ blocks ∧ top ∈ voted votes ∧
      ∀ h ∈ blocks, blockWeight env.weight votes h ≤ blockWeight env.weight votes top := by
  obtain ⟨htop,ha⟩ := T.entry _ mem_cons_self
  refine ⟨htop,ho.mem_iff.mp (T.listed _ mem_cons_self),fun h hb => ?_⟩
  by_cases hv : h ∈ voted votes
  · obtain ⟨x,hx,he⟩ := mem_map.mp (T.amount h (ho.mem_iff.mpr hv) hb)
    rw [← he,← ha]
    rcases mem_cons.mp hx with rfl | hx
    · exact Nat.le_refl _
    · exact ((pairwise_cons.mp T.descending).1 x hx).le
  · rw [unvoted_weight hv]
    exact Nat.zero_le _

/-- With a quorum the first block leads the others, if none of them has the same
amount. -/
theorem tallied_leads {env : Environment} {top : BlockHash} {rest : List (ℕ × BlockHash)}
    (T : Tallied env.weight votes blocks order ((a,top)::rest)) (ho : order.Perm (voted votes))
    (hq : haveQuorum env ((a,top)::rest) = true)
    (hu : ∀ h ∈ blocks, h ≠ top →
      blockWeight env.weight votes h ≠ blockWeight env.weight votes top) :
    env.delta ≤ blockWeight env.weight votes top ∧ ∀ h ∈ blocks, h ≠ top →
      blockWeight env.weight votes h+env.delta ≤ blockWeight env.weight votes top := by
  have ha : a = blockWeight env.weight votes top := (T.entry _ mem_cons_self).2
  have hbound : env.delta ≤ a ∧ ∀ x ∈ rest, x.1+env.delta ≤ a := by
    cases rest with
    | nil => exact ⟨of_decide_eq_true hq,nofun⟩
    | cons y rest =>
      have hle : env.delta ≤ a-y.1 := of_decide_eq_true hq
      obtain ⟨hlt,hd⟩ := pairwise_cons.mp T.descending
      have hy : y.1 < a := hlt y mem_cons_self
      refine ⟨by omega,fun x hx => ?_⟩
      rcases mem_cons.mp hx with rfl | hx
      · omega
      · have := (pairwise_cons.mp hd).1 x hx
        omega
  rw [← ha]
  refine ⟨hbound.1,fun h hb hne => ?_⟩
  by_cases hv : h ∈ voted votes
  · obtain ⟨x,hx,he⟩ := mem_map.mp (T.amount h (ho.mem_iff.mpr hv) hb)
    rcases mem_cons.mp hx with rfl | hx
    · exact absurd (he.symm.trans ha) (hu h hb hne)
    · rw [← he]
      exact hbound.2 x hx
  · rw [unvoted_weight hv]
    omega

end

section
variable {f : Account → VoteInfo → ℕ} {votes : Votes}

theorem total_erased_le (accounts : List Account) (votes : Votes) :
    total f (accounts.foldl (fun v a => v.erase a) votes) ≤ total f votes := by
  induction accounts generalizing votes with
  | nil => exact Nat.le_refl _
  | cons a accounts ih => exact (ih (votes.erase a)).trans (total_erase_le f votes a)

theorem total_erased_zero {accounts : List Account}
    (h : ∀ a ∈ accounts, ∀ i : VoteInfo, votes[a]? = some i → f a i = 0) :
    total f (accounts.foldl (fun v a => v.erase a) votes) = total f votes := by
  induction accounts generalizing votes with
  | nil => rfl
  | cons a accounts ih =>
    rw [foldl_cons,ih,total_erase_zero f votes a (h a mem_cons_self)]
    intro b hb i hi
    rw [get_erase] at hi
    split_ifs at hi
    exact h b (mem_cons_of_mem _ hb) i hi

end

section
variable {s t u : State} {order : List BlockHash} {top old : BlockHash}

structure Ready (env : Environment) (e : Election) : Prop where
  leads : Leads env e
  final : e.finalWeight = finalWeightOf env.weight e.lastVotes e.winner

theorem decideFinal_sound (hr : Ready s.env s.election) (hc : s.env.canary = true)
    (hd : decideFinal s = (t,true)) : Sound t := by
  unfold decideFinal at hd
  split_ifs at hd with hq
  · cases hd
    rw [hc,Bool.not_true,Bool.false_or] at hq
    have hle := of_decide_eq_true hq
    rw [hr.final] at hle
    exact ⟨⟨hr.leads.winner,hr.leads.largest,hr.leads.margin⟩,hle⟩
  · cases (Prod.mk.inj hd).2

theorem removeVotes_ready (hr : Ready s.env s.election)
    (hk : s.env.voting = true → ∀ a ∈ s.env.generated old,
      s.election.lastVotes[a]?.map VoteInfo.hash ≠ some s.election.winner) :
    Ready (removeVotes s old).env (removeVotes s old).election := by
  unfold removeVotes
  split_ifs with hv
  · have hwinner : ∀ (p : VoteInfo → Prop) [DecidablePred p],
        total (fun a i => if i.hash = s.election.winner ∧ p i then s.env.weight a else 0)
          ((s.env.generated old).foldl (fun v a => v.erase a) s.election.lastVotes) =
        total (fun a i => if i.hash = s.election.winner ∧ p i then s.env.weight a else 0)
          s.election.lastVotes := by
      intro p _
      apply total_erased_zero
      intro a ha i hi
      refine if_neg fun h => hk hv a ha ?_
      rw [hi,Option.map_some,h.1]
    have hweight : blockWeight s.env.weight
        ((s.env.generated old).foldl (fun v a => v.erase a) s.election.lastVotes)
        s.election.winner = blockWeight s.env.weight s.election.lastVotes s.election.winner := by
      simpa [blockWeight] using hwinner (fun _ => True)
    have hle := fun h => total_erased_le (f := fun a i => if i.hash = h then s.env.weight a else 0)
      (s.env.generated old) s.election.lastVotes
    refine ⟨⟨hr.leads.winner,fun h hb => ?_,?_,fun h hb hne => ?_⟩,?_⟩
    · exact ((hle h).trans (hr.leads.largest h hb)).trans_eq hweight.symm
    · exact hr.leads.margin.1.trans_eq hweight.symm
    · exact (Nat.add_le_add_right (hle h) _).trans
        ((hr.leads.margin.2 h hb hne).trans_eq hweight.symm)
    · exact hr.final.trans (hwinner _).symm
  · exact hr

theorem unfinal_weight {w : Account → ℕ} {votes : Votes} (h : ¬ hasFinal votes top = true) :
    finalWeightOf w votes top = 0 := by
  apply sum_eq_zero
  intro x hx
  obtain ⟨e,he,rfl⟩ := mem_map.mp hx
  refine if_neg fun hf => h ?_
  exact any_eq_true.mpr ⟨e,he,decide_eq_true hf⟩

theorem Clear.refreshed (hc : Clear s top) (a : ℕ) (rest : List (ℕ × BlockHash)) :
    refreshFinal s.env.weight s.election ((a,top)::rest) =
      finalWeightOf s.env.weight s.election.lastVotes top := by
  dsimp only [refreshFinal]
  split_ifs with hf
  · rfl
  · exact (hc.fresh.resolve_left hf).trans (unfinal_weight hf).symm

/-- The state in which a call with a clear tally decides. -/
theorem clear_ready {a : ℕ} {rest : List (ℕ × BlockHash)}
    (ho : order.Perm (voted s.election.lastVotes))
    (ht : tallyOf s.env.weight s.election.lastVotes s.election.lastBlocks order = (a,top)::rest)
    (hc : Clear s top) (hq : haveQuorum s.env ((a,top)::rest) = true)
    (hu : u = changeWinner { s with
      election := (tallyImpl s.env.weight s.election order).2 } ((a,top)::rest) top) :
    Ready u.env u.election := by
  have T := ht ▸ tallied_tallyOf s.env.weight s.election.lastVotes s.election.lastBlocks order
  obtain ⟨hdelta,hmargin⟩ := tallied_leads T ho hq hc.untied
  obtain ⟨htop,-,hlead⟩ := tallied_foremost T ho
  have hfresh := hc.refreshed a rest
  rw [tallyImpl,ht] at hu
  rw [changeWinner] at hu
  split_ifs at hu with hw
  · rw [hu]
    apply removeVotes_ready
    · exact ⟨⟨htop,hlead,hdelta,hmargin⟩,hfresh⟩
    · intro hv
      exact hc.kept hv hw.2
  · -- with a quorum enough weight has voted, so the first block is the winner
    have hsame : top = s.election.winner := by
      by_contra hne
      apply hw
      refine ⟨?_,hne⟩
      have ha : a = blockWeight s.env.weight s.election.lastVotes top :=
        (T.entry _ mem_cons_self).2
      show s.env.delta ≤ _
      rw [map_cons,sum_cons]
      omega
    subst hsame
    rw [hu]
    exact ⟨⟨htop,hlead,hdelta,hmargin⟩,hfresh⟩

theorem decideFinal_rest (s : State) : (decideFinal s).1.env = s.env ∧
    (decideFinal s).1.released = s.released := by
  unfold decideFinal
  split_ifs <;> exact ⟨rfl,rfl⟩

theorem changeWinner_rest (s : State) (tally : List (ℕ × BlockHash)) (top : BlockHash) :
    (changeWinner s tally top).released = s.released ∧
    (changeWinner s tally top).env.delta = s.env.delta := by
  unfold changeWinner removeVotes
  split_ifs <;> exact ⟨rfl,rfl⟩

theorem haveQuorum_congr {env env' : Environment} (h : env'.delta = env.delta)
    (tally : List (ℕ × BlockHash)) : haveQuorum env' tally = haveQuorum env tally := by
  unfold haveQuorum
  rw [h]

theorem confirm_clear {called : Bool} (ho : order.Perm (voted s.election.lastVotes))
    (hc : ∀ top ∈ s.election.lastBlocks, Foremost s top → Clear s top)
    (h : confirmIfQuorum s order = some (t,called)) :
    (called = true → t.env.canary = true → Sound t) ∧
    (t.released = s.released ∨ t.released = s.released+1 ∧ Ready t.env t.election) := by
  unfold confirmIfQuorum at h
  cases ht : tallyOf s.env.weight s.election.lastVotes s.election.lastBlocks order with
  | nil => simp [tallyImpl,ht] at h
  | cons x rest =>
    obtain ⟨a,top⟩ := x
    simp only [tallyImpl,ht] at h
    generalize hu : changeWinner _ ((a,top)::rest) top = u at h
    obtain ⟨hreleased,hdelta⟩ : u.released = s.released ∧ u.env.delta = s.env.delta :=
      hu ▸ changeWinner_rest _ _ _
    by_cases hq : haveQuorum u.env ((a,top)::rest) = true
    · have hready : Ready u.env u.election := by
        obtain ⟨htop,hvoted,hlead⟩ := tallied_foremost (ht ▸ tallied_tallyOf _ _ _ order) ho
        apply clear_ready ho ht (hc top htop ⟨htop,hvoted,hlead⟩)
        · rwa [← haveQuorum_congr hdelta]
        · rw [← hu,tallyImpl,ht]
      have hready' : Ready u.env { u.election with isQuorum := true } :=
        ⟨⟨hready.leads.winner,hready.leads.largest,hready.leads.margin⟩,hready.final⟩
      rw [if_pos hq] at h
      split_ifs at h with hcanary hask
      · cases h
        exact ⟨nofun,Or.inr ⟨congrArg (·+1) hreleased,hready'⟩⟩
      · have hd := Option.some.inj h
        have hr : t.released = s.released := by
          rw [← hreleased]
          exact congrArg (fun x => x.1.released) hd ▸ (decideFinal_rest _).2
        refine ⟨?_,Or.inl hr⟩
        rintro rfl -
        exact decideFinal_sound (s := { u with election.isQuorum := true }) hready' hcanary hd
      · have hd := Option.some.inj h
        obtain ⟨he,hr⟩ := hd ▸ decideFinal_rest u
        refine ⟨fun _ hcan => ?_,Or.inl (hr.trans hreleased)⟩
        rw [he] at hcan
        exact absurd hcan hcanary
    · rw [if_neg hq] at h
      cases h
      exact ⟨nofun,Or.inl hreleased⟩

end

section
variable {s t : State} {ev : Event}

/-- At most one call has given the lock back, and it is ready to decide. -/
def Waiting (s : State) : Prop := s.released = 0 ∨ s.released = 1 ∧ Ready s.env s.election

theorem record_released (s : State) (ev : Event) : (record s ev).1.released = s.released := by
  cases ev <;> simp only [record] <;> split_ifs <;> rfl

theorem step_careful {called : Bool} (I : Waiting s) (ht : Traverses s ev) (hc : Careful s ev)
    (hs : step s ev = some (t,called)) :
    Waiting t ∧ (called = true → t.env.canary = true → Sound t) := by
  by_cases he : ev = .resume
  · subst he
    rw [step] at hs
    rcases I with h0 | ⟨h1,hready⟩
    · rw [if_pos h0] at hs
      cases hs
      exact ⟨.inl h0,(by rintro ⟨⟩)⟩
    · rw [if_neg (by omega)] at hs
      have hd := Option.some.inj hs
      obtain ⟨henv,hr⟩ := hd ▸ decideFinal_rest { s with released := s.released-1 }
      refine ⟨.inl (by rw [hr,h1]),?_⟩
      rintro rfl hcan
      exact decideFinal_sound (s := { s with released := s.released-1 }) hready (henv ▸ hcan) hd
  · -- no other section runs while the lock is given back
    have h0 : s.released = 0 := by
      by_contra h
      exact he (hc.1 h)
    have hr := record_released s ev
    have hclear := hc.2
    rw [step_record he] at hs
    unfold Traverses at ht
    generalize record s ev = u at ht hclear hr hs
    obtain ⟨u,order⟩ := u
    cases order with
    | none =>
      cases hs
      exact ⟨.inl (hr.trans h0),(by rintro ⟨⟩)⟩
    | some order =>
      obtain ⟨hsound,hrel⟩ := confirm_clear (ht order rfl) (hclear rfl) hs
      refine ⟨?_,hsound⟩
      rcases hrel with hrel | ⟨hrel,hready⟩
      · exact .inl (hrel.trans (hr.trans h0))
      · refine .inr ⟨?_,hready⟩
        rw [hrel,hr,h0]

theorem reaches_waiting (h : Reaches Careful s) : Waiting s := by
  induction h with
  | start => exact .inl rfl
  | step _ ht hc hs ih => exact (step_careful ih ht hc hs).1

end

/-- In a run of careful sections every call of `confirm_once` is sound. -/
theorem quorum_sound {s t : State} {ev : Event} (h : Reaches Careful s) (ht : Traverses s ev)
    (hc : Careful s ev) (hs : step s ev = some (t,true)) (hcanary : t.env.canary = true) :
    Sound t :=
  (step_careful (reaches_waiting h) ht hc hs).2 rfl hcanary

variable {s : State}

def run : State → List Event → Option (State × Bool)
  | s,[] => some (s,false)
  | s,[ev] => if Traverses s ev then step s ev else none
  | s,ev::evs => if Traverses s ev then (step s ev).bind (fun x => run x.1 evs) else none

variable {evs : List Event}

theorem run_calls {t : State} (hs : Reaches (fun _ _ => True) s) (hr : run s evs = some (t,true)) :
    ∃ u ev, Reaches (fun _ _ => True) u ∧ Traverses u ev ∧ step u ev = some (t,true) := by
  induction evs generalizing s with
  | nil => cases hr
  | cons ev evs ih =>
    cases evs with
    | nil =>
      rw [run] at hr
      split_ifs at hr with ht
      exact ⟨s,ev,hs,ht,hr⟩
    | cons ev' evs =>
      rw [run] at hr
      · split_ifs at hr with ht
        obtain ⟨⟨u,called⟩,hu,hr⟩ := Option.bind_eq_some_iff.mp hr
        exact ih (hs.step ht trivial hu) hr
      · exact nofun

def sampleEnvironment : Environment where
  null := 0
  weight := fun a => if a = 1 then 100 else if a = 2 then 60 else if a = 3 then 100 else 0
  delta := 67
  trended := 0
  canary := true
  voting := false
  devNetwork := true
  generated := fun _ => []

def sampleElection (env : Environment) : State := { env := env, election := .start env.null 0 10 }

theorem quorum_sound_sample : ∃ t, Reaches Careful (sampleElection sampleEnvironment) ∧
    step (sampleElection sampleEnvironment) (.vote 1 1 timestampMax 10 [10]) = some (t,true) ∧
    Sound t := by
  have hcall : (step (sampleElection sampleEnvironment) (.vote 1 1 timestampMax 10 [10])).any
      (fun o => o.2 && o.1.env.canary) = true := by decide +kernel
  have hcareful : Careful (sampleElection sampleEnvironment) (.vote 1 1 timestampMax 10 [10]) :=
    ⟨fun h => absurd rfl h,by decide +kernel⟩
  obtain ⟨⟨t,called⟩,ht,hcanary⟩ := (Option.any_eq_true _ _).mp hcall
  obtain ⟨rfl,hcanary⟩ : called = true ∧ t.env.canary = true := (and_eq_true_iff).mp hcanary
  exact ⟨t,.start _ 0 10,ht,quorum_sound (.start _ 0 10) (by decide +kernel) hcareful ht hcanary⟩

def staleRun : List Event :=
  [.environment { sampleEnvironment with
      weight := fun a => if a = 1 then 100 else if a = 2 then 60 else 0 },
    .insertBlock 11,.vote 1 2 5 11 [10,11],.vote 2 1 timestampMax 10 [10,11],
    .environment { sampleEnvironment with
      weight := fun a => if a = 2 then 60 else if a = 3 then 100 else 0 },
    .vote 3 3 5 11 [10,11]]

def tiedRun : List Event :=
  [.insertBlock 11,.vote 1 3 5 11 [10,11],.vote 2 1 timestampMax 10 [10,11]]

def erasedRun : List Event :=
  [.environment { sampleEnvironment with
      voting := true
      generated := fun _ => [1] },
    .insertBlock 11,.vote 1 1 timestampMax 11 [10,11],.resume]

def releasedRun : List Event :=
  [.environment { sampleEnvironment with voting := true },.vote 1 1 timestampMax 10 [10],
    .environment { sampleEnvironment with weight := fun _ => 0 },.resume]

def Misleads (evs : List Event) : Prop :=
  ∃ s t ev, run (sampleElection sampleEnvironment) evs = some (t,true) ∧
    Reaches (fun _ _ => True) s ∧ Traverses s ev ∧ step s ev = some (t,true) ∧
    t.env.canary = true ∧ ¬ Sound t

theorem misleads_of_run (hrun : (run (sampleElection sampleEnvironment) evs).any
      (fun o => o.2 && o.1.env.canary && !decide (Sound o.1)) = true) : Misleads evs := by
  obtain ⟨⟨t,called⟩,ht,h⟩ := (Option.any_eq_true _ _).mp hrun
  simp only [and_eq_true,not_eq_true',decide_eq_false_iff_not] at h
  obtain ⟨⟨rfl,hcanary⟩,hsound⟩ := h
  obtain ⟨s,ev,hs,htr,hstep⟩ := run_calls (.start sampleEnvironment 0 10) ht
  exact ⟨s,t,ev,ht,hs,htr,hstep,hcanary,hsound⟩

/-- Each of the four ways leads to an unsound call. -/
theorem quorum_unsound :
    Misleads staleRun ∧ Misleads tiedRun ∧ Misleads erasedRun ∧ Misleads releasedRun := by
  refine ⟨?_,?_,?_,?_⟩ <;> exact misleads_of_run (by decide +kernel)

end Vxldollar.Quorum
