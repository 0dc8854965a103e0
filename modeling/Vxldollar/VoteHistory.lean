import Vxldollar.Voting

/-!
# What the local vote history keeps

The two vote generators add votes to one history, and an ended election erases its root. As
long as the cache is not exceeded, a root keeps votes for the hash it was added with last,
one for each account, and none older than another vote of the account.
-/

namespace Vxldollar.VoteHistory
open Blocks Voting List

inductive Call
  | add (root : Root) (hash : BlockHash) (vote : Vote)
  | erase (root : Root)

def call (maxCache : ℕ) (history : List LocalVote) : Call → List LocalVote
  | .add root hash vote => historyAdd maxCache history root hash vote
  | .erase root => historyErase history root

def run (maxCache : ℕ) (calls : List Call) : List LocalVote := calls.foldl (call maxCache) []

/-- The hash of the last `add` for a root since its last `erase`, with the votes added for it
since the entries of the root were last cleared, newest first. -/
def note (root : Root) (noted : Option (BlockHash × List Vote)) :
    Call → Option (BlockHash × List Vote)
  | .add r hash vote =>
    if r = root then
      match noted with
      | some (h,votes) => some (hash,if h = hash then vote :: votes else [vote])
      | none => some (hash,[vote])
    else noted
  | .erase r => if r = root then none else noted

def added (root : Root) (calls : List Call) : Option (BlockHash × List Vote) :=
  calls.foldl (note root) none

def entries (history : List LocalVote) (root : Root) : List LocalVote :=
  history.filter (fun e => e.root = root)

/-- The entries of a root against the votes noted for it. -/
structure Consistent (entries : List LocalVote) (noted : Option (BlockHash × List Vote)) :
    Prop where
  latest : ∀ e ∈ entries, ∃ votes, noted = some (e.hash,votes) ∧ e.vote ∈ votes ∧
    ∀ v ∈ votes, v.account = e.vote.account → v.timestamp ≤ e.vote.timestamp
  unique : (entries.map (fun e => e.vote.account)).Nodup
  stored : ∀ hash votes, noted = some (hash,votes) → ∀ v ∈ votes,
    ∃ e ∈ entries, e.vote.account = v.account

variable {maxCache : ℕ} {history : List LocalVote} {root r : Root} {hash : BlockHash}
  {vote : Vote} {noted : Option (BlockHash × List Vote)} {es : List LocalVote}

def addEntry (root : Root) (hash : BlockHash) (vote : Vote) (es : List LocalVote) :
    List LocalVote :=
  let kept := es.filter (fun e => e.hash = hash ∧
    ¬ (vote.account = e.vote.account ∧ e.vote.timestamp ≤ vote.timestamp))
  if kept.any (fun e => vote.account = e.vote.account) then kept else kept++[⟨root,hash,vote⟩]

theorem entries_erase :
    entries (historyErase history r) root = if r = root then [] else entries history root := by
  unfold entries historyErase
  rw [filter_filter]
  split_ifs with h
  · apply filter_eq_nil_iff.mpr
    simp [h]
  · apply filter_congr
    grind

theorem entries_add (hmax : history.length ≤ maxCache) :
    entries (historyAdd maxCache history r hash vote) root =
      if r = root then addEntry r hash vote (entries history root) else entries history root := by
  have hclean : historyClean maxCache history = history := by
    rw [historyClean,Nat.sub_eq_zero_of_le hmax,drop_zero]
  unfold historyAdd addEntry entries
  rw [hclean]
  by_cases hr : r = root
  · subst hr
    have hkept : (history.filter (fun e => ¬ (e.root = r ∧ (e.hash ≠ hash ∨
        (vote.account = e.vote.account ∧ e.vote.timestamp ≤ vote.timestamp))))).filter
          (fun e => e.root = r) =
        (history.filter (fun e => e.root = r)).filter (fun e => e.hash = hash ∧
          ¬ (vote.account = e.vote.account ∧ e.vote.timestamp ≤ vote.timestamp)) := by
      rw [filter_filter,filter_filter]
      apply filter_congr
      grind
    simp only [if_true,apply_ite (filter _),filter_append,hkept]
    congr 1
    · simp only [any_eq_true]
      grind
    · simp
  · have hkept : (history.filter (fun e => ¬ (e.root = r ∧ (e.hash ≠ hash ∨
        (vote.account = e.vote.account ∧ e.vote.timestamp ≤ vote.timestamp))))).filter
          (fun e => e.root = root) = history.filter (fun e => e.root = root) := by
      rw [filter_filter]
      apply filter_congr
      grind
    rw [if_neg hr,apply_ite (filter _),filter_append,hkept,
      filter_cons_of_neg (by simpa using hr),filter_nil,append_nil,ite_self]

variable (root vote) in
theorem note_add (h : Consistent es noted) : ∃ prior,
    note root noted (.add root hash vote) = some (hash,vote :: prior) ∧
    (prior = [] ∨ noted = some (hash,prior)) ∧
    ∀ e ∈ es, e.hash = hash → noted = some (hash,prior) := by
  cases noted with
  | none =>
    refine ⟨[],by simp [note],.inl rfl,fun e he _ => ?_⟩
    obtain ⟨votes,hv,-⟩ := h.latest e he
    cases hv
  | some n =>
    obtain ⟨h₀,votes⟩ := n
    by_cases hh : h₀ = hash
    · subst hh
      exact ⟨votes,by simp [note],.inr rfl,fun _ _ _ => rfl⟩
    · refine ⟨[],by simp [note,hh],.inl rfl,fun e he hhash => ?_⟩
      obtain ⟨votes',hv,-⟩ := h.latest e he
      cases hv
      exact absurd hhash hh

theorem addEntry_consistent (h : Consistent es noted) :
    Consistent (addEntry root hash vote es) (note root noted (.add root hash vote)) := by
  obtain ⟨prior,hnote,hprior,hsame⟩ := note_add root vote h
  rw [hnote]
  unfold addEntry
  generalize hk : es.filter (fun e => e.hash = hash ∧
    ¬ (vote.account = e.vote.account ∧ e.vote.timestamp ≤ vote.timestamp)) = kept
  have hkept : ∀ e, e ∈ kept ↔ e ∈ es ∧ e.hash = hash ∧
      ¬ (vote.account = e.vote.account ∧ e.vote.timestamp ≤ vote.timestamp) := by
    intro e
    rw [← hk,mem_filter,decide_eq_true_eq]
  have hunique : (kept.map (fun e => e.vote.account)).Nodup := by
    rw [← hk]
    exact h.unique.sublist (filter_sublist.map _)
  generalize hR : (if kept.any (fun e => vote.account = e.vote.account) then kept
    else kept++[⟨root,hash,vote⟩]) = result
  have hmem : ∀ e, e ∈ result ↔ e ∈ kept ∨
      e = ⟨root,hash,vote⟩ ∧ ∀ g ∈ kept, vote.account ≠ g.vote.account := by
    intro e
    rw [← hR]
    split_ifs with hany
    · obtain ⟨g,hg,hga⟩ := any_eq_true.mp hany
      exact (or_iff_left (fun hf => hf.2 g hg (of_decide_eq_true hga))).symm
    · have hfree : ∀ g ∈ kept, vote.account ≠ g.vote.account := fun g hg ha =>
        hany (any_eq_true.mpr ⟨g,hg,decide_eq_true ha⟩)
      simp [and_iff_left hfree]
  have hvote : ∃ e ∈ result, e.vote.account = vote.account := by
    by_cases hfree : ∀ g ∈ kept, vote.account ≠ g.vote.account
    · exact ⟨_,(hmem _).mpr (.inr ⟨rfl,hfree⟩),rfl⟩
    · push Not at hfree
      obtain ⟨g,hg,hga⟩ := hfree
      exact ⟨g,(hmem g).mpr (.inl hg),hga.symm⟩
  -- an older vote has its entry, which the new vote may have replaced
  have hentry : ∀ v ∈ prior, ∃ e ∈ es, e.vote.account = v.account ∧ e.hash = hash ∧
      v.timestamp ≤ e.vote.timestamp := by
    intro v hv
    have hn := hprior.resolve_left (fun e => not_mem_nil (e ▸ hv))
    obtain ⟨e,he,ha⟩ := h.stored hash prior hn v hv
    obtain ⟨votes,hvotes,-,hmax⟩ := h.latest e he
    cases hn.symm.trans hvotes
    exact ⟨e,he,ha,rfl,hmax v hv ha.symm⟩
  refine ⟨fun e he => ?_,?_,?_⟩
  · rcases (hmem e).mp he with he | ⟨rfl,hfree⟩
    · obtain ⟨hes,rfl,hnew⟩ := (hkept e).mp he
      obtain ⟨votes,hv,hin,hmax⟩ := h.latest e hes
      cases (hsame e hes rfl).symm.trans hv
      refine ⟨_,rfl,mem_cons_of_mem _ hin,fun v hv ha => ?_⟩
      rcases mem_cons.mp hv with rfl | hv
      · exact BitVec.le_of_lt (BitVec.not_le.mp (fun hle => hnew ⟨ha,hle⟩))
      · exact hmax v hv ha
    · refine ⟨_,rfl,mem_cons_self,fun v hv ha => ?_⟩
      rcases mem_cons.mp hv with rfl | hv
      · exact BitVec.le_refl _
      · obtain ⟨e,hes,hea,hhash,hle⟩ := hentry v hv
        by_contra hgt
        refine hfree e ((hkept e).mpr ⟨hes,hhash,fun hold => ?_⟩) (by rw [hea,ha])
        exact hgt (BitVec.le_trans hle hold.2)
  · rw [← hR]
    split_ifs with hany
    · exact hunique
    · rw [map_append,map_singleton,nodup_append]
      refine ⟨hunique,nodup_singleton _,fun a ha b hb => ?_⟩
      obtain ⟨e,he,rfl⟩ := mem_map.mp ha
      obtain rfl := mem_singleton.mp hb
      rintro ha
      exact hany (any_eq_true.mpr ⟨e,he,decide_eq_true ha.symm⟩)
  · rintro _ _ ⟨⟩ v hv
    rcases mem_cons.mp hv with rfl | hv
    · exact hvote
    · obtain ⟨e,he,ha,hhash,-⟩ := hentry v hv
      by_cases hv' : vote.account = e.vote.account
      · exact ⟨hvote.choose,hvote.choose_spec.1,hvote.choose_spec.2.trans (hv'.trans ha)⟩
      · exact ⟨e,(hmem e).mpr (.inl ((hkept e).mpr ⟨he,hhash,fun h => hv' h.1⟩)),ha⟩

/-- After every call: the entries of a root carry the hash of its last `add`, have one vote for
each account, and this is a latest one of those added since the root was cleared. -/
theorem run_consistent (calls : List Call)
    (hmax : ∀ p ∈ calls.inits, (run maxCache p).length ≤ maxCache) (root : Root) :
    Consistent (entries (run maxCache calls) root) (added root calls) := by
  induction calls using reverseRecOn with
  | nil => exact ⟨nofun,nodup_nil,nofun⟩
  | append_singleton calls c ih =>
    have hprev : (run maxCache calls).length ≤ maxCache :=
      hmax calls ((mem_inits ..).mpr (prefix_append ..))
    have ih := ih fun p hp => hmax p
      ((mem_inits ..).mpr (((mem_inits ..).mp hp).trans (prefix_append ..)))
    unfold run added at ih ⊢
    rw [foldl_concat,foldl_concat]
    cases c with
    | add r hash vote =>
      change Consistent (entries (historyAdd maxCache (run maxCache calls) r hash vote) root) _
      rw [entries_add hprev]
      by_cases hr : r = root
      · subst hr
        rw [if_pos rfl]
        exact addEntry_consistent ih
      · simp only [note,if_neg hr]
        exact ih
    | erase r =>
      change Consistent (entries (historyErase (run maxCache calls) r) root) _
      rw [entries_erase]
      simp only [note]
      split_ifs
      · exact ⟨nofun,nodup_nil,nofun⟩
      · exact ih

theorem run_consistent_sample :
    let calls := [.add 1 7 ⟨3,5,[7]⟩,.add 1 7 ⟨3,4,[7]⟩,.add 1 8 ⟨4,1,[8]⟩]
    run 2 calls = [⟨1,8,⟨4,1,[8]⟩⟩] ∧ Consistent (entries (run 2 calls) 1) (added 1 calls) := by
  exact ⟨by decide,run_consistent _ (by decide) 1⟩

end Vxldollar.VoteHistory
