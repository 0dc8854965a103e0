import Vxldollar.Traces
import Vxldollar.Unbounded

/-!
# Pending writes of the unbounded processor

The cached heights run ahead of the stored ones by the pending writes: each
raises one account and carries the hashes of exactly the blocks it cements,
highest first. Flushing therefore only moves the stored heights.
-/

namespace Vxldollar.UnboundedWrites
open Blocks Store Cementing Sources Traces Unbounded List Function

variable {C : Constants} {F : Forest Account BlockHash} {L₀ : Ledger} {p q : Processor}
  {V V' W I : Account → ℕ}

def confirmedIn (p : Processor) (a : Account) : ℕ := match p.confirmedIteratedPairs[a]? with
  | some k => k.confirmedHeight
  | none => heightsIn p.trace.ledger a

def iteratedIn (p : Processor) (a : Account) : ℕ := match p.confirmedIteratedPairs[a]? with
  | some k => max k.iteratedHeight k.confirmedHeight
  | none => heightsIn p.trace.ledger a

def Cached (p : Processor) (hs : List BlockHash) : Prop :=
  ∀ h ∈ hs, ∃ r, p.blockCache[h]? = some r

/-- A pending write raises an account to its block and lists what that
covers. -/
structure Writes (F : Forest Account BlockHash) (V : Account → ℕ) (w : ConfHeightDetails)
    (V' : Account → ℕ) : Prop where
  raise : F.Raise V w.hash V'
  account : w.account = F.account w.hash
  height : w.height = F.height w.hash
  num : w.numBlocksConfirmed = F.height w.hash-V (F.account w.hash)
  callback : w.blockCallbackData =
    (F.segment (F.account w.hash) (V (F.account w.hash)) (F.height w.hash)).reverse

inductive Queue (F : Forest Account BlockHash) :
    (Account → ℕ) → List ConfHeightDetails → (Account → ℕ) → Prop
  | nil (V : Account → ℕ) : Queue F V [] V
  | cons {V V' V'' : Account → ℕ} {w : ConfHeightDetails} {ws : List ConfHeightDetails} :
      Writes F V w V' → Queue F V' ws V'' → Queue F V (w :: ws) V''

theorem Queue.snoc {ws : List ConfHeightDetails} {w : ConfHeightDetails} (h : Queue F V ws V')
    (hw : Writes F V' w W) : Queue F V (ws ++ [w]) W := by
  induction h with
  | nil => exact .cons hw (.nil _)
  | cons hc _ ih => exact .cons hc (ih hw)

structure Tracked (F : Forest Account BlockHash) (L₀ : Ledger) (p : Processor)
    (V I : Account → ℕ) : Prop where
  sound : Sound F L₀ p.trace [] (heightsIn p.trace.ledger)
  confirmed : confirmedIn p = V
  iterated : iteratedIn p = I
  pending : Queue F (heightsIn p.trace.ledger) p.pendingWrites V
  cache : ∀ (h : BlockHash) (r : StoredBlock), p.blockCache[h]? = some r → L₀.blocks[h]? = some r
  cached : ∀ w ∈ p.pendingWrites, Cached p w.blockCallbackData

section
variable {cache : Std.ExtTreeMap BlockHash StoredBlock} {t : Trace}

theorem mapM_cached (hs : List BlockHash)
    (hc : ∀ (h : BlockHash) (r : StoredBlock), cache[h]? = some r → L₀.blocks[h]? = some r)
    (hh : ∀ h ∈ hs, ∃ r, cache[h]? = some r) : ∃ rs, hs.mapM (fun h => cache[h]?) = some rs ∧
      Forall₂ (fun h r => L₀.blocks[h]? = some r) hs rs := by
  induction hs with
  | nil => exact ⟨[],rfl,.nil⟩
  | cons h hs ih =>
    obtain ⟨r,hr⟩ := hh h mem_cons_self
    obtain ⟨rs,hrs,hall⟩ := ih (fun x hx => hh x (mem_cons_of_mem _ hx))
    refine ⟨r :: rs,?_,.cons (hc h r hr) hall⟩
    simp [hr,hrs]

section
variable (B : Backed C F L₀)
  (hc : ∀ (h : BlockHash) (r : StoredBlock), cache[h]? = some r → L₀.blocks[h]? = some r)
include B hc

theorem cementWrite_spec {rs : List StoredBlock} {w : ConfHeightDetails}
    (hw : ∀ h ∈ w.blockCallbackData, ∃ r, cache[h]? = some r)
    (hs : Sound F L₀ t rs (heightsIn t.ledger)) (h : Writes F (heightsIn t.ledger) w V') :
    ∃ t' rs', cementWrite cache (t,rs) w = some (t',rs') ∧ heightsIn t'.ledger = V' ∧
      Sound F L₀ t' rs' V' := by
  have habove := h.raise.above
  obtain ⟨r,hr,-⟩ := (hs.written.backed B).get _ h.raise.mem
  obtain ⟨bs,hbs,hall⟩ := mapM_cached w.blockCallbackData.reverse hc
    (fun x hx => hw x (mem_reverse.mp hx))
  have hV : heightsIn (t.put w.account w.height w.hash w.numBlocksConfirmed).ledger = V' := by
    rw [heightsIn_put,h.account,h.height,h.raise.eq]
  refine ⟨t.put w.account w.height w.hash w.numBlocksConfirmed,rs ++ bs,?_,hV,?_⟩
  · unfold cementWrite
    rw [if_pos (by rw [h.height,h.account]; exact habove)]
    simp only [hr,hbs]
    rfl
  · rw [h.callback,reverse_reverse] at hall
    have := hs.extend _ hall h.raise.advances
    rw [h.account,h.height]
    exact this.put _ h.raise.mem habove.le h.num

theorem cementWrites_spec {ws : List ConfHeightDetails}
    (hw : ∀ w ∈ ws, ∀ h ∈ w.blockCallbackData, ∃ r, cache[h]? = some r) (t : Trace)
    (rs : List StoredBlock) (hs : Sound F L₀ t rs (heightsIn t.ledger))
    (h : Queue F (heightsIn t.ledger) ws V) :
    ∃ t' rs', ws.foldlM (cementWrite cache) (t,rs) = some (t',rs') ∧ heightsIn t'.ledger = V ∧
      Sound F L₀ t' rs' V := by
  induction ws generalizing t rs with
  | nil =>
    cases h
    exact ⟨t,rs,rfl,rfl,hs⟩
  | cons w ws ih =>
    cases h with
    | cons hx hrest =>
      obtain ⟨t',rs',he,rfl,hs'⟩ := cementWrite_spec B hc (hw w mem_cons_self) hs hx
      obtain ⟨t'',rs'',he',hh,hs''⟩ :=
        ih (fun w hm => hw w (mem_cons_of_mem _ hm)) t' rs' hs' hrest
      refine ⟨t'',rs'',?_,hh,hs''⟩
      rw [foldlM_cons,he]
      exact he'

end

structure Keeps (p q : Processor) : Prop where
  mapping : q.implicitReceiveCementedMapping = p.implicitReceiveCementedMapping
  cache : q.blockCache = p.blockCache
  nextId : q.nextId = p.nextId

theorem Keeps.cached (h : Keeps p q) {hs : List BlockHash} (hc : Cached p hs) : Cached q hs := by
  intro x hx
  rw [h.cache]
  exact hc x hx

/-- Flushing leaves nothing pending and the confirmed heights as they were. -/
theorem cementBlocks_spec (B : Backed C F L₀) (T : Tracked F L₀ p V I) :
    ∃ q, cementBlocks p = some q ∧ Tracked F L₀ q V I ∧ q.pendingWrites = [] ∧ Keeps p q := by
  obtain ⟨t,rs,he,hh,hs⟩ := cementWrites_spec B T.cache T.cached p.trace [] T.sound T.pending
  have hcached : ∀ a, ∃ k, (p.confirmedIteratedPairs[a]? = some k) ∨
      (p.confirmedIteratedPairs[a]? = none ∧ V a = heightsIn p.trace.ledger a ∧
        I a = heightsIn p.trace.ledger a) := by
    intro a
    cases hk : p.confirmedIteratedPairs[a]? with
    | some k => exact ⟨k,.inl rfl⟩
    | none =>
      refine ⟨⟨0,0⟩,.inr ⟨rfl,?_,?_⟩⟩
      · rw [← T.confirmed,confirmedIn,hk]
      · rw [← T.iterated,iteratedIn,hk]
  refine ⟨{ p with pendingWrites := [], trace := t.commit.notify rs },?_,?_,rfl,⟨rfl,rfl,rfl⟩⟩
  · rw [cementBlocks,he]
    rfl
  · rw [← hh] at hs
    refine ⟨(hs.commit).notify,?_,?_,?_,T.cache,?_⟩
    · funext a
      rw [← T.confirmed]
      obtain ⟨k,hk | ⟨hk,hV,-⟩⟩ := hcached a
      · simp [confirmedIn,hk]
      · simp only [confirmedIn]
        rw [← hV,← hh]
        rfl
    · funext a
      obtain ⟨k,hk | ⟨hk,hV,hI⟩⟩ := hcached a
      · rw [← T.iterated]
        simp [iteratedIn,hk]
      · simp only [iteratedIn,hk]
        rw [hI,← hV,← hh]
        rfl
    · change Queue F (heightsIn t.ledger) [] V
      rw [hh]
      exact .nil V
    · intro w hw
      cases hw

theorem Tracked.retrace (T : Tracked F L₀ p V I) (hl : t.ledger = p.trace.ledger)
    (hc : t.commits = p.trace.commits) (hn : t.notified = p.trace.notified) :
    Tracked F L₀ { p with trace := t } V I where
  sound := by
    have := T.sound.congr hl hc hn
    rw [← hl] at this
    exact this
  confirmed := by
    rw [← T.confirmed]
    funext a
    simp [confirmedIn,hl]
  iterated := by
    rw [← T.iterated]
    funext a
    simp [iteratedIn,hl]
  pending := by
    change Queue F (heightsIn t.ledger) _ _
    rw [hl]
    exact T.pending
  cache := T.cache
  cached := T.cached

theorem flush_spec (B : Backed C F L₀) (env : Environment) (finished : Bool)
    (T : Tracked F L₀ p V I) :
    ∃ q, flush env p finished = some q ∧ Tracked F L₀ q V I ∧ Keeps p q := by
  have hT : Tracked F L₀ { p with trace := p.trace.next } V I := T.retrace rfl rfl rfl
  unfold flush
  dsimp only
  split
  · obtain ⟨q,hq,hTq,-,hsame⟩ := cementBlocks_spec B hT
    exact ⟨q,hq,hTq,⟨hsame.mapping,hsame.cache,hsame.nextId⟩⟩
  · exact ⟨_,rfl,hT,⟨rfl,rfl,rfl⟩⟩

theorem clearProcessVars_spec (T : Tracked F L₀ p V I) (hp : p.pendingWrites = []) :
    Tracked F L₀ (clearProcessVars p) V V := by
  have hV : heightsIn p.trace.ledger = V := by
    have hq := T.pending
    rw [hp] at hq
    cases hq
    rfl
  have hnone : ∀ a : Account, (clearProcessVars p).confirmedIteratedPairs[a]? = none := by
    intro a
    simp [clearProcessVars]
  refine ⟨T.sound,?_,?_,?_,?_,?_⟩
  · funext a
    rw [confirmedIn,hnone,← hV]
    rfl
  · funext a
    rw [iteratedIn,hnone,← hV]
    rfl
  · change Queue F (heightsIn p.trace.ledger) p.pendingWrites V
    rw [hp,hV]
    exact .nil V
  · intro h r hr
    simp [clearProcessVars] at hr
  · intro w hw
    change w ∈ p.pendingWrites at hw
    rw [hp] at hw
    cases hw

theorem idle_spec (B : Backed C F L₀) (T : Tracked F L₀ p V I) :
    ∃ q, idle p = some q ∧ Tracked F L₀ q V V ∧ q.pendingWrites = [] := by
  unfold idle
  by_cases hp : p.pendingWrites = []
  · exact ⟨clearProcessVars p,by simp [hp],clearProcessVars_spec T hp,hp⟩
  · obtain ⟨q,hq,hT,hqp,-⟩ := cementBlocks_spec B T
    exact ⟨clearProcessVars q,by simp [hp,hq],clearProcessVars_spec hT hqp,hqp⟩

end

variable (T : Tracked F L₀ p V I)
include T

theorem Tracked.cached_pair {a : Account} (h : V a < I a) :
    ∃ k, p.confirmedIteratedPairs[a]? = some k ∧ k.confirmedHeight = V a ∧
      k.iteratedHeight = I a := by
  rw [← T.confirmed,← T.iterated,confirmedIn,iteratedIn] at h
  rw [← T.confirmed,← T.iterated,confirmedIn,iteratedIn]
  cases hk : p.confirmedIteratedPairs[a]? with
  | none =>
    rw [hk] at h
    exact absurd h (lt_irrefl _)
  | some k =>
    rw [hk] at h
    dsimp only at h ⊢
    refine ⟨k,rfl,rfl,?_⟩
    omega

theorem Tracked.iterated_ge (a : Account) : V a ≤ I a := by
  rw [← T.confirmed,← T.iterated,confirmedIn,iteratedIn]
  split
  · exact Nat.le_max_right _ _
  · exact Nat.le_refl _

theorem Tracked.queue {w : ConfHeightDetails} {k : ConfirmedIteratedPair} (hw : Writes F V w V')
    (hc : Cached p w.blockCallbackData) (hk : k.confirmedHeight = w.height) :
    Tracked F L₀ { p with
      confirmedIteratedPairs := p.confirmedIteratedPairs.insert w.account k
      pendingWrites := p.pendingWrites ++ [w] } V'
      (update I (F.account w.hash) (max k.iteratedHeight k.confirmedHeight)) where
  sound := T.sound
  confirmed := by
    funext a
    rw [hw.raise.eq,confirmedIn,Table.get_insert,hw.account]
    by_cases e : a = F.account w.hash
    · subst e
      rw [if_pos rfl,update_self,← hw.height,← hk]
    · rw [if_neg e,update_of_ne e,← T.confirmed]
      rfl
  iterated := by
    funext a
    rw [iteratedIn,Table.get_insert,hw.account]
    by_cases e : a = F.account w.hash
    · subst e
      rw [if_pos rfl,update_self]
    · rw [if_neg e,update_of_ne e,← T.iterated]
      rfl
  pending := T.pending.snoc hw
  cache := T.cache
  cached := by
    intro x hx
    rcases mem_append.mp hx with hx | hx
    · exact T.cached x hx
    · obtain rfl := mem_singleton.mp hx
      exact hc

end Vxldollar.UnboundedWrites
