import Vxldollar.Extensions
import Vxldollar.Prefixes

/-!
# Every added block is answered

The `run` loop takes the added blocks from its queue in order. A block may be
added at any moment; what the observers are told between its addition and the
moment the queue is drained must mention it, either among the cemented blocks or
as a block that was already cemented.

A block that was already cemented when it was added is mentioned only if its
account has no cached height when its turn begins: the look at the stored
height, which tells the observers, is skipped for a cached account.
-/

namespace Vxldollar.Answers
open Blocks Store Vxldollar.Lattice Runs Cementing Sources Traces CementingRuns Extensions List

section
variable {P W : Type}

/-- A processor as the `run` loop uses it. -/
structure Mode (P W : Type) where
  trace : P → Trace
  walkTrace : W → Trace
  begin : P → BlockHash → W
  round : BlockHash → StoredBlock → W → Option (W ⊕ P)
  idle : P → Option P
  pendingEmpty : P → Bool
  cached : W → Account → Bool

def unbounded (C : Constants) (env : Environment) :
    Mode Unbounded.Processor Unbounded.Walk where
  trace p := p.trace
  walkTrace w := w.processor.trace
  begin := Unbounded.begin
  round := Unbounded.processStep C env
  idle := Unbounded.idle
  pendingEmpty p := p.pendingWrites.isEmpty
  cached w a := w.processor.confirmedIteratedPairs[a]?.isSome

def bounded (C : Constants) (env : Environment) (fuel : ℕ) :
    Mode Bounded.Processor Bounded.Walk where
  trace p := p.trace
  walkTrace w := w.processor.trace
  begin p _ := Bounded.begin p
  round := Bounded.processStep C env fuel
  idle := Bounded.idle env
  pendingEmpty p := p.pendingWrites.isEmpty
  cached w a := w.processor.accountsConfirmedInfo[a]?.isSome

structure Addition where
  hash : BlockHash
  since : Trace

structure State (P W : Type) where
  stage : Stage P W
  awaiting : List Addition := []
  taken : List Addition := []

/-- A block may be added while a round or a flush is under way. An addition
touches the queue only, so it is put before the round if its block is mentioned
in the rest of it and after the round otherwise. For the same reason a flush does
not ask whether the queue is still empty. -/
inductive Event where
  | add (hash : BlockHash)
  | take
  | round
  | idle
  deriving DecidableEq, Repr

variable (M : Mode P W)

def Mode.stageTrace : Stage P W → Trace
  | .between p => M.trace p
  | .within _ _ w => M.walkTrace w

def step (s : State P W) : Event → Option (State P W)
  | .add h =>
    let t := M.stageTrace s.stage
    if t.ledger.blocks.contains h then some { s with awaiting := s.awaiting ++ [⟨h,t⟩] } else none
  | .take => match s.stage,s.awaiting with
    | .between p,a :: rest => (M.trace p).ledger.blocks[a.hash]?.map (fun r =>
        ⟨.within a.hash r (M.begin p a.hash),rest,a :: s.taken⟩)
    | _,_ => none
  | .round => match s.stage with
    | .within h r w => (M.round h r w).map (fun o =>
        { s with stage := o.elim (.within h r) .between })
    | .between _ => none
  | .idle => match s.stage with
    | .between p => (M.idle p).map (fun q => { s with stage := .between q })
    | .within _ _ _ => none

def run (s : State P W) : List Event → Option (State P W)
  | [] => some s
  | ev :: evs => (step M s ev).bind (fun t => run t evs)

inductive Reaches (ok : State P W → Event → Prop) (p₀ : P) : State P W → Prop
  | start : Reaches ok p₀ { stage := .between p₀ }
  | step {s t : State P W} {ev : Event} : Reaches ok p₀ s → ok s ev → step M s ev = some t →
      Reaches ok p₀ t

/-- A block that was cemented when it was added does not have its turn while a
height of its account is cached. -/
def Careful (s : State P W) : Event → Prop
  | .take => ∀ p a rest r, s.stage = .between p → s.awaiting = a :: rest →
      (M.trace p).ledger.blocks[a.hash]? = some r → a.since.ledger.blockConfirmed a.hash = true →
      M.cached (M.begin p a.hash) r.accountCalculated = false
  | _ => True

def Drained (s : State P W) : Prop :=
  s.awaiting = [] ∧ ∃ p, s.stage = .between p ∧ M.pendingEmpty p = true

def Answered (C : Constants) (a : Addition) (t : Trace) : Prop :=
  ∃ reported vectors, t.alreadyCemented = a.since.alreadyCemented ++ reported ∧
    t.notified = a.since.notified ++ vectors ∧
    (a.hash ∈ reported ∨ ∃ r ∈ vectors.flatten, C.blockHash r.block = a.hash)

end

section
variable {P W : Type} {M : Mode P W} {C : Constants} {F : Forest Account BlockHash} {L₀ : Ledger}
  {inv : Stage P W → (Account → ℕ) → Prop}

/-- What the argument needs of a processor. `inv s V` says that the heights
were confirmed up to `V` when the last turn began. -/
structure Lawful (M : Mode P W) (F : Forest Account BlockHash) (L₀ : Ledger)
    (inv : Stage P W → (Account → ℕ) → Prop) : Prop where
  sound : ∀ s V, inv s V → Sound F L₀ (M.stageTrace s) [] (heightsIn (M.stageTrace s).ledger)
  begin : ∀ p V h r, inv (.between p) V → L₀.blocks[h]? = some r →
    inv (.within h r (M.begin p h)) V
  unchanged : ∀ p h, M.walkTrace (M.begin p h) = M.trace p
  round : ∀ h r w V w', inv (.within h r w) V → M.round h r w = some (.inl w') →
    inv (.within h r w') V
  finished : ∀ h r w V p, inv (.within h r w) V → M.round h r w = some (.inr p) →
    ∃ V', inv (.between p) V' ∧ F.Absorb V h V'
  idle : ∀ p V q, inv (.between p) V → M.idle p = some q → inv (.between q) V
  flushed : ∀ p V, inv (.between p) V → M.pendingEmpty p = true → heightsIn (M.trace p).ledger = V
  extended : ∀ h r w o, M.round h r w = some o →
    Extends (M.walkTrace w) (o.elim M.walkTrace M.trace)
  kept : ∀ p q, M.idle p = some q → Extends (M.trace p) (M.trace q)
  told : ∀ p h r o, M.round h r (M.begin p h) = some o →
    M.cached (M.begin p h) r.accountCalculated = false →
    r.sideband.height ≤ heightsIn (M.trace p).ledger r.accountCalculated →
    (o.elim M.walkTrace M.trace).alreadyCemented = (M.trace p).alreadyCemented ++ [h]

theorem stageTrace_elim (h : BlockHash) (r : StoredBlock) (o : W ⊕ P) :
    M.stageTrace (o.elim (.within h r) .between) = o.elim M.walkTrace M.trace := by
  cases o <;> rfl

variable {t₀ t : Trace} {b : BlockHash} {a : Addition}

theorem covered_since (B : Backed C F L₀) (h₀ : Sound F L₀ t₀ [] (heightsIn t₀.ledger))
    (h : Sound F L₀ t [] (heightsIn t.ledger)) {vectors : List (List StoredBlock)}
    (hv : t.notified = t₀.notified ++ vectors) : F.Covered (heightsIn t.ledger) b ↔
      F.Covered (heightsIn t₀.ledger) b ∨ ∃ r ∈ vectors.flatten, C.blockHash r.block = b := by
  obtain ⟨bs₀,hall₀,hadv₀⟩ := h₀.listed
  obtain ⟨bs,hall,hadv⟩ := h.listed
  rw [append_nil] at hall hall₀
  have hbs₀ := Prefixes.listed_hashes B hall₀
  have hbs := Prefixes.listed_hashes B hall
  rw [hv,flatten_append,map_append,hbs₀] at hbs
  rw [hadv.covered_iff,hadv₀.covered_iff,← hbs,mem_append,mem_map,or_assoc]

def Told (a : Addition) (t : Trace) : Prop :=
  ∃ reported, t.alreadyCemented = a.since.alreadyCemented ++ reported ∧ a.hash ∈ reported

theorem Told.extend (h : Told a t₀) (he : Extends t₀ t) : Told a t := by
  obtain ⟨reported,hr,hm⟩ := h
  obtain ⟨more,hmore⟩ := he.alreadyCemented
  exact ⟨reported ++ more,by rw [← hmore,hr,append_assoc],mem_append_left _ hm⟩

structure Noted (M : Mode P W) (F : Forest Account BlockHash) (L₀ : Ledger) (s : Stage P W)
    (a : Addition) : Prop where
  mem : F.mem a.hash
  sound : Sound F L₀ a.since [] (heightsIn a.since.ledger)
  extended : Extends a.since (M.stageTrace s)

structure Settled (M : Mode P W) (F : Forest Account BlockHash) (L₀ : Ledger) (s : Stage P W)
    (V : Account → ℕ) (a : Addition) : Prop where
  reached : F.Covered V a.hash ∨ ∃ r w, s = .within a.hash r w
  told : F.Covered (heightsIn a.since.ledger) a.hash → Told a (M.stageTrace s) ∨
    ∃ p r, s = .within a.hash r (M.begin p a.hash) ∧ L₀.blocks[a.hash]? = some r ∧
      M.cached (M.begin p a.hash) r.accountCalculated = false

structure Inv (M : Mode P W) (F : Forest Account BlockHash) (L₀ : Ledger)
    (inv : Stage P W → (Account → ℕ) → Prop) (s : State P W) : Prop where
  waiting : ∀ a ∈ s.awaiting, Noted M F L₀ s.stage a
  noted : ∀ a ∈ s.taken, Noted M F L₀ s.stage a
  stage : ∃ V, inv s.stage V ∧ ∀ a ∈ s.taken, Settled M F L₀ s.stage V a

variable {s s' : Stage P W} {V V' : Account → ℕ} {p : P}

theorem Noted.extend (h : Noted M F L₀ s a) (he : Extends (M.stageTrace s) (M.stageTrace s')) :
    Noted M F L₀ s' a :=
  ⟨h.mem,h.sound,h.extended.trans he⟩

theorem Settled.between (h : Settled M F L₀ (.between p) V a) (hle : ∀ c, V c ≤ V' c)
    (he : Extends (M.trace p) (M.stageTrace s)) :
    Settled M F L₀ s V' a where
  reached := by
    rcases h.reached with hc | ⟨r,w,hs⟩
    · exact .inl (hc.mono hle)
    · cases hs
  told hc := by
    rcases h.told hc with ht | ⟨q,r,hs,-⟩
    · exact .inl (ht.extend he)
    · cases hs

variable {r : StoredBlock} {awaiting taken : List Addition} {h : BlockHash} {o : W ⊕ P} {w : W}

section
variable (g : Grounds C F L₀) (H : Lawful M F L₀ inv)
include g H

theorem Settled.told_after (hn : Noted M F L₀ (.within h r w) a)
    (hs : Settled M F L₀ (.within h r w) V a) (hV : inv (.within h r w) V)
    (ho : M.round h r w = some o) (hc : F.Covered (heightsIn a.since.ledger) a.hash) :
    Told a (M.stageTrace (o.elim (.within h r) .between)) := by
  rw [stageTrace_elim]
  rcases hs.told hc with ht | ⟨p,r',he,hr',hcached⟩
  · exact ht.extend (H.extended h r w o ho)
  · obtain ⟨rfl,rfl,rfl⟩ : h = a.hash ∧ r = r' ∧ w = M.begin p a.hash := by
      cases he
      exact ⟨rfl,rfl,rfl⟩
    obtain ⟨-,hread⟩ := g.backed.record hr'
    obtain ⟨vectors,hv⟩ := hn.extended.notified
    obtain ⟨more,hmore⟩ := hn.extended.alreadyCemented
    have hnow := (covered_since g.backed hn.sound (H.sound _ _ hV) hv.symm).mpr (.inl hc)
    have htrace : M.stageTrace (.within a.hash r (M.begin p a.hash)) = M.trace p :=
      H.unchanged p a.hash
    rw [htrace] at hnow hmore
    refine ⟨more ++ [a.hash],?_,mem_append_right _ (mem_singleton_self _)⟩
    rw [H.told p _ r o ho hcached (by rw [hread.account,hread.height]; exact hnow.2),← hmore,
      append_assoc]

theorem round_inv (hx : Inv M F L₀ inv ⟨.within h r w,awaiting,taken⟩)
    (ho : M.round h r w = some o) :
    Inv M F L₀ inv ⟨o.elim (.within h r) .between,awaiting,taken⟩ := by
  obtain ⟨hwait,hnoted,V,hV,hset⟩ := hx
  have he : Extends (M.stageTrace (.within h r w))
      (M.stageTrace (o.elim (.within h r) .between)) := by
    rw [stageTrace_elim]
    exact H.extended h r w o ho
  refine ⟨fun a ha => (hwait a ha).extend he,fun a ha => (hnoted a ha).extend he,?_⟩
  have htold := fun a ha hc => (hset a ha).told_after g H (hnoted a ha) hV ho hc
  cases o with
  | inl w' =>
    refine ⟨V,H.round h r w V w' hV ho,fun a ha => ⟨?_,fun hc => .inl (htold a ha hc)⟩⟩
    rcases (hset a ha).reached with hc | ⟨r',w'',hs⟩
    · exact .inl hc
    · cases hs
      exact .inr ⟨r,w',rfl⟩
  | inr p =>
    obtain ⟨V',hV',hA⟩ := H.finished h r w V p hV ho
    refine ⟨V',hV',fun a ha => ⟨.inl ?_,fun hc => .inl (htold a ha hc)⟩⟩
    rcases (hset a ha).reached with hc | ⟨r',w'',hs⟩
    · exact hc.mono hA.1.le
    · cases hs
      exact hA.2

end

theorem take_inv (H : Lawful M F L₀ inv) (hx : Inv M F L₀ inv ⟨.between p,a :: awaiting,taken⟩)
    (hr : L₀.blocks[a.hash]? = some r)
    (hok : F.Covered (heightsIn a.since.ledger) a.hash →
      M.cached (M.begin p a.hash) r.accountCalculated = false) :
    Inv M F L₀ inv ⟨.within a.hash r (M.begin p a.hash),awaiting,a :: taken⟩ := by
  obtain ⟨hwait,hnoted,V,hV,hset⟩ := hx
  have he : Extends (M.trace p) (M.walkTrace (M.begin p a.hash)) := by
    rw [H.unchanged]
    exact .refl _
  refine ⟨fun c hc => (hwait c (mem_cons_of_mem _ hc)).extend he,fun c hc => ?_,
    V,H.begin p V _ r hV hr,fun c hc => ?_⟩
  · rcases mem_cons.mp hc with rfl | hc
    · exact (hwait c mem_cons_self).extend he
    · exact (hnoted c hc).extend he
  · rcases mem_cons.mp hc with rfl | hc
    · exact ⟨Or.inr ⟨r,_,rfl⟩,fun hcov => Or.inr ⟨p,r,rfl,hr,hok hcov⟩⟩
    · exact (hset c hc).between (fun _ => Nat.le_refl _) he

variable (g : Grounds C F L₀) (H : Lawful M F L₀ inv)
include g H

theorem step_inv {x y : State P W} {ev : Event} (h : Inv M F L₀ inv x) (hok : Careful M x ev)
    (hy : step M x ev = some y) :
    Inv M F L₀ inv y := by
  obtain ⟨stage,awaiting,taken⟩ := x
  obtain ⟨V,hV,hset⟩ := h.stage
  have hsound := H.sound stage V hV
  cases ev with
  | add b =>
    dsimp only [step] at hy
    split at hy
    · rename_i hb
      cases hy
      refine ⟨fun a ha => ?_,h.noted,V,hV,hset⟩
      rcases mem_append.mp ha with ha | ha
      · exact h.waiting a ha
      · obtain rfl := mem_singleton.mp ha
        refine ⟨?_,hsound,.refl _⟩
        rw [hsound.written.blocks] at hb
        exact g.contains.mp hb
    · cases hy
  | take =>
    cases stage with
    | within b r w => cases hy
    | between p =>
      cases awaiting with
      | nil => cases hy
      | cons a rest =>
        obtain ⟨r,hr,rfl⟩ := Option.map_eq_some_iff.mp hy
        have hsince := (h.waiting a mem_cons_self).sound
        refine take_inv H h ?_ (fun hc => hok p a rest r rfl rfl hr ?_)
        · exact hsound.written.blocks ▸ hr
        · exact (g.confirmed hsince.written).mpr hc
  | round =>
    cases stage with
    | between p => cases hy
    | within b r w =>
      obtain ⟨o,ho,rfl⟩ := Option.map_eq_some_iff.mp hy
      exact round_inv g H h ho
  | idle =>
    cases stage with
    | within b r w => cases hy
    | between p =>
      obtain ⟨q,hq,rfl⟩ := Option.map_eq_some_iff.mp hy
      have he := H.kept p q hq
      exact ⟨fun a ha => (h.waiting a ha).extend he,fun a ha => (h.noted a ha).extend he,
        V,H.idle p V q hV hq,fun a ha => (hset a ha).between (fun _ => Nat.le_refl _) he⟩

theorem reaches_inv {p₀ : P} (h₀ : inv (.between p₀) (heightsIn L₀)) {s : State P W}
    (h : Reaches M (Careful M) p₀ s) :
    Inv M F L₀ inv s := by
  induction h with
  | start =>
    exact ⟨fun a ha => (not_mem_nil ha).elim,fun a ha => (not_mem_nil ha).elim,_,h₀,
      fun a ha => (not_mem_nil ha).elim⟩
  | step _ hok hy ih => exact step_inv g H ih hok hy

theorem inv_answered {x : State P W} (h : Inv M F L₀ inv x) (hd : Drained M x) (ha : a ∈ x.taken) :
    Answered C a (M.stageTrace x.stage) := by
  obtain ⟨stage,awaiting,taken⟩ := x
  obtain ⟨-,p,rfl,hp⟩ := hd
  obtain ⟨-,hnoted,V,hV,hset⟩ := h
  have hn := hnoted a ha
  obtain ⟨vectors,hv⟩ := hn.extended.notified
  obtain ⟨more,hmore⟩ := hn.extended.alreadyCemented
  have hcov : F.Covered (heightsIn (M.trace p).ledger) a.hash := by
    rw [H.flushed p V hV hp]
    rcases (hset a ha).reached with hc | ⟨r,w,hs⟩
    · exact hc
    · cases hs
  rcases (covered_since g.backed hn.sound (H.sound _ _ hV) hv.symm).mp hcov with hc | hc
  · rcases (hset a ha).told hc with ⟨reported,hr,hm⟩ | ⟨q,r,hs,-⟩
    · exact ⟨reported,vectors,hr,hv.symm,.inl hm⟩
    · cases hs
  · exact ⟨more,vectors,hmore.symm,hv.symm,.inr hc⟩

end
section
variable {C : Constants} {F : Forest Account BlockHash} {L₀ : Ledger} {env : Environment}
  {K fuel : ℕ} {h : BlockHash} {r : StoredBlock} {p : Unbounded.Processor}

def UnboundedTurn (F : Forest Account BlockHash) (L₀ : Ledger) (K : ℕ) :
    Stage Unbounded.Processor Unbounded.Walk → (Account → ℕ) → Prop
  | .between p, V => UnboundedWrites.Tracked F L₀ p V V
  | .within h r w, Vs => F.mem h ∧ L₀.blocks[h]? = some r ∧
      ∃ n V I fs, UnboundedSpec.Walking F L₀ Vs h K n w V I fs

theorem unbounded_first {v : Unbounded.Visit}
    (hv : Unbounded.visit h r (Unbounded.begin p h) = some v) :
    v.block = r ∧ v.account = r.accountCalculated := by
  obtain ⟨⟨r',q⟩,hq,rfl⟩ := Option.map_eq_some_iff.mp hv
  cases hq
  dsimp only
  split <;> exact ⟨rfl,rfl⟩

theorem unbounded_begin (p : Unbounded.Processor) (h : BlockHash) :
    (Unbounded.begin p h).processor.trace = p.trace := by
  unfold Unbounded.begin
  dsimp only
  split <;> rfl

theorem unbounded_told {o : Unbounded.Walk ⊕ Unbounded.Processor}
    (ho : Unbounded.processStep C env h r (Unbounded.begin p h) = some o)
    (hc : (Unbounded.begin p h).processor.confirmedIteratedPairs[r.accountCalculated]? = none)
    (hle : r.sideband.height ≤ heightsIn p.trace.ledger r.accountCalculated) :
    (Sum.elim (fun w : Unbounded.Walk => w.processor.trace) Unbounded.Processor.trace
      o).alreadyCemented = p.trace.alreadyCemented ++ [h] := by
  obtain ⟨v,hv,hn⟩ := unbounded_round ho
  obtain ⟨hb,ha⟩ := unbounded_first hv
  rw [hn.alreadyCemented,unbounded_visit hv,ha,hb,unbounded_begin,if_pos ⟨rfl,hc,hle⟩]
  rfl

variable (env) in
theorem unbounded_lawful (g : Grounds C F L₀) (hK : ∀ b, F.mem b → F.height b < K) :
    Lawful (unbounded C env) F L₀ (UnboundedTurn F L₀ K) where
  sound s V h := by
    cases s with
    | between p => exact h.sound
    | within b r w =>
      obtain ⟨-,-,n,V',I,fs,hw⟩ := h
      exact hw.inner.tracked.sound
  begin p V h r hT hr := ⟨g.backed.mem h r hr,hr,_,V,V,[],UnboundedSpec.Walking.start hT⟩
  unchanged p h := unbounded_begin p h
  round h r w V w' hw hs := by
    obtain ⟨hm,hr,n,V',I,fs,hw⟩ := hw
    exact ⟨hm,hr,UnboundedSpec.round_goes_on g.backed g.finite hK hm hr hw hs⟩
  finished h r w V p hw hs := by
    obtain ⟨hm,hr,n,V',I,fs,hw⟩ := hw
    exact UnboundedSpec.round_ends g.backed g.finite hK hm hr hw hs
  idle p V q hT hq := by
    obtain ⟨q',hq',hT',-⟩ := UnboundedWrites.idle_spec g.backed hT
    cases hq'.symm.trans hq
    exact hT'
  flushed p V hT hp := by
    have := hT.pending
    rw [isEmpty_iff.mp hp] at this
    cases this
    rfl
  extended h r w o ho := by
    obtain ⟨v,hv,hn⟩ := unbounded_round ho
    exact (unbounded_visit_extends hv).trans hn.extends
  kept p q hq := (unbounded_idle hq).extends
  told _ _ _ _ ho hc hle :=
    unbounded_told ho (Option.not_isSome_iff_eq_none.mp (Bool.eq_false_iff.mp hc)) hle

def BoundedTurn (F : Forest Account BlockHash) (L₀ : Ledger) :
    Stage Bounded.Processor Bounded.Walk → (Account → ℕ) → Prop
  | .between p, V => BoundedWrites.Tracked F L₀ p V
  | .within h r w, Vs => F.mem h ∧ L₀.blocks[h]? = some r ∧
      ∃ V, BoundedSpec.Standing F L₀ Vs h w V

theorem bounded_first {p : Bounded.Processor} {v : Bounded.Visit}
    (hv : Bounded.visit h r (Bounded.begin p) = some v) :
    v.block = r ∧ v.account = r.accountCalculated ∧ v.target.top = h := by
  unfold Bounded.visit at hv
  obtain ⟨r',hr',hv⟩ := Option.bind_eq_some_iff.mp hv
  obtain ⟨x,-,rfl⟩ := Option.map_eq_some_iff.mp hv
  cases hr'
  exact ⟨rfl,rfl,rfl⟩

theorem bounded_begin (p : Bounded.Processor) : (Bounded.begin p).processor.trace = p.trace := by
  unfold Bounded.begin
  dsimp only
  split <;> rfl

theorem bounded_told {p : Bounded.Processor} {o : Bounded.Walk ⊕ Bounded.Processor}
    (ho : Bounded.processStep C env fuel h r (Bounded.begin p) = some o)
    (hc : (Bounded.begin p).processor.accountsConfirmedInfo[r.accountCalculated]? = none)
    (hle : r.sideband.height ≤ heightsIn p.trace.ledger r.accountCalculated) :
    (Sum.elim (fun w : Bounded.Walk => w.processor.trace) Bounded.Processor.trace
      o).alreadyCemented = p.trace.alreadyCemented ++ [h] := by
  obtain ⟨v,hv,hn⟩ := bounded_round ho
  obtain ⟨hb,ha,ht⟩ := bounded_first hv
  rw [hn.alreadyCemented,bounded_visit hv,ha,hb,bounded_begin,if_pos ⟨rfl,hc,hle,ht⟩]
  rfl

variable (env) in
theorem bounded_lawful (g : Grounds C F L₀) (hfuel : ∀ b, F.mem b → F.height b < fuel) :
    Lawful (bounded C env fuel) F L₀ (BoundedTurn F L₀) where
  sound s V h := by
    cases s with
    | between p => exact h.sound
    | within b r w =>
      obtain ⟨-,-,V',hw⟩ := h
      exact hw.tracked.sound
  begin p V h r hT hr := ⟨g.backed.mem h r hr,hr,V,BoundedSpec.Standing.start hT⟩
  unchanged p _ := bounded_begin p
  round h r w V w' hw hs := by
    obtain ⟨hm,hr,V',hw⟩ := hw
    obtain ⟨V₁,h₁,-⟩ := BoundedSpec.round_goes_on g.backed hm hr hfuel hw hs
    exact ⟨hm,hr,V₁,h₁⟩
  finished h r w V p hw hs := by
    obtain ⟨hm,hr,V',hw⟩ := hw
    obtain ⟨V₁,hT,hup,-⟩ := BoundedSpec.round_ends g.backed hm hr hfuel hw hs
    exact ⟨V₁,hT,hup⟩
  idle p V q hT hq := by
    obtain ⟨q',hq',hT',-⟩ := BoundedWrites.idle_spec g.backed hT (.inr (hq ▸ Option.some_ne_none q))
    cases hq'.symm.trans hq
    exact hT'
  flushed p V hT hp := hT.flushed (isEmpty_iff.mp hp)
  extended h r w o ho := by
    obtain ⟨v,hv,hn⟩ := bounded_round ho
    exact (bounded_visit_extends hv).trans hn.extends
  kept p q hq := (bounded_idle hq).extends
  told _ _ _ _ ho hc hle :=
    bounded_told ho (Option.not_isSome_iff_eq_none.mp (Bool.eq_false_iff.mp hc)) hle

end

variable {C : Constants} {U : Set Hashables} {L : Ledger}

/-- In every run of either processor whose steps are careful, whatever blocks
are added and whenever there is a flush: once the queue is drained and
everything is written out, the observers have been told of every added block
since its addition. The bound is only for the walk up a single chain. -/
theorem additions_answered (S : HashSound C U) (G : Grounded C U) (hr : Reachable C U L) :
    ∃ n, ∀ fuel, n ≤ fuel → ∀ env size,
      (∀ s, Reaches (unbounded C env) (Careful (unbounded C env)) (Unbounded.fresh L size) s →
        Drained (unbounded C env) s →
        ∀ a ∈ s.taken, Answered C a ((unbounded C env).stageTrace s.stage)) ∧
      (∀ s, Reaches (bounded C env fuel) (Careful (bounded C env fuel)) (Bounded.fresh L size) s →
        Drained (bounded C env fuel) s →
        ∀ a ∈ s.taken, Answered C a ((bounded C env fuel).stageTrace s.stage)) := by
  obtain ⟨F,g,K,hK⟩ := reachable_bounded S G hr
  refine ⟨K,fun fuel hfuel env size => ⟨?_,?_⟩⟩
  · have H := unbounded_lawful env g hK
    intro s hs hd a ha
    exact inv_answered g H (reaches_inv g H (unbounded_start g) hs) hd ha
  · have H := bounded_lawful env g (fun b hb => (hK b hb).trans_le hfuel)
    intro s hs hd a ha
    exact inv_answered g H (reaches_inv g H (bounded_start g) hs) hd ha

def patient : Environment := fun _ => ⟨false,false,true,0⟩

def writesNothing : Stage Unbounded.Processor Unbounded.Walk → Bool
  | .between p => p.pendingWrites.isEmpty
  | .within _ _ _ => false

theorem additions_answered_sample : Reachable sample sampleBlocks sampleSent ∧
    ∃ s, Reaches (unbounded sample patient) (Careful (unbounded sample patient))
        (Unbounded.fresh sampleSent 16384) s ∧ Drained (unbounded sample patient) s ∧
      s.taken.map Addition.hash = [2] ∧
      ∀ a ∈ s.taken, Answered sample a ((unbounded sample patient).stageTrace s.stage) := by
  have hrun : (run (unbounded sample patient)
      { stage := .between (Unbounded.fresh sampleSent 16384) } [.add 2,.take,.round]).any (fun s =>
        decide (s.taken.map Addition.hash = [2]) && s.awaiting.isEmpty && writesNothing s.stage) =
      true := by decide +kernel
  obtain ⟨s,hs,hcheck⟩ := (Option.any_eq_true _ _).mp hrun
  rw [Bool.and_eq_true,Bool.and_eq_true,decide_eq_true_eq,List.isEmpty_iff] at hcheck
  obtain ⟨⟨htaken,hwait⟩,hp⟩ := hcheck
  have hd : Drained (unbounded sample patient) s := by
    refine ⟨hwait,?_⟩
    cases he : s.stage with
    | between p =>
      rw [he] at hp
      exact ⟨p,rfl,hp⟩
    | within _ _ _ =>
      rw [he] at hp
      cases hp
  -- no account is cached before the first turn
  have hreach : Reaches (unbounded sample patient) (Careful (unbounded sample patient))
      (Unbounded.fresh sampleSent 16384) s := by
    obtain ⟨s₁,h₁,hs⟩ := Option.bind_eq_some_iff.mp hs
    obtain ⟨s₂,h₂,hs⟩ := Option.bind_eq_some_iff.mp hs
    obtain ⟨s₃,h₃,hs⟩ := Option.bind_eq_some_iff.mp hs
    cases hs
    have hround : Careful (unbounded sample patient) s₂ .round := trivial
    have hadd : ∀ x, Careful (unbounded sample patient) x (.add 2) := fun _ => trivial
    refine .step (.step (.step .start (hadd _) h₁) ?_ h₂) hround h₃
    rintro p a rest r hstage - - -
    dsimp only [step] at h₁
    split at h₁
    · cases h₁
      cases hstage
      rfl
    · cases h₁
  obtain ⟨n,hn⟩ := additions_answered sample_sound sample_grounded sampleSent_reachable
  exact ⟨sampleSent_reachable,s,hreach,hd,htaken,
    (hn n (Nat.le_refl n) patient 16384).1 s hreach hd⟩

section
variable {P W : Type} {M : Mode P W} {p₀ : P} {evs : List Event}

theorem run_reaches {s t : State P W} (h : Reaches M (fun _ _ => True) p₀ s)
    (ht : run M s evs = some t) : Reaches M (fun _ _ => True) p₀ t := by
  induction evs generalizing s with
  | nil =>
    cases ht
    exact h
  | cons ev evs ih =>
    obtain ⟨u,hu,ht⟩ := Option.bind_eq_some_iff.mp ht
    exact ih (h.step trivial hu) ht

variable (M p₀ evs) in
def Forgets : Prop :=
  ∃ s, run M { stage := .between p₀ } evs = some s ∧ Reaches M (fun _ _ => True) p₀ s ∧
    Drained M s ∧ ∃ a ∈ s.taken, ¬ Answered sample a (M.stageTrace s.stage)

theorem forgets_of_check
    (hcheck : (run M { stage := .between p₀ } evs).any (fun s => s.awaiting.isEmpty &&
      match s.stage with
      | .between p => M.pendingEmpty p && s.taken.any (fun a =>
        decide (a.hash ∉ (M.trace p).alreadyCemented) && (M.trace p).notified.flatten.all
          (fun r => decide (sample.blockHash r.block ≠ a.hash)))
      | .within _ _ _ => false) = true) :
    Forgets M p₀ evs := by
  obtain ⟨s,hs,hcheck⟩ := (Option.any_eq_true _ _).mp hcheck
  refine ⟨s,hs,run_reaches .start hs,?_⟩
  rw [Bool.and_eq_true,List.isEmpty_iff] at hcheck
  obtain ⟨hwait,hcheck⟩ := hcheck
  split at hcheck
  · rename_i p hp
    rw [Bool.and_eq_true,any_eq_true] at hcheck
    obtain ⟨hempty,a,ha,hnot⟩ := hcheck
    rw [Bool.and_eq_true,decide_eq_true_eq,all_eq_true] at hnot
    refine ⟨⟨hwait,p,hp,hempty⟩,a,ha,?_⟩
    rintro ⟨reported,vectors,hr,hv,hm | ⟨r,hmem,he⟩⟩
    · rw [hp] at hr
      exact hnot.1 (by
        change a.hash ∈ (M.stageTrace (.between p)).alreadyCemented
        rw [hr]
        exact mem_append_right _ hm)
    · rw [hp] at hv
      refine of_decide_eq_true (hnot.2 r ?_) he
      change r ∈ (M.stageTrace (.between p)).notified.flatten
      rw [hv,flatten_append]
      exact mem_append_right _ hmem
  · cases hcheck

end

def skippedRun : List Event := [.add 3,.add 2,.take,.round,.take,.round,.idle]

theorem additions_forgotten : Reachable sample sampleBlocks sampleSent ∧
    Forgets (unbounded sample patient) (Unbounded.fresh sampleSent 16384) skippedRun ∧
    Forgets (bounded sample patient 40) (Bounded.fresh sampleSent 16384) skippedRun := by
  refine ⟨sampleSent_reachable,?_,?_⟩
  · exact forgets_of_check (by decide +kernel)
  · exact forgets_of_check (by decide +kernel)

end Vxldollar.Answers
