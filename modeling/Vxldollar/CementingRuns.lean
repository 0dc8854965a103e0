import Vxldollar.UnboundedSpec
import Vxldollar.BoundedReturns
import Vxldollar.Runs

/-!
# Runs of the confirmation height processors

A reachable ledger holds a forest whose cemented prefix is where a run starts.
Every turn absorbs the added block; a flush changes no confirmed height. The
heights a run ends with are therefore the same for both processors and for all
clocks.
-/

namespace Vxldollar.CementingRuns
open Blocks Store Vxldollar.Lattice Chains Heights Confirmation Runs Cementing Sources Traces Option
  BoundedWrites

section
/-- A ledger whose tables hold a forest, with what its records depend on. -/
structure Grounds (C : Constants) (F : Forest Account BlockHash) (L : Ledger) : Prop where
  backed : Backed C F L
  finite : {b | F.mem b}.Finite
  written : Written F L L
  pruned : L.pruned = ∅
  depends : ∀ (b : BlockHash) (r : StoredBlock), L.blocks[b]? = some r → ∀ d, DependsOn C r d →
    F.mem d ∧ ((F.account d = F.account b ∧ F.height d < F.height b) ∨ F.source b = some d)
  previous : ∀ (b c : BlockHash) (r : StoredBlock), L.blocks[b]? = some r → F.mem c →
    F.account c = F.account b → F.height c+1 = F.height b → DependsOn C r c
  closed : ∀ (b : BlockHash) (r : StoredBlock), L.blocks[b]? = some r →
    F.Covered (heightsIn L) b → ∀ d, DependsOn C r d → F.Covered (heightsIn L) d
  epoch : ∀ b, F.mem b → C.isEpochLink b = false
  sources : ∀ (b s : BlockHash) (r : StoredBlock), L.blocks[b]? = some r → F.source b = some s →
    DependsOn C r s ∨
      (r.block.type = .state ∧ r.sideband.details.isSend = true ∧ r.block.link = s)

variable {C : Constants} {U : Set Hashables} {F : Forest Account BlockHash} {L₀ L : Ledger}
  {b : BlockHash}

theorem reachable_grounds (S : HashSound C U) (G : Grounded C U) (hr : Reachable C U L) :
    ∃ F, Grounds C F L := by
  obtain ⟨rank,ho⟩ := G
  obtain ⟨X,V⟩ := reachable_valid S hr
  have hcov : ∀ {h n}, X h = some n →
      ((forest ho V.built).Covered (heightsIn L) h ↔ Cemented L n) := by
    intro h n hX
    unfold Forest.Covered Cemented
    rw [forest_account ho V.built hX,forest_height ho V.built hX]
    exact ⟨fun hc => hc.2,fun hc => ⟨⟨n,hX⟩,hc⟩⟩
  refine ⟨forest ho V.built,mirrors_backed ho V.built V.mirrors,?_,⟨rfl,?_,V.cementedCount⟩,
    V.mirrors.pruned,?_,?_,?_,?_,?_⟩
  · exact (Causal.Built.finite V.built).subset (fun b ⟨n,hn⟩ => by
      change X b ≠ none
      rw [hn]
      exact some_ne_none n)
  · intro a i hi
    obtain ⟨n,hX,ha,hh⟩ := V.frontier a i hi
    exact ⟨⟨n,hX⟩,(forest_account ho V.built hX).trans ha,(forest_height ho V.built hX).trans hh⟩
  · intro b r hr d hd
    obtain ⟨n,hX,hs⟩ := V.mirrors.block b r hr
    obtain ⟨m,hm,hdep⟩ := dep_below V.built hX ((dependsOn_iff V.built hX hs).mp hd)
    refine ⟨⟨m,hm⟩,?_⟩
    rcases hdep with ⟨ha,hh⟩ | hsrc
    · left
      rw [forest_account ho V.built hX,forest_account ho V.built hm,forest_height ho V.built hX,
        forest_height ho V.built hm]
      exact ⟨ha,by omega⟩
    · exact .inr hsrc
  · rintro b c r hr ⟨m,hm⟩ ha hh
    obtain ⟨n,hX,hs⟩ := V.mirrors.block b r hr
    rw [forest_account ho V.built hX,forest_account ho V.built hm] at ha
    rw [forest_height ho V.built hX,forest_height ho V.built hm] at hh
    have h0 : n.previous ≠ 0 := by
      rw [Ne,previous_of_height V.built hX]
      have := height_pos V.built hm
      omega
    obtain ⟨k,hk,hka,-,hkh,-⟩ := built_following V.built hX h0
    obtain rfl := height_unique V.built hm hk (ha.trans hka.symm) (by omega)
    rw [dependsOn_iff V.built hX hs,mem_deps_iff V.built hX]
    exact ⟨h0,.inl rfl⟩
  · intro b r hr hc d hd
    obtain ⟨n,hX,hs⟩ := V.mirrors.block b r hr
    have hdn := (dependsOn_iff V.built hX hs).mp hd
    obtain ⟨m,hm,-⟩ := dep_below V.built hX hdn
    exact (hcov hm).mpr (V.closed b n hX ((hcov hX).mp hc) d hdn m hm)
  · rintro b ⟨n,hX⟩
    obtain ⟨e,hU⟩ := built_hash V.built hX
    rw [← e]
    exact S.ne_epoch _ hU
  · intro b s r hr hs
    obtain ⟨n,hX,hst⟩ := V.mirrors.block b r hr
    rcases sourceIn_cases V.built hX hs with hm | ⟨ht,hl,a,ha⟩
    · exact .inl ((dependsOn_iff V.built hX hst).mpr (.inr hm))
    · refine .inr ⟨?_,?_,?_⟩
      · rw [Block.type,hst.hashables,ht]
      · rw [legacy_sideband hst ht,ha]
        rfl
      · rw [Block.link,hst.hashables,hl]

theorem reachable_bounded (S : HashSound C U) (G : Grounded C U) (hr : Reachable C U L) :
    ∃ F, Grounds C F L ∧ ∃ K, ∀ b, F.mem b → F.height b < K := by
  obtain ⟨F,g⟩ := reachable_grounds S G hr
  exact ⟨F,g,Forest.height_bounded g.finite⟩

theorem Grounds.contains (g : Grounds C F L) : L.blocks.contains b = true ↔ F.mem b := by
  rw [Std.ExtTreeMap.contains_eq_isSome_getElem?,isSome_iff_exists]
  constructor
  · rintro ⟨r,hr⟩
    exact g.backed.mem b r hr
  · intro hm
    obtain ⟨r,hr,-⟩ := g.backed.get b hm
    exact ⟨r,hr⟩

theorem Grounds.height_lt (g : Grounds C F L₀) {fuel : ℕ} (hfuel : ∀ (h : BlockHash)
    (r : StoredBlock), L₀.blocks[h]? = some r → r.sideband.height < fuel) (hb : F.mem b) :
    F.height b < fuel := by
  obtain ⟨r,hr,hread⟩ := g.backed.get b hb
  rw [← hread.height]
  exact hfuel b r hr

theorem Grounds.confirmed (g : Grounds C F L₀) (hw : Written F L₀ L) :
    L.blockConfirmed b = true ↔ F.Covered (heightsIn L) b := by
  have B := hw.backed g.backed
  have hpruned : L.pruned = ∅ := by
    rw [hw.rest]
    exact g.pruned
  unfold Ledger.blockConfirmed Forest.Covered
  rw [hpruned]
  cases hb : L.blocks[b]? with
  | none =>
    refine ⟨fun h => by simp at h,fun h => ?_⟩
    obtain ⟨r,hr,-⟩ := B.get b h.1
    rw [hb] at hr
    cases hr
  | some r =>
    obtain ⟨hm,hread⟩ := B.record hb
    dsimp only
    rw [hread.account,hread.height]
    simp [hm]

end

section
variable {P : Type} {F : Forest Account BlockHash} {process : P → BlockHash → Option P}
  {idle : P → Option P} {inv : P → (Account → ℕ) → Prop} {V V' : Account → ℕ} {p q : P}
  {ts : List Turn}

theorem turns_absorb (hp : ∀ p V h q, inv p V → process p h = some q →
      ∃ V', inv q V' ∧ F.Absorb V h V')
    (hi : ∀ p V q, inv p V → idle p = some q → inv q V) (h : inv p V)
    (hq : turns process idle p ts = some q) : ∃ V', inv q V' ∧ F.Absorbs V (added ts) V' := by
  induction ts generalizing p V with
  | nil =>
    cases hq
    exact ⟨V,h,.nil V⟩
  | cons t ts ih =>
    cases t with
    | process a =>
      obtain ⟨p',hp',hq⟩ := bind_eq_some_iff.mp hq
      obtain ⟨V₁,h₁,ha⟩ := hp p V a p' h hp'
      obtain ⟨V',h',hA⟩ := ih h₁ hq
      exact ⟨V',h',.cons ha hA⟩
    | idle =>
      obtain ⟨p',hp',hq⟩ := bind_eq_some_iff.mp hq
      exact ih (hi p V p' h hp') hq

variable (inv ts) in
theorem turns_return (hp : ∀ p V h, inv p V → h ∈ added ts →
      ∃ q V', process p h = some q ∧ inv q V')
    (hi : ∀ p V, inv p V → ∃ q, idle p = some q ∧ inv q V) (h : inv p V) :
    ∃ q, turns process idle p ts = some q := by
  induction ts generalizing p V with
  | nil => exact ⟨p,rfl⟩
  | cons t ts ih =>
    cases t with
    | process a =>
      obtain ⟨p',V₁,hp',h₁⟩ := hp p V a h List.mem_cons_self
      obtain ⟨q,hq⟩ := ih (fun p V b hpV hb => hp p V b hpV (List.mem_cons_of_mem _ hb)) h₁
      exact ⟨q,by rw [turns,hp',bind_some,hq]⟩
    | idle =>
      obtain ⟨p',hp',h₁⟩ := hi p V h
      obtain ⟨q,hq⟩ := ih hp h₁
      exact ⟨q,by rw [turns,hp',bind_some,hq]⟩

theorem turns_flush (hq : turns process idle p (ts ++ [.idle]) = some q) :
    ∃ p', turns process idle p ts = some p' ∧ idle p' = some q := by
  induction ts generalizing p with
  | nil =>
    obtain ⟨p',hp',hq⟩ := bind_eq_some_iff.mp hq
    cases hq
    exact ⟨p,rfl,hp'⟩
  | cons t ts ih =>
    cases t with
    | process a =>
      obtain ⟨p₁,hp₁,hq⟩ := bind_eq_some_iff.mp hq
      obtain ⟨p',hp',hi⟩ := ih hq
      exact ⟨p',by rw [turns,hp₁,bind_some,hp'],hi⟩
    | idle =>
      obtain ⟨p₁,hp₁,hq⟩ := bind_eq_some_iff.mp hq
      obtain ⟨p',hp',hi⟩ := ih hq
      exact ⟨p',by rw [turns,hp₁,bind_some,hp'],hi⟩

/-- What a run that ended with a flush leaves: its trace, the heights of its
ledger, and how they grew. -/
structure Outcome (F : Forest Account BlockHash) (L₀ : Ledger) (hs : List BlockHash) (t : Trace) :
    Prop where
  sound : Sound F L₀ t [] (heightsIn t.ledger)
  absorbs : F.Absorbs (heightsIn L₀) hs (heightsIn t.ledger)

variable (inv) in
theorem turns_outcome {L₀ : Ledger} {trace : P → Trace}
    (hp : ∀ p V h q, inv p V → process p h = some q → ∃ V', inv q V' ∧ F.Absorb V h V')
    (hi : ∀ p V q, inv p V → idle p = some q → inv q V ∧ heightsIn (trace q).ledger = V ∧
      Sound F L₀ (trace q) [] (heightsIn (trace q).ledger))
    (h : inv p (heightsIn L₀)) (hq : turns process idle p (ts ++ [.idle]) = some q) :
    Outcome F L₀ (added ts) (trace q) := by
  obtain ⟨p',hp',hidle⟩ := turns_flush hq
  obtain ⟨V',h',hA⟩ := turns_absorb hp (fun p V q h hq => (hi p V q h hq).1) h hp'
  obtain ⟨-,hV,hs⟩ := hi p' V' q h' hidle
  exact ⟨hs,hV ▸ hA⟩

theorem added_flush : added (ts ++ [.idle]) = added ts := by
  induction ts with
  | nil => rfl
  | cons t ts ih =>
    cases t with
    | process a => exact congrArg (List.cons a) ih
    | idle => exact ih

end

section
variable {C : Constants} {F : Forest Account BlockHash} {L₀ : Ledger} {env : Environment}
  {ts : List Turn} {size : ℕ}

noncomputable def enough (F : Forest Account BlockHash) (K R : ℕ) : ℕ :=
  K*({b | F.mem b}.ncard)+({b | F.mem b}.ncard)*(4*R+8)+K+R+1

theorem uncovered_le_all (hfin : {b | F.mem b}.Finite) (V : Account → ℕ) :
    (F.uncovered V).ncard ≤ {b | F.mem b}.ncard :=
  Set.ncard_le_ncard (fun _ hb => hb.1) hfin

section
open Unbounded UnboundedWrites UnboundedSpec
variable {K R fuel : ℕ} {V : Account → ℕ} {p q : Processor} {h : BlockHash}

section
variable (g : Grounds C F L₀)
include g

theorem unbounded_start :
    Tracked F L₀ (fresh L₀ size) (heightsIn L₀) (heightsIn L₀) where
  sound := Sound.start g.written rfl rfl rfl
  confirmed := by
    funext a
    simp [confirmedIn,fresh]
  iterated := by
    funext a
    simp [iteratedIn,fresh]
  pending := .nil _
  cache h r hr := by simp [fresh] at hr
  cached w hw := by cases hw

theorem unbounded_process (hK : ∀ b, F.mem b → F.height b < K) (hfuel : enough F K R ≤ fuel)
    (hT : Tracked F L₀ p V V) (hm : F.mem h) :
    ∃ q V', process C env fuel p h = some q ∧ Tracked F L₀ q V' V' ∧ F.Absorb V h V' := by
  refine process_spec g.backed g.finite hK hm ?_ hT
  have := Nat.mul_le_mul_left K (uncovered_le_all g.finite V)
  unfold enough at hfuel
  omega

theorem unbounded_run (hts : ∀ h ∈ added ts, F.mem h) (hK : ∀ b, F.mem b → F.height b < K)
    (hfuel : enough F K R ≤ fuel) :
    ∃ q, run C env fuel (fresh L₀ size) (ts ++ [.idle]) = some q ∧
      Outcome F L₀ (added ts) q.trace := by
  obtain ⟨q,hq⟩ : ∃ q, run C env fuel (fresh L₀ size) (ts ++ [.idle]) = some q := by
    refine turns_return (fun p V => Tracked F L₀ p V V) (ts ++ [.idle]) (fun p V h hT hh => ?_)
      (fun p V hT => ?_) (unbounded_start g)
    · obtain ⟨q,V',hq,hT',-⟩ := unbounded_process g hK hfuel hT (hts h (added_flush ▸ hh))
      exact ⟨q,V',hq,hT'⟩
    · obtain ⟨q,hq,hT',-⟩ := idle_spec g.backed hT
      exact ⟨q,hq,hT'⟩
  refine ⟨q,hq,turns_outcome (fun p V => Tracked F L₀ p V V)
    (fun p V h q hT hq => ?_) (fun p V q hT hq => ?_) (unbounded_start g) hq⟩
  · obtain ⟨r,hr,-⟩ := bind_eq_some_iff.mp hq
    rw [hT.sound.written.blocks] at hr
    obtain ⟨q',V',hq',hT',hA⟩ := unbounded_process g hK hfuel hT (g.backed.mem h r hr)
    cases hq'.symm.trans hq
    exact ⟨V',hT',hA⟩
  · obtain ⟨q',hq',hT',hp⟩ := idle_spec g.backed hT
    obtain rfl := some.inj (hq'.symm.trans hq)
    have hV : heightsIn q'.trace.ledger = V := by
      have := hT'.pending
      rw [hp] at this
      cases this
      rfl
    exact ⟨hT',hV,hT'.sound⟩

end

def UnboundedStage (F : Forest Account BlockHash) (L₀ : Ledger) (K : ℕ) :
    Stage Processor Walk → Prop
  | .between p => ∃ V, Tracked F L₀ p V V
  | .within a r w => F.mem a ∧ L₀.blocks[a]? = some r ∧
      ∃ Vs n V I fs, Walking F L₀ Vs a K n w V I fs

variable (g : Grounds C F L₀)
include g

theorem unbounded_reaches (hK : ∀ b, F.mem b → F.height b < K) {s : Stage Processor Walk}
    (h : Reaches C env (fresh L₀ size) s) :
    UnboundedStage F L₀ K s := by
  induction h with
  | start => exact ⟨_,unbounded_start g⟩
  | added _ hr _ ih =>
    obtain ⟨V,hT⟩ := ih
    rw [hT.sound.written.blocks] at hr
    exact ⟨g.backed.mem _ _ hr,hr,V,_,V,V,[],Walking.start hT⟩
  | round _ hs ih =>
    obtain ⟨hm,hr,Vs,n,V,I,fs,hw⟩ := ih
    exact ⟨hm,hr,Vs,round_goes_on g.backed g.finite hK hm hr hw hs⟩
  | finished _ hs ih =>
    obtain ⟨hm,hr,Vs,n,V,I,fs,hw⟩ := ih
    obtain ⟨V',hT,-⟩ := round_ends g.backed g.finite hK hm hr hw hs
    exact ⟨V',hT⟩
  | idled _ hq ih =>
    obtain ⟨V,hT⟩ := ih
    obtain ⟨q',hq',hT',-⟩ := idle_spec g.backed hT
    cases hq'.symm.trans hq
    exact ⟨V,hT'⟩

theorem unbounded_stage {s : Stage Processor Walk} (h : Reaches C env (fresh L₀ size) s) :
    Sound F L₀ (stageTrace s) [] (heightsIn (stageTrace s).ledger) := by
  obtain ⟨K,hK⟩ := Forest.height_bounded g.finite
  have hinv := unbounded_reaches g hK h
  cases s with
  | between p =>
    obtain ⟨V,hT⟩ := hinv
    exact hT.sound
  | within a r w =>
    obtain ⟨-,-,Vs,n,V,I,fs,hw⟩ := hinv
    exact hw.inner.tracked.sound

theorem unbounded_goes_on {r : StoredBlock} {w : Walk}
    (hw : Reaches C env (fresh L₀ size) (.within h r w)) :
    ∃ o, processStep C env h r w = some o := by
  obtain ⟨K,hK⟩ := Forest.height_bounded g.finite
  obtain ⟨hm,hr,Vs,n,V,I,fs,hw⟩ := unbounded_reaches g hK hw
  rcases processStep_spec env g.backed g.finite hK hm hr hw with
    ⟨w',n',V',I',gs,hs',-⟩ | ⟨q,V',hs',-⟩
  · exact ⟨_,hs'⟩
  · exact ⟨_,hs'⟩

end

open Bounded BoundedWrites BoundedSpec BoundedReturns
variable {K R fuel : ℕ} {V : Account → ℕ} {p q : Processor} {h : BlockHash}

theorem bounded_start (g : Grounds C F L₀) : Tracked F L₀ (fresh L₀ size) (heightsIn L₀) where
  sound := Sound.start g.written rfl rfl rfl
  cached a i hi := by simp [fresh] at hi
  stored a _ := rfl
  pending := .nil _

variable (ts) in
theorem bounded_run (g : Grounds C F L₀) (hK : ∀ b, F.mem b → F.height b < K)
    (hfuel : enough F K R ≤ fuel)
    (hq : run C env fuel (fresh L₀ size) (ts ++ [.idle]) = some q) :
    Outcome F L₀ (added ts) q.trace := by
  have hheight : ∀ b, F.mem b → F.height b < fuel := by
    intro b hb
    have := hK b hb
    unfold enough at hfuel
    omega
  refine turns_outcome (Tracked F L₀) (fun p V h q hT hq => ?_)
    (fun p V q hT hq => ?_) (bounded_start g) hq
  · obtain ⟨r,hr,-⟩ := bind_eq_some_iff.mp hq
    rw [hT.sound.written.blocks] at hr
    exact process_partial g.backed (g.backed.mem h r hr) hheight hT hq
  · obtain ⟨q',hq',hT',hp⟩ := idle_spec g.backed hT (.inr (by rw [hq]; exact some_ne_none q))
    cases hq'.symm.trans hq
    exact ⟨hT',hT'.flushed hp,hT'.sound⟩

theorem fits_flushed (hp : q.pendingWrites = []) : Fits q := by
  rw [Fits,hp]
  trivial

variable (ts) in
theorem bounded_returns (g : Grounds C F L₀) (hts : ∀ h ∈ added ts, F.mem h)
    (hK : ∀ b, F.mem b → F.height b < K) (hR : ∀ b, F.mem b → F.rank b < R)
    (hfuel : enough F K R ≤ fuel)
    (hgood : ∀ h ∈ added ts, Erases maxItems F (heightsIn L₀) h ∧
      F.Brief (2^31) (heightsIn L₀) h) :
    ∃ q, run C env fuel (fresh L₀ size) (ts ++ [.idle]) = some q := by
  refine turns_return (fun p V => Tracked F L₀ p V ∧ Fits p ∧ ∃ bs, F.Raises (heightsIn L₀) bs V)
    (ts ++ [.idle]) ?_ ?_ ⟨bounded_start g,fits_flushed rfl,[],.nil _⟩
  · rintro p V h ⟨hT,hf,bs,hg⟩ hh
    rw [added_flush] at hh
    obtain ⟨herase,hbrief⟩ := hgood h hh
    have hheight : ∀ b, F.mem b → F.height b < fuel := by
      intro b hb
      have := hK b hb
      unfold enough at hfuel
      omega
    have hrounds : (F.uncovered V).ncard*(4*R+8)+R ≤ fuel := by
      have := Nat.mul_le_mul_right (4*R+8) (uncovered_le_all g.finite V)
      unfold enough at hfuel
      omega
    obtain ⟨q,V',hq,hT',hf',⟨cs,hr,-⟩,-⟩ := process_returns env g.backed g.finite (hts h hh)
      hR hheight hrounds hT hf herase (hbrief.mono hg.le) hg
    exact ⟨q,V',hq,hT',hf',_,hg.append hr⟩
  · rintro p V ⟨hT,hf,hg⟩
    obtain ⟨q,hq,hT',hp⟩ := idle_spec g.backed hT (.inl hf)
    exact ⟨q,hq,hT',fits_flushed hp,hg⟩

/-- Where a run of the bounded processor stands. If `brief` holds, no write is too long. -/
def BoundedStage (F : Forest Account BlockHash) (L₀ : Ledger) (brief : Prop) :
    Stage Processor Walk → Prop
  | .between p => ∃ V, Tracked F L₀ p V ∧ (brief → Fits p)
  | .within a r w => F.mem a ∧ L₀.blocks[a]? = some r ∧
      ∃ Vs V, Standing F L₀ Vs a w V ∧ (brief → Fits w.processor ∧ F.Brief (2^31) Vs a)

variable (g : Grounds C F L₀) (hfuel : ∀ b, F.mem b → F.height b < fuel)
  {ok : Processor → BlockHash → Prop}
include g hfuel

section
variable (brief : Prop)
  (hok : brief → ∀ p V h, Tracked F L₀ p V → F.mem h → ok p h → F.Brief (2^31) V h)
include hok

theorem bounded_reaches {s : Stage Processor Walk}
    (h : Reaches C env fuel ok (fresh L₀ size) s) : BoundedStage F L₀ brief s := by
  induction h with
  | start => exact ⟨_,bounded_start g,fun _ => fits_flushed rfl⟩
  | added _ hr ha ih =>
    obtain ⟨V,hT,hf⟩ := ih
    rw [hT.sound.written.blocks] at hr
    have hm := g.backed.mem _ _ hr
    refine ⟨hm,hr,V,V,Standing.start hT,fun hb => ⟨?_,hok hb _ V _ hT hm ha⟩⟩
    unfold begin
    dsimp only
    split <;> exact hf hb
  | round _ hs ih =>
    obtain ⟨hm,hr,Vs,V,hw,hf⟩ := ih
    obtain ⟨V',hw',hf'⟩ := round_goes_on g.backed hm hr hfuel hw hs
    exact ⟨hm,hr,Vs,V',hw',fun hb => ⟨hf' (hf hb).1 (hf hb).2,(hf hb).2⟩⟩
  | finished _ hs ih =>
    obtain ⟨hm,hr,Vs,V,hw,hf⟩ := ih
    obtain ⟨V',hT,-,hf'⟩ := round_ends g.backed hm hr hfuel hw hs
    exact ⟨V',hT,fun hb => hf' (hf hb).1 (hf hb).2⟩
  | idled _ hq ih =>
    obtain ⟨V,hT,-⟩ := ih
    obtain ⟨q',hq',hT',hp⟩ := idle_spec g.backed hT (.inr (by rw [hq]; exact some_ne_none _))
    cases hq'.symm.trans hq
    exact ⟨V,hT',fun _ => fits_flushed hp⟩

end

theorem bounded_stage {s : Stage Processor Walk} (h : Reaches C env fuel ok (fresh L₀ size) s) :
    Sound F L₀ (stageTrace s) [] (heightsIn (stageTrace s).ledger) := by
  have hinv := bounded_reaches g hfuel False False.elim h
  cases s with
  | between p =>
    obtain ⟨V,hT,-⟩ := hinv
    exact hT.sound
  | within a r w =>
    obtain ⟨-,-,Vs,V,hw,-⟩ := hinv
    exact hw.tracked.sound

section
variable (hok : ∀ p V h, Tracked F L₀ p V → F.mem h → ok p h → F.Brief (2^31) V h)
include hok

theorem bounded_goes_on {r : StoredBlock} {w : Walk}
    (hw : Reaches C env fuel ok (fresh L₀ size) (.within h r w)) :
    ∃ o, processStep C env fuel h r w = some o := by
  obtain ⟨hm,hr,Vs,V,hw,hf⟩ := bounded_reaches g hfuel True (fun _ => hok) hw
  obtain ⟨w',V',-,-,-,-,⟨hs',-⟩ | ⟨hs',-⟩⟩ :=
    round_spec env two_le g.backed hw hm hr hfuel (.inl (hf trivial))
  · exact ⟨_,congrArg _ hs'⟩
  · exact ⟨_,congrArg _ hs'⟩

theorem bounded_idles (hp : Reaches C env fuel ok (fresh L₀ size) (.between p)) :
    ∃ q, idle env p = some q := by
  obtain ⟨V,hT,hf⟩ := bounded_reaches g hfuel True (fun _ => hok) hp
  obtain ⟨q,hq,-⟩ := idle_spec g.backed hT (.inl (hf trivial))
  exact ⟨q,hq⟩

/-- What is written is sound in the middle of a write too. -/
theorem bounded_shows {t : Trace} (h : Shows C env fuel ok (fresh L₀ size) t) :
    ∃ rs W, Sound F L₀ t rs W := by
  have hcements : ∀ {p s V}, Tracked F L₀ p V → Fits p → Cements env p s →
      ∃ rs W, Sound F L₀ s.trace rs W := by
    intro p s V hT hf hs
    obtain ⟨W,hW⟩ := Writing.sound hs g.backed hT.sound rfl hT.pending hf
    exact ⟨_,W,hW⟩
  cases h with
  | stage hs => exact ⟨_,_,bounded_stage g hfuel hs⟩
  | idling hp hs =>
    obtain ⟨V,hT,hf⟩ := bounded_reaches g hfuel True (fun _ => hok) hp
    exact hcements hT (hf trivial) hs
  | @flushing _ _ _ _ _ _ t _ hw hv hi hC ht _ hs =>
    obtain ⟨hm,hr,Vs,V,hstand,hf⟩ := bounded_reaches g hfuel True (fun _ => hok) hw
    obtain ⟨v,hv',hvis⟩ := visit_spec g.backed hstand hm hr
    cases hv'.symm.trans hv
    obtain ⟨hit,i,hi',⟨-,u,V',hP⟩ | ⟨hC',-⟩⟩ :=
      round_prepares g.backed hstand hm hvis two_le hfuel
    · cases hi'.symm.trans hi
      cases hP.prepared.symm.trans ht
      obtain ⟨hfits,hbrief⟩ := hf trivial
      exact hcements (p := { t.processor with trace := t.processor.trace.next })
        (hP.tracked.retrace rfl rfl rfl) (hP.fits hfits hbrief) hs
    · cases hi'.symm.trans hi
      exact absurd hC hC'

end

end

theorem sample_grounded : Grounded sample sampleBlocks := by
  refine ⟨fun | .open_ _ => 0 | .send _ => 1 | _ => 2,?_⟩
  rintro a (rfl | rfl | rfl) b (rfl | rfl | rfl) h <;> revert h <;> unfold Mentions <;> decide

end Vxldollar.CementingRuns
