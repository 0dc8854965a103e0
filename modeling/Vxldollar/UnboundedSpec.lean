import Vxldollar.UnboundedStack

/-!
# Correctness of the unbounded processor

A round confirms the chain it stands on together with the receive that waits
for it, or opens a new frame. Every confirmation is a raise of the forest, so
the process ends with the added block and exactly what it pulls in confirmed.
-/

namespace Vxldollar.UnboundedSpec
open Blocks Store Cementing Sources Unbounded UnboundedWrites UnboundedWalk UnboundedStack List
  Option Forest Function Nat

variable {C : Constants} {F : Forest Account BlockHash} {L₀ : Ledger} {p q : Processor}
  {V V' I I' Vs : Account → ℕ} {m : Mapping} {original s : BlockHash} {O data : List BlockHash}
  {f g : Frame} {fs gs : List Frame} {e : ReceiveSourcePair} {es P : List ReceiveSourcePair}
  {d : Preparation} {a : Account} {base : ℕ}

theorem checkedSub_eq {a b : ℕ} (h : b ≤ a) : checkedSub a b = some (a-b) := if_pos h

theorem trimTo_self {n : ℕ} (h : data.length = n) : trimTo data n = some data := by
  rw [trimTo,checkedSub_eq h.ge,← h,take_length]
  rfl

noncomputable def unconfirmed (F : Forest Account BlockHash) (V : Account → ℕ) (s : BlockHash) :
    List BlockHash :=
  (F.segment (F.account s) (V (F.account s)) (F.height s)).reverse

theorem length_unconfirmed (hs : F.mem s) :
    (unconfirmed F V s).length = F.height s-V (F.account s) := by
  rw [unconfirmed,length_reverse,length_segment hs (le_refl _)]

theorem unconfirmed_ne_nil (hs : F.mem s) (hlt : V (F.account s) < F.height s) :
    unconfirmed F V s ≠ [] := by
  rw [Ne,← length_eq_zero_iff,length_unconfirmed hs]
  omega

theorem entry_length (h : Entry F m a base e) :
    e.receiveDetails.blockCallbackData.length = e.receiveDetails.height-base := by
  rw [h.callback,length_reverse,← h.owner,length_segment h.mem h.height.ge]

theorem entry_take (h : Entry F m a base e) {v : ℕ} (hv : base ≤ v)
    (hlt : v ≤ e.receiveDetails.height) :
    e.receiveDetails.blockCallbackData.take (e.receiveDetails.height-v) =
      (F.segment a v e.receiveDetails.height).reverse := by
  rw [h.callback,← h.owner,take_reverse_segment h.mem hv hlt h.height.ge]

structure Prepares (F : Forest Account BlockHash) (V I : Account → ℕ) (s : BlockHash)
    (d : Preparation) : Prop where
  height : d.blockHeight = F.height s
  confirmed : d.confirmationHeight = V (F.account s)
  iterated : d.iteratedHeight = I (F.account s)
  account : d.account = F.account s
  current : d.current = s
  traversed : d.alreadyTraversed = decide (I (F.account s) ≥ F.height s)

theorem implicitCallbackData_spec (hids : (P.map ReceiveSourcePair.id).Nodup) (he : e ∈ P)
    (hentry : Entry F p.implicitReceiveCementedMapping (F.account s) base e) (hs : F.mem s)
    (hd : Prepares F V I s d) (hbase : base ≤ V (F.account s))
    (hlt : V (F.account s) < F.height s) (hbelow : F.height s < e.receiveDetails.height) :
    implicitCallbackData p P d (F.height s-V (F.account s)) = some (unconfirmed F V s) := by
  have href : p.implicitReceiveCementedMapping[d.current]? = some e.id := by
    rw [hd.current]
    exact (hentry.plain s hs rfl (by omega) hbelow).2
  have hfind : P.find? (fun q => q.id == e.id) = some e := by
    rw [find?_eq_some_iff_append]
    obtain ⟨l₁,l₂,rfl⟩ := mem_iff_append.mp he
    refine ⟨by simp,l₁,l₂,rfl,fun x hx => ?_⟩
    rw [map_append,nodup_append] at hids
    simp only [Bool.not_eq_eq_eq_not,Bool.not_true,beq_eq_false_iff_ne]
    exact hids.2.2 x.id (mem_map_of_mem hx) e.id (by simp)
  have hnum := hentry.num
  have hlen := entry_length hentry
  have e₁ : e.receiveDetails.height-V (F.account s)-(F.height s-V (F.account s)) =
      e.receiveDetails.height-F.height s := by omega
  unfold implicitCallbackData
  simp only [href,hfind,hd.confirmed,hnum,hlen,bind_eq_bind,bind_some]
  rw [checkedSub_eq (by omega),bind_some,checkedSub_eq (by omega),bind_some,
    checkedSub_eq (by omega),bind_some,Nat.sub_sub_self (by omega),
    checkedSub_eq (by omega),bind_some,e₁,entry_take hentry hbase (by omega),← hentry.owner,
    drop_reverse_segment hentry.mem (by rw [hentry.owner]; exact hlt.le) hbelow.le
      hentry.height.ge,hentry.owner]
  rfl

section
variable (T : Tracked F L₀ p V I)
include T

theorem setConfirmed_spec (hd : Prepares F V I s d) (hlt : V (F.account s) < F.height s) :
    ∃ k : ConfirmedIteratedPair, setConfirmed p d = { p with
        confirmedIteratedPairs := p.confirmedIteratedPairs.insert (F.account s) k } ∧
      k.confirmedHeight = F.height s ∧
      max k.iteratedHeight k.confirmedHeight = max (I (F.account s)) (F.height s) := by
  unfold setConfirmed
  rw [hd.account,hd.height,hd.iterated]
  refine ⟨_,rfl,rfl,?_⟩
  have hge := T.iterated_ge (F.account s)
  cases hk : p.confirmedIteratedPairs[F.account s]? with
  | none =>
    have hI : I (F.account s) = V (F.account s) := by
      rw [← T.confirmed,← T.iterated,confirmedIn,iteratedIn,hk]
    dsimp only
    omega
  | some k =>
    dsimp only
    split
    · omega
    · obtain ⟨k',hk',-,hit⟩ := T.cached_pair (a := F.account s) (by omega)
      cases hk.symm.trans hk'
      omega

theorem prepareChain_spec (hr : F.Raise V s V') (hd : Prepares F V I s d)
    (hdata : sourceCallbackData p P d (F.height s-V (F.account s)) = some (unconfirmed F V s))
    (hc : Cached p (unconfirmed F V s)) :
    ∃ q, prepareChain p P d = some q ∧ Tracked F L₀ q V'
      (update I (F.account s) (max (I (F.account s)) (F.height s))) ∧ Keeps p q := by
  have hw : Writes F V ⟨F.account s,s,F.height s,F.height s-V (F.account s),unconfirmed F V s,[]⟩
      V' := ⟨hr,rfl,rfl,rfl,rfl⟩
  obtain ⟨k,hset,hk,hmax⟩ := setConfirmed_spec T hd hr.above
  have hT := T.queue hw hc hk
  rw [hmax] at hT
  refine ⟨_,?_,hT,⟨rfl,rfl,rfl⟩⟩
  unfold prepareChain
  rw [if_pos (by rw [hd.height,hd.confirmed]; exact hr.above)]
  dsimp only
  rw [hset,hd.height,hd.confirmed,hdata,hd.account,hd.current]
  rfl

theorem prepareReceive_spec {r : ConfHeightDetails} (hentry : Entry F m a base e)
    (he : r = { e.receiveDetails with sourceBlockCallbackData := r.sourceBlockCallbackData })
    (hr : F.Raise V e.receiveDetails.hash V') (hbase : base ≤ V a)
    (hwalked : e.receiveDetails.height ≤ I a) (hc : Cached p e.receiveDetails.blockCallbackData) :
    ∃ q, prepareReceive p r = some q ∧ Tracked F L₀ q V' I ∧ Keeps p q := by
  have habove := hr.above
  rw [hentry.owner,hentry.height] at habove
  obtain ⟨k,hk,hkc,hki⟩ := T.cached_pair (a := a) (by omega)
  have htake := entry_take hentry hbase habove.le
  have hw : Writes F V { r with
      numBlocksConfirmed := e.receiveDetails.height-V a
      blockCallbackData := (F.segment a (V a) e.receiveDetails.height).reverse } V' := by
    rw [he]
    refine ⟨hr,hentry.account.trans hentry.owner.symm,hentry.height.symm,?_,?_⟩
    · rw [hentry.owner,hentry.height]
    · rw [hentry.owner,hentry.height]
  have hT := T.queue (k := ⟨e.receiveDetails.height,k.iteratedHeight⟩) hw
    (fun h hh => hc h (mem_of_mem_take (htake ▸ hh))) (by rw [he])
  have hI : update I (F.account r.hash) (max k.iteratedHeight e.receiveDetails.height) =
      I := by
    have : F.account r.hash = a := by rw [he]; exact hentry.owner
    rw [this,hki,max_eq_left hwalked,update_eq_self]
  dsimp only at hT
  rw [hI] at hT
  refine ⟨_,?_,hT,⟨rfl,rfl,rfl⟩⟩
  have hra : r.account = a := by rw [he]; exact hentry.account
  have hrh : r.height = e.receiveDetails.height := by rw [he]
  have hrn : r.numBlocksConfirmed = e.receiveDetails.height-base := by rw [he]; exact hentry.num
  have hrc : r.blockCallbackData = e.receiveDetails.blockCallbackData := by rw [he]
  unfold prepareReceive
  rw [hra,hk]
  dsimp only
  rw [hkc,hrh,hrn,hrc,entry_length hentry,checkedSub_eq (by omega)]
  simp only [bind_eq_bind,bind_some]
  rw [checkedSub_eq (by omega),bind_some,checkedSub_eq (by omega),bind_some,
    Nat.sub_sub_self (by omega),htake]
  rfl

end

section
/-- The invariant of a round: the frames behind the stack, the hashes they
need in the cache, and everything confirmed since the heights `Vs` pulled in
by the added block. -/
structure Inner (F : Forest Account BlockHash) (L₀ : Ledger) (Vs : Account → ℕ)
    (original : BlockHash) (p : Processor) (P : List ReceiveSourcePair) (O : List BlockHash)
    (V I : Account → ℕ) (fs : List Frame) : Prop where
  tracked : Tracked F L₀ p V I
  stack : Stack F p.implicitReceiveCementedMapping V I original O fs
  pairs : P = pairsOf fs
  ids : (P.map ReceiveSourcePair.id).Nodup
  issued : ∀ e ∈ P, e.id < p.nextId
  cached : ∀ e ∈ P, Cached p e.receiveDetails.blockCallbackData ∧
    Cached p e.receiveDetails.sourceBlockCallbackData
  orig : Cached p O
  raised : F.Grows Vs original V
  tops : ∀ f ∈ fs, F.Pull Vs original f.top

section
variable (h : Inner F L₀ Vs original p P O V I fs)
include h

theorem Inner.uncovered (hs : V (F.account s) < F.height s) : ¬ F.Covered Vs s := by
  intro hc
  have := hc.2
  have := h.raised.le (F.account s)
  omega

theorem Inner.move {Q : List ReceiveSourcePair} (hk : Keeps p q) (hT : Tracked F L₀ q V' I')
    (hst : Stack F p.implicitReceiveCementedMapping V' I' original O gs) (hQ : Q = pairsOf gs)
    (hsub : Q.Sublist P) (hg : F.Grows Vs original V') (htops : ∀ g ∈ gs, ∃ f ∈ fs, g.top = f.top) :
    Inner F L₀ Vs original q Q O V' I' gs where
  tracked := hT
  stack := by
    rw [hk.mapping]
    exact hst
  pairs := hQ
  ids := h.ids.sublist (hsub.map _)
  issued := by
    rw [hk.nextId]
    exact fun x hx => h.issued x (hsub.subset hx)
  cached x hx :=
    ⟨hk.cached (h.cached x (hsub.subset hx)).1,hk.cached (h.cached x (hsub.subset hx)).2⟩
  orig := hk.cached h.orig
  raised := hg
  tops := by
    intro g hg
    obtain ⟨f,hf,ht⟩ := htops g hg
    rw [ht]
    exact h.tops f hf

theorem Inner.keeps (hk : Keeps p q) (hT : Tracked F L₀ q V I) :
    Inner F L₀ Vs original q P O V I fs :=
  h.move hk hT h.stack h.pairs (Sublist.refl P) h.raised (fun g hg => ⟨g,hg,rfl⟩)

end

section
variable (h : Inner F L₀ Vs original p P O V I (f :: fs)) (he : f.entries = e :: es)
include h he

theorem Inner.front : P = e :: (es ++ pairsOf fs) ∧ F.mem e.sourceHash := by
  obtain ⟨base,-,hentry,-⟩ := h.stack.frames.entry mem_cons_self he
  refine ⟨?_,F.source_mem hentry.mem hentry.source⟩
  rw [h.pairs,pairsOf,flatMap_cons,he]
  rfl

theorem Inner.entry_pulled : F.Pull Vs original e.receiveDetails.hash := by
  obtain ⟨base,-,hentry,hlt,hle⟩ := h.stack.frames.entry mem_cons_self he
  refine (h.tops f mem_cons_self).lower hentry.mem hentry.owner
    (by rw [hentry.height]; exact hle) (h.uncovered ?_)
  rw [hentry.owner,hentry.height]
  exact hlt

theorem Inner.source_pulled (hs : V (F.account e.sourceHash) < F.height e.sourceHash) :
    F.Pull Vs original e.sourceHash := by
  obtain ⟨base,-,hentry,-⟩ := h.stack.frames.entry mem_cons_self he
  exact (h.entry_pulled he).source hentry.source (h.uncovered hs)

theorem Inner.receive (hs : F.Covered V e.sourceHash) {r : ConfHeightDetails}
    (hd : r = { e.receiveDetails with sourceBlockCallbackData := r.sourceBlockCallbackData }) :
    ∃ q V' gs, prepareReceive p r = some q ∧ Inner F L₀ Vs original q P.tail O V' I gs ∧
      Quiet gs ∧ (gs = [] → F.Covered V' original) := by
  have hr := h.stack.frames.raise mem_cons_self he hs
  obtain ⟨gs,hst,hq,hpairs,htops,hdone⟩ := h.stack.receive he
  obtain ⟨cb,ho⟩ := h.stack.frames.opened mem_cons_self
  obtain ⟨base,hbase,hentry,hlt,hle⟩ := h.stack.frames.entry mem_cons_self he
  have hP := (h.front he).1
  obtain ⟨q,hq',hT,hk⟩ := prepareReceive_spec h.tracked hentry hd hr hbase
    (by rw [ho.walked]; exact hle) (h.cached e (by rw [hP]; exact mem_cons_self)).1
  refine ⟨q,_,gs,hq',h.move hk hT hst ?_ (tail_sublist P)
    (h.raised.snoc hr (h.entry_pulled he)) htops,hq,hdone⟩
  rw [hpairs,hP]
  rfl

end

section
variable (h : Inner F L₀ Vs original p P O V I fs)
include h

theorem Inner.grow (hG : Grown L₀ p q)
    (hm : ∀ g ∈ fs, ∀ c, F.mem c → F.account c = F.account g.top →
      q.implicitReceiveCementedMapping[c]? = p.implicitReceiveCementedMapping[c]?)
    (hid : p.nextId ≤ q.nextId) : Inner F L₀ Vs original q P O V I fs where
  tracked := {
    sound := by rw [hG.trace]; exact h.tracked.sound
    confirmed := by
      rw [← h.tracked.confirmed]
      funext a
      rw [confirmedIn,confirmedIn,hG.pairs,hG.trace]
    iterated := by
      rw [← h.tracked.iterated]
      funext a
      rw [iteratedIn,iteratedIn,hG.pairs,hG.trace]
    pending := by
      rw [hG.trace,hG.pending]
      exact h.tracked.pending
    cache := hG.cache
    cached := by
      rw [hG.pending]
      exact fun w hw => hG.cached _ (h.tracked.cached w hw) }
  stack := ⟨h.stack.frames.congr (fun _ _ => .inl rfl) (fun _ _ => rfl) hm,h.stack.silent,
    h.stack.rest⟩
  pairs := h.pairs
  ids := h.ids
  issued e he := (h.issued e he).trans_le hid
  cached e he := ⟨hG.cached _ (h.cached e he).1,hG.cached _ (h.cached e he).2⟩
  orig := hG.cached _ h.orig
  raised := h.raised
  tops := h.tops

theorem Inner.raise (hr : F.Raise V s V') (hpull : F.Pull Vs original s) (hd : Prepares F V I s d)
    (hdata : sourceCallbackData p P d (F.height s-V (F.account s)) = some (unconfirmed F V s))
    (hc : Cached p (unconfirmed F V s))
    (hI : update I (F.account s) (max (I (F.account s)) (F.height s)) = I')
    (hst : Stack F p.implicitReceiveCementedMapping V' I' original O gs) (hP : P = pairsOf gs)
    (htops : ∀ g ∈ gs, ∃ f ∈ fs, g.top = f.top) :
    ∃ q V', prepareChain p P d = some q ∧ Inner F L₀ Vs original q P O V' I' gs ∧
      F.Covered V' s := by
  obtain ⟨q,hq,hT,hk⟩ := prepareChain_spec h.tracked hr hd hdata hc
  rw [hI] at hT
  exact ⟨q,V',hq,h.move hk hT hst hP (Sublist.refl P) (h.raised.snoc hr hpull) htops,
    hr.covered⟩

end

variable {num : ℕ}

theorem sourceCallbackData_block (hd : d.blockCallbackData ≠ []) :
    sourceCallbackData p P d num = some d.blockCallbackData := if_pos hd

theorem sourceCallbackData_original (hd : d.blockCallbackData = []) :
    sourceCallbackData p [] d num = some d.origBlockCallbackData := by
  unfold sourceCallbackData
  rw [if_neg (by simp [hd])]

theorem sourceCallbackData_back (hd : d.blockCallbackData = [])
    (ht : e.receiveDetails.sourceBlockCallbackData ≠ [])
    (hl : e.receiveDetails.sourceBlockCallbackData.length = num) :
    sourceCallbackData p (e :: es) d num = some e.receiveDetails.sourceBlockCallbackData := by
  unfold sourceCallbackData
  rw [if_neg (by simp [hd])]
  dsimp only
  rw [if_neg (fun h => ht h.2),bind_some,trimTo_self hl]

section
variable (h : Inner F L₀ Vs original p P O V I (f :: fs))
include h

theorem Inner.finish (he : f.entries = []) (hd : Prepares F V I f.top d)
    (hb : d.blockCallbackData = []) (hO : d.origBlockCallbackData = O) :
    ∃ q V', prepareChain p P d = some q ∧ Inner F L₀ Vs original q P O V' I fs ∧
      F.Covered V' f.top := by
  obtain ⟨hr,haw⟩ := h.stack.finish he
  obtain ⟨cb,ho⟩ := h.stack.frames.opened mem_cons_self
  have hP : P = pairsOf fs := by
    rw [h.pairs,pairsOf,flatMap_cons,he]
    rfl
  -- the hashes are the added block's or those of the receive that waits
  obtain ⟨hdata,hc⟩ : sourceCallbackData p P d (F.height f.top-V (F.account f.top)) =
      some (unconfirmed F V f.top) ∧ Cached p (unconfirmed F V f.top) := by
    cases fs with
    | nil =>
      rw [unconfirmed,(awaited_nil haw).2,hP,← hO]
      exact ⟨sourceCallbackData_original hb,hO ▸ h.orig⟩
    | cons g gs =>
      obtain ⟨x,xs,hxs,-,hx⟩ := awaited_cons haw
      have hPx : P = x :: (xs ++ pairsOf gs) := by
        rw [hP,pairsOf,flatMap_cons,hxs]
        rfl
      change _ = unconfirmed F V f.top at hx
      rw [← hx]
      refine ⟨?_,(h.cached x (by rw [hPx]; exact mem_cons_self)).2⟩
      rw [hPx]
      refine sourceCallbackData_back hb ?_ ?_
      · rw [hx]
        exact unconfirmed_ne_nil ho.mem ho.unconfirmed
      · rw [hx,length_unconfirmed ho.mem]
  refine h.raise hr (h.tops f mem_cons_self) hd hdata hc ?_ h.stack.drop hP
    (fun g hg => ⟨g,mem_cons_of_mem _ hg,rfl⟩)
  rw [← ho.walked,max_self,update_eq_self]

theorem Inner.lower (hq : Quiet (f :: fs)) (he : f.entries = e :: es)
    (hs : V (F.account e.sourceHash) < F.height e.sourceHash)
    (hw : F.height e.sourceHash ≤ I (F.account e.sourceHash)) (hd : Prepares F V I e.sourceHash d)
    (hb : d.blockCallbackData = []) :
    ∃ q V', prepareChain p P d = some q ∧ Inner F L₀ Vs original q P O V' I (f :: fs) ∧
      F.Covered V' e.sourceHash := by
  obtain ⟨hP,hmem⟩ := h.front he
  -- the walked heights run ahead only in the account of a frame
  obtain ⟨g,hg,hga⟩ : ∃ g ∈ f :: fs, F.account e.sourceHash = F.account g.top := by
    by_contra hno
    push Not at hno
    have := h.stack.rest (F.account e.sourceHash) (fun g hg => (hno g hg).symm)
    omega
  obtain ⟨x,xs,hx,hlow⟩ := h.stack.frames.below he hg hga
  obtain ⟨base,hbase,hentry,-⟩ := h.stack.frames.entry hg hx
  rw [← hga] at hbase hentry
  have hxP : x ∈ P := by
    rw [h.pairs]
    exact mem_flatMap.mpr ⟨g,hg,by rw [hx]; exact mem_cons_self⟩
  have hr := Raise.plainly hmem hs
    (fun c hc ha h1 h2 => (hentry.plain c hc ha (by omega) (by omega)).1)
  have hquiet : e.receiveDetails.sourceBlockCallbackData = [] :=
    hq e (by rw [he]; exact mem_cons_self)
  have hdata : sourceCallbackData p P d (F.height e.sourceHash-V (F.account e.sourceHash)) =
      some (unconfirmed F V e.sourceHash) := by
    have himp := implicitCallbackData_spec h.ids hxP hentry hmem hd hbase hs hlow
    unfold sourceCallbackData
    rw [if_neg (by simp [hb]),hP]
    dsimp only
    rw [if_pos ⟨by rw [hd.traversed]; exact decide_eq_true hw,hquiet⟩,← hP,himp,bind_some,
      trimTo_self (length_unconfirmed hmem)]
  have hcached : Cached p (unconfirmed F V e.sourceHash) := by
    intro y hy
    refine (h.cached x hxP).1 y ?_
    rw [unconfirmed,mem_reverse,mem_segment] at hy
    rw [hentry.callback,mem_reverse,mem_segment]
    exact ⟨hy.1,hy.2.1,by omega,by omega⟩
  refine h.raise hr (h.source_pulled he hs) hd hdata hcached ?_ ?_ h.pairs
    (fun g hg => ⟨g,hg,rfl⟩)
  · rw [max_eq_left hw,update_eq_self]
  · rw [hga]
    exact h.stack.lower hg hx (by rw [← hga]; exact hs.le) hlow

end

theorem Inner.plain (h : Inner F L₀ Vs original p P O V I fs) (hs : F.mem s)
    (hpull : F.Pull Vs original s) (hlt : V (F.account s) < F.height s)
    (hout : ∀ g ∈ fs, F.account g.top ≠ F.account s)
    (hplain : ∀ c, F.mem c → F.account c = F.account s → V (F.account s) < F.height c →
      F.height c ≤ F.height s → F.source c = none) (hd : Prepares F V I s d)
    (hdata : sourceCallbackData p P d (F.height s-V (F.account s)) = some (unconfirmed F V s))
    (hc : Cached p (unconfirmed F V s)) :
    ∃ q V', prepareChain p P d = some q ∧ Inner F L₀ Vs original q P O V'
      (update I (F.account s) (F.height s)) fs ∧ F.Covered V' s := by
  refine h.raise (Raise.plainly hs hlt hplain) hpull hd hdata hc ?_
    (h.stack.elsewhere hout) h.pairs (fun g hg => ⟨g,hg,rfl⟩)
  rw [h.stack.rest _ hout,max_eq_right hlt.le]

theorem Inner.outside (h : Inner F L₀ Vs original p P O V I (f :: fs)) (he : f.entries = e :: es)
    (hw : I (F.account e.sourceHash) < F.height e.sourceHash) :
    ∀ g ∈ f :: fs, F.account g.top ≠ F.account e.sourceHash := by
  intro g hg ha
  obtain ⟨x,xs,hx,hlow⟩ := h.stack.frames.below he hg ha.symm
  obtain ⟨cb,ho⟩ := h.stack.frames.opened hg
  obtain ⟨base,-,-,-,hle⟩ := h.stack.frames.entry hg hx
  have := ho.walked
  rw [ha] at this
  omega

end

section
variable {top : ℕ} {callback : List BlockHash} {c : Collected} {v : Visit} {next : ℕ}

section
variable (h : Listed F m a top callback base es)
include h

theorem listed_hashes :
    (∀ x ∈ callback, x ∈ F.segment a base top) ∧
    ∀ e ∈ es, ∀ x ∈ e.receiveDetails.blockCallbackData, x ∈ F.segment a base top := by
  induction es generalizing base with
  | nil =>
    refine ⟨fun x hx => ?_,nofun⟩
    rw [h.2.2] at hx
    exact mem_reverse.mp hx
  | cons e es ih =>
    obtain ⟨h1,h2⟩ := ih h.2
    rw [segment_append h.1.above.le h.2.base_le]
    refine ⟨fun x hx => mem_append_right _ (h1 x hx),forall_mem_cons.mpr ⟨?_,?_⟩⟩
    · intro x hx
      rw [h.1.callback] at hx
      exact mem_append_left _ (mem_reverse.mp hx)
    · exact fun y hy x hx => mem_append_right _ (h2 y hy x hx)

theorem listed_length : es.length+base ≤ top := by
  induction es generalizing base with
  | nil =>
    have := h.1
    simpa using this
  | cons e es ih =>
    have := ih h.2
    have := h.1.above
    rw [length_cons]
    omega

end

theorem setIterated_spec (T : Tracked F L₀ p V I) (ha : v.account = a)
    (hc : v.confirmationHeight = V a) (hi : v.iteratedHeight = I a) (hh : v.blockHeight = top)
    (hlt : I a < top) :
    Tracked F L₀ (setIterated p v) V (update I a top) ∧ Keeps p (setIterated p v) := by
  have hge := T.iterated_ge a
  have heq : setIterated p v = { p with
      confirmedIteratedPairs := p.confirmedIteratedPairs.insert a ⟨V a,top⟩ } := by
    unfold setIterated
    rw [hh,hi,if_pos hlt,ha,hc]
    congr 2
    cases hk : p.confirmedIteratedPairs[a]? with
    | none => rfl
    | some k =>
      have : k.confirmedHeight = V a := by rw [← T.confirmed,confirmedIn,hk]
      rw [← this]
  rw [heq]
  refine ⟨⟨T.sound,?_,?_,T.pending,T.cache,T.cached⟩,⟨rfl,rfl,rfl⟩⟩
  · funext b
    rw [confirmedIn,Table.get_insert]
    by_cases e : b = a
    · rw [if_pos e,e]
    · rw [if_neg e,← T.confirmed]
      rfl
  · funext b
    rw [iteratedIn,Table.get_insert]
    by_cases e : b = a
    · rw [if_pos e,e,update_self]
      dsimp only
      omega
    · rw [if_neg e,update_of_ne e,← T.iterated]
      rfl

theorem withSource_ids : (withSource callback P).map ReceiveSourcePair.id =
    P.map ReceiveSourcePair.id := by
  cases P <;> rfl

theorem withSource_length : (withSource callback P).length = P.length := by
  cases P <;> rfl

theorem Inner.push {xs : List ReceiveSourcePair} (h : Inner F L₀ Vs original p P O V I fs)
    (haw : awaited original O fs = some (s,data)) (hs : F.mem s) (hpull : F.Pull Vs original s)
    (hlt : V (F.account s) < F.height s) (hout : ∀ g ∈ fs, F.account g.top ≠ F.account s)
    (hnext : ∀ x ∈ P, x.id < next) {flag : Bool}
    (hst : Stacked F (F.account s) (F.height s) (V (F.account s)) next P O flag c xs callback)
    (hc : c.processor = p)
    (hcached : Cached p (F.segment (F.account s) (V (F.account s)) (F.height s)))
    (hT : Tracked F L₀ q V (update I (F.account s) (F.height s))) (hk : Keeps p q) :
    Inner F L₀ Vs original q (xs ++ withSource callback P) (resumeOrig callback O fs) V
      (update I (F.account s) (F.height s)) (⟨s,xs⟩ :: resume callback fs) := by
  obtain ⟨hcall,hblock⟩ := listed_hashes hst.listed
  have hlisted := hst.listed
  rw [hc] at hlisted
  have hcall' : Cached p callback := fun y hy => hcached y (hcall y hy)
  refine ⟨hT,?_,?_,?_,?_,?_,?_,h.raised,?_⟩
  · rw [hk.mapping]
    exact h.stack.push haw hs hlt hout hst.nonempty hlisted (fun x hx => (hst.fresh x hx).2.2)
  · rw [h.pairs,← pairsOf_resume haw]
    rfl
  · rw [map_append,withSource_ids,nodup_append]
    refine ⟨hst.ids,h.ids,?_⟩
    intro i hi j hj hij
    obtain ⟨x,hx,rfl⟩ := mem_map.mp hi
    obtain ⟨y,hy,rfl⟩ := mem_map.mp hj
    have := (hst.fresh x hx).1
    have := hnext y hy
    omega
  · rw [hk.nextId]
    intro x hx
    rcases mem_append.mp hx with hx | hx
    · rw [← hc]
      exact (hst.fresh x hx).2.1
    · have : x.id ∈ P.map ReceiveSourcePair.id := by
        rw [← withSource_ids]
        exact mem_map_of_mem hx
      obtain ⟨y,hy,hid⟩ := mem_map.mp this
      rw [← hid]
      exact h.issued y hy
  · intro x hx
    rcases mem_append.mp hx with hx | hx
    · refine ⟨hk.cached (fun y hy => hcached y (hblock x hx y hy)),?_⟩
      rw [(hst.fresh x hx).2.2]
      exact nofun
    · have hold := h.cached
      cases P with
      | nil => cases hx
      | cons e es =>
        rcases mem_cons.mp hx with rfl | hx
        · exact ⟨hk.cached (hold e mem_cons_self).1,hk.cached hcall'⟩
        · obtain ⟨h1,h2⟩ := hold x (mem_cons_of_mem _ hx)
          exact ⟨hk.cached h1,hk.cached h2⟩
  · cases fs with
    | nil => exact hk.cached hcall'
    | cons f fs => exact hk.cached h.orig
  · exact forall_mem_cons.mpr ⟨hpull,(resume_top).mpr h.tops⟩

end

section
variable {w : Walk} {v : Visit} {c : Collected} {originalBlock : StoredBlock} {t : BlockHash}
  {K : ℕ}

structure Visited (F : Forest Account BlockHash) (L₀ : Ledger) (V I : Account → ℕ) (t : BlockHash)
    (v : Visit) : Prop where
  record : L₀.blocks[t]? = some v.block
  account : v.account = F.account t
  height : v.blockHeight = F.height t
  confirmed : v.confirmationHeight = V (F.account t)
  iterated : v.iteratedHeight = I (F.account t)

theorem visit_spec (B : Backed C F L₀) (h : Inner F L₀ Vs original w.processor P O V I fs)
    (ht : w.target original = t) (hm : F.mem t) (hfirst : w.firstIter = true → t = original)
    (hor : L₀.blocks[original]? = some originalBlock) :
    ∃ v, visit original originalBlock w = some v ∧ Visited F L₀ V I t v ∧
      Inner F L₀ Vs original v.processor P O V I fs := by
  obtain ⟨r,hr,hread⟩ := B.get _ hm
  obtain ⟨q,hq,hG,-,hmap,hid⟩ := blockOf_spec h.tracked.cache
    (if w.firstIter then some originalBlock else none) h.tracked.sound.written.blocks hr (by
      intro x hx
      split at hx
      · rename_i hf
        cases hx
        rw [hfirst hf] at hr
        exact some.inj (hor.symm.trans hr)
      · cases hx)
  have hI := h.grow hG (fun _ _ _ _ _ => by rw [hmap]) hid.ge
  have hconf := congrFun hI.tracked.confirmed (F.account t)
  have hiter := congrFun hI.tracked.iterated (F.account t)
  unfold confirmedIn at hconf
  unfold iteratedIn at hiter
  unfold visit
  rw [ht,hq,map_some]
  dsimp only
  rw [hread.account,hread.height]
  cases hk : q.confirmedIteratedPairs[F.account t]? with
  | some k =>
    rw [hk] at hconf hiter
    refine ⟨_,rfl,⟨hr,rfl,rfl,hconf,?_⟩,hI⟩
    dsimp only at hiter ⊢
    rw [← hiter]
    split <;> omega
  | none =>
    rw [hk] at hconf hiter
    refine ⟨_,rfl,⟨hr,rfl,rfl,hconf,hiter⟩,?_⟩
    dsimp only
    split
    · exact hI.keeps ⟨rfl,rfl,rfl⟩ (hI.tracked.retrace rfl rfl rfl)
    · exact hI

/-- The walk down an unwalked chain. -/
theorem collect_spec (B : Backed C F L₀)
    (h : Inner F L₀ Vs original v.processor w.receiveSourcePairs w.origBlockCallbackData V I fs)
    (hv : Visited F L₀ V I t v) (ht : w.target original = t) (hm : F.mem t)
    (hout : ∀ g ∈ fs, F.account g.top ≠ F.account t) (hlt : V (F.account t) < F.height t)
    (hawait : Awaited (decide (t = original)) w.receiveSourcePairs) :
    ∃ c, collectUnconfirmedReceiveAndSourcesForAccount C original w v = some c ∧
      Mid F L₀ (F.account t) (F.height t) v.processor w.receiveSourcePairs w.origBlockCallbackData
        (decide (t = original)) (V (F.account t)) c ∧
      Inner F L₀ Vs original c.processor w.receiveSourcePairs w.origBlockCallbackData V I fs := by
  have hIV : I (F.account t) = V (F.account t) := h.stack.rest _ hout
  have hadd : V (F.account t)+(F.height t-V (F.account t)) = F.height t := by omega
  unfold collectUnconfirmedReceiveAndSourcesForAccount
  dsimp only
  rw [if_neg (by rw [hv.iterated,hv.height,hIV]; omega),hv.account,hv.iterated,hv.height,hIV,ht]
  obtain ⟨c,hc,hM⟩ := collectLoop_spec (O := w.origBlockCallbackData) B
    hawait h.tracked.sound.written.blocks (F.height t-V (F.account t)) t (some v.block)
    { processor := v.processor, receiveSourcePairs := w.receiveSourcePairs,
      origBlockCallbackData := w.origBlockCallbackData,
      isOriginalBlock := decide (t = original) } hadd.le (fun _ => ⟨hm,rfl,hadd.symm⟩)
    (fun r hr => by rw [← some.inj hr]; exact hv.record) (by
      rw [hadd]
      have hempty := segment_empty (F := F) (a := F.account t) (le_refl (F.height t))
      refine ⟨Grown.refl h.tracked.cache,?_,fun _ _ => rfl,le_refl _,.inl
        ⟨?_,rfl,rfl,rfl,?_,?_⟩⟩
      · rw [hempty]
        exact nofun
      · intro x _ _ h1 h2
        omega
      · simp [hempty]
      · simp [hempty])
  refine ⟨c,hc,hM,h.grow hM.grown ?_ hM.nextId⟩
  intro g hg x _ hx
  refine hM.mapping x (fun hn => hout g hg ?_)
  rw [← hx,hn.2.1]

def preparation (original : BlockHash) (w : Walk) (v : Visit) (c : Collected) : Preparation where
  blockHeight := v.blockHeight
  confirmationHeight := v.confirmationHeight
  iteratedHeight := v.iteratedHeight
  account := v.account
  alreadyTraversed := decide (v.iteratedHeight ≥ v.blockHeight)
  current := w.target original
  blockCallbackData := c.blockCallbackData
  origBlockCallbackData := c.origBlockCallbackData

theorem Visited.prepares (hv : Visited F L₀ V I t v) (ht : w.target original = t)
    (c : Collected) : Prepares F V I t (preparation original w v c) :=
  ⟨hv.height,hv.confirmed,hv.iterated,hv.account,ht,by
    rw [preparation,hv.iterated,hv.height]⟩

theorem prepareChain_covered (hd : Prepares F V I t d) (hc : F.Covered V t) :
    prepareChain p P d = some p := by
  have := hc.2
  unfold prepareChain
  rw [if_neg]
  rw [hd.height,hd.confirmed]
  omega

/-- What a round leaves behind, with a measure that falls when there is
another one. -/
structure After (F : Forest Account BlockHash) (L₀ : Ledger) (Vs : Account → ℕ)
    (original : BlockHash) (K : ℕ) (w : Walk) (I : Account → ℕ) (p : Processor)
    (P : List ReceiveSourcePair) (O : List BlockHash) (V' I' : Account → ℕ) (fs : List Frame) :
    Prop where
  inner : Inner F L₀ Vs original p P O V' I' fs
  quiet : Quiet fs
  done : fs = [] → F.Covered V' original
  smaller : P ≠ [] ∨ w.target original ≠ original →
    K*(F.uncovered I').ncard+P.length < K*(F.uncovered I).ncard+w.receiveSourcePairs.length
  last : P = [] → w.target original = original → fs = []

def Rounds (C : Constants) (F : Forest Account BlockHash) (L₀ : Ledger) (Vs : Account → ℕ)
    (original : BlockHash) (originalBlock : StoredBlock) (K : ℕ) (w : Walk) (I : Account → ℕ) :
    Prop :=
  ∃ v c q P V' I' gs, visit original originalBlock w = some v ∧
    collectUnconfirmedReceiveAndSourcesForAccount C original w v = some c ∧
    confirm original w v c = some (q,P) ∧
    After F L₀ Vs original K w I q P c.origBlockCallbackData V' I' gs

theorem Inner.reorig (h : Inner F L₀ Vs original p P O V I []) {O' : List BlockHash}
    (hc : Cached p O') : Inner F L₀ Vs original p P O' V I [] :=
  ⟨h.tracked,⟨trivial,h.stack.silent,h.stack.rest⟩,h.pairs,h.ids,h.issued,h.cached,hc,h.raised,
    h.tops⟩

section
variable (hc : c.receiveSourcePairs = w.receiveSourcePairs)
  (hchain : prepareChain c.processor w.receiveSourcePairs (preparation original w v c) = some p)
include hc hchain

theorem confirm_eq :
    confirm original w v c = (match w.receiveSourcePairs with
      | [] => some p
      | top :: _ => prepareReceive p
          (if v.blockHeight > v.confirmationHeight ∧ c.blockCallbackData = [] then
            { top.receiveDetails with sourceBlockCallbackData := [] }
          else top.receiveDetails)).map (fun p => (p,w.receiveSourcePairs.tail)) := by
  unfold confirm
  rw [if_pos (by rw [hc])]
  unfold prepareIteratedBlocksForCementing
  rw [hc]
  change ((prepareChain c.processor w.receiveSourcePairs (preparation original w v c)).bind _).map
    _ = _
  rw [hchain]
  rfl

theorem Rounds.confirmed (ht : w.target original = t)
    (hv : visit original originalBlock w = some v)
    (hcol : collectUnconfirmedReceiveAndSourcesForAccount C original w v = some c)
    (h : Inner F L₀ Vs original p w.receiveSourcePairs c.origBlockCallbackData V I' fs)
    (haw : awaited original c.origBlockCallbackData fs = some (t,data)) (hcov : F.Covered V t)
    (hI : (F.uncovered I').ncard ≤ (F.uncovered I).ncard) :
    Rounds C F L₀ Vs original originalBlock K w I := by
  have hconf := confirm_eq hc hchain
  cases fs with
  | nil =>
    have hP : w.receiveSourcePairs = [] := h.pairs
    obtain ⟨rfl,-⟩ := awaited_nil haw
    rw [hP] at hconf h
    exact ⟨v,c,p,[],V,I',[],hv,hcol,hconf,h,trivial,fun _ => hcov,fun hn => by simp [ht] at hn,
      fun _ _ => rfl⟩
  | cons f fs =>
    obtain ⟨e,es,he,rfl,-⟩ := awaited_cons haw
    obtain ⟨hP,-⟩ := h.front he
    have hrank := h.stack.frames.source_rank he
    obtain ⟨q,V',gs,hq,hi,hquiet,hdone⟩ := h.receive he hcov
      (r := if v.blockHeight > v.confirmationHeight ∧ c.blockCallbackData = [] then
        { e.receiveDetails with sourceBlockCallbackData := [] } else e.receiveDetails)
      (by split <;> rfl)
    refine ⟨v,c,q,w.receiveSourcePairs.tail,V',I',gs,hv,hcol,?_,hi,hquiet,hdone,fun _ => ?_,
      fun _ hn => ?_⟩
    · rw [hconf,hP]
      dsimp only
      rw [hq]
      rfl
    · have := mul_le_mul_left K hI
      rw [hP,tail_cons,length_cons]
      omega
    · rw [← hn,ht] at hrank
      exact absurd hrank (lt_irrefl _)

end

def uncollected (original : BlockHash) (w : Walk) (v : Visit) : Collected where
  processor := v.processor
  receiveSourcePairs := w.receiveSourcePairs
  origBlockCallbackData := w.origBlockCallbackData
  isOriginalBlock := decide (w.target original = original)

theorem collect_walked (hv : Visited F L₀ V I t v) (hw : F.height t ≤ I (F.account t)) :
    collectUnconfirmedReceiveAndSourcesForAccount C original w v =
      some (uncollected original w v) := by
  unfold collectUnconfirmedReceiveAndSourcesForAccount
  dsimp only
  rw [if_pos (by rw [hv.iterated,hv.height]; exact hw)]
  rfl

theorem uncovered_update (hfin : {b | F.mem b}.Finite) (hmem : F.mem t)
    (hlt : I (F.account t) < F.height t) :
    (F.uncovered (update I (F.account t) (F.height t))).ncard <
      (F.uncovered I).ncard := by
  refine uncovered_lt hfin (fun a => ?_) ((not_covered_iff hmem).mpr hlt)
    ⟨hmem,?_⟩
  · rw [update_apply]
    split
    · rename_i e
      rw [e]
      exact hlt.le
    · exact le_refl _
  · rw [update_self]

section
variable (B : Backed C F L₀) (hfin : {b | F.mem b}.Finite) (hK : ∀ b, F.mem b → F.height b < K)
include B hfin hK

theorem round_fresh
    (h : Inner F L₀ Vs original v.processor w.receiveSourcePairs w.origBlockCallbackData V I fs)
    (hv : visit original originalBlock w = some v) (hvisit : Visited F L₀ V I t v)
    (ht : w.target original = t) (hm : F.mem t) (hpull : F.Pull Vs original t)
    (haw : awaited original w.origBlockCallbackData fs = some (t,[]))
    (hout : ∀ g ∈ fs, F.account g.top ≠ F.account t) (hlt : V (F.account t) < F.height t) :
    Rounds C F L₀ Vs original originalBlock K w I := by
  have hIV : I (F.account t) = V (F.account t) := h.stack.rest _ hout
  have hdec := uncovered_update hfin hm (I := I) (by omega)
  -- only the chain at the bottom is the added block's
  have hflag : decide (t = original) = fs.isEmpty := by
    cases fs with
    | nil => exact decide_eq_true (awaited_nil haw).1
    | cons f fs =>
      obtain ⟨e,es,he,rfl,-⟩ := awaited_cons haw
      have hrank := h.stack.frames.source_rank he
      exact decide_eq_false (fun heq => absurd hrank (by rw [heq]; exact lt_irrefl _))
  have hawait : Awaited (decide (t = original)) w.receiveSourcePairs := by
    rw [hflag]
    intro hn
    cases fs with
    | nil => cases hn
    | cons f fs =>
      obtain ⟨e,es,he,-,hdata⟩ := awaited_cons haw
      exact ⟨e,_,(h.front he).1,hdata⟩
  obtain ⟨c,hc,hM,hIc⟩ := collect_spec B h hvisit ht hm hout hlt hawait
  rw [hflag] at hM
  have hcached : Cached c.processor (unconfirmed F V t) :=
    fun x hx => hM.cached x (mem_reverse.mp hx)
  have hprep := hvisit.prepares ht c
  rcases hM.outcome with hplain | ⟨xs,callback,hst⟩
  · -- its hashes are the added block's or those of the walk
    obtain ⟨data,hIc',hdata,haw'⟩ : ∃ data,
        Inner F L₀ Vs original c.processor w.receiveSourcePairs c.origBlockCallbackData V I fs ∧
        sourceCallbackData c.processor w.receiveSourcePairs (preparation original w v c)
          (F.height t-V (F.account t)) = some (unconfirmed F V t) ∧
        awaited original c.origBlockCallbackData fs = some (t,data) := by
      have hblock := hplain.block
      have horig := hplain.orig
      cases fs with
      | nil =>
        obtain ⟨rfl,hO⟩ := awaited_nil haw
        rw [isEmpty_nil,if_pos rfl] at hblock horig
        rw [← hO,nil_append] at horig
        have hP : w.receiveSourcePairs = [] := h.pairs
        refine ⟨_,hIc.reorig (by rw [horig]; exact hcached),?_,rfl⟩
        rw [hP,sourceCallbackData_original hblock]
        exact congrArg some horig
      | cons f fs =>
        simp only [isEmpty_cons] at hblock horig
        refine ⟨[],by rw [horig]; exact hIc,?_,by rw [horig]; exact haw⟩
        rw [sourceCallbackData_block]
        · exact congrArg some hblock
        · change c.blockCallbackData ≠ []
          rw [hblock]
          exact unconfirmed_ne_nil hm hlt
    obtain ⟨q,V',hq,hIq,hcov⟩ := hIc'.plain hm hpull hlt hout hplain.plain hprep hdata hcached
    exact Rounds.confirmed hplain.pairs hq ht hv hc hIq haw' hcov hdec.le
  · obtain ⟨hT,hk⟩ := setIterated_spec hIc.tracked hvisit.account hvisit.confirmed
      hvisit.iterated hvisit.height (by omega)
    have hin := hIc.push haw hm hpull hlt hout h.issued hst rfl hM.cached hT hk
    obtain ⟨hpairs,horig⟩ : c.receiveSourcePairs = xs ++ withSource callback w.receiveSourcePairs ∧
        c.origBlockCallbackData = resumeOrig callback w.origBlockCallbackData fs := by
      rw [hst.pairs,hst.orig]
      cases fs with
      | nil =>
        rw [show w.receiveSourcePairs = [] from h.pairs,← (awaited_nil haw).2]
        exact ⟨rfl,rfl⟩
      | cons f fs => exact ⟨rfl,rfl⟩
    have hlen : c.receiveSourcePairs.length = xs.length+w.receiveSourcePairs.length := by
      rw [hpairs,length_append,withSource_length]
    have hpos : 0 < xs.length := length_pos_iff.mpr hst.nonempty
    rw [← hpairs,← horig] at hin
    refine ⟨v,c,_,c.receiveSourcePairs,V,_,_,hv,hc,?_,hin,fun x hx => (hst.fresh x hx).2.2,nofun,
      fun _ => ?_,fun hn => ?_⟩
    · unfold confirm
      rw [if_neg (by omega)]
    · -- new receives weigh less than the chain they stand in
      have hlist := listed_length hst.listed
      have hmul := mul_le_mul_left K (succ_le_of_lt hdec)
      rw [mul_succ] at hmul
      have := hK t hm
      omega
    · rw [hn,length_nil] at hlen
      omega

theorem round_original
    (h : Inner F L₀ Vs original w.processor w.receiveSourcePairs w.origBlockCallbackData V I [])
    (ht : w.target original = original) (hmem : F.mem original)
    (hfirst : w.firstIter = true → w.origBlockCallbackData = [])
    (hdone : w.firstIter = false → F.Covered V original)
    (hor : L₀.blocks[original]? = some originalBlock) :
    Rounds C F L₀ Vs original originalBlock K w I := by
  obtain ⟨v,hv,hvisit,hi⟩ := visit_spec B h ht hmem (fun _ => rfl) hor
  by_cases hcov : F.Covered V original
  · have hw := hcov.2.trans (h.tracked.iterated_ge (F.account original))
    exact Rounds.confirmed rfl (prepareChain_covered (hvisit.prepares ht _) hcov) ht hv
      (collect_walked hvisit hw) hi rfl hcov (le_refl _)
  · have hlt := (not_covered_iff hmem).mp hcov
    have hf : w.firstIter = true := by
      by_contra hn
      exact hcov (hdone (by simpa using hn))
    exact round_fresh B hfin hK hi hv hvisit ht hmem (Pull.self hmem (h.uncovered hlt))
      (by rw [hfirst hf]; rfl) nofun hlt

end

section
variable (B : Backed C F L₀) (hor : L₀.blocks[original]? = some originalBlock)
  (hfirst : w.firstIter = false) (h : Inner F L₀ Vs original w.processor w.receiveSourcePairs
    w.origBlockCallbackData V I (f :: fs))
include B hor hfirst h

theorem round_return (he : f.entries = [])
    (hcur : w.receiveSourcePairs = [] → w.target original = original) :
    Rounds C F L₀ Vs original originalBlock K w I := by
  obtain ⟨cb,haw,ho⟩ := h.stack.frames.1
  have hP : w.receiveSourcePairs = pairsOf fs := by
    rw [h.pairs,pairsOf,flatMap_cons,he]
    rfl
  have ht : w.target original = f.top := by
    cases fs with
    | nil => rw [hcur hP,(awaited_nil haw).1]
    | cons g gs =>
      obtain ⟨x,xs,hxs,hx,-⟩ := awaited_cons haw
      unfold Walk.target
      rw [hP,pairsOf,flatMap_cons,hxs]
      exact hx
  obtain ⟨v,hv,hvisit,hi⟩ := visit_spec B h ht ho.mem (fun hn => by rw [hfirst] at hn; cases hn) hor
  obtain ⟨q,V',hq,hIq,hcov⟩ := hi.finish he (hvisit.prepares ht (uncollected original w v)) rfl rfl
  exact Rounds.confirmed rfl hq ht hv (collect_walked hvisit ho.walked.ge) hIq haw hcov
    (le_refl _)

theorem round_source (hfin : {b | F.mem b}.Finite) (hK : ∀ b, F.mem b → F.height b < K)
    (hquiet : Quiet (f :: fs)) (he : f.entries = e :: es) :
    Rounds C F L₀ Vs original originalBlock K w I := by
  obtain ⟨hP,hmem⟩ := h.front he
  have ht : w.target original = e.sourceHash := by
    unfold Walk.target
    rw [hP]
  have haw : awaited original w.origBlockCallbackData (f :: fs) = some (e.sourceHash,[]) := by
    rw [awaited,he,← hquiet e (by rw [he]; exact mem_cons_self)]
    rfl
  obtain ⟨v,hv,hvisit,hi⟩ := visit_spec B h ht hmem (fun hn => by rw [hfirst] at hn; cases hn) hor
  by_cases hw : F.height e.sourceHash ≤ I (F.account e.sourceHash)
  · -- walked before: covered, or below a receive that waits
    have hprep := hvisit.prepares ht (uncollected original w v)
    obtain ⟨q,V',hq,hIq,hcov⟩ : ∃ q V', prepareChain v.processor w.receiveSourcePairs
          (preparation original w v (uncollected original w v)) = some q ∧
        Inner F L₀ Vs original q w.receiveSourcePairs w.origBlockCallbackData V' I (f :: fs) ∧
        F.Covered V' e.sourceHash := by
      by_cases hcov : F.Covered V e.sourceHash
      · exact ⟨v.processor,V,prepareChain_covered hprep hcov,hi,hcov⟩
      · exact hi.lower hquiet he ((not_covered_iff hmem).mp hcov) hw hprep rfl
    exact Rounds.confirmed rfl hq ht hv (collect_walked hvisit hw) hIq haw hcov (le_refl _)
  · rw [not_le] at hw
    have hlt := (h.tracked.iterated_ge (F.account e.sourceHash)).trans_lt hw
    exact round_fresh B hfin hK hi hv hvisit ht hmem (h.source_pulled he hlt) haw
      (hi.outside he hw) hlt

end
end

variable {w : Walk} {originalBlock : StoredBlock} {K n fuel : ℕ} {env : Environment}

structure Walking (F : Forest Account BlockHash) (L₀ : Ledger) (Vs : Account → ℕ)
    (original : BlockHash) (K n : ℕ) (w : Walk) (V I : Account → ℕ) (fs : List Frame) : Prop where
  inner : Inner F L₀ Vs original w.processor w.receiveSourcePairs w.origBlockCallbackData V I fs
  quiet : Quiet fs
  first : w.firstIter = true → fs = [] ∧ w.origBlockCallbackData = []
  later : w.firstIter = false → fs = [] → F.Covered V original
  target : w.receiveSourcePairs = [] → w.target original = original
  measure : K*(F.uncovered I).ncard+w.receiveSourcePairs.length = n

section
variable (B : Backed C F L₀) (hfin : {b | F.mem b}.Finite) (hK : ∀ b, F.mem b → F.height b < K)
  (hmem : F.mem original) (hor : L₀.blocks[original]? = some originalBlock)
  (h : Walking F L₀ Vs original K n w V I fs)
include B hfin hK hmem hor h

theorem round_spec : Rounds C F L₀ Vs original originalBlock K w I := by
  cases fs with
  | nil =>
    exact round_original B hfin hK h.inner (h.target h.inner.pairs) hmem
      (fun hf => (h.first hf).2) (fun hf => h.later hf rfl) hor
  | cons f fs =>
    have hf : w.firstIter = false := by
      by_contra hn
      exact absurd (h.first (by simpa using hn)).1 (by simp)
    cases he : f.entries with
    | nil => exact round_return B hor hf h.inner he h.target
    | cons e es => exact round_source B hor hf h.inner hfin hK h.quiet he

variable (env) in
/-- One round: the loop goes on with a smaller measure, or the added block and
exactly what it pulls in is confirmed. -/
theorem processStep_spec :
    (∃ w' n' V' I' gs, processStep C env original originalBlock w = some (.inl w') ∧
      Walking F L₀ Vs original K n' w' V' I' gs ∧ n' < n) ∨
    (∃ q V', processStep C env original originalBlock w = some (.inr q) ∧
      Tracked F L₀ q V' V' ∧ F.Absorb Vs original V') := by
  obtain ⟨v,c,q,P,V',I',gs,hv,hc,hq,hA⟩ := round_spec B hfin hK hmem hor h
  obtain ⟨q',hq',hT,hk⟩ := flush_spec B env P.isEmpty hA.inner.tracked
  have hI := hA.inner.keeps hk hT
  unfold processStep
  simp only [hv,hc,hq,hq',bind_eq_bind,bind_some]
  by_cases hgo : P.isEmpty = false ∨ w.target original ≠ original
  · left
    have hgo' : P ≠ [] ∨ w.target original ≠ original := by
      rcases hgo with hP | ht
      · exact .inl (fun e => by rw [e] at hP; cases hP)
      · exact .inr ht
    rw [if_pos hgo]
    refine ⟨_,_,V',I',gs,rfl,⟨hI,hA.quiet,nofun,fun _ => hA.done,?_,rfl⟩,
      h.measure ▸ hA.smaller hgo'⟩
    intro hP
    have hP' : P = [] := hP
    have hw : w.receiveSourcePairs ≠ [] := by
      intro hw
      rcases hgo' with hn | hn
      · exact hn hP'
      · exact hn (h.target hw)
    unfold Walk.target
    dsimp only
    rw [hP']
    dsimp only
    rw [if_pos (by simpa using hw)]
  · right
    rw [not_or,not_not,Bool.not_eq_false,List.isEmpty_iff] at hgo
    obtain rfl := hA.last hgo.1 hgo.2
    have hIV : I' = V' := funext (fun a => hI.stack.rest a nofun)
    rw [if_neg (by rw [not_or,not_not,Bool.not_eq_false,List.isEmpty_iff]; exact hgo)]
    exact ⟨q',V',rfl,hIV ▸ hI.tracked,hI.raised,hA.done rfl⟩

theorem round_goes_on {w₁ : Walk}
    (hs : processStep C env original originalBlock w = some (.inl w₁)) :
    ∃ n' V' I' gs, Walking F L₀ Vs original K n' w₁ V' I' gs := by
  rcases processStep_spec env B hfin hK hmem hor h with ⟨w',n',V',I',gs,hs',hw',-⟩ | ⟨q,V',hs',-⟩
  · rw [hs'] at hs
    cases hs
    exact ⟨n',V',I',gs,hw'⟩
  · rw [hs'] at hs
    cases some.inj hs

theorem round_ends (hs : processStep C env original originalBlock w = some (.inr q)) :
    ∃ V', Tracked F L₀ q V' V' ∧ F.Absorb Vs original V' := by
  rcases processStep_spec env B hfin hK hmem hor h with ⟨w',n',V',I',gs,hs',-⟩ | ⟨q',V',hs',hT,hA⟩
  · rw [hs'] at hs
    cases some.inj hs
  · rw [hs'] at hs
    cases hs
    exact ⟨V',hT,hA⟩

end

theorem Inner.start (T : Tracked F L₀ p V V) : Inner F L₀ V original p [] [] V V [] where
  tracked := T
  stack := ⟨trivial,nofun,fun _ _ => rfl⟩
  pairs := rfl
  ids := nodup_nil
  issued := nofun
  cached := nofun
  orig := nofun
  raised := Grows.refl V original
  tops := nofun

theorem Walking.start (T : Tracked F L₀ p V V) :
    Walking F L₀ V original K (K*(F.uncovered V).ncard) (begin p original) V V [] := by
  have hT : Tracked F L₀ (begin p original).processor V V := by
    unfold begin
    dsimp only
    split
    · rename_i he
      exact clearProcessVars_spec T (isEmpty_iff.mp he)
    · exact T
  exact ⟨Inner.start hT,trivial,fun _ => ⟨rfl,rfl⟩,nofun,fun _ => rfl,rfl⟩

/-- The unbounded processor returns with exactly what the added block pulls in
confirmed. -/
theorem process_spec (B : Backed C F L₀) (hfin : {b | F.mem b}.Finite)
    (hK : ∀ b, F.mem b → F.height b < K) (hmem : F.mem original)
    (hfuel : K*(F.uncovered V).ncard < fuel) (T : Tracked F L₀ p V V) :
    ∃ q V', process C env fuel p original = some q ∧ Tracked F L₀ q V' V' ∧
      F.Absorb V original V' := by
  obtain ⟨r,hr,-⟩ := B.get _ hmem
  unfold process
  rw [T.sound.written.blocks,hr,bind_some]
  obtain ⟨q,hq,V',hT',hA⟩ := Loop.loop_total
    (fun n w => ∃ V' I fs, Walking F L₀ V original K n w V' I fs)
    (fun q => ∃ V', Tracked F L₀ q V' V' ∧ F.Absorb V original V')
    (fun n w ⟨V',I,fs,h⟩ => by
      rcases processStep_spec env B hfin hK hmem hr h with
        ⟨w',n',V'',I',gs,hs,hw,hn⟩ | ⟨q,V'',hs,hT,hA⟩
      · exact .inl ⟨w',n',hs,⟨V'',I',gs,hw⟩,hn⟩
      · exact .inr ⟨q,hs,V'',hT,hA⟩)
    fuel _ _ ⟨V,V,[],Walking.start T⟩ hfuel
  exact ⟨q,V',hq,hT',hA⟩

end Vxldollar.UnboundedSpec
