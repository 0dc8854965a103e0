import Vxldollar.UnboundedWalk

/-!
# The stack of the unbounded processor

The stack falls into frames, one for each chain that is walked but not
confirmed. The chain of a frame is the one the lowest receive of the frame
below waits for, the chain at the bottom is the added block's. Sources lie
lower in the order of the forest, so every frame has its own account and a
block that is met again lies below every receive that waits.
-/

namespace Vxldollar.UnboundedStack
open Blocks Unbounded UnboundedWalk List Function

/-- A chain that was walked down from `top`, with its receives, lowest
first. -/
structure Frame where
  top : BlockHash
  entries : List ReceiveSourcePair

structure Opened (F : Forest Account BlockHash) (m : Mapping) (V I : Account → ℕ) (f : Frame)
    (callback : List BlockHash) : Prop where
  mem : F.mem f.top
  unconfirmed : V (F.account f.top) < F.height f.top
  walked : I (F.account f.top) = F.height f.top
  listed : ∃ base, base ≤ V (F.account f.top) ∧
    Listed F m (F.account f.top) (F.height f.top) callback base f.entries ∧
    (f.entries = [] → base = V (F.account f.top)) ∧
    ∀ e es, f.entries = e :: es → V (F.account f.top) < e.receiveDetails.height

def awaited (original : BlockHash) (O : List BlockHash) :
    List Frame → Option (BlockHash × List BlockHash)
  | [] => some (original,O)
  | g :: _ => g.entries.head?.map (fun e =>
      (e.sourceHash,e.receiveDetails.sourceBlockCallbackData))

def Frames (F : Forest Account BlockHash) (m : Mapping) (V I : Account → ℕ)
    (original : BlockHash) (O : List BlockHash) : List Frame → Prop
  | [] => True
  | f :: fs => (∃ callback, awaited original O fs = some (f.top,callback) ∧
      Opened F m V I f callback) ∧ Frames F m V I original O fs

variable {F : Forest Account BlockHash} {m m' : Mapping}
  {V V' I I' : Account → ℕ} {original : BlockHash} {O callback : List BlockHash} {f g : Frame}
  {fs : List Frame} {e : ReceiveSourcePair} {es xs : List ReceiveSourcePair} {s : BlockHash}

theorem awaited_nil (h : awaited original O [] = some (s,callback)) :
    s = original ∧ callback = O := by
  obtain ⟨h1,h2⟩ := Prod.mk.inj (Option.some.inj h)
  exact ⟨h1.symm,h2.symm⟩

theorem awaited_cons (h : awaited original O (g :: fs) = some (s,callback)) :
    ∃ e es, g.entries = e :: es ∧ e.sourceHash = s ∧
      e.receiveDetails.sourceBlockCallbackData = callback := by
  obtain ⟨e,he,hpair⟩ := Option.map_eq_some_iff.mp h
  obtain ⟨es,hes⟩ := head?_eq_some_iff.mp he
  obtain ⟨h1,h2⟩ := Prod.mk.inj hpair
  exact ⟨e,es,hes,h1,h2⟩

theorem Opened.entry (h : Opened F m V I f callback) (he : f.entries = e :: es) :
    ∃ base, base ≤ V (F.account f.top) ∧ Entry F m (F.account f.top) base e ∧
      V (F.account f.top) < e.receiveDetails.height ∧
      e.receiveDetails.height ≤ F.height f.top ∧
      Listed F m (F.account f.top) (F.height f.top) callback e.receiveDetails.height es := by
  obtain ⟨base,hle,hlist,-,hlt⟩ := h.listed
  rw [he] at hlist
  exact ⟨base,hle,hlist.1,hlt e es he,hlist.2.base_le,hlist.2⟩

section
variable (h : Frames F m V I original O fs) (hg : g ∈ fs)
include h hg

theorem Frames.opened :
    ∃ callback, Opened F m V I g callback := by
  induction fs with
  | nil => cases hg
  | cons f fs ih =>
    rcases mem_cons.mp hg with rfl | hg
    · obtain ⟨cb,-,ho⟩ := h.1
      exact ⟨cb,ho⟩
    · exact ih h.2 hg

theorem Frames.entry (he : g.entries = e :: es) :
    ∃ base, base ≤ V (F.account g.top) ∧ Entry F m (F.account g.top) base e ∧
      V (F.account g.top) < e.receiveDetails.height ∧
      e.receiveDetails.height ≤ F.height g.top := by
  obtain ⟨cb,ho⟩ := h.opened hg
  obtain ⟨base,hbase,hentry,hlt,hle,-⟩ := ho.entry he
  exact ⟨base,hbase,hentry,hlt,hle⟩

theorem Frames.entry_rank (he : g.entries = e :: es) :
    F.rank e.receiveDetails.hash ≤ F.rank g.top := by
  obtain ⟨cb,ho⟩ := h.opened hg
  obtain ⟨base,-,hentry,-,hle⟩ := h.entry hg he
  refine Forest.rank_le_chain hentry.mem ho.mem hentry.owner ?_
  rw [hentry.height]
  exact hle

end

theorem Frames.rank (h : Frames F m V I original O (f :: fs)) (hg : g ∈ fs) :
    ∃ e es, g.entries = e :: es ∧ F.rank f.top < F.rank e.receiveDetails.hash := by
  induction fs generalizing f with
  | nil => cases hg
  | cons k ks ih =>
    obtain ⟨callback,haw,-⟩ := h.1
    obtain ⟨e,es,hes,hsource,-⟩ := awaited_cons haw
    obtain ⟨base,-,hentry,-⟩ := h.2.entry mem_cons_self hes
    have hlt : F.rank f.top < F.rank e.receiveDetails.hash := by
      rw [← hsource]
      exact F.rank_source hentry.mem hentry.source
    rcases mem_cons.mp hg with rfl | hg
    · exact ⟨e,es,hes,hlt⟩
    · obtain ⟨e',es',hes',hlt'⟩ := ih h.2 hg
      exact ⟨e',es',hes',(hlt.trans_le (h.2.entry_rank mem_cons_self hes)).trans hlt'⟩

theorem Frames.rank_original (h : Frames F m V I original O fs) (hf : f ∈ fs) :
    F.rank f.top ≤ F.rank original := by
  induction fs generalizing f with
  | nil => cases hf
  | cons k ks ih =>
    rcases mem_cons.mp hf with rfl | hf
    · cases ks with
      | nil =>
        obtain ⟨⟨callback,haw,-⟩,-⟩ := h
        rw [(awaited_nil haw).1]
      | cons g gs =>
        obtain ⟨e,es,hes,hlt⟩ := h.rank mem_cons_self
        have hle := h.2.entry_rank mem_cons_self hes
        exact (hlt.le.trans hle).trans (ih h.2 mem_cons_self)
    · exact ih h.2 hf

section
variable (h : Frames F m V I original O (f :: fs))
include h

theorem Frames.source_rank (he : f.entries = e :: es) :
    F.rank e.sourceHash < F.rank original := by
  obtain ⟨base,-,hentry,-⟩ := h.entry mem_cons_self he
  have h1 := F.rank_source hentry.mem hentry.source
  have h2 := h.entry_rank mem_cons_self he
  have h3 := h.rank_original mem_cons_self
  omega

theorem Frames.distinct (hg : g ∈ fs) :
    F.account g.top ≠ F.account f.top := by
  intro ha
  obtain ⟨e,es,hes,hlt⟩ := h.rank hg
  obtain ⟨cb,hf⟩ := h.opened mem_cons_self
  obtain ⟨cb',hg'⟩ := h.2.opened hg
  have hh : F.height g.top = F.height f.top := by rw [← hg'.walked,← hf.walked,ha]
  have heq := F.unique hg'.mem hf.mem ha hh
  have := h.2.entry_rank hg hes
  rw [heq] at this
  omega

end

theorem Frames.one (h : Frames F m V I original O fs) (hf : f ∈ fs) (hg : g ∈ fs)
    (ha : F.account f.top = F.account g.top) : f = g := by
  induction fs with
  | nil => cases hf
  | cons k fs ih =>
    rcases mem_cons.mp hf with rfl | hf' <;> rcases mem_cons.mp hg with rfl | hg'
    · rfl
    · exact absurd ha.symm (h.distinct hg')
    · exact absurd ha (h.distinct hf')
    · exact ih h.2 hf' hg'

/-- The source of the top frame's lowest receive is below the lowest receive of
any frame in its account. -/
theorem Frames.below (h : Frames F m V I original O (f :: fs)) (he : f.entries = e :: es)
    (hg : g ∈ f :: fs) (ha : F.account e.sourceHash = F.account g.top) :
    ∃ e' es', g.entries = e' :: es' ∧ F.height e.sourceHash < e'.receiveDetails.height := by
  obtain ⟨base₀,-,hentry₀,-⟩ := h.entry mem_cons_self he
  have hs := F.source_mem hentry₀.mem hentry₀.source
  have hr := F.rank_source hentry₀.mem hentry₀.source
  have hfind : ∃ e' es', g.entries = e' :: es' ∧
      F.rank e.sourceHash < F.rank e'.receiveDetails.hash := by
    rcases mem_cons.mp hg with rfl | hg
    · exact ⟨e,es,he,hr⟩
    · obtain ⟨e',es',hes',hlt⟩ := h.rank hg
      exact ⟨e',es',hes',(hr.trans_le (h.entry_rank mem_cons_self he)).trans hlt⟩
  obtain ⟨e',es',hes',hlt⟩ := hfind
  obtain ⟨base,-,hentry,-⟩ := h.entry hg hes'
  refine ⟨e',es',hes',?_⟩
  rw [← hentry.height]
  exact Forest.height_lt_of_rank hs hentry.mem (ha.trans hentry.owner.symm) hlt

theorem Frames.congr (h : Frames F m V I original O fs)
    (hV : ∀ g ∈ fs, V' (F.account g.top) = V (F.account g.top) ∨ ∃ e es, g.entries = e :: es ∧
      V (F.account g.top) ≤ V' (F.account g.top) ∧ V' (F.account g.top) < e.receiveDetails.height)
    (hI : ∀ g ∈ fs, I' (F.account g.top) = I (F.account g.top))
    (hm : ∀ g ∈ fs, ∀ c, F.mem c → F.account c = F.account g.top → m'[c]? = m[c]?) :
    Frames F m' V' I' original O fs := by
  induction fs with
  | nil => trivial
  | cons f fs ih =>
    rw [forall_mem_cons] at hV hI hm
    obtain ⟨⟨cb,haw,ho⟩,hrest⟩ := h
    refine ⟨⟨cb,haw,ho.mem,?_,?_,?_⟩,ih hrest hV.2 hI.2 hm.2⟩
    · rcases hV.1 with heq | ⟨e,es,hes,-,hlt⟩
      · rw [heq]
        exact ho.unconfirmed
      · obtain ⟨base,-,-,-,hle,-⟩ := ho.entry hes
        omega
    · rw [hI.1]
      exact ho.walked
    · obtain ⟨base,hle,hlist,hnil,hcons⟩ := ho.listed
      have hlist' := hlist.remap (fun c hc ha _ => hm.1 c hc ha)
      rcases hV.1 with heq | ⟨e,es,hes,hge,hlt⟩
      · rw [heq]
        exact ⟨base,hle,hlist',hnil,hcons⟩
      · refine ⟨base,hle.trans hge,hlist',?_,?_⟩
        · intro hn
          rw [hn] at hes
          cases hes
        · intro e' es' hes'
          rw [hes] at hes'
          cases hes'
          exact hlt

theorem Frames.tail (h : Frames F m V I original O (f :: fs)) (k : ℕ) :
    Frames F m (update V (F.account f.top) k) I original O fs := by
  refine h.2.congr (fun g hg => .inl ?_) (fun _ _ => rfl) (fun _ _ _ _ _ => rfl)
  exact update_of_ne (h.distinct hg) _ _

/-- The frames of the stack. Outside their accounts everything walked is
confirmed. -/
structure Stack (F : Forest Account BlockHash) (m : Mapping) (V I : Account → ℕ)
    (original : BlockHash) (O : List BlockHash) (fs : List Frame) : Prop where
  frames : Frames F m V I original O fs
  silent : ∀ g ∈ fs, ∀ e ∈ g.entries.tail, e.receiveDetails.sourceBlockCallbackData = []
  rest : ∀ a, (∀ g ∈ fs, F.account g.top ≠ a) → I a = V a

def Quiet : List Frame → Prop
  | [] => True
  | f :: _ => ∀ e ∈ f.entries, e.receiveDetails.sourceBlockCallbackData = []

def pairsOf (fs : List Frame) : List ReceiveSourcePair := fs.flatMap Frame.entries

theorem Stack.elsewhere (h : Stack F m V I original O fs) {a : Account} {k : ℕ}
    (ha : ∀ g ∈ fs, F.account g.top ≠ a) :
    Stack F m (update V a k) (update I a k) original O fs where
  frames := by
    refine h.frames.congr (fun g hg => .inl ?_) (fun g hg => ?_) (fun _ _ _ _ _ => rfl)
    · exact update_of_ne (ha g hg) _ _
    · exact update_of_ne (ha g hg) _ _
  silent := h.silent
  rest := by
    intro b hb
    by_cases e : b = a
    · rw [e,update_self,update_self]
    · rw [update_of_ne e,update_of_ne e]
      exact h.rest b hb

theorem Stack.lower (h : Stack F m V I original O fs) (hg : g ∈ fs) (he : g.entries = e :: es)
    {k : ℕ} (hk : V (F.account g.top) ≤ k) (hlt : k < e.receiveDetails.height) :
    Stack F m (update V (F.account g.top) k) I original O fs where
  frames := by
    refine h.frames.congr (fun x hx => ?_) (fun _ _ => rfl) (fun _ _ _ _ _ => rfl)
    by_cases e : F.account x.top = F.account g.top
    · obtain rfl := h.frames.one hx hg e
      rw [update_self]
      exact .inr ⟨_,es,he,hk,hlt⟩
    · exact .inl (update_of_ne e _ _)
  silent := h.silent
  rest := by
    intro b hb
    rw [update_of_ne (hb g hg).symm]
    exact h.rest b hb

section
variable (h : Stack F m V I original O (f :: fs))
include h

theorem Stack.rest_tail {a : Account} (k : ℕ) (hne : a ≠ F.account f.top)
    (ha : ∀ g ∈ fs, F.account g.top ≠ a) :
    I a = update V (F.account f.top) k a := by
  rw [update_of_ne hne]
  exact h.rest a (forall_mem_cons.mpr ⟨hne.symm,ha⟩)

theorem Stack.drop :
    Stack F m (update V (F.account f.top) (F.height f.top)) I original O fs := by
  refine ⟨h.frames.tail _,(forall_mem_cons.mp h.silent).2,fun a ha => ?_⟩
  obtain ⟨cb,ho⟩ := h.frames.opened mem_cons_self
  by_cases e : a = F.account f.top
  · rw [e,update_self]
    exact ho.walked
  · exact h.rest_tail _ e ha

theorem Stack.finish (he : f.entries = []) :
    F.Raise V f.top (update V (F.account f.top) (F.height f.top)) ∧
    awaited original O fs = some (f.top,
      (F.segment (F.account f.top) (V (F.account f.top)) (F.height f.top)).reverse) := by
  obtain ⟨⟨callback,haw,ho⟩,-⟩ := h.frames
  obtain ⟨base,-,hlist,hnil,-⟩ := ho.listed
  rw [he] at hlist
  obtain rfl := hnil he
  obtain ⟨-,hplain,rfl⟩ := hlist
  exact ⟨Forest.Raise.plainly ho.mem ho.unconfirmed hplain,haw⟩

end

theorem Frames.raise (h : Frames F m V I original O fs) (hf : f ∈ fs) (he : f.entries = e :: es)
    (hs : F.Covered V e.sourceHash) : F.Raise V e.receiveDetails.hash
      (update V (F.account f.top) e.receiveDetails.height) := by
  obtain ⟨base,hbase,hentry,hlt,-⟩ := h.entry hf he
  have howner := hentry.owner
  have hheight := hentry.height
  refine ⟨hentry.mem,?_,?_,?_,?_⟩
  · rw [howner,hheight]
    exact hlt
  · intro c hc ha h1 h2
    rw [howner] at ha h1
    exact (hentry.plain c hc ha (by omega) (by omega)).1
  · intro x hx
    rw [hentry.source] at hx
    cases hx
    exact hs
  · rw [howner,hheight]

theorem Stack.receive (h : Stack F m V I original O (f :: fs)) (he : f.entries = e :: es) :
    ∃ gs, Stack F m (update V (F.account f.top) e.receiveDetails.height) I
        original O gs ∧ Quiet gs ∧ pairsOf gs = es ++ pairsOf fs ∧
      (∀ g ∈ gs, ∃ f' ∈ f :: fs, g.top = f'.top) ∧
      (gs = [] → F.Covered
        (update V (F.account f.top) e.receiveDetails.height) original) := by
  obtain ⟨⟨callback,haw,ho⟩,-⟩ := h.frames
  obtain ⟨base,-,hentry,-,hle,hlist⟩ := ho.entry he
  obtain ⟨hsil,hsils⟩ := forall_mem_cons.mp h.silent
  rw [he] at hsil
  by_cases hend : e.receiveDetails.height = F.height f.top
  · -- the receive was the top of its chain, so the frame is done
    obtain ⟨rfl,rfl⟩ : es = [] ∧ callback = [] := by
      cases es with
      | nil =>
        refine ⟨rfl,?_⟩
        rw [hlist.2.2,Forest.segment_empty hend.ge]
        rfl
      | cons x xs =>
        have := hlist.1.above
        have := hlist.2.base_le
        omega
    rw [hend]
    refine ⟨fs,h.drop,?_,rfl,fun g hg => ⟨g,mem_cons_of_mem _ hg,rfl⟩,?_⟩
    · cases fs with
      | nil => trivial
      | cons g gs =>
        obtain ⟨y,ys,hys,-,hy⟩ := awaited_cons haw
        have hsil := hsils g mem_cons_self
        rw [hys] at hsil
        rw [Quiet,hys,forall_mem_cons]
        exact ⟨hy,hsil⟩
    · rintro rfl
      rw [← (awaited_nil haw).1]
      refine ⟨ho.mem,?_⟩
      rw [update_self]
  · refine ⟨⟨f.top,es⟩ :: fs,⟨⟨⟨callback,haw,ho.mem,?_,ho.walked,?_⟩,h.frames.tail _⟩,?_,?_⟩,hsil,
      rfl,?_,nofun⟩
    · rw [update_self]
      exact lt_of_le_of_ne hle hend
    · rw [update_self]
      refine ⟨_,Nat.le_refl _,hlist,fun _ => rfl,?_⟩
      rintro x xs rfl
      exact hlist.1.above
    · exact forall_mem_cons.mpr ⟨fun x hx => hsil x (mem_of_mem_tail hx),hsils⟩
    · intro a ha
      rw [forall_mem_cons] at ha
      exact h.rest_tail _ ha.1.symm ha.2
    · rw [forall_mem_cons]
      exact ⟨⟨f,mem_cons_self,rfl⟩,fun g hg => ⟨g,mem_cons_of_mem _ hg,rfl⟩⟩

def resume (callback : List BlockHash) : List Frame → List Frame
  | [] => []
  | f :: fs => ⟨f.top,withSource callback f.entries⟩ :: fs

def resumeOrig (callback O : List BlockHash) : List Frame → List BlockHash
  | [] => callback
  | _ :: _ => O

theorem resume_top {P : BlockHash → Prop} :
    (∀ g ∈ resume callback fs, P g.top) ↔ ∀ g ∈ fs, P g.top := by
  cases fs with
  | nil => exact Iff.rfl
  | cons f fs => rw [resume,forall_mem_cons,forall_mem_cons]

theorem Opened.withSource (h : Opened F m V I f callback) (hashes : List BlockHash) :
    Opened F m V I ⟨f.top,withSource hashes f.entries⟩ callback := by
  cases he : f.entries with
  | nil =>
    rw [UnboundedWalk.withSource,← he]
    exact h
  | cons e es =>
    obtain ⟨base,hle,hentry,hlt,-,hlist⟩ := h.entry he
    refine ⟨h.mem,h.unconfirmed,h.walked,base,hle,⟨⟨hentry.mem,hentry.owner,hentry.account,
      hentry.height,hentry.source,hentry.above,hentry.plain,hentry.num,hentry.callback⟩,hlist⟩,
      (by rintro ⟨⟩),?_⟩
    intro x xs hx
    cases hx
    exact hlt

theorem Frames.resume (h : Frames F m V I original O fs) (callback : List BlockHash) :
    Frames F m V I original (resumeOrig callback O fs) (resume callback fs) := by
  cases fs with
  | nil => trivial
  | cons f fs =>
    obtain ⟨⟨cb,haw,ho⟩,hrest⟩ := h
    exact ⟨⟨cb,haw,ho.withSource callback⟩,hrest⟩

variable {data : List BlockHash}

section
variable (h : awaited original O fs = some (s,data))
include h

theorem awaited_resume :
    awaited original (resumeOrig callback O fs) (resume callback fs) = some (s,callback) := by
  cases fs with
  | nil =>
    rw [(awaited_nil h).1]
    rfl
  | cons f fs =>
    obtain ⟨e,es,hes,rfl,-⟩ := awaited_cons h
    rw [resume,awaited,hes]
    rfl

theorem pairsOf_resume :
    pairsOf (resume callback fs) = withSource callback (pairsOf fs) := by
  cases fs with
  | nil => rfl
  | cons f fs =>
    obtain ⟨e,es,hes,-⟩ := awaited_cons h
    rw [resume,pairsOf,pairsOf,flatMap_cons,flatMap_cons,hes]
    rfl

end

theorem Stack.push (h : Stack F m V I original O fs)
    (haw : awaited original O fs = some (s,data)) (hs : F.mem s)
    (hlt : V (F.account s) < F.height s) (ha : ∀ g ∈ fs, F.account g.top ≠ F.account s)
    (hne : xs ≠ []) (hl : Listed F m (F.account s) (F.height s) callback (V (F.account s)) xs)
    (hq : ∀ x ∈ xs, x.receiveDetails.sourceBlockCallbackData = []) :
    Stack F m V (update I (F.account s) (F.height s)) original
      (resumeOrig callback O fs) (⟨s,xs⟩ :: resume callback fs) := by
  have ha' : ∀ g ∈ resume callback fs, F.account g.top ≠ F.account s :=
    (resume_top (P := fun t => F.account t ≠ F.account s)).mpr ha
  refine ⟨⟨⟨callback,awaited_resume haw,hs,hlt,update_self _ _ _,_,Nat.le_refl _,hl,
    fun hn => absurd hn hne,?_⟩,?_⟩,?_,?_⟩
  · rintro x xs rfl
    exact hl.1.above
  · refine (h.frames.resume callback).congr (fun _ _ => .inl rfl) (fun g hg => ?_)
      (fun _ _ _ _ _ => rfl)
    exact update_of_ne (ha' g hg) _ _
  · refine forall_mem_cons.mpr ⟨fun x hx => hq x (mem_of_mem_tail hx),?_⟩
    cases fs with
    | nil => exact nofun
    | cons f fs =>
      obtain ⟨hf,hfs⟩ := forall_mem_cons.mp h.silent
      obtain ⟨e,es,hes,-⟩ := awaited_cons haw
      rw [hes] at hf
      rw [resume,hes]
      exact forall_mem_cons.mpr ⟨hf,hfs⟩
  · intro a hout
    rw [forall_mem_cons] at hout
    rw [update_of_ne hout.1.symm]
    exact h.rest a ((resume_top (P := fun t => F.account t ≠ a)).mp hout.2)

end Vxldollar.UnboundedStack
