import Vxldollar.Library.Loop
import Mathlib.Order.Defs.Unbundled

/-!
# Simulation of partial computations

One computation follows another when it returns a related result whenever the
other returns one. The rules compose such statements along binds and loops, so
that two versions of a program are compared operation by operation.
-/

namespace Simulation
open Option Loop

variable {α β γ δ : Type*}

/-- Whatever `x` returns, `y` returns something related to it. -/
def Follows (R : α → β → Prop) (x : Option α) (y : Option β) : Prop :=
  ∀ a, x = some a → ∃ b, y = some b ∧ R a b

variable {R : α → β → Prop} {Q : γ → δ → Prop} {x x' z : Option α} {y y' : Option β}

theorem Follows.pure {a : α} {b : β} (h : R a b) : Follows R (some a) (some b) := by
  intro a' ha
  cases ha
  exact ⟨b,rfl,h⟩

theorem Follows.none (y : Option β) : Follows R none y := nofun

theorem Follows.bind {f : α → Option γ} {g : β → Option δ} (h : Follows R x y)
    (hf : ∀ a b, x = some a → y = some b → R a b → Follows Q (f a) (g b)) :
    Follows Q (x.bind f) (y.bind g) := by
  intro c hc
  obtain ⟨a,ha,hc⟩ := bind_eq_some_iff.mp hc
  obtain ⟨b,hb,hR⟩ := h a ha
  obtain ⟨d,hd,hQ⟩ := hf a b ha hb hR c hc
  exact ⟨d,bind_eq_some_iff.mpr ⟨b,hb,hd⟩,hQ⟩

theorem Follows.step {f : α → Option γ} {g : β → Option δ} (h : Follows R x y)
    (hf : ∀ {a b}, R a b → Follows Q (f a) (g b)) : Follows Q (x.bind f) (y.bind g) :=
  h.bind fun _ _ _ _ => hf

theorem Follows.map {f : α → γ} {g : β → δ} (h : Follows R x y)
    (hf : ∀ a b, x = some a → R a b → Q (f a) (g b)) : Follows Q (x.map f) (y.map g) := by
  intro c hc
  obtain ⟨a,ha,rfl⟩ := map_eq_some_iff.mp hc
  obtain ⟨b,hb,hR⟩ := h a ha
  exact ⟨g b,map_eq_some_iff.mpr ⟨b,hb,rfl⟩,hf a b ha hR⟩

theorem Follows.ite {c d : Prop} [Decidable c] [Decidable d] (hcd : c ↔ d) (ht : c → Follows R x y)
    (he : ¬ c → Follows R x' y') :
    Follows R (if c then x else x') (if d then y else y') := by
  by_cases hc : c
  · rw [if_pos hc,if_pos (hcd.mp hc)]
    exact ht hc
  · rw [if_neg hc,if_neg (fun hd => hc (hcd.mpr hd))]
    exact he hc

theorem Follows.of_eq (h : x = z) : Follows Eq x z := by
  intro a ha
  exact ⟨a,h ▸ ha,rfl⟩

theorem Follows.read {f : α → Option γ} {g : α → Option δ} (h : x = z)
    (hf : ∀ a, x = some a → Follows Q (f a) (g a)) : Follows Q (x.bind f) (z.bind g) := by
  subst h
  exact (Follows.of_eq rfl).bind fun a _ ha _ e => e ▸ hf a ha

theorem Follows.eq {a : α} (h : Follows Eq x z) (hx : x = some a) : z = some a := by
  obtain ⟨b,hb,rfl⟩ := h a hx
  exact hb

theorem Follows.extend {f : α → Option γ} (h : Follows Eq x z) :
    Follows Eq (x.bind f) (z.bind f) :=
  h.step fun e => .of_eq (congrArg f e)

section
variable {p : α → Prop} {q : γ → Prop} {f : α → Option γ}

/-- Whatever is returned satisfies `p`. -/
def Yields (p : α → Prop) (x : Option α) : Prop := ∀ a, x = some a → p a

theorem Yields.pure {a : α} (h : p a) : Yields p (some a) := by
  intro b hb
  exact some.inj hb ▸ h

theorem Yields.none : Yields p none := nofun

theorem Yields.bind (h : Yields p x) (hf : ∀ a, x = some a → p a → Yields q (f a)) :
    Yields q (x.bind f) := by
  intro c hc
  obtain ⟨a,ha,hc⟩ := bind_eq_some_iff.mp hc
  exact hf a ha (h a ha) c hc

theorem Yields.read (hf : ∀ a, x = some a → Yields q (f a)) :
    Yields q (x.bind f) :=
  Yields.bind (fun _ _ => trivial) (fun a ha _ => hf a ha)

theorem Yields.ite {c : Prop} [Decidable c] (ht : c → Yields p x) (he : ¬ c → Yields p x') :
    Yields p (if c then x else x') := by
  by_cases hc : c
  · rw [if_pos hc]
    exact ht hc
  · rw [if_neg hc]
    exact he hc

variable {F : α → α → Prop} [IsTrans α F] {a b : α}

theorem Yields.step {f : α → Option α} (hx : Yields (F b) x) (hab : F a b)
    (hf : ∀ c, F a c → Yields (F a) (f c)) : Yields (F a) (x.bind f) :=
  Yields.bind hx (fun c _ hbc => hf c (IsTrans.trans a b c hab hbc))

theorem Yields.last (hx : Yields (F b) x) (hab : F a b) : Yields (F a) x :=
  fun c e => IsTrans.trans a b c hab (hx c e)

end

variable {step : α → Option (α ⊕ γ)} {step' : β → Option (β ⊕ δ)}

def Rounds (R : α → β → Prop) (Q : γ → δ → Prop) : α ⊕ γ → β ⊕ δ → Prop
  | .inl a, .inl b => R a b
  | .inr c, .inr d => Q c d
  | _, _ => False

/-- Loops in lockstep. -/
theorem Follows.loop (hstep : ∀ a b, R a b → Follows (Rounds R Q) (step a) (step' b)) (n : ℕ)
    {a : α} {b : β} (h : R a b) : Follows Q (loop step n a) (loop step' n b) := by
  induction n generalizing a b with
  | zero => exact Follows.none _
  | succ n ih =>
    intro c hc
    cases hs : step a with
    | none => simp [Loop.loop,hs] at hc
    | some o =>
      obtain ⟨o',ho',hR⟩ := hstep a b h o hs
      cases o with
      | inl a' =>
        cases o' with
        | inl b' =>
          rw [loop_continue hs] at hc
          rw [loop_continue ho']
          exact ih hR c hc
        | inr d => exact hR.elim
      | inr c' =>
        cases o' with
        | inl b' => exact hR.elim
        | inr d =>
          rw [loop_leave hs] at hc
          cases hc
          exact ⟨d,loop_leave ho',hR⟩

/-- A larger bound, or a body that returns more often, never changes a result. -/
theorem Follows.loop_extends {step' : α → Option (α ⊕ γ)} {n m : ℕ}
    (hstep : ∀ s, Follows Eq (step s) (step' s)) (hn : n ≤ m) (s : α) :
    Follows Eq (Loop.loop step n s) (Loop.loop step' m s) := by
  induction n generalizing m s with
  | zero => exact Follows.none _
  | succ n ih =>
    obtain ⟨k,rfl⟩ : ∃ k, m = k+1 := ⟨m-1,by omega⟩
    cases hs : step s with
    | none => simp [Loop.loop,hs,Follows]
    | some o =>
      have hs' := (hstep s).eq hs
      cases o with
      | inl s' =>
        rw [loop_continue hs,loop_continue hs']
        exact ih (by omega) s'
      | inr r =>
        rw [loop_leave hs,loop_leave hs']
        exact Follows.pure rfl

theorem Yields.loop {I : α → Prop} {post : γ → Prop}
    (hstep : ∀ s, I s → Yields (Sum.elim I post) (step s)) (n : ℕ) {s : α} (hs : I s) :
    Yields post (loop step n s) := by
  intro r hr
  apply loop_partial I post ?_ ?_ n s r hs hr
  · exact fun s s' hi h => hstep s hi _ h
  · exact fun s r hi h => hstep s hi _ h

end Simulation
