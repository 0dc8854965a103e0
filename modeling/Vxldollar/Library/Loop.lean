import Mathlib.Data.Nat.Notation
import Mathlib.Tactic.TypeStar

/-!
# Bounded loops

A `while` loop is a step that either continues with a new state or leaves
with a result; `none` is an abort inside the body. The bound only makes the
loop structurally recursive: the rules below say when it is large enough and
that a larger bound never changes a result.
-/

namespace Loop

variable {σ ρ : Type*}

def loop (step : σ → Option (σ ⊕ ρ)) : ℕ → σ → Option ρ
  | 0, _ => none
  | n+1, s => match step s with
    | none => none
    | some (.inl s') => loop step n s'
    | some (.inr r) => some r

variable {step : σ → Option (σ ⊕ ρ)} {n : ℕ}

theorem loop_continue {s s' : σ} (h : step s = some (.inl s')) :
    loop step (n+1) s = loop step n s' := by
  simp [loop,h]

theorem loop_leave {s : σ} {r : ρ} (h : step s = some (.inr r)) : loop step (n+1) s = some r := by
  simp [loop,h]

/-- Total correctness: an invariant indexed by a rank that every round lowers,
and a bound above the rank. The rank may depend on what the state does not
show. -/
theorem loop_total (inv : ℕ → σ → Prop) (post : ρ → Prop)
    (hstep : ∀ k s, inv k s → (∃ s' k', step s = some (.inl s') ∧ inv k' s' ∧ k' < k) ∨
      (∃ r, step s = some (.inr r) ∧ post r))
    (n k : ℕ) (s : σ) (hi : inv k s) (hn : k < n) : ∃ r, loop step n s = some r ∧ post r := by
  induction n generalizing k s with
  | zero => exact absurd hn (Nat.not_lt_zero _)
  | succ n ih =>
    rcases hstep k s hi with ⟨s',k',hs,hi',hm⟩ | ⟨r,hs,hr⟩
    · rw [loop_continue hs]
      exact ih k' s' hi' (Nat.lt_of_lt_of_le hm (Nat.le_of_lt_succ hn))
    · exact ⟨r,loop_leave hs,hr⟩

/-- Partial correctness: a returned result comes from a round that leaves in a
state satisfying the invariant. -/
theorem loop_partial (inv : σ → Prop) (post : ρ → Prop)
    (hcont : ∀ s s', inv s → step s = some (.inl s') → inv s')
    (hleave : ∀ s r, inv s → step s = some (.inr r) → post r)
    (n : ℕ) (s : σ) (r : ρ) (hi : inv s) (hr : loop step n s = some r) : post r := by
  induction n generalizing s with
  | zero => simp [loop] at hr
  | succ n ih =>
    rw [loop] at hr
    split at hr
    · simp at hr
    · exact ih _ (hcont _ _ hi ‹_›) hr
    · cases hr
      exact hleave _ _ hi ‹_›

theorem loop_map {τ : Type*} (step : σ → Option (σ ⊕ ρ)) (f : ρ → τ) (n : ℕ) (s : σ) :
    loop (fun s => (step s).map (Sum.map id f)) n s = (loop step n s).map f := by
  induction n generalizing s with
  | zero => rfl
  | succ n ih =>
    rw [loop,loop]
    cases step s with
    | none => rfl
    | some o =>
      cases o with
      | inl s' => exact ih s'
      | inr r => rfl

def Endless (step : σ → Option (σ ⊕ ρ)) (s : σ) : Prop := ∀ n, loop step n s = none

section
variable {step : σ → Option (σ ⊕ ρ)} {s s' : σ} {n : ℕ}

theorem Endless.continue (hs : step s = some (.inl s')) (h : Endless step s') :
    Endless step s := by
  intro n
  cases n with
  | zero => rfl
  | succ n =>
    rw [loop_continue hs]
    exact h n

theorem endless_of_invariant (inv : σ → Prop)
    (hstep : ∀ s, inv s → ∃ s', step s = some (.inl s') ∧ inv s') (hs : inv s) :
    Endless step s := by
  intro n
  induction n generalizing s with
  | zero => rfl
  | succ n ih =>
    obtain ⟨s',h,hs'⟩ := hstep s hs
    rw [loop_continue h]
    exact ih hs'

/-- The states that a loop comes to, and its result. -/
inductive Comes (step : σ → Option (σ ⊕ ρ)) (s : σ) : σ ⊕ ρ → Prop
  | start : Comes step s (.inl s)
  | round {s' : σ} {o : σ ⊕ ρ} : Comes step s (.inl s') → step s' = some o → Comes step s o

theorem Comes.invariant {o : σ ⊕ ρ} (inv : σ ⊕ ρ → Prop) (hstart : inv (.inl s))
    (hstep : ∀ s' o, inv (.inl s') → step s' = some o → inv o) (h : Comes step s o) : inv o := by
  induction h with
  | start => exact hstart
  | round _ hs ih => exact hstep _ _ ih hs

end

end Loop
