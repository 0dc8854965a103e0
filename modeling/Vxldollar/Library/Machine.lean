import Mathlib.Data.List.Basic

/-!
# Runs of a machine

A machine takes one event at a time; not every event is possible in every state. A run
keeps the states it went through. What a step preserves holds at the end of every run. A
property of states can also fail: the rule says which condition on the steps is the
exact one for it to hold in every state of a run.
-/

namespace Machine
open List

variable {σ ε : Type*}

/-- The events of a run, each with the state it finds, and the last state. -/
inductive Runs (step : σ → ε → Option σ) (Possible : σ → ε → Prop) (s₀ : σ) :
    List (σ × ε) → σ → Prop
  | start : Runs step Possible s₀ [] s₀
  | step {ms : List (σ × ε)} {s s' : σ} {e : ε} : Runs step Possible s₀ ms s → Possible s e →
      step s e = some s' → Runs step Possible s₀ (ms++[(s,e)]) s'

variable {step : σ → ε → Option σ} {Possible : σ → ε → Prop} {s₀ s t : σ} {ms : List (σ × ε)}

theorem Runs.invariant {I : σ → Prop} (h : Runs step Possible s₀ ms s) (h₀ : I s₀)
    (hstep : ∀ s e s', I s → Possible s e → step s e = some s' → I s') : I s := by
  induction h with
  | start => exact h₀
  | step _ hp hs ih => exact hstep _ _ _ ih hp hs

theorem Runs.stepped (h : Runs step Possible s₀ ms s) :
    ∀ m ∈ ms, Possible m.1 m.2 ∧ ∃ t, step m.1 m.2 = some t := by
  induction h with
  | start => exact nofun
  | step _ hp hs ih =>
    rw [forall_mem_append,forall_mem_singleton]
    exact ⟨ih,hp,_,hs⟩

section
variable {G W : σ → Prop} {F : σ → ε → Prop}

variable (h : Runs step Possible s₀ ms s) (h₀ : G s₀)
include h h₀

theorem Runs.good (hgood : ∀ s e s', G s → Possible s e → step s e = some s' → F s e → G s')
    (hF : ∀ m ∈ ms, F m.1 m.2) : G s := by
  induction h with
  | start => exact h₀
  | step _ hp hs ih =>
    rw [forall_mem_append,forall_mem_singleton] at hF
    exact hgood _ _ _ (ih hF.1) hp hs hF.2

/-- What is wanted holds in all good states and right after no step that breaks the
condition: then it holds along a run exactly if all steps meet the condition. -/
theorem Runs.wanted_iff (hW : ∀ s, G s → W s)
    (hgood : ∀ s e s', G s → Possible s e → step s e = some s' → F s e → G s')
    (hbad : ∀ s e s', G s → Possible s e → step s e = some s' → ¬ F s e → ¬ W s') :
    ((∀ m ∈ ms, W m.1) ∧ W s) ↔ ∀ m ∈ ms, F m.1 m.2 := by
  induction h with
  | start => simp [hW _ h₀]
  | @step ms s s' e hr hp hs ih =>
    simp only [forall_mem_append,forall_mem_singleton]
    rw [← ih]
    constructor
    · rintro ⟨hbefore,hafter⟩
      refine ⟨hbefore,?_⟩
      by_contra hF
      exact hbad s e s' (hr.good h₀ hgood (ih.mp hbefore)) hp hs hF hafter
    · rintro ⟨hbefore,hF⟩
      exact ⟨hbefore,hW s' (hgood s e s' (hr.good h₀ hgood (ih.mp hbefore)) hp hs hF)⟩

end

variable (step Possible) [∀ s e, Decidable (Possible s e)]

def exec : σ → List ε → Option (List (σ × ε) × σ)
  | s,[] => some ([],s)
  | s,e::es =>
    if Possible s e then (step s e).bind fun t =>
      (exec t es).map fun o => ((s,e)::o.1,o.2)
    else none

variable {step Possible}

theorem exec_runs {ms₀ : List (σ × ε)} {es : List ε} (r : Runs step Possible s₀ ms₀ s)
    (h : exec step Possible s es = some (ms,t)) : Runs step Possible s₀ (ms₀++ms) t := by
  induction es generalizing s ms₀ ms with
  | nil =>
    cases h
    rwa [append_nil]
  | cons e es ih =>
    rw [exec] at h
    split_ifs at h with hpos
    obtain ⟨u,hu,h⟩ := Option.bind_eq_some_iff.mp h
    obtain ⟨o,ho,h⟩ := Option.map_eq_some_iff.mp h
    cases h
    have hr := ih (r.step hpos hu) ho
    rwa [append_assoc] at hr

/-- A run that is computed, with a check of what it went through. -/
theorem exec_any {es : List ε} {c : List (σ × ε) × σ → Bool}
    (h : (exec step Possible s₀ es).any c = true) :
    ∃ ms s, Runs step Possible s₀ ms s ∧ c (ms,s) = true := by
  obtain ⟨⟨ms,s⟩,he,hc⟩ := (Option.any_eq_true _ _).mp h
  exact ⟨ms,s,exec_runs .start he,hc⟩

end Machine
