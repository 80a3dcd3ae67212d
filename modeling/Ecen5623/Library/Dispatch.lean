import Ecen5623.Library.Transition
import Mathlib.Data.Fintype.Card
import Mathlib.Data.Set.Finite.Lemmas
import Mathlib.Order.WithBot

/-! # Actions that share a core by priority

Each action of a system has a priority, or none if it does not need the core. On the core an action
is taken only if no action that is enabled has a higher priority (`Dispatched`); the priorities may
depend on the state. -/

namespace Ecen5623.Library

variable {σ α π : Type*} [LinearOrder π] {step : σ → α → Option σ} {prio : σ → α → Option π}
  {s t : σ} {a b : α} {p q : π}

/-- No enabled action on the core comes before `a`. -/
def Dispatched (step : σ → α → Option σ) (prio : σ → α → Option π) (s : σ) (a : α) : Prop :=
  ∀ p ∈ prio s a, ∀ b, (step s b).isSome → ∀ q ∈ prio s b, q ≤ p

instance [Fintype α] (s : σ) (a : α) : Decidable (Dispatched step prio s a) :=
  inferInstanceAs (Decidable (∀ p ∈ prio s a, ∀ b, (step s b).isSome → ∀ q ∈ prio s b, q ≤ p))

/-- **Preemption.** -/
theorem not_dispatched (hb : step s b = some t) (hp : prio s a = some p) (hq : prio s b = some q)
    (hlt : p < q) : ¬ Dispatched step prio s a :=
  fun h => (h p hp b (by simp [hb]) q hq).not_gt hlt

theorem exists_dispatched [Finite α] (ha : step s a = some t) :
    ∃ b, (step s b).isSome ∧ Dispatched step prio s b := by
  have hne : {b | (step s b).isSome}.Nonempty := ⟨a, by simp [ha]⟩
  obtain ⟨b, hb, hmax⟩ := @Set.exists_max_image α (WithBot π) _ _ (prio s)
    (Set.toFinite _) hne
  refine ⟨b, hb, fun p hp c hc q hq => ?_⟩
  have hle := hmax c hc
  rw [Option.mem_def.mp hp, Option.mem_def.mp hq] at hle
  exact WithBot.coe_le_coe.mp hle

end Ecen5623.Library
