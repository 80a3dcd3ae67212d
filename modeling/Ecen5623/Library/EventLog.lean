import Mathlib.Data.List.Count

/-! # Logs that only grow

A program that records what it does extends its log. `Extends P l l'` says that every event added
has the property `P`, so that an event without it is neither added nor counted (`count_eq`). -/

namespace Ecen5623.Library

variable {ε : Type*} {P Q : ε → Prop} {l l' l'' : List ε} {e : ε}

/-- The second log is the first one and then events with the property. -/
def Extends (P : ε → Prop) (l l' : List ε) : Prop := ∃ es, l' = l ++ es ∧ ∀ e ∈ es, P e

namespace Extends

theorem refl (l : List ε) : Extends P l l :=
  ⟨[], (List.append_nil l).symm, fun _ he => absurd he List.not_mem_nil⟩

theorem trans (h : Extends P l l') (h' : Extends P l' l'') : Extends P l l'' := by
  obtain ⟨es, rfl, hes⟩ := h
  obtain ⟨es', rfl, hes'⟩ := h'
  exact ⟨es ++ es', List.append_assoc _ _ _,
    fun e he => (List.mem_append.mp he).elim (hes e) (hes' e)⟩

theorem concat (h : Extends P l l') (he : P e) : Extends P l (l' ++ [e]) :=
  h.trans ⟨[e], rfl, fun _ he' => List.mem_singleton.mp he' ▸ he⟩

theorem mono (h : Extends P l l') (hPQ : ∀ e, P e → Q e) : Extends Q l l' := by
  obtain ⟨es, rfl, hes⟩ := h
  exact ⟨es, rfl, fun e he => hPQ e (hes e he)⟩

theorem mem (h : Extends P l l') (he : e ∈ l') : e ∈ l ∨ P e := by
  obtain ⟨es, rfl, hes⟩ := h
  exact (List.mem_append.mp he).imp_right (hes e)

theorem subset (h : Extends P l l') (he : e ∈ l) : e ∈ l' := by
  obtain ⟨es, rfl, -⟩ := h
  exact List.mem_append_left es he

/-- **The rule for loops.** -/
theorem foldl {σ α : Type*} {log : σ → List ε} {f : σ → α → σ} {as : List α} {s : σ}
    (h : ∀ s, ∀ a ∈ as, Extends P (log s) (log (f s a))) :
    Extends P (log s) (log (as.foldl f s)) := by
  induction as generalizing s with
  | nil => exact refl _
  | cons a as ih =>
    exact (h s a List.mem_cons_self).trans (ih fun s b hb => h s b (List.mem_cons_of_mem a hb))

theorem count_eq [DecidableEq ε] (h : Extends P l l') (he : ¬ P e) : l'.count e = l.count e := by
  obtain ⟨es, rfl, hes⟩ := h
  rw [List.count_append, List.count_eq_zero_of_not_mem fun hm => he (hes e hm), Nat.add_zero]

end Extends

end Ecen5623.Library
