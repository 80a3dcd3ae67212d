import Mathlib.Tactic.SplitIfs
import Mathlib.Logic.Function.Basic
import Mathlib.Algebra.GroupWithZero.Nat

/-! # Runs of a transition system

A system is a partial step function `step : σ → α → Option σ`; an action that is not enabled has no
step. `Reach step ok s₀ s` says that some run from `s₀` ends in `s` and takes only steps `ok`
allows, so that `Reach step Any` is reachability and a smaller `ok` restricts the runs looked at.
`exec` computes the end of one run, for a decidable `ok`. -/

namespace Ecen5623.Library

variable {σ α : Type*} {step : σ → α → Option σ} {ok ok' : σ → α → Prop} {s₀ s s' : σ} {a : α}

/-- Every step is allowed. -/
def Any (_ : σ) (_ : α) : Prop := True

instance (s : σ) (a : α) : Decidable (Any s a) := inferInstanceAs (Decidable True)

/-- Some run from `s₀` whose steps are all allowed by `ok` ends in the state. -/
inductive Reach (step : σ → α → Option σ) (ok : σ → α → Prop) (s₀ : σ) : σ → Prop where
  | init : Reach step ok s₀ s₀
  | step {s s' : σ} {a : α} : Reach step ok s₀ s → ok s a → step s a = some s' →
      Reach step ok s₀ s'

/-- Take the actions in turn, as long as each is allowed and enabled. -/
def exec (step : σ → α → Option σ) (ok : σ → α → Prop) [∀ s a, Decidable (ok s a)] :
    σ → List α → Option σ
  | s, [] => some s
  | s, a :: as => if ok s a then
      match step s a with
      | none => none
      | some s' => exec step ok s' as
    else none

theorem exec_cons [∀ s a, Decidable (ok s a)] {as : List α} (hok : ok s a)
    (hs : step s a = some s') : exec step ok s (a :: as) = exec step ok s' as := by
  rw [exec, if_pos hok, hs]

theorem exec_cons_eq_some [∀ s a, Decidable (ok s a)] {as : List α} :
    exec step ok s (a :: as) = some s' ↔
      ok s a ∧ ∃ s₁, step s a = some s₁ ∧ exec step ok s₁ as = some s' := by
  constructor
  · intro h
    unfold exec at h
    split_ifs at h with hok
    split at h
    · simp at h
    · next s₁ hs => exact ⟨hok, s₁, hs, h⟩
  · rintro ⟨hok, s₁, hs, h⟩
    rw [exec_cons hok hs, h]

theorem exec_append [∀ s a, Decidable (ok s a)] {as bs : List α} {s s' : σ}
    (h : exec step ok s as = some s') : exec step ok s (as ++ bs) = exec step ok s' bs := by
  induction as generalizing s with
  | nil =>
    obtain rfl : s = s' := Option.some.inj h
    rfl
  | cons a as ih =>
    obtain ⟨hok, s₁, hs, hrest⟩ := exec_cons_eq_some.mp h
    rw [List.cons_append, exec_cons hok hs, ih hrest]

/-- Where exactly the allowed steps keep a property, a run keeps it throughout if and only if all of
its steps are allowed. -/
theorem forall_prefix_iff [∀ s a, Decidable (ok s a)] {P : σ → Prop}
    (hP : ∀ {s a s'}, P s → step s a = some s' → (P s' ↔ ok s a)) {as : List α} {s s' : σ}
    (h0 : P s) (h : exec step Any s as = some s') :
    (∀ bs t, bs <+: as → exec step Any s bs = some t → P t) ↔ exec step ok s as = some s' := by
  induction as generalizing s with
  | nil =>
    refine iff_of_true (fun bs t hbs ht => ?_) h
    rw [List.prefix_nil.mp hbs] at ht
    exact Option.some.inj ht ▸ h0
  | cons a as ih =>
    obtain ⟨-, s₁, hs, hrest⟩ := exec_cons_eq_some.mp h
    have hcons : ∀ bs, exec step Any s (a :: bs) = exec step Any s₁ bs :=
      fun bs => exec_cons trivial hs
    constructor
    · intro hall
      have h1 : P s₁ := hall [a] s₁ (List.cons_prefix_cons.mpr ⟨rfl, List.nil_prefix⟩) (hcons [])
      rw [exec_cons ((hP h0 hs).mp h1) hs, ← ih h1 hrest]
      intro bs t hbs ht
      exact hall (a :: bs) t (List.cons_prefix_cons.mpr ⟨rfl, hbs⟩) ((hcons bs).trans ht)
    · intro hok
      have ha : ok s a := (exec_cons_eq_some.mp hok).1
      have h1 : P s₁ := (hP h0 hs).mpr ha
      rw [exec_cons ha hs, ← ih h1 hrest] at hok
      rintro (_ | ⟨b, bs⟩) t hbs ht
      · exact Option.some.inj ht ▸ h0
      · obtain ⟨rfl, hpre⟩ := List.cons_prefix_cons.mp hbs
        exact hok bs t hpre ((hcons bs).symm.trans ht)

/-- **The rank rule**: where a step leaves less of the rank than there was, but for what it costs,
the rank and the costs bound the length of a run. -/
theorem length_add_rank_le [∀ s a, Decidable (ok s a)] {P : σ → Prop} {rank : σ → ℕ}
    (cost : α → ℕ) (hP : ∀ {s a s'}, P s → ok s a → step s a = some s' → P s')
    (hrank : ∀ {s a s'}, P s → ok s a → step s a = some s' → rank s' < rank s + cost a)
    {as : List α} {s s' : σ} (h0 : P s) (h : exec step ok s as = some s') :
    as.length + rank s' ≤ rank s + (as.map cost).sum := by
  induction as generalizing s with
  | nil =>
    obtain rfl : s = s' := Option.some.inj h
    simp
  | cons a as ih =>
    obtain ⟨hok, s₁, hs, hrest⟩ := exec_cons_eq_some.mp h
    have h1 := hrank h0 hok hs
    have h2 := ih (hP h0 hok hs) hrest
    rw [List.length_cons, List.map_cons, List.sum_cons]
    omega

/-- **The rank rule for some of the actions**: those that lower the rank are no more than it. -/
theorem countP_add_rank_le [∀ s a, Decidable (ok s a)] {P : σ → Prop} (rank : σ → ℕ)
    (q : α → Bool) (hP : ∀ {s a s'}, P s → ok s a → step s a = some s' → P s')
    (hrank : ∀ {s a s'}, P s → ok s a → step s a = some s' →
      rank s' + (if q a then 1 else 0) ≤ rank s)
    {as : List α} {s s' : σ} (h0 : P s) (h : exec step ok s as = some s') :
    as.countP q + rank s' ≤ rank s := by
  induction as generalizing s with
  | nil =>
    obtain rfl : s = s' := Option.some.inj h
    simp
  | cons a as ih =>
    obtain ⟨hok, s₁, hs, hrest⟩ := exec_cons_eq_some.mp h
    have h1 := hrank h0 hok hs
    have h2 := ih (hP h0 hok hs) hrest
    rw [List.countP_cons]
    omega

namespace Reach

/-- **The invariant rule.** -/
theorem invariant {P : σ → Prop} (h0 : P s₀)
    (hstep : ∀ {s a s'}, P s → ok s a → step s a = some s' → P s')
    (h : Reach step ok s₀ s) : P s := by
  induction h with
  | init => exact h0
  | step _ hok hs ih => exact hstep ih hok hs

theorem mono (hok : ∀ s a, ok s a → ok' s a) (h : Reach step ok s₀ s) : Reach step ok' s₀ s := by
  induction h with
  | init => exact .init
  | step _ h hs ih => exact .step ih (hok _ _ h) hs

theorem any (h : Reach step ok s₀ s) : Reach step Any s₀ s := h.mono fun _ _ _ => trivial

theorem single (hok : ok s a) (hs : step s a = some s') : Reach step ok s s' :=
  .step .init hok hs

theorem trans (h : Reach step ok s₀ s) (h' : Reach step ok s s') : Reach step ok s₀ s' := by
  induction h' with
  | init => exact h
  | step _ hok hs ih => exact .step ih hok hs

/-- **The variant rule**: a run can go on to a `D`-state if every other state has a step that lowers
the rank. -/
theorem exists_of_rank {P D : σ → Prop} (rank : σ → ℕ)
    (hstep : ∀ s, P s → D s ∨ ∃ a s', ok s a ∧ step s a = some s' ∧ P s' ∧ rank s' < rank s)
    (h0 : P s₀) : ∃ s, Reach step ok s₀ s ∧ P s ∧ D s := by
  induction hn : rank s₀ using Nat.strongRecOn generalizing s₀ with
  | _ n ih =>
    obtain hd | ⟨a, s₁, hok, hs, h1, hlt⟩ := hstep s₀ h0
    · exact ⟨s₀, .init, h0, hd⟩
    · obtain ⟨s, hafter, hs⟩ := ih _ (hn ▸ hlt) h1 rfl
      exact ⟨s, (single hok ‹_›).trans hafter, hs⟩

/-- **The simulation rule for a function on the states.** -/
theorem map {σ' : Type*} {step' : σ' → α → Option σ'} {okMap : σ' → α → Prop} (f : σ → σ')
    (hf : ∀ {s a s'}, step s a = some s' → step' (f s) a = some (f s'))
    (hok : ∀ {s a}, ok s a → okMap (f s) a) (h : Reach step ok s₀ s) :
    Reach step' okMap (f s₀) (f s) := by
  induction h with
  | init => exact .init
  | step _ h hs ih => exact .step ih (hok h) (hf hs)

variable [∀ s a, Decidable (ok s a)]

theorem of_exec : ∀ {as : List α} {s : σ}, exec step ok s as = some s' → Reach step ok s s'
  | [], s, h => by cases h; exact .init
  | a :: as, s, h => by
    obtain ⟨hok, s₁, hs, hrest⟩ := exec_cons_eq_some.mp h
    exact (single hok hs).trans (of_exec hrest)

theorem exists_exec {as : List α} {P : σ → Prop} (h : (exec step ok s as).isSome)
    (hP : ∀ s', Reach step ok s s' → P s') : ∃ s', exec step ok s as = some s' ∧ P s' := by
  obtain ⟨s', hs⟩ := Option.isSome_iff_exists.1 h
  exact ⟨s', hs, hP s' (of_exec hs)⟩

theorem exists_of_exec {β : Type*} {as : List α} {f : σ → β} {b : β}
    (h : (exec step ok s as).map f = some b) : ∃ s', Reach step ok s s' ∧ f s' = b := by
  obtain ⟨s', hs, hb⟩ := Option.map_eq_some_iff.1 h
  exact ⟨s', of_exec hs, hb⟩

end Reach

end Ecen5623.Library
