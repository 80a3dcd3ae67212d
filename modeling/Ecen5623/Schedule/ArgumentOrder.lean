import Ecen5623.Schedule.Trace

/-! # RM and the order of the services

RM runs the first service with runtime left, in the order of the arguments. A run whose services
are always chosen with the shortest period (`ShortestFirst`) does not depend on that order: the
services of the run on a permuted list stay a permutation of each other (`run_perm`). A run chooses
like that exactly if no service that gets its turn is listed before one of shorter period
(`shortestFirst_iff_inOrder`), and then two such runs agree (`orderIndependent_iff`). -/

namespace Ecen5623.Schedule.ArgumentOrder

open Ecen5623.Feasibility.Tests Ecen5623.Schedule.Engine Ecen5623.Schedule.Trace

/-- The test case that `-c` makes of its pairs of a period and a runtime. -/
def customTestCase (pairs : List (ℕ × ℕ)) : STestCase :=
  testCase (pairs.map Prod.fst) (pairs.map Prod.snd)

/-- The pair of the service that runs at tick `t` of `N`. -/
def pairAt (pairs : List (ℕ × ℕ)) (N t : ℕ) : Option (ℕ × ℕ) :=
  ((run .rm (customTestCase pairs) N).events t).bind fun s => pairs[s]?

/-- The service run has the shortest period among those with runtime left. -/
def ShortestFirst (pairs : List (ℕ × ℕ)) (N : ℕ) : Prop :=
  ∀ t < N, ∀ s sv, (run .rm (customTestCase pairs) N).events t = some s →
    (checked .rm (customTestCase pairs) t)[s]? = some sv →
      ∀ sv' ∈ checked .rm (customTestCase pairs) t, sv'.running → sv.tperiod ≤ sv'.tperiod

/-- `N` ticks on the two lists run the same pairs, with the same misses, each time the one of the
shortest period. -/
structure OrderIndependent (pairs pairs' : List (ℕ × ℕ)) (N : ℕ) : Prop where
  pairAt : ∀ t < N, pairAt pairs N t = pairAt pairs' N t
  misses : (run .rm (customTestCase pairs) N).misses = (run .rm (customTestCase pairs') N).misses
  shortest : ShortestFirst pairs N
  shortest' : ShortestFirst pairs' N

/-- Whenever service `i` is the first with runtime left, the services behind it that need runtime
have longer periods. -/
def InOrder (pairs : List (ℕ × ℕ)) (N : ℕ) : Prop :=
  ∀ t < N, ∀ i, runRm (checked .rm (customTestCase pairs) t) = some i →
    ∀ j pair pair', i < j → pairs[i]? = some pair → pairs[j]? = some pair' → 0 < pair'.2 →
      pair.1 < pair'.1

/-! ### The pair of a service -/

/-- The period and the runtime of a service, which no step changes. -/
def pairOf (sv : Service) : ℤ × ℤ := (sv.tperiod, sv.cruntime)

@[simp] theorem pairOf_expire (sv : Service) : pairOf sv.expire = pairOf sv := by
  unfold Service.expire
  split_ifs <;> rfl

theorem map_pairOf_checkDeadlines (st : State) :
    (checkDeadlines st).services.map pairOf = st.services.map pairOf := by
  simp [checkDeadlines, Function.comp_def]

theorem getElem?_tick (p : Protocol) (t : ℕ) (st : State) (s : ℕ) :
    (tick p t st).services[s]? = (checkDeadlines st).services[s]?.map
      (ticked (choose p (checkDeadlines st).services = some s)) := by
  rw [tick, clockTick, List.getElem?_map, dispatch_services]
  rcases choose p (checkDeadlines st).services with _ | s'
  · cases (checkDeadlines st).services[s]? <;> simp [ticked]
  · rw [List.getElem?_modify]
    by_cases hs : s' = s
    · cases (checkDeadlines st).services[s]? <;> simp [hs, ticked]
    · cases (checkDeadlines st).services[s]? <;> simp [hs, ticked]

theorem map_pairOf_tick (p : Protocol) (t : ℕ) (st : State) :
    (tick p t st).services.map pairOf = st.services.map pairOf := by
  rw [← map_pairOf_checkDeadlines st]
  refine List.ext_getElem? fun s => ?_
  rw [List.getElem?_map, List.getElem?_map, getElem?_tick, Option.map_map]
  rfl

theorem map_pairOf_run (p : Protocol) (pairs : List (ℕ × ℕ)) (t : ℕ) :
    (run p (customTestCase pairs) t).services.map pairOf =
      pairs.map fun pair => ((pair.1 : ℤ), (pair.2 : ℤ)) := by
  induction t with
  | zero =>
    refine List.ext_getElem (by simp [run, init, customTestCase, testCase]) fun j h1 h2 => ?_
    have hj : j < pairs.length := by simpa using h2
    simp [run, init, customTestCase, testCase, pairOf, hj]
  | succ t ih => rw [run, map_pairOf_tick, ih]

theorem map_pairOf_checked (p : Protocol) (pairs : List (ℕ × ℕ)) (t : ℕ) :
    (checked p (customTestCase pairs) t).map pairOf =
      pairs.map fun pair => ((pair.1 : ℤ), (pair.2 : ℤ)) := by
  rw [checked, map_pairOf_checkDeadlines, map_pairOf_run]

/-! ### What has not run -/

section Runtime
variable {pairs : List (ℕ × ℕ)} {t s : ℕ} {sv : Service}

theorem exists_pair (hsv : (checked .rm (customTestCase pairs) t)[s]? = some sv) :
    ∃ pair, pairs[s]? = some pair ∧ sv.tperiod = pair.1 ∧ sv.cruntime = pair.2 := by
  have hmap := congrArg (·[s]?) (map_pairOf_checked .rm pairs t)
  simp only [List.getElem?_map, hsv, Option.map_some] at hmap
  obtain ⟨pair, hpair, heq⟩ := Option.map_eq_some_iff.mp hmap.symm
  exact ⟨pair, hpair, (congrArg Prod.fst heq).symm, (congrArg Prod.snd heq).symm⟩

theorem exists_service {pair : ℕ × ℕ} (hpair : pairs[s]? = some pair) (t : ℕ) :
    ∃ sv, (checked .rm (customTestCase pairs) t)[s]? = some sv ∧ sv.tperiod = pair.1 ∧
      sv.cruntime = pair.2 := by
  have hmap := congrArg (·[s]?) (map_pairOf_checked .rm pairs t)
  simp only [List.getElem?_map, hpair, Option.map_some] at hmap
  obtain ⟨sv, hsv, heq⟩ := Option.map_eq_some_iff.mp hmap
  exact ⟨sv, hsv, congrArg Prod.fst heq, congrArg Prod.snd heq⟩

theorem expire_runtime (sv : Service) : sv.expire.runtime = 0 ∨ sv.expire.runtime = sv.runtime := by
  unfold Service.expire
  split_ifs
  · exact Or.inl rfl
  · exact Or.inr rfl

/-- A property of the runtime counter of `s` that starts true, survives a reset and the ticks. -/
theorem runtime_induction {Q : ℤ → Prop} (h0 : Q 0)
    (hstep : ∀ u < t, ∀ r, Q r →
      Q (r + if runRm (checked .rm (customTestCase pairs) u) = some s then 1 else 0)) :
    ∀ sv, (checked .rm (customTestCase pairs) t)[s]? = some sv → Q sv.runtime := by
  have hexpire : ∀ (st : State), (∀ sv, st.services[s]? = some sv → Q sv.runtime) →
      ∀ sv, (checkDeadlines st).services[s]? = some sv → Q sv.runtime := by
    intro st hst sv hsv
    simp only [checkDeadlines, List.getElem?_map] at hsv
    obtain ⟨sv', hsv', rfl⟩ := Option.map_eq_some_iff.mp hsv
    rcases expire_runtime sv' with h | h
    · rw [h]; exact h0
    · rw [h]; exact hst sv' hsv'
  induction t with
  | zero =>
    refine hexpire _ fun sv hsv => ?_
    obtain ⟨s', -, rfl⟩ := List.mem_map.mp (List.mem_of_getElem? hsv)
    exact h0
  | succ t ih =>
    refine hexpire _ fun sv hsv => ?_
    rw [run, getElem?_tick] at hsv
    obtain ⟨sv', hsv', rfl⟩ := Option.map_eq_some_iff.mp hsv
    have hq := ih (fun u hu => hstep u (by omega)) sv' hsv'
    simp only [ticked, decide_eq_true_eq]
    exact hstep t (Nat.lt_succ_self t) sv'.runtime hq

theorem runtime_nonneg (hsv : (checked .rm (customTestCase pairs) t)[s]? = some sv) :
    0 ≤ sv.runtime :=
  runtime_induction (Q := fun r => 0 ≤ r) le_rfl
    (fun u _ r hr => by split_ifs <;> omega) sv hsv

theorem runtime_eq_zero (hne : ∀ u < t, runRm (checked .rm (customTestCase pairs) u) ≠ some s)
    (hsv : (checked .rm (customTestCase pairs) t)[s]? = some sv) : sv.runtime = 0 :=
  runtime_induction (Q := fun r => r = 0) rfl
    (fun u hu r hr => by rw [if_neg (hne u hu), hr, add_zero]) sv hsv

end Runtime

/-! ### When the shortest period is chosen -/

theorem index_unique {α : Type*} {l : List α} (hnodup : l.Nodup) {i j : ℕ} {a : α}
    (hi : l[i]? = some a) (hj : l[j]? = some a) : i = j := by
  obtain ⟨_, hi⟩ := List.getElem?_eq_some_iff.mp hi
  obtain ⟨_, hj⟩ := List.getElem?_eq_some_iff.mp hj
  exact hnodup.getElem_inj_iff.mp (hi.trans hj.symm)

section Order
variable {pairs : List (ℕ × ℕ)} {N t i j : ℕ} {pair pair' : ℕ × ℕ}

theorem first_choice (hi : runRm (checked .rm (customTestCase pairs) t) = some i)
    (hfirst : ∀ u < t, runRm (checked .rm (customTestCase pairs) u) ≠ some i) (hij : i < j) :
    ∀ u < t, runRm (checked .rm (customTestCase pairs) u) ≠ some j := by
  intro u hu hj
  obtain ⟨sv, hsv, hr, -⟩ := runRm_some hi
  obtain ⟨pair, hpair, -, hC⟩ := exists_pair hsv
  rw [Service.running, decide_eq_true_eq, runtime_eq_zero hfirst hsv] at hr
  -- at `u` service `i` has all of its runtime left, so it would have been chosen before `j`
  obtain ⟨svu, hsvu, -, hCu⟩ := exists_service hpair u
  obtain ⟨-, -, -, hbefore⟩ := runRm_some hj
  have hfalse := hbefore i hij svu hsvu
  rw [Service.running, decide_eq_false_iff_not] at hfalse
  have h0 := runtime_eq_zero (fun v hv => hfirst v (hv.trans hu)) hsvu
  omega

theorem inOrder_of_shortestFirst (hnodup : (pairs.map Prod.fst).Nodup)
    (h : ShortestFirst pairs N) : InOrder pairs N := by
  intro t ht i hi j pair pair' hij hpair hpair' hpos
  -- look at the first tick at which `i` is chosen
  have hex : ∃ t, runRm (checked .rm (customTestCase pairs) t) = some i := ⟨t, hi⟩
  set u := Nat.find hex with hu
  have hut : u ≤ t := Nat.find_le hi
  have hiu : runRm (checked .rm (customTestCase pairs) u) = some i := Nat.find_spec hex
  have hnoti : ∀ v < u, runRm (checked .rm (customTestCase pairs) v) ≠ some i :=
    fun v hv => Nat.find_min hex hv
  obtain ⟨sv, hsv, hT, -⟩ := exists_service hpair u
  obtain ⟨sv', hsv', hT', hC'⟩ := exists_service hpair' u
  have h0 := runtime_eq_zero (first_choice hiu hnoti hij) hsv'
  have hr' : sv'.running = true := by
    rw [Service.running, decide_eq_true_eq, h0, hC']
    exact_mod_cast hpos
  have hle := h u (hut.trans_lt ht) i sv (by rw [run_events_of_lt (hut.trans_lt ht)]; exact hiu) hsv
    sv' (List.mem_of_getElem? hsv') hr'
  rw [hT, hT', Nat.cast_le] at hle
  refine lt_of_le_of_ne hle fun heq => ?_
  have hgi : (pairs.map Prod.fst)[i]? = some pair.1 := by rw [List.getElem?_map, hpair]; rfl
  have hgj : (pairs.map Prod.fst)[j]? = some pair.1 := by rw [List.getElem?_map, hpair', heq]; rfl
  exact hij.ne (index_unique hnodup hgi hgj)

theorem shortestFirst_of_inOrder (h : InOrder pairs N) : ShortestFirst pairs N := by
  intro t ht i sv hi hsv sv' hsv' hr'
  rw [run_events_of_lt ht] at hi
  obtain ⟨j, hj⟩ := List.getElem?_of_mem hsv'
  obtain ⟨-, -, -, hbefore⟩ := runRm_some hi
  rcases Nat.lt_trichotomy i j with hij | rfl | hji
  · obtain ⟨pair, hpair, hT, -⟩ := exists_pair hsv
    obtain ⟨pair', hpair', hT', hC'⟩ := exists_pair hj
    have hpos : 0 < pair'.2 := by
      rw [Service.running, decide_eq_true_eq, hC'] at hr'
      exact_mod_cast (runtime_nonneg hj).trans_lt hr'
    rw [hT, hT', Nat.cast_le]
    exact (h t ht i hi j pair pair' hij hpair hpair' hpos).le
  · obtain rfl := Option.some.inj (hsv.symm.trans hj)
    exact le_rfl
  · rw [hbefore j hji sv' hj] at hr'
    cases hr'

/-- **When RM always runs the shortest period.** -/
theorem shortestFirst_iff_inOrder (hnodup : (pairs.map Prod.fst).Nodup) :
    ShortestFirst pairs N ↔ InOrder pairs N :=
  ⟨inOrder_of_shortestFirst hnodup, shortestFirst_of_inOrder⟩

theorem inOrder_of_sorted (hsorted : (pairs.map Prod.fst).Pairwise (· < ·)) :
    InOrder pairs N := by
  intro t _ i _ j pair pair' hij hpair hpair' _
  rw [List.pairwise_map, List.pairwise_iff_getElem] at hsorted
  obtain ⟨hi, rfl⟩ := List.getElem?_eq_some_iff.mp hpair
  obtain ⟨hj, rfl⟩ := List.getElem?_eq_some_iff.mp hpair'
  exact hsorted i j hi hj hij

end Order

/-! ### Two runs side by side -/

/-- The service RM chooses. -/
def chosen (services : List Service) : Option Service := (runRm services).bind (services[·]?)

theorem chosen_eq_some {services : List Service} {sv : Service} :
    chosen services = some sv ↔ ∃ s, runRm services = some s ∧ services[s]? = some sv :=
  Option.bind_eq_some_iff

theorem services_tick (t : ℕ) (st : State) (hnodup : (checkDeadlines st).services.Nodup) :
    (tick .rm t st).services = (checkDeadlines st).services.map fun sv =>
      ticked (chosen (checkDeadlines st).services = some sv) sv := by
  refine List.ext_getElem? fun s => ?_
  rw [getElem?_tick, List.getElem?_map]
  rcases hsv : (checkDeadlines st).services[s]? with _ | sv
  · rfl
  · have hiff : choose .rm (checkDeadlines st).services = some s ↔
        chosen (checkDeadlines st).services = some sv := by
      rw [chosen_eq_some]
      constructor
      · exact fun hs => ⟨s, hs, hsv⟩
      · rintro ⟨s', hs', hsv'⟩
        rwa [index_unique hnodup hsv' hsv] at hs'
    simp only [Option.map_some, hiff]

section Perm
variable {services services' : List Service}

/-- The least period among the services with runtime left is chosen. -/
def ChoosesShortest (services : List Service) : Prop :=
  ∀ sv, chosen services = some sv → ∀ sv' ∈ services, sv'.running → sv.tperiod ≤ sv'.tperiod

theorem chosen_mem {sv : Service} (h : chosen services = some sv) :
    sv ∈ services ∧ sv.running = true := by
  obtain ⟨s, hs, hsv⟩ := chosen_eq_some.mp h
  obtain ⟨sv', hsv', hr, -⟩ := runRm_some hs
  obtain rfl := Option.some.inj (hsv.symm.trans hsv')
  exact ⟨List.mem_of_getElem? hsv, hr⟩

theorem chosen_none (h : chosen services = none) : ∀ sv ∈ services, sv.running = false := by
  refine runRm_none ?_
  rcases hs : runRm services with _ | s
  · rfl
  · obtain ⟨sv, hsv, -⟩ := runRm_some hs
    rw [chosen_eq_some.mpr ⟨s, hs, hsv⟩] at h
    cases h

/-- **Two orders of the same services**: the service of the shortest period is the same. -/
theorem chosen_perm (hperm : services.Perm services')
    (hnodup : (services.map Service.tperiod).Nodup) (h : ChoosesShortest services)
    (h' : ChoosesShortest services') : chosen services = chosen services' := by
  rcases hc : chosen services with _ | sv
  · rcases hc' : chosen services' with _ | sv'
    · rfl
    · obtain ⟨hmem, hr⟩ := chosen_mem hc'
      rw [chosen_none hc sv' (hperm.mem_iff.mpr hmem)] at hr
      cases hr
  · obtain ⟨hmem, hr⟩ := chosen_mem hc
    rcases hc' : chosen services' with _ | sv'
    · rw [chosen_none hc' sv (hperm.mem_iff.mp hmem)] at hr
      cases hr
    · obtain ⟨hmem', hr'⟩ := chosen_mem hc'
      have hle := h sv hc sv' (hperm.mem_iff.mpr hmem') hr'
      have hge := h' sv' hc' sv (hperm.mem_iff.mp hmem) hr
      rw [List.inj_on_of_nodup_map hnodup hmem (hperm.mem_iff.mpr hmem') (le_antisymm hle hge)]

end Perm

section Runs
variable {pairs pairs' : List (ℕ × ℕ)} {N t : ℕ}

theorem nodup_tperiod (hnodup : (pairs.map Prod.fst).Nodup) (t : ℕ) :
    ((checked .rm (customTestCase pairs) t).map Service.tperiod).Nodup := by
  have hmap : (checked .rm (customTestCase pairs) t).map Service.tperiod =
      (pairs.map Prod.fst).map Nat.cast := by
    have hp := congrArg (List.map Prod.fst) (map_pairOf_checked .rm pairs t)
    rw [List.map_map, List.map_map] at hp
    rw [List.map_map]
    exact hp
  rw [hmap]
  exact hnodup.map Nat.cast_injective

theorem choosesShortest (h : ShortestFirst pairs N) (ht : t < N) :
    ChoosesShortest (checked .rm (customTestCase pairs) t) := by
  intro sv hsv
  obtain ⟨s, hs, hsv⟩ := chosen_eq_some.mp hsv
  exact h t ht s sv (by rw [run_events_of_lt ht]; exact hs) hsv

theorem init_services (pairs : List (ℕ × ℕ)) : (init (customTestCase pairs)).services =
    pairs.map fun pair =>
      { tperiod := pair.1, cruntime := pair.2, deadline := pair.1, runtime := 0 } := by
  refine List.ext_getElem (by simp [init, customTestCase, testCase]) fun j h1 h2 => ?_
  have hj : j < pairs.length := by simpa using h2
  simp [init, customTestCase, testCase, hj]

/-- **The runs on two orders of the same pairs** keep the same services, in two orders. -/
theorem run_perm (hperm : pairs.Perm pairs') (hnodup : (pairs.map Prod.fst).Nodup)
    (h : ShortestFirst pairs N) (h' : ShortestFirst pairs' N) :
    ∀ {t}, t ≤ N → (run .rm (customTestCase pairs) t).services.Perm
        (run .rm (customTestCase pairs') t).services ∧
      (run .rm (customTestCase pairs) t).misses = (run .rm (customTestCase pairs') t).misses
  | 0, _ => by
    refine ⟨?_, rfl⟩
    simp only [run, init_services]
    exact hperm.map _
  | t + 1, ht => by
    obtain ⟨ih1, ih2⟩ := run_perm hperm hnodup h h' (Nat.le_of_succ_le ht)
    have hnodup' : (pairs'.map Prod.fst).Nodup := (hperm.map _).nodup_iff.mp hnodup
    have hchecked : (checked .rm (customTestCase pairs) t).Perm
        (checked .rm (customTestCase pairs') t) := ih1.map _
    have hchosen := chosen_perm hchecked (nodup_tperiod hnodup t) (choosesShortest h ht)
      (choosesShortest h' ht)
    constructor
    · rw [run, run, services_tick t _ (nodup_tperiod hnodup t).of_map,
        services_tick t _ (nodup_tperiod hnodup' t).of_map]
      unfold checked at hchosen hchecked
      rw [hchosen]
      exact hchecked.map _
    · rw [run, run, tick_misses, tick_misses, ih2, ih1.countP_eq]

theorem pairAt_eq (pairs : List (ℕ × ℕ)) (ht : t < N) :
    (pairAt pairs N t).map (fun pair => ((pair.1 : ℤ), (pair.2 : ℤ))) =
      (chosen (checked .rm (customTestCase pairs) t)).map pairOf := by
  have hmap := map_pairOf_checked .rm pairs t
  rw [pairAt, run_events_of_lt ht, choose, chosen, Option.map_bind, Option.map_bind]
  congr 1
  funext s
  have hs := congrArg (·[s]?) hmap
  simp only [List.getElem?_map] at hs
  exact hs.symm

/-- **When the order of the arguments does not matter**: if and only if on both lists no service
that gets its turn is listed before one that needs runtime and has a shorter period. -/
theorem orderIndependent_iff (hperm : pairs.Perm pairs') (hnodup : (pairs.map Prod.fst).Nodup)
    (N : ℕ) : OrderIndependent pairs pairs' N ↔ InOrder pairs N ∧ InOrder pairs' N := by
  have hnodup' : (pairs'.map Prod.fst).Nodup := (hperm.map _).nodup_iff.mp hnodup
  rw [← shortestFirst_iff_inOrder hnodup, ← shortestFirst_iff_inOrder hnodup']
  constructor
  · exact fun h => ⟨h.shortest, h.shortest'⟩
  · rintro ⟨h, h'⟩
    refine ⟨fun t ht => ?_, (run_perm hperm hnodup h h' le_rfl).2, h, h'⟩
    have hchosen := chosen_perm ((run_perm hperm hnodup h h' ht.le).1.map Service.expire)
      (nodup_tperiod hnodup t) (choosesShortest h ht) (choosesShortest h' ht)
    have hcast : Function.Injective fun pair : ℕ × ℕ => ((pair.1 : ℤ), (pair.2 : ℤ)) :=
      fun a b hab => by simpa [Prod.ext_iff] using hab
    refine Option.map_injective hcast ?_
    rw [pairAt_eq pairs ht, pairAt_eq pairs' ht]
    exact congrArg _ hchosen

/-- Three pairs in two orders, for the ticks of the program. -/
theorem orderIndependent_iff_three :
    OrderIndependent [(2, 1), (5, 1), (3, 1)] [(2, 1), (3, 1), (5, 1)] 20 ↔
      InOrder [(2, 1), (5, 1), (3, 1)] 20 ∧ InOrder [(2, 1), (3, 1), (5, 1)] 20 :=
  orderIndependent_iff (by decide) (by decide) 20

end Runs

/-- `-c RM 3 2 1 1` runs the service of period 3 at the first tick, `-c RM 2 3 1 1` that of
period 2. -/
theorem order_matters :
    [((3, 1) : ℕ × ℕ), (2, 1)].Perm [(2, 1), (3, 1)] ∧
      ([((3, 1) : ℕ × ℕ), (2, 1)].map Prod.fst).Nodup ∧
      pairAt [(3, 1), (2, 1)] 20 0 = some (3, 1) ∧ pairAt [(2, 1), (3, 1)] 20 0 = some (2, 1) := by
  decide +kernel

end Ecen5623.Schedule.ArgumentOrder
