import Mathlib.Data.List.TakeWhile
import Hps.Scheduler.Conservation

/-!
# Scheduler — the order in which tasks are taken

A scan goes through the queue from its front, so a task is overtaken only while
it is for another worker, or its fiber runs (`overtaken_of_taken`). A callback
is then taken before all that was scheduled behind it for the same worker, and
one that any worker may take waits for no more tasks than were scheduled before
it (`callbacks_in_order`).
-/

namespace Hps.Scheduler

open Hps.Lib

variable {n : Nat}

/-- The task is a callback, and whoever may take `u` may take it. -/
def Task.Precedes (t u : Task n) : Prop :=
  t.id < u.id ∧ (∃ c, t.job = .cb c) ∧ (t.thread = none ∨ t.thread = u.thread)

/-- No task is taken before one that precedes it. -/
def InOrder (tr : List (Event n)) : Prop :=
  ∀ a u b, takenTasks tr = a ++ u :: b → ∀ t ∈ pushedTasks tr, t.Precedes u → t ∈ a

/-! ## Overtaking -/

section Overtaking

variable {tr : List (Event n)} {s : State n} {w : Fin n} {t u : Task n}

/-- In a queue that is in order, what is in front of the first allowed task is
not allowed. -/
theorem not_allowed_of_lt (hc : Conserved tr s)
    (hfirst : s.tasks.find? (allowed w s.fibers) = some u) (ht : t ∈ s.tasks)
    (hid : t.id < u.id) : allowed w s.fibers t = false := by
  obtain ⟨-, l, r, hts, hl⟩ := List.find?_eq_some_iff_append.mp hfirst
  have horder := hc.order
  rw [hts] at ht horder
  obtain ⟨-, hbehind, -⟩ := List.pairwise_append.mp horder
  rcases List.mem_append.mp ht with hfront | hback
  · simpa using hl t hfront
  · rcases List.mem_cons.mp hback with rfl | hr
    · exact absurd hid (lt_irrefl _)
    · exact absurd ((List.pairwise_cons.mp hbehind).1 t hr) (by omega)

/-- **A task is overtaken** only if it is for another worker, or its fiber
runs. -/
theorem overtaken_of_taken (hc : Conserved tr s)
    (hfirst : s.tasks.find? (allowed w s.fibers) = some u) (ht : t ∈ pushedTasks tr)
    (hid : t.id < u.id) : t ∈ takenTasks tr ∨ allowed w s.fibers t = false := by
  rcases List.mem_append.mp (hc.tasks.symm.subset ht) with hqueue | htaken
  · exact .inr (not_allowed_of_lt hc hfirst hqueue hid)
  · exact .inl htaken

/-- A callback for the same worker is allowed too. -/
theorem allowed_of_precedes (hu : allowed w s.fibers u = true) (h : t.Precedes u) :
    allowed w s.fibers t = true := by
  obtain ⟨-, ⟨c, hjob⟩, hthread⟩ := h
  have hmay : u.thread = none ∨ u.thread = some w :=
    of_decide_eq_true ((Bool.and_eq_true _ _ ▸ hu).1)
  rw [allowed, hjob, Bool.and_true, decide_eq_true_eq]
  rcases hthread with hnone | hsame
  · exact .inl hnone
  · rw [hsame]
    exact hmay

end Overtaking

/-! ## Runs -/

section Runs

variable {tr evs : List (Event n)} {s s' : State n}

/-- What was taken had been pushed. -/
theorem Conserved.taken_lt (hc : Conserved tr s) {u : Task n} (hu : u ∈ takenTasks tr) :
    u.id < s.nodes := by
  have hpushed : u ∈ pushedTasks tr := hc.tasks.subset (List.mem_append_right _ hu)
  have hid := List.mem_map_of_mem (f := Task.id) hpushed
  rw [hc.ids] at hid
  exact List.mem_range.mp hid

theorem InOrder.step (ho : InOrder tr) (hc : Conserved tr s) (h : Change s s' evs) :
    InOrder (tr ++ evs) := by
  intro a u b htaken t ht hprec
  cases h with
  | @pushes jobs =>
      rw [takenTasks_append, takenTasks_pushes, List.append_nil] at htaken
      rw [pushedTasks_append, pushedTasks_pushes] at ht
      rcases List.mem_append.mp ht with ht | ht
      · exact ho a u b htaken t ht hprec
      · -- what is pushed now comes behind all that was taken
        have hu : u.id < s.nodes := hc.taken_lt (by rw [htaken]; simp)
        have hle := numberFrom_le ht
        exact absurd hprec.1 (by omega)
  | @takes w v first =>
      have hpushed : pushedTasks (tr ++ [.taken w v]) = pushedTasks tr := by
        rw [pushedTasks_append]
        exact List.append_nil _
      have hlast : takenTasks (tr ++ [.taken w v]) = takenTasks tr ++ [v] := takenTasks_append ..
      rw [hpushed] at ht
      rw [hlast] at htaken
      rcases List.eq_nil_or_concat b with rfl | ⟨b', x, rfl⟩
      · obtain ⟨rfl, hv⟩ := List.append_inj' htaken rfl
        obtain rfl := (List.cons.inj hv).1
        rcases overtaken_of_taken hc first ht hprec.1 with hmem | hnot
        · exact hmem
        · rw [allowed_of_precedes (eraseP_of_find? first).1 hprec] at hnot
          cases hnot
      · have hsplit : takenTasks tr ++ [v] = (a ++ u :: b') ++ [x] := by
          rw [htaken]
          simp
        exact ho a u b' (List.append_inj' hsplit rfl).1 t ht hprec
  | @releases w =>
      have hpushed : pushedTasks (tr ++ [.released w]) = pushedTasks tr := by
        rw [pushedTasks_append]
        exact List.append_nil _
      have hsame : takenTasks (tr ++ [.released w]) = takenTasks tr := by
        rw [takenTasks_append]
        exact List.append_nil _
      rw [hpushed] at ht
      rw [hsame] at htaken
      exact ho a u b htaken t ht hprec

theorem inOrder_run {as : List (Act n)} (hs : ∀ v, Scanned (s.workers v)) (hc : Conserved tr s)
    (ho : InOrder tr) (hr : run step s as = some s') : InOrder (tr ++ trace s as) := by
  induction as generalizing tr s with
  | nil =>
      rw [trace, List.append_nil]
      exact ho
  | cons a as ih =>
      obtain ⟨t, ht, htr⟩ := Option.bind_eq_some_iff.mp hr
      have hchange := step_change ht hs
      have htrace : trace s (a :: as) = events s a ++ trace t as := by rw [trace, ht]
      rw [htrace, ← List.append_assoc]
      exact ih (step_scanned ht hs) (hc.step hchange) (ho.step hc hchange) htr

/-- The tasks are told apart by their ids. -/
theorem Conserved.ids_nodup (hc : Conserved tr s) :
    ((pushedTasks tr).map Task.id).Nodup ∧ ((takenTasks tr).map Task.id).Nodup := by
  have hpushed : ((pushedTasks tr).map Task.id).Nodup := by
    rw [hc.ids]
    exact List.nodup_range
  have hall : ((s.tasks ++ takenTasks tr).map Task.id).Nodup :=
    (hc.tasks.map Task.id).nodup_iff.mpr hpushed
  rw [List.map_append] at hall
  exact ⟨hpushed, (List.nodup_append.mp hall).2.1⟩

/-- What is taken before a callback for any worker was scheduled before it. -/
theorem InOrder.lt_of_before (ho : InOrder tr) (hc : Conserved tr s) {t : Task n}
    (ht : t ∈ pushedTasks tr) (hcb : ∃ c, t.job = .cb c) (hthread : t.thread = none) {u : Task n}
    (hu : u ∈ (takenTasks tr).takeWhile (· ≠ t)) : u.id < t.id := by
  have hne : u ≠ t := by simpa using List.mem_takeWhile_imp hu
  obtain ⟨a, b, hsplit⟩ := List.append_of_mem hu
  have htaken : takenTasks tr = a ++ u :: (b ++ (takenTasks tr).dropWhile (· ≠ t)) := by
    rw [← List.cons_append, ← List.append_assoc, ← hsplit, List.takeWhile_append_dropWhile]
  by_contra hge
  rcases Nat.lt_or_eq_of_le (Nat.le_of_not_lt hge) with hgt | heq
  · have hmem := ho a u _ htaken t ht ⟨hgt, hcb, .inl hthread⟩
    have hin : t ∈ (takenTasks tr).takeWhile (· ≠ t) := by
      rw [hsplit]
      exact List.mem_append_left _ hmem
    have hself : t ≠ t := by simpa using List.mem_takeWhile_imp hin
    exact hself rfl
  · have hpushed : u ∈ pushedTasks tr := by
      refine hc.tasks.subset (List.mem_append_right _ ?_)
      rw [htaken]
      simp
    exact hne (List.inj_on_of_nodup_map hc.ids_nodup.1 hpushed ht heq.symm)

end Runs

/-- **Callbacks are taken in their order.** In every run a callback for any
worker, or for the same one, is taken before every task that was scheduled
behind it, as a fiber is that yields and is scheduled again; and before a
callback for any worker no more tasks are taken than were scheduled before it. -/
theorem callbacks_in_order {as : List (Act n)} {s : State n} (h : run step init as = some s)
    {t : Task n} (ht : t ∈ pushedTasks (trace init as)) {c : Nat} (hcb : t.job = .cb c) :
    (∀ a u b, takenTasks (trace init as) = a ++ u :: b → t.id < u.id →
      (t.thread = none ∨ t.thread = u.thread) → t ∈ a) ∧
    (t.thread = none → ((takenTasks (trace init as)).takeWhile (· ≠ t)).length ≤ t.id) := by
  have hscanned : ∀ v, Scanned ((init : State n).workers v) := fun v => scanned_away rfl
  have hc : Conserved (trace init as) s := conserved_run hscanned conserved_init h
  have hfirst : InOrder ([] : List (Event n)) := by
    intro a u b hnil
    exact absurd hnil.symm (by simp [takenTasks])
  have ho : InOrder (trace init as) := inOrder_run hscanned conserved_init hfirst h
  refine ⟨fun a u b htaken hid hthread => ho a u b htaken t ht ⟨hid, ⟨c, hcb⟩, hthread⟩, ?_⟩
  intro hthread
  set before := (takenTasks (trace init as)).takeWhile (· ≠ t)
  have hnodup : (before.map Task.id).Nodup :=
    hc.ids_nodup.2.sublist ((List.takeWhile_sublist _).map _)
  have hsub : before.map Task.id ⊆ List.range t.id := by
    intro i hi
    obtain ⟨u, hu, rfl⟩ := List.mem_map.mp hi
    exact List.mem_range.mpr (ho.lt_of_before hc ht ⟨c, hcb⟩ hthread hu)
  have hle := (List.subperm_of_subset hnodup hsub).length_le
  rwa [List.length_map, List.length_range] at hle

/-- A fiber yields and is scheduled again, behind a callback. -/
def yieldBehind : List (Act 1) :=
  [.newFiber, .schedule none (some (.fiber 0)) none, .schedule none (some (.cb 7)) none,
    .step 0, .tickleRead, .step 0, .step 0, .step 0, .yieldToReady 0, .step 0, .step 0, .step 0,
    .step 0, .step 0, .step 0, .step 0, .step 0, .finish 0 false, .step 0, .step 0, .step 0,
    .step 0]

theorem yieldBehind_in_order :
    takenTasks (trace init yieldBehind) =
      [⟨0, .fiber 0, none⟩, ⟨1, .cb 7, none⟩, ⟨2, .fiber 0, none⟩] ∧
    (⟨1, .cb 7, none⟩ : Task 1) ∈ [(⟨0, .fiber 0, none⟩ : Task 1), ⟨1, .cb 7, none⟩] := by
  have htaken : takenTasks (trace init yieldBehind) =
      [⟨0, .fiber 0, none⟩, ⟨1, .cb 7, none⟩] ++ [⟨2, .fiber 0, none⟩] := by decide
  obtain ⟨s, hs⟩ : ∃ s, run step init yieldBehind = some s :=
    Option.isSome_iff_exists.mp (by decide)
  have hpushed : (⟨1, .cb 7, none⟩ : Task 1) ∈ pushedTasks (trace init yieldBehind) := by decide
  refine ⟨htaken, ?_⟩
  exact (callbacks_in_order hs hpushed rfl).1 _ _ _ htaken (by decide) (.inl rfl)

end Hps.Scheduler
