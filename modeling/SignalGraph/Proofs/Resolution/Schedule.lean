import Mathlib.Data.List.Pairwise
import Mathlib.Data.Set.Finite.Basic
import Mathlib.Order.Preorder.Finite
import Mathlib.Order.Monotone.Basic
import SignalGraph.Proofs.Resolution.Dependency
import SignalGraph.Resolution.Schedule

/-!
# What a schedule keeps

Between two steps of a schedule (`Schedule.Consistent`), a job's pending count is
the number of its entries that wait for jobs not placed, the ready jobs are those
not placed with nothing pending, and the jobs placed are in order. `Consistent.step`
says that a step keeps all this. The count and the list of readers tell of the same
entries from two sides (`count_readers`), so a count never runs below zero.

A schedule that comes to a halt has placed all jobs but those in, or waiting for, a
circle:

* `run_consistent`, `run_ready`: the run keeps all this until nothing is ready;
* `exists_circle`: from each job left over there is a way into a circle.
-/

namespace SignalGraph.Schedule

open Relation

/-! ## The list of ready jobs -/

@[simp] theorem mem_insertDescending {a job : Nat} {l : List Nat} :
    a ∈ insertDescending job l ↔ a = job ∨ a ∈ l := by
  induction l with
  | nil => simp [insertDescending]
  | cons first rest ih =>
    rw [insertDescending]
    split
    · simp
    · simp [ih, or_left_comm]

theorem pairwise_insertDescending {job : Nat} {l : List Nat} (hl : l.Pairwise (· > ·))
    (hjob : job ∉ l) : (insertDescending job l).Pairwise (· > ·) := by
  induction l with
  | nil => simp [insertDescending]
  | cons first rest ih =>
    rw [List.pairwise_cons] at hl
    rw [List.mem_cons, not_or] at hjob
    rw [insertDescending]
    split
    · next hlt =>
      refine List.pairwise_cons.2 ⟨fun b hb => ?_, List.pairwise_cons.2 hl⟩
      rcases List.mem_cons.1 hb with rfl | hb
      · exact hlt
      · exact lt_trans (hl.1 b hb) hlt
    · next hlt =>
      refine List.pairwise_cons.2 ⟨fun b hb => ?_, ih hl.2 hjob.2⟩
      rcases mem_insertDescending.1 hb with rfl | hb
      · omega
      · exact hl.1 b hb

/-! ## Readers -/

/-- The jobs that wait for `job`, as listed by the schedule. -/
abbrev readersOf (readers : Array (List Nat)) (job : Nat) : List Nat := readers.getD job []

/-- The jobs that `job` waits for. -/
abbrev entries (waits : Waits) (job : Nat) : List Nat := waits.getD job []

/-- The job has an entry for `source`. -/
abbrev WaitsFor (waits : Waits) (job source : Nat) : Prop := source ∈ entries waits job

theorem lt_of_waitsFor {waits : Waits} {job source : Nat} (h : WaitsFor waits job source) :
    job < waits.size := by
  by_contra hge
  simp [WaitsFor, hge] at h

theorem getD_modify_cons (readers : Array (List Nat)) {job : Nat} (hjob : job < readers.size)
    (source reader r : Nat) :
    (readersOf (readers.modify source (reader :: ·)) job).count r =
      (readersOf readers job).count r + if reader = r ∧ source = job then 1 else 0 := by
  by_cases hs : source = job
  · subst hs
    simp [hjob, Array.getElem_modify, List.count_cons]
  · simp [hjob, Array.getElem_modify, hs]

/-- The entries of one job, as readers of others. -/
theorem count_foldl_modify (sources : List Nat) (readers : Array (List Nat)) {job : Nat}
    (hjob : job < readers.size) (reader r : Nat) :
    (readersOf (sources.foldl (fun rs source => rs.modify source (reader :: ·)) readers)
        job).count r
      = (readersOf readers job).count r + if reader = r then sources.count job else 0 := by
  induction sources generalizing readers with
  | nil => simp
  | cons source sources ih =>
    rw [List.foldl_cons, ih _ (by simpa using hjob), getD_modify_cons _ hjob, List.count_cons]
    by_cases hr : reader = r
    · simp [hr, Nat.add_assoc, Nat.add_comm (List.count job sources)]
    · simp [hr]

theorem size_foldl_modify (sources : List Nat) (readers : Array (List Nat)) (reader : Nat) :
    (sources.foldl (fun rs source => rs.modify source (reader :: ·)) readers).size
      = readers.size := by
  induction sources generalizing readers with
  | nil => rfl
  | cons source sources ih => rw [List.foldl_cons, ih, Array.size_modify]

theorem count_foldl_zipIdx (l : List (List Nat)) (k : Nat) (readers : Array (List Nat)) {job : Nat}
    (hjob : job < readers.size) (r : Nat) :
    (readersOf ((l.zipIdx k).foldl
      (fun readers (sources, reader) =>
        sources.foldl (fun readers source => readers.modify source (reader :: ·)) readers)
      readers) job).count r
      = (readersOf readers job).count r +
        if k ≤ r then (l.getD (r - k) []).count job else 0 := by
  induction l generalizing k readers with
  | nil => simp
  | cons sources l ih =>
    rw [List.zipIdx_cons, List.foldl_cons, ih _ _ (by rwa [size_foldl_modify]),
      count_foldl_modify _ _ hjob, Nat.add_assoc]
    congr 1
    rcases lt_trichotomy k r with h | rfl | h
    · obtain ⟨n, rfl⟩ : ∃ n, r = k + 1 + n := ⟨r - (k + 1), by omega⟩
      have hn : k + 1 + n - k = n + 1 := by omega
      simp [h.ne, hn, show k ≤ k + 1 + n by omega]
    · simp
    · simp [h.not_ge, h.ne', show ¬k + 1 ≤ r by omega]

/-- The readers of a job are those with an entry for it, once for each entry. -/
theorem count_readers (waits : Waits) {job : Nat} (hjob : job < waits.size) (r : Nat) :
    (readersOf (readers waits) job).count r = (entries waits r).count job := by
  rw [readers, count_foldl_zipIdx _ _ _ (by simpa using hjob)]
  simp [Array.getD_eq_getD_getElem?, hjob]

/-! ## Releasing -/

/-- How many entries of a job wait for jobs not placed, by the schedule's count. -/
def waiting (s : Schedule) (job : Nat) : Nat := s.pending.getD job 0

variable {waits : Waits} {s : Schedule}

theorem waiting_release (s : Schedule) (reader r : Nat) :
    (s.release reader).waiting r = s.waiting r - if reader = r then 1 else 0 := by
  by_cases hr : reader = r
  · subst hr
    by_cases hlt : reader < s.pending.size <;> simp [waiting, release, hlt]
  · simp [waiting, release, hr]

theorem mem_ready_release (s : Schedule) (reader r : Nat) :
    r ∈ (s.release reader).ready ↔ r ∈ s.ready ∨ r = reader ∧ s.waiting reader ≤ 1 := by
  rw [release, waiting]
  generalize s.pending.getD reader 0 = n
  by_cases h : n - 1 = 0
  · simp [h, show n ≤ 1 by omega, or_comm]
  · simp [h, show ¬n ≤ 1 by omega]

theorem pairwise_ready_release {reader : Nat} (hsorted : s.ready.Pairwise (· > ·))
    (hreader : reader ∉ s.ready) : (s.release reader).ready.Pairwise (· > ·) := by
  simp only [release]
  split
  · exact pairwise_insertDescending hsorted hreader
  · exact hsorted

theorem placed_foldl_release (rs : List Nat) (s : Schedule) :
    (rs.foldl release s).placed = s.placed := by
  induction rs generalizing s with
  | nil => rfl
  | cons reader rs ih => exact ih (s.release reader)

theorem size_pending_foldl_release (rs : List Nat) (s : Schedule) :
    (rs.foldl release s).pending.size = s.pending.size := by
  induction rs generalizing s with
  | nil => rfl
  | cons reader rs ih => simp [ih, release]

/-- Releasing readers one after the other takes from each its number of entries. -/
theorem waiting_foldl_release (rs : List Nat) (s : Schedule) (r : Nat) :
    (rs.foldl release s).waiting r = s.waiting r - rs.count r := by
  induction rs generalizing s with
  | nil => rfl
  | cons reader rs ih =>
    rw [List.foldl_cons, ih, waiting_release, List.count_cons, Nat.sub_sub, Nat.add_comm]
    simp

theorem count_le_waiting_release {reader : Nat} {rs : List Nat}
    (h : ∀ r, (reader :: rs).count r ≤ s.waiting r) (r : Nat) :
    rs.count r ≤ (s.release reader).waiting r := by
  have := h r
  rw [List.count_cons] at this
  rw [waiting_release]
  simp only [beq_iff_eq] at this
  omega

/-- The readers that have all their entries taken are ready then. -/
theorem mem_ready_foldl_release {rs : List Nat} (hcount : ∀ r, rs.count r ≤ s.waiting r) (r : Nat) :
    r ∈ (rs.foldl release s).ready ↔ r ∈ s.ready ∨ r ∈ rs ∧ s.waiting r = rs.count r := by
  induction rs generalizing s with
  | nil => simp
  | cons reader rs ih =>
    rw [List.foldl_cons, ih (count_le_waiting_release hcount), mem_ready_release, waiting_release,
      List.mem_cons, List.count_cons, or_assoc]
    refine or_congr_right ?_
    by_cases hr : reader = r
    · -- The last entry is taken now, or with a later one of the same reader.
      subst hr
      have hle := hcount reader
      rw [List.count_cons_self] at hle
      by_cases hmem : reader ∈ rs
      · have hpos := List.count_pos_iff.2 hmem
        simp only [hmem, true_and, if_true, or_true, beq_self_eq_true]
        omega
      · have hzero := List.count_eq_zero.2 hmem
        simp only [hmem, hzero, true_and, if_true, or_false, false_and, beq_self_eq_true]
        omega
    · simp [hr, Ne.symm hr]

theorem pairwise_ready_foldl_release {rs : List Nat} (hcount : ∀ r, rs.count r ≤ s.waiting r)
    (hready : ∀ r ∈ rs, r ∉ s.ready) (hsorted : s.ready.Pairwise (· > ·)) :
    (rs.foldl release s).ready.Pairwise (· > ·) := by
  induction rs generalizing s with
  | nil => exact hsorted
  | cons reader rs ih =>
    refine ih (count_le_waiting_release hcount) (fun r hr => ?_)
      (pairwise_ready_release hsorted (hready reader List.mem_cons_self))
    rw [mem_ready_release, not_or]
    refine ⟨hready r (List.mem_cons_of_mem _ hr), ?_⟩
    -- A reader with one entry left has no further one to be released for.
    rintro ⟨rfl, hle⟩
    have hcount := hcount r
    have hpos := List.count_pos_iff.2 hr
    rw [List.count_cons_self] at hcount
    omega

/-! ## The invariant -/

/-- What holds between two steps of a schedule. -/
structure Consistent (waits : Waits) (s : Schedule) : Prop where
  placed_lt : ∀ job ∈ s.placed.toList, job < waits.size
  placed_nodup : s.placed.toList.Nodup
  placed_inOrder : InOrder (WaitsFor waits) s.placed.toList
  pending_size : s.pending.size = waits.size
  waiting_eq : ∀ job, s.waiting job = (entries waits job).countP (· ∉ s.placed.toList)
  ready_sorted : s.ready.Pairwise (· > ·)
  mem_ready : ∀ job, job ∈ s.ready ↔
    job < waits.size ∧ job ∉ s.placed.toList ∧ s.waiting job = 0

/-- What placing a job does to a schedule. -/
structure Places (waits : Waits) (s t : Schedule) (job : Nat) : Prop where
  placed_eq : t.placed.toList = s.placed.toList ++ [job]
  pending_size : t.pending.size = s.pending.size
  waiting_eq : ∀ r, s.waiting r = t.waiting r + (entries waits r).count job
  ready_sorted : t.ready.Pairwise (· > ·)
  mem_ready : ∀ r, r ∈ t.ready ↔
    r ∈ s.ready ∧ r ≠ job ∨ WaitsFor waits r job ∧ t.waiting r = 0

theorem consistent_start (waits : Waits) : Consistent waits (start waits) where
  placed_lt := by simp [start]
  placed_nodup := by simp [start]
  placed_inOrder := by simpa [start] using InOrder.nil
  pending_size := by simp [start]
  waiting_eq job := by
    by_cases h : job < waits.size <;> simp [start, waiting, h]
  ready_sorted :=
    .filter _ (List.pairwise_reverse.2 List.pairwise_lt_range)
  mem_ready job := by
    by_cases h : job < waits.size <;> simp [start, waiting, h]

/-- Placing one more job settles the entries that wait for it. -/
theorem countP_append_singleton {placed : List Nat} {job : Nat} (hjob : job ∉ placed)
    (l : List Nat) :
    l.countP (· ∉ placed) = l.countP (· ∉ placed ++ [job]) + l.count job := by
  induction l with
  | nil => rfl
  | cons source l ih =>
    rw [List.countP_cons, List.countP_cons, List.count_cons, ih]
    by_cases h : source = job
    · subst h
      simp [hjob, Nat.add_assoc]
    · simp [h, Nat.add_right_comm]

namespace Consistent

/-- Nothing is pending for a job all of whose sources are placed. -/
theorem waiting_eq_zero_iff (hs : Consistent waits s) (job : Nat) :
    s.waiting job = 0 ↔ ∀ source ∈ entries waits job, source ∈ s.placed.toList := by
  simp [hs.waiting_eq, List.countP_eq_zero]

theorem waiting_of_placed (hs : Consistent waits s) {job : Nat} (hjob : job ∈ s.placed.toList) :
    s.waiting job = 0 := by
  obtain ⟨before, after, h⟩ := List.append_of_mem hjob
  refine (hs.waiting_eq_zero_iff job).2 fun source hsource => ?_
  rw [h]
  exact List.mem_append_left _ (hs.placed_inOrder before job after h source hsource)

/-- A job that is ready is listed as awaited no more often than entries are pending. -/
theorem count_readersOf_le (hs : Consistent waits s) {job : Nat} (hjob : job ∈ s.ready) (r : Nat) :
    (readersOf (readers waits) job).count r ≤ s.waiting r := by
  obtain ⟨hlt, hnot, -⟩ := (hs.mem_ready job).1 hjob
  rw [count_readers waits hlt, hs.waiting_eq, countP_append_singleton hnot]
  exact Nat.le_add_left _ _

/-- Placing the first ready job releases those that wait for it. -/
theorem places (hs : Consistent waits s) {job : Nat} {ready : List Nat}
    (hready : s.ready = job :: ready) : Places waits s (s.step (readers waits)) job := by
  have hjob : job ∈ s.ready := hready ▸ List.mem_cons_self
  have hsorted := hready ▸ hs.ready_sorted
  have hcount := count_readers waits ((hs.mem_ready job).1 hjob).1
  have hmem : ∀ r, r ∈ readersOf (readers waits) job ↔ WaitsFor waits r job := fun r => by
    rw [← List.count_pos_iff, hcount, List.count_pos_iff]
  have hle' := hs.count_readersOf_le hjob
  have hle : ∀ r, (entries waits r).count job ≤ s.waiting r := fun r => hcount r ▸ hle' r
  rw [Schedule.step, hready]
  set u : Schedule := { s with placed := s.placed.push job, ready }
  -- The readers have an entry pending, so they are not among the ready jobs.
  have hpending : ∀ r ∈ readersOf (readers waits) job, r ∉ u.ready := by
    intro r hr hr'
    have hzero := ((hs.mem_ready r).1 (hready ▸ List.mem_cons_of_mem _ hr')).2.2
    exact ((List.count_pos_iff.2 ((hmem r).1 hr)).trans_le (hle r)).ne' hzero
  have hreleased := mem_ready_foldl_release (s := u) hle'
  have hsorted' := pairwise_ready_foldl_release (s := u) hle' hpending hsorted.of_cons
  have hwaiting : ∀ r, s.waiting r = ((readersOf (readers waits) job).foldl release u).waiting r
      + (entries waits r).count job := by
    intro r
    rw [waiting_foldl_release, hcount]
    exact (Nat.sub_add_cancel (hle r)).symm
  refine ⟨by rw [placed_foldl_release, Array.toList_push], size_pending_foldl_release _ u, hwaiting,
    hsorted', fun r => ?_⟩
  have hready' : r ∈ u.ready ↔ r ∈ s.ready ∧ r ≠ job := by
    rw [hready, List.mem_cons]
    constructor
    · exact fun hr => ⟨.inr hr, (List.rel_of_pairwise_cons hsorted hr).ne⟩
    · exact fun hr => hr.1.resolve_left hr.2
  have hnone : u.waiting r = (readersOf (readers waits) job).count r ↔
      ((readersOf (readers waits) job).foldl release u).waiting r = 0 := by
    rw [hcount, show u.waiting r = s.waiting r from rfl, hwaiting, Nat.add_eq_right]
  rw [hreleased, hready', hmem, hnone]

/-- Placing a ready job keeps the invariant. -/
theorem of_places {t : Schedule} (hs : Consistent waits s) {job : Nat} (hjob : job ∈ s.ready)
    (h : Places waits s t job) : Consistent waits t := by
  obtain ⟨hlt, hnot, hzero⟩ := (hs.mem_ready job).1 hjob
  -- What waits for the job has neither been placed nor is it the job itself.
  have hwaits : ∀ r, WaitsFor waits r job → r ∉ s.placed.toList ∧ r ≠ job := by
    intro r hr
    have hne : s.waiting r ≠ 0 := fun hzero => hnot ((hs.waiting_eq_zero_iff r).1 hzero job hr)
    exact ⟨fun hplaced => hne (hs.waiting_of_placed hplaced), fun heq => hne (heq ▸ hzero)⟩
  constructor
  case placed_lt =>
    intro r hr
    rw [h.placed_eq, List.mem_append, List.mem_singleton] at hr
    rcases hr with hr | rfl
    · exact hs.placed_lt r hr
    · exact hlt
  case placed_nodup =>
    rw [h.placed_eq, ← List.concat_eq_append]
    exact hs.placed_nodup.concat hnot
  case placed_inOrder =>
    rw [h.placed_eq]
    exact hs.placed_inOrder.concat ((hs.waiting_eq_zero_iff job).1 hzero)
  case pending_size => exact h.pending_size.trans hs.pending_size
  case waiting_eq =>
    intro r
    have hsplit := countP_append_singleton hnot (entries waits r)
    rw [← hs.waiting_eq, h.waiting_eq] at hsplit
    rw [h.placed_eq]
    exact Nat.add_right_cancel hsplit
  case ready_sorted => exact h.ready_sorted
  case mem_ready =>
    intro r
    have hr := hs.mem_ready r
    have hwaiting := h.waiting_eq r
    rw [h.mem_ready, h.placed_eq, List.mem_append, List.mem_singleton, not_or]
    constructor
    · rintro (⟨hmem, hne⟩ | ⟨hr, hzero⟩)
      · obtain ⟨hlt, hnot, hzero⟩ := hr.1 hmem
        exact ⟨hlt, ⟨hnot, hne⟩, by omega⟩
      · exact ⟨lt_of_waitsFor hr, hwaits r hr, hzero⟩
    · rintro ⟨hlt, ⟨hnot, hne⟩, hzero⟩
      by_cases hmem : WaitsFor waits r job
      · exact .inr ⟨hmem, hzero⟩
      · have hcount := List.count_eq_zero.2 hmem
        exact .inl ⟨hr.2 ⟨hlt, hnot, by omega⟩, hne⟩

/-- A step keeps the invariant. -/
theorem step (hs : Consistent waits s) : Consistent waits (s.step (readers waits)) := by
  cases hready : s.ready with
  | nil =>
    rw [Schedule.step, hready]
    exact hs
  | cons job ready => exact hs.of_places (hready ▸ List.mem_cons_self) (hs.places hready)

theorem steps (hs : Consistent waits s) (n : Nat) :
    Consistent waits (s.steps (readers waits) n) := by
  induction n generalizing s with
  | zero => exact hs
  | succ n ih => exact ih hs.step

theorem placed_subperm (hs : Consistent waits s) :
    s.placed.toList.Subperm (List.range waits.size) :=
  hs.placed_nodup.subperm fun job hjob => List.mem_range.2 (hs.placed_lt job hjob)

/-- If there are as many jobs placed as there are jobs, all are placed. -/
theorem mem_placed (hs : Consistent waits s) (hsize : s.placed.size = waits.size) {job : Nat}
    (hjob : job < waits.size) : job ∈ s.placed.toList := by
  have hperm := hs.placed_subperm.perm_of_length_le (by simp [hsize])
  exact hperm.mem_iff.2 (List.mem_range.2 hjob)

/-- If there are fewer, one has been left over. -/
theorem exists_not_placed (hs : Consistent waits s) (hsize : s.placed.size ≠ waits.size) :
    ∃ job < waits.size, job ∉ s.placed.toList := by
  by_contra hall
  push Not at hall
  have hsub : List.range waits.size ⊆ s.placed.toList :=
    fun job hjob => hall job (List.mem_range.1 hjob)
  have hle := (List.nodup_range.subperm hsub).length_le
  have hge := hs.placed_subperm.length_le
  rw [List.length_range, Array.length_toList] at hle hge
  exact hsize (Nat.le_antisymm hge hle)

end Consistent

/-! ## Runs -/

/-- A schedule that has come to a halt stays as it is. -/
theorem steps_of_ready_eq_nil {readers : Array (List Nat)} (hready : s.ready = []) (n : Nat) :
    s.steps readers n = s := by
  induction n with
  | zero => rfl
  | succ n ih => rw [steps, step, hready, ih]

/-- Each step places a job, until the schedule comes to a halt. -/
theorem ready_steps_or_size (readers : Array (List Nat)) (n : Nat) (s : Schedule) :
    (s.steps readers n).ready = [] ∨ (s.steps readers n).placed.size = s.placed.size + n := by
  induction n generalizing s with
  | zero => exact .inr rfl
  | succ n ih =>
    cases hready : s.ready with
    | nil => exact .inl (by rw [steps_of_ready_eq_nil hready, hready])
    | cons job ready =>
      refine (ih (s.step readers)).imp_right fun h => ?_
      rw [steps, h, step, hready, placed_foldl_release, Array.size_push]
      omega

theorem run_consistent (waits : Waits) : Consistent waits (run waits) :=
  (consistent_start waits).steps waits.size

/-- A run goes on until nothing is ready. -/
theorem run_ready (waits : Waits) : (run waits).ready = [] := by
  rcases ready_steps_or_size (readers waits) waits.size (start waits) with h | h
  · exact h
  · have hsize : (run waits).placed.size = waits.size := by rw [run, h]; simp [start]
    refine List.eq_nil_iff_forall_not_mem.2 fun job hjob => ?_
    obtain ⟨hlt, hnot, _⟩ := ((run_consistent waits).mem_ready job).1 hjob
    exact hnot ((run_consistent waits).mem_placed hsize hlt)

/-- What still waits in the end is what has not been placed. -/
theorem mem_stuck_run {job : Nat} :
    job ∈ (run waits).stuck ↔ job < waits.size ∧ job ∉ (run waits).placed.toList := by
  have hs := run_consistent waits
  rw [stuck, List.mem_filter, List.mem_range, hs.pending_size, decide_eq_true_iff]
  refine and_congr_right fun hjob => ⟨fun hpos hplaced => ?_, fun hnot => ?_⟩
  · exact hpos.ne' (hs.waiting_of_placed hplaced)
  · have hready := (hs.mem_ready job).not.1 (by simp [run_ready])
    exact Nat.pos_of_ne_zero fun hzero => hready ⟨hjob, hnot, hzero⟩

/-- A job left over waits for another one left over. -/
theorem exists_entry_of_not_placed {job : Nat} (hjob : job < waits.size)
    (hnot : job ∉ (run waits).placed.toList) :
    ∃ source ∈ entries waits job, source ∉ (run waits).placed.toList := by
  have hs := run_consistent waits
  have hready := (hs.mem_ready job).not.1 (by simp [run_ready])
  have hwaiting : (run waits).waiting job ≠ 0 := fun h => hready ⟨hjob, hnot, h⟩
  rw [ne_eq, hs.waiting_eq_zero_iff] at hwaiting
  push Not at hwaiting
  exact hwaiting

/-- From a job left over there is a way into a circle: the way from job to job left
    over never ends, and there are finitely many. -/
theorem exists_circle (hclosed : ∀ job source, WaitsFor waits job source → source < waits.size)
    {job : Nat} (hjob : job < waits.size) (hnot : job ∉ (run waits).placed.toList) :
    ∃ c, ReflTransGen (WaitsFor waits) job c ∧ TransGen (WaitsFor waits) c c := by
  set Left : Set Nat := {j | j < waits.size ∧ j ∉ (run waits).placed.toList}
  have hnext : ∀ j ∈ Left, ∃ source ∈ Left, source ∈ entries waits j := by
    rintro j ⟨hj, hn⟩
    obtain ⟨source, hs, hsn⟩ := exists_entry_of_not_placed hj hn
    exact ⟨source, ⟨hclosed j source hs, hsn⟩, hs⟩
  -- Going on from job to job, one is met again.
  choose! next hmem hentry using hnext
  have hway : ∀ n, next^[n] job ∈ Left := by
    intro n
    induction n with
    | zero => exact ⟨hjob, hnot⟩
    | succ n ih => rw [Function.iterate_succ_apply']; exact hmem _ ih
  have hstep : ∀ n, TransGen (WaitsFor waits) (next^[n] job) (next^[n + 1] job) := by
    intro n
    rw [Function.iterate_succ_apply']
    exact .single (hentry _ (hway n))
  have hlater : ∀ m n, m < n → TransGen (WaitsFor waits) (next^[m] job) (next^[n] job) :=
    fun m n hmn => Nat.rel_of_forall_rel_succ_of_lt _ (f := fun n => next^[n] job) hstep hmn
  have hfinite : Left.Finite := (Set.finite_lt_nat waits.size).subset fun j hj => hj.1
  obtain ⟨m, n, hlt, heq⟩ := hfinite.exists_lt_map_eq_of_forall_mem hway
  have hcircle : TransGen (WaitsFor waits) (next^[m] job) (next^[m] job) := by
    have := hlater m n hlt
    rwa [← heq] at this
  refine ⟨next^[m] job, ?_, hcircle⟩
  rcases Nat.eq_zero_or_pos m with rfl | hm
  · exact .refl
  · exact (hlater 0 m hm).to_reflTransGen

end SignalGraph.Schedule
