/-!
# Scheduling

Jobs are numbered, and each waits for some others: `waits[i]` lists the jobs that
job `i` waits for, one entry for each reason to wait. A schedule places the jobs
one after the other, each after all jobs it waits for, and of those that could be
placed it always places the one with the greatest number.

`Schedule.step` places one job. A job's `pending` count says how many of its
entries are for jobs not placed yet; the job is `ready` once that count is zero.
Jobs that wait in a circle, and jobs that wait for such, are never ready: they
are what remains of a schedule that comes to a halt early (`Schedule.stuck`).
-/

namespace SignalGraph

/-- The jobs that each job waits for. -/
abbrev Waits := Array (List Nat)

/-- A schedule in the making. -/
structure Schedule where
  /-- The jobs placed, in order. -/
  placed : Array Nat
  /-- For each job, how many of its entries wait for a job not placed. -/
  pending : Array Nat
  /-- The jobs that can be placed, the greatest first. -/
  ready : List Nat

namespace Schedule

/-- Puts a job into a list with the greatest job first. -/
def insertDescending (job : Nat) : List Nat → List Nat
  | [] => [job]
  | first :: rest =>
    if first < job then job :: first :: rest else first :: insertDescending job rest

/-- For each job the jobs that wait for it, one entry for each of theirs. -/
def readers (waits : Waits) : Array (List Nat) :=
  waits.toList.zipIdx.foldl
    (fun readers (sources, reader) =>
      sources.foldl (fun readers source => readers.modify source (reader :: ·)) readers)
    (Array.replicate waits.size [])

/-- Nothing placed yet. -/
def start (waits : Waits) : Schedule where
  placed := #[]
  pending := waits.map List.length
  ready := (List.range waits.size).reverse.filter fun job => (waits.getD job []).isEmpty

/-- One entry less to wait for. A job with none left is ready. -/
def release (s : Schedule) (reader : Nat) : Schedule :=
  -- A job is released once for each of its entries, so this is never `0 - 1`.
  let pending := s.pending.getD reader 0 - 1
  { s with
    pending := s.pending.setIfInBounds reader pending
    ready := if pending = 0 then insertDescending reader s.ready else s.ready }

/-- Places the greatest job that is ready, and releases those that wait for it. -/
def step (readers : Array (List Nat)) (s : Schedule) : Schedule :=
  match s.ready with
  | [] => s
  | job :: ready =>
    (readers.getD job []).foldl release { s with placed := s.placed.push job, ready }

/-- The schedule after a number of steps. -/
def steps (readers : Array (List Nat)) : Nat → Schedule → Schedule
  | 0, s => s
  | n + 1, s => steps readers n (s.step readers)

/-- Places all jobs that can be placed: no more steps are needed than there are
    jobs. -/
def run (waits : Waits) : Schedule := steps (readers waits) waits.size (start waits)

/-- The jobs that still wait for another. -/
def stuck (s : Schedule) : List Nat :=
  (List.range s.pending.size).filter fun job => 0 < s.pending.getD job 0

end Schedule

end SignalGraph
