import ShellCatalog.Scan.Basic

/-!
# A scan by several workers

`Report.ofFiles` says what a scan reports; this module says how several workers come to it. The
files are numbered in the order in which they are merged. Each worker looks whether the scan has
been called off, takes the next number from a counter that all share, deals with that file, and
sends the number with the outcome. One coordinator receives the messages in any order, puts aside
those that are early, and merges the others.

**Every access to shared state is a step of its own** (`Step`): looking at the flag, taking a
number, sending and receiving. Any worker may take the next step, the scan may be called off between
any two steps, and any message in flight may be the next to arrive. What is taken for granted is
that no number is taken twice, that every message arrives once, and that dealing with a file has no
other effect.

**Only the coordinator merges**, and it merges by number, into a report that it builds as the
messages come.
-/

namespace ShellCatalog.Schedule

/-- What a worker does next. -/
inductive Worker
  /-- It looks whether the scan has been called off. -/
  | looking
  /-- It takes a number. -/
  | taking
  /-- It deals with the file of this number and sends the outcome. -/
  | working (index : Nat)
  | stopped
  deriving DecidableEq, Repr

/-- The number of a file and its outcome. -/
abbrev Message :=
  Nat × Outcome

/-- What the coordinator has made of the messages that it received. -/
structure Coordinator where
  /-- The outcomes that are early. -/
  early : List Message
  /-- The outcomes that have been merged, in order. -/
  merged : List Outcome
  /-- The report that they have been merged into, one after the other. -/
  report : Report

namespace Coordinator

/-- Nothing received, of as many files as were given. -/
def start (given : Nat) : Coordinator :=
  ⟨[], [], .start given⟩

/-- The outcome whose turn it is, if it has been received. -/
def ready? (c : Coordinator) : Option Message :=
  c.early.find? fun m ↦ m.1 == c.merged.length

/-- Merges the outcome of a message that was early. -/
def merge (c : Coordinator) (m : Message) : Coordinator :=
  ⟨c.early.eraseP fun n ↦ n.1 == c.merged.length, c.merged ++ [m.2], c.report.merge m.2⟩

theorem length_early_merge_lt {c : Coordinator} {m : Message} (h : c.ready? = some m) :
    (c.merge m).early.length < c.early.length := by
  have hm := List.mem_of_find?_eq_some h
  have hp := List.find?_some h
  have hpos := List.length_pos_of_mem hm
  have herase := List.length_eraseP_of_mem (p := fun n ↦ n.1 == c.merged.length) hm hp
  simp only [merge]
  omega

/-- Merges as long as the outcome whose turn it is has been received. -/
def mergeReady (c : Coordinator) : Coordinator :=
  match _h : c.ready? with
  | some m => (c.merge m).mergeReady
  | none => c
termination_by c.early.length
decreasing_by exact length_early_merge_lt _h

/-- Receives a message. -/
def receive (c : Coordinator) (m : Message) : Coordinator :=
  ({ c with early := m :: c.early } : Coordinator).mergeReady

end Coordinator

/-- A moment of a scan. -/
structure State where
  /-- The scan has been called off. -/
  calledOff : Bool
  /-- The number that is taken next. -/
  next : Nat
  workers : List Worker
  /-- The messages that have been sent and not received. -/
  inFlight : List Message
  coordinator : Coordinator

namespace State

/-- The start of a scan of `given` files by `workers` workers. -/
def start (given workers : Nat) : State :=
  ⟨false, 0, List.replicate workers .looking, [], .start given⟩

/-- All workers have stopped and every message has been received. -/
def Finished (s : State) : Prop :=
  (∀ w ∈ s.workers, w = .stopped) ∧ s.inFlight = []

/-- What the coordinator reports when the messages end: some files were left out if fewer outcomes
have been merged than there are files. -/
def report (given : Nat) (s : State) : Report :=
  { s.coordinator.report with cancelled := s.coordinator.merged.length < given }

end State

/-- One step of a scan of files with these outcomes. -/
inductive Step (outcomes : List Outcome) : State → State → Prop
  /-- The scan is called off. -/
  | callOff (s : State) : Step outcomes s { s with calledOff := true }
  /-- A worker sees that the scan has been called off, and stops. -/
  | stop (s : State) (w : Nat) (looks : s.workers[w]? = some .looking)
      (off : s.calledOff = true) :
      Step outcomes s { s with workers := s.workers.set w .stopped }
  /-- A worker sees that the scan goes on. -/
  | goOn (s : State) (w : Nat) (looks : s.workers[w]? = some .looking)
      (on : s.calledOff = false) :
      Step outcomes s { s with workers := s.workers.set w .taking }
  /-- A worker takes the next number, and stops when no file has it. -/
  | take (s : State) (w : Nat) (takes : s.workers[w]? = some .taking) :
      Step outcomes s
        { s with
          next := s.next + 1
          workers := s.workers.set w
            (if s.next < outcomes.length then .working s.next else .stopped) }
  /-- A worker sends what it has made of its file. -/
  | send (s : State) (w index : Nat) (o : Outcome) (works : s.workers[w]? = some (.working index))
      (known : outcomes[index]? = some o) :
      Step outcomes s
        { s with
          workers := s.workers.set w .looking
          inFlight := s.inFlight ++ [(index, o)] }
  /-- The coordinator receives some message. -/
  | receive (s : State) (m : Message) (others others' : List Message)
      (sent : s.inFlight = others ++ m :: others') :
      Step outcomes s
        { s with
          inFlight := others ++ others'
          coordinator := s.coordinator.receive m }

/-- The moments that a scan by `workers` workers can come to. -/
inductive Reachable (outcomes : List Outcome) (workers : Nat) : State → Prop
  | start : Reachable outcomes workers (.start outcomes.length workers)
  | step {s t : State} : Reachable outcomes workers s → Step outcomes s t →
      Reachable outcomes workers t

/-- No worker comes or goes. -/
theorem length_workers_of_step {outcomes : List Outcome} {s t : State} (h : Step outcomes s t) :
    t.workers.length = s.workers.length := by
  cases h <;> simp only [List.length_set]

theorem length_workers_of_reachable {outcomes : List Outcome} {workers : Nat} {s : State}
    (h : Reachable outcomes workers s) : s.workers.length = workers := by
  induction h with
  | start => simp [State.start]
  | step _ hstep ih => rw [length_workers_of_step hstep, ih]

end ShellCatalog.Schedule
