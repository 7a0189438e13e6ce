import Mathlib.Algebra.Ring.Nat
import Mathlib.Data.List.Perm.Basic
import ShellCatalog.Scan.Schedule

/-!
# What a scan by several workers reports

However the workers take turns, and whenever the scan is called off, the report at its end is that
of merging the outcomes of the first files, one after the other and in order.

**Every number has one place.** A number that has been taken from the counter, and belongs to a
file, is with a worker, in flight, early or merged, and nowhere twice: the numbers in these four
places are, up to order, the numbers below the counter (`Invariant.placed`). Each step moves one
number from one place to the next. The other fields of `Invariant` say that messages carry the
outcome of their number, that the coordinator has merged a first part of the outcomes and is not
holding back the next one, and that a worker stops for one of two reasons only.

**Nothing is stuck at the end.** When no number is with a worker or in flight, the early and the
merged ones are all the numbers below the counter. The first that is not merged would be early, and
the coordinator would be holding it back (`early_eq_nil_of_finished`).
-/

namespace ShellCatalog.Schedule

/-! ### The coordinator -/

namespace Coordinator

/-- The numbers of the outcomes that the coordinator has received. -/
def numbers (c : Coordinator) : List Nat :=
  c.early.map Prod.fst ++ List.range c.merged.length

/-- The coordinator holds what the messages said: early outcomes under their numbers, a first part
of the outcomes merged, and the report on that part. -/
structure Sound (outcomes : List Outcome) (c : Coordinator) : Prop where
  early : ∀ m ∈ c.early, outcomes[m.1]? = some m.2
  merged : c.merged = outcomes.take c.merged.length
  report : c.report = c.merged.foldl Report.merge (.start outcomes.length)

theorem sound_start (outcomes : List Outcome) : Sound outcomes (.start outcomes.length) where
  early := by simp [start]
  merged := by simp [start]
  report := rfl

/-- The outcome whose turn it is stands among the early ones, and merging takes it out there. -/
theorem exists_of_ready? {c : Coordinator} {m : Message} (h : c.ready? = some m) :
    m.1 = c.merged.length ∧ ∃ front back, c.early = front ++ m :: back ∧
      (c.merge m).early = front ++ back := by
  obtain ⟨hm, front, back, hsplit, hfront⟩ := List.find?_eq_some_iff_append.1 h
  refine ⟨by simpa using hm, front, back, hsplit, ?_⟩
  have hskip : ∀ n ∈ front, ¬ (n.1 == c.merged.length) = true := by
    intro n hn
    simpa using hfront n hn
  rw [merge, hsplit, List.eraseP_append_right _ hskip]
  exact congrArg (front ++ ·) (List.eraseP_cons_of_pos hm)

/-- Merging moves a number, and adds none. -/
theorem numbers_merge {c : Coordinator} {m : Message} (h : c.ready? = some m) :
    (c.merge m).numbers.Perm c.numbers := by
  obtain ⟨hm, front, back, hsplit, hmerge⟩ := exists_of_ready? h
  have hlen : (c.merge m).merged.length = c.merged.length + 1 := by simp [merge]
  rw [numbers, numbers, hmerge, hsplit, hlen, List.range_succ, ← hm]
  simp only [List.map_append, List.map_cons, List.append_assoc, List.cons_append]
  refine List.Perm.append_left _ ?_
  rw [← List.append_assoc]
  exact List.perm_append_singleton _ _

theorem sound_merge {outcomes : List Outcome} {c : Coordinator} {m : Message}
    (h : c.ready? = some m) (sound : Sound outcomes c) : Sound outcomes (c.merge m) := by
  obtain ⟨hm, front, back, hsplit, hmerge⟩ := exists_of_ready? h
  have known : outcomes[c.merged.length]? = some m.2 :=
    hm ▸ sound.early m (hsplit ▸ List.mem_append_right _ List.mem_cons_self)
  refine ⟨fun n hn ↦ sound.early n ?_, ?_, ?_⟩
  · rw [hsplit]
    rw [hmerge] at hn
    exact (List.sublist_cons_self m back).append_left front |>.subset hn
  · have htake : outcomes.take (c.merged.length + 1) =
        outcomes.take c.merged.length ++ [m.2] := by
      rw [List.take_add_one, known, Option.toList_some]
    simp only [merge, List.length_append, List.length_singleton]
    rw [htake, ← sound.merged]
  · simp only [merge, List.foldl_append, List.foldl_cons, List.foldl_nil]
    rw [← sound.report]

/-- Merging as long as it goes adds no number, keeps to what the messages said, and leaves nothing
behind whose turn it is. -/
theorem mergeReady_spec {outcomes : List Outcome} (c : Coordinator) (sound : Sound outcomes c) :
    c.mergeReady.numbers.Perm c.numbers ∧ Sound outcomes c.mergeReady ∧
      c.mergeReady.ready? = none := by
  fun_induction mergeReady c with
  | case1 c m h ih =>
    obtain ⟨hperm, hsound, hready⟩ := ih (sound_merge h sound)
    exact ⟨hperm.trans (numbers_merge h), hsound, hready⟩
  | case2 c h => exact ⟨.refl _, sound, h⟩

/-- Receiving an outcome under its number adds that number and no other. -/
theorem receive_spec {outcomes : List Outcome} {c : Coordinator} {m : Message}
    (known : outcomes[m.1]? = some m.2) (sound : Sound outcomes c) :
    (c.receive m).numbers.Perm (m.1 :: c.numbers) ∧ Sound outcomes (c.receive m) ∧
      (c.receive m).ready? = none := by
  refine mergeReady_spec _ ⟨?_, sound.merged, sound.report⟩
  intro n hn
  rcases List.mem_cons.1 hn with rfl | hn
  · exact known
  · exact sound.early n hn

end Coordinator

/-! ### The invariant -/

/-- The number that a worker is dealing with. -/
def Worker.number? : Worker → Option Nat
  | working index => some index
  | looking | taking | stopped => none

/-- The numbers that are somewhere: with a worker, in flight, or with the coordinator. -/
def State.numbers (s : State) : List Nat :=
  s.workers.filterMap Worker.number? ++ (s.inFlight.map Prod.fst ++ s.coordinator.numbers)

/-- What holds at every moment of a scan. -/
structure Invariant (outcomes : List Outcome) (s : State) : Prop where
  /-- The numbers below the counter are those that are somewhere, each in one place. -/
  placed : s.numbers.Perm (List.range (min s.next outcomes.length))
  /-- Messages carry the outcome of their number. -/
  inFlight : ∀ m ∈ s.inFlight, outcomes[m.1]? = some m.2
  sound : s.coordinator.Sound outcomes
  /-- The coordinator holds back nothing whose turn it is. -/
  ready : s.coordinator.ready? = none
  /-- A worker stops only when the scan is called off or no number is left. -/
  stopped : Worker.stopped ∈ s.workers → s.calledOff = true ∨ outcomes.length ≤ s.next

/-- Replacing one member of a list moves what a function yields for it. -/
theorem perm_filterMap_set {α β : Type} (f : α → Option β) {l : List α} {i : Nat} {a : α}
    (b : α) (h : l[i]? = some a) :
    ((f a).toList ++ (l.set i b).filterMap f).Perm ((f b).toList ++ l.filterMap f) := by
  obtain ⟨hi, rfl⟩ := List.getElem?_eq_some_iff.1 h
  have hl : l = l.take i ++ l[i] :: l.drop (i + 1) := by simp
  have hset : l.set i b = l.take i ++ b :: l.drop (i + 1) :=
    List.set_eq_take_append_cons_drop.trans (if_pos hi)
  have cut (x : α) : ((l.take i ++ x :: l.drop (i + 1)).filterMap f).Perm
      ((f x).toList ++ (l.take i ++ l.drop (i + 1)).filterMap f) := by
    refine (List.perm_middle.filterMap f).trans (.of_eq ?_)
    rw [List.filterMap_cons]
    cases f x <;> rfl
  rw [hset]
  refine ((cut b).append_left _).trans (List.perm_append_comm_assoc _ _ _ |>.trans ?_)
  refine List.Perm.append_left _ ?_
  exact ((cut l[i]).symm.trans (.of_eq (by rw [← hl])))

/-! ### Where a step moves numbers -/

section Numbers

variable {s : State} {w : Nat}

/-- A worker that neither holds a number before nor after its step moves none. -/
theorem numbers_set_of_none {old new : Worker} (h : s.workers[w]? = some old)
    (hold : old.number? = none) (hnew : new.number? = none) :
    ({ s with workers := s.workers.set w new } : State).numbers.Perm s.numbers := by
  have hset := perm_filterMap_set Worker.number? new h
  rw [hold, hnew] at hset
  exact hset.append_right _

/-- A worker that takes a number adds it. -/
theorem numbers_take (takes : s.workers[w]? = some .taking) :
    ({ s with workers := s.workers.set w (.working s.next) } : State).numbers.Perm
      (s.next :: s.numbers) :=
  (perm_filterMap_set Worker.number? (.working s.next) takes).append_right _

/-- The number that a worker deals with is sent with its outcome. -/
theorem numbers_send {index : Nat} {o : Outcome} (works : s.workers[w]? = some (.working index)) :
    ({ s with
        workers := s.workers.set w .looking
        inFlight := s.inFlight ++ [(index, o)] } : State).numbers.Perm s.numbers := by
  have hset := perm_filterMap_set Worker.number? .looking works
  simp only [Worker.number?, Option.toList_some, Option.toList_none, List.nil_append] at hset
  simp only [State.numbers, List.map_append, List.map_cons, List.map_nil]
  refine List.Perm.trans ?_ (hset.append_right _)
  simp only [List.append_assoc, List.cons_append, List.nil_append]
  rw [← List.append_assoc, ← List.append_assoc]
  exact List.perm_middle

/-- The number of a message goes to the coordinator. -/
theorem numbers_receive {m : Message} {others others' : List Message}
    (sent : s.inFlight = others ++ m :: others')
    (received : (s.coordinator.receive m).numbers.Perm (m.1 :: s.coordinator.numbers)) :
    ({ s with
        inFlight := others ++ others'
        coordinator := s.coordinator.receive m } : State).numbers.Perm s.numbers := by
  simp only [State.numbers, sent, List.map_append, List.map_cons]
  refine List.Perm.append_left _ ((received.append_left _).trans ?_)
  simp only [List.append_assoc, List.cons_append]
  exact List.Perm.append_left _ List.perm_middle

end Numbers

/-! ### Every step keeps the invariant -/

theorem Invariant.start (outcomes : List Outcome) (workers : Nat) :
    Invariant outcomes (.start outcomes.length workers) where
  placed := by
    simp [State.numbers, State.start, Coordinator.numbers, Coordinator.start, Worker.number?]
  inFlight := by simp [State.start]
  sound := Coordinator.sound_start outcomes
  ready := rfl
  stopped := by simp [State.start, List.mem_replicate]

/-- Every step keeps the invariant: the scan may be called off, a worker may look, take a number or
send an outcome, and the coordinator may receive one. -/
theorem Invariant.step {outcomes : List Outcome} {s t : State} (inv : Invariant outcomes s)
    (h : Step outcomes s t) : Invariant outcomes t := by
  cases h with
  | callOff => exact ⟨inv.placed, inv.inFlight, inv.sound, inv.ready, fun _ ↦ .inl rfl⟩
  | stop w looks off =>
    exact ⟨(numbers_set_of_none looks rfl rfl).trans inv.placed, inv.inFlight, inv.sound, inv.ready,
      fun _ ↦ .inl off⟩
  | goOn w looks on =>
    refine ⟨(numbers_set_of_none looks rfl rfl).trans inv.placed, inv.inFlight, inv.sound,
      inv.ready, fun hstop ↦ inv.stopped ?_⟩
    exact (List.mem_or_eq_of_mem_set hstop).resolve_right (by simp)
  | take w takes =>
    by_cases hlt : s.next < outcomes.length
    · rw [if_pos hlt]
      refine ⟨?_, inv.inFlight, inv.sound, inv.ready, fun hstop ↦ ?_⟩
      · have hmin : min (s.next + 1) outcomes.length = s.next + 1 := by omega
        have hnext : min s.next outcomes.length = s.next := by omega
        have hplaced := (numbers_take takes).trans (inv.placed.cons s.next)
        rw [hnext] at hplaced
        show List.Perm _ (List.range (min (s.next + 1) _))
        rw [hmin, List.range_succ]
        exact hplaced.trans (List.perm_append_singleton _ _).symm
      · rcases inv.stopped ((List.mem_or_eq_of_mem_set hstop).resolve_right (by simp)) with off | le
        · exact .inl off
        · exact absurd le (by omega)
    · rw [if_neg hlt]
      refine ⟨?_, inv.inFlight, inv.sound, inv.ready, fun _ ↦ .inr ?_⟩
      · have hmin : min (s.next + 1) outcomes.length = min s.next outcomes.length := by omega
        show List.Perm _ (List.range (min (s.next + 1) _))
        rw [hmin]
        exact (numbers_set_of_none takes rfl rfl).trans inv.placed
      · show outcomes.length ≤ s.next + 1
        omega
  | send w index o works known =>
    refine ⟨(numbers_send works).trans inv.placed, fun m hm ↦ ?_, inv.sound, inv.ready,
      fun hstop ↦ inv.stopped ?_⟩
    · rcases List.mem_append.1 hm with hm | hm
      · exact inv.inFlight m hm
      · rw [List.mem_singleton.1 hm]
        exact known
    · exact (List.mem_or_eq_of_mem_set hstop).resolve_right (by simp)
  | receive m others others' sent =>
    have hm : m ∈ s.inFlight := sent ▸ List.mem_append_right _ List.mem_cons_self
    obtain ⟨hperm, hsound, hready⟩ := Coordinator.receive_spec (inv.inFlight m hm) inv.sound
    refine ⟨(numbers_receive sent hperm).trans inv.placed, fun n hn ↦ inv.inFlight n ?_, hsound,
      hready, inv.stopped⟩
    rw [sent]
    exact (List.sublist_cons_self m others').append_left others |>.subset hn

theorem Invariant.of_reachable {outcomes : List Outcome} {workers : Nat} {s : State}
    (h : Reachable outcomes workers s) : Invariant outcomes s := by
  induction h with
  | start => exact .start outcomes workers
  | step _ hstep ih => exact ih.step hstep

/-! ### The end of a scan -/

/-- At the end the early and the merged numbers are all the numbers that were taken. -/
theorem Invariant.perm_of_finished {outcomes : List Outcome} {s : State}
    (inv : Invariant outcomes s) (finished : s.Finished) :
    s.coordinator.numbers.Perm (List.range (min s.next outcomes.length)) := by
  have hidle : s.workers.filterMap Worker.number? = [] :=
    List.filterMap_eq_nil_iff.2 fun w hw ↦ by rw [finished.1 w hw]; rfl
  simpa [State.numbers, hidle, finished.2] using inv.placed

/-- Nothing is left over: the first number that is not merged would be early, and its turn. -/
theorem Invariant.early_eq_nil_of_finished {outcomes : List Outcome} {s : State}
    (inv : Invariant outcomes s) (finished : s.Finished) : s.coordinator.early = [] := by
  have hperm := inv.perm_of_finished finished
  have hnodup := hperm.nodup_iff.2 List.nodup_range
  by_contra hne
  obtain ⟨m, hm⟩ := List.exists_mem_of_ne_nil _ hne
  have hearly : m.1 ∈ s.coordinator.early.map Prod.fst := List.mem_map_of_mem hm
  have hle : s.coordinator.merged.length ≤ m.1 := by
    by_contra hlt
    exact (List.nodup_append.1 hnodup).2.2 _ hearly _ (List.mem_range.2 (by omega)) rfl
  have hbound : m.1 < min s.next outcomes.length :=
    List.mem_range.1 (hperm.subset (List.mem_append_left _ hearly))
  -- The number whose turn it is was taken, so it is early, since it is not merged.
  have hturn : s.coordinator.merged.length ∈ s.coordinator.numbers :=
    hperm.mem_iff.2 (List.mem_range.2 (by omega))
  rcases List.mem_append.1 hturn with hturn | hturn
  · obtain ⟨n, hn, hnum⟩ := List.mem_map.1 hturn
    have := List.find?_eq_none.1 inv.ready n hn
    simp [hnum] at this
  · exact absurd (List.mem_range.1 hturn) (by omega)

/-- At the end as many outcomes are merged as numbers of files were taken. -/
theorem Invariant.length_merged_of_finished {outcomes : List Outcome} {s : State}
    (inv : Invariant outcomes s) (finished : s.Finished) :
    s.coordinator.merged.length = min s.next outcomes.length := by
  have hperm := inv.perm_of_finished finished
  rw [Coordinator.numbers, inv.early_eq_nil_of_finished finished] at hperm
  simpa using hperm.length_eq

/-- At the end the report is that of merging a first part of the outcomes in order. -/
theorem Invariant.report_eq_ofMerged {outcomes : List Outcome} {s : State}
    (inv : Invariant outcomes s) :
    s.report outcomes.length =
      .ofMerged outcomes.length (outcomes.take s.coordinator.merged.length) := by
  rw [State.report, Report.ofMerged, ← inv.sound.merged, inv.sound.report]

/-- A scan that is not called off merges every outcome. -/
theorem length_merged_of_not_calledOff {outcomes : List Outcome} {workers : Nat}
    {s : State} (some_worker : 0 < workers) (reachable : Reachable outcomes workers s)
    (finished : s.Finished) (on : s.calledOff = false) :
    s.coordinator.merged.length = outcomes.length := by
  have inv := Invariant.of_reachable reachable
  have hlen := length_workers_of_reachable reachable
  obtain ⟨w, hw⟩ := List.exists_mem_of_length_pos (hlen ▸ some_worker)
  have hstopped : Worker.stopped ∈ s.workers := finished.1 w hw ▸ hw
  rcases inv.stopped hstopped with off | le
  · simp [on] at off
  · rw [inv.length_merged_of_finished finished]
    omega

/-- **The report does not depend on the workers.** When all workers have stopped and every message
has been received, the outcomes of the first files have been merged, each once and in order, and
nothing else has been received. The report is that of merging them one after the other, it tells
whether files were left out, and none are unless the scan was called off. -/
theorem report_of_finished {outcomes : List Outcome} {workers : Nat} (some_worker : 0 < workers)
    {s : State} (reachable : Reachable outcomes workers s) (finished : s.Finished) :
    ∃ m ≤ outcomes.length,
      s.coordinator.early = [] ∧
      s.coordinator.merged = outcomes.take m ∧
      s.report outcomes.length = .ofMerged outcomes.length (outcomes.take m) ∧
      ((s.report outcomes.length).cancelled = true ↔ m < outcomes.length) ∧
      (s.calledOff = false → m = outcomes.length) := by
  have inv := Invariant.of_reachable reachable
  have hlen := inv.length_merged_of_finished finished
  refine ⟨s.coordinator.merged.length, by omega, inv.early_eq_nil_of_finished finished,
    inv.sound.merged, inv.report_eq_ofMerged, by simp [State.report], fun on ↦ ?_⟩
  exact length_merged_of_not_calledOff some_worker reachable finished on

/-- Two workers take one file each, the second outcome arrives first, and the scan is called off
when both files have been taken. -/
theorem report_of_finished_of_two_workers :
    let outcomes : List Outcome := [⟨true, .ok ⟨[], []⟩⟩, ⟨true, .ok ⟨[], []⟩⟩]
    ∃ s : State, s.calledOff = true ∧ s.next = 2 ∧ 0 < 2 ∧ Reachable outcomes 2 s ∧ s.Finished ∧
      ∃ m ≤ outcomes.length,
        s.coordinator.early = [] ∧
        s.coordinator.merged = outcomes.take m ∧
        s.report outcomes.length = .ofMerged outcomes.length (outcomes.take m) ∧
        ((s.report outcomes.length).cancelled = true ↔ m < outcomes.length) ∧
        (s.calledOff = false → m = outcomes.length) := by
  intro outcomes
  let o : Outcome := ⟨true, .ok ⟨[], []⟩⟩
  have begun : Reachable outcomes 2 (.start 2 2) := .start
  have taken := ((((begun.step (.goOn _ 0 rfl rfl)).step (.take _ 0 rfl)).step
    (.goOn _ 1 rfl rfl)).step (.take _ 1 rfl))
  have second := (taken.step (.send _ 1 1 o rfl rfl)).step (.receive _ (1, o) [] [] rfl)
  have first := ((second.step (.callOff _)).step (.send _ 0 0 o rfl rfl)).step
    (.receive _ (0, o) [] [] rfl)
  have stopped := (first.step (.stop _ 0 rfl rfl)).step (.stop _ 1 rfl rfl)
  refine ⟨_, rfl, rfl, by decide, stopped, ?_, report_of_finished (by decide) stopped ?_⟩
  all_goals exact ⟨fun w hw ↦ by simpa [State.start] using hw, rfl⟩

/-- A scan that is not called off reports what is reported on the files in their order, whoever
deals with them. -/
theorem report_eq_ofFiles {α : Type} (opts : ScanOptions) (path : α → Path)
    (outcome : α → Outcome) (files : List α) {workers : Nat} (some_worker : 0 < workers) {s : State}
    (reachable : Reachable ((opts.order.arrange path files).map outcome) workers s)
    (finished : s.Finished) (on : s.calledOff = false) (start : opts.cancelled = false) :
    s.report (opts.order.arrange path files).length = .ofFiles opts path outcome files := by
  have inv := Invariant.of_reachable reachable
  have hall := length_merged_of_not_calledOff some_worker reachable finished on
  have hreport := inv.report_eq_ofMerged
  rw [hall, List.take_length, List.length_map] at hreport
  simp [hreport, Report.ofFiles, start]

/-! ### A scan comes to its end -/

/-- How many steps a worker is away from stopping, if no number is left for it. -/
def Worker.effort : Worker → Nat
  | looking => 2
  | taking => 1
  | working _ => 4
  | stopped => 0

/-- A bound on the steps that are still to be taken, calling off apart. -/
def State.effort (given : Nat) (s : State) : Nat :=
  5 * (given - s.next) + (s.workers.map Worker.effort).sum + s.inFlight.length

/-- Replacing one worker changes the sum of the efforts by the difference of the two. -/
theorem sum_effort_set {workers : List Worker} {w : Nat} {old : Worker} (new : Worker)
    (h : workers[w]? = some old) :
    ((workers.set w new).map Worker.effort).sum + old.effort =
      (workers.map Worker.effort).sum + new.effort := by
  induction workers generalizing w with
  | nil => simp at h
  | cons first others ih =>
    cases w with
    | zero =>
      obtain rfl : first = old := by simpa using h
      simp only [List.set_cons_zero, List.map_cons, List.sum_cons]
      omega
    | succ w =>
      have := ih (w := w) (by simpa using h)
      simp only [List.set_cons_succ, List.map_cons, List.sum_cons]
      omega

/-- Every step but calling the scan off brings its end nearer. -/
theorem effort_lt_of_step {outcomes : List Outcome} {s t : State} (h : Step outcomes s t) :
    t = { s with calledOff := true } ∨ t.effort outcomes.length < s.effort outcomes.length := by
  cases h with
  | callOff => exact .inl rfl
  | stop w looks off =>
    have := sum_effort_set .stopped looks
    simp only [Worker.effort] at this
    exact .inr (by simp only [State.effort]; omega)
  | goOn w looks on =>
    have := sum_effort_set .taking looks
    simp only [Worker.effort] at this
    exact .inr (by simp only [State.effort]; omega)
  | take w takes =>
    right
    by_cases hlt : s.next < outcomes.length
    · have := sum_effort_set (.working s.next) takes
      simp only [Worker.effort] at this
      simp only [State.effort, if_pos hlt]
      omega
    · have := sum_effort_set .stopped takes
      simp only [Worker.effort] at this
      simp only [State.effort, if_neg hlt]
      omega
  | send w index o works known =>
    have := sum_effort_set .looking works
    simp only [Worker.effort] at this
    exact .inr (by simp only [State.effort, List.length_append, List.length_singleton]; omega)
  | receive m others others' sent =>
    exact .inr (by simp only [State.effort, sent, List.length_append, List.length_cons]; omega)

theorem set_ne_self {α : Type} {l : List α} {i : Nat} {old new : α} (h : l[i]? = some old)
    (hne : new ≠ old) : l.set i new ≠ l := by
  intro heq
  obtain ⟨hi, rfl⟩ := List.getElem?_eq_some_iff.1 h
  have hget := congrArg (·[i]?) heq
  simp [hi, hne] at hget

/-- As long as a scan has not come to its end, some worker or the coordinator has a step to take
that brings it nearer. -/
theorem exists_step_of_not_finished {outcomes : List Outcome} {s : State}
    (inv : Invariant outcomes s) (h : ¬ s.Finished) :
    ∃ t, Step outcomes s t ∧ t.calledOff = s.calledOff ∧
      t.effort outcomes.length < s.effort outcomes.length := by
  suffices hstep : ∃ t, Step outcomes s t ∧ t.calledOff = s.calledOff ∧
      (t.workers ≠ s.workers ∨ t.inFlight ≠ s.inFlight) by
    obtain ⟨t, hst, hoff, hne⟩ := hstep
    refine ⟨t, hst, hoff, (effort_lt_of_step hst).resolve_left ?_⟩
    rintro rfl
    simp at hne
  by_cases hflight : s.inFlight = []
  · obtain ⟨w, hw, hidle⟩ : ∃ w ∈ s.workers, w ≠ .stopped := by
      by_contra hall
      exact h ⟨fun w hw ↦ by_contra fun hne ↦ hall ⟨w, hw, hne⟩, hflight⟩
    obtain ⟨i, hi⟩ := List.getElem?_of_mem hw
    cases w with
    | looking =>
      cases hoff : s.calledOff with
      | true => exact ⟨_, .stop s i hi hoff, hoff, .inl (set_ne_self hi (by simp))⟩
      | false => exact ⟨_, .goOn s i hi hoff, hoff, .inl (set_ne_self hi (by simp))⟩
    | taking =>
      refine ⟨_, .take s i hi, rfl, .inl (set_ne_self hi ?_)⟩
      split <;> simp
    | working index =>
      -- The number is with this worker, so it was taken and belongs to a file.
      have hmem : index ∈ s.numbers :=
        List.mem_append_left _ (List.mem_filterMap.2 ⟨_, hw, rfl⟩)
      have hlt := List.mem_range.1 (inv.placed.subset hmem)
      have known := List.getElem?_eq_getElem (show index < outcomes.length by omega)
      exact ⟨_, .send s i index _ hi known, rfl, .inl (set_ne_self hi (by simp))⟩
    | stopped => exact absurd rfl hidle
  · obtain ⟨m, others, hsplit⟩ := List.exists_cons_of_ne_nil hflight
    refine ⟨_, .receive s m [] others hsplit, rfl, .inr ?_⟩
    rw [hsplit]
    simp

/-- From every moment of a scan its end can be reached, whether or not it has been called off. -/
theorem exists_finished {outcomes : List Outcome} {workers : Nat} {s : State}
    (reachable : Reachable outcomes workers s) :
    ∃ t, Reachable outcomes workers t ∧ t.Finished ∧ t.calledOff = s.calledOff := by
  induction hn : s.effort outcomes.length using Nat.strong_induction_on generalizing s with
  | _ n ih =>
    by_cases hfin : s.Finished
    · exact ⟨s, reachable, hfin, rfl⟩
    · obtain ⟨t, hst, hoff, hlt⟩ := exists_step_of_not_finished (.of_reachable reachable) hfin
      obtain ⟨u, hu, hufin, huoff⟩ := ih _ (hn ▸ hlt) (reachable.step hst) rfl
      exact ⟨u, hu, hufin, huoff.trans hoff⟩

end ShellCatalog.Schedule
