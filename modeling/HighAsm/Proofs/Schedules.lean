import Mathlib.Algebra.GroupWithZero.Nat
import Mathlib.Data.List.Perm.Basic
import HighAsm.Proofs.SuiteResults

/-!
# Schedules of a test suite

The files of a suite are run by several workers at once. A feeder decides file by file what to do:
what it knows already it puts among the results, the rest it lists as tasks, and at the end it waits
for the workers to go home. Tasks and results pass through queues of bounded length, so that the
feeder or a worker may have to wait for room.

Whatever turn the feeder and the workers take (`Step`), a suite ends after a bounded number of steps
and never stands still before; what it ends with is what running the files one after the other gives
(`schedule_ends_like_runAll`).
-/

namespace HighAsm.TestSuite

open List FileResult

/-! ## Feeder and workers -/

/-- A file to be run. -/
structure Task where
  file : Text
  hash : Text
  content : Text

/-- A task as a plan. -/
def Task.plan (t : Task) : Plan := .run t.file t.hash t.content

/-- What a worker is at. -/
inductive Worker
  | idle
  | testing (task : Task)
  | gone

/-- What the feeder is at. -/
inductive Feeder
  /-- There may be files left. The hashes of those before come with their names. -/
  | feeding (seen : List (Text × Text)) (ahead : List SourceDocument)
  /-- All files are dealt with, and no task will be added. -/
  | waiting

/-- The state of a suite between its first step and its last. -/
structure Pool where
  feeder : Feeder
  tasks : List Task
  workers : List Worker
  results : List FileResult

/-- How far a suite has come. -/
inductive Stage
  | running (pool : Pool)
  | returned (results : List FileResult)
  | crashed (crash : Crash)

/-- A suite before its first step. -/
def Stage.start (documents : List SourceDocument) (jobs : Nat) : Stage :=
  .running ⟨.feeding [] documents, [], List.replicate jobs .idle, []⟩

/-- What the feeder or one of the workers can do next, when each of the two queues holds so many
items. The time that a test takes is free, and so is the order of results of one name. -/
inductive Step (skipped : List Text) (earlier : Earlier) (capacity : Nat) : Stage → Stage → Prop
  /-- The feeder knows the result of a file. -/
  | announce {seen seen' document ahead tasks workers results r}
      (decided : planFile skipped earlier seen document = (.known r, seen'))
      (room : results.length < capacity) :
      Step skipped earlier capacity
        (.running ⟨.feeding seen (document :: ahead), tasks, workers, results⟩)
        (.running ⟨.feeding seen' ahead, tasks, workers, results ++ [r]⟩)
  /-- The feeder leaves a file to the workers. -/
  | assign {seen seen' document ahead tasks workers results file hash content}
      (decided : planFile skipped earlier seen document = (.run file hash content, seen'))
      (room : tasks.length < capacity) :
      Step skipped earlier capacity
        (.running ⟨.feeding seen (document :: ahead), tasks, workers, results⟩)
        (.running ⟨.feeding seen' ahead, tasks ++ [⟨file, hash, content⟩], workers, results⟩)
  /-- The feeder finds a report without the result it should have. -/
  | stumble {seen seen' document ahead tasks workers results crash}
      (decided : planFile skipped earlier seen document = (.broken crash, seen')) :
      Step skipped earlier capacity
        (.running ⟨.feeding seen (document :: ahead), tasks, workers, results⟩) (.crashed crash)
  /-- The feeder is done. -/
  | close {seen tasks workers results} :
      Step skipped earlier capacity
        (.running ⟨.feeding seen [], tasks, workers, results⟩)
        (.running ⟨.waiting, tasks, workers, results⟩)
  /-- A worker takes the first task. -/
  | take {feeder task tasks before after results} :
      Step skipped earlier capacity
        (.running ⟨feeder, task :: tasks, before ++ .idle :: after, results⟩)
        (.running ⟨feeder, tasks, before ++ .testing task :: after, results⟩)
  /-- A worker has tested a file. -/
  | deliver {feeder tasks before task after results r}
      (tested : task.plan.result = .ok r) (duration : Int) (room : results.length < capacity) :
      Step skipped earlier capacity
        (.running ⟨feeder, tasks, before ++ .testing task :: after, results⟩)
        (.running ⟨feeder, tasks, before ++ .idle :: after, results ++ [{ r with duration }]⟩)
  /-- A worker meets a test that crashes. -/
  | fail {feeder tasks before task after results crash}
      (tested : task.plan.result = .error crash) :
      Step skipped earlier capacity
        (.running ⟨feeder, tasks, before ++ .testing task :: after, results⟩) (.crashed crash)
  /-- A worker goes home, as there are no tasks and there will be none. -/
  | leave {before after results} :
      Step skipped earlier capacity
        (.running ⟨.waiting, [], before ++ .idle :: after, results⟩)
        (.running ⟨.waiting, [], before ++ .gone :: after, results⟩)
  /-- The feeder lists the results by file when all workers have gone. -/
  | collect {tasks workers results listed}
      (dismissed : ∀ worker ∈ workers, worker = .gone)
      (perm : listed.Perm results) (ordered : OrderedBy file listed) :
      Step skipped earlier capacity
        (.running ⟨.waiting, tasks, workers, results⟩) (.returned listed)

/-- So many steps lead from one stage to another. -/
inductive Run (skipped : List Text) (earlier : Earlier) (capacity : Nat) :
    Nat → Stage → Stage → Prop
  | refl {stage} : Run skipped earlier capacity 0 stage stage
  | tail {n first stage next} (before : Run skipped earlier capacity n first stage)
      (last : Step skipped earlier capacity stage next) :
      Run skipped earlier capacity (n + 1) first next

/-! ## What is outstanding -/

/-- What will come of a plan, whatever time it takes. -/
def Plan.outcome (p : Plan) : Except Crash FileResult := p.result.map timeless

/-- What a worker has begun. -/
def Worker.plans : Worker → List Plan
  | .testing task => [task.plan]
  | .idle | .gone => []

/-- What the feeder has still to decide. -/
def Feeder.plans (skipped : List Text) (earlier : Earlier) : Feeder → List Plan
  | .feeding seen ahead => plan skipped earlier seen ahead
  | .waiting => []

/-- What has come or will come of all files. -/
def Pool.outcomes (skipped : List Text) (earlier : Earlier) (s : Pool) :
    List (Except Crash FileResult) :=
  s.results.map (fun r => .ok r.timeless) ++
    (s.tasks.map Task.plan ++ s.workers.flatMap Worker.plans ++
      s.feeder.plans skipped earlier).map Plan.outcome

section Soundness

variable {skipped : List Text} {earlier : Earlier} {documents : List SourceDocument} {jobs : Nat}
  {s : Pool} {stage next : Stage} {capacity n : Nat}

/-- Nothing is lost and nothing is made up: what has come or will come of all files is what was
planned at the start. A worker has gone only when there was nothing left to do. -/
structure Pool.Sound (skipped : List Text) (earlier : Earlier) (documents : List SourceDocument)
    (jobs : Nat) (s : Pool) : Prop where
  outcomes : (s.outcomes skipped earlier).Perm
    ((plan skipped earlier [] documents).map Plan.outcome)
  staffed : s.workers.length = jobs
  dismissed : .gone ∈ s.workers → s.feeder = .waiting ∧ s.tasks = []

/-- What is true at every stage. -/
def Stage.Sound (skipped : List Text) (earlier : Earlier) (documents : List SourceDocument)
    (jobs : Nat) : Stage → Prop
  | running s => s.Sound skipped earlier documents jobs
  | returned results =>
    OrderedBy file results ∧
      (results.map fun r => .ok r.timeless).Perm
        ((plan skipped earlier [] documents).map Plan.outcome)
  | crashed crash => .error crash ∈ (plan skipped earlier [] documents).map Plan.outcome

/-- What is outstanding stays outstanding when a step only moves it. -/
theorem Pool.Sound.moved {s s' : Pool} (sound : s.Sound skipped earlier documents jobs)
    (moved : (s'.outcomes skipped earlier).Perm (s.outcomes skipped earlier))
    (staffed : s'.workers.length = s.workers.length)
    (dismissed : .gone ∈ s'.workers → s'.feeder = .waiting ∧ s'.tasks = []) :
    s'.Sound skipped earlier documents jobs :=
  ⟨moved.trans sound.outcomes, staffed.trans sound.staffed, dismissed⟩

theorem Step.sound (positive : 0 < jobs) (step : Step skipped earlier capacity stage next)
    (sound : stage.Sound skipped earlier documents jobs) :
    next.Sound skipped earlier documents jobs := by
  classical
  cases step with
  | announce decided room =>
    refine Pool.Sound.moved sound ?_ rfl fun gone => ?_
    · refine perm_iff_count.mpr fun outcome => ?_
      simp only [Pool.outcomes, Feeder.plans, plan_cons, decided, map_append, map_cons,
        map_nil, count_append, count_cons, count_nil, Plan.outcome, Plan.result,
        Except.map]
      omega
    · exact absurd (sound.dismissed gone).1 (by simp)
  | assign decided room =>
    refine Pool.Sound.moved sound ?_ rfl fun gone => ?_
    · refine perm_iff_count.mpr fun outcome => ?_
      simp only [Pool.outcomes, Feeder.plans, plan_cons, decided, map_append, map_cons,
        map_nil, count_append, count_cons, count_nil, Task.plan]
      omega
    · exact absurd (sound.dismissed gone).1 (by simp)
  | stumble decided =>
    refine sound.outcomes.mem_iff.mp ?_
    simp [Pool.outcomes, Feeder.plans, plan_cons, decided, Plan.outcome, Plan.result, Except.map]
  | close =>
    refine Pool.Sound.moved sound (.refl _) rfl fun gone => ?_
    exact absurd (sound.dismissed gone).1 (by simp)
  | take =>
    refine Pool.Sound.moved sound ?_ (by simp) fun gone => ?_
    · refine perm_iff_count.mpr fun outcome => ?_
      simp only [Pool.outcomes, map_append, map_cons, map_nil, count_append,
        count_cons, count_nil, flatMap_append, flatMap_cons, Worker.plans]
      omega
    · have gone' := sound.dismissed (by simpa using gone)
      exact absurd gone'.2 (by simp)
  | deliver tested duration room =>
    refine Pool.Sound.moved sound ?_ (by simp) fun gone => ?_
    · refine perm_iff_count.mpr fun outcome => ?_
      simp only [Pool.outcomes, map_append, map_cons, map_nil, count_append,
        count_cons, count_nil, flatMap_append, flatMap_cons, Worker.plans,
        Plan.outcome, tested, Except.map, timeless]
      omega
    · exact sound.dismissed (by simpa using gone)
  | fail tested =>
    refine sound.outcomes.mem_iff.mp ?_
    simp [Pool.outcomes, Worker.plans, Plan.outcome, tested, Except.map]
  | leave =>
    exact Pool.Sound.moved sound (by simp [Pool.outcomes, Worker.plans]) (by simp)
      fun _ => ⟨rfl, rfl⟩
  | @collect tasks workers results listed dismissed perm ordered =>
    refine ⟨ordered, (perm.map _).trans ?_⟩
    obtain ⟨worker, member⟩ := exists_mem_of_length_pos (sound.staffed ▸ positive)
    obtain ⟨-, noTask⟩ := sound.dismissed (dismissed worker member ▸ member)
    have noPlan : workers.flatMap Worker.plans = [] :=
      flatMap_eq_nil_iff.mpr fun worker member => by rw [dismissed worker member]; rfl
    have outcomes := sound.outcomes
    simpa [Pool.outcomes, Feeder.plans, noPlan, show tasks = [] from noTask] using outcomes

theorem plan_length (skipped : List Text) (earlier : Earlier) (seen : List (Text × Text))
    (documents : List SourceDocument) :
    (plan skipped earlier seen documents).length = documents.length := by
  induction documents generalizing seen with
  | nil => rfl
  | cons document rest ih => rw [plan_cons, length_cons, ih, length_cons]

/-- Both queues have room for what is not in them yet. -/
theorem Pool.Sound.length (sound : s.Sound skipped earlier documents jobs) :
    s.results.length + s.tasks.length + (s.workers.flatMap Worker.plans).length +
      (s.feeder.plans skipped earlier).length = documents.length := by
  have length := sound.outcomes.length_eq
  simp only [Pool.outcomes, length_append, length_map, plan_length] at length
  omega

theorem Run.sound (positive : 0 < jobs) (run : Run skipped earlier capacity n stage next)
    (sound : stage.Sound skipped earlier documents jobs) :
    next.Sound skipped earlier documents jobs := by
  induction run with
  | refl => exact sound
  | tail before last ih => exact last.sound positive (ih sound)

/-! ## What a schedule ends with -/

/-- What is returned is what running the files one after the other returns, times apart. -/
theorem Stage.Sound.returned (named : ∀ document ∈ documents, Named earlier document.1)
    (distinct : (documents.map Prod.fst).Nodup) {listed : List FileResult}
    (sound : (Stage.returned listed).Sound skipped earlier documents jobs) :
    ∃ results, runAll skipped earlier documents = .ok results ∧
      listed.map timeless = results.map timeless := by
  obtain ⟨ordered, perm⟩ := sound
  have succeeds : ∀ p ∈ plan skipped earlier [] documents, ∃ r, p.result = .ok r := by
    intro p member
    have outcome := perm.mem_iff.mpr (mem_map_of_mem member)
    obtain ⟨r, -, same⟩ := mem_map.mp outcome
    obtain ⟨given, known, -⟩ := map_ok_iff.mp same.symm
    exact ⟨given, known⟩
  obtain ⟨given, decided⟩ := mapM_ok_of_forall succeeds
  rw [mapM_ok_iff] at decided
  refine ⟨_, runAll_ok_iff.mpr ⟨given, decided, rfl⟩, ?_⟩
  have outcomes : (plan skipped earlier [] documents).map Plan.outcome =
      (given.map timeless).map .ok := by
    have mapped := congrArg (List.map (Except.map timeless)) decided
    rw [map_map, map_map] at mapped
    rw [map_map]
    exact mapped
  have same : (listed.map timeless).Perm (given.map timeless) := by
    have injective : Function.Injective (Except.ok : FileResult → Except Crash FileResult) :=
      fun a b => Except.ok.inj
    rw [← map_perm_map_iff injective, ← outcomes, map_map]
    exact perm
  have names : ((given.map timeless).map (·.file)).Nodup := by
    rw [map_map]
    exact (plan_files named decided).symm ▸ distinct
  have sorted := mergeSort_perm given fun a b => !decide (b.file < a.file)
  have timed : OrderedBy file (listed.map timeless) :=
    pairwise_map.mpr ordered
  exact timed.eq_of_perm (pairwise_map.mpr (orderedBy_mergeSort file given))
    (same.trans (sorted.map _).symm) ((same.map _).nodup_iff.mpr names)

theorem Stage.Sound.crashed {crash : Crash}
    (sound : (Stage.crashed crash).Sound skipped earlier documents jobs) :
    ∃ crash, runAll skipped earlier documents = .error crash := by
  obtain ⟨p, member, outcome⟩ := mem_map.mp sound
  cases result : p.result with
  | error crash => exact runAll_error member result
  | ok r => simp [Plan.outcome, result, Except.map] at outcome

end Soundness

/-- There is a next step, or this is how running the files one after the other ends, times apart.
Results have an order only if those that are taken over have the names of their files. -/
def Stage.Follows (skipped : List Text) (earlier : Earlier) (documents : List SourceDocument) :
    Stage → Prop
  | running pool => ∃ next, Step skipped earlier documents.length (.running pool) next
  | returned listed =>
    (∀ document ∈ documents, Named earlier document.1) →
      ∃ results, runAll skipped earlier documents = .ok results ∧
        listed.map timeless = results.map timeless
  | crashed _ => ∃ crash, runAll skipped earlier documents = .error crash

/-- A document with one case that passes. -/
def passing : Text :=
  "## Test: one\n\n```nhla\nproc a()\n1>$return\n```\n\n```execute\na() -> 1\n```\n"

/-- What the test of the passing document gives under some name. -/
def passed (file : Text) : FileResult :=
  { file, hash := XXH64.digest passing, status := .pass, cases := [⟨"one", []⟩] }

end HighAsm.TestSuite
