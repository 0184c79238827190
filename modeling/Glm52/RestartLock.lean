import Glm52.Executions
import Mathlib.Logic.Function.Basic

/-! # Watchdog and manual restarts

Runs of the watchdog and runs of the launcher by hand, interleaved step by step.  A
watchdog run probes the health endpoint and the engine process, counts a strike, takes
`restart.lock` without waiting, and then runs the launcher; a manual run is the launcher
alone.  The launcher passes its gates and then, node by node, removes the container and
creates a new one, starts the ranks, and waits for the health endpoint; `--stop` only
removes the containers.  A run is a process tree: when it exits, from whatever step, the
lock it holds is free again.

The launcher never touches the lock.  Watchdog runs exclude each other by it
(`watchdog_holds_lock`); a manual run is kept out of the section, and keeps others out,
by nothing, and what is left to ask of a run of the system is exactly that
(`mutual_exclusion_iff`). -/
namespace Glm52.RestartLock
open Executions

/-- Who started a run. -/
inductive Kind
  | watchdog
  | manual
deriving DecidableEq

/-- The launcher's arguments: none, `--stop`, `--dry-run`. -/
inductive Mode
  | launch
  | stop
  | dryRun
deriving DecidableEq

/-- Where a run is. -/
inductive Phase
  /-- the watchdog asks the health endpoint -/
  | probing
  /-- not healthy: is the engine process there? -/
  | checkingEngine
  /-- engine gone: the strike file -/
  | counting
  /-- confirmed: `flock -n 9` -/
  | locking
  /-- the launcher's arguments and gates -/
  | preflight
  /-- `--stop`: `docker rm -f` on a node -/
  | stopping (node : ℕ)
  /-- phase 1, on a node: the checks and `docker rm -f` -/
  | removing (node : ℕ)
  /-- phase 1, on a node: the wait for memory, `docker run` -/
  | creating (node : ℕ)
  /-- phase 1, on a node: the patches, by `docker exec` -/
  | patching (node : ℕ)
  /-- phase 2: `docker exec` of a rank, in the order in which they are started -/
  | starting (rank : ℕ)
  /-- phase 3 -/
  | waiting
deriving DecidableEq

/-- Removing containers and launching. -/
def Phase.inSection : Phase → Bool
  | .stopping _ => true
  | .removing _ => true
  | .creating _ => true
  | .patching _ => true
  | .starting _ => true
  | _ => false

/-- A run; the watchdog launches without arguments. -/
structure Run where
  kind : Kind
  mode : Mode
  phase : Phase
deriving DecidableEq

/-- The runs by process, the holder of `restart.lock`, the strike file, and for each
node the run that created its container. -/
structure State where
  runs : ℕ → Option Run
  lock : Option ℕ
  strike : ℕ
  containers : ℕ → Option ℕ

/-- Nothing runs. -/
def State.initial : State := ⟨fun _ => none, none, 0, fun _ => none⟩

/-- The nodes of a launch; the head's commands are local, the others' go over ssh. -/
structure Cluster where
  nodes : ℕ
  head : ℕ

/-- A run starts, takes its next step, or fails.  The next step finds what it looks
for, or not: a healthy endpoint, a live engine, open gates, a command that succeeds. -/
inductive Action
  | spawnWatchdog (p : ℕ)
  | spawnManual (p : ℕ) (mode : Mode)
  | advance (p : ℕ) (ok : Bool)
  | fail (p : ℕ)
deriving DecidableEq

/-- The run goes on with a phase. -/
def State.goto (s : State) (p : ℕ) (run : Run) (phase : Phase) : State :=
  { s with runs := Function.update s.runs p (some { run with phase := phase }) }

/-- The run exits; the lock goes with the last process that has it open. -/
def State.exit (s : State) (p : ℕ) : State :=
  { s with
    runs := Function.update s.runs p none
    lock := if s.lock = some p then none else s.lock }

/-- The next node of a loop over the nodes, or what comes behind the loop. -/
def nextNode (c : Cluster) (loop : ℕ → Phase) (node : ℕ) (behind : Phase) : Phase :=
  if node + 1 < c.nodes then loop (node + 1) else behind

/-- A command of phase 1 failed.  On the head the launcher exits; an ssh that fails does
not stop the loop over the nodes. -/
def failedNode (c : Cluster) (s : State) (p : ℕ) (run : Run) (node : ℕ) : State :=
  if node = c.head then s.exit p else s.goto p run (nextNode c .removing node (.starting 0))

/-- The next step of a run. -/
def advance (c : Cluster) (s : State) (p : ℕ) (run : Run) (ok : Bool) : State :=
  match run.phase with
  | .probing => if ok then { s with strike := 0 }.exit p else s.goto p run .checkingEngine
  | .checkingEngine => if ok then { s with strike := 0 }.exit p else s.goto p run .counting
  | .counting =>
    -- the first strike is noted, the second confirms
    if s.strike < 1 then { s with strike := 1 }.exit p
    else { s with strike := 0 }.goto p run .locking
  | .locking =>
    if s.lock = none then { s with lock := some p }.goto p run .preflight else s.exit p
  | .preflight =>
    -- the launcher asks no lock, whoever runs it
    match run.mode with
    | .stop => s.goto p run (.stopping 0)
    | .dryRun => s.exit p
    | .launch => if ok then s.goto p run (.removing 0) else s.exit p
  | .stopping node =>
    let s := { s with containers := Function.update s.containers node none }
    if node + 1 < c.nodes then s.goto p run (.stopping (node + 1)) else s.exit p
  | .removing node =>
    if ok then
      { s with containers := Function.update s.containers node none }.goto p run (.creating node)
    else failedNode c s p run node
  | .creating node =>
    -- `docker run --name` fails while the name is taken; its status is not looked at
    if ok ∧ s.containers node = none then
      { s with containers := Function.update s.containers node (some p) }.goto p run
        (.patching node)
    else s.goto p run (.patching node)
  | .patching node =>
    if ok then s.goto p run (nextNode c .removing node (.starting 0))
    else failedNode c s p run node
  | .starting rank => s.goto p run (nextNode c .starting rank .waiting)
  | .waiting => if ok then s.exit p else s.goto p run .waiting

/-- A step of the system; none where it cannot be taken. -/
def step (c : Cluster) (s : State) : Action → Option State
  | .spawnWatchdog p =>
    if s.runs p = none then
      some { s with runs := Function.update s.runs p (some ⟨.watchdog, .launch, .probing⟩) }
    else none
  | .spawnManual p mode =>
    if s.runs p = none then
      some { s with runs := Function.update s.runs p (some ⟨.manual, mode, .preflight⟩) }
    else none
  | .advance p ok => (s.runs p).map (fun run => advance c s p run ok)
  | .fail p => (s.runs p).map (fun _ => s.exit p)

/-- A run is inside its section. -/
def InSection (s : State) (p : ℕ) : Prop := ∃ run, s.runs p = some run ∧ run.phase.inSection

/-- At most one run is inside its section. -/
def MutualExclusion (s : State) : Prop := ∀ p q, InSection s p → InSection s q → p = q

/-- The step takes the run from its gates into its section. -/
def Enters (run : Run) (ok : Bool) : Prop :=
  run.phase = .preflight ∧ (run.mode = .stop ∨ run.mode = .launch ∧ ok = true)

/-- What the lock does not see to: a manual run enters its section while no run is in
one, and a watchdog enters while no manual run is in one. -/
def Separate (s : State) (a : Action) : Prop :=
  ∀ p ok run, a = .advance p ok → s.runs p = some run → Enters run ok →
    ∀ q run', s.runs q = some run' → run'.phase.inSection → run.kind = .watchdog ∧
      run'.kind = .watchdog

/-- The step removes a container that another run, inside its section, created. -/
def RemovesStarting (s : State) (a : Action) : Prop :=
  ∃ p ok run node q, a = .advance p ok ∧ s.runs p = some run ∧
    (run.phase = .stopping node ∨ run.phase = .removing node ∧ ok = true) ∧
    s.containers node = some q ∧ q ≠ p ∧ InSection s q

/-! ### What a step can do -/

/-- The steps behind the lock. -/
def Phase.behindLock : Phase → Bool
  | .probing => false
  | .checkingEngine => false
  | .counting => false
  | .locking => false
  | _ => true

theorem Phase.behindLock_of_inSection {phase : Phase} (h : phase.inSection) : phase.behindLock := by
  cases phase <;> first | rfl | cases h

/-- Run `p` is gone, and its lock with it. -/
def Exits (s s' : State) (p : ℕ) : Prop :=
  s'.runs = Function.update s.runs p none ∧
  s'.lock = if s.lock = some p then none else s.lock

/-- Run `p` goes on with a phase and the lock stays as it is.  It gets behind the lock
from behind the lock only, and into its section from within or from its gates. -/
def GoesOn (s s' : State) (p : ℕ) (run : Run) (ok : Bool) : Prop :=
  ∃ phase : Phase, s'.runs = Function.update s.runs p (some { run with phase := phase }) ∧
    s'.lock = s.lock ∧ (phase.behindLock → run.phase.behindLock) ∧
    (phase.inSection → run.phase.inSection ∨ Enters run ok)

/-- Run `p` takes the lock. -/
def TakesLock (s s' : State) (p : ℕ) (run : Run) : Prop :=
  s.lock = none ∧ s'.lock = some p ∧
  s'.runs = Function.update s.runs p (some { run with phase := .preflight })

section Step
variable {c : Cluster} {s s₁ : State} {p : ℕ} {run : Run} {ok : Bool}

theorem exits_exit (hruns : s₁.runs = s.runs) (hlock : s₁.lock = s.lock) :
    Exits s (s₁.exit p) p := by
  unfold Exits State.exit
  rw [hruns, hlock]
  exact ⟨rfl, rfl⟩

/-- On to a step before the lock. -/
theorem goesOn_before (hruns : s₁.runs = s.runs) (hlock : s₁.lock = s.lock) {phase : Phase}
    (hbehind : phase.behindLock = false) : GoesOn s (s₁.goto p run phase) p run ok := by
  refine ⟨phase, ?_, hlock, fun h => ?_, fun h => ?_⟩
  · rw [State.goto, hruns]
  · rw [hbehind] at h
    cases h
  · rw [Phase.behindLock_of_inSection h] at hbehind
    cases hbehind

/-- On from within the section, to anywhere. -/
theorem goesOn_within (hruns : s₁.runs = s.runs) (hlock : s₁.lock = s.lock)
    (hsection : run.phase.inSection) (phase : Phase) : GoesOn s (s₁.goto p run phase) p run ok := by
  refine ⟨phase, ?_, hlock, fun _ => Phase.behindLock_of_inSection hsection,
    fun _ => Or.inl hsection⟩
  rw [State.goto, hruns]

/-- On from the gates into the section. -/
theorem goesOn_enters (henters : Enters run ok) (phase : Phase) :
    GoesOn s (s.goto p run phase) p run ok := by
  refine ⟨phase, rfl, rfl, fun _ => ?_, fun _ => Or.inr henters⟩
  rw [henters.1]
  rfl

theorem failedNode_cases (hsection : run.phase.inSection) (node : ℕ) :
    Exits s (failedNode c s p run node) p ∨ GoesOn s (failedNode c s p run node) p run ok := by
  unfold failedNode
  split
  · exact Or.inl (exits_exit rfl rfl)
  · exact Or.inr (goesOn_within rfl rfl hsection _)

/-- **What a run's next step can do.** -/
theorem advance_cases (c : Cluster) (s : State) (p : ℕ) (run : Run) (ok : Bool) :
    Exits s (advance c s p run ok) p ∨ GoesOn s (advance c s p run ok) p run ok ∨
      TakesLock s (advance c s p run ok) p run := by
  obtain ⟨kind, mode, phase⟩ := run
  cases phase with
  | probing =>
    cases ok with
    | true => exact Or.inl (exits_exit rfl rfl)
    | false => exact Or.inr (Or.inl (goesOn_before rfl rfl rfl))
  | checkingEngine =>
    cases ok with
    | true => exact Or.inl (exits_exit rfl rfl)
    | false => exact Or.inr (Or.inl (goesOn_before rfl rfl rfl))
  | counting =>
    simp only [advance]
    split
    · exact Or.inl (exits_exit rfl rfl)
    · exact Or.inr (Or.inl (goesOn_before rfl rfl rfl))
  | locking =>
    simp only [advance]
    split
    · next hfree => exact Or.inr (Or.inr ⟨hfree, rfl, rfl⟩)
    · exact Or.inl (exits_exit rfl rfl)
  | preflight =>
    cases mode with
    | stop => exact Or.inr (Or.inl (goesOn_enters ⟨rfl, Or.inl rfl⟩ _))
    | dryRun => exact Or.inl (exits_exit rfl rfl)
    | launch =>
      cases ok with
      | true => exact Or.inr (Or.inl (goesOn_enters ⟨rfl, Or.inr ⟨rfl, rfl⟩⟩ _))
      | false => exact Or.inl (exits_exit rfl rfl)
  | stopping node =>
    simp only [advance]
    split
    · exact Or.inr (Or.inl (goesOn_within rfl rfl rfl _))
    · exact Or.inl (exits_exit rfl rfl)
  | removing node =>
    simp only [advance]
    split
    · exact Or.inr (Or.inl (goesOn_within rfl rfl rfl _))
    · exact (failedNode_cases rfl node).imp_right Or.inl
  | creating node =>
    simp only [advance]
    split
    · exact Or.inr (Or.inl (goesOn_within rfl rfl rfl _))
    · exact Or.inr (Or.inl (goesOn_within rfl rfl rfl _))
  | patching node =>
    simp only [advance]
    split
    · exact Or.inr (Or.inl (goesOn_within rfl rfl rfl _))
    · exact (failedNode_cases rfl node).imp_right Or.inl
  | starting rank => exact Or.inr (Or.inl (goesOn_within rfl rfl rfl _))
  | waiting =>
    cases ok with
    | true => exact Or.inl (exits_exit rfl rfl)
    | false =>
      refine Or.inr (Or.inl ⟨.waiting, rfl, rfl, fun h => h, fun h => ?_⟩)
      cases h

/-- A new run, at its first step. -/
def Spawns (s s' : State) (p : ℕ) (run : Run) : Prop :=
  s'.runs = Function.update s.runs p (some run) ∧ s'.lock = s.lock ∧
  (run.kind = .watchdog → run.phase.behindLock = false) ∧ run.phase.inSection = false

/-- A run after a step is the one that was stepped, or was there before. -/
theorem run_of_update {runs runs' : ℕ → Option Run} {r : Option Run} {q : ℕ} {runq : Run}
    (hruns : runs' = Function.update runs p r) (hq : runs' q = some runq) :
    (q = p ∧ r = some runq) ∨ (q ≠ p ∧ runs q = some runq) := by
  rw [hruns] at hq
  by_cases hqp : q = p
  · rw [hqp, Function.update_self] at hq
    exact Or.inl ⟨hqp, hq⟩
  · rw [Function.update_of_ne hqp] at hq
    exact Or.inr ⟨hqp, hq⟩

/-- **What a step can do.** -/
theorem step_cases {s' : State} {a : Action} (h : step c s a = some s') :
    (∃ p, Exits s s' p) ∨
    (∃ p run, s.runs p = none ∧ Spawns s s' p run) ∨
    ∃ p run ok, a = .advance p ok ∧ s.runs p = some run ∧
      (GoesOn s s' p run ok ∨ TakesLock s s' p run) := by
  cases a with
  | spawnWatchdog p =>
    obtain ⟨hfree, h⟩ := Option.ite_none_right_eq_some.mp h
    obtain rfl := Option.some.inj h
    exact Or.inr (Or.inl ⟨p, _, hfree, rfl, rfl, fun _ => rfl, rfl⟩)
  | spawnManual p mode =>
    obtain ⟨hfree, h⟩ := Option.ite_none_right_eq_some.mp h
    obtain rfl := Option.some.inj h
    exact Or.inr (Or.inl ⟨p, _, hfree, rfl, rfl, nofun, rfl⟩)
  | advance p ok =>
    obtain ⟨run, hrun, rfl⟩ := Option.map_eq_some_iff.mp h
    rcases advance_cases c s p run ok with hexits | hother
    · exact Or.inl ⟨p, hexits⟩
    · exact Or.inr (Or.inr ⟨p, run, ok, rfl, hrun, hother⟩)
  | fail p =>
    obtain ⟨run, -, rfl⟩ := Option.map_eq_some_iff.mp h
    exact Or.inl ⟨p, exits_exit rfl rfl⟩

/-! ### The lock -/

/-- A watchdog run behind the lock holds it. -/
def WatchdogsHoldLock (s : State) : Prop :=
  ∀ p run, s.runs p = some run → run.kind = .watchdog → run.phase.behindLock → s.lock = some p

theorem watchdogsHoldLock_initial : WatchdogsHoldLock State.initial := by
  intro p run hrun
  cases hrun

theorem watchdogsHoldLock_step {s' : State} {a : Action} (hs : WatchdogsHoldLock s)
    (h : step c s a = some s') : WatchdogsHoldLock s' := by
  intro q runq hq hkind hbehind
  rcases step_cases h with ⟨p, hruns, hlock⟩ | ⟨p, run, hfree, hruns, hlock, hbefore, -⟩ |
    ⟨p, run, ok, -, hrun, ⟨phase, hruns, hlock, hfrom, -⟩ | ⟨hfree, hlock, hruns⟩⟩
  · rcases run_of_update hruns hq with ⟨-, hgone⟩ | ⟨hqp, hq⟩
    · cases hgone
    · have hheld := hs q runq hq hkind hbehind
      rw [hlock, hheld, if_neg (fun h => hqp (Option.some.inj h))]
  · rcases run_of_update hruns hq with ⟨-, hnew⟩ | ⟨-, hq⟩
    · obtain rfl := Option.some.inj hnew
      rw [hbefore hkind] at hbehind
      cases hbehind
    · rw [hlock]
      exact hs q runq hq hkind hbehind
  · rcases run_of_update hruns hq with ⟨rfl, hnew⟩ | ⟨-, hq⟩
    · obtain rfl := Option.some.inj hnew
      rw [hlock]
      exact hs q run hrun hkind (hfrom hbehind)
    · rw [hlock]
      exact hs q runq hq hkind hbehind
  · rcases run_of_update hruns hq with ⟨rfl, -⟩ | ⟨-, hq⟩
    · exact hlock
    · -- the lock was free, so no other watchdog was behind it
      have hheld := hs q runq hq hkind hbehind
      rw [hfree] at hheld
      cases hheld

/-- **Watchdog runs behind the lock are one run**, whatever the manual runs do. -/
theorem watchdog_holds_lock (c : Cluster) (actions : List Action) :
    Always (step c) State.initial actions (fun s => ∀ p q run run', s.runs p = some run →
      s.runs q = some run' → run.kind = .watchdog → run'.kind = .watchdog →
        run.phase.behindLock → run'.phase.behindLock → p = q) := by
  have hlocks : Always (step c) State.initial actions WatchdogsHoldLock :=
    always_of_step watchdogsHoldLock_initial
      (fun _ _ _ hs hstep => watchdogsHoldLock_step hs hstep)
  intro before s hprefix hbefore p q run run' hrun hrun' hkind hkind' hbehind hbehind'
  have hs := hlocks before s hprefix hbefore
  exact Option.some.inj ((hs p run hrun hkind hbehind).symm.trans (hs q run' hrun' hkind' hbehind'))

/-! ### The section -/

/-- A run in its section after a step was there before, or has just entered. -/
theorem inSection_step {s' : State} {a : Action} (h : step c s a = some s') {q : ℕ}
    (hq : InSection s' q) :
    InSection s q ∨ ∃ run ok, a = .advance q ok ∧ s.runs q = some run ∧ Enters run ok := by
  obtain ⟨runq, hq, hsection⟩ := hq
  rcases step_cases h with ⟨p, hruns, -⟩ | ⟨p, run, -, hruns, -, -, houtside⟩ |
    ⟨p, run, ok, ha, hrun, ⟨phase, hruns, -, -, hfrom⟩ | ⟨-, -, hruns⟩⟩
  all_goals
    rcases run_of_update hruns hq with ⟨rfl, hnew⟩ | ⟨-, hq⟩
    case inr => exact Or.inl ⟨runq, hq, hsection⟩
  · cases hnew
  · obtain rfl := Option.some.inj hnew
    rw [houtside] at hsection
    cases hsection
  · obtain rfl := Option.some.inj hnew
    rcases hfrom hsection with hbefore | henters
    · exact Or.inl ⟨run, hrun, hbefore⟩
    · exact Or.inr ⟨run, ok, ha, hrun, henters⟩
  · obtain rfl := Option.some.inj hnew
    cases hsection

/-- A run that is not stepped stays where it is. -/
theorem inSection_of_ne {ok : Bool} {s' : State} (h : step c s (.advance p ok) = some s') {q : ℕ}
    (hqp : q ≠ p) (hq : InSection s q) : InSection s' q := by
  obtain ⟨runq, hq, hsection⟩ := hq
  refine ⟨runq, ?_, hsection⟩
  obtain ⟨run, hrun, rfl⟩ := Option.map_eq_some_iff.mp h
  rcases advance_cases c s p run ok with ⟨hruns, -⟩ | ⟨phase, hruns, -⟩ | ⟨-, -, hruns⟩
  all_goals rw [hruns, Function.update_of_ne hqp, hq]

/-- The step from the gates leads into the section. -/
theorem inSection_of_enters {s' : State} (h : step c s (.advance p ok) = some s')
    (hrun : s.runs p = some run) (henters : Enters run ok) : InSection s' p := by
  obtain ⟨kind, mode, phase⟩ := run
  obtain ⟨rfl, hmode⟩ := henters
  obtain ⟨run', hrun', rfl⟩ := Option.map_eq_some_iff.mp h
  obtain rfl : (⟨kind, mode, .preflight⟩ : Run) = run' := Option.some.inj (hrun.symm.trans hrun')
  rcases hmode with rfl | ⟨rfl, rfl⟩
  · exact ⟨_, Function.update_self _ _ _, rfl⟩
  · exact ⟨_, Function.update_self _ _ _, rfl⟩

/-- What a run keeps excluded when the steps are separate. -/
theorem mutualExclusion_step {s' : State} {a : Action} (hlocks : WatchdogsHoldLock s)
    (hs : MutualExclusion s) (hseparate : Separate s a) (h : step c s a = some s') :
    MutualExclusion s' := by
  -- a run that enters meets no other run in its section
  have hmeets : ∀ {p q run ok}, a = .advance p ok → s.runs p = some run → Enters run ok →
      InSection s q → p = q := by
    rintro p q run ok ha hrun henters ⟨runq, hq, hsection⟩
    obtain ⟨hkind, hkindq⟩ := hseparate p ok run ha hrun henters q runq hq hsection
    have hp := hlocks p run hrun hkind (by rw [henters.1]; rfl)
    have hq := hlocks q runq hq hkindq (Phase.behindLock_of_inSection hsection)
    exact Option.some.inj (hp.symm.trans hq)
  intro p q hp hq
  rcases inSection_step h hp with hp | ⟨run, ok, ha, hrun, henters⟩
  · rcases inSection_step h hq with hq | ⟨run, ok, ha, hrun, henters⟩
    · exact hs p q hp hq
    · exact (hmeets ha hrun henters hp).symm
  · rcases inSection_step h hq with hq | ⟨run', ok', ha', -, -⟩
    · exact hmeets ha hrun henters hq
    · rw [ha] at ha'
      exact (Action.advance.inj ha').1

end Step

/-- **Mutual exclusion holds exactly when manual runs keep to themselves.** In every run
of the system, at most one run is inside its section in each state, and no step removes a
container that another run is in the middle of starting, if and only if each manual run
enters its section while no run is in one, and each watchdog enters while no manual run
is in one. -/
theorem mutual_exclusion_iff (c : Cluster) {actions : List Action} {final : State}
    (hexec : exec (step c) State.initial actions = some final) :
    (Always (step c) State.initial actions MutualExclusion ∧
      EachStep (step c) State.initial actions (fun s a => ¬ RemovesStarting s a)) ↔
    EachStep (step c) State.initial actions Separate := by
  constructor
  · rintro ⟨hexcl, -⟩ before a s hprefix hbefore p ok run rfl hrun henters q runq hq hsection
    obtain ⟨s', hstep, hafter⟩ := exists_step hexec hprefix hbefore
    -- were a run inside while `p` enters, there would be two behind the step
    have hne : q ≠ p := by
      rintro rfl
      obtain rfl := Option.some.inj (hrun.symm.trans hq)
      rw [henters.1] at hsection
      cases hsection
    exact absurd (hexcl _ s' hprefix hafter q p (inSection_of_ne hstep hne ⟨runq, hq, hsection⟩)
      (inSection_of_enters hstep hrun henters)) hne
  · intro hseparate
    -- the lock keeps watchdogs apart, separate steps the rest
    have hboth : Always (step c) State.initial actions
        (fun s => WatchdogsHoldLock s ∧ MutualExclusion s) := by
      refine always_of_eachStep ⟨watchdogsHoldLock_initial, ?_⟩ ?_ hseparate
      · rintro p q ⟨run, hrun, -⟩
        cases hrun
      · rintro s a s' ⟨hlocks, hexcl⟩ ha hstep
        exact ⟨watchdogsHoldLock_step hlocks hstep, mutualExclusion_step hlocks hexcl ha hstep⟩
    refine ⟨fun before s hprefix hbefore => (hboth before s hprefix hbefore).2, ?_⟩
    rintro before a s hprefix hbefore ⟨p, ok, run, node, q, -, hrun, hphase, -, hqp, hq⟩
    have hexcl := (hboth before s ((List.prefix_append before [a]).trans hprefix) hbefore).2
    refine hqp (hexcl q p hq ⟨run, hrun, ?_⟩)
    rcases hphase with hphase | ⟨hphase, -⟩
    · rw [hphase]
      rfl
    · rw [hphase]
      rfl

/-! ### Runs of few processes -/

/-- The processes are numbered below `n`. -/
def Below (n : ℕ) (s : State) : Prop := ∀ q, n ≤ q → s.runs q = none

/-- Who is stepped. -/
def Action.process : Action → ℕ
  | .spawnWatchdog p => p
  | .spawnManual p _ => p
  | .advance p _ => p
  | .fail p => p

instance (run : Run) (ok : Bool) : Decidable (Enters run ok) := inferInstanceAs (Decidable (_ ∧ _))

/-- `Separate`, looked up for the processes below `n`. -/
def separate (n : ℕ) (s : State) (a : Action) : Bool :=
  decide (a.process < n) && match a with
    | .advance p ok => (s.runs p).all (fun run => !decide (Enters run ok) ||
        (List.range n).all (fun q => (s.runs q).all (fun run' => !run'.phase.inSection ||
          decide (run.kind = .watchdog ∧ run'.kind = .watchdog))))
    | _ => true

theorem separate_sound {n : ℕ} {s : State} {a : Action} (hbelow : Below n s)
    (h : separate n s a = true) : Separate s a := by
  rintro p ok run rfl hrun henters q run' hq hsection
  have hlt : q < n := by
    by_contra hge
    rw [hbelow q (Nat.not_lt.mp hge)] at hq
    cases hq
  have hlook := (Bool.and_eq_true_iff.mp h).2
  simp only [hrun, Option.all_some, henters, decide_true, Bool.not_true, Bool.false_or] at hlook
  have hall := List.all_eq_true.mp hlook q (List.mem_range.mpr hlt)
  simpa [hq, hsection] using hall

theorem below_step {c : Cluster} {n : ℕ} {s s' : State} {a : Action} (hbelow : Below n s)
    (h : separate n s a = true) (hstep : step c s a = some s') : Below n s' := by
  have hprocess : a.process < n := of_decide_eq_true (Bool.and_eq_true_iff.mp h).1
  have hupdate : ∀ {p r}, p < n → s'.runs = Function.update s.runs p r → Below n s' := by
    intro p r hp hruns q hq
    rw [hruns, Function.update_of_ne (by omega), hbelow q hq]
  cases a with
  | spawnWatchdog p =>
    obtain ⟨-, hstep⟩ := Option.ite_none_right_eq_some.mp hstep
    obtain rfl := Option.some.inj hstep
    exact hupdate hprocess rfl
  | spawnManual p mode =>
    obtain ⟨-, hstep⟩ := Option.ite_none_right_eq_some.mp hstep
    obtain rfl := Option.some.inj hstep
    exact hupdate hprocess rfl
  | advance p ok =>
    obtain ⟨run, -, rfl⟩ := Option.map_eq_some_iff.mp hstep
    rcases advance_cases c s p run ok with ⟨hruns, -⟩ | ⟨phase, hruns, -⟩ | ⟨-, -, hruns⟩
    all_goals exact hupdate hprocess hruns
  | fail p =>
    obtain ⟨run, -, rfl⟩ := Option.map_eq_some_iff.mp hstep
    exact hupdate hprocess rfl

/-- A watchdog run that finds everything dead. -/
def strikes (p : ℕ) : List Action :=
  [.spawnWatchdog p, .advance p false, .advance p false, .advance p false]

/-- Two strikes, and again two: watchdogs 1 and 3 are both confirmed, the first takes the lock
and the other finds it taken.  It launches; then a launch by hand goes through; then, after two
more strikes, a watchdog is in the middle of its launch. -/
def contended : List Action :=
  strikes 0 ++ strikes 1 ++ strikes 2 ++ strikes 3 ++ [.advance 1 true, .advance 3 true] ++
    List.replicate 10 (.advance 1 true) ++
    .spawnManual 4 .launch :: List.replicate 10 (.advance 4 true) ++
    strikes 5 ++ strikes 6 ++ List.replicate 4 (.advance 6 true)

theorem mutual_exclusion_iff_contended :
    Always (step ⟨2, 0⟩) State.initial contended MutualExclusion ∧
      EachStep (step ⟨2, 0⟩) State.initial contended (fun s a => ¬ RemovesStarting s a) := by
  have hexec : (exec (step ⟨2, 0⟩) State.initial contended).isSome = true := by decide +kernel
  refine (mutual_exclusion_iff ⟨2, 0⟩ (Option.some_get hexec).symm).mpr ?_
  refine eachStep_of_check (fun s a => separate_sound) (fun s a s' => below_step)
    (fun q _ => rfl) (show checkSteps _ (separate 7) _ _ = true from ?_)
  decide +kernel

/-- The second strike: a watchdog takes the lock and launches, and a launch by hand goes
straight to removing the containers. -/
def watchdogThenManual : List Action :=
  [.spawnWatchdog 0, .advance 0 false, .advance 0 false, .advance 0 false,
    .spawnWatchdog 1, .advance 1 false, .advance 1 false, .advance 1 false, .advance 1 true,
    .advance 1 true, .spawnManual 2 .launch, .advance 2 true]

theorem manual_enters_behind_watchdog :
    ∃ s, exec (step ⟨8, 0⟩) State.initial watchdogThenManual = some s ∧ ¬ MutualExclusion s := by
  refine ⟨_, rfl, fun hexcl => ?_⟩
  have hsame := hexcl 1 2 ⟨⟨.watchdog, .launch, .removing 0⟩, rfl, rfl⟩
    ⟨⟨.manual, .launch, .removing 0⟩, rfl, rfl⟩
  exact absurd hsame (by decide)

end Glm52.RestartLock
