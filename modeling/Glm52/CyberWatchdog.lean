import Mathlib.Data.List.TakeWhile
import Mathlib.Data.Int.Order.Basic

/-! # The cyber watchdog

The watchdog runs every few minutes.  A run probes the model once, and two counter
files carry the evidence from run to run: crashes (not serving, engine gone) and wedges
(serving, probe failed, generation frozen).  A run whose counter reaches the threshold
restarts the model, if it gets the restart lock.

A run is a function of what it observes and of the two files, and a history lists the
runs so far, newest first.  `watchdogRun_spec` says once what a run does to the
counters: one more for a run of the counter's kind that restarts nothing, zero for every
other run.  So a counter is the streak of such runs (`watchdog_streaks`).

A reading of the generation counter can fail.  The run then cannot tell busy from
frozen, and counts a wedge; a wedge restart needs a frozen counter in each of the last
runs only where no reading fails (`wedge_restart_iff_readings`). -/
namespace Glm52

/-- What `gen_counter` prints: nothing, an integer that the shell can compare, or
something else. -/
inductive Reading
  | empty
  | number (n : ℤ)
  | text
deriving DecidableEq

/-- What a run gets to see: the health code, whether the engine process is alive, the
generation counter before and after the probe, the probe's code, and whether the restart
lock is free. -/
structure Observation where
  health : String
  engineAlive : Bool
  gen1 : Reading
  probe : String
  gen2 : Reading
  lockFree : Bool
deriving DecidableEq

/-- The two reasons for a restart. -/
inductive Reason
  | crash
  | wedge
deriving DecidableEq

/-- The counter files; a file may not exist yet. -/
structure CountFiles where
  crash : Option ℕ
  wedge : Option ℕ
deriving DecidableEq

/-- `cat "$FILE" 2>/dev/null || echo 0`. -/
def CountFiles.count (files : CountFiles) : Reason → ℕ
  | .crash => files.crash.getD 0
  | .wedge => files.wedge.getD 0

/-- `echo "$n" > "$FILE"`. -/
def CountFiles.set (files : CountFiles) : Reason → ℕ → CountFiles
  | .crash, n => { files with crash := some n }
  | .wedge, n => { files with wedge := some n }

@[simp] theorem CountFiles.count_set (files : CountFiles) (reason reason' : Reason) (n : ℕ) :
    (files.set reason n).count reason' = if reason' = reason then n else files.count reason' := by
  cases reason <;> cases reason' <;> rfl

/-- `[ -n "$gen1" ] && [ -n "$gen2" ] && [ "$gen2" -gt "$gen1" ]`; a comparison of
something that is no integer is false. -/
def moving : Reading → Reading → Bool
  | .number a, .number b => decide (a < b)
  | _, _ => false

/-- `do_restart`: nothing happens while the lock is held; otherwise both counters are
reset and the restart is issued. -/
def doRestart (reason : Reason) (lockFree : Bool) (files : CountFiles) :
    CountFiles × Option Reason :=
  if lockFree then ((files.set .wedge 0).set .crash 0, some reason) else (files, none)

/-- One more of a kind; a restart at the threshold. -/
def countUp (need : ℕ) (reason : Reason) (lockFree : Bool) (files : CountFiles) :
    CountFiles × Option Reason :=
  let n := files.count reason + 1
  let files := files.set reason n
  if need ≤ n then doRestart reason lockFree files else (files, none)

/-- A run of the watchdog with threshold `need`: the files it leaves, and the restart it
issues. -/
def watchdogRun (need : ℕ) (obs : Observation) (files : CountFiles) :
    CountFiles × Option Reason :=
  if obs.health ≠ "200" then
    -- not serving: a crash if the engine is gone, else a slow load
    let (files, restart) :=
      if obs.engineAlive = false then countUp need .crash obs.lockFree files
      else (files.set .crash 0, none)
    (files.set .wedge 0, restart)
  else
    let files := files.set .crash 0
    -- a failed probe of a moving counter is busy, of any other a wedge
    if obs.probe = "200" then (files.set .wedge 0, none)
    else if moving obs.gen1 obs.gen2 then (files.set .wedge 0, none)
    else countUp need .wedge obs.lockFree files

/-! ### Histories -/

/-- A run as recorded: what it saw, the files it left, and the restart it issued. -/
structure RunRecord where
  obs : Observation
  files : CountFiles
  restart : Option Reason

/-- The files after the runs of a history; at first there are none. -/
def filesAfter : List RunRecord → CountFiles
  | [] => ⟨none, none⟩
  | r :: _ => r.files

/-- The runs that saw these observations, one after another, newest first. -/
def history (need : ℕ) : List Observation → List RunRecord
  | [] => []
  | obs :: earlier =>
    let result := watchdogRun need obs (filesAfter (history need earlier))
    ⟨obs, result.1, result.2⟩ :: history need earlier

/-- A run is classified as a crash when the model is not serving and the engine is gone,
as a wedge when it is serving, the probe failed and the counter was not seen to move. -/
def Observation.ClassifiedAs (obs : Observation) : Reason → Prop
  | .crash => obs.health ≠ "200" ∧ obs.engineAlive = false
  | .wedge => obs.health = "200" ∧ obs.probe ≠ "200" ∧ moving obs.gen1 obs.gen2 = false

instance (obs : Observation) (reason : Reason) : Decidable (obs.ClassifiedAs reason) :=
  match reason with
  | .crash => inferInstanceAs (Decidable (_ ∧ _))
  | .wedge => inferInstanceAs (Decidable (_ ∧ _ ∧ _))

/-- The current streak: how many of the last runs, without a break, were classified as
`reason` and restarted nothing. -/
def streak (reason : Reason) (h : List RunRecord) : ℕ :=
  (h.takeWhile (fun r => decide (r.obs.ClassifiedAs reason ∧ r.restart = none))).length

/-! ### What one run does -/

theorem countUp_cases (need : ℕ) (reason : Reason) (lockFree : Bool) (files : CountFiles) :
    let result := countUp need reason lockFree files
    (result.2 = some reason ∧ need ≤ files.count reason + 1 ∧ lockFree = true ∧
      ∀ other, result.1.count other = 0) ∨
    (result.2 = none ∧ ¬ (need ≤ files.count reason + 1 ∧ lockFree = true) ∧
      ∀ other, result.1.count other =
        if other = reason then files.count reason + 1 else files.count other) := by
  intro result
  by_cases hneed : need ≤ files.count reason + 1
  · cases lockFree with
    | true =>
      have hresult : result = (((files.set reason (files.count reason + 1)).set .wedge 0).set
          .crash 0, some reason) := if_pos hneed
      refine Or.inl ⟨by rw [hresult], hneed, rfl, fun other => ?_⟩
      rw [hresult]
      cases other <;> rfl
    | false =>
      have hresult : result = (files.set reason (files.count reason + 1), none) := if_pos hneed
      refine Or.inr ⟨by rw [hresult], fun h => Bool.false_ne_true h.2, fun other => ?_⟩
      rw [hresult, CountFiles.count_set]
  · have hresult : result = (files.set reason (files.count reason + 1), none) := if_neg hneed
    refine Or.inr ⟨by rw [hresult], fun h => hneed h.1, fun other => ?_⟩
    rw [hresult, CountFiles.count_set]

/-- What a run can do.  A run classified as `reason` restarts when its counter has
reached the threshold and the lock is free, which clears both counters; otherwise it
leaves its counter one higher and the other at zero.  A run of neither kind clears
both. -/
def RunSpec (need : ℕ) (obs : Observation) (files files' : CountFiles) (restart : Option Reason) :
    Prop :=
  (∃ reason, obs.ClassifiedAs reason ∧ restart = some reason ∧
    need ≤ files.count reason + 1 ∧ obs.lockFree = true ∧ ∀ other, files'.count other = 0) ∨
  (∃ reason, obs.ClassifiedAs reason ∧ restart = none ∧ ∀ other, files'.count other =
    if other = reason then files.count reason + 1 else 0) ∨
  ((∀ reason, ¬ obs.ClassifiedAs reason) ∧ restart = none ∧ ∀ other, files'.count other = 0)

section Run
variable (need : ℕ) {obs : Observation} (files : CountFiles)

/-- A run while the model is not serving. -/
theorem watchdogRun_of_down (hhealth : obs.health ≠ "200") :
    RunSpec need obs files (watchdogRun need obs files).1 (watchdogRun need obs files).2 := by
  by_cases halive : obs.engineAlive = false
  · have hresult : watchdogRun need obs files =
        ((countUp need .crash obs.lockFree files).1.set .wedge 0,
          (countUp need .crash obs.lockFree files).2) := by
      simp only [watchdogRun, if_pos hhealth, if_pos halive]
    rcases countUp_cases need .crash obs.lockFree files with
      ⟨hrestart, hneed, hlock, hcount⟩ | ⟨hrestart, -, hcount⟩
    · refine Or.inl ⟨.crash, ⟨hhealth, halive⟩, by rw [hresult, hrestart], hneed, hlock, ?_⟩
      intro other
      rw [hresult, CountFiles.count_set, hcount, ite_self]
    · refine Or.inr (Or.inl ⟨.crash, ⟨hhealth, halive⟩, by rw [hresult, hrestart], ?_⟩)
      intro other
      rw [hresult, CountFiles.count_set, hcount]
      cases other <;> rfl
  · have hresult : watchdogRun need obs files =
        ((files.set .crash 0).set .wedge 0, none) := by
      simp only [watchdogRun, if_pos hhealth, if_neg halive]
    have hneither : ∀ reason, ¬ obs.ClassifiedAs reason := by
      intro reason
      cases reason with
      | crash => exact fun h => halive h.2
      | wedge => exact fun h => hhealth h.1
    refine Or.inr (Or.inr ⟨hneither, by rw [hresult], fun other => ?_⟩)
    rw [hresult]
    cases other <;> rfl

/-- A run while the model is serving. -/
theorem watchdogRun_of_serving (hhealth : obs.health = "200") :
    RunSpec need obs files (watchdogRun need obs files).1 (watchdogRun need obs files).2 := by
  have hserving : ¬ obs.health ≠ "200" := not_not_intro hhealth
  by_cases hwedge : obs.ClassifiedAs .wedge
  · have hmoving : ¬ moving obs.gen1 obs.gen2 = true := by
      rw [hwedge.2.2]
      exact Bool.false_ne_true
    have hresult : watchdogRun need obs files =
        countUp need .wedge obs.lockFree (files.set .crash 0) := by
      simp only [watchdogRun, if_neg hserving, if_neg hwedge.2.1, if_neg hmoving]
    rcases countUp_cases need .wedge obs.lockFree (files.set .crash 0) with
      ⟨hrestart, hneed, hlock, hcount⟩ | ⟨hrestart, -, hcount⟩
    · exact Or.inl ⟨.wedge, hwedge, hresult ▸ hrestart, hneed, hlock, hresult ▸ hcount⟩
    · refine Or.inr (Or.inl ⟨.wedge, hwedge, hresult ▸ hrestart, fun other => ?_⟩)
      rw [hresult, hcount]
      cases other <;> rfl
  · have hresult : watchdogRun need obs files =
        ((files.set .crash 0).set .wedge 0, none) := by
      by_cases hprobe : obs.probe = "200"
      · simp only [watchdogRun, if_neg hserving, if_pos hprobe]
      · have hmoving : moving obs.gen1 obs.gen2 = true := by
          by_contra hfrozen
          exact hwedge ⟨hhealth, hprobe, Bool.not_eq_true _ ▸ hfrozen⟩
        simp only [watchdogRun, if_neg hserving, if_neg hprobe, if_pos hmoving]
    have hneither : ∀ reason, ¬ obs.ClassifiedAs reason := by
      intro reason
      cases reason with
      | crash => exact fun h => h.1 hhealth
      | wedge => exact hwedge
    refine Or.inr (Or.inr ⟨hneither, by rw [hresult], fun other => ?_⟩)
    rw [hresult]
    cases other <;> rfl

theorem watchdogRun_spec :
    RunSpec need obs files (watchdogRun need obs files).1 (watchdogRun need obs files).2 := by
  by_cases hhealth : obs.health = "200"
  · exact watchdogRun_of_serving need files hhealth
  · exact watchdogRun_of_down need files hhealth

end Run

/-- **A run of a history**: it did what a run can do, and before it are the runs that
saw the earlier observations. -/
theorem history_step {need : ℕ} {runs : List Observation} {last : RunRecord}
    {earlier : List RunRecord} (h : last :: earlier <:+ history need runs) :
    RunSpec need last.obs (filesAfter earlier) last.files last.restart ∧
    ∃ before, last.obs :: before <:+ runs ∧ earlier = history need before := by
  induction runs with
  | nil => exact absurd (List.suffix_nil.mp h) (List.cons_ne_nil _ _)
  | cons obs rest ih =>
    rcases List.suffix_cons_iff.mp h with heq | hsuffix
    · obtain ⟨rfl, rfl⟩ := List.cons.inj heq
      exact ⟨watchdogRun_spec need _, rest, List.suffix_rfl, rfl⟩
    · obtain ⟨hspec, before, hbefore, hearlier⟩ := ih hsuffix
      exact ⟨hspec, before, hbefore.trans (List.suffix_cons obs rest), hearlier⟩

/-- Every run is in the history. -/
theorem exists_run {need : ℕ} {runs : List Observation} {obs : Observation} (h : obs ∈ runs) :
    ∃ last earlier, last :: earlier <:+ history need runs ∧ last.obs = obs := by
  induction h with
  | head rest => exact ⟨_, _, List.suffix_rfl, rfl⟩
  | tail first _ ih =>
    obtain ⟨last, earlier, hsuffix, hobs⟩ := ih
    exact ⟨last, earlier, hsuffix.trans (List.suffix_cons _ _), hobs⟩

/-! ### Streaks -/

theorem Observation.ClassifiedAs.unique {obs : Observation} {reason reason' : Reason}
    (h : obs.ClassifiedAs reason) (h' : obs.ClassifiedAs reason') : reason' = reason := by
  cases reason with
  | crash =>
    cases reason' with
    | crash => rfl
    | wedge => exact absurd h'.1 h.1
  | wedge =>
    cases reason' with
    | crash => exact absurd h.1 h'.1
    | wedge => rfl

theorem streak_cons (reason : Reason) (r : RunRecord) (h : List RunRecord) :
    streak reason (r :: h) =
      if r.obs.ClassifiedAs reason ∧ r.restart = none then streak reason h + 1 else 0 := by
  unfold streak
  rw [List.takeWhile_cons]
  split
  · next hcount => rw [if_pos (of_decide_eq_true hcount), List.length_cons]
  · next hcount => rw [if_neg (fun hp => hcount (decide_eq_true hp)), List.length_nil]

/-- **A counter is its streak.** -/
theorem count_filesAfter (need : ℕ) (runs : List Observation) (reason : Reason) :
    (filesAfter (history need runs)).count reason = streak reason (history need runs) := by
  induction runs generalizing reason with
  | nil => cases reason <;> rfl
  | cons obs earlier ih =>
    rw [history, streak_cons]
    show (watchdogRun need obs _).1.count reason = if _ ∧ (watchdogRun need obs _).2 = none then _
      else 0
    rcases watchdogRun_spec need (filesAfter (history need earlier)) with
      ⟨own, hown, hrestart, -, -, hcount⟩ | ⟨own, hown, hrestart, hcount⟩ |
        ⟨hneither, -, hcount⟩
    · rw [hcount, if_neg (by rw [hrestart]; simp)]
    · rw [hcount]
      by_cases hreason : reason = own
      · subst hreason
        rw [if_pos rfl, if_pos ⟨hown, hrestart⟩, ih]
      · rw [if_neg hreason, if_neg (fun h => hreason (hown.unique h.1))]
    · rw [hcount, if_neg (fun h => hneither reason h.1)]

/-- **The streak invariant.** After every sequence of runs each counter is the streak of
its kind, at most one of the two is not zero, a run whose probe succeeded leaves both at
zero, and a run that issues a restart holds the lock and brings its streak to the
threshold. -/
theorem watchdog_streaks (need : ℕ) (runs : List Observation) :
    let files := filesAfter (history need runs)
    (∀ reason, files.count reason = streak reason (history need runs)) ∧
    (files.count .crash = 0 ∨ files.count .wedge = 0) ∧
    ∀ last earlier, history need runs = last :: earlier →
      (last.obs.health = "200" → last.obs.probe = "200" → ∀ reason, files.count reason = 0) ∧
      ∀ reason, last.restart = some reason →
        last.obs.lockFree = true ∧ last.obs.ClassifiedAs reason ∧
          need ≤ streak reason earlier + 1 := by
  intro files
  refine ⟨count_filesAfter need runs, ?_, ?_⟩
  · cases runs with
    | nil => exact Or.inl rfl
    | cons obs earlier =>
      have hspec : RunSpec need obs (filesAfter (history need earlier)) _ _ :=
        watchdogRun_spec need (filesAfter (history need earlier))
      rcases hspec with
        ⟨-, -, -, -, -, hcount⟩ | ⟨own, -, -, hcount⟩ | ⟨-, -, hcount⟩
      · exact Or.inl (hcount .crash)
      · cases own with
        | crash => exact Or.inr (hcount .wedge)
        | wedge => exact Or.inl (hcount .crash)
      · exact Or.inl (hcount .crash)
  · intro last earlier hruns
    -- the last run has done what a run can do to the files before it
    have hfiles : files = last.files := congrArg filesAfter hruns
    obtain ⟨hspec, before, -, hearlier⟩ := history_step (hruns ▸ List.suffix_rfl :
      last :: earlier <:+ history need runs)
    rw [hfiles]
    rcases hspec with ⟨own, hown, hrestart, hneed, hlock, hcount⟩ |
      ⟨own, hown, hrestart, hcount⟩ | ⟨-, hrestart, hcount⟩
    · refine ⟨fun _ _ => hcount, fun reason hreason => ?_⟩
      obtain rfl : own = reason := Option.some.inj (hrestart.symm.trans hreason)
      rw [hearlier, count_filesAfter, ← hearlier] at hneed
      exact ⟨hlock, hown, hneed⟩
    · refine ⟨fun hhealth hprobe => ?_, fun reason hreason => ?_⟩
      · cases own with
        | crash => exact absurd hhealth hown.1
        | wedge => exact absurd hprobe hown.2.1
      · cases hrestart.symm.trans hreason
    · refine ⟨fun _ _ => hcount, fun reason hreason => ?_⟩
      cases hrestart.symm.trans hreason

/-! ### Frozen counters -/

/-- Both readings of the generation counter succeeded. -/
def Observation.BothRead (obs : Observation) : Prop :=
  ∃ a b, obs.gen1 = .number a ∧ obs.gen2 = .number b

/-- The evidence for a wedge: serving, probe failed, and two readings without an
increase. -/
def Observation.Frozen (obs : Observation) : Prop :=
  obs.health = "200" ∧ obs.probe ≠ "200" ∧
  ∃ a b, obs.gen1 = .number a ∧ obs.gen2 = .number b ∧ b ≤ a

/-- The run adds to the evidence for a wedge: it counts one, or restarts on it. -/
def ExtendsWedge (last : RunRecord) (earlier : List RunRecord) : Prop :=
  last.restart = some .wedge ∨
  last.files.count .wedge = (filesAfter earlier).count .wedge + 1

/-- A wedge restart has frozen counters in the last `need` runs, and a run without both
readings adds nothing to the evidence. -/
def NeverRestartsBusy (need : ℕ) (h : List RunRecord) : Prop :=
  ∀ last earlier, last :: earlier <:+ h →
    (last.restart = some .wedge → need ≤ (last :: earlier).length ∧
      ∀ r ∈ (last :: earlier).take need, r.obs.Frozen) ∧
    (¬ last.obs.BothRead → ¬ ExtendsWedge last earlier)

/-- The runs of a streak are of its kind. -/
theorem classifiedAs_of_mem_streak {reason : Reason} {h : List RunRecord} {n : ℕ}
    (hn : n ≤ streak reason h) {r : RunRecord} (hr : r ∈ h.take n) : r.obs.ClassifiedAs reason := by
  have hprefix := List.prefix_iff_eq_take.mp
    (List.takeWhile_prefix (l := h)
      (fun r => decide (r.obs.ClassifiedAs reason ∧ r.restart = none)))
  -- the streak is a front of the history, so its runs pass the test
  have hmem : r ∈ h.take (streak reason h) := by
    rw [← Nat.min_eq_left hn, ← List.take_take] at hr
    exact List.mem_of_mem_take hr
  rw [streak, ← hprefix] at hmem
  have hkind := List.mem_takeWhile_imp hmem
  exact (decide_eq_true_iff.mp hkind).1

/-- With both readings, a run classified as a wedge has seen a frozen counter. -/
theorem Observation.ClassifiedAs.frozen {obs : Observation} (h : obs.ClassifiedAs .wedge)
    (hread : obs.BothRead) : obs.Frozen := by
  obtain ⟨hhealth, hprobe, hmoving⟩ := h
  obtain ⟨a, b, ha, hb⟩ := hread
  rw [ha, hb] at hmoving
  exact ⟨hhealth, hprobe, a, b, ha, hb, not_lt.mp (of_decide_eq_false hmoving)⟩

/-- Without both readings a failed probe is classified as a wedge. -/
theorem Observation.classifiedAs_of_not_read {obs : Observation} (hhealth : obs.health = "200")
    (hprobe : obs.probe ≠ "200") (hread : ¬ obs.BothRead) : obs.ClassifiedAs .wedge := by
  refine ⟨hhealth, hprobe, ?_⟩
  unfold moving
  split
  · next a b ha hb => exact absurd ⟨a, b, ha, hb⟩ hread
  · rfl

/-- A run adds to the evidence for a wedge exactly when it is classified as one. -/
theorem extendsWedge_iff {need : ℕ} {last : RunRecord} {earlier : List RunRecord}
    (h : RunSpec need last.obs (filesAfter earlier) last.files last.restart) :
    ExtendsWedge last earlier ↔ last.obs.ClassifiedAs .wedge := by
  unfold ExtendsWedge
  rcases h with ⟨own, hown, hrestart, -, -, hcount⟩ | ⟨own, hown, hrestart, hcount⟩ |
    ⟨hneither, hrestart, hcount⟩
  · rw [hrestart, hcount]
    constructor
    · rintro (h | h)
      · exact Option.some.inj h ▸ hown
      · omega
    · intro h
      exact Or.inl (congrArg some (h.unique hown))
  · rw [hrestart, hcount]
    constructor
    · rintro (h | h)
      · cases h
      · cases own with
        | crash => exact absurd h (by simp)
        | wedge => exact hown
    · intro h
      rw [← hown.unique h, if_pos rfl]
      exact Or.inr rfl
  · rw [hrestart, hcount]
    constructor
    · rintro (h | h)
      · cases h
      · omega
    · exact fun h => absurd h (hneither .wedge)

/-- **A wedge restart has a frozen counter behind it exactly when no reading fails**: in
a history the last `need` runs before a wedge restart all saw the counter frozen, and a
run without both readings adds nothing to the evidence, if and only if every run whose
probe failed on a serving model read the counter twice. -/
theorem wedge_restart_iff_readings (need : ℕ) (runs : List Observation) :
    NeverRestartsBusy need (history need runs) ↔
      ∀ obs ∈ runs, obs.health = "200" → obs.probe ≠ "200" → obs.BothRead := by
  constructor
  · intro hnever obs hobs hhealth hprobe
    by_contra hread
    have hrun : ∃ last earlier, last :: earlier <:+ history need runs ∧ last.obs = obs :=
      exists_run hobs
    obtain ⟨last, earlier, hsuffix, rfl⟩ := hrun
    refine (hnever last earlier hsuffix).2 hread ?_
    exact (extendsWedge_iff (history_step hsuffix).1).mpr
      (Observation.classifiedAs_of_not_read hhealth hprobe hread)
  · intro hread last earlier hsuffix
    obtain ⟨hspec, before, hbefore, hearlier⟩ := history_step hsuffix
    -- a run of the history that is classified as a wedge has read the counter twice
    have hfrozen : ∀ r ∈ last :: earlier, r.obs.ClassifiedAs .wedge → r.obs.Frozen := by
      intro r hr hclass
      obtain ⟨later, rest, heq⟩ := List.append_of_mem hr
      have hr : r :: rest <:+ history need runs := by
        refine List.IsSuffix.trans ?_ hsuffix
        rw [heq]
        exact List.suffix_append later (r :: rest)
      obtain ⟨-, before', hbefore', -⟩ := history_step hr
      exact hclass.frozen (hread r.obs (hbefore'.subset List.mem_cons_self) hclass.1 hclass.2.1)
    constructor
    · intro hrestart
      rcases hspec with ⟨own, hown, hown', hneed, -⟩ | ⟨-, -, hnone, -⟩ | ⟨-, hnone, -⟩
      · obtain rfl : own = .wedge := Option.some.inj (hown'.symm.trans hrestart)
        rw [hearlier, count_filesAfter, ← hearlier] at hneed
        have hstreak : streak .wedge earlier ≤ earlier.length := (List.takeWhile_prefix _).length_le
        refine ⟨by rw [List.length_cons]; omega, fun r hr => ?_⟩
        refine hfrozen r (List.mem_of_mem_take hr) ?_
        cases need with
        | zero => cases hr
        | succ n =>
          rcases List.mem_cons.mp hr with rfl | hr
          · exact hown
          · exact classifiedAs_of_mem_streak (Nat.le_of_succ_le_succ hneed) hr
      · cases hnone.symm.trans hrestart
      · cases hnone.symm.trans hrestart
    · intro hunread hextends
      have hclass := (extendsWedge_iff hspec).mp hextends
      exact hunread (hread last.obs (hbefore.subset List.mem_cons_self) hclass.1 hclass.2.1)

/-- A serving model whose probe fails while the metrics endpoint gives nothing. -/
def metricsDown : Observation := ⟨"200", true, .empty, "000", .empty, true⟩

/-- Two such runs in a row restart a model that nothing shows to be frozen. -/
theorem restart_without_readings :
    ¬ NeverRestartsBusy 2 (history 2 [metricsDown, metricsDown]) := by
  intro hnever
  obtain ⟨-, hfrozen⟩ := (hnever _ _ List.suffix_rfl).1 rfl
  obtain ⟨-, -, a, b, ha, -⟩ := hfrozen _ List.mem_cons_self
  cases ha

end Glm52
