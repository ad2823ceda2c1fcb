import NoMercyRecomp.HandEditSteps

/-!
# Runs of the hand edits

A run takes out the two retired edits and then makes the registered ones, each on its file
as the edits before it left it. An edit that fails leaves its file as it was. Most failures
are collected and the run goes on to the next edit; a missing file and a failure of a camera
hook end it. In both cases the exit status is not zero.

The run is followed for each file through the tasks that remain: the pieces of the file are
read with the retired lines already taken out.
-/

namespace NoMercyRecomp.HandEdits

open TextScan Recompiled GeneratedFile

/-! ## Files of a directory -/

/-- The lines of the file of that name. -/
def fileOf (name : Line) : List Line → List (List Line) → Option (List Line)
  | own :: names, file :: files => if own = name then some file else fileOf name names files
  | _, _ => none

/-- Without the file, or where the edit fails, nothing is saved. By induction on the names, along
with the files. -/
theorem editFile_fails (name : Line) (edit : List Line → Option (List Line)) (names : List Line)
    (files : List (List Line))
    (fails : ∀ lines, fileOf name names files = some lines → edit lines = none) :
    editFile name edit names files = none := by
  induction names generalizing files with
  | nil => rfl
  | cons own names inductionHypothesis =>
    cases files with
    | nil => rfl
    | cons file files =>
      rw [fileOf] at fails
      by_cases here : own = name
      · rw [if_pos here] at fails
        simp [editFile, here, fails file rfl]
      · rw [if_neg here] at fails
        simp [editFile, here, inductionHypothesis files fails]

/-- The edited file is saved; the other files are left. A file that is not changed is saved as it
was, so that the files are the same. -/
theorem editFile_saves (name : Line) (edit : List Line → Option (List Line)) (names : List Line)
    (files : List (List Line)) (lines out : List Line) (own : fileOf name names files = some lines)
    (edited : edit lines = some out) :
    ∃ saved, editFile name edit names files = some saved ∧ fileOf name names saved = some out ∧
      (∀ other, other ≠ name → fileOf other names saved = fileOf other names files) ∧
      (out = lines → saved = files) := by
  induction names generalizing files with
  | nil => simp [fileOf] at own
  | cons first names inductionHypothesis =>
    cases files with
    | nil => simp [fileOf] at own
    | cons file files =>
      by_cases here : first = name
      · obtain rfl : file = lines := by simpa [fileOf, here] using own
        refine ⟨out :: files, by simp [editFile, here, edited], by simp [fileOf, here], ?_, ?_⟩
        · intro other different
          have apart : first ≠ other := fun same => different (same.symm.trans here)
          simp [fileOf, apart]
        · rintro rfl
          rfl
      · rw [fileOf, if_neg here] at own
        obtain ⟨saved, result, present, others, same⟩ := inductionHypothesis files own
        refine ⟨file :: saved,
          by simp [editFile, here, result], by simp [fileOf, here, present], ?_, ?_⟩
        · intro other different
          rw [fileOf, fileOf, others other different]
        · intro unchanged
          rw [same unchanged]

/-! ## The run -/

/-- A part of `main`: the lines of a retired edit are taken out, or an edit is made. -/
inductive Task
  | retire (file : Line) (strip : List Line → List Line)
  | edit (e : HandEdit)

namespace Task

def file : Task → Line
  | retire file _ => file
  | edit e => e.file

/-- The effect on the lines of the file. -/
def change : Task → List Line → Option (List Line)
  | retire _ strip => fun lines => some (strip lines)
  | edit e => e.apply

/-- Whether a failure ends the run. -/
def stops : Task → List Line → Bool
  | retire _ _ => fun _ => false
  | edit e => e.stops

def edits : Task → List HandEdit
  | retire _ _ => []
  | edit e => [e]

/-- What the task takes out of the file of the name for a retired edit. -/
def takeOut (name : Line) : Task → List Line → List Line
  | retire file strip => fun lines => if file = name then strip lines else lines
  | edit _ => fun lines => lines

/-- Edits of one file have different marks, and follow what is taken out of it. -/
def Precedes : Task → Task → Prop
  | edit d, edit e => d.file = e.file → d.mark ≠ e.mark
  | edit d, retire file _ => d.file ≠ file
  | retire _ _, _ => True

instance : DecidableRel Precedes
  | edit d, edit e => inferInstanceAs (Decidable (d.file = e.file → d.mark ≠ e.mark))
  | edit d, retire file _ => inferInstanceAs (Decidable (d.file ≠ file))
  | retire _ _, edit _ => inferInstanceAs (Decidable True)
  | retire _ _, retire _ _ => inferInstanceAs (Decidable True)

end Task

/-- The files during a run, whether a failure was collected, and whether the run has ended. -/
structure Run where
  files : List (List Line)
  failed : Bool
  stopped : Bool

/-- The exit status. -/
def Run.code (run : Run) : Nat := if run.failed || run.stopped then 1 else 0

/-- Load the file, change it and save it; a failed change is not saved. -/
def step (names : List Line) (run : Run) (task : Task) : Run :=
  if run.stopped then run
  else
    match fileOf task.file names run.files with
    | none => { run with stopped := true }
    | some lines =>
      match editFile task.file task.change names run.files with
      | some files => { run with files := files }
      | none =>
        if task.stops lines then { run with stopped := true } else { run with failed := true }

/-- The tasks of `main` in their order. -/
def tasks : List Task :=
  [.retire (str "funcs_0.c") stripMemsz4, .edit .dcc4, .retire (str "funcs_0.c") stripLatch,
    .edit .rtLatch,
    .edit .rtEmit, .edit .wcwMatrix, .edit .wcwF2l, .edit .wcwResyncNull, .edit .wcwCull]

/-- `main` -/
def readdHandEdits (names : List Line) (files : List (List Line)) : Run :=
  tasks.foldl (step names) { files := files, failed := false, stopped := false }

/-! ## Steps -/

/-- A run exits with zero when no edit failed and none stopped it. -/
theorem Run.code_eq_zero (run : Run) : run.code = 0 ↔ run.failed = false ∧ run.stopped = false := by
  cases failed : run.failed <;> cases stopped : run.stopped <;> simp [Run.code, failed, stopped]

/-- A run that has ended makes no step. -/
theorem step_stopped (names : List Line) (run : Run) (task : Task) (stopped : run.stopped = true) :
    step names run task = run := by
  rw [step, if_pos stopped]

/-- A failing step leaves the files. -/
theorem step_fails (names : List Line) (run : Run) (task : Task)
    (fails : ∀ lines, fileOf task.file names run.files = some lines → task.change lines = none) :
    (step names run task).code ≠ 0 ∧ (step names run task).files = run.files := by
  cases stopped : run.stopped with
  | true =>
    rw [step_stopped names run task stopped]
    simp [Run.code, stopped]
  | false =>
    rw [step, stopped, if_neg Bool.false_ne_true,
      editFile_fails task.file task.change names run.files fails]
    cases fileOf task.file names run.files with
    | none => simp [Run.code]
    | some lines => cases stops : task.stops lines <;> simp [Run.code, stops]

/-- A change that succeeds is saved. -/
theorem step_saves (names : List Line) (run : Run) (task : Task) (lines out : List Line)
    (going : run.stopped = false)
    (own : fileOf task.file names run.files = some lines) (changed : task.change lines = some out) :
    ∃ saved, step names run task = { run with files := saved } ∧
      fileOf task.file names saved = some out ∧
      (∀ other, other ≠ task.file → fileOf other names saved = fileOf other names run.files) ∧
        (out = lines → saved = run.files) := by
  obtain ⟨saved, result, present, others, same⟩ :=
    editFile_saves task.file task.change names run.files lines out own changed
  refine ⟨saved, ?_, present, others, same⟩
  rw [step, going, if_neg Bool.false_ne_true, own, result]

/-- A step after which the run goes on. Its file is there and has been saved or given up; it has
failed unless the task could change the file. -/
theorem step_going (names : List Line) (run : Run) (task : Task)
    (going : (step names run task).stopped = false) :
    run.stopped = false ∧ ∃ lines, fileOf task.file names run.files = some lines ∧
      fileOf task.file names (step names run task).files = some ((task.change lines).getD lines) ∧
      (∀ other, other ≠ task.file →
        fileOf other names (step names run task).files = fileOf other names run.files) ∧
      ((step names run task).failed = false → run.failed = false ∧
        (task.change lines).isSome = true) := by
  have before : run.stopped = false := by
    cases stopped : run.stopped with
    | false => rfl
    | true =>
      rw [step_stopped names run task stopped, stopped] at going
      cases going
  refine ⟨before, ?_⟩
  cases own : fileOf task.file names run.files with
  | none => simp [step, before, own] at going
  | some lines =>
    refine ⟨lines, rfl, ?_⟩
    cases changed : task.change lines with
    | none =>
      have fails : ∀ read, fileOf task.file names run.files = some read →
          task.change read = none := by
        intro read same
        rw [own] at same
        obtain rfl := Option.some.inj same
        exact changed
      obtain ⟨code, files⟩ := step_fails names run task fails
      rw [files]
      refine ⟨own, fun _ _ => rfl, ?_⟩
      intro good
      exact absurd ((Run.code_eq_zero _).mpr ⟨good, going⟩) code
    | some out =>
      obtain ⟨saved, result, present, others, _⟩ :=
        step_saves names run task lines out before own changed
      rw [result]
      exact ⟨present, others, fun good => ⟨good, rfl⟩⟩

/-- A change that is none leaves the run. -/
theorem step_same (names : List Line) (run : Run) (task : Task) (lines : List Line)
    (going : run.stopped = false) (own : fileOf task.file names run.files = some lines)
    (unchanged : task.change lines = some lines) :
    step names run task = run := by
  obtain ⟨saved, result, _, _, same⟩ := step_saves names run task lines lines going own unchanged
  rw [result, same rfl]

/-- A status other than zero stays. -/
theorem steps_code (names : List Line) (todo : List Task) (run : Run) (code : run.code ≠ 0) :
    (todo.foldl (step names) run).code ≠ 0 := by
  induction todo generalizing run with
  | nil => exact code
  | cons task todo inductionHypothesis =>
    apply inductionHypothesis
    intro good
    obtain ⟨failed, stopped⟩ := (Run.code_eq_zero _).mp good
    obtain ⟨before, lines, _, _, _, succeeded⟩ := step_going names run task stopped
    exact code ((Run.code_eq_zero run).mpr ⟨(succeeded failed).1, before⟩)

/-- A run that goes on behind some tasks went on before them. -/
theorem steps_going (names : List Line) (done : List Task) (run : Run)
    (going : (done.foldl (step names) run).stopped = false) : run.stopped = false := by
  induction done generalizing run with
  | nil => exact going
  | cons task done inductionHypothesis =>
    exact (step_going names run task (inductionHypothesis _ going)).1

/-- A run in which nothing has failed behind some tasks had no failure before them. -/
theorem steps_good (names : List Line) (done : List Task) (run : Run)
    (good : (done.foldl (step names) run).failed = false)
    (going : (done.foldl (step names) run).stopped = false) :
    run.failed = false := by
  by_contra failed
  refine steps_code names done run (fun code => failed ((Run.code_eq_zero run).mp code).1) ?_
  exact (Run.code_eq_zero _).mpr ⟨good, going⟩

/-- A run has the same files, those that are edited among them: a task whose file is not there
stops the run. -/
theorem steps_files (names : List Line) (done : List Task) (run : Run)
    (going : (done.foldl (step names) run).stopped = false) :
    (∀ name, (fileOf name names (done.foldl (step names) run).files).isSome =
      (fileOf name names run.files).isSome) ∧
      ∀ task ∈ done, (fileOf task.file names run.files).isSome = true := by
  induction done generalizing run with
  | nil => exact ⟨fun _ => rfl, by simp⟩
  | cons task done inductionHypothesis =>
    obtain ⟨_, lines, own, saved, others, _⟩ :=
      step_going names run task (steps_going names done _ going)
    have same (name : Line) :
        (fileOf name names (step names run task).files).isSome =
          (fileOf name names run.files).isSome := by
      by_cases here : name = task.file
      · rw [here, saved, own]
        rfl
      · rw [others name here]
    obtain ⟨later, present⟩ := inductionHypothesis _ going
    refine ⟨fun name => (later name).trans (same name),
      List.forall_mem_cons.mpr ⟨by simp [own], ?_⟩⟩
    intro other member
    rw [← same]
    exact present other member

/-- A run whose changes are none leaves the files. -/
theorem steps_same (names : List Line) (todo : List Task) (run : Run) (going : run.stopped = false)
    (unchanged : ∀ task ∈ todo, ∃ lines, fileOf task.file names run.files = some lines ∧
      task.change lines = some lines) :
    todo.foldl (step names) run = run := by
  induction todo with
  | nil => rfl
  | cons task todo inductionHypothesis =>
    obtain ⟨lines, own, same⟩ := unchanged task List.mem_cons_self
    rw [List.foldl_cons, step_same names run task lines going own same]
    exact inductionHypothesis (fun later member =>
      unchanged later (List.mem_cons_of_mem task member))

/-- The tasks as `main` has them registered: running them one by one is folding the edits over the
files, as long as none fails. -/
theorem foldlM_steps (names : List Line) (todo : List Task) (files : List (List Line)) :
    (todo.map (fun task => (task.file, task.change))).foldlM (fun files entry =>
      editFile entry.1 entry.2 names files) files =
      if (todo.foldl (step names) { files := files, failed := false, stopped := false }).code =
        0 then
        some (todo.foldl (step names) { files := files, failed := false, stopped := false }).files
      else none := by
  induction todo generalizing files with
  | nil => rfl
  | cons task todo inductionHypothesis =>
    rw [List.map_cons, List.foldlM_cons, List.foldl_cons]
    cases saved : editFile task.file task.change names files with
    | none =>
      have code :
          (step names { files := files, failed := false, stopped := false } task).code ≠ 0 := by
        cases own : fileOf task.file names files with
        | none => simp [step, own, Run.code]
        | some lines => cases stops : task.stops lines <;> simp [step, own, saved, stops, Run.code]
      exact (if_neg (steps_code names todo _ code)).symm
    | some after =>
      have next : step names { files := files, failed := false, stopped := false } task =
          { files := after, failed := false, stopped := false } := by
        cases own : fileOf task.file names files with
        | none =>
          have missing := editFile_fails task.file task.change names files (by simp [own])
          rw [missing] at saved
          cases saved
        | some lines => simp [step, own, saved]
      rw [next]
      exact inductionHypothesis after

/-- `main` gives the files of a run that exits with zero. -/
theorem main_readdHandEdits (names : List Line) (files : List (List Line)) :
    HandEdits.main names files =
      if (readdHandEdits names files).code = 0 then some (readdHandEdits names files).files
        else none :=
  foldlM_steps names tasks files

/-! ## A file during a run -/

/-- The file as it is once the remaining tasks have taken out the retired lines. -/
def pending (todo : List Task) (name : Line) (lines : List Line) : List Line :=
  todo.foldl (fun lines task => task.takeOut name lines) lines

/-- Behind an edit of the file nothing is taken out of it: retirements of the file come before its
edits, and other tasks leave it alone. -/
theorem pending_edit (e : HandEdit) (todo : List Task) (lines : List Line)
    (order : ∀ later ∈ todo, Task.Precedes (.edit e) later) :
    pending (.edit e :: todo) e.file lines = lines := by
  rw [pending, List.foldl_cons, Task.takeOut]
  induction todo with
  | nil => rfl
  | cons task todo inductionHypothesis =>
    have same : task.takeOut e.file lines = lines := by
      cases task with
      | retire file strip =>
        have different : e.file ≠ file := order _ List.mem_cons_self
        exact if_neg different.symm
      | edit d => rfl
    rw [List.foldl_cons, same]
    exact inductionHypothesis (fun later member => order later (List.mem_cons_of_mem task member))

/-- What is known of a file after edits; those of the file stand in it when none failed. -/
structure Follows (edits : List HandEdit) (name : Line) (good : Bool) (file after : List Piece) :
    Prop where
  carries : Carries edits name file after
  stands : good = true → ∀ e ∈ edits, e.file = name → Applied e (funcs after)

/-- A step of the run, for one file. A retirement takes what is pending from the file; an edit of
the file leaves it as it was or makes its block stand, and other tasks do not touch it. -/
theorem task_step (names : List Line) (run : Run) (task : Task) (todo : List Task)
    (known : ∀ e ∈ task.edits, e ∈ registered) (order : ∀ later ∈ todo, task.Precedes later)
    (going : (step names run task).stopped = false) (name : Line) (lines : List Line)
    (own : fileOf name names run.files = some lines) (file : List Piece)
    (shape : pending (task :: todo) name lines = render file) (generated : Generated file)
    (settled : ∀ e ∈ task.edits, e.file = name → Fresh e file ∨ Applied e (funcs file)) :
    ∃ next after, fileOf name names (step names run task).files = some next ∧
      pending todo name next = render after ∧
      Follows task.edits name (!(step names run task).failed) file after := by
  obtain ⟨_, read, present, saved, others, succeeded⟩ := step_going names run task going
  by_cases here : task.file = name
  · obtain rfl := here
    obtain rfl : read = lines := Option.some.inj (present.symm.trans own)
    refine ⟨(task.change read).getD read, ?_⟩
    cases task with
    | retire taken strip =>
      refine ⟨file, saved, ?_, Carries.refl _ _ file generated, ?_⟩
      · simpa [pending, Task.takeOut, Task.file, Task.change] using shape
      · intro _ e member
        cases member
    | edit e =>
      have member : e ∈ registered := known e List.mem_cons_self
      rw [show pending (.edit e :: todo) (Task.edit e).file read = read from
        pending_edit e todo read order] at shape
      obtain ⟨after, result, carries, stands⟩ :=
        edit_step e member file generated (settled e List.mem_cons_self rfl)
      have later (next : List Line) : pending todo e.file next = next := by
        have whole := pending_edit e todo next order
        rwa [pending, List.foldl_cons] at whole
      refine ⟨after, saved, ?_, carries, ?_⟩
      · rw [shape]
        exact (later _).trans result
      · intro good d inEdits _
        obtain rfl : d = e := List.mem_singleton.mp inEdits
        apply stands
        rw [← shape]
        exact (succeeded (by simpa using good)).2
  · refine ⟨lines, file, (others name (Ne.symm here)).trans own, ?_,
      Carries.refl _ _ file generated, ?_⟩
    · have same : task.takeOut name lines = lines := by
        cases task with
        | retire taken strip => exact if_neg here
        | edit e => rfl
      rwa [pending, List.foldl_cons, same] at shape
    · intro _ e member target
      cases task with
      | retire taken strip => cases member
      | edit d =>
        obtain rfl : e = d := List.mem_singleton.mp member
        exact absurd target here

/-- The steps of a run, for one file, by induction from the last task: the file carries what the
tasks so far have left in it, and what later ones retire is still pending. -/
theorem tasks_run (names : List Line) (done todo : List Task) (run : Run)
    (known : ∀ task ∈ done, ∀ e ∈ task.edits, e ∈ registered)
    (order : (done ++ todo).Pairwise Task.Precedes)
    (going : (done.foldl (step names) run).stopped = false) (name : Line) (lines : List Line)
    (own : fileOf name names run.files = some lines) (file : List Piece)
    (shape : pending (done ++ todo) name lines = render file) (generated : Generated file)
    (settled : ∀ e ∈ done.flatMap Task.edits, e.file = name → Fresh e file ∨
      Applied e (funcs file)) :
    ∃ next after, fileOf name names (done.foldl (step names) run).files = some next ∧
      pending todo name next = render after ∧
        Follows (done.flatMap Task.edits) name
          (!(done.foldl (step names) run).failed) file after := by
  induction done generalizing run lines file with
  | nil => exact ⟨lines, file, own, shape, Carries.refl _ _ file generated, by simp⟩
  | cons task done inductionHypothesis =>
    rw [List.cons_append, List.pairwise_cons] at order
    rw [List.foldl_cons] at going
    have first := steps_going names done _ going
    obtain ⟨next, middle, present, rest, follows⟩ := task_step names run task (done ++ todo)
      (known task List.mem_cons_self) order.1 first name lines own file shape generated
      (fun e member => settled e (by simp [member]))
    -- a later edit of the file has another mark, and finds the file settled
    have settled' : ∀ e ∈ done.flatMap Task.edits, e.file = name → Fresh e middle ∨
        Applied e (funcs middle) := by
      intro e member target
      obtain ⟨later, inDone, inEdits⟩ := List.mem_flatMap.mp member
      have isRegistered := known later (List.mem_cons_of_mem task inDone) e inEdits
      have apart : ∀ d ∈ task.edits, d.file = name → d.mark ≠ e.mark := by
        intro d inTask same
        have precedes := order.1 later (List.mem_append_left todo inDone)
        cases task with
        | retire taken strip => cases inTask
        | edit d' =>
          cases later with
          | retire taken strip => cases inEdits
          | edit e' =>
            obtain rfl : d = d' := List.mem_singleton.mp inTask
            obtain rfl : e = e' := List.mem_singleton.mp inEdits
            exact precedes (same.trans target.symm)
      rcases settled e (by simp [member]) target with fresh | applied
      · exact Or.inl (follows.carries.fresh e isRegistered target apart fresh)
      · exact Or.inr (follows.carries.applied e isRegistered target applied)
    obtain ⟨last, after, present', rest', follows'⟩ := inductionHypothesis _
      (fun later member =>
        known later (List.mem_cons_of_mem task member)) order.2 going next present middle rest
      follows.carries.generated settled'
    refine ⟨last, after, present', rest', ?_, ?_⟩
    · rw [List.flatMap_cons]
      exact follows.carries.trans follows'.carries
    · intro good e member target
      rw [List.flatMap_cons, List.mem_append] at member
      rcases member with inTask | inDone
      · have wasGood : (step names run task).failed = false :=
          steps_good names done _ (by simpa using good) going
        exact follows'.carries.applied e (known task List.mem_cons_self e inTask) target
          (follows.stands (by simp [wasGood]) e inTask target)
      · exact follows'.stands good e inDone target

/-! ## Whole runs -/

/-- The tasks make the registered edits, in their order. -/
theorem tasks_edits : tasks.flatMap Task.edits = registered := rfl

/-- A task makes registered edits only. -/
theorem tasks_known (task : Task) (_ : task ∈ tasks) (e : HandEdit) (inTask : e ∈ task.edits) :
    e ∈ registered := by
  rw [← tasks_edits]
  exact List.mem_flatMap.mpr ⟨task, ‹_›, inTask⟩

/-- Old blocks are retired before the edits that follow them in a file. -/
theorem tasks_order : tasks.Pairwise Task.Precedes := by decide +kernel

/-- The file without the lines of the retired edits. -/
def retired (name : Line) (lines : List Line) : List Line :=
  if name = str "funcs_0.c" then stripLatch (stripMemsz4 lines) else lines

/-- What all tasks retire in a file is what the run retires there. -/
theorem pending_tasks (name : Line) (lines : List Line) :
    pending tasks name lines = retired name lines := by
  by_cases here : str "funcs_0.c" = name
  · simp [pending, tasks, Task.takeOut, retired, here]
  · simp [pending, tasks, Task.takeOut, retired, here, Ne.symm here]

/-- A generated file as a run may find it, without its retired lines. -/
structure Sound (name : Line) (file : List Piece) : Prop where
  generated : Generated file
  latches : name = str "funcs_0.c" → marked oldLatch (render file) = false
  settled : ∀ e ∈ registered, e.file = name → Fresh e file ∨ Applied e (funcs file)

/-- Generated files, in which each registered edit is not there yet or stands in its
function. -/
def GeneratedTree (names : List Line) (files : List (List Line)) : Prop :=
  ∀ name lines, fileOf name names files = some lines → ∃ file, retired name lines = render file ∧
    Sound name file

/-- The files that are edited are there after a run that exits with zero. -/
theorem readdHandEdits_files (names : List Line) (files : List (List Line))
    (code : (readdHandEdits names files).code = 0)
    (task : Task) (member : task ∈ tasks) : ∃ lines, fileOf task.file names files = some lines := by
  obtain ⟨_, going⟩ := (Run.code_eq_zero _).mp code
  exact Option.isSome_iff_exists.mp ((steps_files names tasks _ going).2 task member)

/-- Each file after a run that exits with zero follows all registered edits: it is the file
without the retired blocks, with the blocks of the edits in it. -/
theorem readdHandEdits_file (names : List Line) (files : List (List Line))
    (tree : GeneratedTree names files) (code : (readdHandEdits names files).code = 0) (name : Line)
    (lines : List Line) (own : fileOf name names files = some lines) :
    ∃ file after, retired name lines = render file ∧ Sound name file ∧
      fileOf name names (readdHandEdits names files).files = some (render after) ∧
        Follows registered name true file after := by
  obtain ⟨good, going⟩ := (Run.code_eq_zero _).mp code
  obtain ⟨file, shape, sound⟩ := tree name lines own
  have shape' : pending (tasks ++ []) name lines = render file := by
    rw [List.append_nil, pending_tasks, shape]
  have order : (tasks ++ []).Pairwise Task.Precedes := by
    rw [List.append_nil]
    exact tasks_order
  obtain ⟨next, after, present, rest, follows⟩ :=
    tasks_run names tasks [] _ tasks_known order going name lines own file
    shape' sound.generated (fun e member => sound.settled e (tasks_edits ▸ member))
  obtain rfl : next = render after := rest
  rw [show (tasks.foldl (step names) { files := files, failed := false, stopped := false }).failed =
    false from good, tasks_edits] at follows
  exact ⟨file, after, shape, sound, present, follows⟩

/-- The retired probe leaves no mark. -/
theorem stripMemsz4_unmarked (lines : List Line) :
    marked (str "[nomercy][memsz4]") (stripMemsz4 lines) = false := by
  rw [stripMemsz4]
  split
  · rw [unmarked_iff]
    intro line member
    have kept := (List.mem_filter.mp member).2
    simp only [Bool.and_eq_true, Bool.not_eq_true'] at kept
    exact kept.1
  · rename_i unmarked
    simpa using unmarked

/-- Retiring the old latch adds no line. -/
theorem stripLatch_subset (lines : List Line) : stripLatch lines ⊆ lines := by
  rw [stripLatch, List.span_eq_takeWhile_dropWhile]
  have tail : (lines.dropWhile (fun line => !occurs oldLatch line)) ⊆ lines :=
    (List.dropWhile_sublist _).subset
  cases found : lines.dropWhile (fun line => !occurs oldLatch line) with
  | nil => exact List.Subset.refl _
  | cons first rest =>
    rw [found] at tail
    dsimp only
    apply List.append_subset.mpr
    exact ⟨(List.takeWhile_sublist _).subset, List.Subset.trans (List.drop_subset 3 _) tail⟩

/-- Without its mark there is no probe to retire. -/
theorem stripMemsz4_same (lines : List Line)
    (unmarked : marked (str "[nomercy][memsz4]") lines = false) :
    stripMemsz4 lines = lines := by
  rw [stripMemsz4, unmarked]
  rfl

/-- Without its mark there is no latch to retire. -/
theorem stripLatch_same (lines : List Line) (unmarked : marked oldLatch lines = false) :
    stripLatch lines = lines := by
  have none : lines.dropWhile (fun line => !occurs oldLatch line) = [] := by
    rw [List.dropWhile_eq_nil_iff]
    intro line member
    simp [(unmarked_iff oldLatch lines).mp unmarked line member]
  rw [stripLatch, List.span_eq_takeWhile_dropWhile, none]

/-- A second run finds nothing to change: every task leaves its file as it is, since blocks that
stand are recognised and retired ones are gone. -/
theorem readdHandEdits_again (names : List Line) (files : List (List Line))
    (tree : GeneratedTree names files) (code : (readdHandEdits names files).code = 0) :
    readdHandEdits names (readdHandEdits names files).files =
      { files := (readdHandEdits names files).files, failed := false, stopped := false } := by
  apply steps_same names tasks _ rfl
  intro task member
  obtain ⟨lines, own⟩ := readdHandEdits_files names files code task member
  obtain ⟨file, after, shape, sound, present, follows⟩ :=
    readdHandEdits_file names files tree code task.file lines own
  refine ⟨render after, present, ?_⟩
  have generated := follows.carries.generated
  have edited (e : HandEdit) (inTask : task = .edit e) :
      task.change (render after) = some (render after) := by
    subst inTask
    have known := tasks_known _ member e List.mem_cons_self
    exact (follows.stands rfl e known rfl).apply (registered_lawful e known) generated
  have stripped (mark : Line) (isRetired : mark ∈ retiredMarks)
      (before : marked mark (render file) = false) : marked mark (render after) = false :=
    follows.carries.retired mark isRetired before
  simp only [tasks, List.mem_cons, List.not_mem_nil, or_false] at member
  rcases member with rfl | rfl | rfl | rfl | rfl | rfl | rfl | rfl | rfl
  · have unmarked : marked (str "[nomercy][memsz4]") (render file) = false := by
      rw [← shape, retired, Task.file, if_pos rfl, unmarked_iff]
      intro line inside
      exact (unmarked_iff _ _).mp (stripMemsz4_unmarked lines) line (stripLatch_subset _ inside)
    exact congrArg some (stripMemsz4_same _ (stripped _ List.mem_cons_self unmarked))
  · exact edited _ rfl
  · have unmarked : marked oldLatch (render file) = false := sound.latches rfl
    exact congrArg some
      (stripLatch_same _ (stripped _ (List.mem_cons_of_mem _ List.mem_cons_self) unmarked))
  · exact edited _ rfl
  · exact edited _ rfl
  · exact edited _ rfl
  · exact edited _ rfl
  · exact edited _ rfl
  · exact edited _ rfl

/-- The file of an edit when its turn comes: what other edits have left in it is still generated,
and the edit is as fresh in it, or as well applied, as it was at first. -/
theorem edit_turn (names : List Line) (files : List (List Line)) (tree : GeneratedTree names files)
    (before later : List Task) (e : HandEdit) (turn : tasks = before ++ .edit e :: later)
    (run : Run) (reached : run =
      before.foldl (step names) { files := files, failed := false, stopped := false })
    (going : run.stopped = false) (lines : List Line)
    (read : fileOf e.file names run.files = some lines) :
    ∃ original file after, fileOf e.file names files = some original ∧
      retired e.file original = render file ∧
      Sound e.file file ∧ lines = render after ∧ Generated after ∧ (Fresh e file → Fresh e after) ∧
        (Applied e (funcs file) → Applied e (funcs after)) ∧
        (Ready e (funcs after) ↔ Ready e (funcs file)) := by
  subst reached
  have same := (steps_files names before _ going).1 e.file
  rw [read] at same
  cases own : fileOf e.file names files with
  | none => simp [own] at same
  | some original =>
    obtain ⟨file, shape, sound⟩ := tree e.file original own
    have order := tasks_order
    rw [turn] at order
    have known (task : Task) (member : task ∈ before) : ∀ d ∈ task.edits, d ∈ registered :=
      tasks_known task (turn ▸ List.mem_append_left _ member)
    have inTasks : e ∈ registered := tasks_known (.edit e) (turn ▸ by simp) e List.mem_cons_self
    have shape' : pending (before ++ .edit e :: later) e.file original = render file := by
      rw [← turn, pending_tasks, shape]
    obtain ⟨next, after, present, rest, follows⟩ :=
      tasks_run names before (.edit e :: later) _ known order going e.file
      original own file shape' sound.generated (fun d member => sound.settled d (by
        obtain ⟨task, inBefore, inTask⟩ := List.mem_flatMap.mp member
        exact known task inBefore d inTask))
    rw [List.pairwise_append, List.pairwise_cons] at order
    obtain ⟨_, ⟨behind, _⟩, across⟩ := order
    rw [pending_edit e later next behind] at rest
    have now : lines = render after := (Option.some.inj (read.symm.trans present)).trans rest
    have apart : ∀ d ∈ before.flatMap Task.edits, d.file = e.file → d.mark ≠ e.mark := by
      intro d member same
      obtain ⟨task, inBefore, inTask⟩ := List.mem_flatMap.mp member
      have precedes := across task inBefore (.edit e) List.mem_cons_self
      cases task with
      | retire taken strip => cases inTask
      | edit d' =>
        obtain rfl : d = d' := List.mem_singleton.mp inTask
        exact precedes same
    exact ⟨original, file, after, rfl, shape, sound, now, follows.carries.generated,
      follows.carries.fresh e inTasks rfl apart, follows.carries.applied e inTasks rfl,
      follows.carries.ready e inTasks rfl apart⟩

/-- An edit that is not there and not ready fails when its turn comes: its file has neither its
mark nor its anchors, as the tasks before it bring in neither. -/
theorem edit_refused (names : List Line) (files : List (List Line))
    (tree : GeneratedTree names files)
    (before later : List Task) (e : HandEdit) (turn : tasks = before ++ .edit e :: later)
    (unready : ∀ lines, fileOf e.file names files = some lines →
      marked e.mark (retired e.file lines) = false ∧ ¬ Ready e (functions (retired e.file lines)))
    (run : Run) (reached : run =
      before.foldl (step names) { files := files, failed := false, stopped := false })
    (going : run.stopped = false) (lines : List Line)
    (read : fileOf e.file names run.files = some lines) :
    e.apply lines = none := by
  obtain ⟨original, file, after, own, shape, sound, rfl, generated, fresh, _, ready⟩ :=
    edit_turn names files tree before later e turn run reached going lines read
  obtain ⟨unmarked, notReady⟩ := unready original own
  rw [shape] at unmarked notReady
  rw [functions_render file sound.generated.shaped] at notReady
  have known : e ∈ registered := tasks_known (.edit e) (turn ▸ by simp) e List.mem_cons_self
  apply (registered_lawful e known).fails after generated (fresh unmarked)
  exact fun isReady => notReady (ready.mp isReady)

instance (e : HandEdit) (functions : List GenFunc) : Decidable (Ready e functions) :=
  inferInstanceAs (Decidable (∃ f ∈ functions, f.name = e.func ∧ e.requires f.body = true))

/-- An edit stands in its function, or the function has its anchors as often as required. -/
def Can (e : HandEdit) (functions : List GenFunc) : Prop := Applied e functions ∨ Ready e functions

/-- A run over a generated tree exits with zero when each edit stands or is ready. By induction on
the tasks: none before an edit takes from it what it needs. -/
theorem readdHandEdits_succeeds (names : List Line) (files : List (List Line))
    (tree : GeneratedTree names files)
    (present : ∀ task ∈ tasks, ∃ lines, fileOf task.file names files = some lines)
    (can : ∀ e ∈ registered, ∀ lines, fileOf e.file names files = some lines →
      Can e (functions (retired e.file lines))) : (readdHandEdits names files).code = 0 := by
  have turns (before later : List Task) (whole : tasks = before ++ later) :
      (before.foldl (step names) { files := files, failed := false, stopped := false }).code =
        0 := by
    induction before using List.reverseRecOn generalizing later with
    | nil => rfl
    | append_singleton before task inductionHypothesis =>
      rw [List.append_assoc, List.singleton_append] at whole
      obtain ⟨good, going⟩ := (Run.code_eq_zero _).mp (inductionHypothesis (task :: later) whole)
      rw [List.foldl_append, List.foldl_cons, List.foldl_nil]
      generalize reached :
        before.foldl (step names) { files := files, failed := false, stopped := false } = run
        at good going ⊢
      have inTasks : task ∈ tasks := whole ▸ by simp
      obtain ⟨lines, read⟩ : ∃ lines, fileOf task.file names run.files = some lines := by
        rw [← Option.isSome_iff_exists, ← reached, (steps_files names before _ (reached ▸ going)).1]
        exact Option.isSome_iff_exists.mpr (present task inTasks)
      have changes : ∃ out, task.change lines = some out := by
        cases task with
        | retire taken strip => exact ⟨strip lines, rfl⟩
        | edit e =>
          obtain ⟨original, file, after, own, shape, sound, rfl, generated, fresh, applied,
              ready⟩ :=
            edit_turn names files tree before later e whole run reached.symm going lines read
          have known := tasks_known (.edit e) inTasks e List.mem_cons_self
          have could := can e known original own
          rw [shape, functions_render file sound.generated.shaped] at could
          apply Option.isSome_iff_exists.mp
          exact edit_succeeds e known after generated
            ((sound.settled e known rfl).imp fresh applied)
            (could.imp applied ready.mpr)
      obtain ⟨out, changed⟩ := changes
      obtain ⟨saved, result, _⟩ := step_saves names run task lines out going read changed
      rw [result]
      exact (Run.code_eq_zero _).mpr ⟨good, going⟩
  exact turns tasks [] (List.append_nil tasks).symm

/-- On a generated tree a run that exits with zero leaves each registered edit in its function
once, keeps the other functions but for the lines of the retired edits, and a second run
changes nothing. An edit that is not there, and whose function is missing or has its anchors
another number of times, makes the status nonzero and leaves its file. -/
theorem readdHandEdits_composes (names : List Line) (files : List (List Line))
    (tree : GeneratedTree names files) :
    ((readdHandEdits names files).code = 0 →
      (∀ e ∈ registered, ∃ lines, fileOf e.file names (readdHandEdits names files).files =
        some lines ∧ ∃ f ∈ functions lines, f.name = e.func ∧ Once e.block f.body) ∧
      (∀ name lines, fileOf name names files = some lines →
        ∃ after, fileOf name names (readdHandEdits names files).files = some after ∧
          (functions after).filter (other name) = (functions (retired name lines)).filter
            (other name)) ∧ readdHandEdits names (readdHandEdits names files).files =
        { files := (readdHandEdits names files).files, failed := false, stopped := false }) ∧
    ∀ before e later, tasks = before ++ .edit e :: later →
      (∀ lines, fileOf e.file names files = some lines →
        marked e.mark (retired e.file lines) = false ∧
      ¬ Ready e (functions (retired e.file lines))) → (readdHandEdits names files).code ≠ 0 ∧
        ∀ run, run = before.foldl
          (step names) { files := files, failed := false, stopped := false } →
          (step names run (.edit e)).files = run.files := by
  refine ⟨fun code => ⟨?_, ?_, readdHandEdits_again names files tree code⟩, ?_⟩
  · intro e member
    have inTasks : Task.edit e ∈ tasks := by
      rw [← tasks_edits] at member
      obtain ⟨task, inTasks, inTask⟩ := List.mem_flatMap.mp member
      cases task with
      | retire taken strip => cases inTask
      | edit d =>
        obtain rfl : e = d := List.mem_singleton.mp inTask
        exact inTasks
    obtain ⟨lines, own⟩ := readdHandEdits_files names files code (.edit e) inTasks
    obtain ⟨file, after, _, _, present, follows⟩ :=
      readdHandEdits_file names files tree code e.file lines own
    obtain ⟨f, inFile, named, placed⟩ := follows.stands rfl e member rfl
    refine ⟨render after, present, f, ?_, named, placed.once (registered_lawful e member)⟩
    rw [functions_render after follows.carries.generated.shaped]
    exact inFile
  · intro name lines own
    obtain ⟨file, after, shape, sound, present, follows⟩ :=
      readdHandEdits_file names files tree code name lines own
    refine ⟨render after, present, ?_⟩
    rw [functions_render after follows.carries.generated.shaped, shape,
      functions_render file sound.generated.shaped]
    exact follows.carries.others
  · intro before e later turn unready
    have refused := edit_refused names files tree before later e turn unready
    have whole : (readdHandEdits names files) = later.foldl (step names)
        (step names (before.foldl
            (step names) { files := files, failed := false, stopped := false }) (.edit e)) := by
      rw [readdHandEdits, turn, List.foldl_append, List.foldl_cons]
    rw [whole]
    generalize before.foldl (step names) { files := files, failed := false, stopped := false } =
      run at refused ⊢
    cases stopped : run.stopped with
    | true =>
      rw [step_stopped names run _ stopped]
      refine ⟨steps_code names later run (by simp [Run.code, stopped]), ?_⟩
      rintro _ rfl
      rw [step_stopped names _ _ stopped]
    | false =>
      obtain ⟨code, same⟩ := step_fails names run (.edit e) (refused run rfl stopped)
      refine ⟨steps_code names later _ code, ?_⟩
      rintro _ rfl
      exact same

/-! ## Two trees -/

/-- A function with the given body. -/
def sampleFunc (name : Line) (body : List Line) : Piece :=
  .func { name := name, tail := [], body := body, close := [';', '\x7d'] }

/-- The first line of a generated file. -/
def preamble : Piece := .text (str "#include \"recomp.h\"")

/-- The edited functions, with the given text in the files of the camera and of the matrix hook. -/
def sampleTree (latch texts : List Line) : List (Line × List Piece) :=
  [(str "funcs_0.c", [preamble, sampleFunc (str "func_80001580") (c1cs :: latch),
    sampleFunc (str "func_80001E08") [c1cs]]),
    (str "funcs_1.c", [preamble,
      sampleFunc (str "func_800024F8") [wcwCullXLoad, wcwCullCompare, wcwCullCompare],
      sampleFunc (str "func_80002FA4") [str "    func_80002BB4(rdram, ctx);"]]),
    (str "funcs_10.c",
      [preamble, sampleFunc (str "func_80022CEC") [str "    func_80021B10(rdram, ctx);"]]),
    (str "funcs_16.c", preamble ::
      (texts.map Piece.text ++ [sampleFunc (str "func_80038880") [c1cs]])),
    (str "funcs_55.c", [preamble, sampleFunc (str "func_8011DCC4") [c1cs]])]

/-- A tree as it is generated. -/
def freshTree : List (Line × List Piece) := sampleTree [] []

/-- A tree with the camera latch at its old place. -/
def olderTree : List (Line × List Piece) :=
  sampleTree [str "    \x7b /* [nomercy][rt] camera latch: a1 = P, a2 = V */",
    str "      extern void wcw_rt_latch_camera(uint8_t* rdram);",
    str "      wcw_rt_latch_camera(rdram); \x7d"] []

/-- A tree with the declarations of the matrix hook and without its call. -/
def strayTree : List (Line × List Piece) := sampleTree [] wcwF2lDecls

def treeNames (tree : List (Line × List Piece)) : List Line := tree.map Prod.fst

def treeFiles (tree : List (Line × List Piece)) : List (List Line) :=
  tree.map (fun entry => render entry.2)

/-- A file that is found in a tree is one of its entries. -/
theorem fileOf_tree (name : Line) (tree : List (Line × List Piece)) (lines : List Line)
    (own : fileOf name (treeNames tree) (treeFiles tree) = some lines) :
    ∃ entry ∈ tree, entry.1 = name ∧ render entry.2 = lines := by
  induction tree with
  | nil => cases own
  | cons entry tree inductionHypothesis =>
    by_cases here : entry.1 = name
    · exact ⟨entry, List.mem_cons_self, here,
        by simpa [treeNames, treeFiles, fileOf, here] using own⟩
    · have later : fileOf name (treeNames tree) (treeFiles tree) = some lines := by
        simpa [treeNames, treeFiles, fileOf, here] using own
      obtain ⟨found, member, known⟩ := inductionHypothesis later
      exact ⟨found, List.mem_cons_of_mem entry member, known⟩

/-- The file of the name as it is generated. -/
def freshFile (name : Line) : List Piece :=
  ((freshTree.find? (fun entry => entry.1 = name)).map Prod.snd).getD []

/-- The two trees are generated: every file is one of shaped pieces, with the functions of the
edits in it. -/
theorem sampleTrees_generated (tree : List (Line × List Piece))
    (sample : tree ∈ [freshTree, olderTree]) :
    GeneratedTree (treeNames tree) (treeFiles tree) := by
  have retires : ∀ tree ∈ [freshTree, olderTree], ∀ entry ∈ tree,
      retired entry.1 (render entry.2) = render (freshFile entry.1) := by
    decide +kernel
  have shaped : ∀ tree ∈ [freshTree, olderTree], ∀ entry ∈ tree, Generated (freshFile entry.1) := by
    decide +kernel
  have unmarked : ∀ tree ∈ [freshTree, olderTree],
      ∀ entry ∈ tree, ∀ mark ∈ oldLatch :: registered.map HandEdit.mark,
      marked mark (render (freshFile entry.1)) = false := by
    decide +kernel
  intro name lines own
  obtain ⟨entry, member, rfl, rfl⟩ := fileOf_tree name tree lines own
  have none := unmarked tree sample entry member
  refine ⟨freshFile entry.1, retires tree sample entry member, shaped tree sample entry member, ?_,
    ?_⟩
  · exact fun _ => none oldLatch List.mem_cons_self
  · intro e inEdits _
    exact Or.inl (none e.mark (List.mem_cons_of_mem _ (List.mem_map_of_mem inEdits)))

/-- A run on either tree exits with zero. -/
theorem sampleTrees_exit (tree : List (Line × List Piece))
    (sample : tree ∈ [freshTree, olderTree]) :
    (readdHandEdits (treeNames tree) (treeFiles tree)).code = 0 := by
  have present : ∀ tree ∈ [freshTree, olderTree], ∀ task ∈ tasks,
      (fileOf task.file (treeNames tree) (treeFiles tree)).isSome = true := by
    decide +kernel
  have ready : ∀ tree ∈ [freshTree, olderTree], ∀ e ∈ registered,
      ∀ lines ∈ (fileOf e.file (treeNames tree) (treeFiles tree)).toList,
      Ready e (functions (retired e.file lines)) := by
    decide +kernel
  apply readdHandEdits_succeeds _ _ (sampleTrees_generated tree sample)
  · exact fun task member => Option.isSome_iff_exists.mp (present tree sample task member)
  · exact fun e member lines own => Or.inr (ready tree sample e member lines (by simp [own]))

/-- On a fresh tree all edits are made, each once. -/
theorem freshTree_edited : (readdHandEdits (treeNames freshTree) (treeFiles freshTree)).code = 0 ∧
    ∀ e ∈ registered, ∃ lines,
      fileOf e.file (treeNames freshTree)
        (readdHandEdits (treeNames freshTree) (treeFiles freshTree)).files = some lines ∧
        ∃ f ∈ functions lines, f.name = e.func ∧ Once e.block f.body := by
  have code := sampleTrees_exit freshTree List.mem_cons_self
  have generated := sampleTrees_generated freshTree List.mem_cons_self
  exact ⟨code, ((readdHandEdits_composes _ _ generated).1 code).1⟩

/-- A run that exits with zero takes the old latch out of a function that no edit targets, and
leaves an edit out whose mark stands outside its function. -/
theorem marks_elsewhere :
    ((∀ entry ∈ olderTree, Generated entry.2) ∧
      (readdHandEdits (treeNames olderTree) (treeFiles olderTree)).code = 0 ∧
      ∃ lines after, fileOf (str "funcs_0.c") (treeNames olderTree) (treeFiles olderTree) =
        some lines ∧
        fileOf (str "funcs_0.c") (treeNames olderTree)
          (readdHandEdits (treeNames olderTree) (treeFiles olderTree)).files = some after ∧
        (functions after).filter (other (str "funcs_0.c")) ≠ (functions lines).filter
          (other (str "funcs_0.c"))) ∧
    (∀ entry ∈ strayTree, Generated entry.2) ∧
      (readdHandEdits (treeNames strayTree) (treeFiles strayTree)).code = 0 ∧
      fileOf (str "funcs_16.c") (treeNames strayTree)
        (readdHandEdits (treeNames strayTree) (treeFiles strayTree)).files =
        fileOf (str "funcs_16.c") (treeNames strayTree) (treeFiles strayTree) := by
  have sample : olderTree ∈ [freshTree, olderTree] := List.mem_cons_of_mem _ List.mem_cons_self
  have code := sampleTrees_exit olderTree sample
  obtain ⟨file, after, shape, sound, present, follows⟩ :=
    readdHandEdits_file _ _ (sampleTrees_generated olderTree sample)
    code (str "funcs_0.c") (render ((olderTree.map Prod.snd).headD [])) rfl
  refine ⟨⟨by decide +kernel, code, _, render after, rfl, present, ?_⟩,
    by decide +kernel, by decide +kernel⟩
  rw [functions_render after follows.carries.generated.shaped, follows.carries.others,
    ← functions_render file sound.generated.shaped, ← shape]
  decide +kernel

end NoMercyRecomp.HandEdits
