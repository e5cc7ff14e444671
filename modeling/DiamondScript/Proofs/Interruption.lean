import DiamondScript.Files.Text
import DiamondScript.Proofs.Siblings
import Mathlib.Logic.Function.Basic

namespace DiamondScript

open Function (update)

inductive Fate where
  | works
  | fails (e : OsError)
  deriving DecidableEq

abbrev Contents := Path → Option (List UInt8)

namespace Effect

def working (files : Contents) : (e : Effect) → e.Answer × Contents
  | .create p => (.ok (), update files p (some []))
  | .write p data => (.ok (), update files p (some data))
  | .sync _ => (.ok (), files)
  | .probe p => ((files p).isSome, files)
  | .rename source target =>
    (files source).elim (.error .notFound, files) fun data =>
      (.ok (), update (update files source none) target (some data))
  | .read p => ((files p).elim (.error .notFound) .ok, files)
  | .makeDirs _ => (.ok (), files)
  | .note _ => ((), files)
  | .print _ => ((), files)

def failing (error : OsError) : (e : Effect) → e.Answer
  | .create _ | .write _ _ | .sync _ | .rename _ _ | .makeDirs _ => .error error
  | .probe _ => false
  | .read _ => .error error
  | .note _ | .print _ => ()

end Effect

/-- The files while a plan is carried out, and what becomes of the steps to come. After the last
of these the process stops. -/
structure Course where
  files : Contents
  fates : List Fate

namespace Course

def handle (e : Effect) : OptionT (StateM Course) e.Answer := do
  match (← get).fates with
  | [] => failure
  | .works :: fates =>
    let (answer, files) := e.working (← get).files
    set (Course.mk files fates)
    return answer
  | .fails error :: fates =>
    set (Course.mk (← get).files fates)
    return e.failing error

/-- Carries out a plan; there is no result if the process stops on the way. -/
def run {α : Type} (job : Job α) (c : Course) : Option (Except Failure α) × Course :=
  (Script.carryOut handle (ExceptT.run job)).run.run c

variable {α : Type} {e : Effect} {next : e.Answer → Job α} {files : Contents} {fates : List Fate}

theorem run_stopped : run (Job.perform e >>= next) ⟨files, []⟩ = (none, ⟨files, []⟩) := rfl

theorem run_works : run (Job.perform e >>= next) ⟨files, .works :: fates⟩ =
    run (next (e.working files).1) ⟨(e.working files).2, fates⟩ := rfl

theorem run_fails {error : OsError} : run (Job.perform e >>= next) ⟨files, .fails error :: fates⟩ =
    run (next (e.failing error)) ⟨files, fates⟩ := rfl

/-- The plan was given up or cut short, with these files left. -/
def Halts {α : Type} (r : Option (Except Failure α) × Course) (files : Contents) : Prop :=
  (∀ a, r.1 ≠ some (.ok a)) ∧ r.2.files = files

end Course

namespace Files

abbrev temporary (path : Path) : Path := Path.sibling path ".tmp"

abbrev backup (path : Path) : Path := Path.sibling path ".bak"

def finish (path : Path) : Job Unit := do
  Job.onPath path (← Job.perform (.rename (temporary path) path))

def replace (path : Path) : Job Unit := do
  if ← Job.perform (.probe path) then
    let _ ← Job.perform (.rename path (backup path))
  finish path

theorem temporary_ne (path : Path) : temporary path ≠ path :=
  Path.sibling_ne (by decide) (by decide)

theorem backup_ne (path : Path) : backup path ≠ path := Path.sibling_ne (by decide) (by decide)

theorem backup_ne_temporary (path : Path) : backup path ≠ temporary path :=
  fun heq => absurd (Path.sibling_injective (by decide) heq) (by decide)

/-- Of the steps to come just the given number work before one that does not. -/
def Breaks (n : Nat) (fates : List Fate) : Prop :=
  ∃ rest, fates = List.replicate n .works ++ rest ∧ rest.head? ≠ some .works

variable {n : Nat} {fates : List Fate} {files files' : Contents} {path : Path} {data : List UInt8}
  {r : Option (Except Failure Unit) × Course}

theorem breaks_works : Breaks (n + 1) (.works :: fates) ↔ Breaks n fates := by
  simp [Breaks, List.replicate_succ]

theorem not_breaks (h : fates.head? ≠ some .works) : ¬ Breaks (n + 1) fates := by
  rintro ⟨rest, rfl, -⟩
  exact h (by simp [List.replicate_succ])

variable (n fates files path data r) in
/-- How the replacement of a file ends, with the given number of steps left before the one that
gives the new content its name. -/
inductive Ends : Prop
  | kept (hbreaks : ¬ Breaks n fates) (halts : ∀ a, r.1 ≠ some (.ok a))
      (hfiles : ∀ q, q ≠ temporary path → r.2.files q = files q)
  | replaced (hbreaks : ¬ Breaks n fates) (done : r.1 = some (.ok ()))
      (holds : r.2.files path = some data)
      (elsewhere : ∀ q, q ≠ path → q ≠ temporary path → q ≠ backup path →
        r.2.files q = files q)
  | lost (hbreaks : Breaks n fates) (halts : ∀ a, r.1 ≠ some (.ok a))
      (hnone : r.2.files path = none) (hbackup : r.2.files (backup path) = files path)
      (htemporary : r.2.files (temporary path) = some data)
      (elsewhere : ∀ q, q ≠ path → q ≠ temporary path → q ≠ backup path →
        r.2.files q = files q)

theorem Ends.of_works (h : Ends n fates files' path data r)
    (hfiles : ∀ q, q ≠ temporary path → files' q = files q) :
    Ends (n + 1) (.works :: fates) files path data r := by
  cases h with
  | kept hbreaks halts hfiles' =>
      exact .kept (mt breaks_works.mp hbreaks) halts fun q hq => (hfiles' q hq).trans (hfiles q hq)
  | replaced hbreaks done holds elsewhere =>
      exact .replaced (mt breaks_works.mp hbreaks) done holds fun q hq ht hb =>
        (elsewhere q hq ht hb).trans (hfiles q ht)
  | lost hbreaks halts hnone hbackup htemporary elsewhere =>
      refine .lost (breaks_works.mpr hbreaks) halts hnone ?_ htemporary fun q hq ht hb =>
        (elsewhere q hq ht hb).trans (hfiles q ht)
      rw [hbackup, hfiles path (temporary_ne path).symm]

theorem Ends.of_step {e : Effect} {k : e.Answer → Job Unit}
    (hfailing : ∀ error, ∃ f, k (e.failing error) = throw f)
    (hfiles : ∀ q, q ≠ temporary path → (e.working files).2 q = files q)
    (h : ∀ fates, Ends n fates (e.working files).2 path data
      (Course.run (k (e.working files).1) ⟨(e.working files).2, fates⟩)) :
    Ends (n + 1) fates files path data (Course.run (Job.perform e >>= k) ⟨files, fates⟩) := by
  rcases fates with _ | ⟨_ | error, fates⟩
  · rw [Course.run_stopped]
    exact .kept (not_breaks nofun) nofun fun _ _ => rfl
  · rw [Course.run_works]
    exact .of_works (h fates) hfiles
  · obtain ⟨f, hf⟩ := hfailing error
    rw [Course.run_fails, hf]
    exact .kept (not_breaks nofun) nofun fun _ _ => rfl

theorem run_finish (fates : List Fate) (h : files (temporary path) = some data) :
    (fates.head? ≠ some .works ∧ Course.Halts (Course.run (finish path) ⟨files, fates⟩) files) ∨
      ∃ rest, fates = .works :: rest ∧ Course.run (finish path) ⟨files, fates⟩ =
        (some (.ok ()), ⟨update (update files (temporary path) none) path (some data), rest⟩) := by
  rcases fates with _ | ⟨_ | error, fates⟩
  · exact .inl ⟨nofun, nofun, rfl⟩
  · refine .inr ⟨fates, rfl, Course.run_works.trans ?_⟩
    simp only [Effect.working, h]
    rfl
  · exact .inl ⟨nofun, nofun, rfl⟩

theorem ends_finish (before : List Fate) (h : files (temporary path) = some data)
    (hbreaks : ¬ Breaks n (before ++ fates)) :
    Ends n (before ++ fates) files path data (Course.run (finish path) ⟨files, fates⟩) := by
  rcases run_finish fates h with ⟨-, halts⟩ | ⟨rest, rfl, hrun⟩
  · exact .kept hbreaks halts.1 fun q _ => congrFun halts.2 q
  · rw [hrun]
    refine .replaced hbreaks rfl (Function.update_self ..) fun q hq ht _ => ?_
    simp only [Function.update_of_ne hq, Function.update_of_ne ht]

/-- The gap: the old file is a backup already, and the new content still waits for its name. -/
theorem ends_renamed {old : List UInt8} (h : files (temporary path) = some data)
    (hold : files path = some old) :
    Ends 2 (.works :: .works :: fates) files path data (Course.run (finish path)
      ⟨update (update files path none) (backup path) (some old), fates⟩) := by
  have htemporary : update (update files path none) (backup path) (some old) (temporary path) =
      some data := by
    rw [Function.update_of_ne (backup_ne_temporary path).symm,
      Function.update_of_ne (temporary_ne path), h]
  rcases run_finish fates htemporary with ⟨hhead, halts, hfiles⟩ | ⟨rest, rfl, hrun⟩
  · refine .lost ⟨fates, rfl, hhead⟩ halts ?_ ?_ ?_ fun q hq _ hb => ?_
    · rw [hfiles, Function.update_of_ne (backup_ne path).symm, Function.update_self]
    · rw [hfiles, Function.update_self, hold]
    · rw [hfiles, htemporary]
    · rw [hfiles, Function.update_of_ne hb, Function.update_of_ne hq]
  · rw [hrun]
    refine .replaced ?_ rfl (Function.update_self ..) fun q hq ht hb => ?_
    · simp [Breaks, List.replicate_succ]
    · simp only [Function.update_of_ne hq, Function.update_of_ne ht, Function.update_of_ne hb]

theorem ends_replace (h : files (temporary path) = some data) (hold : (files path).isSome) :
    Ends 2 fates files path data (Course.run (replace path) ⟨files, fates⟩) := by
  rcases fates with _ | ⟨_ | error, fates⟩
  · exact .kept (not_breaks nofun) nofun fun _ _ => rfl
  · obtain ⟨old, hold⟩ := Option.isSome_iff_exists.mp hold
    have hprobe : Course.run (replace path) ⟨files, .works :: fates⟩ =
        Course.run (Job.perform (.rename path (backup path)) >>= fun _ => finish path)
          ⟨files, fates⟩ := by
      refine Course.run_works.trans ?_
      simp only [Effect.working, hold]
      rfl
    rw [hprobe]
    rcases fates with _ | ⟨_ | error, fates⟩
    · exact .kept (mt breaks_works.mp (not_breaks nofun)) nofun fun _ _ => rfl
    · have hrename : (Effect.rename path (backup path)).working files =
          (.ok (), update (update files path none) (backup path) (some old)) := by
        simp only [Effect.working, hold]
        rfl
      rw [Course.run_works, hrename]
      exact ends_renamed h hold
    · exact ends_finish [.works, .fails error] h (mt breaks_works.mp (not_breaks nofun))
  · exact ends_finish [.fails error] h (not_breaks nofun)

theorem ends_atomicWrite (hold : (files path).isSome) :
    Ends 5 fates files path data (Course.run (atomicWrite path data) ⟨files, fates⟩) := by
  refine .of_step (fun _ => ⟨_, rfl⟩) (fun q hq => Function.update_of_ne hq ..) fun fates => ?_
  refine .of_step (fun _ => ⟨_, rfl⟩) (fun q hq => Function.update_of_ne hq ..) fun fates => ?_
  refine .of_step (fun _ => ⟨_, rfl⟩) (fun q hq => rfl) fun fates => ?_
  refine ends_replace (Function.update_self ..) ?_
  have hpath := (temporary_ne path).symm
  simp only [Effect.working, Function.update_of_ne hpath, hold]

/-- The file holds its old content or the new one, and after an error the old one. -/
def Whole (path : Path) (old data : List UInt8) (r : Option (Except Failure Unit) × Course) :
    Prop :=
  (r.2.files path = some old ∨ r.2.files path = some data) ∧
    ∀ f, r.1 = some (.error f) → r.2.files path = some old

/-- A file that is replaced stays whole, whatever step fails and wherever the process stops, unless
just the step breaks that gives the new content its name, after the old file was made a backup.
Then no file is left in its place, and the old content and the new one lie beside it. -/
theorem atomicWrite_whole (files : Contents) (fates : List Fate) (path : Path)
    (old data : List UInt8) (r : Option (Except Failure Unit) × Course)
    (hold : files path = some old) (hr : Course.run (atomicWrite path data) ⟨files, fates⟩ = r) :
    (Whole path old data r ↔ ¬ Breaks 5 fates) ∧
    (Breaks 5 fates → r.2.files path = none ∧ r.2.files (backup path) = some old ∧
      r.2.files (temporary path) = some data) ∧
    (r.1 = some (.ok ()) → r.2.files path = some data) ∧
    ∀ q, q ≠ path → q ≠ temporary path → q ≠ backup path → r.2.files q = files q := by
  have hends : Ends 5 fates files path data r := hr ▸ ends_atomicWrite (hold ▸ rfl)
  cases hends with
  | kept hbreaks halts hfiles =>
      have hpath : r.2.files path = some old := (hfiles path (temporary_ne path).symm).trans hold
      exact ⟨⟨fun _ => hbreaks, fun _ => ⟨.inl hpath, fun _ _ => hpath⟩⟩,
        fun h => absurd h hbreaks, fun h => absurd h (halts ()), fun q _ ht _ => hfiles q ht⟩
  | replaced hbreaks done holds elsewhere =>
      refine ⟨⟨fun _ => hbreaks, fun _ => ⟨.inr holds, fun f hf => ?_⟩⟩,
        fun h => absurd h hbreaks, fun _ => holds, elsewhere⟩
      rw [done] at hf
      cases hf
  | lost hbreaks halts hnone hbackup htemporary elsewhere =>
      refine ⟨⟨fun h => ?_, fun h => absurd hbreaks h⟩,
        fun _ => ⟨hnone, hbackup.trans hold, htemporary⟩, fun h => absurd h (halts ()), elsewhere⟩
      rw [Whole, hnone] at h
      rcases h.1 with h | h <;> cases h

def single (path : Path) (data : List UInt8) : Contents := update (fun _ => none) path (some data)

theorem atomicWrite_whole_refused :
    Whole "a/b" [1] [2, 3] (Course.run (atomicWrite "a/b" [2, 3])
      ⟨single "a/b" [1], List.replicate 4 .works ++ [.fails .busy, .works]⟩) :=
  (atomicWrite_whole (single "a/b" [1]) (List.replicate 4 .works ++ [.fails .busy, .works]) "a/b"
    [1] [2, 3] _ rfl rfl).1.mpr (by simp [Breaks, List.replicate_succ])

/-- The last step is refused after the backup was made: an error, and the file is gone. -/
theorem atomicWrite_gap : ¬ Whole "b" [1] [2] (Course.run (atomicWrite "b" [2])
    ⟨single "b" [1], List.replicate 5 .works ++ [.fails .busy]⟩) := by
  have hgone : (Course.run (atomicWrite "b" [2])
      ⟨single "b" [1], List.replicate 5 .works ++ [.fails .busy]⟩).2.files "b" = none := rfl
  intro whole
  have hold := whole.2 (.io "b" .busy) rfl
  rw [hgone] at hold
  cases hold

end Files

end DiamondScript
