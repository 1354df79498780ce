import Velocity.Lib.Steps

/-! The rotation of the log file (`log/file/logger.go`). -/

namespace Log

/-- A log call: its date, and which of the operations on the disk would succeed. -/
structure Call where
  date : String
  body : String
  mkdirAll : Bool
  chmodDir : Bool
  openFile : Bool
  chmodFile : Bool

def Call.succeeds (c : Call) : Bool := c.mkdirAll && c.chmodDir && c.openFile && c.chmodFile

/-- With the handles that are open, by number and date of their file, and the lines on the disk. -/
structure FileLogger where
  file : Option Nat := none
  date : String := ""
  closed : Bool := false
  handles : Nat := 0
  openFiles : List (Nat × String) := []
  written : List (String × String) := []

namespace FileLogger

/-- Closing a closed file fails. -/
def closeFile (f : FileLogger) : Bool × FileLogger :=
  match f.file with
  | none => (true, f)
  | some n =>
    (f.openFiles.any fun h => h.1 = n, { f with openFiles := f.openFiles.filter fun h => h.1 ≠ n })

def ensureFile (f : FileLogger) (c : Call) : Bool × FileLogger :=
  if f.date = c.date ∧ f.file ≠ none then (true, f)
  else
    let r := f.closeFile
    let f := r.2
    if !r.1 then (false, f)
    else if !c.mkdirAll then (false, f)
    else if !c.chmodDir then (false, f)
    else if !c.openFile then (false, f)
    else if !c.chmodFile then (false, { f with handles := f.handles + 1 })
    else (true, { f with
      file := some f.handles
      date := c.date
      handles := f.handles + 1
      openFiles := (f.handles, c.date) :: f.openFiles })

/-- `Fprintln`, whose error is not looked at. -/
def print (f : FileLogger) (body : String) : FileLogger :=
  match f.file.bind fun n => f.openFiles.lookup n with
  | some date => { f with written := f.written ++ [(date, body)] }
  | none => f

def writeLine (f : FileLogger) (c : Call) : FileLogger :=
  if f.closed then f
  else
    let r := f.ensureFile c
    if r.1 then r.2.print c.body else r.2

end FileLogger

open FileLogger

/-- The handle is open, and no other is. -/
structure Sound (f : FileLogger) : Prop where
  closed : f.closed = false
  files : f.openFiles = f.file.toList.map fun n => (n, f.date)

/-- No rotation goes wrong: the file is that of the date, or there is none, or all goes well. -/
abbrev Smooth (f : FileLogger) (c : Call) : Prop :=
  f.file = none ∨ f.date = c.date ∨ c.succeeds = true

variable {f : FileLogger} {c : Call}

theorem Sound.closeFile (h : Sound f) : f.closeFile = (true, { f with openFiles := [] }) := by
  have hfiles := h.files
  obtain ⟨file, date, closed, handles, openFiles, written⟩ := f
  simp only at hfiles
  subst hfiles
  cases file with
  | none => rfl
  | some n => simp [FileLogger.closeFile]

theorem Sound.print (h : Sound f) (hfile : f.file ≠ none) (body : String) :
    f.print body = { f with written := f.written ++ [(f.date, body)] } := by
  obtain ⟨n, hn⟩ := Option.ne_none_iff_exists'.mp hfile
  simp [FileLogger.print, hn, h.files]

theorem Sound.writeLine (h : Sound f) (hc : Smooth f c) : Sound (f.writeLine c) ∧
    (c.succeeds = true → (f.writeLine c).written = f.written ++ [(c.date, c.body)]) := by
  rw [FileLogger.writeLine, if_neg (by simp [h.closed])]
  by_cases hsame : f.date = c.date ∧ f.file ≠ none
  · rw [ensureFile, if_pos hsame]
    simp only [if_true, h.print hsame.2, hsame.1]
    exact ⟨⟨h.closed, hsame.1 ▸ h.files⟩, fun _ => trivial⟩
  · rw [ensureFile, if_neg hsame, h.closeFile]
    by_cases hok : c.succeeds = true
    · have hflags := hok
      simp only [Call.succeeds, Bool.and_eq_true] at hflags
      simp only [hflags, Bool.not_true, Bool.false_eq_true, if_false]
      have hnew : Sound { f with
          file := some f.handles, date := c.date, handles := f.handles + 1
          openFiles := [(f.handles, c.date)] } := ⟨h.closed, rfl⟩
      rw [if_pos trivial, hnew.print (by simp)]
      exact ⟨⟨h.closed, rfl⟩, fun _ => rfl⟩
    · have hnone : f.file = none := by
        rcases hc with hn | hd | hs
        · exact hn
        · simpa [hd] using hsame
        · exact absurd hs hok
      have hkeep : ∀ n, Sound { f with openFiles := [], handles := n } := fun n =>
        ⟨h.closed, by simp [hnone]⟩
      refine ⟨?_, fun hs => absurd hs hok⟩
      simp only [Call.succeeds, Bool.and_eq_true] at hok
      split_ifs <;> simp_all

theorem logger_recovers {calls : List Call}
    (h : ∀ x ∈ Steps.steps writeLine {} calls, Smooth x.1 x.2) :
    (∀ x ∈ Steps.steps writeLine {} calls, x.2.succeeds = true →
      (x.1.writeLine x.2).written = x.1.written ++ [(x.2.date, x.2.body)]) ∧
    (Steps.run writeLine {} calls).openFiles.length ≤ 1 := by
  have hrun := Steps.invariant (P := Smooth)
    (I := fun f past => Sound f ∧ ∀ x ∈ past, x.2.succeeds = true →
      (x.1.writeLine x.2).written = x.1.written ++ [(x.2.date, x.2.body)]) ?_ ⟨⟨rfl, rfl⟩, by simp⟩ h
  · refine ⟨hrun.2, ?_⟩
    rw [hrun.1.files, List.length_map]
    cases (Steps.run writeLine {} calls).file <;> simp
  · rintro f past c ⟨hf, hpast⟩ hc
    obtain ⟨hf', hwritten⟩ := hf.writeLine hc
    refine ⟨hf', fun x hx => ?_⟩
    rcases List.mem_append.mp hx with hx | hx
    · exact hpast x hx
    · obtain rfl := List.mem_singleton.mp hx
      exact hwritten

/-- The directory cannot be made on the first day, and is there on the next. -/
def madeLate : List Call :=
  [⟨"2026-01-01", "a", false, true, true, true⟩, ⟨"2026-01-02", "b", true, true, true, true⟩]

theorem logger_recovers_first : (Steps.run writeLine {} madeLate).written = [("2026-01-02", "b")] ∧
    (Steps.run writeLine {} madeLate).openFiles.length ≤ 1 :=
  ⟨by decide, (logger_recovers (by decide)).2⟩

/-- The rotation that failed has closed the file, and no later call gets past closing it again. -/
theorem rotation_poisons : (Steps.run writeLine {}
    [⟨"2026-01-01", "a", true, true, true, true⟩, ⟨"2026-01-02", "b", false, true, true, true⟩,
      ⟨"2026-01-02", "c", true, true, true, true⟩]).written = [("2026-01-01", "a")] := by
  decide

end Log
