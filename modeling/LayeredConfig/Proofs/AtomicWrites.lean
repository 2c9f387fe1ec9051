import LayeredConfig.Proofs.Places
import LayeredConfig.Session.Output

/-! # All or nothing

A text is written to a file as a whole or not at all. Whichever step is refused, the new file beside the path is
removed, and then the tree is as it was; if none is refused, the path leads to the text and nothing else has
changed. What a session writes to a file or to an open stream is rendered before anything is touched.
-/
namespace LayeredConfig

namespace FileTree
variable {t u : FileTree} {device : Device} {path text : String} {temporary directory place : Place}
  {bytes : ByteArray} {step : WriteStep} {ε α β : Type}

/-- One tree has become another in which a path leads to a text that is the only difference. -/
structure Holds (t u : FileTree) (path text : String) : Prop where
  read : u.read path = .ok text
  elsewhere : ∃ place, u.locate path = .ok place ∧ t.isDirectory place = false ∧
    ∀ q, q ≠ place → u.entry? q = t.entry? q
  working : u.working = t.working

/-- Why a text cannot be written to a path: the device refuses a step, or no file can be put beside the path or
moved there. The path is looked at while the new file stands beside it. -/
inductive Refuses (device : Device) (t : FileTree) (path : String) : IoKind → Prop
  | device {step : WriteStep} {kind : IoKind} (h : device.refusal step = some kind) :
    Refuses device t path kind
  | directory {kind : IoKind} (h : t.targetDirectory path = .error kind) : Refuses device t path kind
  | inspect {kind : IoKind} (directory : Place) (bytes : ByteArray) (hd : t.targetDirectory path = .ok directory)
    (h : (t.insert (t.freePlace directory) bytes).inspect path = .error kind) : Refuses device t path kind
  | replace {kind : IoKind} (directory : Place) (bytes : ByteArray) (hd : t.targetDirectory path = .ok directory)
    (h : (t.insert (t.freePlace directory) bytes).replaceable path = .error kind) : Refuses device t path kind

/-! ## Steps

A step that is refused ends the change with what it leaves; otherwise the rest goes on from there.
-/

theorem run_getThe (t : FileTree) : (getThe FileTree : Writing ε FileTree).run.run t = (.ok t, t) := rfl

theorem run_modify (f : FileTree → FileTree) (t : FileTree) :
    (modify f : Writing ε PUnit).run.run t = (.ok ⟨⟩, f t) := rfl

theorem run_look (f : FileTree → Except ε α) (t : FileTree) : (look f : Writing ε α).run.run t = (f t, t) := by
  simp only [look, run_bind, run_getThe]
  cases f t <;> rfl

theorem run_attempt (device : Device) (step : WriteStep) (t : FileTree) :
    (attempt device step).run.run t = match device.refusal step with
      | none => (.ok (), t)
      | some kind => (.error kind, t) := by
  unfold attempt
  cases device.refusal step <;> rfl

theorem run_fill (device : Device) (place : Place) (bytes : ByteArray) (t : FileTree) :
    (fill device place bytes).run.run t = match device.refusal .fill with
      | none => (.ok (), t.insert place bytes)
      | some kind => (.error kind, t.insert place (bytes.extract 0 device.taken)) := by
  unfold fill
  cases device.refusal .fill <;> rfl

theorem run_removingOnFailure (change : Writing IoKind Unit) (t : FileTree) :
    (removingOnFailure temporary change).run.run t = match change.run.run t with
      | (.ok (), u) => (.ok (), u)
      | (.error kind, u) => (.error kind, u.erase temporary) := by
  simp only [removingOnFailure, ExceptT.run_mk, StateT.run_bind]
  cases change.run.run t with
  | mk r u => cases r <;> rfl

theorem run_adapt (x : Writing IoKind Unit) (f : IoKind → Error) (t : FileTree) :
    (x.adapt f).run.run t = match x.run.run t with
      | (.ok (), u) => (.ok (), u)
      | (.error kind, u) => (.error (f kind), u) := by
  change ((x.run.run t).1.mapError f, (x.run.run t).2) = _
  cases x.run.run t with
  | mk r u => cases r <;> rfl

theorem look_then {f : FileTree → Except IoKind α} {rest : α → Writing IoKind β}
    {P : Except IoKind β × FileTree → Prop} (hfail : ∀ kind, f t = .error kind → P (.error kind, t))
    (hgo : ∀ a, f t = .ok a → P ((rest a).run.run t)) : P ((look f >>= rest).run.run t) := by
  rw [run_bind, run_look]
  cases hf : f t with
  | ok a => exact hgo a hf
  | error kind => exact hfail kind hf

theorem attempt_then {rest : Unit → Writing IoKind β} {P : Except IoKind β × FileTree → Prop}
    (hfail : ∀ kind, device.refusal step = some kind → P (.error kind, t)) (hgo : P ((rest ()).run.run t)) :
    P ((attempt device step >>= rest).run.run t) := by
  rw [run_bind, run_attempt]
  cases hstep : device.refusal step with
  | none => exact hgo
  | some kind => exact hfail kind hstep

/-- What becomes of a tree with a new file when that is filled and moved: the file is at its path, or still where it
was, with some of the bytes. -/
def Moves (device : Device) (t : FileTree) (path text : String) (temporary : Place) :
    Except IoKind Unit × FileTree → Prop
  | (.ok (), u) => t.Holds u path text
  | (.error kind, u) => Refuses device t path kind ∧ ∃ bytes, u = t.insert temporary bytes

/-- A file that stands beside the path comes to stand where the path leads. -/
theorem holds_of_replaceable (htemporary : temporary ≠ []) (hfree : t.entry? temporary = none)
    (hi : (t.insert temporary bytes).inspect path = .ok ())
    (hr : (t.insert temporary bytes).replaceable path = .ok place) :
    t.Holds (t.insert place text.toUTF8) path text := by
  obtain ⟨_,last,directory,-,-,-,-,hlast,hd⟩ := replaceable_eq_ok hr
  have hplace : place ≠ [] := by simp [← hlast]
  have hplaced : t.isDirectory place = false := by
    rwa [isDirectory_insert_of_free htemporary hfree] at hd
  have hdirs : ∀ p, (t.insert temporary bytes).isDirectory p = true →
      (t.insert place text.toUTF8).isDirectory p = true := by
    intro p hp
    rw [isDirectory_insert_of_free htemporary hfree] at hp
    have hne : p ≠ place := by
      rintro rfl
      simp [hplaced] at hp
    rw [isDirectory_insert hplace, if_neg hne, hp]
  have hentry : entry? (t.insert place text.toUTF8) place = some (.file text.toUTF8) := by
    rw [entry?_insert hplace, if_pos rfl]
  have hlocate : (t.insert place text.toUTF8).locate path = .ok place := by
    refine locate_of_replaceable hi hr rfl hdirs ?_
    rw [hentry]
    rfl
  refine ⟨?_, ⟨place, hlocate, hplaced, fun q hq => ?_⟩, rfl⟩
  · have htext : String.fromUTF8? text.toUTF8 = some text := dif_pos text.isValidUTF8
    simp only [read, hlocate, hentry, htext, bind, Except.bind]
  · rw [entry?_insert hplace, if_neg hq]

theorem fillAndMove_moves (device : Device) (text : String) (hd : t.targetDirectory path = .ok directory) :
    t.Moves device path text (t.freePlace directory)
      ((fillAndMove device (t.freePlace directory) path text.toUTF8).run.run
        (t.insert (t.freePlace directory) .empty)) := by
  have hfilled : ∀ {bytes}, (t.insert (t.freePlace directory) .empty).insert (t.freePlace directory) bytes =
      t.insert (t.freePlace directory) bytes := insert_insert
  rw [fillAndMove, run_bind, run_fill]
  cases hfill : device.refusal .fill with
  | some kind => exact ⟨.device hfill, _, hfilled⟩
  | none =>
    simp only [hfilled]
    refine attempt_then (fun kind h => ⟨.device h, _, rfl⟩) ?_
    refine look_then (fun kind h => ⟨.inspect directory _ hd h, _, rfl⟩) fun _ hinspect => ?_
    refine attempt_then (fun kind h => ⟨.device h, _, rfl⟩) ?_
    refine attempt_then (fun kind h => ⟨.device h, _, rfl⟩) ?_
    refine look_then (fun kind h => ⟨.replace directory _ hd h, _, rfl⟩) fun place hreplace => ?_
    change t.Holds (((t.insert _ _).erase _).insert place _) path text
    rw [erase_insert freePlace_ne_nil entry?_freePlace]
    exact holds_of_replaceable freePlace_ne_nil entry?_freePlace hinspect hreplace

def Writes (device : Device) (t : FileTree) (path text : String) : Except IoKind Unit × FileTree → Prop
  | (.ok (), u) => t.Holds u path text
  | (.error kind, u) => Refuses device t path kind ∧ u = t

theorem writeAtomic_writes (device : Device) (t : FileTree) (path text : String) :
    t.Writes device path text ((writeAtomic device path text).run.run t) := by
  unfold writeAtomic
  refine look_then (fun kind h => ⟨.directory h, rfl⟩) fun directory hd => ?_
  refine attempt_then (fun kind h => ⟨.device h, rfl⟩) ?_
  have hmoves := fillAndMove_moves device text hd
  simp only [run_bind, run_getThe, run_modify, run_removingOnFailure]
  rcases hrun : (fillAndMove device (t.freePlace directory) path text.toUTF8).run.run
      (t.insert (t.freePlace directory) .empty) with ⟨r,u⟩
  rw [hrun] at hmoves
  cases r with
  | ok done => exact hmoves
  | error kind =>
    obtain ⟨hkind,bytes,rfl⟩ := hmoves
    exact ⟨hkind, erase_insert freePlace_ne_nil entry?_freePlace⟩

example : (writeAtomic .reliable "a.json" "true").run.run ⟨[], []⟩ =
    (.ok (), ⟨[(["a.json"], .file "true".toUTF8)], []⟩) := by rfl

-- the device takes one byte and refuses the others
example : (writeAtomic ⟨fun step => if step = .fill then some .resourceBusy else none, 1⟩ "a.json" "true").run.run
    ⟨[], []⟩ = (.error .resourceBusy, ⟨[], []⟩) := by rfl

end FileTree

namespace Session
variable {σ : Type}

/-- What writing to a file comes to: the path holds what was rendered, or the tree is as it was, because there was
nothing to write or it could not be written. -/
def WritesFile (s : Session) (device : Device) (t : FileTree) (path format : String) :
    Except Error Unit × FileTree → Prop
  | (.ok (), u) => ∃ text, s.render (fileFormat path format) = .ok text ∧ t.Holds u path text
  | (.error e, u) => u = t ∧
    ((∃ cause, s.render (fileFormat path format) = .error cause ∧ e = .context path cause) ∨
      ∃ text kind, s.render (fileFormat path format) = .ok text ∧ t.Refuses device path kind ∧
        e = .outputFile path ⟨kind, none⟩)

inductive Takes (sink : Sink σ) : String → σ → σ → Prop where
  | empty {state : σ} : Takes sink "" state state
  | write {text : String} {state taken : σ} : text ≠ "" → (sink text).run state = (.ok (), taken) →
      Takes sink text state taken

inductive Fails (sink : Sink σ) (flush : StateM σ (Except IoError Unit)) (text : String) (state : σ) :
    IoError → σ → Prop where
  | write {cause : IoError} {after : σ} : text ≠ "" → (sink text).run state = (.error cause, after) →
      Fails sink flush text state cause after
  | flush {cause : IoError} {taken after : σ} : Takes sink text state taken →
      flush.run taken = (.error cause, after) → Fails sink flush text state cause after

/-- What writing to a stream comes to: it has taken all that was rendered, or refused it, or nothing was rendered and
nothing has happened to it. -/
def WritesStream (s : Session) (sink : Sink σ) (flush : StateM σ (Except IoError Unit)) (format : String) (state : σ) :
    Except Error Unit × σ → Prop
  | (.ok (), after) => ∃ text taken, s.render (if format = "" then defaultOutputFormat else format) = .ok text ∧
    Takes sink text state taken ∧ flush.run taken = (.ok (), after)
  | (.error e, after) =>
    (s.render (if format = "" then defaultOutputFormat else format) = .error e ∧ after = state) ∨
    ∃ text cause, s.render (if format = "" then defaultOutputFormat else format) = .ok text ∧
      Fails sink flush text state cause after ∧ e = .write cause

theorem renderToFile_writesFile (s : Session) (device : Device) (t : FileTree) (path format : String) :
    s.WritesFile device t path format (perform (s.renderToFile device path format) t) := by
  rw [renderToFile, perform_bind, perform, FileTree.run_look]
  cases hrender : s.render (fileFormat path format) with
  | error cause => exact ⟨rfl, .inl ⟨cause, hrender, rfl⟩⟩
  | ok text =>
    have hwrites := FileTree.writeAtomic_writes device t path text
    simp only [labelled, perform, FileTree.run_adapt]
    rcases hrun : (FileTree.writeAtomic device path text).run.run t with ⟨r,u⟩
    rw [hrun] at hwrites
    cases r with
    | ok done => exact ⟨text, hrender, hwrites⟩
    | error kind => exact ⟨hwrites.2, .inr ⟨text, kind, hrender, hwrites.1, rfl⟩⟩

/-- Writing a text ends with the flush of a stream that has taken it, or fails. -/
theorem run_writeAll (sink : Sink σ) (flush : StateM σ (Except IoError Unit)) (text : String) (state : σ) :
    (∃ taken, Takes sink text state taken ∧ (writeAll sink flush text).run state = flush.run taken) ∨
      ∃ cause after, Fails sink flush text state cause after ∧
        (writeAll sink flush text).run state = (.error cause, after) := by
  unfold writeAll
  by_cases htext : text = ""
  · subst htext
    exact .inl ⟨state, .empty, rfl⟩
  · rw [if_neg htext, StateT.run_bind]
    rcases hsink : (sink text).run state with ⟨r,after⟩
    cases r with
    | ok done => exact .inl ⟨after, .write htext hsink, rfl⟩
    | error cause => exact .inr ⟨cause, after, .write htext hsink, rfl⟩

theorem sendTo_writesStream (s : Session) (sink : Sink σ) (flush : StateM σ (Except IoError Unit)) (format : String)
    (state : σ) : s.WritesStream sink flush format state ((s.sendTo sink format flush).run state) := by
  unfold sendTo
  cases hrender : s.renderForStream format with
  | error e => exact .inl ⟨hrender, rfl⟩
  | ok text =>
    simp only [StateT.run_bind]
    rcases run_writeAll sink flush text state with ⟨taken,htaken,hrun⟩ | ⟨cause,after,hfails,hrun⟩
    · rw [hrun]
      rcases hflush : flush.run taken with ⟨r,after⟩
      cases r with
      | ok done => exact ⟨text, taken, hrender, htaken, hflush⟩
      | error cause => exact .inr ⟨text, cause, hrender, .flush htaken hflush, rfl⟩
    · rw [hrun]
      exact .inr ⟨text, cause, hrender, hfails, rfl⟩

/-- A session writes all or nothing, to a file and to a stream. -/
theorem writes_all_or_nothing (s : Session) (path format : String) (device : Device) (t : FileTree)
    (sink : Sink σ) (flush : StateM σ (Except IoError Unit)) (state : σ) :
    s.WritesFile device t path format (perform (s.renderToFile device path format) t) ∧
      s.WritesStream sink flush format state ((s.sendTo sink format flush).run state) :=
  ⟨s.renderToFile_writesFile device t path format, s.sendTo_writesStream sink flush format state⟩

end Session
end LayeredConfig
