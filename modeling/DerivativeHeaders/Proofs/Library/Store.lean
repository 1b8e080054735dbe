import DerivativeHeaders.Proofs.Files.Disk
import DerivativeHeaders.Proofs.Header.Embedded

/-! # A library as a store

Headers are written to the files of a library and read from them, in any order. A disk keeps what
was written last to each file and is otherwise as it was at first, so a read gives back the header
of the last write.
-/
namespace DerivativeHeaders

open Outcome

/-- Writing neither makes folders nor takes them away, so a path leads to the same place all the
time. -/
theorem Disk.resolve_congr {d d' : Disk} {path : String} {p : Path}
    (hworking : d'.working = d.working)
    (hfolders : ∀ q, d'.entry? q = some .folder ↔ d.entry? q = some .folder) :
    d'.resolve path = .ok p ↔ d.resolve path = .ok p :=
  ⟨resolve_of_folders hworking.symm fun q => (hfolders q).mp, resolve_of_folders hworking fun q =>
    (hfolders q).mpr⟩

namespace Library

/-- A header that a library gives back as it is: no word of it is a keyword. -/
structure Storable (h : Header) : Prop where
  constructed : h.IsConstructed
  name : isReserved h.name = false
  words : h.AvoidsKeywords

theorem Storable.exists_fileText {h : Header} (hs : Storable h) :
    ∃ text, fileText h = .ok text ∧ Header.ofText text = .ok h := by
  have hc := hs.constructed.isChecked
  obtain ⟨printed, -, -, text, htext, hprinted⟩ := Header.exists_isPrintedIn hc hs.words
  exact ⟨text, htext, hprinted.ofText_eq hc hs.name⟩

inductive Step where
  | write (h : Header) (l : Location)
  | read (l : Location)

inductive Answer where
  | written (path : String)
  | header (h : Header)

/-- What a step does to files. -/
def Step.act {m : Type → Type} [Monad m] [Files m] : Step → ExceptT Fault m Answer
  | write h l => .written <$> Library.write h l
  | read l => .header <$> Library.read l

/-- A step, with the disk before it and what came of it. -/
structure Event where
  step : Step
  before : Disk
  answer : Except Fault Answer
  after : Disk

def Step.run (x : Step) (d : Disk) : Event :=
  let (answer, d') := (x.act : ExceptT Fault (StateM Disk) Answer).run.run d
  ⟨x, d, answer, d'⟩

/-- The events of steps that are done one after the other. -/
def history (d : Disk) : List Step → List Event
  | [] => []
  | x :: xs => x.run d :: history (x.run d).after xs

/-- The place of the file that a step has written, with the header. -/
def Event.written? (e : Event) : Option (Path × Header) :=
  match e.step, e.answer with
  | .write h l, .ok _ => (e.before.resolve l.path).toOption.map (·, h)
  | _, _ => none

/-- The header that was written last to a place. -/
def lastWritten? (p : Path) (past : List Event) : Option Header :=
  (past.filterMap Event.written?).reverse.lookup p

variable {d d' : Disk} {past future : List Event} {e : Event} {x : Step} {steps : List Step}
  {h : Header} {l : Location}
  {p q : Path} {text : String}

theorem written?_of_resolve (hp : d.resolve l.path = .ok p) (answer : Answer) :
    Event.written? ⟨.write h l, d, .ok answer, d'⟩ = some (p, h) := by
  simp only [Event.written?, hp]
  rfl

theorem lastWritten?_concat_some (hwritten : e.written? = some (q, h)) :
    lastWritten? p (past ++ [e]) = if p = q then some h else lastWritten? p past := by
  rw [lastWritten?, List.filterMap_append, List.filterMap_cons_some hwritten, List.reverse_append]
  by_cases hpq : p = q
  · simp [hpq]
  · simp [List.lookup_cons, beq_false_of_ne hpq, hpq, lastWritten?]

theorem lastWritten?_concat_none (hwritten : e.written? = none) :
    lastWritten? p (past ++ [e]) = lastWritten? p past := by
  rw [lastWritten?, List.filterMap_append, List.filterMap_cons_none hwritten, List.filterMap_nil,
    List.append_nil, lastWritten?]

theorem run_write_eq (htext : fileText h = .ok text) (l : Location) (d : Disk) :
    (Step.write h l).run d = match d.write l.path text with
    | .ok d' => ⟨.write h l, d, .ok (.written l.path), d'⟩
    | .error cause => ⟨.write h l, d, .error (.file l.path cause), d⟩ := by
  rw [Step.run, Step.act, ExceptT.run_map, StateT.run_map, run_write, htext]
  cases hwrite : d.write l.path text <;> simp only [hwrite] <;> rfl

def readAnswer (l : Location) (d : Disk) : Except Fault Answer :=
  match (d.read l.path).bind Files.decode with
  | .ok text => .header <$> Header.ofText text
  | .error cause => .error (.file l.path cause)

theorem run_read_eq (l : Location) (d : Disk) :
    (Step.read l).run d = ⟨.read l, d, readAnswer l d, d⟩ := by
  rw [Step.run, Step.act, ExceptT.run_map, StateT.run_map, run_read, readAnswer]
  cases (d.read l.path).bind Files.decode <;> rfl

/-- A write goes to a file, or makes one in a folder, or else changes nothing. -/
theorem run_write_cases (htext : fileText h = .ok text) (l : Location) (d : Disk) :
    (∃ p, d.resolve l.path = .ok p ∧ d.entry? p ≠ some .folder ∧
      (Step.write h l).run d =
      ⟨.write h l, d, .ok (.written l.path), d.put p (.file text.toUTF8)⟩) ∨
      (∀ p, d.resolve l.path = .ok p → d.entry? p = some .folder) ∧
      ∃ cause, (Step.write h l).run d = ⟨.write h l, d, .error (.file l.path cause), d⟩ := by
  rw [run_write_eq htext]
  cases hwrite : d.write l.path text with
  | ok d' =>
    obtain ⟨p, hp, hfolder, rfl⟩ := Disk.write_eq_ok_iff.mp hwrite
    exact .inl ⟨p, hp, hfolder, rfl⟩
  | error cause =>
    refine .inr ⟨fun p hp => ?_, cause, rfl⟩
    by_contra hfolder
    rw [Disk.write_eq_ok_iff.mpr ⟨p, hp, hfolder, rfl⟩] at hwrite
    cases hwrite

/-- The answer and the effect of a step are those of a store that began with the disk `d`. Places
are those that paths lead to on that disk. -/
structure Event.IsStoreStep (d : Disk) (past : List Event) (e : Event) : Prop where
  /-- A read gives the header that was written last to its place. -/
  read_written : ∀ {l p h}, e.step = .read l → d.resolve l.path = .ok p →
    lastWritten? p past = some h → e.answer = .ok (.header h)
  /-- Where nothing was written, it gives what it gave at first. -/
  read_unwritten : ∀ {l p}, e.step = .read l → d.resolve l.path = .ok p →
    lastWritten? p past = none → e.answer = readAnswer l d
  /-- A path that has never led to anything cannot be read. -/
  read_missing : ∀ {l}, e.step = .read l →
    (∀ p, d.resolve l.path = .ok p → d.entry? p = none ∧ lastWritten? p past = none) →
    ∃ cause, e.answer = .error (.file l.path cause)
  /-- A write succeeds where there is a file, and where there is nothing yet in a folder. -/
  write : ∀ {h l}, e.step = .write h l →
    (∃ p, d.resolve l.path = .ok p ∧ d.entry? p ≠ some .folder ∧ e.answer = .ok (.written l.path) ∧
      e.written? = some (p, h)) ∨
    (∀ p, d.resolve l.path = .ok p → d.entry? p = some .folder) ∧
      ∃ cause, e.answer = .error (.file l.path cause)
  /-- A place is changed by a write to it only. -/
  frame : ∀ q, (∀ h, e.written? ≠ some (q, h)) → e.after.entry? q = e.before.entry? q
  failed : ∀ {fault}, e.answer = .error fault → e.after = e.before
  read : ∀ {l}, e.step = .read l → e.after = e.before

/-- The disk `d'` is the disk `d` with the headers in it that were written since. -/
structure Keeps (d : Disk) (past : List Event) (d' : Disk) : Prop where
  working : d'.working = d.working
  written : ∀ {p h}, lastWritten? p past = some h →
    d.entry? p ≠ some .folder ∧ ∃ text, Header.ofText text = .ok h ∧
    d'.entry? p = some (.file text.toUTF8)
  unwritten : ∀ {p}, lastWritten? p past = none → d'.entry? p = d.entry? p

namespace Keeps

theorem nil (d : Disk) : Keeps d [] d := ⟨rfl, nofun, fun _ => rfl⟩

theorem folder_iff (hk : Keeps d past d') (q : Path) :
    d'.entry? q = some .folder ↔ d.entry? q = some .folder := by
  cases hq : lastWritten? q past with
  | none => rw [hk.unwritten hq]
  | some h =>
    obtain ⟨hfolder, text, -, hentry⟩ := hk.written hq
    rw [hentry]
    exact iff_of_false nofun hfolder

theorem resolve_iff (hk : Keeps d past d') {path : String} :
    d'.resolve path = .ok p ↔ d.resolve path = .ok p :=
  Disk.resolve_congr hk.working hk.folder_iff

/-- A header is added to the disk that is written to a place without a folder. -/
theorem put (hk : Keeps d past d') (hp : d.entry? p ≠ some .folder)
    (htext : Header.ofText text = .ok h)
    (hwritten : e.written? = some (p, h)) :
    Keeps d (past ++ [e]) (d'.put p (.file text.toUTF8)) := by
  have hne := Disk.ne_nil_of_ne_folder hp
  refine ⟨hk.working, fun {q h'} hq => ?_, fun {q} hq => ?_⟩
  · rw [lastWritten?_concat_some hwritten] at hq
    rw [Disk.entry?_put hne]
    split at hq
    · rename_i heq
      subst heq
      obtain rfl := Option.some.inj hq
      exact ⟨hp, text, htext, if_pos rfl⟩
    · rename_i hqp
      rw [if_neg hqp]
      exact hk.written hq
  · rw [lastWritten?_concat_some hwritten] at hq
    rw [Disk.entry?_put hne]
    split at hq
    · cases hq
    · rename_i hqp
      rw [if_neg hqp]
      exact hk.unwritten hq

theorem skip (hk : Keeps d past d') (hwritten : e.written? = none) : Keeps d (past ++ [e]) d' := by
  refine ⟨hk.working, fun {p h} hp => ?_, fun {p} hp => ?_⟩
  · rw [lastWritten?_concat_none hwritten] at hp
    exact hk.written hp
  · rw [lastWritten?_concat_none hwritten] at hp
    exact hk.unwritten hp

end Keeps

theorem Keeps.write (hk : Keeps d past d') (hs : Storable h) (l : Location) :
    Keeps d (past ++ [(Step.write h l).run d']) ((Step.write h l).run d').after ∧
      ((Step.write h l).run d').IsStoreStep d past := by
  obtain ⟨text, htext, hread⟩ := hs.exists_fileText
  rcases run_write_cases htext l d' with ⟨p, hp, hfolder, hrun⟩ | ⟨hfolders, cause, hrun⟩
  · rw [hrun]
    have hp' := hk.resolve_iff.mp hp
    have hfolder' := (hk.folder_iff p).not.mp hfolder
    refine ⟨hk.put hfolder' hread (written?_of_resolve hp _), nofun, nofun, nofun, ?_,
      fun q hq => ?_, nofun, nofun⟩
    · rintro _ _ ⟨⟩
      exact .inl ⟨p, hp', hfolder', rfl, written?_of_resolve hp _⟩
    · have hqp : q ≠ p := by
        rintro rfl
        exact hq h (written?_of_resolve hp _)
      rw [Disk.entry?_put (Disk.ne_nil_of_ne_folder hfolder), if_neg hqp]
  · rw [hrun]
    refine ⟨hk.skip rfl, nofun, nofun, nofun, ?_, fun _ _ => rfl, fun _ => rfl, nofun⟩
    rintro _ _ ⟨⟩
    refine .inr ⟨fun p hp => ?_, cause, rfl⟩
    exact (hk.folder_iff p).mp (hfolders p (hk.resolve_iff.mpr hp))

theorem readAnswer_of_file (hp : d.resolve l.path = .ok p)
    (hentry : d.entry? p = some (.file text.toUTF8)) :
    readAnswer l d = .header <$> Header.ofText text := by
  have hread : (d.read l.path).bind Files.decode = .ok text := by
    rw [Disk.read_eq hp, hentry]
    exact Files.decode_toUTF8 text
  rw [readAnswer, hread]

theorem readAnswer_of_error {cause : FileFault} (hread : d.read l.path = .error cause) :
    readAnswer l d = .error (.file l.path cause) := by
  rw [readAnswer, hread]
  rfl

theorem Keeps.read (hk : Keeps d past d') (l : Location) :
    Keeps d (past ++ [(Step.read l).run d']) ((Step.read l).run d').after ∧
      ((Step.read l).run d').IsStoreStep d past := by
  rw [run_read_eq]
  refine ⟨hk.skip rfl, ?_, ?_, ?_, nofun, fun _ _ => rfl, fun _ => rfl, fun _ => rfl⟩
  · rintro _ p h ⟨⟩ hp hlast
    obtain ⟨-, text, htext, hentry⟩ := hk.written hlast
    have hanswer := readAnswer_of_file (hk.resolve_iff.mpr hp) hentry
    rw [htext] at hanswer
    exact hanswer
  · rintro _ p ⟨⟩ hp hlast
    rw [readAnswer, readAnswer, Disk.read_eq (hk.resolve_iff.mpr hp), Disk.read_eq hp,
      hk.unwritten hlast]
  · rintro _ ⟨⟩ hmissing
    cases hp : d'.resolve l.path with
    | error cause =>
      have hread : d'.read l.path = .error cause := by
        rw [Disk.read, hp]
        rfl
      exact ⟨cause, readAnswer_of_error hread⟩
    | ok p =>
      obtain ⟨hentry, hlast⟩ := hmissing p (hk.resolve_iff.mp hp)
      have hread : d'.read l.path = .error .notFound := by
        rw [Disk.read_eq hp, hk.unwritten hlast, hentry]
      exact ⟨.notFound, readAnswer_of_error hread⟩

def Step.IsStorable : Step → Prop
  | write h _ => Storable h
  | read _ => True

theorem Keeps.step (hk : Keeps d past d') (hx : x.IsStorable) :
    Keeps d (past ++ [x.run d']) (x.run d').after ∧ (x.run d').IsStoreStep d past := by
  cases x with
  | write h l => exact hk.write hx l
  | read l => exact hk.read l

/-- Every event of a run that goes on from a disk with the headers written so far. -/
theorem Keeps.isStoreStep (hk : Keeps d past d') (hsteps : ∀ x ∈ steps, x.IsStorable)
    {between : List Event}
    (hsplit : history d' steps = between ++ e :: future) : e.IsStoreStep d (past ++ between) := by
  induction steps generalizing past d' between with
  | nil => exact absurd hsplit.symm (List.append_ne_nil_of_right_ne_nil _ (List.cons_ne_nil _ _))
  | cons x steps ih =>
    obtain ⟨hx, hsteps⟩ := List.forall_mem_cons.mp hsteps
    obtain ⟨hkeeps, hstep⟩ := hk.step hx
    rw [history] at hsplit
    cases between with
    | nil =>
      obtain ⟨rfl, -⟩ := List.cons.inj hsplit
      rwa [List.append_nil]
    | cons first between =>
      obtain ⟨rfl, hrest⟩ := List.cons.inj hsplit
      rw [List.append_cons]
      exact ih hkeeps hsteps hrest

theorem storable_of_ofParts {name : String} {variants : List Variant}
    {constants : ChannelMap Binary64}
    (hh : Header.ofParts name [⟨"double", "x"⟩] [⟨"double", "y"⟩] variants constants = .ok h)
    (hname : isReserved name = false) : Storable h where
  constructed := .inl ⟨_, _, _, _, _, hh⟩
  name := by rwa [Header.name_of_ofParts hh]
  words := Header.avoidsKeywords_of_ofParts hh Header.linear_avoidsKeywords

/-- A folder with a file that holds no header. -/
def notes : Disk :=
  ⟨[], [(["inc"], .folder), (["inc", "f.h"], .file "notes that are no header".toUTF8)]⟩

end Library

end DerivativeHeaders
