import DerivativeHeaders.Files.Disk
import DerivativeHeaders.Library
import DerivativeHeaders.Proofs.Outcome

/-! # What was written is read

A written text is the whole of its file. Writing makes no folder and takes none away, so the path of
the file leads to it afterwards as it did before.
-/
namespace DerivativeHeaders

open Outcome

theorem Files.decode_toUTF8 (text : String) : decode text.toUTF8 = .ok text := by
  have hvalid : String.fromUTF8? text.toUTF8 = some text := by
    simp only [String.fromUTF8?, String.toUTF8_eq_toByteArray, dif_pos text.isValidUTF8]
    rfl
  rw [decode, hvalid]

namespace Disk

variable {d d' : Disk} {p q : Path} {e : Entry} {bytes : ByteArray} {path text : String}

theorem find?_putEntry (entries : List (Path × Entry)) :
    ((putEntry p e entries).find? fun x => x.1 == q) =
      if p = q then some (p, e) else entries.find? fun x => x.1 == q := by
  induction entries with
  | nil => by_cases hpq : p = q <;> simp [putEntry, hpq]
  | cons x rest ih =>
    rw [putEntry]
    by_cases hx : x.1 = p
    · rw [if_pos hx]
      by_cases hpq : p = q
      · rw [List.find?_cons_of_pos (by simp [hpq]), if_pos hpq]
      · rw [List.find?_cons_of_neg (by simp [hpq]),
          List.find?_cons_of_neg (by simp [hx, hpq]), if_neg hpq]
    · rw [if_neg hx]
      by_cases hxq : x.1 = q
      · rw [List.find?_cons_of_pos (by simp [hxq]), List.find?_cons_of_pos (by simp [hxq]),
          if_neg fun hpq => hx (hxq.trans hpq.symm)]
      · rw [List.find?_cons_of_neg (by simp [hxq]), List.find?_cons_of_neg (by simp [hxq]), ih]

theorem entry?_put (hp : p ≠ []) : entry? (d.put p e) q = if q = p then some e else d.entry? q := by
  unfold entry? put
  rw [find?_putEntry]
  by_cases hq : q = p
  · subst hq
    simp [hp]
  · simp [hq, Ne.symm hq]

theorem ne_nil_of_ne_folder (hp : d.entry? p ≠ some .folder) : p ≠ [] := by
  rintro rfl
  exact hp rfl

/-- Names lead through folders, so they lead to the same place where there are more of them. -/
theorem follow_of_folders (hfolders : ∀ q, d.entry? q = some .folder → d'.entry? q = some .folder)
    {names : List String}
    {start : Path} (hfollow : d.follow start names = .ok p) : d'.follow start names = .ok p := by
  fun_induction follow d start names with
  | case1 start => exact hfollow
  | case2 start rest ih =>
    rw [follow, if_pos rfl]
    exact ih hfollow
  | case3 start rest hdot ih =>
    rw [follow, if_neg hdot, if_pos rfl]
    exact ih hfollow
  | case4 => cases hfollow
  | case5 start name rest hdot hdots hlimit hrest =>
    rw [follow, if_neg hdot, if_neg hdots, if_neg hlimit, if_pos hrest]
    exact hfollow
  | case6 start name rest hdot hdots hlimit hrest hentry ih =>
    rw [follow, if_neg hdot, if_neg hdots, if_neg hlimit, if_neg hrest, hfolders _ hentry]
    exact ih hfollow
  | case7 => cases hfollow
  | case8 => cases hfollow

theorem resolve_of_folders (hworking : d'.working = d.working)
    (hfolders : ∀ q, d.entry? q = some .folder → d'.entry? q = some .folder)
    (hresolve : d.resolve path = .ok p) :
    d'.resolve path = .ok p := by
  simp only [resolve, hworking] at hresolve ⊢
  split_ifs at hresolve ⊢
  all_goals exact follow_of_folders hfolders hresolve

/-- A file is written where there is no folder, so it takes the place of none. -/
theorem resolve_put (hp : d.entry? p ≠ some .folder) (hresolve : d.resolve path = .ok q) :
    (d.put p e).resolve path = .ok q := by
  refine resolve_of_folders (d := d) rfl (fun r hr => ?_) hresolve
  have hne : r ≠ p := by
    rintro rfl
    exact hp hr
  rw [entry?_put (ne_nil_of_ne_folder hp), if_neg hne, hr]

theorem write_eq_ok_iff : d.write path text = .ok d' ↔
    ∃ p, d.resolve path = .ok p ∧ d.entry? p ≠ some .folder ∧ d' = d.put p (.file text.toUTF8) := by
  rw [write, bind_eq_ok]
  refine exists_congr fun p => and_congr_right fun _ => ?_
  split
  · rename_i hfolder
    simp [hfolder, throw, throwThe, MonadExceptOf.throw]
  · rename_i hnot
    rw [pure_eq_ok, eq_comm, and_iff_right hnot]

theorem read_eq (hresolve : d.resolve path = .ok p) : d.read path =
    match d.entry? p with
    | some (.file bytes) => .ok bytes
    | some .folder => .error .isFolder
    | none => .error .notFound := by
  rw [read, hresolve]
  rfl

theorem read_of_write (hwrite : d.write path text = .ok d') : d'.read path = .ok text.toUTF8 := by
  obtain ⟨p, hresolve, hp, rfl⟩ := write_eq_ok_iff.mp hwrite
  rw [read_eq (resolve_put hp hresolve), entry?_put (ne_nil_of_ne_folder hp), if_pos rfl]

end Disk

namespace Files

theorem run_readText (path : String) (d : Disk) :
    (readText path : ExceptT Fault (StateM Disk) String).run.run d =
      match (d.read path).bind decode with
      | .ok text => (.ok text, d)
      | .error cause => (.error (.file path cause), d) := by
  change StateT.run (ExceptT.run
    (match (d.read path).bind decode with | .ok text => _ | .error cause => _)) d = _
  cases (d.read path).bind decode <;> rfl

theorem run_write (path text : String) (d : Disk) :
    (write path text : StateM Disk (Except FileFault Unit)).run d = match d.write path text with
    | .ok d' => (.ok (), d')
    | .error cause => (.error cause, d) := by
  change StateT.run (match d.write path text with | .ok d' => _ | .error cause => _) d = _
  cases d.write path text <;> rfl

theorem run_writeText (path text : String) (d : Disk) :
    (writeText path text : ExceptT Fault (StateM Disk) Unit).run.run d =
      match d.write path text with
      | .ok d' => (.ok (), d')
      | .error cause => (.error (.file path cause), d) := by
  simp only [writeText, ExceptT.run_bind, ExceptT.run_liftM, StateT.run_bind,
    StateT.run_map, run_write]
  cases d.write path text <;> rfl

end Files

namespace Library

theorem run_write (h : Header) (l : Location) (d : Disk) :
    (write h l : ExceptT Fault (StateM Disk) String).run.run d = match fileText h with
    | .error fault => (.error fault, d)
    | .ok text =>
      match d.write l.path text with
      | .ok d' => (.ok l.path, d')
      | .error cause => (.error (.file l.path cause), d) := by
  rw [write]
  cases fileText h with
  | error fault => rfl
  | ok text =>
    simp only [ExceptT.run_bind, ExceptT.run_mk, pure_bind, StateT.run_bind, Files.run_writeText]
    cases d.write l.path text <;> rfl

theorem run_read (l : Location) (d : Disk) :
    (read l : ExceptT Fault (StateM Disk) Header).run.run d =
      match (d.read l.path).bind Files.decode with
    | .ok text => (Header.ofText text, d)
    | .error cause => (.error (.file l.path cause), d) := by
  simp only [read, ExceptT.run_bind, StateT.run_bind, Files.run_readText]
  cases (d.read l.path).bind Files.decode <;> rfl

end Library

end DerivativeHeaders
