import DerivativeHeaders.Proofs.Command.Run
import DerivativeHeaders.Proofs.Header.Description
import DerivativeHeaders.Proofs.Header.Embedded

/-! # What is emitted is checked

The text of a header that was emitted, as the output or as the file of a library, passes its check
unless the function has a keyword for a name. A description may have such a name, but no text can be
read with it.
-/
namespace DerivativeHeaders

open Outcome

theorem Header.exists_isPrintedIn_of_ofDescription {d : Description} {h : Header}
    (hh : ofDescription d = .ok h) :
    ∃ printed, h.print = .ok printed ∧ h.IsPrintedIn printed printed ∧
      ∃ text, Library.fileText h = .ok text ∧ h.IsPrintedIn printed text :=
  exists_isPrintedIn (isChecked_ofDescription hh) (avoidsKeywords_of_ofDescription hh)

namespace Command

variable {d : Description} {h : Header} {t t' : Transcript} {disk disk' : Disk}
  {file text printed : String}
variable {json verbose : Bool} {fault : Fault}

theorem exists_of_exec_emit_none
    (hexec : exec (runEmit d none verbose) t disk = ((.ok (), t'), disk')) :
    ∃ h printed, Header.ofDescription d = .ok h ∧ h.print = .ok printed ∧
      t'.output = t.output ++ printed := by
  simp only [runEmit, exec_bind_eq_ok, exec_require, exec_reportIf, exec_say,
    Prod.mk.injEq] at hexec
  obtain ⟨h, _, _, ⟨⟨hh, rfl⟩, rfl⟩, hexec⟩ := hexec
  obtain ⟨-, _, _, ⟨⟨-, rfl⟩, rfl⟩, printed, _, _, ⟨⟨hprint, rfl⟩, rfl⟩, ⟨-, rfl⟩, -⟩ := hexec
  exact ⟨h, printed, hh, hprint, rfl⟩

theorem exists_of_exec_emit_some {folder base : String}
    (hexec : exec (runEmit d (some (folder, base)) verbose) t disk = ((.ok (), t'), disk')) :
    ∃ h l text, Header.ofDescription d = .ok h ∧ Location.ofParts folder base = .ok l ∧
      Library.fileText h = .ok text ∧ disk.write l.path text = .ok disk' := by
  simp only [runEmit, exec_bind_eq_ok, exec_require, exec_reportIf, exec_write,
    Prod.mk.injEq] at hexec
  obtain ⟨h, _, _, ⟨⟨hh, rfl⟩, rfl⟩, hexec⟩ := hexec
  obtain ⟨-, _, _, ⟨⟨-, rfl⟩, rfl⟩, l, _, _, ⟨⟨hl, rfl⟩, rfl⟩, path, _, _, hwrite, ⟨-, rfl⟩, rfl⟩ :=
    hexec
  split at hwrite
  · cases hwrite
  · rename_i text htext
    split at hwrite
    · rename_i disk'' hdisk
      cases hwrite
      exact ⟨h, l, text, hh, hl, htext, hdisk⟩
    · cases hwrite

/-- What is said when a header was read from a file. -/
def parsedNote (h : Header) (file : String) (verbose : Bool) : String :=
  if verbose then "ifgen: " ++ s!"parsed {h.name} from {file}" ++ "\n" else ""

theorem exec_readHeader (hread : disk.read file = .ok text.toUTF8) (hh : Header.ofText text = .ok h)
    (verbose : Bool)
    (t : Transcript) : exec (readHeader file verbose) t disk =
      ((.ok (h, text.toList), { t with messages := t.messages ++ parsedNote h file verbose }),
        disk) := by
  simp only [readHeader, exec_bind, exec_readText hread, exec_require, hh, exec_reportIf,
    exec_pure, parsedNote]

theorem exec_check_fault (hread : disk.read file = .ok text.toUTF8)
    (hfault : Header.ofText text = .error fault) :
    exec (runCheck file json verbose) t disk = ((.error fault, t), disk) := by
  simp only [runCheck, readHeader, exec_bind, exec_readText hread, exec_require, hfault]

theorem exists_summary (hc : h.IsChecked) : ∃ value, summary h = .ok value := by
  obtain ⟨names, hnames, -⟩ := Variant.ofShortNames_shortNames hc.ordered.registered
  cases hsummary : summary h with
  | ok value => exact ⟨value, rfl⟩
  | error fault =>
    simp only [summary, bind_eq_error, hnames] at hsummary
    rcases hsummary with hnames | ⟨_, -, hconstants | ⟨_, -, hpure⟩⟩
    · cases hnames
    · obtain ⟨x, hx, hvalue⟩ := exists_of_mapM_eq_error hconstants
      obtain ⟨name, hname⟩ :=
        hc.exists_channelName (hc.hasChannel_of_get? (ChannelMap.get?_eq_some_iff.mpr hx))
      rw [hname] at hvalue
      cases hvalue
    · cases hpure

theorem checkCanonical_eq {cs region : List Char} (hprint : h.print = .ok printed)
    (hregion : blockRegion? cs = some region) : checkCanonical h cs =
      if printed.toList = region then .ok ()
      else .error (.line (differingLine printed.toList region) .notCanonical) := by
  rw [checkCanonical, hprint, hregion]
  simp only [bind, Except.bind, Option.getD_some, ne_eq, ite_not]
  rfl

theorem exists_exec_check (hc : h.IsChecked) (hread : disk.read file = .ok text.toUTF8)
    (hh : Header.ofText text = .ok h) (hprint : h.print = .ok printed)
    (hregion : blockRegion? text.toList = some printed.toList) (json verbose : Bool)
    (t : Transcript) :
    ∃ s, exec (runCheck file json verbose) t disk = ((.ok (), s), disk) := by
  obtain ⟨value, hvalue⟩ := exists_summary hc
  simp only [runCheck, exec_bind, exec_readHeader hread hh, exec_require,
    checkCanonical_eq hprint hregion, ↓reduceIte]
  cases json with
  | true =>
    simp only [↓reduceIte, exec_bind, exec_require, hvalue, sayLine, exec_say]
    exact ⟨_, rfl⟩
  | false => exact ⟨_, exec_say ..⟩

/-- A file with the text of a header from its first marker on, which passes its check. -/
structure Accepts (disk : Disk) (file : String) (h : Header) : Prop where
  canonical : ∃ text printed, disk.read file = .ok text.toUTF8 ∧ Header.ofText text = .ok h ∧
    h.print = .ok printed ∧ blockRegion? text.toList = some printed.toList
  code : ∀ json verbose, (Invocation.runOn ⟨.check file json, verbose⟩ disk).1.code = 0

/-- A file with a prototype that nothing opens. -/
structure Rejects (disk : Disk) (file : String) : Prop where
  unread : ∃ text n, disk.read file = .ok text.toUTF8 ∧
    Header.ofText text = .error (.line n .noOpening)
  code : ∀ json verbose, (Invocation.runOn ⟨.check file json, verbose⟩ disk).1.code = 1

/-- Whether a file with the text of a header passes depends on the name of the function alone. -/
structure Decides (disk : Disk) (file : String) (h : Header) : Prop where
  accepts : isReserved h.name = false → Accepts disk file h
  rejects : isReserved h.name → Rejects disk file

theorem decides_of_isPrintedIn (hc : h.IsChecked) (hprint : h.print = .ok printed)
    (htext : h.IsPrintedIn printed text)
    (hread : disk.read file = .ok text.toUTF8) : Decides disk file h where
  accepts hname := by
    have hh := htext.ofText_eq hc hname
    refine ⟨⟨text, printed, hread, hh, hprint, htext.region⟩, fun json verbose => ?_⟩
    obtain ⟨s, hexec⟩ := exists_exec_check hc hread hh hprint htext.region json verbose ⟨"", ""⟩
    exact Invocation.code_of_ok hexec
  rejects hname := by
    obtain ⟨n, hn⟩ := htext.ofText_eq_error hc hname
    refine ⟨⟨text, n, hread, hn⟩, fun json verbose => ?_⟩
    have hexec : exec (run ⟨.check file json, verbose⟩) ⟨"", ""⟩ disk = _ :=
      exec_check_fault hread hn
    exact Invocation.code_of_error hexec

/-- What a description is emitted to: the output, or the file of the target. -/
theorem exists_of_emit {target : Option (String × String)} {outcome : Outcome}
    (hemit : Invocation.runOn ⟨.emit d target, verbose⟩ disk = (outcome, disk'))
    (hcode : outcome.code = 0) :
    ∃ h printed text, Header.ofDescription d = .ok h ∧ h.print = .ok printed ∧
      h.IsPrintedIn printed text ∧ match target with
      | none => outcome.transcript.output = text
      | some (folder, base) =>
        ∃ l, Location.ofParts folder base = .ok l ∧ disk'.read l.path = .ok text.toUTF8 := by
  have hexec := Invocation.exec_of_runOn hemit hcode
  cases target with
  | none =>
    obtain ⟨h, printed, hh, hprint, houtput⟩ := exists_of_exec_emit_none hexec
    obtain ⟨_, hprint', hself, -⟩ := Header.exists_isPrintedIn_of_ofDescription hh
    cases hprint.symm.trans hprint'
    exact ⟨h, printed, printed, hh, hprint, hself, houtput.trans String.empty_append⟩
  | some place =>
    obtain ⟨h, l, text, hh, hl, htext, hwrite⟩ := exists_of_exec_emit_some hexec
    obtain ⟨printed, hprint, -, _, htext', hfile⟩ := Header.exists_isPrintedIn_of_ofDescription hh
    cases htext.symm.trans htext'
    exact ⟨h, printed, text, hh, hprint, hfile, l, hl, Disk.read_of_write hwrite⟩

theorem code_emit_none_iff : (Invocation.runOn ⟨.emit d none, verbose⟩ disk).1.code = 0 ↔
    ∃ h, Header.ofDescription d = .ok h := by
  constructor
  · intro hcode
    have hemit : Invocation.runOn ⟨.emit d none, verbose⟩ disk = (_, _) := Prod.mk.eta.symm
    obtain ⟨h, -, -, hh, -⟩ := exists_of_emit hemit hcode
    exact ⟨h, hh⟩
  · rintro ⟨h, hh⟩
    obtain ⟨printed, hprint, -⟩ := Header.exists_isPrintedIn_of_ofDescription hh
    obtain ⟨t', hexec⟩ : ∃ t', exec (run ⟨.emit d none, verbose⟩) ⟨"", ""⟩ disk =
        ((.ok (), t'), disk) := by
      simp only [run, runEmit, exec_bind, exec_require, hh, exec_reportIf, hprint, exec_say,
        Prod.mk.injEq, true_and, and_true, exists_eq']
    exact Invocation.code_of_ok hexec

/-- A description that is emitted is checked when the output is in some file, or in the file of the
target: the file passes unless the function has a keyword for its name. -/
theorem decides_of_emit {d : Description} {target : Option (String × String)} {verbose : Bool}
    {disk disk' : Disk} {outcome : Outcome}
    (hemit : Invocation.runOn ⟨.emit d target, verbose⟩ disk = (outcome, disk'))
    (hcode : outcome.code = 0) : ∃ h, Header.ofDescription d = .ok h ∧ h.name = d.name ∧
      match target with
      | none =>
        ∀ (other : Disk) (file : String), other.read file = .ok outcome.transcript.output.toUTF8 →
          Decides other file h
      | some (folder, base) =>
        ∃ l, Location.ofParts folder base = .ok l ∧ Decides disk' l.path h := by
  obtain ⟨h, printed, text, hh, hprint, htext, htarget⟩ := exists_of_emit hemit hcode
  have hc := Header.isChecked_ofDescription hh
  refine ⟨h, hh, Header.name_of_ofDescription hh, ?_⟩
  cases target with
  | none =>
    intro other file hread
    rw [htarget] at hread
    exact decides_of_isPrintedIn hc hprint htext hread
  | some place =>
    obtain ⟨l, hl, hread⟩ := htarget
    exact ⟨l, hl, decides_of_isPrintedIn hc hprint htext hread⟩

def emitRadius (name : String) : Invocation :=
  ⟨.emit ⟨name, "double x", "double r", "D_r_D_x = 2.5", ["d0", "d1"]⟩ (some ("/inc", "radius")),
    true⟩

def includes : Disk := ⟨[], [(["inc"], .folder)]⟩

theorem decides_of_emit_radius : ((emitRadius "radius").runOn includes).1.code = 0 ∧
    ∃ h, h.name = "radius" ∧
      Decides ((emitRadius "radius").runOn includes).2 "/inc/radius.h" h := by
  have hemit : (emitRadius "radius").runOn includes = (_, _) := Prod.mk.eta.symm
  have hcode : ((emitRadius "radius").runOn includes).1.code = 0 := by decide +kernel
  obtain ⟨h, -, hname, l, hl, hdecides⟩ := decides_of_emit hemit hcode
  cases hl
  exact ⟨hcode, h, hname, hdecides⟩

/-- The keyword is accepted for the name of the function, and the file that is written cannot be
read. -/
theorem rejects_of_emit_void : ((emitRadius "void").runOn includes).1.code = 0 ∧
    Rejects ((emitRadius "void").runOn includes).2 "/inc/radius.h" := by
  have hemit : (emitRadius "void").runOn includes = (_, _) := Prod.mk.eta.symm
  have hcode : ((emitRadius "void").runOn includes).1.code = 0 := by decide +kernel
  obtain ⟨h, printed, text, hh, hprint, htext, l, hl, hread⟩ := exists_of_emit hemit hcode
  cases hl
  have hname : isReserved h.name := by
    rw [Header.name_of_ofDescription hh]
    decide
  exact ⟨hcode,
    (decides_of_isPrintedIn (Header.isChecked_ofDescription hh) hprint htext hread).rejects hname⟩

end Command

end DerivativeHeaders
