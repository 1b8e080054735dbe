import DerivativeHeaders.Proofs.Command.Emit
import DerivativeHeaders.Proofs.Text.Departure

/-! # The line that a check reports

A check compares a text, from its first marker on, with the header printed again, and reports the
first line where these two differ. The line is compared without its terminator, and it is counted
from the marker on. So the report is the line of the text only if nothing stands before the marker.
-/
namespace DerivativeHeaders

open Text

namespace Command

variable {h : Header} {disk : Disk} {file text printed : String} {before region : List Char}

theorem differingLine_eq (cs ds : List Char) :
    differingLine cs ds = agreement (lines cs) (lines ds) + 1 := rfl

/-- A check fails, and its message is about one line. -/
def ReportsLine (disk : Disk) (file : String) (h : Header) (line : Nat) : Prop :=
  ∀ json verbose, Invocation.runOn ⟨.check file json, verbose⟩ disk =
    (⟨1, ⟨"", parsedNote h file verbose ++ "ifgen: error: " ++
      (Fault.line line .notCanonical).message ++ "\n"⟩⟩, disk)

theorem reportsLine_of_region (hread : disk.read file = .ok text.toUTF8)
    (hh : Header.ofText text = .ok h)
    (hprint : h.print = .ok printed) (hregion : blockRegion? text.toList = some region)
    (hne : printed.toList ≠ region) :
    ReportsLine disk file h (differingLine printed.toList region) := by
  intro json verbose
  have hexec : exec (run ⟨.check file json, verbose⟩) ⟨"", ""⟩ disk =
      ((.error (.line (differingLine printed.toList region) .notCanonical),
        ⟨"", parsedNote h file verbose⟩), disk) := by
    simp only [run, runCheck, exec_bind, exec_readHeader hread hh, exec_require,
      checkCanonical_eq hprint hregion, if_neg hne, String.empty_append]
  rw [Invocation.runOn_eq, hexec]
  rfl

/-- How the report of a check is about a text that is not as it is printed: `n` lines after the
first marker agree, and `departure` lines of the text, with their terminators, are those of the text
with its header printed again. -/
structure Reports (disk : Disk) (file : String) (h : Header) (before printed region : List Char)
    (n departure : Nat) :
    Prop where
  report : ReportsLine disk file h (n + 1)
  compared : PartAfter (lines printed) (lines region) n
  departs : PartAfter (segments (before ++ printed)) (segments (before ++ region)) departure
  least : (lines before).length ≤ departure
  most : departure ≤ (lines before).length + n
  plain : EndsPlainly region → departure = (lines before).length + n

theorem exists_reports (hread : disk.read file = .ok text.toUTF8) (hh : Header.ofText text = .ok h)
    (hprint : h.print = .ok printed) (hregion : IsRegion text.toList before region)
    (hne : region ≠ printed.toList) :
    ∃ n departure, Reports disk file h before printed.toList region n departure := by
  have hsome := blockRegion?_eq_some_iff.mpr ⟨before, hregion⟩
  have hreport := reportsLine_of_region hread hh hprint hsome hne.symm
  have hlines := partAfter_agreement (lines printed.toList) (lines region)
  have hsegments := partAfter_agreement (segments printed.toList) (segments region)
  have hprinted := Header.endsPlainly_of_print (Header.isChecked_ofText hh)
    (Header.avoidsKeywords_of_ofText hh).2 hprint
  rw [differingLine_eq] at hreport
  refine ⟨_, (lines before).length + agreement (segments printed.toList) (segments region), hreport,
    hlines, ?_, Nat.le_add_right _ _, ?_, fun hplain => ?_⟩
  · rw [segments_of_isComplete hregion.complete,
      segments_of_isComplete hregion.complete, ← length_segments]
    exact hsegments.append _
  · exact Nat.add_le_add_left (hsegments.le_lines hlines) _
  · rw [hsegments.eq_lines hlines hprinted hplain]

/-- A text that is read is checked from its first marker on. If that is not as it is printed, then
the first line that differs is reported, counted from the marker: this is the line of the text if
nothing stands before the marker. -/
theorem check_reports (hread : disk.read file = .ok text.toUTF8) (hh : Header.ofText text = .ok h) :
    ∃ printed before region, h.print = .ok printed ∧ IsRegion text.toList before region ∧
      (region = printed.toList → ∀ json verbose,
        (Invocation.runOn ⟨.check file json, verbose⟩ disk).1.code = 0) ∧
      (region ≠ printed.toList →
        ∃ n departure, Reports disk file h before printed.toList region n departure ∧
          (EndsPlainly region → (n = departure ↔ before = []))) := by
  have hc := Header.isChecked_ofText hh
  have hw := (Header.avoidsKeywords_of_ofText hh).2
  obtain ⟨printed, -, hprint, -⟩ := Header.exists_written hc hw
  cases hsome : blockRegion? text.toList with
  | none =>
    have hpreface := Header.ofLines_preface (blockRegion?_eq_none_iff.mp hsome) []
    rw [List.append_nil, ← Header.ofText_eq_ofLines, hh] at hpreface
    cases hpreface
  | some region =>
    obtain ⟨before, hregion⟩ := blockRegion?_eq_some_iff.mp hsome
    refine ⟨printed, before, region, hprint, hregion, fun heq json verbose => ?_, fun hne => ?_⟩
    · rw [heq] at hsome
      obtain ⟨t, hexec⟩ := exists_exec_check hc hread hh hprint hsome json verbose ⟨"", ""⟩
      exact Invocation.code_of_ok hexec
    · obtain ⟨n, departure, hreports⟩ := exists_reports hread hh hprint hregion hne
      refine ⟨n, departure, hreports, fun hplain => ?_⟩
      have hdeparture := hreports.plain hplain
      rw [← length_lines_eq_zero_iff]
      omega

/-- The lines of a block, with those of a prototype. -/
def linesOf (opening : String) : List String :=
  ["//=====[Option]=====", "//\x7b", "//  \"enable_1st_order_derivative\": false,",
    "//  \"enable_2nd_order_derivative\": false", "//\x7d", "//=====[Option]=====", opening,
    "       double* y);", ""]

/-- A text with a blank too many on its ninth line. -/
def spacedText : String := "\n".intercalate ("#pragma once" :: "" :: linesOf "void f( double x,")

def spacedDisk : Disk := ⟨[], [(["f.h"], .file spacedText.toUTF8)]⟩

theorem read_spacedDisk : spacedDisk.read "f.h" = .ok spacedText.toUTF8 := by
  have hresolve : spacedDisk.resolve "f.h" = .ok ["f.h"] := by decide +kernel
  rw [Disk.read_eq hresolve]
  rfl

theorem toList_spacedText : spacedText.toList =
    ['\n'].intercalate (("#pragma once" :: "" :: linesOf "void f( double x,").map String.toList) :=
  String.toList_intercalate

theorem toList_linesOf (opening : String) :
    ("\n".intercalate (linesOf opening)).toList =
      ['\n'].intercalate ((linesOf opening).map String.toList) :=
  String.toList_intercalate

theorem print_spaced : ∃ h, Header.ofText spacedText = .ok h ∧
    h.print = .ok ("\n".intercalate (linesOf "void f(double x,")) := by
  have hlines : (Header.ofText spacedText >>= Header.printLines).toOption =
      some (linesOf "void f(double x,") := by
    rw [Header.ofText, toList_spacedText]
    decide +kernel
  obtain ⟨h, hh, hlines⟩ := Outcome.bind_eq_ok.mp (Outcome.eq_ok_of_toOption hlines)
  refine ⟨h, hh, ?_⟩
  rw [Header.print, hlines]
  rfl

theorem blockRegion?_spaced : blockRegion? spacedText.toList =
    some ("\n".intercalate (linesOf "void f( double x,")).toList := by
  rw [toList_spacedText, toList_linesOf]
  decide +kernel

theorem spaced_ne : ("\n".intercalate (linesOf "void f( double x,")).toList ≠
    ("\n".intercalate (linesOf "void f(double x,")).toList := by
  rw [toList_linesOf, toList_linesOf]
  decide +kernel

theorem check_reports_spaced : ∃ h printed before region, Header.ofText spacedText = .ok h ∧
    h.print = .ok printed ∧ IsRegion spacedText.toList before region ∧ region ≠ printed.toList ∧
      ∃ n departure, Reports spacedDisk "f.h" h before printed.toList region n departure ∧
        (EndsPlainly region → (n = departure ↔ before = [])) := by
  obtain ⟨h, hh, hprint⟩ := print_spaced
  obtain ⟨printed, before, region, hprinted, hregion, -, hreports⟩ :=
    check_reports read_spacedDisk hh
  have hsome : blockRegion? spacedText.toList = some region :=
    blockRegion?_eq_some_iff.mpr ⟨before, hregion⟩
  obtain rfl := Option.some.inj (blockRegion?_spaced.symm.trans hsome)
  obtain rfl := Except.ok.inj (hprint.symm.trans hprinted)
  exact ⟨h, _, before, _, hh, hprint, hregion, spaced_ne, hreports spaced_ne⟩

/-- The blank is on the ninth line of the text, and on the seventh from the marker on. -/
theorem reportsLine_spaced : ∃ h printed before region, Header.ofText spacedText = .ok h ∧
    h.print = .ok printed ∧ IsRegion spacedText.toList before region ∧
      PartAfter (segments (before ++ printed.toList)) (segments (before ++ region)) 8 ∧
      ReportsLine spacedDisk "f.h" h 7 := by
  obtain ⟨h, hh, hprint⟩ := print_spaced
  obtain ⟨before, hregion⟩ := blockRegion?_eq_some_iff.mp blockRegion?_spaced
  have hpragma : spacedText.toList =
      "#pragma once\n\n".toList ++ ("\n".intercalate (linesOf "void f( double x,")).toList := by
    rw [toList_spacedText, toList_linesOf]
    decide +kernel
  obtain rfl := List.append_cancel_right (hregion.text.symm.trans hpragma)
  have hreport := reportsLine_of_region read_spacedDisk hh hprint blockRegion?_spaced spaced_ne.symm
  rw [toList_linesOf, toList_linesOf] at hreport
  refine ⟨h, _, _, _, hh, hprint, hregion, ?_, hreport⟩
  rw [toList_linesOf, toList_linesOf]
  decide +kernel

end Command

end DerivativeHeaders
