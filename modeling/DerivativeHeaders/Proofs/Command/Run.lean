import DerivativeHeaders.Command.Run
import DerivativeHeaders.Proofs.Files.Disk

/-! # Commands on files in memory

A command that runs on a disk gives a result or a fault, a transcript and a disk. Each of its steps
has an equation for these, and the exit code is zero exactly if there was no fault.
-/
namespace DerivativeHeaders

namespace Command

variable {α β : Type} {t t' : Transcript} {d d' : Disk} {path text : String}

/-- What comes of a command that runs with a transcript on a disk. -/
def exec (x : CommandM (StateM Disk) α) (t : Transcript) (d : Disk) :
    (Except Fault α × Transcript) × Disk :=
  (x.run.run t).run d

theorem exec_bind (x : CommandM (StateM Disk) α) (f : α → CommandM (StateM Disk) β)
    (t : Transcript) (d : Disk) :
    exec (x >>= f) t d =
      match exec x t d with
      | ((.ok a, t'), d') => exec (f a) t' d'
      | ((.error fault, t'), d') => ((.error fault, t'), d') := by
  simp only [exec, ExceptT.run_bind, StateT.run_bind]
  rcases StateT.run (StateT.run (ExceptT.run x) t) d with ⟨⟨_ | _, _⟩, _⟩ <;> rfl

theorem exec_bind_eq_ok {x : CommandM (StateM Disk) α} {f : α → CommandM (StateM Disk) β} {b : β} :
    exec (x >>= f) t d = ((.ok b, t'), d') ↔
      ∃ a s e, exec x t d = ((.ok a, s), e) ∧ exec (f a) s e = ((.ok b, t'), d') := by
  rw [exec_bind]
  rcases exec x t d with ⟨⟨_ | _, _⟩, _⟩ <;> simp

theorem exec_pure (a : α) (t : Transcript) (d : Disk) : exec (pure a) t d = ((.ok a, t), d) := rfl

theorem exec_require (x : Except Fault α) (t : Transcript) (d : Disk) :
    exec (require x) t d = ((x, t), d) := rfl

theorem exec_say (text : String) (t : Transcript) (d : Disk) :
    exec (say text) t d = ((.ok (), { t with output := t.output ++ text }), d) := rfl

theorem exec_reportIf (verbose : Bool) (text : String) (t : Transcript) (d : Disk) :
    exec (reportIf verbose text) t d =
      ((.ok (), { t with
        messages := t.messages ++ if verbose then "ifgen: " ++ text ++ "\n" else "" }), d) := by
  cases verbose with
  | true =>
    rw [if_pos rfl, ← String.append_assoc, ← String.append_assoc]
    rfl
  | false =>
    rw [if_neg Bool.false_ne_true, String.append_empty]
    rfl

theorem exec_onFiles (x : ExceptT Fault (StateM Disk) α) (t : Transcript) (d : Disk) :
    exec (onFiles x) t d = (((x.run.run d).1, t), (x.run.run d).2) := rfl

theorem exec_readText (hread : d.read path = .ok text.toUTF8) (t : Transcript) :
    exec (onFiles (Files.readText path)) t d = ((.ok text, t), d) := by
  have hdecode : (d.read path).bind Files.decode = .ok text := by
    rw [hread]
    exact Files.decode_toUTF8 text
  rw [exec_onFiles, Files.run_readText, hdecode]

theorem exec_write (h : Header) (l : Location) (t : Transcript) (d : Disk) :
    exec (onFiles (Library.write h l)) t d =
      match Library.fileText h with
      | .error fault => ((.error fault, t), d)
      | .ok text =>
        match d.write l.path text with
        | .ok d' => ((.ok l.path, t), d')
        | .error cause => ((.error (.file l.path cause), t), d) := by
  rw [exec_onFiles, Library.run_write]
  cases Library.fileText h with
  | error fault => rfl
  | ok text => cases hwrite : d.write l.path text <;> simp only [hwrite]

end Command

theorem Fault.exitCode_ne_zero (fault : Fault) : fault.exitCode ≠ 0 := by
  cases fault <;> nofun

namespace Invocation

/-- What comes of an invocation on a disk. -/
def runOn (i : Invocation) (d : Disk) : Outcome × Disk := (i.run : StateM Disk Outcome).run d

variable {i : Invocation} {d d' : Disk} {t : Transcript} {fault : Fault} {outcome : Outcome}

theorem runOn_eq (i : Invocation) (d : Disk) : i.runOn d =
    match Command.exec (Command.run i) ⟨"", ""⟩ d with
    | ((.ok (), t), d') => (⟨0, t⟩, d')
    | ((.error fault, t), d') =>
      (⟨fault.exitCode,
        { t with messages := t.messages ++ "ifgen: error: " ++ fault.message ++ "\n" }⟩, d') := by
  simp only [runOn, run, Command.exec, StateT.run_bind]
  rcases StateT.run (StateT.run (ExceptT.run (Command.run i)) ⟨"", ""⟩) d with
    ⟨⟨_ | _, _⟩, _⟩ <;> rfl

theorem code_of_error (h : Command.exec (Command.run i) ⟨"", ""⟩ d = ((.error fault, t), d')) :
    (i.runOn d).1.code = fault.exitCode := by
  rw [runOn_eq, h]

theorem code_of_ok (h : Command.exec (Command.run i) ⟨"", ""⟩ d = ((.ok (), t), d')) :
    (i.runOn d).1.code = 0 := by
  rw [runOn_eq, h]

theorem exec_of_runOn (h : i.runOn d = (outcome, d')) (hcode : outcome.code = 0) :
    Command.exec (Command.run i) ⟨"", ""⟩ d = ((.ok (), outcome.transcript), d') := by
  rw [runOn_eq] at h
  rcases hexec : Command.exec (Command.run i) ⟨"", ""⟩ d with ⟨⟨fault | _, t⟩, e⟩
  · rw [hexec] at h
    cases h
    exact absurd hcode fault.exitCode_ne_zero
  · rw [hexec] at h
    cases h
    rfl

end Invocation

end DerivativeHeaders
