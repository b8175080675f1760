import TreeScript.CommandLine.Invocation
import TreeScript.Proofs.Discipline
import TreeScript.Proofs.Document.RoundTrip

/-!
# What the subcommands have in common

The three subcommands differ in what they do with a tree that loads, and in nothing else.
`Concludes args d ending` says that a command line comes to an ending in a directory, if
loops are given laps enough, and `Subcommand.endings_agree` compares the three on one file: they
fail alike on a file that cannot be read and on a document that holds no tree, `run` and
`evaluate` fail alike on a program that does, and a dump does not care what a program would do.

The run behind an ending leaves no records. It prints what any other run of the tree on the
same scopes prints (`Node.Returns.runProgram_off`).
-/

namespace TreeScript

/-- With laps enough for the loops, the arguments lead to an ending in a directory. -/
def Concludes (args : List String) (d : Directory) (ending : Ending) : Prop :=
  ∃ bound, ∀ laps, bound ≤ laps → invoke laps args d = some ending

theorem Journal.noteAll_off (rs : List Record) : Journal.off.noteAll rs = .off := by
  induction rs with
  | nil => rfl
  | cons r rs ih => exact ih

/-- A program runs without records as its tree is evaluated with them. -/
theorem Node.Returns.runProgram_off {root : Node} {s : Scopes} {sink : Sink} {j : Journal}
    {r : Except RuntimeError Value} {m : Machine} (h : root.Returns ⟨s, sink, j⟩ r m) :
    ∃ bound, ∀ laps, bound ≤ laps →
      root.runProgram laps ⟨s, sink, .off⟩ = some (r, { m with journal := .off }) := by
  obtain ⟨-, rs, hany, -⟩ := h.discipline
  obtain ⟨bound, hrun⟩ := hany .off
  rw [Journal.noteAll_off] at hrun
  exact ⟨bound, fun laps hle => runProgram_of_evaluate (m := ⟨s, sink, .off⟩) hle hrun⟩

namespace Subcommand

variable {path : String} {d : Directory}

/-- Without a log, a command ends as its subcommand does on the content of the file. -/
theorem concludes_of_perform {args : List String} {sub : Subcommand} {code : Nat}
    {stdout : ByteArray} {stderr : String}
    (hargs : Request.parse? args = some (.command sub (some path) false)) (bound : Nat)
    (h : ∀ laps, bound ≤ laps → ∃ log,
      sub.perform laps path (d.read path) .off = some ⟨code, stdout, stderr, log⟩) :
    Concludes args d ⟨code, stdout, stderr, d⟩ := by
  refine ⟨bound, fun laps hle => ?_⟩
  obtain ⟨log, hfinish⟩ := h laps hle
  unfold invoke
  simp only [hargs, invokeQuietly, hfinish]

/-- A file that can be read is as good as the document in it. -/
theorem loadFile_off (path : String) (bytes : ByteArray) :
    loadFile path (.ok bytes) .off = ((loadTree bytes .off).1, .off) :=
  rfl

/-- A document that holds no tree is malformed, for every subcommand. -/
theorem exists_perform_of_error {bytes : ByteArray} {e : LoadError}
    (h : (loadTree bytes .off).1 = .error e) (laps : Nat) (sub : Subcommand) :
    ∃ log, sub.perform laps path (.ok bytes) .off =
      some ⟨65, .empty, e.message ++ "\n", log⟩ := by
  obtain ⟨e', rfl⟩ : ∃ e', e = .malformed e' := by
    cases hdecode : Document.decode bytes with
    | error e' =>
      rw [loadTree, hdecode] at h
      exact ⟨e', (Except.error.inj h).symm⟩
    | ok root =>
      rw [loadTree, hdecode] at h
      cases h
  unfold perform
  rw [loadFile_off, h]
  exact ⟨_, rfl⟩

/-- A dump does not run the tree. -/
theorem exists_perform_dump {bytes : ByteArray} {root : Node}
    (h : (loadTree bytes .off).1 = .ok root) (laps : Nat) :
    ∃ log, perform laps .dump path (.ok bytes) .off =
      some ⟨0, (root.dump ++ "\n").toUTF8, "", log⟩ := by
  unfold perform
  rw [loadFile_off, h]
  exact ⟨_, rfl⟩

/-- The subcommands that run a tree do so from the same scopes and without records. -/
theorem perform_of_ok {bytes : ByteArray} {root : Node} (h : (loadTree bytes .off).1 = .ok root)
    (laps : Nat) {sub : Subcommand} (hsub : sub ≠ .dump) :
    sub.perform laps path (.ok bytes) .off = sub.runTree laps root .off [.decoded root.kind] := by
  unfold perform
  rw [loadFile_off, h]
  cases sub with
  | dump => exact absurd rfl hsub
  | run | evaluate => rfl

/-- The three subcommands on one file: what they do alike and where they differ. -/
theorem endings_agree {args : Subcommand → List String} {path : String}
    (hargs : ∀ sub, Request.parse? (args sub) = some (.command sub (some path) false))
    (d : Directory) :
    (∀ fault, d.read path = .error fault → ∀ sub,
      Concludes (args sub) d ⟨1, .empty, unreadableReport path fault, d⟩) ∧
    (∀ bytes e, d.read path = .ok bytes → (loadTree bytes .off).1 = .error e → ∀ sub,
      Concludes (args sub) d ⟨65, .empty, e.message ++ "\n", d⟩) ∧
    ∀ bytes root, d.read path = .ok bytes → (loadTree bytes .off).1 = .ok root →
      Concludes (args .dump) d ⟨0, (root.dump ++ "\n").toUTF8, "", d⟩ ∧
      (∀ j e m, root.Returns ⟨.initial, .unlimited, j⟩ (.error e) m → ∀ sub, sub ≠ .dump →
        Concludes (args sub) d ⟨70, m.sink.written, e.report ++ "\n", d⟩) ∧
      ∀ j v m, root.Returns ⟨.initial, .unlimited, j⟩ (.ok v) m →
        Concludes (args .run) d ⟨0, m.sink.written, "", d⟩ ∧
          Concludes (args .evaluate) d ⟨0, m.sink.written ++ (v.text ++ "\n").toUTF8, "", d⟩ := by
  refine ⟨fun fault hread sub => ?_, fun bytes e hread hload sub => ?_,
    fun bytes root hread hload => ⟨?_, fun j e m hrun sub hsub => ?_, fun j v m hrun => ?_⟩⟩
  · exact concludes_of_perform (hargs sub) 0 fun laps _ => ⟨_, by rw [hread]; rfl⟩
  · refine concludes_of_perform (hargs sub) 0 fun laps _ => ?_
    rw [hread]
    exact exists_perform_of_error hload laps sub
  · refine concludes_of_perform (hargs .dump) 0 fun laps _ => ?_
    rw [hread]
    exact exists_perform_dump hload laps
  · obtain ⟨bound, hprogram⟩ := hrun.runProgram_off
    refine concludes_of_perform (hargs sub) bound fun laps hle => ?_
    rw [hread, perform_of_ok hload laps hsub, runTree, hprogram laps hle]
    exact ⟨_, rfl⟩
  · obtain ⟨bound, hprogram⟩ := hrun.runProgram_off
    have hrun : Subcommand.run ≠ .dump := by decide
    have hevaluate : Subcommand.evaluate ≠ .dump := by decide
    refine ⟨concludes_of_perform (hargs .run) bound fun laps hle => ?_,
      concludes_of_perform (hargs .evaluate) bound fun laps hle => ?_⟩
    · rw [hread, perform_of_ok hload laps hrun, runTree, hprogram laps hle]
      exact ⟨_, rfl⟩
    · rw [hread, perform_of_ok hload laps hevaluate, runTree, hprogram laps hle]
      exact ⟨_, rfl⟩

/-- A program that prints before it fails, and a file that is missing beside it. -/
theorem endings_agree_failing_block :
    let args : String → Subcommand → List String := fun path sub => [sub.name, path]
    let root : Node := .block [.print (.literal (.boolean true)), .identifier "x"]
    let d : Directory := ⟨[(["p.json"], .file (Document.encode root).toUTF8)]⟩
    (∀ sub, Request.parse? (args "p.json" sub) = some (.command sub (some "p.json") false)) ∧
      Concludes (args "p.json" .dump) d ⟨0, "(block (print true) x)\n".toUTF8, "", d⟩ ∧
      (∀ sub, sub ≠ .dump → Concludes (args "p.json" sub) d ⟨70, "true\n".toUTF8,
        "Runtime error (UndefinedVariable): Undefined variable 'x'.\n", d⟩) ∧
      (∀ sub, Request.parse? (args "q.json" sub) = some (.command sub (some "q.json") false)) ∧
      ∀ sub, Concludes (args "q.json" sub) d
        ⟨1, .empty, unreadableReport "q.json" .notFound, d⟩ := by
  intro args root d
  have hargs : ∀ sub, Request.parse? (args "p.json" sub) =
      some (.command sub (some "p.json") false) := by
    rintro (_ | _ | _) <;> decide +kernel
  have hargs' : ∀ sub, Request.parse? (args "q.json" sub) =
      some (.command sub (some "q.json") false) := by
    rintro (_ | _ | _) <;> decide +kernel
  have hload : (loadTree (Document.encode root).toUTF8 .off).1 = .ok root := by
    rw [loadTree_encode_eq, Document.reload_of_nesting_le root nofun (by decide +kernel)]
    rfl
  have hrun : (Node.block [.print (.literal (.boolean true)), .identifier "x"]).Returns
      ⟨.initial, .unlimited, .off⟩ (.error (.undefinedVariable "x"))
      ⟨.initial, ⟨"true\n".toUTF8, none, .refuses⟩, .off⟩ := ⟨0, by cbv⟩
  have hdump : (root.dump ++ "\n").toUTF8 = "(block (print true) x)\n".toUTF8 := by
    decide +kernel
  have hreport : (RuntimeError.undefinedVariable "x").report ++ "\n" =
      "Runtime error (UndefinedVariable): Undefined variable 'x'.\n" := by decide +kernel
  obtain ⟨-, -, hloaded⟩ := endings_agree hargs d
  obtain ⟨hdumps, hfails, -⟩ := hloaded _ _ rfl hload
  obtain ⟨hmissing, -, -⟩ := endings_agree hargs' d
  rw [hdump] at hdumps
  refine ⟨hargs, hdumps, fun sub hsub => ?_, hargs', hmissing .notFound rfl⟩
  rw [← hreport]
  exact hfails _ _ _ hrun sub hsub

end Subcommand

end TreeScript
