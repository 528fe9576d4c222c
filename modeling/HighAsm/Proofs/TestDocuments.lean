import HighAsm.TestCase
import HighAsm.Proofs.Success

/-!
# Well-formed test documents

A test document is a row of fences, then sections that each begin with the heading of a test. It is
read as one case for each section, or not at all (`TestCase.ofBlocks_ok_iff`). Of the fences in the
input language only the last may hold text, and it does: a fence without content goes unnoticed, so
that a case may have several of them (`TestCase.ofBlocks_passes_over_empty`).
-/

namespace HighAsm

open List
open TestCase (inputLanguage configLanguage titleMark)

structure TestDocument.Fence where
  line : Nat
  language : Text
  content : Text
  deriving DecidableEq

/-- The heading of a test, and the fences up to the next one. -/
structure TestDocument.Section where
  name : Text
  line : Nat
  fences : List TestDocument.Fence

structure TestDocument where
  /-- The fences before the first test. -/
  opening : List TestDocument.Fence := []
  sections : List TestDocument.Section := []

namespace TestDocument

def Fence.block (f : Fence) : Markdown.Block := .fence f.line f.language f.content

def Section.blocks (s : Section) : List Markdown.Block :=
  .heading s.line (titleMark ++ s.name) :: s.fences.map Fence.block

def blocks (d : TestDocument) : List Markdown.Block :=
  d.opening.map Fence.block ++ d.sections.flatMap Section.blocks

/-- Headings that begin no test are prose. -/
def isProse : Markdown.Block → Bool
  | .heading _ title => !titleMark.isPrefixOf title
  | .fence .. => false

def ofBlocks : List Markdown.Block → TestDocument
  | [] => {}
  | .heading line title :: rest =>
    let d := ofBlocks rest
    if titleMark.isPrefixOf title then
      { sections := ⟨title.drop titleMark.length, line, d.opening⟩ :: d.sections }
    else d
  | .fence line language content :: rest =>
    let d := ofBlocks rest
    { d with opening := ⟨line, language, content⟩ :: d.opening }

/-- A document is its blocks without the prose. -/
theorem blocks_ofBlocks (bs : List Markdown.Block) :
    (ofBlocks bs).blocks = bs.filter (!isProse ·) := by
  fun_induction ofBlocks bs with
  | case1 => rfl
  | case2 line title rest d isTitle ih =>
    obtain ⟨name, rfl⟩ := isPrefixOf_iff_prefix.mp isTitle
    rw [filter_cons_of_pos (by simp [isProse]), ← ih]
    simp [blocks, Section.blocks, d]
  | case3 line title rest d other ih => rw [filter_cons_of_neg (by simpa [isProse] using other), ih]
  | case4 line language content rest d ih =>
    rw [filter_cons_of_pos (by rfl), ← ih]
    rfl

def contents (language : Text) (fences : List Fence) : List Text :=
  (fences.filter (·.language = language)).map (·.content)

def Fence.assertion? (f : Fence) : Option Assertion :=
  (AssertionKind.ofName? f.language).map fun kind =>
    ⟨kind, Text.trimEnd (· = Text.newline) f.content, f.line⟩

/-- The languages of fences in a test. Fences without a language are prose. -/
def languages : List Text :=
  [] :: inputLanguage :: configLanguage :: AssertionKind.all.map (·.name)

/-- A case with what fences add to it: the last input and settings, and every assertion. -/
def fill (c : TestCase) (fences : List Fence) : TestCase :=
  { c with
    input := (contents inputLanguage fences).getLastD c.input
    config := (contents configLanguage fences).getLastD c.config
    assertions := c.assertions ++ fences.filterMap Fence.assertion? }

def Section.testCase (s : Section) : TestCase := fill { name := s.name, line := s.line } s.fences

structure Section.WellFormed (s : Section) : Prop where
  known : ∀ f ∈ s.fences, f.language ∈ languages
  /-- At most the last input is not empty. -/
  inputs : ∀ t ∈ (contents inputLanguage s.fences).dropLast, t = []
  input : s.testCase.input ≠ []
  checked : s.testCase.assertions ≠ []

structure WellFormed (d : TestDocument) : Prop where
  opening : ∀ f ∈ d.opening, f.language = []
  sections : ∀ s ∈ d.sections, s.WellFormed

/-- The fences that complete a case which has been begun. -/
structure Completes (c : TestCase) (fences : List Fence) : Prop where
  known : ∀ f ∈ fences, f.language ∈ languages
  inputs : ∀ t ∈ (c.input :: contents inputLanguage fences).dropLast, t = []
  input : (fill c fences).input ≠ []
  checked : (fill c fences).assertions ≠ []

theorem wellFormed_iff (s : Section) :
    s.WellFormed ↔ Completes { name := s.name, line := s.line } s.fences := by
  have same : (∀ t ∈ (contents inputLanguage s.fences).dropLast, t = []) ↔
      ∀ t ∈ ([] :: contents inputLanguage s.fences).dropLast, t = [] := by
    cases contents inputLanguage s.fences <;> simp
  constructor
  · rintro ⟨known, inputs, input, checked⟩
    exact ⟨known, same.mp inputs, input, checked⟩
  · rintro ⟨known, inputs, input, checked⟩
    exact ⟨known, same.mpr inputs, input, checked⟩

section Steps

variable {c : TestCase} (f : Fence) (fences : List Fence)

theorem contents_cons (language : Text) : contents language (f :: fences) =
    if f.language = language then f.content :: contents language fences
    else contents language fences := by
  by_cases same : f.language = language <;> simp [contents, same]

theorem fill_cons : fill c (f :: fences) = fill (fill c [f]) fences := by
  have last (language other : Text) : (contents language (f :: fences)).getLastD other =
      (contents language fences).getLastD ((contents language [f]).getLastD other) := by
    rw [contents_cons, contents_cons]
    split
    · exact getLastD_cons ..
    · rfl
  simp only [fill, last, append_assoc, ← filterMap_append, singleton_append]

theorem fill_singleton : fill c [f] =
    { c with
      input := if f.language = inputLanguage then f.content else c.input
      config := if f.language = configLanguage then f.content else c.config
      assertions := c.assertions ++ f.assertion?.toList } := by
  have last (language other : Text) : (contents language [f]).getLastD other =
      if f.language = language then f.content else other := by
    rw [contents_cons]
    split <;> rfl
  rw [fill, last, last]
  cases found : f.assertion? <;> simp [found]

/-- A fence has a known language, and an input stands behind empty ones only. -/
def Fits (c : TestCase) (f : Fence) : Prop :=
  f.language ∈ languages ∧ (f.language = inputLanguage → c.input = [])

theorem completes_cons :
    Completes c (f :: fences) ↔ Fits c f ∧ Completes (fill c [f]) fences := by
  have inputs : (∀ t ∈ (c.input :: contents inputLanguage (f :: fences)).dropLast, t = []) ↔
      (f.language = inputLanguage → c.input = []) ∧
      ∀ t ∈ ((fill c [f]).input :: contents inputLanguage fences).dropLast, t = [] := by
    by_cases same : f.language = inputLanguage <;> simp [fill, contents, same]
  constructor
  · rintro ⟨known, empty, input, checked⟩
    rw [inputs] at empty
    rw [fill_cons] at input checked
    obtain ⟨known, later⟩ := forall_mem_cons.mp known
    exact ⟨⟨known, empty.1⟩, later, empty.2, input, checked⟩
  · rintro ⟨⟨known, first⟩, later, empty, input, checked⟩
    rw [← fill_cons] at input checked
    exact ⟨forall_mem_cons.mpr ⟨known, later⟩, inputs.mpr ⟨first, empty⟩, input, checked⟩

theorem addFence_ok_iff {d : TestCase} :
    c.addFence f.line f.language f.content = .ok d ↔ Fits c f ∧ fill c [f] = d := by
  obtain ⟨line, language, content⟩ := f
  simp only [TestCase.addFence, Fits, fill_singleton, Fence.assertion?, languages, mem_cons]
  split
  case isTrue isInput =>
    subst isInput
    have other : AssertionKind.ofName? inputLanguage = none := rfl
    have differs : inputLanguage ≠ configLanguage := by decide
    by_cases first : c.input = [] <;> simp [first, other, differs]
  case isFalse notInput =>
    split
    case isTrue isConfig =>
      subst isConfig
      have other : AssertionKind.ofName? configLanguage = none := rfl
      simp [notInput, other]
    case isFalse notConfig =>
      split
      case h_1 kind found =>
        have known : language ∈ AssertionKind.all.map (·.name) :=
          mem_map.mpr ⟨kind, mem_of_find?_eq_some found, by simpa using find?_some found⟩
        simp only [known, notInput, notConfig, found, or_true, false_implies, and_self, true_and,
          Except.ok.injEq, Option.map_some, Option.toList_some]
      case h_2 none_ =>
        have unknown : language ∉ AssertionKind.all.map (·.name) := by
          simpa [AssertionKind.ofName?] using none_
        by_cases empty : language = []
        · subst empty
          simp [notInput, notConfig, none_]
        · simp only [empty, notInput, notConfig, unknown, or_self, false_and, iff_false]
          simp [empty]

theorem complete_ok_iff {d : TestCase} : c.complete = .ok d ↔ Completes c [] ∧ fill c [] = d := by
  have filled : fill c [] = c := by simp [fill, contents]
  have iff : Completes c [] ↔ c.input ≠ [] ∧ c.assertions ≠ [] := by
    constructor
    · rintro ⟨-, -, input, checked⟩
      rw [filled] at input checked
      exact ⟨input, checked⟩
    · rintro ⟨input, checked⟩
      rw [← filled] at input checked
      exact ⟨forall_mem_nil _, forall_mem_nil _, input, checked⟩
  rw [iff, filled]
  by_cases input : c.input = [] <;> by_cases checked : c.assertions = [] <;>
    simp [TestCase.complete, input, checked]

end Steps

/-- A case that has been begun takes the fences up to the next test, and every section is a case. -/
theorem casesFrom_some_ok_iff {bs : List Markdown.Block} {c : TestCase} {cases : List TestCase} :
    TestCase.casesFrom (some c) bs = .ok cases ↔
      (Completes c (ofBlocks bs).opening ∧ ∀ s ∈ (ofBlocks bs).sections, s.WellFormed) ∧
      fill c (ofBlocks bs).opening :: (ofBlocks bs).sections.map (·.testCase) = cases := by
  induction bs generalizing c cases with
  | nil =>
    simp only [TestCase.casesFrom, ofBlocks, bind_ok_iff, pure_ok_iff, complete_ok_iff]
    constructor
    · rintro ⟨d, ⟨completes, rfl⟩, rfl⟩
      exact ⟨⟨completes, forall_mem_nil _⟩, rfl⟩
    · rintro ⟨⟨completes, -⟩, rfl⟩
      exact ⟨_, ⟨completes, rfl⟩, rfl⟩
  | cons b rest ih =>
    cases b with
    | fence line language content =>
      simp only [TestCase.casesFrom, ofBlocks, bind_ok_iff, ih]
      rw [completes_cons, fill_cons _ (ofBlocks rest).opening]
      constructor
      · rintro ⟨d, added, ⟨completes, others⟩, rfl⟩
        obtain ⟨fits, rfl⟩ := (addFence_ok_iff ⟨line, language, content⟩).mp added
        exact ⟨⟨⟨fits, completes⟩, others⟩, rfl⟩
      · rintro ⟨⟨⟨fits, completes⟩, others⟩, rfl⟩
        exact ⟨_, (addFence_ok_iff ⟨line, language, content⟩).mpr ⟨fits, rfl⟩,
          ⟨completes, others⟩, rfl⟩
    | heading line title =>
      by_cases isTitle : titleMark.isPrefixOf title
      · simp only [TestCase.casesFrom, ofBlocks, isTitle, if_true, bind_ok_iff, pure_ok_iff,
          complete_ok_iff, ih, forall_mem_cons, wellFormed_iff]
        constructor
        · rintro ⟨d, ⟨completes, rfl⟩, others, ⟨sections, rfl⟩, rfl⟩
          exact ⟨⟨completes, sections⟩, rfl⟩
        · rintro ⟨⟨completes, sections⟩, rfl⟩
          exact ⟨_, ⟨completes, rfl⟩, _, ⟨sections, rfl⟩, rfl⟩
      · simp only [TestCase.casesFrom, ofBlocks, isTitle]
        exact ih

theorem casesFrom_none_ok_iff {bs : List Markdown.Block} {cases : List TestCase} :
    TestCase.casesFrom none bs = .ok cases ↔
      (ofBlocks bs).WellFormed ∧ (ofBlocks bs).sections.map (·.testCase) = cases := by
  induction bs with
  | nil =>
    simp only [TestCase.casesFrom, ofBlocks, Except.ok.injEq]
    exact ⟨fun same => ⟨⟨forall_mem_nil _, forall_mem_nil _⟩, same⟩, And.right⟩
  | cons b rest ih =>
    cases b with
    | fence line language content =>
      by_cases empty : language = []
      · simp only [TestCase.casesFrom, ofBlocks, empty, isEmpty_nil, if_true, ih]
        refine and_congr_left' ⟨fun later => ?_, fun all => ?_⟩
        · exact ⟨forall_mem_cons.mpr ⟨rfl, later.opening⟩, later.sections⟩
        · exact ⟨(forall_mem_cons.mp all.opening).2, all.sections⟩
      · simp only [TestCase.casesFrom, ofBlocks, List.isEmpty_iff, empty, if_false, reduceCtorEq,
          false_iff]
        exact fun both => empty (both.1.opening _ mem_cons_self)
    | heading line title =>
      by_cases isTitle : titleMark.isPrefixOf title
      · simp only [TestCase.casesFrom, ofBlocks, isTitle, if_true, casesFrom_some_ok_iff,
          ← wellFormed_iff ⟨_, _, _⟩]
        exact and_congr_left' ⟨fun sections => ⟨forall_mem_nil _, forall_mem_cons.mpr sections⟩,
          fun wellFormed => forall_mem_cons.mp wellFormed.sections⟩
      · simp only [TestCase.casesFrom, ofBlocks, isTitle]
        exact ih

end TestDocument

/-- A document is read exactly when it is well formed. Each section is then one case, which takes
nothing from the other sections. -/
theorem TestCase.ofBlocks_ok_iff (blocks : List Markdown.Block) :
    ∃ d : TestDocument, d.blocks = blocks.filter (!TestDocument.isProse ·) ∧ ∀ cases,
      TestCase.ofBlocks blocks = .ok cases ↔ d.WellFormed ∧ d.sections.map (·.testCase) = cases :=
  ⟨.ofBlocks blocks, TestDocument.blocks_ofBlocks blocks,
    fun _ => TestDocument.casesFrom_none_ok_iff⟩

/-- An empty fence of the input language does not count. -/
theorem TestCase.ofBlocks_passes_over_empty :
    let fences : List TestDocument.Fence :=
      [⟨0, "nhla", []⟩, ⟨7, "nhla", "proc a()"⟩, ⟨11, "compile-error", []⟩]
    let s : TestDocument.Section := ⟨"a", 1, fences⟩
    TestCase.ofBlocks s.blocks = .ok [s.testCase] ∧
      (fences.filter (·.language = inputLanguage)).length = 2 := by
  exact ⟨rfl, rfl⟩

end HighAsm
