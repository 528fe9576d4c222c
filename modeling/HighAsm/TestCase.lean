import HighAsm.Markdown

/-!
# Test documents

Tests of the assembler are written as Markdown documents. A heading `Test: <name>` begins a case.
Of the fences after it one holds the source of a module, another may hold settings, and the rest
are assertions, whose language says what is checked. Fences without a language are prose.
-/

namespace HighAsm

inductive AssertionKind
  | listing | execute | compileError | interface | warnings
  /-- Nothing is checked but that the module can be assembled. -/
  | other (name : Text)
  deriving DecidableEq, Repr

namespace AssertionKind

def name : AssertionKind → Text
  | listing => "listing"
  | execute => "execute"
  | compileError => "compile-error"
  | interface => "interface"
  | warnings => "warnings"
  | other name => name

def all : List AssertionKind := [listing, execute, compileError, interface, warnings]

def ofName? (language : Text) : Option AssertionKind := all.find? (·.name == language)

end AssertionKind

structure Assertion where
  kind : AssertionKind
  content : Text
  line : Int
  deriving DecidableEq, Repr

structure TestCase where
  name : Text
  input : Text := []
  config : Text := []
  line : Nat := 0
  assertions : List Assertion := []
  deriving DecidableEq, Repr

inductive TestDocumentError
  | outside (line : Nat) (language : Text)
  | secondInput (line : Nat) (test : Text)
  | unknownLanguage (line : Nat) (language test : Text)
  | noInput (test : Text)
  | noAssertions (test : Text)
  deriving DecidableEq, Repr

def TestDocumentError.message : TestDocumentError → Text
  | outside line language =>
    Text.join ["line ", Text.ofNat line, ": ", language, " fence outside of a test case"]
  | secondInput line test =>
    Text.join ["line ", Text.ofNat line, ": test '", test, "' has more than one nhla fence"]
  | unknownLanguage line language test =>
    Text.join ["line ", Text.ofNat line, ": unknown fence language '", language, "' in test '",
      test, "'"]
  | noInput test => Text.join ["test '", test, "' has no nhla fence"]
  | noAssertions test => Text.join ["test '", test, "' has no assertion fences"]

namespace TestCase

def titleMark : Text := "Test: "

def inputLanguage : Text := "nhla"

def configLanguage : Text := "toml"

/-- A case is complete when it has a source and something to check. -/
def complete (c : TestCase) : Except TestDocumentError TestCase :=
  if c.input.isEmpty then .error (.noInput c.name)
  else if c.assertions.isEmpty then .error (.noAssertions c.name)
  else .ok c

def addFence (c : TestCase) (line : Nat) (language content : Text) :
    Except TestDocumentError TestCase :=
  if language = inputLanguage then
    if c.input.isEmpty then .ok { c with input := content } else .error (.secondInput line c.name)
  else if language = configLanguage then .ok { c with config := content }
  else
    match AssertionKind.ofName? language with
    | some kind =>
      let a : Assertion := ⟨kind, Text.trimEnd (· = Text.newline) content, line⟩
      .ok { c with assertions := c.assertions ++ [a] }
    | none => if language.isEmpty then .ok c else .error (.unknownLanguage line language c.name)

/-- The cases of a list of blocks; the case that has been begun takes the first of them. -/
def casesFrom (current? : Option TestCase) :
    List Markdown.Block → Except TestDocumentError (List TestCase)
  | [] =>
    match current? with
    | some c => return [← c.complete]
    | none => .ok []
  | .heading line title :: rest =>
    if titleMark.isPrefixOf title then do
      let next : TestCase := { name := title.drop titleMark.length, line }
      match current? with
      | some c => return (← c.complete) :: (← casesFrom (some next) rest)
      | none => casesFrom (some next) rest
    else casesFrom current? rest
  | .fence line language content :: rest =>
    match current? with
    | some c => do casesFrom (some (← c.addFence line language content)) rest
    | none =>
      if language.isEmpty then casesFrom none rest else .error (.outside line language)

def ofBlocks (blocks : List Markdown.Block) : Except TestDocumentError (List TestCase) :=
  casesFrom none blocks

def ofDocument (t : Text) : Except TestDocumentError (List TestCase) :=
  ofBlocks (Markdown.blocks t)

end TestCase

end HighAsm
