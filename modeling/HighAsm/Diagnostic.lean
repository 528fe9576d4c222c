import HighAsm.Text.Number

/-!
# Diagnostics

A diagnostic is a rejected piece of source text: of what kind the error is, on which line it stands,
and what is wrong. A `Problem` is any error, which may hold a diagnostic. Reports show the source
line that a diagnostic is about, underlined from its first to its last character that is no space.
-/

namespace HighAsm

inductive ErrorKind
  | malformedLiteral
  | duplicateIdentifier
  | unknownProcedure
  | undefinedVariable
  | badProcedureDefinition
  | badParameter
  | tooManyParameters
  | malformedExpression
  | codeOutsideProcedure
  | structureMismatch
  | unclosedStructure
  | invalidAssignmentTarget
  | undefined
  deriving DecidableEq, Repr

namespace ErrorKind

def all : List ErrorKind :=
  [malformedLiteral, duplicateIdentifier, unknownProcedure, undefinedVariable,
    badProcedureDefinition, badParameter, tooManyParameters, malformedExpression,
    codeOutsideProcedure, structureMismatch, unclosedStructure, invalidAssignmentTarget]

def name : ErrorKind → String
  | malformedLiteral => "malformed literal"
  | duplicateIdentifier => "duplicate identifier"
  | unknownProcedure => "unknown procedure"
  | undefinedVariable => "undefined variable"
  | badProcedureDefinition => "bad procedure definition"
  | badParameter => "bad parameter"
  | tooManyParameters => "too many parameters"
  | malformedExpression => "malformed expression"
  | codeOutsideProcedure => "code outside procedure"
  | structureMismatch => "structure mismatch"
  | unclosedStructure => "unclosed structure"
  | invalidAssignmentTarget => "invalid assignment target"
  | undefined => ""

def ofName? (name : Text) : Option ErrorKind := all.find? fun k => Text.ofString k.name == name

end ErrorKind

/-- An error in source text. Lines count from one; line zero means that the line is not known. -/
structure Diagnostic where
  kind : ErrorKind
  line : Int
  message : Text
  deriving DecidableEq, Repr

namespace Diagnostic

def text (d : Diagnostic) : Text :=
  let body := Text.join [d.kind.name, ": ", d.message]
  if 0 < d.line then Text.join ["line ", Text.ofInt d.line, ": ", body] else body

def atLine (d : Diagnostic) (line : Int) : Diagnostic :=
  if d.line = 0 then { d with line := line } else d

end Diagnostic

/-- Any error: free text, a diagnostic, or another error that was put into a wider context. -/
inductive Problem
  | plain (message : Text)
  | diagnostic (d : Diagnostic)
  | within (text : Text) (inner : Problem)

namespace Problem

def text : Problem → Text
  | plain message => message
  | diagnostic d => d.text
  | within text _ => text

def wrap (context : Text) (inner : Problem) : Problem :=
  within (Text.join [context, ": ", inner.text]) inner

def diagnostic? : Problem → Option Diagnostic
  | plain _ => none
  | diagnostic d => some d
  | within _ inner => inner.diagnostic?

def atLine (line : Int) : Problem → Problem
  | plain message => plain message
  | diagnostic d => diagnostic (d.atLine line)
  | within text inner => within text (inner.atLine line)

def isKind (p : Problem) (kind : ErrorKind) : Bool := p.diagnostic?.any (·.kind == kind)

end Problem

structure SourceFile where
  name : Text
  lines : List Text

namespace SourceFile

def label : Option SourceFile → Text
  | some ⟨[], _⟩ | none => "<input>"
  | some file => file.name

/-- A line of the file with a line of waves under it; nothing when there is no such line. -/
def echo (file? : Option SourceFile) (line : Int) : Text :=
  match file? with
  | none => []
  | some file =>
    if line < 1 then []
    else
      match file.lines[(line - 1).toNat]? with
      | none => []
      | some raw =>
        let text := Text.untab raw
        let body := Text.trimStart (· = 32) text
        let shown := Text.join ["  ", text, "\n"]
        if body.isEmpty then shown
        else
          let waves := Text.repeated (Text.trimEnd (· = 32) body).length 126
          Text.join [shown, "  ", Text.spaces (text.length - body.length), Text.colour 32, waves,
            Text.colour 0, "\n"]

def report (file? : Option SourceFile) (p : Problem) : Text :=
  let mark : Text := Text.join [Text.colour 31, "error:", Text.colour 0]
  match p.diagnostic? with
  | none => Text.join [label file?, ": ", mark, " ", p.text, "\n"]
  | some d =>
    Text.join [label file?, ":", Text.ofInt d.line, ": ", mark, " ", d.kind.name, ": ", d.message,
      "\n", echo file? d.line]

end SourceFile

end HighAsm
