import HighAsm.Crash
import HighAsm.Diagnostic
import HighAsm.Token

/-!
# What can be wrong with source text

Every way in which the assembler rejects source text is a `Fault`. Its kind and its wording are
given here, once; the assembler only says which fault it met and on which line.
-/

namespace HighAsm

/-- A reason for which source text is rejected. Tokens are quoted by their spelling. -/
inductive Fault
  | unterminatedLiteral (rest : Text)
  | unexpectedChar (c : Char)
  | badIdentifier (spelling : String)
  | badNumber (spelling : String)
  | duplicate (key : String)
  | unknownProcedure (name : String)
  | undefinedVariable (name : String)
  | badHeader
  | badParameter (token : String)
  | missingComma (token : String)
  | missingParameter
  | tooManyParameters (name : String) (given : Nat) (allowed : Int)
  | tooManyArguments (name : String) (given : Nat) (allowed : Int)
  | badArgument (position : Nat) (name : String)
  | missingArgument (name : String)
  | missingOpenParen (token : String)
  | unbalancedParens (token : String)
  | missingCloseParen (token : String)
  | badTest (block : Block)
  | testNotZero (block : Block) (number : String)
  | missingCount
  | missingTerm
  | unterminatedIndex (token : String)
  | missingOffset (mark : Mark)
  | indexedConstant (token : String)
  | variableOffset (token : String)
  | notATerm (token : String)
  | notAnOperator (token : String)
  | missingOperand (token : String)
  | indexedLater (token : String)
  | constantTarget (token : String)
  | codeOutsideProcedure (token : String)
  | mismatch (closing : Block) (opened : Option Block)
  | unclosed (block : Block)
  deriving DecidableEq, Repr

namespace Fault

def kind : Fault → ErrorKind
  | unterminatedLiteral _ => .malformedLiteral
  | duplicate _ => .duplicateIdentifier
  | unknownProcedure _ => .unknownProcedure
  | undefinedVariable _ => .undefinedVariable
  | badHeader => .badProcedureDefinition
  | badParameter _ | missingComma _ | missingParameter => .badParameter
  | tooManyParameters _ _ _ | tooManyArguments _ _ _ => .tooManyParameters
  | codeOutsideProcedure _ => .codeOutsideProcedure
  | mismatch _ _ => .structureMismatch
  | unclosed _ => .unclosedStructure
  | constantTarget _ => .invalidAssignmentTarget
  | unexpectedChar _ | badIdentifier _ | badNumber _ | badArgument _ _ | missingArgument _
  | missingOpenParen _ | unbalancedParens _ | missingCloseParen _ | badTest _ | testNotZero _ _
  | missingCount | missingTerm | unterminatedIndex _ | missingOffset _ | indexedConstant _
  | variableOffset _ | notATerm _ | notAnOperator _ | missingOperand _ | indexedLater _ =>
    .malformedExpression

/-- What a closing word is said to close when it meets an open block, or none. -/
def opened : Option Block → String
  | some block => block.word
  | none => "procedure start"

def message : Fault → Text
  | unterminatedLiteral rest => "unterminated string literal " ++ rest
  | unexpectedChar c => Text.join ["unexpected character '", Text.ofChars [c], "'"]
  | badIdentifier t => Text.join ["bad identifier '", t, "'"]
  | badNumber t => Text.join ["bad number '", t, "'"]
  | duplicate key => Text.join ["duplicate identifier '", key, "'"]
  | unknownProcedure name => Text.join ["unknown procedure '", name, "'"]
  | undefinedVariable name => Text.join ["variable '", name, "' not defined"]
  | badHeader => "expected proc <name>(<parameters>)"
  | badParameter t => Text.join ["bad parameter '", t, "'"]
  | missingComma t => Text.join ["expected ',' between parameters, found '", t, "'"]
  | missingParameter => "missing parameter after ','"
  | tooManyParameters name given allowed =>
    Text.join ["procedure '", name, "' has ", Text.ofNat given, " parameters, at most ",
      Text.ofInt allowed, " allowed"]
  | tooManyArguments name given allowed =>
    Text.join ["call to '", name, "' passes ", Text.ofNat given, " arguments, at most ",
      Text.ofInt allowed, " allowed"]
  | badArgument position name =>
    Text.join ["argument ", Text.ofNat position, " of '", name,
      "' must be a constant or a variable"]
  | missingArgument name => Text.join ["missing argument after ',' in call to '", name, "'"]
  | missingOpenParen t => Text.join ["expected '(' after '", t, "'"]
  | unbalancedParens t => Text.join ["unbalanced parentheses after '", t, "'"]
  | missingCloseParen t => Text.join ["missing ')' after '", t, "'"]
  | badTest block =>
    Text.join [block.word, " needs a test of the form (<expr>#0), (<expr>=0) or (<expr><0)"]
  | testNotZero block n => Text.join [block.word, " test must compare against 0, not ", n]
  | missingCount => "for needs an iteration count"
  | missingTerm => "missing term"
  | unterminatedIndex t => Text.join ["unterminated index on '", t, "'"]
  | missingOffset m => Text.join ["missing offset after '", m.char.toString, "'"]
  | indexedConstant t => Text.join ["cannot index constant ", t]
  | variableOffset t => Text.join ["variable offset '", t, "' not allowed"]
  | notATerm t => Text.join ["expected a term, found '", t, "'"]
  | notAnOperator t => Text.join ["expected an operator, found '", t, "'"]
  | missingOperand t => Text.join ["operator '", t, "' has no right operand"]
  | indexedLater t => Text.join ["indexed term '", t, "' must come first"]
  | constantTarget t => Text.join ["cannot assign to constant ", t]
  | codeOutsideProcedure t => Text.join ["'", t, "' before the first procedure"]
  | mismatch closing top => Text.join ["end", closing.word, " closes ", opened top]
  | unclosed block => Text.join [block.word, " is never closed"]

def on (f : Fault) (line : Int) : Diagnostic := ⟨f.kind, line, f.message⟩

end Fault

/-- Why reading or assembling stops: a fault on a line, or a crash. -/
inductive Failure
  | fault (line : Int) (fault : Fault)
  | crash (crash : Crash)
  deriving DecidableEq, Repr

end HighAsm
