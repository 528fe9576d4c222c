import HighAsm.Expression

/-!
# The parts of statements

A statement ends at a line end, at a colon, or before the next reserved word; a statement with
parentheses ends at the closing one. What stands in the parentheses is a test, the number of rounds
of a loop, or the arguments of a call.
-/

namespace HighAsm

/-- The test under which a relation to zero does not hold. -/
def Mark.failTest? : Mark → Option Test
  | .hash => some .zero
  | .equal => some .nonZero
  | .less => some .nonNegative
  | _ => none

namespace Statement

inductive Parens
  | closed (inner : List Lexeme)
  | unbalanced
  | unclosed

/-- The lexemes from behind an opening parenthesis to the next closing one. -/
def parens : List Lexeme → Parens
  | [] => .unclosed
  | l :: rest =>
    match l with
    | .mark .rparen => .closed []
    | .mark .lparen | .mark .colon | .endOfLine | .endOfFile => .unbalanced
    | _ =>
      match parens rest with
      | .closed inner => .closed (l :: inner)
      | other => other

def parenthesized (first : Lexeme) : List Lexeme → Except Fault (List Lexeme)
  | .mark .lparen :: rest =>
    match parens rest with
    | .closed inner => .ok inner
    | .unbalanced => .error (.unbalancedParens first.spelling)
    | .unclosed => .error (.missingCloseParen first.spelling)
  | _ => .error (.missingOpenParen first.spelling)

def endsExpression (l : Lexeme) : Bool :=
  match l with
  | .endOfLine | .endOfFile | .mark .colon => true
  | other => other.isKeyword

/-- The test of a block or a loop: the lexemes of its expression, which is compared with zero, and
when it fails. -/
def test (block : Block) (inner : List Lexeme) : Except Fault (List Lexeme × Test) :=
  match inner.reverse with
  | .number n :: .mark relation :: front =>
    match relation.failTest? with
    | none => .error (.badTest block)
    | some test =>
      if front.isEmpty then .error (.badTest block)
      else if n ≠ 0 then .error (.testNotZero block (Lexeme.number n).spelling)
      else .ok (front.reverse, test)
  | _ => .error (.badTest block)

def arguments (scope : Scope) (name : String) : Nat → List Lexeme → Except Fault (List Operand)
  | _, [] => .ok []
  | _, [arg] => (scope.operand arg).map ([·])
  | position, arg :: comma :: rest =>
    if comma ≠ .mark .comma then .error (.badArgument position name)
    else do
      let operand ← scope.operand arg
      if rest.isEmpty then .error (.missingArgument name)
      else
        let more ← arguments scope name (position + 1) rest
        return operand :: more

end Statement

end HighAsm
