import HighAsm.Token

/-!
# Dividing a module into procedures

The lexemes of a module are divided at the word `proc`. A header runs through the first closing
parenthesis on its line, or to the end of the line when there is none; the body runs to the next
`proc` or to the end of the file.
-/

namespace HighAsm

/-- The source of one procedure, with the line of its header. -/
structure ProcedureSource where
  header : List Lexeme
  body : List Lexeme
  line : Int
  deriving DecidableEq, Repr

namespace ProcedureSource

inductive Part
  | before | header | body
  deriving DecidableEq, Repr

/-- What is left of the current header and of the current body, and the procedures after them. -/
structure Division where
  header : List Lexeme := []
  body : List Lexeme := []
  others : List ProcedureSource := []
  deriving DecidableEq, Repr

def divide : Part → Int → List Lexeme → Division
  | _, _, [] => {}
  | .before, line, l :: rest =>
    match l with
    | .keyword .proc =>
      let d := divide .header line rest
      { others := ⟨l :: d.header, d.body, line⟩ :: d.others }
    | .endOfLine => divide .before (line + 1) rest
    | _ => divide .before line rest
  | .header, line, l :: rest =>
    match l with
    | .mark .rparen => { divide .body line rest with header := [l] }
    | .endOfLine =>
      let d := divide .body (line + 1) rest
      { d with body := l :: d.body }
    | .endOfFile => divide .before line rest
    | _ =>
      let d := divide .header line rest
      { d with header := l :: d.header }
  | .body, line, l :: rest =>
    match l with
    | .keyword .proc =>
      let d := divide .header line rest
      { others := ⟨l :: d.header, d.body, line⟩ :: d.others }
    | .endOfLine =>
      let d := divide .body (line + 1) rest
      { d with body := l :: d.body }
    | .endOfFile => divide .before line rest
    | _ =>
      let d := divide .body line rest
      { d with body := l :: d.body }

def all (lexemes : List Lexeme) : List ProcedureSource := (divide .before 1 lexemes).others

end ProcedureSource

end HighAsm
