import HighAsm.Builder
import HighAsm.Scanner

/-!
# Reading source lines

A source line is read in three steps. What follows `//` outside quotes is dropped. The rest is cut
at its quotes; every other piece is a string literal, which is stored as it stands and replaced by
its address. What remains is put in lower case and scanned. The lines of a module become one
stream of tokens, with an end-of-line token between lines and an end-of-file token at the end.
-/

namespace HighAsm

namespace Source

def quote : UInt8 := 34

def slash : UInt8 := 47

/-- The part of a line before its comment. The flag says whether the line starts inside a
literal. -/
def code (quoted : Bool) : Text → Text
  | [] => []
  | b :: rest =>
    if b = quote then b :: code (!quoted) rest
    else if quoted = false ∧ b = slash ∧ rest.head? = some slash then []
    else b :: code quoted rest

/-- What reading leaves behind even when it fails: the stored literals and the remarks. -/
structure Output (γ : Type := Builder) where
  builder : γ
  cautions : List Caution := []

/-- A step of reading, with anything that stores literals. -/
abbrev Reader (γ : Type) := EStateM Failure (Output γ)

variable {γ : Type} [StringAllocator γ]

/-- The pieces of a line cut at its quotes as one text again, where literals are stored and
replaced by their addresses. Spaces keep an address apart from its neighbours. -/
def spell (line : Int) : List Text → Reader γ Text
  | [] => pure []
  | [outside] => pure outside
  | [_, literal] => throw (.fault line (.unterminatedLiteral (quote :: literal)))
  | outside :: literal :: others => do
    let (place, builder) := StringAllocator.store (← get).builder literal
    modify fun o => { o with builder := builder }
    let rest ← spell line others
    pure (Text.join [outside, " ", Text.ofInt place, " ", rest])

/-- The characters that are scanned: tabs count as spaces, white space at the ends is dropped, and
letters are put in lower case. -/
def scanned (t : Text) : List Char :=
  (Text.trimList isBlank (Text.chars (Text.untab t))).map lowerChar

def readLine (settings : Settings) (line : Int) (raw : Text) : Reader γ (List Token) := do
  let text ← spell line (Text.splitAt quote (code false raw))
  let result := Scanner.scan settings line ⟨scanned text, 1⟩
  modify fun o => { o with cautions := o.cautions ++ result.cautions }
  match result.failure? with
  | some failure => throw failure
  | none => pure result.tokens

/-- The tokens of lines that follow a number of lines, with a token between lines. -/
def readLines (settings : Settings) : Nat → List Text → Reader γ (List Token)
  | _, [] => pure []
  | before, [raw] => readLine settings (before + 1) raw
  | before, raw :: others => do
    let tokens ← readLine settings (before + 1) raw
    let more ← readLines settings (before + 1) others
    pure (tokens ++ ⟨.endOfLine, before + 1, 0, 0⟩ :: more)

def read (settings : Settings) (lines : List Text) : Reader γ (List Token) := do
  let tokens ← readLines settings 0 lines
  pure (tokens ++ [⟨.endOfFile, lines.length, 0, 0⟩])

end Source

end HighAsm
