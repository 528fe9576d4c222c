import HighAsm.Text

/-!
# Tokens

What the scanner finds in a source line. A `Lexeme` is what a token says; a `Token` adds where it
stands. Lexemes are classified by their `Kind`, which has a name and a number.
-/

namespace HighAsm

inductive Block
  | ifBlock | whileLoop | forLoop
  deriving DecidableEq, Repr

def Block.word : Block → String
  | ifBlock => "if"
  | whileLoop => "while"
  | forLoop => "for"

inductive Keyword
  | proc
  | endproc
  | opens (block : Block)
  | closes (block : Block)
  deriving DecidableEq, Repr

namespace Keyword

def all : List Keyword :=
  [proc, endproc, opens .ifBlock, closes .ifBlock, opens .whileLoop, closes .whileLoop,
    opens .forLoop, closes .forLoop]

def word : Keyword → String
  | proc => "proc"
  | endproc => "endproc"
  | opens b => b.word
  | closes b => "end" ++ b.word

def ofWord? (spelling : String) : Option Keyword := all.find? (·.word == spelling)

end Keyword

inductive Mark
  | lparen | rparen | lbracket | rbracket | comma | colon
  | plus | minus | star | slash | percent | ampersand | bar | caret
  | store | wordAt | byteAt
  | hash | equal | less
  deriving DecidableEq, Repr

namespace Mark

def all : List Mark :=
  [lparen, rparen, lbracket, rbracket, comma, colon, plus, minus, star, slash, percent, ampersand,
    bar, caret, store, wordAt, byteAt, hash, equal, less]

def char : Mark → Char
  | lparen => '('
  | rparen => ')'
  | lbracket => '['
  | rbracket => ']'
  | comma => ','
  | colon => ':'
  | plus => '+'
  | minus => '-'
  | star => '*'
  | slash => '/'
  | percent => '%'
  | ampersand => '&'
  | bar => '|'
  | caret => '^'
  | store => '>'
  | wordAt => '!'
  | byteAt => '?'
  | hash => '#'
  | equal => '='
  | less => '<'

def ofChar? (c : Char) : Option Mark := all.find? (·.char == c)

def isOperator : Mark → Bool
  | plus | minus | star | slash | percent | ampersand | bar | caret => true
  | _ => false

def isRelation : Mark → Bool
  | hash | equal | less => true
  | _ => false

end Mark

inductive Lexeme
  | endOfFile
  | endOfLine
  | ident (name : String)
  /-- A numeral, of whatever size. -/
  | number (value : Nat)
  | keyword (word : Keyword)
  | mark (mark : Mark)
  deriving DecidableEq, Repr

namespace Lexeme

inductive Kind
  | endOfFile
  | endOfLine
  | ident
  | number
  | keyword (word : Keyword)
  | mark (mark : Mark)
  deriving DecidableEq, Repr

namespace Kind

def all : List Kind :=
  [endOfFile, endOfLine, ident, number] ++ Keyword.all.map keyword ++ Mark.all.map mark

def ofNumber? (n : Int) : Option Kind := if n < 0 then none else all[n.toNat]?

def name : Kind → String
  | endOfFile => "end of file"
  | endOfLine => "end of line"
  | ident => "identifier"
  | number => "number"
  | keyword w => w.word
  | mark m => m.char.toString

def isKeyword : Kind → Bool
  | keyword _ => true
  | _ => false

def isOperator : Kind → Bool
  | mark m => m.isOperator
  | _ => false

def isRelation : Kind → Bool
  | mark m => m.isRelation
  | _ => false

/-- How a token of a kind is quoted in messages: by its value, or by the kind's name when it has
no value. -/
def quote (kind : Kind) (value : Text) : Text := if value.isEmpty then kind.name else value

end Kind

def kind : Lexeme → Kind
  | endOfFile => .endOfFile
  | endOfLine => .endOfLine
  | ident _ => .ident
  | number _ => .number
  | keyword w => .keyword w
  | mark m => .mark m

/-- What a lexeme says beyond its kind: a name, or the decimal form of a number. -/
def value : Lexeme → String
  | ident name => name
  | number n => String.ofList (Nat.toDigits 10 n)
  | _ => ""

/-- How a lexeme is spelled in source text and quoted in messages. -/
def spelling (l : Lexeme) : String := if l.value.isEmpty then l.kind.name else l.value

def isKeyword : Lexeme → Bool
  | keyword _ => true
  | _ => false

end Lexeme

/-- A lexeme with its place: the line, the column of its first character, and its length. -/
structure Token where
  lexeme : Lexeme
  line : Int
  column : Nat
  length : Nat
  deriving DecidableEq, Repr

def isGlobalName (name : String) : Bool := name.toList.head? == some '$'

def Text.isGlobal (t : Text) : Bool := t.head? == some 36

end HighAsm
