/-!
The words of JSON text, by an automaton that reads one character at a time. Outside strings,
the characters that numbers and the three literal names are made of form one word as long as
they follow each other.
-/
namespace AblResolve.Json

inductive Lexeme where
  | openArray | closeArray | openObject | closeObject | comma | colon
  | null
  | bool (value : Bool)
  | number (literal : String)
  | string (text : Option String)
deriving Repr, DecidableEq

/-- A character of a string, or a code unit given by its four hexadecimal digits. -/
inductive Piece where
  | char (c : Char)
  | unit (code : Nat)

def isHighSurrogate (code : Nat) : Bool := 0xD800 ≤ code && code < 0xDC00

def isLowSurrogate (code : Nat) : Bool := 0xDC00 ≤ code && code < 0xE000

/-- The characters denoted, unless a surrogate stands without its partner. -/
def charsOf? : List Piece → Option (List Char)
  | [] => some []
  | .char c :: rest => (charsOf? rest).map (c :: ·)
  | .unit code :: rest =>
    if isHighSurrogate code then
      match rest with
      | .unit low :: rest =>
        if isLowSurrogate low then
          (charsOf? rest).map
            (Char.ofNat (0x10000 + (code - 0xD800) * 0x400 + (low - 0xDC00)) :: ·)
        else none
      | _ => none
    else if isLowSurrogate code then none
    else (charsOf? rest).map (Char.ofNat code :: ·)

def textOf? (pieces : List Piece) : Option String :=
  (charsOf? pieces).map String.ofList

/-- What the character after a backslash stands for. -/
def escaped? : Char → Option Char
  | '"' => some '"'
  | '\\' => some '\\'
  | '/' => some '/'
  | 'b' => some '\x08'
  | 'f' => some '\x0c'
  | 'n' => some '\n'
  | 'r' => some '\r'
  | 't' => some '\t'
  | _ => none

def hexDigit? (c : Char) : Option Nat :=
  if c.isDigit then some (c.toNat - '0'.toNat)
  else if 'a' ≤ c && c ≤ 'f' then some (c.toNat - 'a'.toNat + 10)
  else if 'A' ≤ c && c ≤ 'F' then some (c.toNat - 'A'.toNat + 10)
  else none

/-- An exponent, if one begins here, and nothing after it. -/
def isExponent : List Char → Bool
  | [] => true
  | e :: rest =>
    (e == 'e' || e == 'E') &&
      match rest with
      | '+' :: digits | '-' :: digits | digits => !digits.isEmpty && digits.all Char.isDigit

/-- A fraction and an exponent, each of which may be absent, and nothing after them. -/
def isFraction : List Char → Bool
  | '.' :: rest =>
    !(rest.takeWhile Char.isDigit).isEmpty && isExponent (rest.dropWhile Char.isDigit)
  | rest => isExponent rest

/-- A number without its sign: no zero before another digit. -/
def isUnsigned : List Char → Bool
  | '0' :: rest => isFraction rest
  | c :: rest => c.isDigit && isFraction (rest.dropWhile Char.isDigit)
  | [] => false

def isNumber : List Char → Bool
  | '-' :: rest => isUnsigned rest
  | word => isUnsigned word

/-- The lexeme a word is: a literal name or a number. -/
def wordLexeme? (word : List Char) : Option Lexeme :=
  if word = ['n', 'u', 'l', 'l'] then some .null
  else if word = ['t', 'r', 'u', 'e'] then some (.bool true)
  else if word = ['f', 'a', 'l', 's', 'e'] then some (.bool false)
  else if isNumber word then some (.number (String.ofList word))
  else none

def isWordChar (c : Char) : Bool :=
  c.isAlphanum || c == '-' || c == '+' || c == '.'

/-- Where the reader stands; what it has collected is in reverse order. -/
inductive LexState where
  | between
  | word (read : List Char)
  | text (read : List Piece)
  | escape (read : List Piece)
  | hex (read : List Piece) (digits value : Nat)

/-- Punctuation and blanks; anything else begins a word or a string, or is an error. -/
def begin? (c : Char) : Option (LexState × List Lexeme) :=
  match c with
  | ' ' | '\t' | '\n' | '\r' => some (.between, [])
  | '[' => some (.between, [.openArray])
  | ']' => some (.between, [.closeArray])
  | '\x7b' => some (.between, [.openObject])
  | '\x7d' => some (.between, [.closeObject])
  | ',' => some (.between, [.comma])
  | ':' => some (.between, [.colon])
  | '"' => some (.text [], [])
  | c => if isWordChar c then some (.word [c], []) else none

/-- One character: the next state and the lexemes completed by it. -/
def LexState.step? : LexState → Char → Option (LexState × List Lexeme)
  | .between, c => begin? c
  | .word read, c =>
    if isWordChar c then some (.word (c :: read), [])
    else do
      let lexeme ← wordLexeme? read.reverse
      let (state, more) ← begin? c
      some (state, lexeme :: more)
  | .text read, c =>
    if c = '"' then some (.between, [.string (textOf? read.reverse)])
    else if c = '\\' then some (.escape read, [])
    else if c.toNat < 0x20 then none
    else some (.text (.char c :: read), [])
  | .escape read, c =>
    if c = 'u' then some (.hex read 0 0, [])
    else (escaped? c).map fun e => (.text (.char e :: read), [])
  | .hex read digits value, c =>
    (hexDigit? c).map fun d =>
      let value := value * 16 + d
      if digits = 3 then (.text (.unit value :: read), []) else (.hex read (digits + 1) value, [])

/-- What is complete when the text ends here. -/
def LexState.finish? : LexState → Option (List Lexeme)
  | .between => some []
  | .word read => (wordLexeme? read.reverse).map ([·])
  | _ => none

/-- The lexemes of a text, after those in `done` (reversed). -/
def lexFrom? : List Char → LexState → List Lexeme → Option (List Lexeme)
  | [], state, done => state.finish?.map (done.reverse ++ ·)
  | c :: rest, state, done =>
    match state.step? c with
    | some (state, more) => lexFrom? rest state (more.reverse ++ done)
    | none => none

def lex? (text : String) : Option (List Lexeme) :=
  lexFrom? text.toList .between []

end AblResolve.Json
