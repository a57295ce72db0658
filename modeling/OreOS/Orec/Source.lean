import OreOS.Lib.Word

/-!
# Source text (`user/orec.c`)

The compiler walks over a C string with pointers. A pointer is the text from
there on; behind the end of the text the buffer is zero, so dereferencing the
end gives NUL. Loops over characters that can jump (comments, string literals)
are written as recursion over the text with what the loop is in the middle of.
-/

namespace OreOS.Orec

open OreOS.Lib (Word Byte)

/-- A `const char *`. -/
abbrev Source := List Char

/-- An identifier, without its NUL. -/
abbrev Name := List Char

def nul : Char := Char.ofNat 0
def newline : Char := Char.ofNat 10
def quote : Char := Char.ofNat 34
def backslash : Char := Char.ofNat 92
def openBrace : Char := Char.ofNat 0x7b
def closeBrace : Char := Char.ofNat 0x7d

/-- `*p`. -/
def peek (p : Source) : Char :=
  p.headD nul

/-! ## Characters -/

def isAlpha (c : Char) : Bool :=
  ('a' ≤ c && c ≤ 'z') || ('A' ≤ c && c ≤ 'Z') || c == '_'

def isDigit (c : Char) : Bool :=
  '0' ≤ c && c ≤ '9'

def isAlnum (c : Char) : Bool :=
  isAlpha c || isDigit c

def isSpace (c : Char) : Bool :=
  c == ' ' || c == Char.ofNat 9 || c == newline || c == Char.ofNat 13

def keywordAt (s : Source) (kw : Name) : Bool :=
  kw.isPrefixOf s && !isAlnum (peek (s.drop kw.length))

/-- `skip_ws`; in the middle of a comment when the flag is set. -/
def skipFrom : Bool → Source → Source
  | _, [] => []
  | true, c :: s => if c = newline then skipFrom false s else skipFrom true s
  | false, c :: s =>
    if isSpace c then skipFrom false s
    else if c = '/' ∧ peek s = '/' then skipFrom true s
    else c :: s

def skipWs (p : Source) : Source :=
  skipFrom false p

/-- `parse_ident`: the first 31 characters count. -/
def parseIdent (p : Source) : Option (Name × Source) :=
  let s := skipWs p
  if isAlpha (peek s) then some ((s.takeWhile isAlnum).take 31, s.dropWhile isAlnum) else none

def consume (p : Source) (c : Char) : Option Source :=
  let s := skipWs p
  if peek s = c then some s.tail else none

/-- `parse_uint`, in 64 bits. -/
def parseUint (p : Source) : Word × Source :=
  ((p.takeWhile isDigit).foldl (fun v c => v * 10 + BitVec.ofNat 64 (c.toNat - '0'.toNat)) 0,
    p.dropWhile isDigit)

/-! ## Operators -/

/-- The binary operators. -/
inductive BinOp
  | mul
  | div
  | mod
  | add
  | sub
  | shl
  | shr
  | bitand
  | bitor
  | eq
  | ne
  | le
  | ge
  | lt
  | gt
  deriving DecidableEq

def mulOperator (s : Source) : Option (BinOp × Source) :=
  if peek s = '*' then some (.mul, s.tail)
  else if peek s = '/' then some (.div, s.tail)
  else if peek s = '%' then some (.mod, s.tail)
  else none

def addOperator (s : Source) : Option (BinOp × Source) :=
  if peek s = '+' then some (.add, s.tail)
  else if peek s = '-' then some (.sub, s.tail)
  else none

def shiftOperator (s : Source) : Option (BinOp × Source) :=
  if peek s = '<' ∧ peek s.tail = '<' then some (.shl, s.tail.tail)
  else if peek s = '>' ∧ peek s.tail = '>' then some (.shr, s.tail.tail)
  else none

def bitandOperator (s : Source) : Option (BinOp × Source) :=
  if peek s ≠ '&' ∨ peek s.tail = '&' then none else some (.bitand, s.tail)

def bitorOperator (s : Source) : Option (BinOp × Source) :=
  if peek s ≠ '|' then none else some (.bitor, s.tail)

def cmpOperator (s : Source) : Option (BinOp × Source) :=
  if peek s = '=' ∧ peek s.tail = '=' then some (.eq, s.tail.tail)
  else if peek s = '!' ∧ peek s.tail = '=' then some (.ne, s.tail.tail)
  else if peek s = '<' ∧ peek s.tail = '=' then some (.le, s.tail.tail)
  else if peek s = '>' ∧ peek s.tail = '=' then some (.ge, s.tail.tail)
  else if peek s = '<' then some (.lt, s.tail)
  else if peek s = '>' then some (.gt, s.tail)
  else none

/-! ## String literals -/

def asciiBytes (s : Name) : List Byte :=
  s.map fun c => BitVec.ofNat 8 c.toNat

/-- The characters of a string literal, with its escapes, as far as there is
room for them. -/
def stringChars : Nat → Source → Name × Source
  | 0, s => ([], s)
  | room + 1, s =>
    match s with
    | [] => ([], [])
    | c :: s =>
      if c = quote then ([], c :: s)
      else if c = backslash ∧ peek s = 'n' then
        let r := stringChars room s.tail
        (newline :: r.1, r.2)
      else if c = backslash ∧ peek s = 'r' then
        let r := stringChars room s.tail
        (Char.ofNat 13 :: r.1, r.2)
      else if c = backslash ∧ peek s = 't' then
        let r := stringChars room s.tail
        (Char.ofNat 9 :: r.1, r.2)
      else
        let r := stringChars room s
        (c :: r.1, r.2)

/-- The loop that steps over a string literal, up to its closing quote. -/
def skipString : Source → Source
  | [] => []
  | c :: s =>
    if c = quote then c :: s
    else if c = backslash then
      match s with
      | [] => []
      | _ :: s => skipString s
    else skipString s

/-- What `find_matching_brace` is in the middle of. -/
inductive Within
  | code
  | comment
  | literal
  deriving DecidableEq

/-- `find_matching_brace`, at `depth` open braces. -/
def matchingBrace : Within → Nat → Source → Option Source
  | _, _, [] => none
  | .comment, depth, c :: s =>
    if c = newline then matchingBrace .code depth s else matchingBrace .comment depth s
  | .literal, depth, c :: s =>
    if c = quote then matchingBrace .code depth s
    else if c = backslash then
      match s with
      | [] => none
      | _ :: s => matchingBrace .literal depth s
    else matchingBrace .literal depth s
  | .code, depth, c :: s =>
    if c = '/' ∧ peek s = '/' then matchingBrace .comment depth s
    else if c = quote then matchingBrace .literal depth s
    else if c = openBrace then matchingBrace .code (depth + 1) s
    else if c = closeBrace then
      if depth = 1 then some (c :: s) else matchingBrace .code (depth - 1) s
    else matchingBrace .code depth s

def findMatchingBrace (p : Source) : Option Source :=
  matchingBrace .code 1 p

end OreOS.Orec
