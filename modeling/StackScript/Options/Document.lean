import StackScript.Numeral

/-!
# Option documents

Documents of lines `key = value` with comments, in the notation of TOML: a value is a text in one of
four kinds of quotes, or an integer in base ten, sixteen, eight or two.

* `Document.parse?` gives the keys and values of a document in order, `none` for any other text.
  Tables, dotted keys and other kinds of value have no place here, so a text with them is another
  one.
-/

namespace StackScript.Document

open Numeral

/-- A value of a document. -/
inductive Item where
  | text (s : String)
  | integer (n : Int)
  deriving DecidableEq, Repr

/-- A piece of a document and what follows it. -/
abbrev Piece (α : Type) := Option (α × List Char)

/-- Blanks within a line. -/
def isBlank (c : Char) : Bool := c == ' ' || c == '\t'

/-- Whether a character may stand in a text or a comment as it is: all but control characters, of
which only the tab may. -/
def isPlain (c : Char) : Bool := c == '\t' || (' ' ≤ c && c != '\x7f')

/-- What follows the end of a line: a line feed, with a carriage return before it or not. -/
def afterNewline? : List Char → Option (List Char)
  | '\n' :: cs => some cs
  | '\r' :: '\n' :: cs => some cs
  | _ => none

/-- A character put before the text of a piece. -/
def consPiece (c : Option Char) (p : Piece (List Char)) : Piece (List Char) :=
  match c, p with
  | some c, some (cs, rest) => some (c :: cs, rest)
  | _, _ => none

/-! ## Texts -/

/-- What one character after a backslash stands for. -/
def escape? : Char → Option Char
  | 'b' => some '\x08'
  | 't' => some '\t'
  | 'n' => some '\n'
  | 'f' => some '\x0c'
  | 'r' => some '\r'
  | '"' => some '"'
  | '\\' => some '\\'
  | _ => none

/-- The character whose number is given in base sixteen. -/
def scalar? (ds : List Char) : Option Char :=
  match natOf? 16 ds with
  | some n => if n.isValidChar then some (Char.ofNat n) else none
  | none => none

/-- The rest of a text in double quotes on one line. -/
def basic? : List Char → Piece (List Char)
  | [] => none
  | '"' :: cs => some ([], cs)
  | '\\' :: 'u' :: a :: b :: c :: d :: cs => consPiece (scalar? [a, b, c, d]) (basic? cs)
  | '\\' :: 'U' :: a :: b :: c :: d :: e :: f :: g :: h :: cs =>
    consPiece (scalar? [a, b, c, d, e, f, g, h]) (basic? cs)
  | '\\' :: c :: cs => consPiece (escape? c) (basic? cs)
  | c :: cs => if isPlain c && c != '\\' then consPiece (some c) (basic? cs) else none

/-- The rest of a text in single quotes on one line. -/
def literal? : List Char → Piece (List Char)
  | [] => none
  | '\'' :: cs => some ([], cs)
  | c :: cs => if isPlain c then consPiece (some c) (literal? cs) else none

/-- Whether only blanks stand before the end of the line. -/
def endsLine (cs : List Char) : Bool := (afterNewline? (cs.dropWhile isBlank)).isSome

/-- The rest of a text in three double quotes. Up to two quotes may stand before the closing ones. A
backslash at the end of a line drops the blanks and line ends after it, which the flag says is being
done. -/
def longBasic? : Bool → List Char → Piece (List Char)
  | _, [] => none
  | true, ' ' :: cs => longBasic? true cs
  | true, '\t' :: cs => longBasic? true cs
  | true, '\n' :: cs => longBasic? true cs
  | true, '\r' :: '\n' :: cs => longBasic? true cs
  | _, '"' :: '"' :: '"' :: '"' :: '"' :: cs => some (['"', '"'], cs)
  | _, '"' :: '"' :: '"' :: '"' :: cs => some (['"'], cs)
  | _, '"' :: '"' :: '"' :: cs => some ([], cs)
  | _, '\\' :: 'u' :: a :: b :: c :: d :: cs =>
    consPiece (scalar? [a, b, c, d]) (longBasic? false cs)
  | _, '\\' :: 'U' :: a :: b :: c :: d :: e :: f :: g :: h :: cs =>
    consPiece (scalar? [a, b, c, d, e, f, g, h]) (longBasic? false cs)
  | _, '\\' :: c :: cs =>
    if endsLine (c :: cs) then longBasic? true cs else consPiece (escape? c) (longBasic? false cs)
  | _, '\r' :: '\n' :: cs => consPiece (some '\n') (longBasic? false cs)
  | _, c :: cs =>
    if (isPlain c || c == '\n') && c != '\\' then consPiece (some c) (longBasic? false cs) else none

/-- The rest of a text in three single quotes. Up to two quotes may stand before the closing
ones. -/
def longLiteral? : List Char → Piece (List Char)
  | [] => none
  | '\'' :: '\'' :: '\'' :: '\'' :: '\'' :: cs => some (['\'', '\''], cs)
  | '\'' :: '\'' :: '\'' :: '\'' :: cs => some (['\''], cs)
  | '\'' :: '\'' :: '\'' :: cs => some ([], cs)
  | '\r' :: '\n' :: cs => consPiece (some '\n') (longLiteral? cs)
  | c :: cs => if isPlain c || c == '\n' then consPiece (some c) (longLiteral? cs) else none

/-- A text that may go over lines, without a line end right at its beginning. -/
def dropNewline (cs : List Char) : List Char := (afterNewline? cs).getD cs

/-! ## Integers -/

/-- The digits of a number, in groups that single underscores separate. -/
def groupedDigits? (base : Nat) (cs : List Char) : Option (List Char) :=
  let groups := cs.splitOn '_'
  if groups.all fun g => !g.isEmpty && g.all (isDigit base) then some groups.flatten else none

/-- A number in a base without a sign. -/
def unsigned? (base : Nat) (cs : List Char) : Option Int :=
  (groupedDigits? base cs).map fun ds => (ofDigits base ds : Int)

/-- A number in base ten after an optional sign; a number of several digits begins with no zero. -/
def signed? (cs : List Char) : Option Int :=
  let (negative, cs) := splitSign cs
  match groupedDigits? 10 cs with
  | none => none
  | some ds =>
    if ds.head? = some '0' ∧ ds.length ≠ 1 then none
    else
      let n : Int := ofDigits 10 ds
      some (if negative then -n else n)

/-- A number of 64 bits. -/
def integer? (cs : List Char) : Option Int :=
  let n := match cs with
    | '0' :: 'x' :: ds => unsigned? 16 ds
    | '0' :: 'o' :: ds => unsigned? 8 ds
    | '0' :: 'b' :: ds => unsigned? 2 ds
    | ds => signed? ds
  n.filter fun n => Int64.minValue.toInt ≤ n ∧ n ≤ Int64.maxValue.toInt

/-! ## Lines -/

/-- Whether a character ends a value without quotes. -/
def endsWord (c : Char) : Bool := isBlank c || c == '\n' || c == '\r' || c == '#'

/-- A text as a value. -/
def textItem (p : Piece (List Char)) : Piece Item :=
  p.map fun (cs, rest) => (.text (String.ofList cs), rest)

/-- The value at the beginning of a text. -/
def item? : List Char → Piece Item
  | '"' :: '"' :: '"' :: cs => textItem (longBasic? false (dropNewline cs))
  | '"' :: cs => textItem (basic? cs)
  | '\'' :: '\'' :: '\'' :: cs => textItem (longLiteral? (dropNewline cs))
  | '\'' :: cs => textItem (literal? cs)
  | cs =>
    (integer? (cs.takeWhile (!endsWord ·))).map fun n => (.integer n, cs.dropWhile (!endsWord ·))

/-- Whether a character may stand in a key without quotes. -/
def isKeyChar (c : Char) : Bool := c.isAlphanum || c == '_' || c == '-'

/-- The key at the beginning of a text. -/
def key? : List Char → Piece (List Char)
  | '"' :: cs => basic? cs
  | '\'' :: cs => literal? cs
  | cs => match cs.takeWhile isKeyChar with
    | [] => none
    | key => some (key, cs.dropWhile isKeyChar)

/-- What follows the rest of a line that holds at most a comment. -/
def afterLine? (cs : List Char) : Option (List Char) :=
  let rest := match cs.dropWhile isBlank with
    | '#' :: comment => comment.dropWhile isPlain
    | rest => rest
  if rest.isEmpty then some [] else afterNewline? rest

/-- The key and value at the beginning of a text, and what follows their line. -/
def entry? (cs : List Char) : Piece (String × Item) :=
  match key? cs with
  | none => none
  | some (key, cs) =>
    match cs.dropWhile isBlank with
    | '=' :: cs =>
      match item? (cs.dropWhile isBlank) with
      | none => none
      | some (item, cs) => (afterLine? cs).map fun rest => ((String.ofList key, item), rest)
    | _ => none

/-- The keys and values of a document of at most so many lines. -/
def entries? : Nat → List Char → Option (List (String × Item))
  | 0, _ => none
  | n + 1, cs =>
    match cs.dropWhile isBlank with
    | [] => some []
    | c :: cs =>
      if c = '#' ∨ c = '\n' ∨ c = '\r' then do entries? n (← afterLine? (c :: cs))
      else do
        let (entry, rest) ← entry? (c :: cs)
        let others ← entries? n rest
        some (entry :: others)

/-- The keys and values of a document; a byte order mark may come first. -/
def parse? (text : String) : Option (List (String × Item)) :=
  let cs := match text.toList with
    | '\uFEFF' :: cs => cs
    | cs => cs
  entries? (cs.length + 1) cs

end StackScript.Document
