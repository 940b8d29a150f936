/-! Flat TOML documents: comments and lines `key = value`, where a key is one
name and a value is a string or an integer. These are the documents that can
hold nothing but such settings; tables, dotted keys and other values are not
read. -/

namespace TamperEvident.Toml

inductive Setting where
  | integer (value : Int)
  | text (value : String)
  deriving DecidableEq, Repr

def isBlank (c : Char) : Bool := c == ' ' || c == '\t'

def skipBlank (text : List Char) : List Char := text.dropWhile isBlank

/-- Characters of comments and strings: no controls but the tab. -/
def isPlain (c : Char) : Bool := c == '\t' || (32 ≤ c.toNat && c.toNat ≠ 127)

def newline? : List Char → Option (List Char)
  | '\n' :: rest => some rest
  | '\r' :: '\n' :: rest => some rest
  | _ => none

def skipNewline (text : List Char) : List Char := (newline? text).getD text

def lineEnd (text : List Char) : Option (List Char) :=
  let rest := skipBlank text
  let rest :=
    match rest with
    | '#' :: comment => comment.dropWhile isPlain
    | rest => rest
  if rest.isEmpty then some [] else newline? rest

def digitValue? (c : Char) : Option Nat :=
  if '0' ≤ c ∧ c ≤ '9' then some (c.toNat - 48)
  else if 'a' ≤ c ∧ c ≤ 'f' then some (c.toNat - 87)
  else if 'A' ≤ c ∧ c ≤ 'F' then some (c.toNat - 55)
  else none

def codeChar? (digits : List Char) : Option Char := do
  let code ← digits.foldlM (fun n c => do return 16 * n + (← digitValue? c)) 0
  guard (code < 0xD800 ∨ (0xE000 ≤ code ∧ code < 0x110000))
  return Char.ofNat code

def escaped? : Char → Option Char
  | '"' => some '"'
  | '\\' => some '\\'
  | 'b' => some (Char.ofNat 8)
  | 'f' => some (Char.ofNat 12)
  | 'n' => some '\n'
  | 'r' => some '\r'
  | 't' => some '\t'
  | _ => none

def basicString : List Char → Option (List Char × List Char)
  | [] => none
  | '"' :: rest => some ([], rest)
  | '\\' :: 'u' :: a :: b :: c :: d :: rest => do
    let first ← codeChar? [a, b, c, d]
    let (more, rest) ← basicString rest
    return (first :: more, rest)
  | '\\' :: 'U' :: a :: b :: c :: d :: e :: f :: g :: h :: rest => do
    let first ← codeChar? [a, b, c, d, e, f, g, h]
    let (more, rest) ← basicString rest
    return (first :: more, rest)
  | '\\' :: e :: rest => do
    let first ← escaped? e
    let (more, rest) ← basicString rest
    return (first :: more, rest)
  | c :: rest => do
    guard (c ≠ '\\' && isPlain c)
    let (more, rest) ← basicString rest
    return (c :: more, rest)

/-- A string in single quotes after the opening one: nothing is escaped. -/
def literalString : List Char → Option (List Char × List Char)
  | [] => none
  | '\'' :: rest => some ([], rest)
  | c :: rest => do
    guard (isPlain c)
    let (more, rest) ← literalString rest
    return (c :: more, rest)

/-- Whether a backslash before `text` ends its line. -/
def endsLine (text : List Char) : Bool := (newline? (skipBlank text)).isSome

/-- A string in three double quotes after the opening ones. Up to two quotes may
stand before the closing ones. After a backslash that ends its line, blanks and
line ends are left out; `trimming` says that this is so. -/
def basicLines (trimming : Bool) : List Char → Option (List Char × List Char)
  | [] => none
  | '\r' :: '\n' :: rest => do
    let (more, rest) ← basicLines trimming rest
    return (if trimming then more else '\n' :: more, rest)
  | '\n' :: rest => do
    let (more, rest) ← basicLines trimming rest
    return (if trimming then more else '\n' :: more, rest)
  | '"' :: '"' :: '"' :: '"' :: '"' :: rest => some (['"', '"'], rest)
  | '"' :: '"' :: '"' :: '"' :: rest => some (['"'], rest)
  | '"' :: '"' :: '"' :: rest => some ([], rest)
  | '\\' :: 'u' :: a :: b :: c :: d :: rest => do
    let first ← codeChar? [a, b, c, d]
    let (more, rest) ← basicLines false rest
    return (first :: more, rest)
  | '\\' :: 'U' :: a :: b :: c :: d :: e :: f :: g :: h :: rest => do
    let first ← codeChar? [a, b, c, d, e, f, g, h]
    let (more, rest) ← basicLines false rest
    return (first :: more, rest)
  | '\\' :: e :: rest =>
    if endsLine (e :: rest) then basicLines true (e :: rest)
    else do
      let first ← escaped? e
      let (more, rest) ← basicLines false rest
      return (first :: more, rest)
  | c :: rest =>
    if trimming && isBlank c then basicLines true rest
    else do
      guard (c ≠ '\\' && isPlain c)
      let (more, rest) ← basicLines false rest
      return (c :: more, rest)

def literalLines : List Char → Option (List Char × List Char)
  | [] => none
  | '\r' :: '\n' :: rest => do
    let (more, rest) ← literalLines rest
    return ('\n' :: more, rest)
  | '\'' :: '\'' :: '\'' :: '\'' :: '\'' :: rest => some (['\'', '\''], rest)
  | '\'' :: '\'' :: '\'' :: '\'' :: rest => some (['\''], rest)
  | '\'' :: '\'' :: '\'' :: rest => some ([], rest)
  | c :: rest => do
    guard (c = '\n' || isPlain c)
    let (more, rest) ← literalLines rest
    return (c :: more, rest)

/-- Digits below `base`, single underscores between them. -/
def digitRun (base : Nat) : List Char → List Char × List Char
  | '_' :: c :: rest =>
    if ((digitValue? c).any (· < base)) then
      let (more, rest) := digitRun base rest
      (c :: more, rest)
    else ([], '_' :: c :: rest)
  | c :: rest =>
    if ((digitValue? c).any (· < base)) then
      let (more, rest) := digitRun base rest
      (c :: more, rest)
    else ([], c :: rest)
  | [] => ([], [])

/-- The value of digits; from `2 ^ 64` on it counts as `2 ^ 64`, which is no value
of an integer. -/
def magnitude (base : Nat) (digits : List Char) : Nat :=
  digits.foldl (fun n c => min (base * n + (digitValue? c).getD 0) (2 ^ 64)) 0

/-- An integer without sign: at least one digit, none of them after a zero in
front unless `zeros` are allowed there. -/
def unsigned (base : Nat) (zeros : Bool) (text : List Char) : Option (Nat × List Char) :=
  match text with
  | '0' :: rest =>
    if zeros then
      let (digits, rest) := digitRun base rest
      some (magnitude base digits, rest)
    else some (0, rest)
  | c :: rest =>
    if ((digitValue? c).any (· < base)) then
      let (digits, rest) := digitRun base rest
      some (magnitude base (c :: digits), rest)
    else none
  | [] => none

def integer (text : List Char) : Option (Int × List Char) := do
  let (value, rest) ← (match text with
    | '0' :: 'x' :: rest => (unsigned 16 true rest).map fun (n, rest) => ((n : Int), rest)
    | '0' :: 'o' :: rest => (unsigned 8 true rest).map fun (n, rest) => ((n : Int), rest)
    | '0' :: 'b' :: rest => (unsigned 2 true rest).map fun (n, rest) => ((n : Int), rest)
    | '+' :: rest => (unsigned 10 false rest).map fun (n, rest) => ((n : Int), rest)
    | '-' :: rest => (unsigned 10 false rest).map fun (n, rest) => (-(n : Int), rest)
    | rest => (unsigned 10 false rest).map fun (n, rest) => ((n : Int), rest))
  guard (-2 ^ 63 ≤ value ∧ value < 2 ^ 63)
  return (value, rest)

def setting (text : List Char) : Option (Setting × List Char) :=
  let ofText := Option.map fun ((found, rest) : List Char × List Char) =>
    (Setting.text (String.ofList found), rest)
  match text with
  | '"' :: '"' :: '"' :: rest => ofText (basicLines false (skipNewline rest))
  | '"' :: rest => ofText (basicString rest)
  | '\'' :: '\'' :: '\'' :: rest => ofText (literalLines (skipNewline rest))
  | '\'' :: rest => ofText (literalString rest)
  | rest => (integer rest).map fun (value, rest) => (.integer value, rest)

def isKeyChar (c : Char) : Bool := c.isAlphanum || c == '-' || c == '_'

def key (text : List Char) : Option (String × List Char) :=
  match text with
  | '"' :: rest => (basicString rest).map fun (found, rest) => (String.ofList found, rest)
  | '\'' :: rest => (literalString rest).map fun (found, rest) => (String.ofList found, rest)
  | text =>
    let found := text.takeWhile isKeyChar
    if found.isEmpty then none else some (String.ofList found, text.dropWhile isKeyChar)

def line (text : List Char) : Option ((String × Setting) × List Char) := do
  let (name, rest) ← key text
  let '=' :: rest := skipBlank rest | none
  let (value, rest) ← setting (skipBlank rest)
  return ((name, value), ← lineEnd rest)

/-- The lines of a document. Each takes one unit of `fuel` and a character. -/
def lines (fuel : Nat) (text : List Char) : Option (List (String × Setting)) :=
  match fuel with
  | 0 => none
  | fuel + 1 =>
    match skipBlank text with
    | [] => some []
    | text =>
      match lineEnd text with
      | some rest => lines fuel rest
      | none => do
        let (first, rest) ← line text
        return first :: (← lines fuel rest)

/-- The settings of a document in order, repeated keys kept. A mark of byte
order may stand in front. -/
def parse (text : String) : Option (List (String × Setting)) :=
  let chars := text.toList
  let chars := if chars.head? = some (Char.ofNat 0xFEFF) then chars.drop 1 else chars
  lines (chars.length + 1) chars

end TamperEvident.Toml
