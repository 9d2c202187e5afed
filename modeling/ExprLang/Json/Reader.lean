import ExprLang.Json.Number

/-! Reading JSON documents. -/
namespace ExprLang.Json

def isBlank (c : Char) : Bool := c = ' ' || c = '\t' || c = '\n' || c = '\r'

def skipBlank (cs : List Char) : List Char := cs.dropWhile isBlank

def readUnit : List Char → Option (Nat × List Char)
  | a :: b :: c :: d :: cs => do
    let a ← Reading.digit? 16 a
    let b ← Reading.digit? 16 b
    let c ← Reading.digit? 16 c
    let d ← Reading.digit? 16 d
    some (((a * 16 + b) * 16 + c) * 16 + d, cs)
  | _ => none

def isHighSurrogate (u : Nat) : Bool := 0xD800 ≤ u && u < 0xDC00

def isLowSurrogate (u : Nat) : Bool := 0xDC00 ≤ u && u < 0xE000

/-- The character of an escape after its `u`, which may need a second escape. The character is
none when half of a pair is missing. -/
def readEscapedUnit (cs : List Char) : Option (Option Char × List Char) := do
  let (u, rest) ← readUnit cs
  if isHighSurrogate u then
    match rest with
    | '\\' :: 'u' :: rest' =>
      let (v, rest'') ← readUnit rest'
      if isLowSurrogate v then
        some (some (Char.ofNat (0x10000 + (u - 0xD800) * 0x400 + (v - 0xDC00))), rest'')
      else some (none, rest)
    | _ => some (none, rest)
  else if isLowSurrogate u then some (none, rest)
  else some (some (Char.ofNat u), rest)

def readEscape : List Char → Option (Option Char × List Char)
  | '"' :: cs => some (some '"', cs)
  | '\\' :: cs => some (some '\\', cs)
  | '/' :: cs => some (some '/', cs)
  | 'b' :: cs => some (some '\x08', cs)
  | 'f' :: cs => some (some '\x0c', cs)
  | 'n' :: cs => some (some '\n', cs)
  | 'r' :: cs => some (some '\r', cs)
  | 't' :: cs => some (some '\t', cs)
  | 'u' :: cs => readEscapedUnit cs
  | _ => none

/-- The characters up to the closing quote. They are none when an escape names no character. -/
def readChars : Nat → List Char → Option (Option (List Char) × List Char)
  | 0, _ => none
  | _ + 1, [] => none
  | n + 1, c :: cs =>
    if c = '"' then some (some [], cs)
    else if c = '\\' then do
      let (e, rest) ← readEscape cs
      let (more, rest') ← readChars n rest
      some (e.bind fun e => more.map (e :: ·), rest')
    else if c.toNat < 0x20 then none
    else do
      let (more, rest) ← readChars n cs
      some (more.map (c :: ·), rest)

def splitDigits (cs : List Char) : List Char × List Char :=
  (cs.takeWhile Char.isDigit, cs.dropWhile Char.isDigit)

def readFraction : List Char → Option (List Char × List Char)
  | '.' :: cs =>
    let (ds, rest) := splitDigits cs
    if ds.isEmpty then none else some (ds, rest)
  | cs => some ([], cs)

def readExponent : List Char → Option (Option (Bool × List Char) × List Char)
  | c :: cs =>
    if c = 'e' ∨ c = 'E' then
      let (down, body) := Reading.splitSign cs
      let (ds, rest) := splitDigits body
      if ds.isEmpty then none else some (some (down, ds), rest)
    else some (none, c :: cs)
  | [] => some (none, [])

def readNumber (cs : List Char) : Option (Json × List Char) := do
  let (negative, body) := match cs with
    | '-' :: rest => (true, rest)
    | _ => (false, cs)
  let (whole, rest) := splitDigits body
  if whole.isEmpty || (whole.head? == some '0' && 1 < whole.length) then none
  else do
    let (fraction, rest) ← readFraction rest
    let (exponent, rest) ← readExponent rest
    match JsonNumber.ofLiteral ⟨negative, whole, fraction, exponent⟩ with
    | some n => some (.number n, rest)
    | none => some (.unreadable, rest)

def readWord (word : String) (value : Json) (cs : List Char) : Option (Json × List Char) :=
  if word.toList.isPrefixOf cs then some (value, cs.drop word.length) else none

mutual

/-- Reads one value. The number bounds the steps, of which a character takes at most two. -/
def readValue : Nat → List Char → Option (Json × List Char)
  | 0, _ => none
  | n + 1, cs =>
    match skipBlank cs with
    | '[' :: rest =>
      match skipBlank rest with
      | ']' :: rest => some (.array [], rest)
      | rest => (readItems n rest).map fun (items, rest) => (.array items, rest)
    | '\x7b' :: rest =>
      match skipBlank rest with
      | '\x7d' :: rest => some (.object [], rest)
      | rest => (readMembers n rest).map fun (members, rest) =>
        (match members with | some ms => .object ms | none => .unreadable, rest)
    | '"' :: rest =>
      (readChars n rest).map fun (s, rest) =>
        (match s with | some s => .string (String.ofList s) | none => .unreadable, rest)
    | 'n' :: rest => readWord "null" .null ('n' :: rest)
    | 't' :: rest => readWord "true" (.bool true) ('t' :: rest)
    | 'f' :: rest => readWord "false" (.bool false) ('f' :: rest)
    | rest => readNumber rest

def readItems : Nat → List Char → Option (List Json × List Char)
  | 0, _ => none
  | n + 1, cs => do
    let (item, rest) ← readValue n cs
    match skipBlank rest with
    | ',' :: rest =>
      let (items, rest) ← readItems n rest
      some (item :: items, rest)
    | ']' :: rest => some ([item], rest)
    | _ => none

/-- The members of an object. They are none when a name has an escape that names no character. -/
def readMembers : Nat → List Char → Option (Option (List (String × Json)) × List Char)
  | 0, _ => none
  | n + 1, cs =>
    match skipBlank cs with
    | '"' :: rest => do
      let (name, rest) ← readChars n rest
      match skipBlank rest with
      | ':' :: rest =>
        let (value, rest) ← readValue n rest
        let member := name.map fun name => (String.ofList name, value)
        match skipBlank rest with
        | ',' :: rest =>
          let (members, rest) ← readMembers n rest
          some (member.bind fun m => members.map (m :: ·), rest)
        | '\x7d' :: rest => some (member.map ([·]), rest)
        | _ => none
      | _ => none
    | _ => none

end

def read? (text : List Char) : Option Json := do
  let (value, rest) ← readValue (2 * text.length + 1) text
  if (skipBlank rest).isEmpty then some value else none

def readStrict? (text : List Char) : Option Json :=
  (read? text).filter fun j => j.isReadable && j.nesting ≤ nestingLimit

end ExprLang.Json
