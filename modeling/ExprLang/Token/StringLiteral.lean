import ExprLang.Problem
import ExprLang.Number.Reading

/-! String literals and their escapes. -/
namespace ExprLang

/-- What follows a backslash. A line continuation stands for no character; an escape that is not
valid stands for none either and is reported. -/
structure Escape where
  lexeme : List Char
  rest : List Char
  value : Option Char
  isValid : Bool

namespace Escape

def isHexDigit (c : Char) : Bool := (Reading.digit? 16 c).isSome

def hexValue (ds : List Char) : Nat :=
  (ds.filterMap (Reading.digit? 16)).foldl (fun n d => 16 * n + d) 0

/-- The greatest code that is counted to. -/
def maxCode : Nat := 0xFFFFFFFF

/-- The value of any number of digits. One beyond the greatest code stays there. -/
def boundedHexValue (ds : List Char) : Nat :=
  (ds.filterMap (Reading.digit? 16)).foldl (fun n d => min (min (16 * n) maxCode + d) maxCode) 0

/-- Stands for code points that are halves of surrogate pairs. -/
def replacement : Char := '\uFFFD'

def charOf? (code : Nat) : Option Char :=
  if code.isValidChar then some (Char.ofNat code)
  else if code ≤ 0x10FFFF then some replacement
  else none

def scanFixed (mark : List Char) (count : Nat) (cs : List Char) : Escape :=
  let ds := (cs.take count).takeWhile isHexDigit
  let value := if ds.length = count then charOf? (hexValue ds) else none
  ⟨mark ++ ds, cs.drop ds.length, value, value.isSome⟩

def scanBraced (cs : List Char) : Escape :=
  let mark := ['u', '\x7b']
  let ds := cs.takeWhile isHexDigit
  match cs.dropWhile isHexDigit with
  | '\x7d' :: rest =>
    if ds.isEmpty then ⟨mark, '\x7d' :: rest, none, false⟩
    else
      let value := charOf? (boundedHexValue ds)
      ⟨mark ++ ds ++ ['\x7d'], rest, value, value.isSome⟩
  | rest => ⟨mark ++ ds, rest, none, false⟩

def named? (c : Char) : Option Char :=
  if c = 'n' then some '\n'
  else if c = 't' then some '\t'
  else if c = 'r' then some '\r'
  else if c = 'b' then some '\x08'
  else if c = 'f' then some '\x0c'
  else if c = 'v' then some '\x0b'
  else none

def scan : List Char → Escape
  | [] => ⟨[], [], none, true⟩
  | '\n' :: cs => ⟨['\n'], cs, none, true⟩
  | '\r' :: '\n' :: cs => ⟨['\r', '\n'], cs, none, true⟩
  | '\r' :: cs => ⟨['\r'], cs, none, true⟩
  | 'x' :: cs => scanFixed ['x'] 2 cs
  | 'u' :: '\x7b' :: cs => scanBraced cs
  | 'u' :: cs => scanFixed ['u'] 4 cs
  | '0' :: cs =>
    ⟨['0'], cs, some (if (cs.head?.map Char.isDigit).getD false then '0' else '\x00'), true⟩
  | c :: cs => ⟨[c], cs, some ((named? c).getD c), true⟩

theorem take_length_takeWhile (p : Char → Bool) (cs : List Char) (n : Nat) :
    (cs.take n).takeWhile p ++ cs.drop ((cs.take n).takeWhile p).length = cs := by
  induction n generalizing cs with
  | zero => simp
  | succ n ih =>
    cases cs with
    | nil => simp
    | cons c cs =>
      by_cases h : p c
      · simp [h, ih cs]
      · simp [h]

theorem lexeme_append_rest (cs : List Char) : (scan cs).lexeme ++ (scan cs).rest = cs := by
  fun_cases scan cs with
  | case5 cs => simp [scanFixed, take_length_takeWhile]
  | case6 cs =>
    have h : cs.takeWhile isHexDigit ++ cs.dropWhile isHexDigit = cs :=
      List.takeWhile_append_dropWhile
    simp only [scanBraced]
    split
    · rename_i rest heq
      rw [heq] at h
      split
      · rename_i hds
        rw [List.isEmpty_iff.1 hds] at h
        simpa using h
      · simp [h]
    · simp [h]
  | case7 cs => simp [scanFixed, take_length_takeWhile]
  | _ => rfl

theorem length_rest_le (cs : List Char) : (scan cs).rest.length ≤ cs.length := by
  have h := congrArg List.length (lexeme_append_rest cs)
  rw [List.length_append] at h
  omega

end Escape

structure StringBody where
  lexeme : List Char
  rest : List Char
  text : List Char
  closed : Bool
  findings : List Finding

namespace StringBody

/-- Reads the inside of a literal that begins at `p`. A line or the text may end before the
literal is closed. -/
def scan (quote : Char) (p : Position) (cs : List Char) : StringBody :=
  match cs with
  | [] => ⟨[], [], [], false, []⟩
  | c :: cs =>
    if c = '\n' then ⟨[], c :: cs, [], false, []⟩
    else if c = quote then ⟨[c], cs, [], true, []⟩
    else if c = '\\' then
      let e := Escape.scan cs
      let stop := (p.advance c).advanceBy e.lexeme
      let more := scan quote stop e.rest
      let found := if e.isValid then []
        else [⟨.invalidEscape (String.ofList (c :: e.lexeme)), ⟨p, stop⟩⟩]
      ⟨c :: e.lexeme ++ more.lexeme, more.rest, e.value.toList ++ more.text, more.closed,
        found ++ more.findings⟩
    else
      let more := scan quote (p.advance c) cs
      ⟨c :: more.lexeme, more.rest, c :: more.text, more.closed, more.findings⟩
termination_by cs.length
decreasing_by
  · have := Escape.length_rest_le cs
    simp only [List.length_cons]
    omega
  · simp

theorem lexeme_append_rest (quote : Char) (p : Position) (cs : List Char) :
    (scan quote p cs).lexeme ++ (scan quote p cs).rest = cs := by
  fun_induction scan quote p cs with
  | case1 => rfl
  | case2 => rfl
  | case3 => rfl
  | case4 p cs _ _ e stop more found ih =>
    simp only [List.cons_append, List.append_assoc]
    rw [ih, Escape.lexeme_append_rest]
  | case5 p c cs _ _ _ more ih => simp only [List.cons_append, ih, more]

end StringBody

end ExprLang
