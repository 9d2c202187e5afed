/-!
Texts in double quotes. Quotes, backslashes and control characters are escaped, everything else
stands for itself.
-/
namespace ExprLang.Text

def hexDigit (n : Nat) : Char := ("0123456789abcdef".toList[n]?).getD '0'

def quoteChar (c : Char) : List Char :=
  if c = '"' then ['\\', '"']
  else if c = '\\' then ['\\', '\\']
  else if c = '\x08' then ['\\', 'b']
  else if c = '\t' then ['\\', 't']
  else if c = '\n' then ['\\', 'n']
  else if c = '\x0c' then ['\\', 'f']
  else if c = '\r' then ['\\', 'r']
  else if c.toNat < 0x20 then
    ['\\', 'u', '0', '0', hexDigit (c.toNat / 16), hexDigit (c.toNat % 16)]
  else [c]

def quote (cs : List Char) : List Char := '"' :: cs.flatMap quoteChar ++ ['"']

def quoted (s : String) : String := String.ofList (quote s.toList)

end ExprLang.Text
