/-!
# Quoted names

A name that comes from a file is shown between quotes in the journal. Quotes and backslashes inside
it are escaped, and so are the control characters, so that a name cannot look like the text around
it.
-/

namespace Rebase.Text

/-- A character as it stands between quotes. -/
def escape (c : Char) : List Char :=
  if c = '"' then ['\\', '"']
  else if c = '\\' then ['\\', '\\']
  else if c = '\n' then ['\\', 'n']
  else if c = '\r' then ['\\', 'r']
  else if c = '\t' then ['\\', 't']
  else if c.toNat = 0 then ['\\', '0']
  else if c.toNat < 0x20 ∨ c.toNat = 0x7F then
    "\\u\x7b".toList ++ Nat.toDigits 16 c.toNat ++ "\x7d".toList
  else [c]

/-- A name between quotes. -/
def quoted (name : String) : String := "\"" ++ String.ofList (name.toList.flatMap escape) ++ "\""

end Rebase.Text
