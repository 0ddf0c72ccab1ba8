import SignalCatalog.Text.Printable
/-!
# Quoted text

How a string is shown inside a message: between double quotes, with a backslash before a quote or a backslash, short
names for a few controls and `\u` with the code point in braces for every other character that is not printable.
-/
namespace SignalCatalog
namespace Text

def escapeChar (c : Char) : List Char :=
  if c = '"' then ['\\', '"']
  else if c = '\\' then ['\\', '\\']
  else if c = '\n' then ['\\', 'n']
  else if c = '\r' then ['\\', 'r']
  else if c = '\t' then ['\\', 't']
  else if c.toNat = 0 then ['\\', '0']
  else if isPrintable c then [c]
  else ['\\', 'u', '\x7b'] ++ Nat.toDigits 16 c.toNat ++ ['\x7d']

/-- **A string between double quotes.** -/
def quoted (s : String) : String := "\"" ++ String.ofList (s.toList.flatMap escapeChar) ++ "\""

/-- A list of strings as a message shows it: `["a", "b"]`. -/
def quotedList (ss : List String) : String := "[" ++ ", ".intercalate (ss.map quoted) ++ "]"

end Text
end SignalCatalog
