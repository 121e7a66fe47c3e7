import ExactJson.Text.Shapeless

/-!
Characters in the words of an error message. A character with a shape of its own is shown as it
is, and any other by an escape that can be seen.
-/
namespace ExactJson.Text

/-- A character as it stands between single quotes. Six of them have an escape of their own. -/
def shown (c : Char) : String :=
  if c = '\x00' then "\\0"
  else if c = '\t' then "\\t"
  else if c = '\r' then "\\r"
  else if c = '\n' then "\\n"
  else if c = '\'' then "\\'"
  else if c = '\\' then "\\\\"
  else if isShapeless c then
    "\\u\x7b" ++ String.ofList (Nat.toDigits 16 c.toNat) ++ "\x7d"
  else c.toString

end ExactJson.Text
