import LiveQuery.Json

/-!
# JSON as text

Every value has one text, on one line and without blanks. A decimal keeps a digit on both sides of
its point, so its text is never that of an integer.
-/

namespace LiveQuery.Json

/-- The text of `mantissa / 10 ^ scale`. Zeros at the end are left out, except for one right after
the point. -/
def decimalText : (mantissa scale : Nat) → String
  | mantissa, 0 => toString mantissa ++ ".0"
  | mantissa, scale + 1 =>
    if mantissa % 10 = 0 then decimalText (mantissa / 10) scale
    else
      let digits := (Nat.toDigits 10 mantissa).leftpad (scale + 2) '0'
      let point := digits.length - (scale + 1)
      String.ofList (digits.take point ++ '.' :: digits.drop point)

/-- A zero more at the end changes no text. -/
theorem decimalText_mul_ten (mantissa scale : Nat) :
    decimalText (mantissa * 10) (scale + 1) = decimalText mantissa scale := by
  simp [decimalText]

/-- Quotes, backslashes and control characters cannot stand for themselves in a quoted text. -/
def escape (c : Char) : List Char :=
  if c = '"' ∨ c = '\\' then ['\\', c]
  else if c.toNat < 32 then
    ['\\', 'u', '0', '0', Nat.digitChar (c.toNat / 16), Nat.digitChar (c.toNat % 16)]
  else [c]

def quote (text : String) : String :=
  "\"" ++ String.ofList (text.toList.flatMap escape) ++ "\""

mutual

def render : Json → String
  | .null => "null"
  | .bool value => toString value
  | .int value => toString value
  | .decimal mantissa scale => (if mantissa < 0 then "-" else "") ++ decimalText mantissa.natAbs scale
  | .string text => quote text
  | .array items => "[" ++ ",".intercalate (renderItems items) ++ "]"
  | .object members => "\x7b" ++ ",".intercalate (renderMembers members) ++ "\x7d"

def renderItems : List Json → List String
  | [] => []
  | item :: items => item.render :: renderItems items

def renderMembers : List (String × Json) → List String
  | [] => []
  | (name, value) :: members => (quote name ++ ":" ++ value.render) :: renderMembers members

end

end LiveQuery.Json
