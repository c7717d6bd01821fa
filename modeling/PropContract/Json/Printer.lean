import PropContract.Json.Value
import PropContract.Number.Decimal

/-!
Writing JSON text, one member or item to a line, indented by two blanks a level. What has no
value is written as `null`.
-/

namespace PropContract.Json

def hexChar (n : Nat) : Char :=
  if n < 10 then Char.ofNat ('0'.toNat + n) else Char.ofNat ('a'.toNat + (n - 10))

def escapeChar (c : Char) : List Char :=
  if c = '"' then ['\\', '"']
  else if c = '\\' then ['\\', '\\']
  else if c = '\n' then ['\\', 'n']
  else if c = '\r' then ['\\', 'r']
  else if c = '\t' then ['\\', 't']
  else if c.toNat = 8 then ['\\', 'b']
  else if c.toNat = 12 then ['\\', 'f']
  else if c.toNat < 0x20 then ['\\', 'u', '0', '0', hexChar (c.toNat / 16), hexChar (c.toNat % 16)]
  else [c]

def quoted (s : String) : String :=
  String.ofList ('"' :: s.toList.flatMap escapeChar ++ ['"'])

/-- A real number: positional with a fraction between `1e-5` and `1e16`, otherwise with an
exponent. Infinities have no form of their own. -/
def realText : Double → String
  | .infinite _ => "null"
  | .finite negative m e =>
    let sign := Double.signText negative
    if m = 0 then String.ofList (sign ++ "0.0".toList)
    else
      let d := Decimal.shortest m e
      let power := d.exponent + (d.digits.length : Int) - 1
      if -5 ≤ power ∧ power < 16 then
        String.ofList (sign ++ d.positional ++ (if 0 ≤ d.exponent then ".0".toList else []))
      else String.ofList (sign ++ d.scientific)

def indentation (level : Nat) : String :=
  String.ofList (List.replicate (2 * level) ' ')

mutual

def pretty (level : Nat) : Json → String
  | null | unreadable => "null"
  | bool b => if b then "true" else "false"
  | integer i => toString i
  | real d => realText d
  | string s => quoted s
  | array [] => "[]"
  | array (item :: items) =>
    "[\n" ++ prettyItems (level + 1) (item :: items) ++ "\n" ++ indentation level ++ "]"
  | object [] => "\x7b\x7d"
  | object (m :: members) =>
    "\x7b\n" ++ prettyMembers (level + 1) (m :: members) ++ "\n" ++ indentation level ++ "\x7d"

def prettyItems (level : Nat) : List Json → String
  | [] => ""
  | [item] => indentation level ++ pretty level item
  | item :: items => indentation level ++ pretty level item ++ ",\n" ++ prettyItems level items

def prettyMembers (level : Nat) : List (String × Json) → String
  | [] => ""
  | [(name, value)] => indentation level ++ quoted name ++ ": " ++ pretty level value
  | (name, value) :: members =>
    indentation level ++ quoted name ++ ": " ++ pretty level value ++ ",\n" ++
      prettyMembers level members

end

def render (value : Json) : String :=
  pretty 0 value

mutual

def compact : Json → String
  | null | unreadable => "null"
  | bool b => if b then "true" else "false"
  | integer i => toString i
  | real d => realText d
  | string s => quoted s
  | array items => "[" ++ compactItems items ++ "]"
  | object members => "\x7b" ++ compactMembers members ++ "\x7d"

def compactItems : List Json → String
  | [] => ""
  | [item] => compact item
  | item :: items => compact item ++ "," ++ compactItems items

def compactMembers : List (String × Json) → String
  | [] => ""
  | [(name, value)] => quoted name ++ ":" ++ compact value
  | (name, value) :: members =>
    quoted name ++ ":" ++ compact value ++ "," ++ compactMembers members

end

end PropContract.Json
