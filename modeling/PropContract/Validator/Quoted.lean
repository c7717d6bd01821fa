import PropContract.Text.Letter
import PropContract.Validator.Options

/-!
Strings and names in code. A name that is an identifier stands as it is, any other in quotes.
-/

namespace PropContract.Quoted

def escape (mark c : Char) : List Char :=
  if c = '\\' then ['\\', '\\']
  else if c = '\n' then ['\\', 'n']
  else if c = '\r' then ['\\', 'r']
  else if c = '\t' then ['\\', 't']
  else if c = mark then ['\\', c]
  else [c]

def encode (style : QuoteStyle) (s : String) : String :=
  String.ofList (style.mark :: (s.toList.flatMap (escape style.mark) ++ [style.mark]))

def isIdentifier (name : String) : Bool :=
  match name.toList with
  | [] => false
  | first :: rest =>
    (Text.isAlphabetic first || first = '_' || first = '$') &&
      rest.all fun c => Text.isAlphanumeric c || c = '_' || c = '$'

def key (style : QuoteStyle) (name : String) : String :=
  if isIdentifier name then name else encode style name

end PropContract.Quoted
