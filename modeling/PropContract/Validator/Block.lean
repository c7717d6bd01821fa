import PropContract.Validator.Basic

namespace PropContract.Block

def textLines (s : String) : List String :=
  (Text.lines s.toList).map String.ofList

def docLine (line : String) : String :=
  if line.isEmpty then "   *\n" else "   * " ++ line ++ "\n"

def docText (o : ValidatorOptions) (p : PropInfo) : String :=
  match o.includeDocs, p.doc with
  | true, some doc => "  /**\n" ++ String.join ((textLines doc).map docLine) ++ "   */\n"
  | _, _ => ""

def oneLine (s : String) : String :=
  " ".intercalate ((Text.words s.toList).map String.ofList)

def typeComment (o : ValidatorOptions) (p : PropInfo) : String :=
  match o.includeComments, p.typeText with
  | true, some type => "  // " ++ oneLine type ++ "\n"
  | _, _ => ""

def entry (o : ValidatorOptions) (c : Component) (p : PropInfo) : String :=
  docText o p ++ typeComment o p ++ "  " ++ Quoted.key o.quotes p.name ++ ": " ++
    (Validator.ofComponent o c p.shape).text o ++ Validator.requiredText p.required ++ ",\n"

def ordered (o : ValidatorOptions) (c : Component) : List PropInfo :=
  if o.sortProps then c.props.mergeSort fun a b => decide (a.name ≤ b.name) else c.props

def entries (o : ValidatorOptions) (c : Component) : List (String × String) :=
  (ordered o c).map fun p => (p.name, entry o c p)

def commentText (o : ValidatorOptions) : String :=
  match o.comment with
  | some comment => String.join ((textLines comment).map fun line => "// " ++ line ++ "\n")
  | none => ""

def wrap (o : ValidatorOptions) (name : String) (entries : List String) : String :=
  commentText o ++ name ++
    if entries.isEmpty then ".propTypes = \x7b\x7d;\n"
    else ".propTypes = \x7b\n" ++ String.join entries ++ "\x7d;\n"

def ofComponent (o : ValidatorOptions) (c : Component) : String :=
  wrap o c.name ((entries o c).map Prod.snd)

def ofDocument (o : ValidatorOptions) (d : Document) : String :=
  "\n".intercalate (d.components.map (ofComponent o))

end PropContract.Block
