import PropContract.Grammar.Items
import PropContract.Path

namespace PropContract

inductive SourceKind where
  | plain
  | markup
  | ambient
  deriving DecidableEq, Repr, Inhabited

namespace SourceKind

def endsWithAny (name : String) (endings : List String) : Bool :=
  endings.any fun ending => ending.toList.isSuffixOf name.toList

def ofPath? (p : Path) : Option SourceKind := do
  let name ← p.fileName?
  if endsWithAny name [".d.ts", ".d.mts", ".d.cts"] then some .ambient
  else if endsWithAny name [".tsx"] then some .markup
  else if endsWithAny name [".ts", ".mts", ".cts"] then some .plain
  else none

def dialect (kind : SourceKind) : Grammar.Dialect where
  typed := true
  markup := kind = .markup
  ambient := kind = .ambient

end SourceKind

end PropContract
