import PropContract.Shape.Basic

/-!
Shapes of types that projects use without declaring them: those of the component library, and
those that are global.
-/

namespace PropContract.Library

def isReact (module : String) : Bool :=
  ["react", "preact/compat", "@types/react"].contains module

def endsWith (name ending : String) : Bool :=
  ending.toList.isSuffixOf name.toList

def nodes : List String :=
  ["ReactNode", "ReactChild", "ReactFragment", "ReactChildren"]

def elements : List String :=
  ["ReactElement", "ReactPortal", "JSXElement"]

def elementTypes : List String :=
  ["ComponentType", "ElementType", "FC", "FunctionComponent", "VFC", "ComponentClass",
    "JSXElementConstructor", "ExoticComponent", "ForwardRefExoticComponent",
    "NamedExoticComponent", "LazyExoticComponent", "MemoExoticComponent"]

def objects : List String :=
  ["CSSProperties", "RefObject", "MutableRefObject"]

def functions : List String :=
  ["Ref", "LegacyRef", "ForwardedRef", "Dispatch", "EventHandler", "ReactEventHandler"]

def reactShape? (name : String) : Option Shape :=
  if nodes.contains name then some (.element .node)
  else if elements.contains name then some (.element .element)
  else if elementTypes.contains name then some (.element .elementType)
  else if name = "ReactText" then some (.union [.primitive .string, .primitive .number])
  else if objects.contains name then some (.primitive .object)
  else if functions.contains name || endsWith name "EventHandler" then some .function
  else none

def classes : List String :=
  ["Date", "RegExp", "Element", "HTMLElement", "Error", "Map", "Set", "WeakMap", "WeakSet",
    "File", "Blob"]

def isTagClass (name : String) : Bool :=
  decide ("HTMLElement".utf8ByteSize < name.utf8ByteSize) &&
    "HTML".toList.isPrefixOf name.toList && endsWith name "Element"

def globalShape? (name : String) : Option Shape :=
  if classes.contains name || isTagClass name then some (.instance name)
  else if ["Function", "CallableFunction", "NewableFunction"].contains name then some .function
  else if name = "Object" then some (.primitive .object)
  else if name = "String" then some (.primitive .string)
  else if name = "Number" then some (.primitive .number)
  else if name = "Boolean" then some (.primitive .boolean)
  else if name = "Symbol" then some (.primitive .symbol)
  else if name = "BigInt" then some (.primitive .bigInt)
  else none

end PropContract.Library
