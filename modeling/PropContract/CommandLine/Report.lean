import PropContract.CommandLine.Arguments
import PropContract.Json.Printer

namespace PropContract

inductive ReportStatus where
  | generated
  | injected
  | written
  | skipped
  | failed
  deriving DecidableEq, Repr, Inhabited

def ReportStatus.text : ReportStatus → String
  | generated => "generated"
  | injected => "injected"
  | written => "written"
  | skipped => "skipped"
  | failed => "failed"

structure Report where
  source : Path
  target : Option Path := none
  components : List String
  status : ReportStatus
  output : Option String := none
  message : Option String := none
  deriving DecidableEq, Repr, Inhabited

namespace Report

def toJson (r : Report) : Json :=
  .object ([("source", .string r.source.text)] ++
    Json.optionalMember "target" (r.target.map fun p => .string p.text) ++
    [("components", .array (r.components.map .string)), ("status", .string r.status.text)] ++
    Json.optionalMember "output" (r.output.map .string) ++
    Json.optionalMember "message" (r.message.map .string))

def lines (workspace : Path) (r : Report) : String :=
  let source := (r.source.relativeTo workspace).text
  let target := ((r.target.getD r.source).relativeTo workspace).text
  match r.status with
  | .generated | .injected => "// " ++ target ++ "\n" ++ r.output.getD "" ++ "\n"
  | .written => s!"{source} -> {target}: {r.components.length} component(s)\n"
  | .skipped => source ++ ": skipped: " ++ r.message.getD "" ++ "\n"
  | .failed => source ++ ": error: " ++ r.message.getD "" ++ "\n"

end Report

structure Summary where
  fileCount : Nat := 0
  componentCount : Nat := 0
  failedCount : Nat := 0
  deriving DecidableEq, Repr, Inhabited

namespace Summary

def ofReports (reports : List Report) : Summary where
  fileCount := reports.length
  componentCount := (reports.flatMap Report.components).length
  failedCount := (reports.filter fun r => r.status == .failed).length

def toJson (s : Summary) : Json :=
  .object [("fileCount", .integer s.fileCount), ("componentCount", .integer s.componentCount),
    ("failedCount", .integer s.failedCount)]

def plural (count : Nat) (word : String) : String :=
  if count = 1 then word else word ++ "s"

def line (s : Summary) : String :=
  let components := plural s.componentCount "component"
  let files := plural s.fileCount "file"
  s!"ts-proptypes processed {s.componentCount} {components} in {s.fileCount} {files} " ++
    s!"({s.failedCount} failed)"

end Summary

def Report.printed (style : OutputStyle) (workspace : Path) (reports : List Report) : String :=
  match style with
  | .human => String.join (reports.map (Report.lines workspace))
  | .json =>
    (Json.object [("files", .array (reports.map Report.toJson)),
      ("summary", (Summary.ofReports reports).toJson)]).render ++ "\n"

end PropContract
