import WordMachine.Flow.Report
import WordMachine.Json.Basic

/-!
# Reports as text and as data

A report is shown as a listing, as a summary with its edges, or as a data value.
-/

namespace WordMachine.Flow

open Text

def EdgeKind.short : EdgeKind → String
  | .fallthrough => "ft"
  | .branch => "br"
  | .condBranch => "cbr"
  | .call => "call"

/-- The words of a line, in decimal. -/
def ReportLine.wordsText (line : ReportLine) : String :=
  " ".intercalate (line.words.map fun w => decimal w.toInt)

/-- A line of a report as text, after the line of its label if it has one. -/
def ReportLine.render (line : ReportLine) (showWords : Bool) : String :=
  (match line.label with
    | some name => name ++ ":\n"
    | none => "") ++
  "  " ++ padLeft 5 ' ' (toString line.position) ++ ": " ++
  (if showWords then padRight 24 line.wordsText ++ " " else "") ++ line.text ++ "\n"

def Report.renderListing (r : Report) (showWords : Bool) : String :=
  String.join (r.listing.map fun line => line.render showWords)

def Edge.render (e : Edge) : String :=
  "  " ++ padLeft 5 ' ' (toString e.source) ++ " -> " ++ padLeft 5 ' ' (decimal e.target) ++
    " (" ++ e.kind.short ++ ")\n"

def bracketed (numbers : List Nat) : String :=
  "[" ++ ", ".intercalate (numbers.map toString) ++ "]"

def Report.renderSummary (r : Report) : String :=
  "Analysis summary:\n" ++
  "  entries     : " ++ bracketed r.entries ++ "\n" ++
  "  insts       : " ++ toString r.listing.length ++ "\n" ++
  "  edges       : " ++ toString r.edges.length ++ "\n" ++
  "  unreachable : " ++ bracketed r.unreachable ++ "\n" ++
  "Edges:\n" ++ String.join (r.edges.map Edge.render) ++
  (if r.badTargets.isEmpty then ""
    else "Targets off an instruction boundary:\n" ++ String.join (r.badTargets.map Edge.render))

/-- The summary of a report, followed by its listing. -/
def Report.renderText (r : Report) : String :=
  r.renderSummary ++ "\nListing:\n" ++ r.renderListing false

def Edge.toJson (e : Edge) : Json :=
  .object [("from", .integer e.source), ("to", .integer e.target), ("kind", .string e.kind.short)]

/-- A line of a report as a data value. -/
def ReportLine.toJson (line : ReportLine) : Json :=
  .object
    [("index", .integer line.position),
     ("words", .array (line.words.map fun w => .integer w.toInt)),
     ("text", .string line.text),
     ("label", match line.label with | some name => .string name | none => .null)]

def Report.toJson (r : Report) : Json :=
  .object
    [("entries", .array (r.entries.map fun (e : Nat) => .integer e)),
     ("listing", .array (r.listing.map ReportLine.toJson)),
     ("edges", .array (r.edges.map Edge.toJson)),
     ("labels", .array (r.labels.map fun (position, name) =>
        .object [("index", .integer position), ("name", .string name)])),
     ("bad_targets", .array (r.badTargets.map Edge.toJson)),
     ("unreachable", .array (r.unreachable.map fun (i : Nat) => .integer i))]

end WordMachine.Flow
