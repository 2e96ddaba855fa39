/-
  ProgramQuery.Flow.Export

  Control flow graphs as texts: for Graphviz, for Mermaid and as JSON.
-/

import ProgramQuery.Flow.Graph
import ProgramQuery.Text.Json

namespace ProgramQuery.Flow

open Text (Json)

/-- The texts into which a graph can be exported. -/
inductive ExportFormat where
  | dot
  | mermaid
  | json
  deriving DecidableEq, Repr

namespace ExportFormat

/-- The name of a format. -/
def name : ExportFormat → String
  | .dot => "dot"
  | .mermaid => "mermaid"
  | .json => "json"

/-- The format of a name, which is in lower case. -/
def ofName? (s : String) : Option ExportFormat :=
  [dot, mermaid, json].find? (·.name == s)

end ExportFormat

/-- A text with every double quote replaced. -/
def replaceQuotes (replacement : String) (s : String) : String :=
  String.ofList (s.toList.flatMap fun c => if c = '"' then replacement.toList else [c])

namespace FlowGraph

/-- The graph for Graphviz. -/
def toDot (g : FlowGraph) : String :=
  let node (n : Node) : String :=
    "    " ++ toString n.id ++ " [label=\"" ++ toString n.id ++ ": " ++
      replaceQuotes "\\\"" n.code ++ "\"];\n"
  let edge (e : Edge) : String :=
    "    " ++ toString e.1 ++ " -> " ++ toString e.2 ++ ";\n"
  "digraph " ++ g.procedure ++ " \x7b\n" ++ String.join (g.nodes.map node) ++
    String.join (g.edges.map edge) ++ "\x7d"

/-- The graph for Mermaid. -/
def toMermaid (g : FlowGraph) : String :=
  let node (n : Node) : String :=
    "    s" ++ toString n.id ++ "[\"" ++ toString n.id ++ ": " ++
      replaceQuotes "#quot;" n.code ++ "\"]\n"
  let edge (e : Edge) : String :=
    "    s" ++ toString e.1 ++ " --> s" ++ toString e.2 ++ "\n"
  "graph TD\n" ++ String.join (g.nodes.map node) ++ String.join (g.edges.map edge)

/-- The graph as a JSON document. -/
def toJson (g : FlowGraph) : Json :=
  .object [
    ("procedure", .text g.procedure),
    ("nodes", .list (g.nodes.map fun n =>
      .object [("id", .number n.id), ("line", .number n.line), ("code", .text n.code)])),
    ("edges", .list (g.edges.map fun e => .list [.number e.1, .number e.2]))]

/-- The graph in a given format. -/
def exportAs (format : ExportFormat) (g : FlowGraph) : String :=
  match format with
  | .dot => g.toDot
  | .mermaid => g.toMermaid
  | .json => g.toJson.pretty

end FlowGraph

/-- Several graphs in a given format: one text after the other, or one array of
    documents. -/
def exportAll (format : ExportFormat) (graphs : List FlowGraph) : String :=
  match format with
  | .json => (Json.list (graphs.map FlowGraph.toJson)).pretty
  | _ => String.intercalate "\n" (graphs.map (FlowGraph.exportAs format))

end ProgramQuery.Flow
