import StaticAnalysis.Json.Basic
import StaticAnalysis.Program.Graph

/-!
# Graphs as JSON

A picture of a control-flow graph for other tools: its points with the numbers of the edges that
enter and leave them, its edges with their actions as text, and its functions, loop heads and
checks.
-/

namespace StaticAnalysis.Graph

def nodeToJson (g : Graph) (node : Node) (n : Nat) : Json :=
  .ofFields [
    ("f", .ofString node.function),
    ("loc", .ofOption (fun l => .ofString l.text) node.location),
    ("in", .ofList (fun e => .ofNat e.1) (g.edgesInto n)),
    ("out", .ofList (fun e => .ofNat e.1) (g.edgesFrom n)),
    ("widen", .bool (g.isWideningPoint n)),
    ("loop", .bool (g.inLoop n))]

def toFields (g : Graph) : List (String × Json) := [
  ("nodes", .ofList (fun (node, n) => g.nodeToJson node n) g.nodes.toList.zipIdx),
  ("edges", .ofList
    (fun e => .list [.ofNat e.src, .ofNat e.dst, .ofString e.action.text]) g.edges.toList),
  ("functions", .ofList
    (fun f => .list [.ofString f.name, .ofNat f.entry, .ofNat f.exit]) g.functions.values),
  ("loop_heads", .ofList .ofNat g.loops.heads.toList),
  ("checks", .ofList
    (fun (id, n, c) => .ofList .ofString [Action.checkName id, nodeName n, c.text]) g.checks)]

end StaticAnalysis.Graph
