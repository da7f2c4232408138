import StaticAnalysis.Invariant.Basic
import StaticAnalysis.Json.Serializer

/-!
# Invariants as text

Invariants are exchanged with other tools in the format of a serializer.  What runs is JSON, where
the layout and the order of the fields do not matter for reading, and fields that are not known are
skipped.
-/

namespace StaticAnalysis

def InvariantKind.names : List (String × InvariantKind) :=
  [("loop_invariant", .loopInvariant), ("precondition", .precondition)]

section

variable (S : Serializer)

def Location.fields : Fields S.Value (Nat × Nat × Unit) :=
  .cons "line" S.word32 <| .cons "column" S.word32 .nil

def Location.codec : Codec S.Value Location :=
  (S.record (Location.fields S)).via (fun l => (l.line, l.column, ()))
    fun (line, column, _) => ⟨line, column⟩

def Invariant.fields : Fields S.Value
    (InvariantKind × String × Nat × Option Location × List String × String × Unit) :=
  .cons "kind" (S.variant InvariantKind.names) <|
  .cons "function" S.text <|
  .cons "node" S.word32 <|
  .cons "location" (S.option (Location.codec S)) <|
  .cons "facts" (S.list S.text) <|
  .cons "expression" S.text .nil

def Invariant.codec : Codec S.Value Invariant :=
  (S.record (Invariant.fields S)).via
    (fun i => (i.kind, i.function, i.node, i.location, i.facts, i.expression, ()))
    fun (kind, function, node, location, facts, expression, _) =>
      { kind, function, node, location, facts, expression }

namespace InvariantExport

def fields : Fields S.Value (List Invariant × Unit) :=
  .cons "invariants" (S.list (Invariant.codec S)) .nil

def codec : Codec S.Value InvariantExport :=
  (S.record (fields S)).via (fun e => (e.invariants, ())) fun (invariants, _) => ⟨invariants⟩

def write? (e : InvariantExport) : Option S.Text := S.write? ((codec S).encode e)

def read? (s : S.Text) : Option InvariantExport := (S.read? s).bind (codec S).decode?

end InvariantExport
end

/-! ## JSON -/

def Location.toJson : Location → Json := (Location.codec Json.serializer).encode

namespace InvariantExport

def toJson : InvariantExport → Json := (codec Json.serializer).encode

def render (e : InvariantExport) : String := e.toJson.render

def parse? : String → Option InvariantExport := read? Json.serializer

end InvariantExport
end StaticAnalysis
