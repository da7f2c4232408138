import StaticAnalysis.Json.Parser

/-!
# Serializers

A type that is exchanged with other tools says only what it consists of: its fields with their
names, the names of its alternatives, which of its parts are optional.  How such a type is turned
into the values of a format, and those into text, is up to a `Serializer`, and nothing here depends
on which one it is.  `Json.serializer` is the one that runs.
-/

namespace StaticAnalysis

/-- How the values of a type become values `V` of a format, and the other way.  A record without the
field for such a value has `missing?` there, if anything. -/
structure Codec (V α : Type) where
  encode : α → V
  decode? : V → Option α
  missing? : Option α := none

/-- The same for another type, given the two conversions. -/
def Codec.via {V α β : Type} (c : Codec V α) (f : β → α) (g : α → β) : Codec V β where
  encode b := c.encode (f b)
  decode? v := (c.decode? v).map g
  missing? := c.missing?.map g

/-- The fields of a record, in order. -/
inductive Fields (V : Type) : Type → Type 1
  | nil : Fields V Unit
  | cons {α β : Type} (name : String) (c : Codec V α) (rest : Fields V β) : Fields V (α × β)

namespace Fields

variable {V α : Type}

def names : {α : Type} → Fields V α → List String
  | _, nil => []
  | _, cons name _ rest => name :: rest.names

def encode : {α : Type} → Fields V α → α → List (String × V)
  | _, nil, _ => []
  | _, cons name c rest, (a, b) => (name, c.encode a) :: rest.encode b

end Fields

/-- What a library for serialization provides: values of its format, codecs for the types there are,
and texts. -/
structure Serializer where
  Value : Type
  Text : Type
  /-- What is written for an optional value that is not there. -/
  null : Value
  text : Codec Value String
  /-- Natural numbers of 32 bits. -/
  word32 : Codec Value Nat
  option {α : Type} : Codec Value α → Codec Value (Option α)
  list {α : Type} : Codec Value α → Codec Value (List α)
  /-- Alternatives without contents, by their names. -/
  variant {α : Type} [DecidableEq α] : List (String × α) → Codec Value α
  record {α : Type} : Fields Value α → Codec Value α
  write? : Value → Option Text
  read? : Text → Option Value

/-! ## JSON -/

namespace Json

/-- The fields of a record among those of an object.  A field must not be there twice. -/
def decodeFields? : {α : Type} → Fields Json α → List (String × Json) → Option α
  | _, .nil, _ => some ()
  | _, .cons name c rest, fields => do
    let a ← match ← optional? fields name with
      | some v => c.decode? v
      | none => c.missing?
    return (a, ← decodeFields? rest fields)

def decodeOption? {α : Type} (c : Codec Json α) : Json → Option (Option α)
  | .null => some none
  | v => (c.decode? v).map some

def serializer : Serializer where
  Value := Json
  Text := String
  null := .null
  text := { encode := ofString, decode? := text? }
  word32 := { encode := ofNat, decode? := word32? }
  option c := { encode := ofOption c.encode, decode? := decodeOption? c, missing? := some none }
  list c := { encode := ofList c.encode, decode? := fun v => v.list?.bind (·.mapM c.decode?) }
  variant names :=
    { encode := fun a => ofString (((names.find? (·.2 = a)).map (·.1)).getD "")
      decode? := fun v => v.text?.bind fun s => (names.find? (·.1 = s)).map (·.2) }
  record fields :=
    { encode := fun a => ofFields (fields.encode a)
      decode? := fun v => v.object?.bind (decodeFields? fields) }
  write? v := some v.render
  read? := parse?

end Json
end StaticAnalysis
