/-!
# Lexicographic comparison

Keys of the analyser's maps are compared field by field.  A comparison of fields is written
`compareLex (compareOn f) (compareOn g)`; it is transitive by the standard library's instances.
`Reads` says what such a comparison looks at, so that keys compare equal only if they are equal as
soon as the fields determine the key (`Reads.lawful`).
-/

namespace StaticAnalysis.Order

variable {α β γ : Type} {c d : α → α → Ordering} {f : α → β} {g : α → γ}

/-- Two keys compare equal exactly if they agree in `f`. -/
def Reads (c : α → α → Ordering) (f : α → β) : Prop := ∀ a b, c a b = .eq ↔ f a = f b

theorem Reads.on [Ord β] [Std.LawfulEqOrd β] : Reads (compareOn f) f := fun _ _ =>
  Std.compare_eq_iff_eq

theorem Reads.lex (hc : Reads c f) (hd : Reads d g) :
    Reads (compareLex c d) fun a => (f a, g a) := by
  intro a b
  rw [Prod.mk.injEq, ← hc a b, ← hd a b]
  exact Ordering.then_eq_eq

theorem Reads.lawful (hc : Reads c f) (h : ∀ a b, f a = f b → a = b) : Std.LawfulEqCmp c where
  compare_self := (hc _ _).2 rfl
  eq_of_compare hab := h _ _ ((hc _ _).1 hab)

end StaticAnalysis.Order
