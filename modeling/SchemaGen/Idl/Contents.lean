import SchemaGen.Idl.Diagnostic

namespace SchemaGen.Idl

/-- The containers around the innermost part of a type. -/
def FieldType.nesting : FieldType → Nat
  | base _ | named _ => 0
  | list element | set element => element.nesting + 1
  | map key value => max key.nesting value.nesting + 1

namespace ConstExpr

/- The lists and maps around the innermost part of a constant expression. -/
mutual

def nesting : ConstExpr → Nat
  | list items => itemsNesting items + 1
  | map entries => entriesNesting entries + 1
  | bool _ | int _ | double _ | string _ | identifier _ => 0

def itemsNesting : List ConstExpr → Nat
  | [] => 0
  | item :: rest => max (nesting item) (itemsNesting rest)

def entriesNesting : List (ConstExpr × ConstExpr) → Nat
  | [] => 0
  | (key, value) :: rest => max (max (nesting key) (nesting value)) (entriesNesting rest)

end

/- The names of constants in a constant expression. -/
mutual

def names : ConstExpr → List String
  | identifier name => [name]
  | list items => itemNames items
  | map entries => entryNames entries
  | bool _ | int _ | double _ | string _ => []

def itemNames : List ConstExpr → List String
  | [] => []
  | item :: rest => names item ++ itemNames rest

def entryNames : List (ConstExpr × ConstExpr) → List String
  | [] => []
  | (key, value) :: rest => names key ++ names value ++ entryNames rest

end
end ConstExpr

/-- The nesting of the type of a field or of its default, whichever is deeper. -/
def FieldDef.nesting (f : FieldDef) : Nat :=
  max f.type.nesting ((f.default.map ConstExpr.nesting).getD 0)

/-- Whether the types and the defaults of all structs are nested that deep at most. -/
def Document.isWithin (n : Nat) (d : Document) : Bool :=
  d.definitions.all fun
    | .struct b => b.fields.all fun f => decide (f.nesting ≤ n)
    | _ => true

/-- The values of the constants. -/
def Document.constants (d : Document) : List ConstExpr :=
  d.definitions.filterMap fun
    | .const _ _ value => some value
    | _ => none

theorem Document.nesting_le {d : Document} {n : Nat} (h : d.isWithin n = true) :
    ∀ b, .struct b ∈ d.definitions → ∀ f ∈ b.fields, f.nesting ≤ n := by
  intro b hb f hf
  have hstruct := List.all_eq_true.mp h (.struct b) hb
  exact of_decide_eq_true (List.all_eq_true.mp hstruct f hf)

/-- A text that is parsed to a document which passes a test. -/
theorem exists_parsed {source : String} {test : Document → Bool}
    (h : (parse source).toOption.any test = true) :
    ∃ d, parse source = .ok d ∧ test d = true := by
  cases hp : parse source with
  | error e =>
    rw [hp] at h
    cases h
  | ok d =>
    rw [hp] at h
    exact ⟨d, rfl, h⟩

end SchemaGen.Idl
