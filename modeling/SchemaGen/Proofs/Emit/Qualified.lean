import SchemaGen.Proofs.Emit.Rendering

namespace SchemaGen

open Text

/-- The constructors that a rendered type calls. -/
inductive Constructor where
  | leaf (kind : Leaf)
  | array
  | set
  | record
  | object
  | union
  deriving DecidableEq, Repr

def Constructor.name : Constructor → String
  | leaf kind => kind.name
  | array => "array"
  | set => "set"
  | record => "record"
  | object => "object"
  | union => "union"

/-- A rendered type in pieces: a constructor where it is called, or what stands between calls. -/
inductive Piece where
  | call (constructor : Constructor)
  | between (text : String)
  deriving DecidableEq, Repr

/-- The text of a piece; a qualifier stands before constructors only. -/
def Piece.spelling (p : String) : Piece → String
  | call constructor => p ++ constructor.name
  | between text => text

def spell (p : String) (pieces : List Piece) : String := String.join (pieces.map (Piece.spelling p))

/-- Rows of pieces with commas between them. -/
def commaRow : List (List Piece) → List Piece
  | [] => []
  | [row] => row
  | row :: next :: rest => row ++ .between ", " :: commaRow (next :: rest)

namespace CallTree

/- The pieces of a tree. Keys, literals and the marks of defaults and optional types stand between
calls. -/
mutual

def pieces : CallTree → List Piece
  | leaf kind => [.call (.leaf kind), .between "()"]
  | array element => .call .array :: .between "(" :: (pieces element ++ [.between ")"])
  | set element => .call .set :: .between "(" :: (pieces element ++ [.between ")"])
  | map key value =>
    .call .record :: .between "(" ::
      (pieces key ++ .between ", " :: (pieces value ++ [.between ")"]))
  | object [] => [.call .object, .between "(\x7b\x7d)"]
  | object properties =>
    .call .object :: .between "(\x7b " ::
      (commaRow (propertyPieces properties) ++ [.between " \x7d)"])
  | union members =>
    .call .union :: .between "([" :: (commaRow (memberPieces members) ++ [.between "])"])
  | default inner literal => pieces inner ++ [.between (".default(" ++ literal ++ ")")]
  | optional inner => pieces inner ++ [.between ".optional()"]

def memberPieces : List CallTree → List (List Piece)
  | [] => []
  | m :: rest => pieces m :: memberPieces rest

def propertyPieces : List (String × CallTree) → List (List Piece)
  | [] => []
  | (key, t) :: rest => (.between (objectKey key ++ ": ") :: pieces t) :: propertyPieces rest

end

end CallTree

section Spelling

variable (p : String)

@[simp] theorem spell_nil : spell p [] = "" := rfl

@[simp] theorem spell_call (constructor : Constructor) (rest : List Piece) :
    spell p (.call constructor :: rest) = p ++ constructor.name ++ spell p rest := by
  simp [spell, Piece.spelling]

@[simp] theorem spell_between (text : String) (rest : List Piece) :
    spell p (.between text :: rest) = text ++ spell p rest := by
  simp [spell, Piece.spelling]

@[simp] theorem spell_append (front back : List Piece) :
    spell p (front ++ back) = spell p front ++ spell p back := by
  simp [spell]

theorem spell_commaRow (rows : List (List Piece)) :
    spell p (commaRow rows) = joinWith ", " (rows.map (spell p)) := by
  match rows with
  | [] => rfl
  | [row] => rfl
  | row :: next :: rest =>
    rw [commaRow, spell_append, spell_between, spell_commaRow (next :: rest),
      ← String.append_assoc]
    rfl

namespace CallTree

/- The text of a tree is spelled in its pieces, by the structure of the tree. -/
mutual

theorem text_eq_spell (t : CallTree) : text p t = spell p (pieces t) := by
  match t with
  | leaf kind => simp [text, pieces, Constructor.name, String.append_assoc]
  | array element | set element =>
    rw [text, text_eq_spell element, ← String.toList_inj]
    simp [pieces, Constructor.name]
  | map key value =>
    rw [text, text_eq_spell key, text_eq_spell value, ← String.toList_inj]
    simp [pieces, Constructor.name]
  | object [] =>
    rw [text, propertyTexts, ← String.toList_inj]
    simp [SchemaType.objectText, pieces, Constructor.name]
  | object (property :: rest) =>
    rw [text, propertyTexts_eq_spell (property :: rest), ← String.toList_inj]
    simp [SchemaType.objectText, pieces, propertyPieces, spell_commaRow, Constructor.name]
  | union members =>
    rw [text, memberTexts_eq_spell members, ← String.toList_inj]
    simp [SchemaType.unionText, pieces, spell_commaRow, Constructor.name]
  | default inner literal => simp [text, pieces, text_eq_spell inner, String.append_assoc]
  | optional inner => simp [text, pieces, text_eq_spell inner]

theorem memberTexts_eq_spell (members : List CallTree) :
    memberTexts p members = (memberPieces members).map (spell p) := by
  match members with
  | [] => rfl
  | m :: rest => rw [memberTexts, memberPieces, List.map_cons, text_eq_spell m,
      memberTexts_eq_spell rest]

theorem propertyTexts_eq_spell (properties : List (String × CallTree)) :
    propertyTexts p properties = (propertyPieces properties).map (spell p) := by
  match properties with
  | [] => rfl
  | (key, t) :: rest =>
    rw [propertyTexts, propertyPieces, List.map_cons, spell_between, text_eq_spell t,
      propertyTexts_eq_spell rest]

end

end CallTree

end Spelling

namespace SchemaType

section Main

variable {p : String} {t u : SchemaType}

theorem readable_z : Readable (qualifier "z") := by
  have hz : qualifier "z" = "z." := by decide
  rw [hz]
  refine ⟨by simp, fun rest h => ?_⟩
  simp [startsWith] at h

theorem render_eq_spell (hp : Readable p) (h : t.Named) :
    render p t = spell p (callTree t).pieces := by
  rw [render_eq_text hp h, CallTree.text_eq_spell]

/-- Two types have the same text with one qualifier if they have with another. -/
theorem render_beq_bare (hp : Readable p) (ht : t.Named) (hu : u.Named) :
    (render p t == render p u) = (render "" t == render "" u) := by
  rw [Bool.eq_iff_iff, beq_iff_eq, beq_iff_eq, render_eq_iff ht hu, render_eq_text hp ht,
    render_eq_text hp hu]
  exact ⟨CallTree.text_injective hp.bracket (sealed_callTree ht) (sealed_callTree hu),
    congrArg (CallTree.text p)⟩

/-- The members of a union whose texts stay are the same with every qualifier. -/
theorem eraseDups_eq_keptMembers (hp : Readable p) {members : List SchemaType}
    (h : ∀ m ∈ members, m.Named) :
    (renderMembers p members).eraseDups = renderMembers p (keptMembers members) := by
  rw [renderMembers_eq_map, renderMembers_eq_map, eraseDups_map, keptMembers]
  congr 1
  exact eraseDupsBy_congr fun a ha b hb => render_beq_bare hp (h a ha) (h b hb)

theorem render_union_kept (hp : Readable p) {members : List SchemaType}
    (h : ∀ m ∈ members, m.Named) :
    render p (union members) = unionText p (renderMembers p (keptMembers members)) := by
  rw [render, eraseDups_eq_keptMembers hp h]

/-- The namespace `z` only qualifies constructors: a type is spelled in the same pieces bare and
qualified, and its unions keep the same members, in order. -/
theorem render_qualified (h : t.Named) :
    render "" t = spell "" (callTree t).pieces ∧
      render (qualifier "z") t = spell (qualifier "z") (callTree t).pieces ∧
      ∀ members : List SchemaType, (∀ m ∈ members, m.Named) →
        render "" (union members) = unionText "" (renderMembers "" (keptMembers members)) ∧
          render (qualifier "z") (union members) =
            unionText (qualifier "z") (renderMembers (qualifier "z") (keptMembers members)) := by
  refine ⟨render_eq_spell readable_empty h, render_eq_spell readable_z h, fun members hm => ?_⟩
  exact ⟨render_union_kept readable_empty hm, render_union_kept readable_z hm⟩

/-- An object with a key and a literal that look like calls. -/
def lookalike (name : String) : SchemaType :=
  object [("z.set()", ⟨name, default string (.string "array(any())"), []⟩)]

/-- Two objects of the same text, around a default that looks like a constructor. -/
def lookalikes : List SchemaType :=
  [lookalike "set", default any (.identifier "z.any"), lookalike "array"]

theorem render_qualified_lookalikes :
    (∀ m ∈ lookalikes, m.Named) ∧ (array (union lookalikes)).Named ∧
      spell "" (callTree (array (union lookalikes))).pieces =
        "array(union([object(\x7b 'z.set()': string().default('array(any())') \x7d), " ++
          "any().default(z.any)]))" ∧
      spell (qualifier "z") (callTree (array (union lookalikes))).pieces =
        "z.array(z.union([z.object(\x7b 'z.set()': z.string().default('array(any())') \x7d), " ++
          "z.any().default(z.any)]))" ∧
      unionText (qualifier "z") (renderMembers (qualifier "z") (keptMembers lookalikes)) =
        render (qualifier "z") (union lookalikes) := by
  have hobject (name : String) : (lookalike name).Named := by
    refine .object fun f hf => ?_
    rw [List.mem_singleton.mp hf]
    exact .default .string (.string _)
  have hany : (default any (.identifier "z.any")).Named := .default .any (.identifier (by decide))
  have hmembers : ∀ m ∈ lookalikes, m.Named := by simp [lookalikes, hobject, hany]
  have hnamed : (array (union lookalikes)).Named := .array (.union hmembers)
  obtain ⟨hbare, hqualified, hunions⟩ := render_qualified hnamed
  rw [← hbare, ← hqualified]
  exact ⟨hmembers, hnamed, by decide +kernel, by decide +kernel,
    (hunions lookalikes hmembers).2.symm⟩

end Main

end SchemaType
end SchemaGen
