import SchemaGen.Proofs.Idl.FieldMirror

namespace SchemaGen.Idl

open Peg Reader

variable {n : Nat} {α : Type} (source : List Char)

/-- A node that the walk over a document keeps as a definition. -/
def KeptDefinition : List ParseTree → Definition → Prop :=
  Keeps (ParseTree.documentPart source) fun d x => { d with definitions := d.definitions ++ [x] }

/-- A node that the walk over a document keeps as a header. -/
def KeptHeader : List ParseTree → Header → Prop :=
  Keeps (ParseTree.documentPart source) fun d x => { d with headers := d.headers ++ [x] }

theorem structField_kept :
    Mirrors n (.rule .field) field
      (Keeps (ParseTree.structPart source) fun s f => { s with fields := s.fields ++ [f] }) := by
  apply (field_mirrors source).keeps
  intro f s t hr ht
  simp [ParseTree.structPart, hr, ht]

theorem structNotes_kept :
    Mirrors n (.rule .annotations) annotations
      (Keeps (ParseTree.structPart source) fun s notes => { s with annotations := notes }) := by
  apply (annotations_mirrors source).keeps
  intro notes s t hr ht
  simp [ParseTree.structPart, hr, ht]

theorem structBody_mirrors (keyword : String) (r : Rule) :
    Mirrors n (Grammar.fieldsDef keyword) (structBody keyword) fun ns s => ∀ start text,
      ParseTree.structBody source ⟨r, start, text, ns⟩ = .ok s := by
  refine (token_mirrors keyword).bind ?_
  rintro _ _ rfl
  refine identifier_mirrors.bind ?_
  rintro _ name ⟨t, rfl, -, ht⟩
  refine (token_mirrors "\x7b").bind ?_
  rintro _ _ rfl
  refine ((structField_kept source).many field_consumes).bind fun fs fields hfields => ?_
  refine (token_mirrors "\x7d").bind ?_
  rintro _ _ rfl
  refine (structNotes_kept source).maybe.last fun as notes hnotes start text => ?_
  have hall := Each.keeps (g := fun (s : StructDef) fields =>
    { s with fields := s.fields ++ fields }) hfields (by simp) (by simp)
  have hfound : (fs ++ as).foldlM (ParseTree.structPart source) ⟨name, [], []⟩ =
      .ok ⟨name, fields, notes.getD []⟩ := by
    rw [foldlM_append_ok (hall _), hnotes.keeps]
    cases notes <;> rfl
  cases ht
  simpa [ParseTree.structBody, ParseTree.expect] using hfound

theorem structDef_mirrors :
    Mirrors n (.rule .structDef) (Definition.struct <$> structBody "struct")
      (KeptDefinition source) := by
  apply Mirrors.node rfl
  refine (structBody_mirrors source "struct" .structDef).map fun ns s h start text d => ?_
  simp [ParseTree.documentPart, h]

theorem unionDef_mirrors :
    Mirrors n (.rule .unionDef) (Definition.union <$> structBody "union")
      (KeptDefinition source) := by
  apply Mirrors.node rfl
  refine (structBody_mirrors source "union" .unionDef).map fun ns s h start text d => ?_
  simp [ParseTree.documentPart, h]

theorem exceptionDef_mirrors :
    Mirrors n (.rule .exceptionDef) (Definition.exception <$> structBody "exception")
      (KeptDefinition source) := by
  apply Mirrors.node rfl
  refine (structBody_mirrors source "exception" .exceptionDef).map fun ns s h start text d => ?_
  simp [ParseTree.documentPart, h]

theorem enumMember_mirrors :
    Mirrors n (.rule .enumMember) enumMember (One .enumMember (ParseTree.enumMember source)) := by
  apply Mirrors.rule rfl
  refine identifier_mirrors.bind ?_
  rintro _ name ⟨t, rfl, -, ht⟩
  refine int_mirrors.assigned.maybe.bind fun vs value hvalue => ?_
  refine (annotations_mirrors source).maybe.last fun as notes hnotes start text => ?_
  cases ht
  cases hvalue with
  | absent =>
    cases hnotes with
    | absent => rfl
    | present h =>
      obtain ⟨a, rfl, ha, -⟩ := h
      simp [ParseTree.enumMember, ParseTree.expect, ha]
  | present h =>
    obtain ⟨v, rfl, hv, hx⟩ := h
    cases hx
    simp [ParseTree.enumMember, ParseTree.expect, hv]

theorem enumMember_consumes : Consumes (do let m ← enumMember; separator; pure m) :=
  enumMember_spelling.ended.consumes enumMember_repeats.nonempty

/-- The nodes of one rule among others. -/
theorem Each.filter {r : Rule} {walk : ParseTree → Except Diagnostic α} {ns ks : List ParseTree}
    {xs : List α} (h : Each (One r walk) ns xs) (hk : ∀ t ∈ ks, t.rule ≠ r) :
    ((ns ++ ks).filter fun t => t.rule = r).mapM walk = .ok xs := by
  have hn : ns.filter (fun t => t.rule = r) = ns := by
    apply List.filter_eq_self.mpr
    induction h with
    | nil => simp
    | cons hx _ ih =>
      obtain ⟨t, rfl, hr, -⟩ := hx
      simpa [hr] using ih
  have hz : ks.filter (fun t => t.rule = r) = [] := by
    simpa [List.filter_eq_nil_iff] using hk
  rw [List.filter_append, hn, hz, List.append_nil]
  exact h.mapM

theorem enumDef_mirrors : Mirrors n (.rule .enumDef) enumDef (KeptDefinition source) := by
  apply Mirrors.node rfl
  refine (token_mirrors "enum").bind ?_
  rintro _ _ rfl
  refine identifier_mirrors.bind ?_
  rintro _ name ⟨t, rfl, -, ht⟩
  refine (token_mirrors "\x7b").bind ?_
  rintro _ _ rfl
  refine ((enumMember_mirrors source).ended.many enumMember_consumes).bind
    fun ms members hmembers => ?_
  refine (token_mirrors "\x7d").bind ?_
  rintro _ _ rfl
  refine (annotations_mirrors source).maybe.last fun as notes hnotes start text d => ?_
  have hothers : ∀ k ∈ as, k.rule ≠ .enumMember := by
    cases hnotes with
    | absent => simp
    | present h =>
      obtain ⟨a, rfl, ha, -⟩ := h
      simp [ha]
  have hall := hmembers.filter hothers
  have hdef : ParseTree.enumDef source ⟨.enumDef, start, text, t :: (ms ++ as)⟩ =
      .ok (.enum (ParseTree.name t) members) := by
    simp only [ParseTree.enumDef, ParseTree.expect, ok_bind, hall, pure_ok]
  cases ht
  simp [ParseTree.documentPart, hdef]

theorem constDef_mirrors : Mirrors n (.rule .constDef) constDef (KeptDefinition source) := by
  apply Mirrors.node rfl
  refine (token_mirrors "const").bind ?_
  rintro _ _ rfl
  refine (fieldType_mirrors source).bind ?_
  rintro _ type ⟨k, rfl, -, hk⟩
  refine identifier_mirrors.bind ?_
  rintro _ name ⟨t, rfl, -, ht⟩
  refine (token_mirrors "=").bind ?_
  rintro _ _ rfl
  refine (constValue_mirrors source).last ?_
  rintro _ value ⟨v, rfl, -, hv⟩ start text d
  cases ht
  simp [ParseTree.documentPart, ParseTree.constDef, ParseTree.expect, hk, hv]

theorem typedefDef_mirrors :
    Mirrors n (.rule .typedefDef) typedefDef (KeptDefinition source) := by
  apply Mirrors.node rfl
  refine (token_mirrors "typedef").bind ?_
  rintro _ _ rfl
  refine (fieldType_mirrors source).bind ?_
  rintro _ type ⟨k, rfl, -, hk⟩
  refine identifier_mirrors.bind ?_
  rintro _ name ⟨t, rfl, -, ht⟩
  refine (annotations_mirrors source).maybe.last fun as notes _ start text d => ?_
  cases ht
  simp [ParseTree.documentPart, ParseTree.typedefDef, ParseTree.expect, hk]

theorem extends_kept :
    Mirrors n (.rule .extends) (do token "extends"; identifier)
      (Keeps (ParseTree.servicePart source) fun s base => (some base, s.2)) := by
  apply Mirrors.node rfl
  refine (token_mirrors "extends").bind ?_
  rintro _ _ rfl
  apply identifier_mirrors.weaken
  rintro _ name ⟨t, rfl, -, ht⟩ start text s
  cases ht
  simp [ParseTree.servicePart, ParseTree.firstName, ParseTree.expect]

theorem function_kept :
    Mirrors n (.rule .function) function
      (Keeps (ParseTree.servicePart source) fun s f => (s.1, s.2 ++ [f])) := by
  apply (function_mirrors source).keeps
  intro f s t hr ht
  simp [ParseTree.servicePart, hr, ht]

/-- The annotations of a service are passed over. -/
theorem serviceNotes_kept :
    Mirrors n (.rule .annotations) annotations
      (Keeps (ParseTree.servicePart source) fun s _ => s) := by
  apply (annotations_mirrors source).keeps
  intro _ s t hr _
  simp [ParseTree.servicePart, hr]

theorem function_consumes : Consumes (do let f ← function; separator; pure f) :=
  function_spelling.ended.consumes function_repeats.nonempty

theorem serviceDef_mirrors :
    Mirrors n (.rule .serviceDef) serviceDef (KeptDefinition source) := by
  apply Mirrors.node rfl
  refine (token_mirrors "service").bind ?_
  rintro _ _ rfl
  refine identifier_mirrors.bind ?_
  rintro _ name ⟨t, rfl, -, ht⟩
  refine (extends_kept source).maybe.bind fun bs base hbase => ?_
  refine (token_mirrors "\x7b").bind ?_
  rintro _ _ rfl
  refine ((function_kept source).ended.many function_consumes).bind
    fun fs functions hfunctions => ?_
  refine (token_mirrors "\x7d").bind ?_
  rintro _ _ rfl
  refine (serviceNotes_kept source).maybe.last fun as notes hnotes start text d => ?_
  have hall := Each.keeps (g := fun (s : ParseTree.ServiceParts) functions =>
    (s.1, s.2 ++ functions)) hfunctions (by simp) (by simp)
  have hfound : (bs ++ (fs ++ as)).foldlM (ParseTree.servicePart source) (none, []) =
      .ok (base, functions) := by
    rw [foldlM_append_ok (hbase.keeps _), foldlM_append_ok (hall _), hnotes.keeps]
    cases base <;> cases notes <;> rfl
  have hdef : ParseTree.serviceDef source ⟨.serviceDef, start, text, t :: (bs ++ (fs ++ as))⟩ =
      .ok (.service (ParseTree.name t) base functions) := by
    simp only [ParseTree.serviceDef, ParseTree.expect, ok_bind, hfound, pure_ok]
  cases ht
  simp [ParseTree.documentPart, hdef]

theorem definition_mirrors :
    Mirrors n Grammar.definition definition (KeptDefinition source) := by
  apply Mirrors.ended
  refine (constDef_mirrors source).either <| (typedefDef_mirrors source).either <|
    (enumDef_mirrors source).either <| (structDef_mirrors source).either <|
    (unionDef_mirrors source).either <| (exceptionDef_mirrors source).either ?_
  exact serviceDef_mirrors source

/-- A header with a path, under a rule. -/
theorem path_mirrors (keyword : String) (r : Rule) (f : String → Header) :
    Mirrors n (.seq (Grammar.lit keyword) (.rule .quoted)) (do token keyword; f <$> quoted)
      fun ns h => ∃ path, h = f path ∧ ∀ start text,
        ParseTree.firstQuoted source ⟨r, start, text, ns⟩ = .ok path := by
  refine (token_mirrors keyword).bind ?_
  rintro _ _ rfl
  refine (quoted_mirrors source).map ?_
  rintro _ path ⟨q, rfl, -, hq⟩
  refine ⟨path, rfl, fun start text => ?_⟩
  simp [ParseTree.firstQuoted, ParseTree.expect, hq]

theorem cppInclude_mirrors :
    Mirrors n (.rule .cppInclude) (do token "cpp_include"; Header.cppInclude <$> quoted)
      (KeptHeader source) := by
  apply Mirrors.node rfl
  apply (path_mirrors source "cpp_include" .cppInclude Header.cppInclude).weaken
  rintro ns _ ⟨path, rfl, hp⟩ start text d
  simp [ParseTree.documentPart, hp]

theorem include_mirrors :
    Mirrors n (.rule .include) (do token "include"; Header.include <$> quoted)
      (KeptHeader source) := by
  apply Mirrors.node rfl
  apply (path_mirrors source "include" .include Header.include).weaken
  rintro ns _ ⟨path, rfl, hp⟩ start text d
  simp [ParseTree.documentPart, hp]

theorem ns_mirrors :
    Mirrors n (.rule .ns)
      (do
        token "namespace"
        let s ← scope
        let name ← identifier
        let _ ← maybe annotations
        pure (.ns s name)) (KeptHeader source) := by
  apply Mirrors.node rfl
  refine (token_mirrors "namespace").bind ?_
  rintro _ _ rfl
  refine scope_mirrors.bind ?_
  rintro _ s ⟨k, rfl, -, hk⟩
  refine identifier_mirrors.bind ?_
  rintro _ name ⟨t, rfl, -, ht⟩
  refine (annotations_mirrors source).maybe.last fun as notes _ start text d => ?_
  cases hk
  cases ht
  simp [ParseTree.documentPart, ParseTree.ns, ParseTree.expect]

theorem header_mirrors : Mirrors n Grammar.header header (KeptHeader source) :=
  (cppInclude_mirrors source).either ((include_mirrors source).either (ns_mirrors source))

end SchemaGen.Idl
