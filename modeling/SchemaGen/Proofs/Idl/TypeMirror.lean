import SchemaGen.Proofs.Idl.FieldCompleteness
import SchemaGen.Proofs.Idl.LexemeMirror

namespace SchemaGen.Idl

open Peg Reader

variable {n : Nat} {α β : Type}

/-- A part with its separator. -/
theorem Mirrors.ended {e : Expr Rule} {p : Reader α} {V : List ParseTree → α → Prop}
    (h : Mirrors n e p V) :
    Mirrors n (.seq e Grammar.listSeparator) (do let a ← p; separator; pure a) V := by
  refine h.bind fun ns x hv => ?_
  refine separator_mirrors.last fun ks _ hk => ?_
  subst hk
  rw [List.append_nil]
  exact hv

/-- A part whose spelling has a token, with its separator. -/
theorem Spelling.consumes_ended {p : Reader α} {P : α → List Token → Prop} (hp : Spelling p P)
    (hne : ∀ ⦃a ts⦄, P a ts → ts ≠ []) : Consumes (do let a ← p; separator; pure a) := by
  apply hp.ended.consumes
  rintro a _ ⟨ts, sep, ha, -, rfl⟩ hnil
  exact hne ha (List.append_eq_nil_iff.mp hnil).1

theorem token_consumes {text : String} (hm : isMark text.toList = true) :
    Consumes (token text) :=
  (token_spelling hm).consumes fun _ _ h => by simp [h]

/-- Parts in brackets, each with its separator. -/
theorem Mirrors.items {opening closing : String} {e : Expr Rule} {p : Reader α}
    {V : List ParseTree → α → Prop} {W : List ParseTree → β → Prop} {f : List α → β}
    (h : Mirrors n e p V) (hc : Consumes (do let a ← p; separator; pure a))
    (ho : isMark opening.toList = true) (hw : ∀ ns xs, Each V ns xs → W ns (f xs)) :
    Mirrors (n + 1) (Grammar.items opening e closing)
      (do
        token opening
        let xs ← Reader.many do
          let a ← p
          separator
          pure a
        token closing
        pure (f xs)) W := by
  refine (token_mirrors opening).bind_consumed (token_consumes ho) fun _ _ hopen => ?_
  subst hopen
  refine (h.ended.many hc).bind fun ns xs hxs => ?_
  refine (token_mirrors closing).last fun ks _ hclose => ?_
  subst hclose
  rw [List.append_nil]
  exact hw ns xs hxs

/-- A value after the mark of an assignment. -/
theorem Mirrors.assigned {e : Expr Rule} {p : Reader α} {V : List ParseTree → α → Prop}
    (h : Mirrors n e p V) : Mirrors n (.seq (Grammar.lit "=") e) (do token "="; p) V := by
  refine (token_mirrors "=").bind fun _ _ hmark => ?_
  subst hmark
  exact h

@[simp] theorem ok_bind {ε : Type} (a : α) (f : α → Except ε β) : (Except.ok a >>= f) = f a := rfl

@[simp] theorem pure_ok {ε : Type} (a : α) : (pure a : Except ε α) = .ok a := rfl

section

variable (source : List Char)

theorem annotation_mirrors :
    Mirrors n (.rule .note) annotation (One .note ( ParseTree.annotation source)) := by
  apply Mirrors.rule rfl
  refine identifier_mirrors.bind ?_
  rintro _ name ⟨t, rfl, -, ht⟩
  refine (quoted_mirrors source).assigned.maybe.last ?_
  rintro _ value hv start text
  cases ht
  cases hv with
  | absent => rfl
  | present h =>
    obtain ⟨q, rfl, -, hq⟩ := h
    simp [ ParseTree.annotation, ParseTree.expect, hq]

theorem annotation_consumes : Consumes (do let a ← annotation; separator; pure a) :=
  annotation_spelling.ended.consumes annotation_repeats.nonempty

theorem Each.mapM {r : Rule} {walk : ParseTree → Except Diagnostic α} {ns : List ParseTree}
    {xs : List α} (h : Each (One r walk) ns xs) : ns.mapM walk = .ok xs := by
  induction h with
  | nil => rfl
  | cons hx _ ih =>
    obtain ⟨t, rfl, -, ht⟩ := hx
    simp [ht, ih]

theorem annotations_mirrors :
    Mirrors n (.rule .annotations) annotations
      (One .annotations (ParseTree.annotations source)) := by
  apply Mirrors.rule rfl
  apply Mirrors.mono _ (Nat.le_succ n)
  apply (annotation_mirrors source).items annotation_consumes (by decide)
  intro ns xs h start text
  exact h.mapM

/-- A foreign type name is a node of its own. -/
theorem foreign_mirrors :
    Mirrors n (.rule .cppType) foreignType (One .cppType fun _ => .ok ()) := by
  apply Mirrors.rule rfl
  refine (token_mirrors "cpp_type").bind fun _ _ hkey => ?_
  exact (quoted_mirrors []).last fun _ _ _ _ _ => rfl

/-- A node inside the node of a type, from which the walk makes the type. -/
def Inside (ns : List ParseTree) (type : FieldType) : Prop :=
  ∃ t : ParseTree, ns = [t] ∧ ∀ start text notes,
    ParseTree.fieldType source ⟨.fieldType, start, text, t :: notes⟩ = .ok type

section Container

variable {p : Reader FieldType}
  (hp : Mirrors n (.rule .fieldType) p (One .fieldType (ParseTree.fieldType source)))
include hp

omit hp in
/-- The foreign name of a type is passed over. -/
theorem typeParams_foreign {ns : List ParseTree} {o : Option Unit}
    (h : Given (One .cppType fun _ => .ok ()) ns o) (ts : List ParseTree) :
    ParseTree.typeParams source (ns ++ ts) = ParseTree.typeParams source ts := by
  cases h with
  | absent => rfl
  | present h =>
    obtain ⟨c, rfl, hc, -⟩ := h
    simp [ParseTree.typeParams, hc]

theorem map_mirrors :
    Mirrors (n + 1) (.rule .mapType)
      (do
        token "map"
        let _ ← maybe foreignType
        token "<"
        let key ← p
        token ","
        let value ← p
        token ">"
        pure (.map key value)) (Inside source) := by
  apply Mirrors.node rfl
  refine (token_mirrors "map").bind_consumed (token_consumes (by decide)) ?_
  rintro _ _ rfl
  refine foreign_mirrors.maybe.bind fun cpp _ hcpp => ?_
  refine (token_mirrors "<").bind ?_
  rintro _ _ rfl
  refine hp.bind ?_
  rintro _ key ⟨k, rfl, hk, hkey⟩
  refine (token_mirrors ",").bind ?_
  rintro _ _ rfl
  refine hp.bind ?_
  rintro _ value ⟨v, rfl, hv, hvalue⟩
  refine (token_mirrors ">").last ?_
  rintro _ _ rfl start text
  refine ⟨_, rfl, fun _ _ _ => ?_⟩
  have hparams := typeParams_foreign source hcpp [k, v]
  simp [ParseTree.fieldType, hparams, ParseTree.typeParams, hk, hv, hkey, hvalue]

theorem set_mirrors :
    Mirrors (n + 1) (.rule .setType)
      (do
        token "set"
        let _ ← maybe foreignType
        token "<"
        let element ← p
        token ">"
        pure (.set element)) (Inside source) := by
  apply Mirrors.node rfl
  refine (token_mirrors "set").bind_consumed (token_consumes (by decide)) ?_
  rintro _ _ rfl
  refine foreign_mirrors.maybe.bind fun cpp _ hcpp => ?_
  refine (token_mirrors "<").bind ?_
  rintro _ _ rfl
  refine hp.bind ?_
  rintro _ element ⟨e, rfl, he, helement⟩
  refine (token_mirrors ">").last ?_
  rintro _ _ rfl start text
  refine ⟨_, rfl, fun _ _ _ => ?_⟩
  have hparams := typeParams_foreign source hcpp [e]
  simp [ParseTree.fieldType, hparams, ParseTree.typeParams, he, helement]

theorem list_mirrors :
    Mirrors (n + 1) (.rule .listType)
      (do
        token "list"
        token "<"
        let element ← p
        token ">"
        let _ ← maybe foreignType
        pure (.list element)) (Inside source) := by
  apply Mirrors.node rfl
  refine (token_mirrors "list").bind_consumed (token_consumes (by decide)) ?_
  rintro _ _ rfl
  refine (token_mirrors "<").bind ?_
  rintro _ _ rfl
  refine hp.bind ?_
  rintro _ element ⟨e, rfl, he, helement⟩
  refine (token_mirrors ">").bind ?_
  rintro _ _ rfl
  refine foreign_mirrors.maybe.last fun cpp _ hcpp start text => ?_
  refine ⟨_, rfl, fun _ _ _ => ?_⟩
  have hparams := typeParams_foreign source hcpp []
  rw [List.append_nil] at hparams
  simp [ParseTree.fieldType, hparams, ParseTree.typeParams, he, helement]

theorem container_mirrors :
    Mirrors (n + 1) (.choice (.rule .mapType) (.choice (.rule .setType) (.rule .listType)))
      (container p) (Inside source) :=
  (map_mirrors source hp).either ((set_mirrors source hp).either (list_mirrors source hp))

end Container

theorem base_mirrors :
    Mirrors n (.rule .baseType) (FieldType.base <$> baseType) (Inside source) := by
  apply baseType_mirrors.weaken
  rintro _ type ⟨⟨r, start, text, children⟩, rfl, rfl, ht⟩
  exact ⟨_, rfl, fun _ _ _ => ht⟩

/-- The node of a rule keeps the text that the rule matched. -/
theorem rule_text {r : Rule} {cs after : List Char} {t : ParseTree}
    (h : grammar.Parses .spaced (.rule r) cs (some (after, [t]))) :
    t.text = cs.take (cs.length - after.length) := by
  obtain ⟨ks, hn, -⟩ := h.of_rule
  rw [Mirrors.nodes_eq (by simp)] at hn
  cases hn
  rfl

theorem typeRef_mirrors :
    Mirrors n (.rule .typeRef) (FieldType.named <$> identifier) (Inside source) := by
  intro cs hn hs
  cases identifier_mirrors cs hn hs with
  | fails he hp => exact .fails (.rule_none he) (by rw [map_apply, hp]; rfl)
  | @finds name after ns he hp hv =>
    obtain ⟨t, rfl, -, ht⟩ := hv
    refine .finds (.rule he) (by rw [map_apply, hp]; rfl) ?_
    rw [Mirrors.nodes_eq (by simp), ← rule_text he]
    refine ⟨_, rfl, fun _ _ _ => ?_⟩
    cases ht
    rfl

theorem fieldTypeUpTo_mirrors (depth : Nat) :
    Mirrors depth (.rule .fieldType) (fieldTypeUpTo depth)
      (One .fieldType (ParseTree.fieldType source)) := by
  induction depth with
  | zero => exact fun cs hn _ => absurd hn (Nat.not_lt_zero _)
  | succ depth ih =>
    apply Mirrors.rule rfl
    apply Mirrors.either
    · refine ((base_mirrors source).either (container_mirrors source ih)).bind ?_
      rintro _ type ⟨t, rfl, ht⟩
      exact (annotations_mirrors source).maybe.last fun ks _ _ start text => ht start text ks
    · apply (typeRef_mirrors source).weaken
      rintro _ type ⟨t, rfl, ht⟩ start text
      exact ht start text []

theorem fieldType_mirrors :
    Mirrors n (.rule .fieldType) fieldType (One .fieldType (ParseTree.fieldType source)) :=
  .bounded (fieldTypeUpTo_mirrors source)

end

end SchemaGen.Idl
