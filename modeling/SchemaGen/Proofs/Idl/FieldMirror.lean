import SchemaGen.Proofs.Idl.ConstantMirror
import SchemaGen.Proofs.Idl.DocumentCompleteness

namespace SchemaGen.Idl

open Peg Reader

variable {n : Nat} {α σ : Type}

/-- Nodes of which the walk keeps a value. -/
def Keeps (step : σ → ParseTree → Except Diagnostic σ) (g : σ → α → σ) (ns : List ParseTree)
    (a : α) : Prop :=
  ∀ s, ns.foldlM step s = .ok (g s a)

section Keeps

variable {step : σ → ParseTree → Except Diagnostic σ} {g : σ → α → σ} {ns ks : List ParseTree}
  {s mid : σ}

theorem foldlM_append_ok (h : ns.foldlM step s = .ok mid) :
    (ns ++ ks).foldlM step s = ks.foldlM step mid := by
  rw [List.foldlM_append, h]
  rfl

theorem Given.keeps {o : Option α} (h : Given (Keeps step g) ns o) (s : σ) :
    ns.foldlM step s = .ok (o.elim s (g s)) := by
  cases h with
  | absent => rfl
  | present h => exact h s

/-- A value for each item is kept in the end as their list. -/
theorem Each.keeps {g : σ → List α → σ} {xs : List α}
    (h : Each (Keeps step fun s x => g s [x]) ns xs) (hnil : ∀ s, g s [] = s)
    (hcons : ∀ s x xs, g (g s [x]) xs = g s (x :: xs)) (s : σ) :
    ns.foldlM step s = .ok (g s xs) := by
  induction h generalizing s with
  | nil => rw [hnil s]; rfl
  | cons hx _ ih => rw [foldlM_append_ok (hx s), ih, hcons]

theorem Mirrors.keeps {e : Expr Rule} {p : Reader α} {r : Rule}
    {walk : ParseTree → Except Diagnostic α} (h : Mirrors n e p (One r walk))
    (hstep : ∀ a s t, t.rule = r → walk t = .ok a → step s t = .ok (g s a)) :
    Mirrors n e p (Keeps step g) := by
  apply h.weaken
  rintro _ a ⟨t, rfl, hr, ht⟩ s
  rw [List.foldlM_cons, hstep a s t hr ht]
  rfl

end Keeps

section Field

variable (source : List Char)

theorem fieldId_mirrors :
    Mirrors n (.rule .fieldId) (do let text ← int; token ":"; pure text)
      (Keeps (ParseTree.fieldPart source) fun s text => { s with id := intValue? text }) := by
  apply Mirrors.node rfl
  refine int_mirrors.bind ?_
  rintro _ text ⟨t, rfl, -, ht⟩
  refine (token_mirrors ":").last ?_
  rintro _ _ rfl start whole s
  cases ht
  rfl

theorem requiredness_kept :
    Mirrors n (.rule .requiredness) requiredness
      (Keeps (ParseTree.fieldPart source) fun s r => { s with requiredness := r }) := by
  apply requiredness_mirrors.keeps
  intro r s t hr ht
  cases ht
  simp [ParseTree.fieldPart, hr]

theorem fieldType_kept :
    Mirrors n (.rule .fieldType) fieldType
      (Keeps (ParseTree.fieldPart source) fun s type => { s with type := some type }) := by
  apply (fieldType_mirrors source).keeps
  intro type s t hr ht
  simp [ParseTree.fieldPart, hr, ht]

theorem fieldName_kept :
    Mirrors n (.rule .identifier) identifier
      (Keeps (ParseTree.fieldPart source) fun s name => { s with name := some name }) := by
  apply identifier_mirrors.keeps
  intro name s t hr ht
  cases ht
  simp [ParseTree.fieldPart, hr]

theorem default_kept :
    Mirrors n (.rule .constValue) constValue
      (Keeps (ParseTree.fieldPart source) fun s value => { s with default := some value }) := by
  apply (constValue_mirrors source).keeps
  intro value s t hr ht
  simp [ParseTree.fieldPart, hr, ht]

theorem notes_kept :
    Mirrors n (.rule .annotations) annotations
      (Keeps (ParseTree.fieldPart source) fun s notes => { s with annotations := some notes }) := by
  apply (annotations_mirrors source).keeps
  intro notes s t hr ht
  simp [ParseTree.fieldPart, hr, ht]

theorem field_mirrors :
    Mirrors n (.rule .field) field (One .field (ParseTree.field source)) := by
  apply Mirrors.rule rfl
  refine (fieldId_mirrors source).maybe.bind fun is id hid => ?_
  refine (requiredness_kept source).maybe.bind fun rs required hrequired => ?_
  refine (fieldType_kept source).bind fun ts type htype => ?_
  refine (fieldName_kept source).bind fun ns name hname => ?_
  refine (default_kept source).assigned.maybe.bind fun ds default hdefault => ?_
  refine (notes_kept source).maybe.bind fun as notes hnotes => ?_
  refine separator_mirrors.last ?_
  rintro _ _ rfl start text
  have hfound : (is ++ (rs ++ (ts ++ (ns ++ (ds ++ (as ++ [])))))).foldlM
      (ParseTree.fieldPart source) {} =
      .ok ⟨id.bind intValue?, required.getD .default, some type, some name, default, notes⟩ := by
    rw [foldlM_append_ok (hid.keeps _), foldlM_append_ok (hrequired.keeps _),
      foldlM_append_ok (htype _), foldlM_append_ok (hname _), foldlM_append_ok (hdefault.keeps _),
      foldlM_append_ok (hnotes.keeps _)]
    cases id <;> cases required <;> cases default <;> cases notes <;> rfl
  simp only [ParseTree.field, hfound]
  rfl

theorem field_consumes : Consumes field := field_spelling.consumes field_repeats.nonempty

end Field

section Function

variable (source : List Char)

theorem oneway_kept :
    Mirrors n (.rule .oneway) (word "oneway")
      (Keeps (ParseTree.functionPart source) fun s _ => { s with oneway := true }) := by
  apply oneway_mirrors.keeps
  intro _ s t hr _
  simp [ParseTree.functionPart, hr]

theorem returns_kept :
    Mirrors n (.rule .fieldType) fieldType
      (Keeps (ParseTree.functionPart source) fun s type => { s with returns := some type }) := by
  apply (fieldType_mirrors source).keeps
  intro type s t hr ht
  simp [ParseTree.functionPart, hr, ht]

theorem functionName_kept :
    Mirrors n (.rule .identifier) identifier
      (Keeps (ParseTree.functionPart source) fun s name => { s with name := some name }) := by
  apply identifier_mirrors.keeps
  intro name s t hr ht
  cases ht
  simp [ParseTree.functionPart, hr]

theorem param_kept :
    Mirrors n (.rule .field) field
      (Keeps (ParseTree.functionPart source) fun s f => { s with params := s.params ++ [f] }) := by
  apply (field_mirrors source).keeps
  intro f s t hr ht
  simp [ParseTree.functionPart, hr, ht]

theorem throws_mirrors :
    Mirrors n (.rule .throws) throwsClause
      (Keeps (ParseTree.functionPart source) fun s fields =>
        { s with throws := s.throws ++ fields }) := by
  apply Mirrors.node rfl
  refine (token_mirrors "throws").bind ?_
  rintro _ _ rfl
  refine (token_mirrors "(").bind ?_
  rintro _ _ rfl
  refine ((field_mirrors source).many field_consumes).bind fun ns fields hfields => ?_
  refine (token_mirrors ")").last ?_
  rintro _ _ rfl start text s
  have hm := hfields.mapM
  simp [ParseTree.functionPart, hm]

/-- The annotations of a function are passed over. -/
theorem functionNotes_kept :
    Mirrors n (.rule .annotations) annotations
      (Keeps (ParseTree.functionPart source) fun s _ => s) := by
  apply (annotations_mirrors source).keeps
  intro _ s t hr _
  simp [ParseTree.functionPart, hr]

theorem function_mirrors :
    Mirrors n (.rule .function) function (One .function (ParseTree.function source)) := by
  apply Mirrors.rule rfl
  refine (oneway_kept source).maybe.bind fun os oneway honeway => ?_
  refine (returns_kept source).bind fun ts returns hreturns => ?_
  refine (functionName_kept source).bind fun ns name hname => ?_
  refine (token_mirrors "(").bind ?_
  rintro _ _ rfl
  refine ((param_kept source).many field_consumes).bind fun ps params hparams => ?_
  refine (token_mirrors ")").bind ?_
  rintro _ _ rfl
  refine (throws_mirrors source).maybe.bind fun es throws hthrows => ?_
  refine (functionNotes_kept source).maybe.last fun as notes hnotes start text => ?_
  have hall := Each.keeps (g := fun (s : ParseTree.FunctionParts) fields =>
    { s with params := s.params ++ fields }) hparams (by simp) (by simp)
  have hfound : (os ++ (ts ++ (ns ++ ([] ++ (ps ++ ([] ++ (es ++ as))))))).foldlM
      (ParseTree.functionPart source) {} =
      .ok ⟨oneway.isSome, some returns, some name, params, throws.getD []⟩ := by
    rw [foldlM_append_ok (honeway.keeps _), foldlM_append_ok (hreturns _),
      foldlM_append_ok (hname _), List.nil_append, foldlM_append_ok (hall _), List.nil_append,
      foldlM_append_ok (hthrows.keeps _), hnotes.keeps]
    cases oneway <;> cases throws <;> cases notes <;> rfl
  simp only [ParseTree.function, hfound]
  rfl

end Function

end SchemaGen.Idl
