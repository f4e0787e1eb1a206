import SchemaGen.Proofs.Emit.ModuleLines

namespace SchemaGen

open Idl Text

/-- Lines that open no comment they do not close: wherever they stand, the same of them are kept and
the same comments found. -/
def Cuts (opening closing : String) (lines kept : List String) (comments : List (List String)) :
    Prop :=
  ∀ rest, cutComments opening closing none (lines ++ rest) =
    (kept ++ (cutComments opening closing none rest).1,
      comments ++ (cutComments opening closing none rest).2)

section Cuts

variable {opening closing : String} {lines kept others keptOthers : List String}
  {comments otherComments : List (List String)}

theorem cuts_nil : Cuts opening closing [] [] [] := fun _ => rfl

theorem Cuts.append (h : Cuts opening closing lines kept comments)
    (k : Cuts opening closing others keptOthers otherComments) :
    Cuts opening closing (lines ++ others) (kept ++ keptOthers) (comments ++ otherComments) := by
  intro rest
  rw [List.append_assoc, h, k, List.append_assoc, List.append_assoc]

theorem cuts_line {line : String} (h : line ≠ opening) : Cuts opening closing [line] [line] [] := by
  intro rest
  rw [List.singleton_append, cutComments, if_neg h]
  rfl

theorem cuts_lines (h : ∀ l ∈ lines, l ≠ opening) : Cuts opening closing lines lines [] := by
  induction lines with
  | nil => exact cuts_nil
  | cons line lines ih =>
    rw [List.forall_mem_cons] at h
    exact (cuts_line h.1).append (ih h.2)

theorem cutComments_open {comment : List String} (h : ∀ l ∈ lines, l ≠ closing)
    (rest : List String) :
    cutComments opening closing (some comment) (lines ++ closing :: rest) =
      ((cutComments opening closing none rest).1,
        (comment ++ lines ++ [closing]) :: (cutComments opening closing none rest).2) := by
  induction lines generalizing comment with
  | nil => rw [List.nil_append, cutComments, if_pos rfl, List.append_nil]
  | cons line lines ih =>
    rw [List.forall_mem_cons] at h
    rw [List.cons_append, cutComments, if_neg h.1, ih h.2, List.append_assoc comment [line],
      List.singleton_append]

/-- A comment is cut out. -/
theorem cuts_comment (h : ∀ l ∈ lines, l ≠ closing) :
    Cuts opening closing (opening :: (lines ++ [closing])) []
      [opening :: (lines ++ [closing])] := by
  intro rest
  rw [List.cons_append, cutComments, if_pos rfl, List.append_assoc, List.singleton_append,
    cutComments_open h]
  rfl

theorem Cuts.flatMap {α : Type} {items : List α} {f g : α → List String}
    {c : α → List (List String)} (h : ∀ a ∈ items, Cuts opening closing (f a) (g a) (c a)) :
    Cuts opening closing (items.flatMap f) (items.flatMap g) (items.flatMap c) := by
  induction items with
  | nil => exact cuts_nil
  | cons a items ih =>
    rw [List.forall_mem_cons] at h
    exact h.1.append (ih h.2)

theorem Cuts.eq (h : Cuts opening closing lines kept comments) :
    cutComments opening closing none lines = (kept, comments) := by
  have hnil := h []
  rwa [List.append_nil, cutComments, List.append_nil, List.append_nil] at hnil

end Cuts

/-- Whether the end of a comment stands in a text. The flag tells whether a star stands before it.
-/
def closes : Bool → List Char → Bool
  | _, [] => false
  | star, c :: cs => star && c == '/' || closes (c == '*') cs

/-- The end of a comment stands at the end of the text, and nowhere else. -/
def ClosesAtEnd (text : String) : Prop :=
  ['*', '/'] <:+ text.toList ∧
    ∀ front back, text.toList = front ++ '*' :: '/' :: back → back = []

theorem closes_between (star : Bool) (front back : List Char) :
    closes star (front ++ '*' :: '/' :: back) = true := by
  induction front generalizing star with
  | nil => simp [closes]
  | cons c front ih => rw [List.cons_append, closes, ih, Bool.or_true]

/-- The end of a comment does not reach over a character that is not part of it. -/
theorem closes_append {c : Char} (hstar : c ≠ '*') (hslash : c ≠ '/') (star : Bool)
    (front back : List Char) :
    closes star (front ++ c :: back) = (closes star front || closes false back) := by
  have hs : (c == '*') = false := beq_false_of_ne hstar
  have hl : (c == '/') = false := beq_false_of_ne hslash
  induction front generalizing star with
  | nil => simp [closes, hs, hl]
  | cons d front ih => rw [List.cons_append, closes, ih, closes, Bool.or_assoc]

/-- Text without stars in front of a text does not matter to its comments. -/
theorem closes_plain {front : List Char} (h : ∀ c ∈ front, c ≠ '*') (cs : List Char) :
    closes false (front ++ cs) = closes false cs := by
  induction front with
  | nil => rfl
  | cons c front ih =>
    rw [List.forall_mem_cons] at h
    rw [List.cons_append, closes, Bool.false_and, Bool.false_or, beq_false_of_ne h.1, ih h.2]

/-- Written into a comment, a text does not close it. -/
theorem closes_commentText (star : Bool) (cs : List Char) :
    closes star (commentText cs) = (star && cs.head? == some '/') := by
  rw [commentText_eq]
  induction cs using inComment.induct generalizing star with
  | case1 => simp [inComment, closes]
  | case2 rest ih => simp [inComment, closes, ih]
  | case3 rest ih => simp [inComment, closes, ih]
  | case4 c rest hstar hbreak ih =>
    have hnext : (c == '*' && rest.head? == some '/') = false := by
      rw [Bool.and_eq_false_iff]
      by_cases hc : c = '*'
      · refine Or.inr (beq_false_of_ne fun hhead => ?_)
        obtain ⟨tail, rfl⟩ := List.head?_eq_some_iff.mp hhead
        exact hstar tail hc rfl
      · exact Or.inl (beq_false_of_ne hc)
    rw [inComment, closes, ih, hnext]
    · simp
    · exact hstar
    · exact hbreak

/-- A comment that no line closes is not closed by a line break. -/
theorem closes_lines {texts : List String} (h : ∀ t ∈ texts, closes false t.toList = false) :
    closes false (joinWith "\n" texts).toList = false := by
  induction texts with
  | nil => rfl
  | cons t texts ih =>
    rw [List.forall_mem_cons] at h
    cases texts with
    | nil => exact h.1
    | cons u texts =>
      have hcut : (joinWith "\n" (t :: u :: texts)).toList =
          t.toList ++ '\n' :: (joinWith "\n" (u :: texts)).toList := by simp [joinWith]
      rw [hcut, closes_append (by decide) (by decide), h.1, ih h.2]
      rfl

theorem closes_star (star : Bool) (cs : List Char) :
    closes star (cs ++ ['*']) = closes star cs := by
  induction cs generalizing star with
  | nil => simp [closes]
  | cons c cs ih => rw [List.cons_append, closes, ih, closes]

/-- A text that does not close a comment, with the end of one behind it. -/
theorem closesAtEnd_append {body : String} (h : closes false body.toList = false) :
    ClosesAtEnd (body ++ "*/") := by
  have htext : (body ++ "*/").toList = body.toList ++ ['*', '/'] := by simp
  rw [ClosesAtEnd, htext]
  refine ⟨List.suffix_append _ _, fun front back he => ?_⟩
  rcases List.eq_nil_or_concat back with rfl | ⟨cs, c, rfl⟩
  · rfl
  · have hcut : body.toList ++ ['*'] = front ++ '*' :: '/' :: cs := by
      have hlast : (body.toList ++ ['*']) ++ ['/'] = (front ++ '*' :: '/' :: cs) ++ [c] := by
        simpa using he
      exact (List.append_inj' hlast rfl).1
    have hopen := closes_star false body.toList
    rw [hcut, closes_between, h] at hopen
    cases hopen

namespace ModuleStyle

variable {style : ModuleStyle} {s : Schema}

/-- The lines of the comment over a field, if it has one. -/
def fieldComments (style : ModuleStyle) (f : Field) : List (List String) :=
  if style.docs && !f.annotations.isEmpty then [style.docLines f] else []

/-- The comments over the fields of a struct, in order. -/
def structComments (style : ModuleStyle) (s : Schema) : List (List String) :=
  (s.fields.map (·.2)).flatMap style.fieldComments

theorem annotationLine_ne_closing (note : String × String) :
    style.annotationLine note ≠ style.commentClosing := by
  intro he
  have hchars := congrArg String.toList he
  simp [annotationLine, commentClosing] at hchars

theorem cuts_docLines (style : ModuleStyle) (f : Field) :
    Cuts style.commentOpening style.commentClosing (style.docLines f) []
      (style.fieldComments f) := by
  unfold fieldComments docLines
  split
  · exact cuts_comment (List.forall_mem_map.mpr fun note _ => annotationLine_ne_closing note)
  · exact cuts_nil

theorem objectKey_front (name : String) :
    ∃ c cs, (objectKey name).toList = c :: cs ∧ c ≠ '/' := by
  unfold objectKey
  split
  · next h =>
    have hchars := bareName_chars h
    cases hn : name.toList with
    | nil => simp [isBareName, hn] at h
    | cons c cs =>
      refine ⟨c, cs, rfl, ?_⟩
      rintro rfl
      exact absurd (hchars '/' (hn ▸ List.mem_cons_self)) (by decide)
  · exact ⟨_, _, quote_toList name, by decide⟩

theorem fieldLine_ne_opening (f : Field) (mark : String) :
    style.fieldLine f ++ mark ≠ style.commentOpening := by
  obtain ⟨c, cs, hkey, hc⟩ := objectKey_front f.name
  intro he
  have hchars := congrArg String.toList he
  simp [fieldLine, commentOpening, SchemaType.renderNamed, hkey, hc] at hchars

/-- A line that starts like no comment. -/
theorem ne_commentOpening (hs : style.isTidy = true) {line : String}
    (h : ∀ c ∈ line.toList.head?, c ≠ ' ' ∧ c ≠ '\t' ∧ c ≠ '/') : line ≠ style.commentOpening := by
  rintro rfl
  have hindent := (isTidy_eq hs).2.2
  rw [commentOpening, String.toList_append] at h
  cases hi : style.indent.toList with
  | nil =>
    have hslash := h '/' (by simp [hi])
    exact hslash.2.2 rfl
  | cons c cs =>
    have hc := h c (by simp [hi])
    rcases hindent c (hi ▸ List.mem_cons_self) with rfl | rfl
    · exact hc.1 rfl
    · exact hc.2.1 rfl

theorem cuts_fieldLines (style : ModuleStyle) (fields : List Field) :
    Cuts style.commentOpening style.commentClosing (style.fieldLines fields)
      (style.plain.fieldLines fields) (fields.flatMap style.fieldComments) := by
  induction fields with
  | nil => exact cuts_nil
  | cons f fields ih =>
    have hdocs := cuts_docLines style f
    have hline (mark : String) :
        Cuts style.commentOpening style.commentClosing [style.fieldLine f ++ mark]
          [style.fieldLine f ++ mark] [] := cuts_line (fieldLine_ne_opening f mark)
    rw [List.flatMap_cons]
    cases fields with
    | nil =>
      have hlast := hline ""
      rw [String.append_empty] at hlast
      exact hdocs.append hlast
    | cons g fields =>
      have hfirst := hdocs.append (hline ",")
      rw [List.append_nil] at hfirst
      exact hfirst.append ih

theorem cuts_constLines (hs : style.isTidy = true) (s : Schema) :
    Cuts style.commentOpening style.commentClosing (style.constLines s)
      (style.plain.constLines s) (style.structComments s) := by
  have hhead (mark : String) : style.constHead s ++ mark ≠ style.commentOpening := by
    refine ne_commentOpening hs ?_
    rw [constHead_toList]
    simp
  have hclose : "\x7d);" ≠ style.commentOpening := ne_commentOpening hs (by simp)
  unfold constLines structComments
  split
  · next h =>
    have hnil : s.fields = [] := List.isEmpty_iff.mp h
    rw [hnil]
    exact cuts_line (hhead _)
  · have hfields := (cuts_fieldLines style (s.fields.map (·.2))).append (cuts_line hclose)
    rw [List.append_nil] at hfields
    exact (cuts_line (hhead "\x7b")).append hfields

/-- The lines of a module without its comments. -/
def keptLines (style : ModuleStyle) (structs : List Schema) : List String :=
  style.openingLines ++
    structs.flatMap (fun s => "" :: (style.plain.constLines s ++ style.typeLines s)) ++ [""]

theorem marker_ne_opening (hs : style.isTidy = true) :
    "// GENERATED CODE - DO NOT MANUALLY MODIFY" ≠ style.commentOpening := by
  intro he
  have hindent := (isTidy_eq hs).2.2
  have hchars := congrArg String.toList he
  rw [commentOpening, String.toList_append] at hchars
  cases hi : style.indent.toList with
  | nil =>
    rw [hi] at hchars
    exact absurd hchars (by decide)
  | cons c cs =>
    rw [hi] at hchars
    have hc : '/' = c := (List.cons.inj hchars).1
    rcases hindent c (hi ▸ List.mem_cons_self) with rfl | rfl <;> exact absurd hc (by decide)

theorem cuts_moduleLines (hs : style.isTidy = true) (structs : List Schema) :
    Cuts style.commentOpening style.commentClosing (style.moduleLines structs)
      (style.keptLines structs) (structs.flatMap style.structComments) := by
  have hblank : "" ≠ style.commentOpening := ne_commentOpening hs (by simp)
  have hopening : ∀ l ∈ style.openingLines, l ≠ style.commentOpening := by
    have himport (rest : String) : "import \x7b " ++ rest ≠ style.commentOpening :=
      ne_commentOpening hs (by simp)
    have hmarker := marker_ne_opening hs
    simp only [openingLines, List.forall_mem_cons, String.append_assoc]
    exact ⟨hmarker, himport _, fun _ h => absurd h List.not_mem_nil⟩
  have htypes (s : Schema) : ∀ l ∈ style.typeLines s, l ≠ style.commentOpening := by
    unfold typeLines
    split
    · rw [List.forall_mem_singleton]
      refine ne_commentOpening hs ?_
      unfold typeLine
      simp
    · exact fun _ h => absurd h List.not_mem_nil
  have hstruct (s : Schema) (_ : s ∈ structs) :=
    (cuts_line hblank).append ((cuts_constLines hs s).append (cuts_lines (htypes s)))
  have hstructs := Cuts.flatMap hstruct
  have hall := ((cuts_lines hopening).append hstructs).append (cuts_line hblank)
  simp only [List.append_nil, List.nil_append] at hall
  exact hall

theorem startsWith_eq_false {start line : String} (h : ∀ rest, line.toList ≠ start.toList ++ rest) :
    startsWith start line = false := by
  rw [startsWith, Bool.eq_false_iff]
  intro he
  obtain ⟨rest, hrest⟩ := List.isPrefixOf_iff_prefix.mp he
  exact h rest hrest.symm

/-- A line with an end of its own, on which nothing is exported. -/
theorem startsWith_of_silent {start line mark : String} (hm : OneLine mark) (hl : OneLine line)
    (h : Silent start line.toList) : startsWith start (line ++ mark) = false := by
  refine startsWith_eq_false fun rest he => ?_
  have hnone := h mark.toList hm
  rw [← String.toList_append, declaredNames_line (oneLine_append.mpr ⟨hl, hm⟩),
    afterFront?_eq_some.mpr he] at hnone
  cases hnone

theorem mem_fieldLines {fields : List Field} {line : String}
    (h : line ∈ style.plain.fieldLines fields) :
    ∃ f ∈ fields, ∃ mark, OneLine mark ∧ line = style.fieldLine f ++ mark := by
  induction fields with
  | nil => exact absurd h List.not_mem_nil
  | cons f fields ih =>
    cases fields with
    | nil =>
      obtain rfl : line = style.fieldLine f := List.mem_singleton.mp h
      exact ⟨f, List.mem_cons_self, "", by simp [OneLine], String.append_empty.symm⟩
    | cons g fields =>
      rcases List.mem_cons.mp h with rfl | h
      · exact ⟨f, List.mem_cons_self, ",", by simp [OneLine], rfl⟩
      · obtain ⟨f', hf, hline⟩ := ih h
        exact ⟨f', List.mem_cons_of_mem f hf, hline⟩

/-- Only a line of an exported type is one. -/
theorem constLines_no_type (hs : style.isTidy = true) (h : s.Lined) :
    ∀ l ∈ style.plain.constLines s, startsWith "export type " l = false := by
  have hhead (mark : String) : startsWith "export type " (style.constHead s ++ mark) = false := by
    refine startsWith_eq_false fun rest he => ?_
    rw [constHead_toList] at he
    simp at he
  have hfields : ∀ l ∈ style.plain.fieldLines (s.fields.map (·.2)),
      startsWith "export type " l = false := by
    intro l hl
    obtain ⟨f, hf, mark, hm, rfl⟩ := mem_fieldLines hl
    obtain ⟨e, he, rfl⟩ := List.mem_map.mp hf
    exact startsWith_of_silent hm (oneLine_fieldLine hs (h.types e he))
      (silent_field (by decide) hs (h.types e he))
  have hclose : startsWith "export type " "\x7d);" = false := by decide
  unfold constLines
  split
  · exact List.forall_mem_singleton.mpr (hhead _)
  · simp only [List.forall_mem_cons, List.forall_mem_append]
    exact ⟨hhead _, hfields, hclose, fun _ h => absurd h List.not_mem_nil⟩

theorem typeLines_are_types (style : ModuleStyle) (s : Schema) :
    ∀ l ∈ style.typeLines s, startsWith "export type " l = true := by
  have hline : startsWith "export type " (style.typeLine s) = true := by
    unfold typeLine
    simp only [startsWith, List.isPrefixOf_iff_prefix, String.toList_append, List.append_assoc]
    exact List.prefix_append _ _
  unfold typeLines
  split
  · exact List.forall_mem_singleton.mpr hline
  · exact fun _ h => absurd h List.not_mem_nil

theorem filter_keptLines (hs : style.isTidy = true) {structs : List Schema}
    (h : ∀ s ∈ structs, s.Lined) :
    (style.keptLines structs).filter (fun line => !startsWith "export type " line) =
      style.plain.moduleLines structs := by
  have hopening : style.openingLines.filter (fun line => !startsWith "export type " line) =
      style.openingLines := by
    have hmarker :
        startsWith "export type " "// GENERATED CODE - DO NOT MANUALLY MODIFY" = false := by
      decide
    have himport (rest : String) : startsWith "export type " ("import \x7b " ++ rest) = false :=
      startsWith_eq_false fun rest he => by simp at he
    refine List.filter_eq_self.mpr ?_
    simp only [openingLines, List.forall_mem_cons, String.append_assoc, hmarker, himport]
    exact ⟨rfl, rfl, fun _ h => absurd h List.not_mem_nil⟩
  have hstruct (s : Schema) (hm : s ∈ structs) :
      ("" :: (style.plain.constLines s ++ style.typeLines s)).filter
          (fun line => !startsWith "export type " line) =
        "" :: (style.plain.constLines s ++ style.plain.typeLines s) := by
    have hconst : (style.plain.constLines s).filter
        (fun line => !startsWith "export type " line) = style.plain.constLines s :=
      List.filter_eq_self.mpr fun l hl => by rw [constLines_no_type hs (h s hm) l hl]; rfl
    have htype : (style.typeLines s).filter (fun line => !startsWith "export type " line) = [] :=
      List.filter_eq_nil_iff.mpr fun l hl => by rw [typeLines_are_types style s l hl]; simp
    rw [List.filter_cons_of_pos (by decide), List.filter_append, hconst, htype]
    rfl
  rw [keptLines, List.filter_append, List.filter_append, hopening, List.filter_flatMap,
    List.flatMap_congr hstruct]
  rfl

theorem closes_indent (hs : style.isTidy = true) (cs : List Char) :
    closes false (style.indent.toList ++ cs) = closes false cs := by
  refine closes_plain (fun c hc => ?_) cs
  rcases (isTidy_eq hs).2.2 c hc with rfl | rfl <;> decide

theorem closes_annotationLine (hs : style.isTidy = true) {a : String × String}
    (ha : isName a.1.toList = true) : closes false (style.annotationLine a).toList = false := by
  have hname : ∀ c ∈ a.1.toList, c ≠ '*' := by
    rintro c hc rfl
    exact absurd (isNameChar_of_isName ha _ hc) (by decide)
  have hcut : (style.annotationLine a).toList = (style.indent.toList ++ [' ', '*', ' ']) ++
      '@' :: ((a.1.toList ++ [' ']) ++ commentText a.2.toList) := by
    simp [annotationLine]
  have hfront : closes false (style.indent.toList ++ [' ', '*', ' ']) = false := by
    rw [closes_indent hs]
    decide
  have hback : closes false ((a.1.toList ++ [' ']) ++ commentText a.2.toList) = false := by
    rw [closes_plain, closes_commentText]
    · rfl
    · exact List.forall_mem_append.mpr ⟨hname, by simp⟩
  rw [hcut, closes_append (by decide) (by decide), hfront, hback]
  rfl

/-- The comment over a field closes at its end: annotations hold no end of a comment. -/
theorem closesAtEnd_docLines (hs : style.isTidy = true) (hd : style.docs = true) {f : Field}
    (hf : f.annotations ≠ []) (hn : ∀ a ∈ f.annotations, isName a.1.toList = true) :
    ClosesAtEnd (joinWith "\n" (style.docLines f)) := by
  have hopening : closes false style.commentOpening.toList = false := by
    rw [commentOpening, String.toList_append, closes_indent hs]
    decide
  have hbody : style.docLines f =
      (style.commentOpening :: f.annotations.map style.annotationLine) ++
        [(style.indent ++ " ") ++ "*/"] := by
    have hclosing : style.indent ++ " */" = (style.indent ++ " ") ++ "*/" := by
      rw [String.append_assoc]
      rfl
    have hempty : f.annotations.isEmpty = false := by simpa using hf
    rw [docLines, hd, hempty, hclosing]
    rfl
  rw [hbody, ← joinWith_append_back]
  refine closesAtEnd_append (closes_lines ?_)
  simp only [List.forall_mem_append, List.forall_mem_cons, List.forall_mem_map]
  refine ⟨⟨hopening, fun a ha => closes_annotationLine hs (hn a ha)⟩, ?_,
    fun _ h => absurd h List.not_mem_nil⟩
  rw [String.toList_append, closes_indent hs]
  decide

theorem cut_textOf (hs : style.isTidy = true)
    (hsuffix : ∀ c ∈ style.suffix.toList, isIdentifierRest c = true) {structs : List Schema}
    (h : ∀ s ∈ structs, s.Lined) :
    style.cut (style.textOf structs) =
      (style.keptLines structs, structs.flatMap style.structComments) := by
  rw [cut, linesOf_textOf hs hsuffix h]
  exact (cuts_moduleLines hs structs).eq

theorem bare_textOf (hs : style.isTidy = true)
    (hsuffix : ∀ c ∈ style.suffix.toList, isIdentifierRest c = true) {structs : List Schema}
    (h : ∀ s ∈ structs, s.Lined) :
    style.bare (style.textOf structs) = style.plain.textOf structs := by
  have htidy : style.plain.isTidy = true := hs
  have hplain := linesOf_textOf htidy hsuffix h
  rw [bare, cut_textOf hs hsuffix h, filter_keptLines hs h, ← hplain, joinWith_linesOf]

end ModuleStyle

/-- A module with comments or types holds the module without them: cutting its comments and dropping
the lines of exported types leaves that. Its comments are those of the fields with annotations, and
each of them closes at its end and not before. -/
theorem comments_and_types_add {style : ModuleStyle} {structs : List Schema}
    (hs : style.isTidy = true)
    (hsuffix : ∀ c ∈ style.suffix.toList, isIdentifierRest c = true) (hne : structs ≠ [])
    (hnames : ∀ s ∈ structs, isName s.name.toList = true ∧
      ∀ e ∈ s.fields, e.2.type.Named ∧ ∀ a ∈ e.2.annotations, isName a.1.toList = true) :
    ∃ text, style.emit structs = .ok text ∧ style.plain.emit structs = .ok (style.bare text) ∧
      style.comments text = (structs.flatMap style.structComments).map (joinWith "\n") ∧
      ∀ comment ∈ style.comments text, ClosesAtEnd comment := by
  have hlined : ∀ s ∈ structs, s.Lined := fun s hm =>
    ⟨oneLine_name (hnames s hm).1, fun e he => ((hnames s hm).2 e he).1,
      fun e he => ((hnames s hm).2 e he).2⟩
  have hcomments : style.comments (style.textOf structs) =
      (structs.flatMap style.structComments).map (joinWith "\n") := by
    rw [ModuleStyle.comments, ModuleStyle.cut_textOf hs hsuffix hlined]
  refine ⟨style.textOf structs, style.emit_eq hne, ?_, hcomments, ?_⟩
  · rw [ModuleStyle.bare_textOf hs hsuffix hlined, style.plain.emit_eq hne]
  · rw [hcomments]
    refine List.forall_mem_map.mpr fun lines hm => ?_
    obtain ⟨s, hmem, hm⟩ := List.mem_flatMap.mp hm
    obtain ⟨f, hf, hm⟩ := List.mem_flatMap.mp hm
    obtain ⟨e, he, rfl⟩ := List.mem_map.mp hf
    unfold ModuleStyle.fieldComments at hm
    split at hm
    · next hd =>
      rw [Bool.and_eq_true] at hd
      rw [List.mem_singleton.mp hm]
      exact ModuleStyle.closesAtEnd_docLines hs hd.1 (by simpa using hd.2)
        ((hlined s hmem).notes e he)
    · exact absurd hm List.not_mem_nil

/-- A struct with an annotation that holds line breaks and ends of comments. -/
def noted : Schema := ⟨"A", [("x", ⟨"x", .string, [("doc", "*/\n**/")]⟩), ("y", ⟨"y", .any, []⟩)]⟩

theorem comments_and_types_add_noted :
    ∃ text, ModuleStyle.emit { types := true, docs := true } [noted] = .ok text ∧
      ModuleStyle.emit {} [noted] = .ok (ModuleStyle.bare { types := true, docs := true } text) ∧
      ModuleStyle.comments { types := true, docs := true } text =
        ["  /**\n   * @doc *\\/ **\\/\n   */"] ∧
      ∀ comment ∈ ModuleStyle.comments { types := true, docs := true } text,
        ClosesAtEnd comment := by
  have hsuffix : ∀ c ∈ (ModuleStyle.suffix { types := true, docs := true }).toList,
      isIdentifierRest c = true := List.all_eq_true.mp (by decide)
  have hnames : ∀ s ∈ [noted], isName s.name.toList = true ∧
      ∀ e ∈ s.fields, e.2.type.Named ∧ ∀ a ∈ e.2.annotations, isName a.1.toList = true := by
    simp only [noted, List.forall_mem_cons]
    exact ⟨⟨by decide, ⟨.string, by decide, fun _ h => absurd h List.not_mem_nil⟩,
      ⟨.any, fun _ h => absurd h List.not_mem_nil⟩, fun _ h => absurd h List.not_mem_nil⟩,
      fun _ h => absurd h List.not_mem_nil⟩
  obtain ⟨text, hfull, hplain, hcomments, hclosed⟩ :=
    comments_and_types_add (by decide) hsuffix (List.cons_ne_nil noted []) hnames
  exact ⟨text, hfull, hplain, hcomments.trans (by decide +kernel), hclosed⟩

end SchemaGen
