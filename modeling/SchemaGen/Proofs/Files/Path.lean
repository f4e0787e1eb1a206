import Mathlib.Data.List.DropRight
import SchemaGen.Files.Tree
import SchemaGen.Proofs.Idl.Lexeme
import SchemaGen.Proofs.Text.Split

namespace SchemaGen.Files

open Text

/-- A name that an entry of a directory can have. -/
def isProperName (name : String) : Bool :=
  name != "" && name != "." && name != ".." && !name.toList.contains '/'

structure ProperName (name : String) : Prop where
  nonempty : name ≠ ""
  ne_dot : name ≠ "."
  ne_up : name ≠ ".."
  no_slash : '/' ∉ name.toList

theorem isProperName_iff {name : String} : isProperName name = true ↔ ProperName name := by
  simp only [isProperName, Bool.and_eq_true, bne_iff_ne, Bool.not_eq_true', List.contains_eq_mem,
    decide_eq_false_iff_not]
  exact ⟨fun h => ⟨h.1.1.1, h.1.1.2, h.1.2, h.2⟩,
    fun h => ⟨⟨⟨h.nonempty, h.ne_dot⟩, h.ne_up⟩, h.no_slash⟩⟩

namespace Path

theorem parts_slash (front back : String) :
    parts (front ++ "/" ++ back) = parts front ++ parts back :=
  piecesOf_append front back

theorem parts_name {name : String} (h : '/' ∉ name.toList) : parts name = [name] :=
  piecesOf_single h

theorem ofParts_parts (path : String) : ofParts (parts path) = path := joinWith_piecesOf '/' path

theorem parts_ofParts {names : List String} (hne : names ≠ []) (h : ∀ n ∈ names, '/' ∉ n.toList) :
    parts (ofParts names) = names := by
  have hpieces : parts (ofParts names) = names.flatMap parts := piecesOf_joinWith hne
  have heach : names.flatMap parts = names.flatMap fun n => [n] :=
    List.flatMap_congr fun n hn => parts_name (h n hn)
  rw [hpieces, heach, List.flatMap_singleton']

theorem not_mem_of_mem_parts {path part : String} (h : part ∈ parts path) : '/' ∉ part.toList :=
  not_mem_of_mem_piecesOf h

theorem isAbsolute_ofParts {first : String} (h : first ≠ "") (hs : '/' ∉ first.toList)
    (rest : List String) : isAbsolute (ofParts (first :: rest)) = false := by
  obtain ⟨c, cs, hfirst⟩ := List.exists_cons_of_ne_nil (mt String.toList_eq_nil_iff.mp h)
  have hc : c ≠ '/' := by
    rintro rfl
    exact hs (hfirst ▸ List.mem_cons_self)
  cases rest with
  | nil => simp [isAbsolute, ofParts, joinWith, hfirst, hc]
  | cons second rest => simp [isAbsolute, ofParts, joinWith, hfirst, hc]

theorem isAbsolute_names {names : List String} (h : ∀ n ∈ names, n ≠ "" ∧ '/' ∉ n.toList) :
    isAbsolute (ofParts names) = false := by
  cases names with
  | nil => rfl
  | cons n names =>
    rw [List.forall_mem_cons] at h
    exact isAbsolute_ofParts h.1.1 h.1.2 names

theorem isAbsolute_root (second : String) (rest : List String) :
    isAbsolute (ofParts ("" :: second :: rest)) = true := by
  simp [isAbsolute, ofParts, joinWith]

theorem trimParts_front (ps : List String) : trimParts ps <+: ps := by
  cases ps with
  | nil => exact List.prefix_rfl
  | cons first rest =>
    have hrest : rest.rdropWhile (fun p => p == "" || p == ".") <+: rest :=
      List.rdropWhile_prefix _ rest
    exact List.prefix_cons_inj first |>.mpr hrest

theorem trimParts_append {front : List String} {last : String} (h : last ≠ "") (hd : last ≠ ".") :
    trimParts (front ++ [last]) = front ++ [last] := by
  cases front with
  | nil => rfl
  | cons first front =>
    rw [List.cons_append, trimParts, List.reverse_append, List.reverse_singleton,
      List.singleton_append, List.dropWhile_cons_of_neg (by simp [h, hd]), List.reverse_cons,
      List.reverse_reverse]

theorem forall_no_slash {front : List String} {last : String} (hf : ∀ n ∈ front, '/' ∉ n.toList)
    (hl : '/' ∉ last.toList) : ∀ n ∈ front ++ [last], '/' ∉ n.toList :=
  List.forall_mem_append.mpr ⟨hf, List.forall_mem_singleton.mpr hl⟩

theorem fileName?_ofParts {front : List String} {last : String} (hl : ProperName last)
    (hf : ∀ n ∈ front, '/' ∉ n.toList) : fileName? (ofParts (front ++ [last])) = some last := by
  obtain ⟨hne, hdot, hup, hslash⟩ := hl
  rw [fileName?, parts_ofParts (by simp) (forall_no_slash hf hslash), trimParts_append hne hdot,
    List.getLast?_concat]
  split <;> simp_all

theorem fileName?_up {front : List String} (hf : ∀ n ∈ front, '/' ∉ n.toList) :
    fileName? (ofParts (front ++ [".."])) = none := by
  rw [fileName?, parts_ofParts (by simp) (forall_no_slash hf (by decide)),
    trimParts_append (by decide) (by decide), List.getLast?_concat]
  rfl

/-- A name is cut at a dot with no other behind it. -/
theorem splitExtension_append {stem extension : String} (hs : stem ≠ "")
    (he : '.' ∉ extension.toList) :
    splitExtension (stem ++ "." ++ extension) = (stem, some extension) := by
  have hchars : (stem ++ "." ++ extension).toList.reverse =
      extension.toList.reverse ++ '.' :: stem.toList.reverse := by simp
  have htest : ∀ c ∈ extension.toList.reverse, (c != '.') = true := by
    intro c hc
    rw [List.mem_reverse] at hc
    rw [bne_iff_ne]
    rintro rfl
    exact he hc
  have hstop : Idl.Stops (· != '.') ('.' :: stem.toList.reverse) := by simp [Idl.Stops]
  have hstem : stem.toList ≠ [] := mt String.toList_eq_nil_iff.mp hs
  rw [splitExtension, hchars]
  simp only [Idl.takeWhile_append_stop htest hstop, Idl.dropWhile_append_stop htest hstop,
    List.reverse_cons, List.reverse_reverse, List.dropLast_concat, String.ofList_toList]

theorem splitExtension_eq_some {name stem extension : String}
    (h : splitExtension name = (stem, some extension)) :
    name = stem ++ "." ++ extension ∧ stem ≠ "" ∧ '.' ∉ extension.toList := by
  have hcut := List.takeWhile_append_dropWhile (p := (· != '.')) (l := name.toList.reverse)
  generalize hback : name.toList.reverse.takeWhile (· != '.') = back at hcut
  generalize hfront : name.toList.reverse.dropWhile (· != '.') = front at hcut
  rw [splitExtension, hback, hfront] at h
  cases front with
  | nil => cases h
  | cons c front =>
    have hdot : c = '.' := by
      have hhead := List.head?_dropWhile_not (· != '.') name.toList.reverse
      rw [hfront] at hhead
      simpa using hhead
    rw [List.reverse_cons, List.dropLast_concat] at h
    have hback' : ∀ d ∈ back, d ≠ '.' := by
      intro d hd
      have htest := List.mem_takeWhile_imp (hback ▸ hd)
      simpa using htest
    have hchars : name.toList = front.reverse ++ '.' :: back.reverse := by
      rw [← List.reverse_inj, ← hcut, hdot]
      simp
    split at h
    · cases h
    · next hne =>
      obtain ⟨rfl, he⟩ := Prod.mk.inj h
      obtain rfl := Option.some.inj he
      refine ⟨String.toList_inj.mp (by simp [hchars]), fun hempty => hne ?_, ?_⟩
      · simpa using hempty
      · rw [String.toList_ofList, List.mem_reverse]
        exact fun hm => hback' _ hm rfl

/-- What is left of a path without the extension ends in the dot. -/
theorem cutExtension_ofParts {front : List String} {stem extension : String}
    (hl : ProperName (stem ++ "." ++ extension)) (hf : ∀ n ∈ front, '/' ∉ n.toList)
    (hs : stem ≠ "") (he : '.' ∉ extension.toList) :
    cutExtension (ofParts (front ++ [stem ++ "." ++ extension])) =
      ofParts (front ++ [stem ++ "."]) := by
  have htake (a b : String) :
      String.ofList ((a ++ b).toList.take ((a ++ b).length - b.length)) = a := by
    simp [← String.length_toList]
  rw [cutExtension, fileName?_ofParts hl hf,
    parts_ofParts (by simp) (forall_no_slash hf hl.no_slash), List.getLast?_concat]
  simp only [if_true, splitExtension_append hs he]
  rw [ofParts, ← joinWith_append_back, htake]
  rfl

theorem append_dot {stem : String} (hs : stem ≠ "") (hd : stem ≠ ".") (hslash : '/' ∉ stem.toList) :
    ProperName (stem ++ ".") := by
  have hlist {other : String} (h : stem ++ "." = other ++ ".") : stem = other :=
    (String.append_left_inj ".").mp h
  refine ⟨?_, fun h => hs (hlist h), fun h => hd (hlist h), by simp [hslash]⟩
  intro h
  simp at h

/-- Without its extension a name may be a step upwards, which takes no other. -/
theorem withExtension_ofParts {front : List String} {stem extension : String}
    (hl : ProperName (stem ++ "." ++ extension)) (hf : ∀ n ∈ front, '/' ∉ n.toList)
    (hs : stem ≠ "") (he : '.' ∉ extension.toList) (other : String) :
    withExtension (ofParts (front ++ [stem ++ "." ++ extension])) other =
      if stem = "." then ofParts (front ++ [".."])
      else ofParts (front ++ [stem ++ "." ++ other]) := by
  have hslash : '/' ∉ stem.toList := by
    intro hm
    exact hl.no_slash (by simp [hm])
  have hleft := cutExtension_ofParts hl hf hs he
  unfold withExtension
  simp only [hleft]
  by_cases hd : stem = "."
  · have hup : "." ++ "." = ".." := rfl
    simp only [hd, hup, fileName?_up hf, if_true]
  · have hcut := append_dot hs hd hslash
    have hsplit : splitExtension (stem ++ ".") = (stem, some "") := by
      have happend := @splitExtension_append stem "" hs (by simp)
      rwa [String.append_empty] at happend
    simp only [fileName?_ofParts hcut hf, hsplit, if_neg hd,
      parts_ofParts (List.concat_ne_nil _ _) (forall_no_slash hf hcut.no_slash),
      trimParts_append hcut.nonempty hcut.ne_dot, List.dropLast_concat]

end Path

namespace Tree

open Files.Path Text

theorem steps_slash (front back : String) :
    steps (front ++ "/" ++ back) = steps front ++ steps back := by
  rw [steps, parts_slash, List.filter_append]
  rfl

theorem steps_ofParts {names : List String} (h : ∀ n ∈ names, n ≠ "" ∧ '/' ∉ n.toList) :
    steps (ofParts names) = names := by
  cases names with
  | nil => rfl
  | cons n names =>
    rw [steps, parts_ofParts (List.cons_ne_nil n names) fun m hm => (h m hm).2]
    exact List.filter_eq_self.mpr fun m hm => by simpa using (h m hm).1

/-- A path is joined to another by a slash, unless that one is empty or ends in a slash. -/
theorem join_eq {path : String} (hp : isAbsolute path = false) (base : String) :
    (base = "" ∧ join base path = path) ∨
      ∃ front, join base path = front ++ "/" ++ path ∧ (base = front ∨ base = front ++ "/") := by
  rw [join, hp]
  split
  · next h => cases h
  · split
    · next h =>
      rw [Bool.or_eq_true, String.isEmpty_iff, beq_iff_eq] at h
      rcases h with rfl | hlast
      · exact .inl ⟨rfl, String.empty_append⟩
      · obtain ⟨cs, hcs⟩ := List.getLast?_eq_some_iff.mp hlast
        obtain rfl : base = String.ofList cs ++ "/" := String.toList_inj.mp (by simp [hcs])
        exact .inr ⟨String.ofList cs, rfl, .inr rfl⟩
    · exact .inr ⟨base, rfl, .inl rfl⟩

theorem parts_join {path : String} (hp : isAbsolute path = false) (base : String) :
    ∃ front, parts (join base path) = front ++ parts path := by
  rcases join_eq hp base with ⟨-, hjoin⟩ | ⟨front, hjoin, -⟩
  · exact ⟨[], by rw [hjoin, List.nil_append]⟩
  · exact ⟨parts front, by rw [hjoin, parts_slash]⟩

theorem steps_join {path : String} (hp : isAbsolute path = false) (base : String) :
    steps (join base path) = steps base ++ steps path := by
  have hnil : steps "" = [] := rfl
  rcases join_eq hp base with ⟨rfl, hjoin⟩ | ⟨front, hjoin, hbase⟩
  · rw [hjoin, hnil, List.nil_append]
  · rw [hjoin, steps_slash]
    rcases hbase with rfl | rfl
    · rfl
    · have hslash := steps_slash front ""
      rw [String.append_empty, hnil, List.append_nil] at hslash
      rw [hslash]

theorem isAbsolute_join {path : String} (hp : isAbsolute path = false) (base : String) :
    isAbsolute (join base path) = isAbsolute base := by
  rw [join, hp]
  by_cases hb : base = ""
  · subst hb
    simpa [isAbsolute] using hp
  · have hchars : base.toList ≠ [] := mt String.toList_eq_nil_iff.mp hb
    obtain ⟨c, cs, hcs⟩ := List.exists_cons_of_ne_nil hchars
    split
    · next h => cases h
    · split <;> simp [isAbsolute, hcs]

/-- What a relative path is joined to does not depend on it. -/
theorem exists_join_eq (base : String) :
    ∃ front, ∀ path, isAbsolute path = false → join base path = front ++ path := by
  by_cases hbase : (base.isEmpty || base.toList.getLast? == some '/') = true
  · refine ⟨base, fun path hp => ?_⟩
    rw [join, hp, hbase]
    rfl
  · refine ⟨base ++ "/", fun path hp => ?_⟩
    rw [Bool.not_eq_true] at hbase
    rw [join, hp, hbase]
    rfl

/-- Behind a name a path is joined by a slash. -/
theorem join_name {name path : String} (h : ProperName name) (hp : isAbsolute path = false)
    (front : String) : join (front ++ name) path = front ++ name ++ "/" ++ path := by
  have hchars : name.toList ≠ [] := mt String.toList_eq_nil_iff.mp h.nonempty
  have hend : name.toList.getLast? ≠ some '/' := fun he => h.no_slash (List.mem_of_getLast? he)
  have hlast : ((front ++ name).toList.getLast? == some '/') = false := by
    rw [String.toList_append, List.getLast?_append_of_ne_nil _ hchars]
    simpa using hend
  have hempty : (front ++ name).isEmpty = false := by simp [h.nonempty]
  rw [join, hp, hempty, hlast]
  rfl

/-- A path is joined name by name as it is joined whole. -/
theorem join_ofParts {names : List String} (hne : names ≠ []) (h : ∀ n ∈ names, ProperName n)
    (base : String) : join base (ofParts names) = descend base names := by
  induction names generalizing base with
  | nil => exact absurd rfl hne
  | cons n names ih =>
    by_cases hrest : names = []
    · subst hrest
      rfl
    · have hall := isAbsolute_names fun m hm => ⟨(h m hm).nonempty, (h m hm).no_slash⟩
      rw [List.forall_mem_cons] at h
      have hfirst : isAbsolute n = false := isAbsolute_ofParts h.1.nonempty h.1.no_slash []
      have hnames := isAbsolute_names fun m hm => ⟨(h.2 m hm).nonempty, (h.2 m hm).no_slash⟩
      have hpath : ofParts (n :: names) = n ++ "/" ++ ofParts names :=
        joinWith_cons_of_ne_nil hrest "/"
      obtain ⟨front, hfront⟩ := exists_join_eq base
      calc join base (ofParts (n :: names))
          = front ++ (n ++ "/" ++ ofParts names) := by rw [hfront _ hall, hpath]
        _ = front ++ n ++ "/" ++ ofParts names := by simp only [String.append_assoc]
        _ = join (join base n) (ofParts names) := by rw [hfront n hfirst, join_name h.1 hnames]
        _ = descend base (n :: names) := ih hrest h.2 (join base n)

/-- Whether a path begins with a dot is left by what is joined to it. -/
theorem parts_join_head {name : String} (h : ProperName name) (base : String) :
    (parts (join base name)).head? = some "." ↔ (parts base).head? = some "." := by
  have hrelative : isAbsolute name = false := isAbsolute_ofParts h.nonempty h.no_slash []
  have hempty : parts "" = [""] := rfl
  have hhead (front back : String) :
      (parts (front ++ "/" ++ back)).head? = (parts front).head? := by
    have hne : parts front ≠ [] := mt List.map_eq_nil_iff.mp (splitOn_ne_nil '/' front.toList)
    rw [parts_slash, List.head?_append_of_ne_nil _ hne]
  rcases join_eq hrelative base with ⟨rfl, hjoin⟩ | ⟨front, hjoin, hbase⟩
  · rw [hjoin, parts_name h.no_slash, hempty]
    simp [h.ne_dot]
  · rw [hjoin, hhead]
    rcases hbase with rfl | rfl
    · rfl
    · have hslash := hhead front ""
      rw [String.append_empty] at hslash
      rw [hslash]

theorem parts_descend_head {names : List String} (h : ∀ n ∈ names, ProperName n) (base : String) :
    (parts (descend base names)).head? = some "." ↔ (parts base).head? = some "." := by
  induction names generalizing base with
  | nil => rfl
  | cons n names ih =>
    rw [List.forall_mem_cons] at h
    exact (ih h.2 (join base n)).trans (parts_join_head h.1 base)

/-- The path some steps down has these steps behind its own. -/
theorem steps_descend {names : List String} (h : ∀ n ∈ names, ProperName n) (base : String) :
    isAbsolute (descend base names) = isAbsolute base ∧
      steps (descend base names) = steps base ++ names := by
  induction names generalizing base with
  | nil => exact ⟨rfl, (List.append_nil (steps base)).symm⟩
  | cons n names ih =>
    rw [List.forall_mem_cons] at h
    have hname : ∀ m ∈ [n], m ≠ "" ∧ '/' ∉ m.toList :=
      List.forall_mem_singleton.mpr ⟨h.1.nonempty, h.1.no_slash⟩
    have hpath : ofParts [n] = n := rfl
    have hrelative := isAbsolute_names hname
    have hsingle := steps_ofParts hname
    rw [hpath] at hrelative hsingle
    obtain ⟨habsolute, hsteps⟩ := ih h.2 (join base n)
    refine ⟨habsolute.trans (isAbsolute_join hrelative base), hsteps.trans ?_⟩
    rw [steps_join hrelative, hsingle, List.append_assoc, List.singleton_append]

/-- What counts as a component is a step that does not stay. -/
theorem filter_parts (path : String) :
    ((parts path).filter fun p => p ≠ "" && p ≠ ".") = (steps path).filter (· ≠ ".") := by
  rw [steps, List.filter_filter]
  exact List.filter_congr fun p _ => Bool.and_comm _ _

/-- Behind the components of a path come those of the steps down from it. -/
theorem components_descend {names : List String} (h : ∀ n ∈ names, ProperName n) (base : String) :
    components (descend base names) = components base ++ names := by
  obtain ⟨hslash, hsteps⟩ := steps_descend h base
  have hnames : names.filter (· ≠ ".") = names :=
    List.filter_eq_self.mpr fun n hn => by simpa using (h n hn).ne_dot
  have habsolute :
      ((descend base names).toList.head? == some '/') = (base.toList.head? == some '/') := hslash
  have hdot :
      ((parts (descend base names)).head? == some ".") = ((parts base).head? == some ".") := by
    rw [Bool.eq_iff_iff, beq_iff_eq, beq_iff_eq]
    exact parts_descend_head h base
  unfold components
  dsimp only
  rw [filter_parts, filter_parts, hsteps, List.filter_append, hnames, habsolute, hdot]
  split
  · rfl
  · split
    · rfl
    · rfl

/-- The same path has the same steps but for those to the same directory. -/
theorem steps_of_same {path other : String} (h : same path other = true) :
    (steps path).filter (· ≠ ".") = (steps other).filter (· ≠ ".") := by
  have hsteps (path : String) :
      (components path).filter (fun p => p ≠ "/" && p ≠ ".") = (steps path).filter (· ≠ ".") := by
    have hall : ((steps path).filter (· ≠ ".")).filter (fun p => p ≠ "/" && p ≠ ".") =
        (steps path).filter (· ≠ ".") := by
      refine List.filter_eq_self.mpr fun p hp => ?_
      obtain ⟨hstep, hdot⟩ := List.mem_filter.mp hp
      have hslash := not_mem_of_mem_parts (List.mem_filter.mp hstep).1
      have hne : p ≠ "/" := by
        rintro rfl
        exact hslash (by decide)
      simpa [hne] using hdot
    unfold components
    rw [filter_parts]
    split
    · exact hall
    · split
      · exact hall
      · exact hall
  rw [← hsteps, ← hsteps, beq_iff_eq.mp h]

/-- Without the last of them and those that are trimmed, parts begin as they did. -/
theorem trimParts_dropLast (first second : String) (rest : List String) :
    ∃ others, trimParts (first :: second :: rest).dropLast = first :: others ∧
      others <+: second :: rest := by
  have hfront := trimParts_front (first :: (second :: rest).dropLast)
  have hdrop : (second :: rest).dropLast <+: second :: rest := List.dropLast_prefix (second :: rest)
  rw [trimParts] at hfront
  exact ⟨_, rfl, (List.prefix_cons_inj first |>.mp hfront).trans hdrop⟩

/-- Two paths with the same first part and others behind it are both absolute, or neither is. -/
theorem isAbsolute_of_head {first second third : String} {rest rest' : List String}
    (hs : '/' ∉ first.toList) :
    isAbsolute (ofParts (first :: second :: rest)) =
      isAbsolute (ofParts (first :: third :: rest')) := by
  by_cases hf : first = ""
  · rw [hf, isAbsolute_root, isAbsolute_root]
  · rw [isAbsolute_ofParts hf hs, isAbsolute_ofParts hf hs]

theorem isAbsolute_of_first {path first : String} {rest : List String}
    (h : parts path = first :: rest) (hf : first ≠ "") : isAbsolute path = false := by
  have hslash := not_mem_of_mem_parts (h ▸ List.mem_cons_self : first ∈ parts path)
  rw [← ofParts_parts path, h, isAbsolute_ofParts hf hslash]

/-- A path of the first parts of another starts where that one does, unless it is empty. -/
theorem isAbsolute_of_front {path first : String} {others tail : List String}
    (h : parts path = first :: tail) (hfront : others <+: tail) (hne : first = "" → others ≠ []) :
    isAbsolute (ofParts (first :: others)) = isAbsolute path := by
  have hslash := not_mem_of_mem_parts (h ▸ List.mem_cons_self : first ∈ parts path)
  by_cases hf : first = ""
  · obtain ⟨second, others, rfl⟩ := List.exists_cons_of_ne_nil (hne hf)
    obtain ⟨rest, rfl⟩ := hfront
    rw [← ofParts_parts path, h]
    exact isAbsolute_of_head hslash
  · rw [isAbsolute_ofParts hf hslash, isAbsolute_of_first h hf]

/-- The path one step up names the first steps, and starts in the same place. -/
theorem steps_parent {path up : String} (h : parent? path = some up) :
    steps up <+: steps path ∧ isAbsolute up = isAbsolute path := by
  have hnil : [] <+: steps path := List.nil_prefix
  have hfront := trimParts_front (parts path)
  rw [parent?] at h
  split at h
  · cases h
  · cases h
  · next first hroot hsingle =>
    obtain rfl := Option.some.inj h
    obtain ⟨tail, htail⟩ := hsingle ▸ hfront
    exact ⟨hnil, (isAbsolute_of_first htail.symm hroot).symm⟩
  · next hempty hroot hsingle =>
    generalize trimParts (parts path) = ps at *
    obtain ⟨first, second, rest, rfl⟩ : ∃ first second rest, ps = first :: second :: rest := by
      match ps with
      | [] => exact absurd rfl hempty
      | [first] => exact absurd rfl (hsingle first)
      | first :: second :: rest => exact ⟨first, second, rest, rfl⟩
    obtain ⟨tail, htail⟩ := hfront
    obtain ⟨others, hup, hothers⟩ := trimParts_dropLast first second rest
    have hparts : parts path = first :: (second :: rest ++ tail) := htail.symm
    have hbehind : others <+: second :: rest ++ tail := hothers.trans (List.prefix_append _ tail)
    rw [hup] at h
    split at h
    · next hone =>
      obtain rfl := Option.some.inj h
      obtain ⟨rfl, rfl⟩ := List.cons.inj hone
      refine ⟨hnil, ?_⟩
      rw [← ofParts_parts path, hparts]
      exact (isAbsolute_of_head (by decide) : isAbsolute (ofParts ["", ""]) = _)
    · next hmore =>
      obtain rfl := Option.some.inj h
      have hall : first :: others <+: parts path :=
        hparts ▸ (List.prefix_cons_inj first).mpr hbehind
      refine ⟨?_, isAbsolute_of_front hparts hbehind fun hf hnil => hmore (by rw [hf, hnil])⟩
      rw [steps, parts_ofParts (List.cons_ne_nil first others) fun n hn =>
        not_mem_of_mem_parts (hall.subset hn)]
      exact hall.filter _

end Tree
end SchemaGen.Files
