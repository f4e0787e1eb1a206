import SchemaGen.Proofs.Emit.CallText

namespace SchemaGen

open Text

namespace CallTree

/-- The name of the constructor of a call. -/
def keyword : CallTree → String
  | leaf kind => kind.name
  | array _ => "array"
  | set _ => "set"
  | map _ _ => "record"
  | object _ => "object"
  | union _ => "union"
  | default inner _ | optional inner => keyword inner

variable {p : String}

def propertyText (p : String) (property : String × CallTree) : String :=
  objectKey property.1 ++ ": " ++ text p property.2

theorem memberTexts_eq_map (p : String) (ms : List CallTree) :
    memberTexts p ms = ms.map (text p) := by
  induction ms with
  | nil => rfl
  | cons m ms ih => rw [memberTexts, ih, List.map_cons]

theorem propertyTexts_eq_map (p : String) (ps : List (String × CallTree)) :
    propertyTexts p ps = ps.map (propertyText p) := by
  induction ps with
  | nil => rfl
  | cons property ps ih => rw [propertyTexts, ih, List.map_cons, propertyText]

/-- The text between the parentheses of a call. -/
def arguments (p : String) : CallTree → List Char
  | leaf _ => []
  | array element | set element => (text p element).toList
  | map key value => (text p key).toList ++ ',' :: ' ' :: (text p value).toList
  | object [] => ['\x7b', '\x7d']
  | object properties =>
    '\x7b' :: ' ' :: ((joinWith ", " (properties.map (propertyText p))).toList ++ [' ', '\x7d'])
  | union members => '[' :: ((joinWith ", " (members.map (text p))).toList ++ [']'])
  | default _ _ | optional _ => []

theorem call_toList {a : CallTree} (h : Call a) :
    (text p a).toList = p.toList ++ ((keyword a).toList ++ '(' :: (arguments p a ++ [')'])) := by
  cases h with
  | leaf kind => simp [text, keyword, arguments]
  | array _ | set _ | map _ _ => simp [text, keyword, arguments]
  | @object ps _ =>
    rw [text, propertyTexts_eq_map]
    cases ps with
    | nil => simp [SchemaType.objectText, keyword, arguments]
    | cons p ps => simp [SchemaType.objectText, keyword, arguments]
  | @union ms _ =>
    rw [text, memberTexts_eq_map]
    simp [SchemaType.unionText, keyword, arguments]

theorem keyword_open (a : CallTree) : (keyword a).toList.all (· != '(') = true := by
  cases a with
  | leaf kind => cases kind <;> decide
  | array _ | set _ | map _ _ | object _ | union _ => simp [keyword]
  | default inner _ | optional inner => exact keyword_open inner

theorem keyword_unique {a b : CallTree} {x y : List Char}
    (h : (keyword a).toList ++ '(' :: x = (keyword b).toList ++ '(' :: y) :
    keyword a = keyword b ∧ x = y := by
  have stop (cs : List Char) : Idl.Stops (· != '(') ('(' :: cs) := by simp [Idl.Stops]
  have ht := congrArg (List.takeWhile (· != '(')) h
  rw [Idl.takeWhile_append_stop (List.all_eq_true.mp (keyword_open a)) (stop x),
    Idl.takeWhile_append_stop (List.all_eq_true.mp (keyword_open b)) (stop y)] at ht
  rw [ht, List.append_cancel_left_eq, List.cons.injEq] at h
  exact ⟨String.toList_inj.mp ht, h.2⟩

theorem leafName_injective {k l : Leaf} (h : k.name = l.name) : k = l := by
  cases k <;> cases l <;> first | rfl | exact absurd h (by decide)

theorem keyword_start (a : CallTree) : ∀ c ∈ (keyword a).toList.head?, c ≠ ']' := by
  cases a with
  | leaf kind => cases kind <;> simp [keyword, Leaf.name]
  | array _ | set _ | map _ _ | object _ | union _ => simp [keyword]
  | default inner _ | optional inner => exact keyword_start inner

/-- No text starts like the end of a union, if the qualifier does not. -/
theorem text_ne_bracket (hp : ∀ c ∈ p.toList.head?, c ≠ ']') {t : CallTree} (h : Sealed t)
    (r s : List Char) : (text p t).toList ++ r ≠ ']' :: s := by
  obtain ⟨a, ms, rfl, ha, -⟩ := exists_call h
  rw [text_marked, call_toList ha]
  intro he
  cases hq : p.toList with
  | nil =>
    cases hk : (keyword a).toList with
    | nil => simp [hq, hk] at he
    | cons c cs =>
      have hc := keyword_start a c (by rw [hk]; rfl)
      simp only [hq, hk, List.nil_append, List.cons_append, List.cons.injEq] at he
      exact hc he.1
  | cons c cs =>
    have hc := hp c (by rw [hq]; rfl)
    simp only [hq, List.cons_append, List.cons.injEq] at he
    exact hc he.1

theorem ends_of_ne {c : Char} (h : c ≠ '.') (cs : List Char) : Ends (c :: cs) := by
  simp [Ends, h]

/-- Whatever follows the text of a tree and adds no mark, the text and the rest are told apart. -/
def Determined (p : String) (t : CallTree) : Prop :=
  ∀ ⦃u r s⦄, Sealed u → Ends r → Ends s → (text p t).toList ++ r = (text p u).toList ++ s →
    t = u ∧ r = s

section Arguments

variable {a b : CallTree} {x y : List Char}

theorem element_unique {t u : CallTree} (ht : Determined p t) (hu : Sealed u)
    (h : (text p t).toList ++ ')' :: x = (text p u).toList ++ ')' :: y) : t = u ∧ x = y := by
  obtain ⟨rfl, hx⟩ := ht hu (ends_of_ne (by decide) x) (ends_of_ne (by decide) y) h
  exact ⟨rfl, (List.cons.inj hx).2⟩

theorem pair_unique {k v l w : CallTree} (hk : Determined p k) (hv : Determined p v) (hl : Sealed l)
    (hw : Sealed w)
    (h : (text p k).toList ++ ',' :: ' ' :: ((text p v).toList ++ ')' :: x) =
      (text p l).toList ++ ',' :: ' ' :: ((text p w).toList ++ ')' :: y)) :
    k = l ∧ v = w ∧ x = y := by
  obtain ⟨rfl, hrest⟩ := hk hl (ends_of_ne (by decide) _) (ends_of_ne (by decide) _) h
  simp only [List.cons.injEq, true_and] at hrest
  obtain ⟨rfl, hx⟩ := element_unique hv hw hrest
  exact ⟨rfl, rfl, hx⟩

theorem property_told {ps qs : List (String × CallTree)} (hp : ∀ e ∈ ps, Determined p e.2)
    (hq : ∀ q ∈ qs, Sealed q.2) : Told (propertyText p) ps qs := by
  rintro ⟨k, t⟩ hkt ⟨l, u⟩ hlu r s hr hs h
  have colon (cs : List Char) : (": " : String).toList ++ cs = ':' :: ' ' :: cs := by simp
  simp only [propertyText, String.toList_append, List.append_assoc, colon] at h
  obtain ⟨rfl, hvalue⟩ := key_unique h
  obtain ⟨rfl, hrs⟩ := hp _ hkt (hq _ hlu) hr hs (List.cons.inj hvalue).2
  exact ⟨rfl, hrs⟩

theorem properties_unique {ps qs : List (String × CallTree)} (hp : ∀ e ∈ ps, Determined p e.2)
    (hq : ∀ q ∈ qs, Sealed q.2)
    (h : arguments p (.object ps) ++ ')' :: x = arguments p (.object qs) ++ ')' :: y) :
    ps = qs ∧ x = y := by
  cases ps with
  | nil =>
    cases qs with
    | nil => exact ⟨rfl, by simpa [arguments] using h⟩
    | cons q qs => simp [arguments] at h
  | cons p ps =>
    cases qs with
    | nil => simp [arguments] at h
    | cons q qs =>
      simp only [arguments, List.cons_append, List.append_assoc, List.nil_append, List.cons.injEq,
        true_and] at h
      obtain ⟨hps, hrest⟩ := row_unique (by decide) (by decide) (property_told hp hq) h
      exact ⟨hps, by simpa using hrest⟩

theorem members_unique (hp : ∀ c ∈ p.toList.head?, c ≠ ']') {ms ns : List CallTree}
    (hm : ∀ m ∈ ms, Determined p m)
    (hs : ∀ m ∈ ms, Sealed m) (hn : ∀ m ∈ ns, Sealed m)
    (h : arguments p (.union ms) ++ ')' :: x = arguments p (.union ns) ++ ')' :: y) :
    ms = ns ∧ x = y := by
  simp only [arguments, List.cons_append, List.append_assoc, List.nil_append, List.cons.injEq,
    true_and] at h
  cases ms with
  | nil =>
    cases ns with
    | nil => exact ⟨rfl, by simpa [joinWith] using h⟩
    | cons n ns =>
      rw [List.map_cons, joinWith_toList, List.append_assoc] at h
      exact absurd h.symm (text_ne_bracket hp (hn n List.mem_cons_self) _ _)
  | cons m ms =>
    cases ns with
    | nil =>
      rw [List.map_cons, joinWith_toList, List.append_assoc] at h
      exact absurd h (text_ne_bracket hp (hs m List.mem_cons_self) _ _)
    | cons n ns =>
      have ht : Told (text p) (m :: ms) (n :: ns) :=
        fun a ha b hb _ _ hr ht he => hm a ha (hn b hb) hr ht he
      obtain ⟨hms, hrest⟩ := row_unique (by decide) (by decide) ht h
      exact ⟨hms, (List.cons.inj hrest).2⟩

end Arguments

theorem sizeOf_lt_object {ps : List (String × CallTree)} {e : String × CallTree} (h : e ∈ ps) :
    sizeOf e.2 < sizeOf (object ps) := by
  have hlist := List.sizeOf_lt_of_mem h
  have hpair : sizeOf e.2 < sizeOf e := by
    cases e
    simp only [Prod.mk.sizeOf_spec]
    omega
  simp only [object.sizeOf_spec]
  omega

theorem sizeOf_lt_union {ms : List CallTree} {m : CallTree} (h : m ∈ ms) :
    sizeOf m < sizeOf (union ms) := by
  have hlist := List.sizeOf_lt_of_mem h
  simp only [union.sizeOf_spec]
  omega

/-- A call and whatever follows it are told apart, if the trees in it are. -/
theorem call_unique (hp : ∀ c ∈ p.toList.head?, c ≠ ']') {a b : CallTree} {x y : List Char}
    (ha : Call a) (hb : Call b) (hin : ∀ t, sizeOf t < sizeOf a → Sealed t → Determined p t)
    (h : (text p a).toList ++ x = (text p b).toList ++ y) : a = b ∧ x = y := by
  rw [call_toList ha, call_toList hb] at h
  simp only [List.append_assoc, List.cons_append, List.nil_append, List.append_cancel_left_eq] at h
  obtain ⟨hk, h⟩ := keyword_unique h
  cases ha with
  | leaf k =>
    cases hb with
    | leaf l =>
      obtain rfl := leafName_injective hk
      exact ⟨rfl, (List.cons.inj h).2⟩
    | array | set | map | object | union => cases k <;> simp [keyword, Leaf.name] at hk
  | @array t ht =>
    cases hb with
    | array hu =>
      obtain ⟨rfl, hx⟩ := element_unique (hin t (by simp) ht) hu h
      exact ⟨rfl, hx⟩
    | leaf l => cases l <;> simp [keyword, Leaf.name] at hk
    | set | map | object | union => simp [keyword] at hk
  | @set t ht =>
    cases hb with
    | set hu =>
      obtain ⟨rfl, hx⟩ := element_unique (hin t (by simp) ht) hu h
      exact ⟨rfl, hx⟩
    | leaf l => cases l <;> simp [keyword, Leaf.name] at hk
    | array | map | object | union => simp [keyword] at hk
  | @map k v hkey hvalue =>
    cases hb with
    | map hl hw =>
      simp only [arguments, List.cons_append, List.append_assoc] at h
      have dk := hin k (by simp only [map.sizeOf_spec]; omega) hkey
      have dv := hin v (by simp only [map.sizeOf_spec]; omega) hvalue
      obtain ⟨rfl, rfl, hx⟩ := pair_unique dk dv hl hw h
      exact ⟨rfl, hx⟩
    | leaf l => cases l <;> simp [keyword, Leaf.name] at hk
    | array | set | object | union => simp [keyword] at hk
  | @object ps hps =>
    cases hb with
    | object hq =>
      have dp : ∀ e ∈ ps, Determined p e.2 :=
        fun e hmem => hin e.2 (sizeOf_lt_object hmem) (hps e hmem)
      obtain ⟨rfl, hx⟩ := properties_unique dp hq h
      exact ⟨rfl, hx⟩
    | leaf l => cases l <;> simp [keyword, Leaf.name] at hk
    | array | set | map | union => simp [keyword] at hk
  | @union ms hm =>
    cases hb with
    | union hn =>
      have dm : ∀ m ∈ ms, Determined p m := fun m hmem => hin m (sizeOf_lt_union hmem) (hm m hmem)
      obtain ⟨rfl, hx⟩ := members_unique hp dm hm hn h
      exact ⟨rfl, hx⟩
    | leaf l => cases l <;> simp [keyword, Leaf.name] at hk
    | array | set | map | object => simp [keyword] at hk

theorem sizeOf_le_marked (a : CallTree) (ms : List Mark) :
    sizeOf a ≤ sizeOf (ms.foldl Mark.on a) := by
  induction ms generalizing a with
  | nil => exact Nat.le_refl _
  | cons m ms ih =>
    have hm : sizeOf a ≤ sizeOf (Mark.on a m) := by cases m <;> simp [Mark.on]; omega
    exact Nat.le_trans hm (ih _)

/-- Before a text that adds no mark, the text of a tree determines the tree. -/
theorem text_unique (hp : ∀ c ∈ p.toList.head?, c ≠ ']') {t : CallTree} (h : Sealed t) :
    Determined p t := by
  intro u r s hu hr hs he
  obtain ⟨a, ms, rfl, ha, hm⟩ := exists_call h
  obtain ⟨b, ns, rfl, hb, hn⟩ := exists_call hu
  rw [text_marked, text_marked, List.append_assoc, List.append_assoc] at he
  have hle := sizeOf_le_marked a ms
  have hin (t : CallTree) (hlt : sizeOf t < sizeOf a) (ht : Sealed t) : Determined p t :=
    have : sizeOf t < sizeOf (ms.foldl Mark.on a) := Nat.lt_of_lt_of_le hlt hle
    text_unique hp ht
  obtain ⟨rfl, hrest⟩ := call_unique hp ha hb hin he
  obtain ⟨rfl, hrs⟩ := marks_unique hm hn hr hs hrest
  exact ⟨rfl, hrs⟩
termination_by sizeOf t

theorem text_injective (hp : ∀ c ∈ p.toList.head?, c ≠ ']') {t u : CallTree} (ht : Sealed t)
    (hu : Sealed u) (h : text p t = text p u) : t = u := by
  have ends : Ends [] := by simp [Ends]
  exact (text_unique hp ht hu ends ends (by rw [h])).1

end CallTree
end SchemaGen
