import SchemaGen.Files.Write
import SchemaGen.Proofs.Files.Tree

namespace SchemaGen.Files.Tree

open Files.Path

variable {t t' : Tree} {made written : Key → Prop} {home key : Key} {path : String}

theorem locateNew_eq_ok {name : String} : t.locateNew path = .ok (key, name) ↔
    checkPath path = .ok () ∧ t.isDirectoryAt key = true ∧ name.utf8ByteSize ≤ longestName ∧
      ∃ front, steps path = front ++ [name] ∧ t.walk (start t.home path) front = .ok key := by
  simp only [locateNew, bind, Except.bind, throw, throwThe, MonadExceptOf.throw, pure, Except.pure]
  cases checkPath path with
  | error fault => simp
  | ok u =>
    rcases List.eq_nil_or_concat' (steps path) with hnil | ⟨front, last, hsteps⟩
    · simp [hnil]
    · rw [hsteps, List.getLast?_concat, List.dropLast_concat]
      simp only [List.append_singleton_inj]
      cases hwalk : t.walk (start t.home path) front with
      | error fault =>
        refine ⟨fun h => (by cases h), ?_⟩
        rintro ⟨-, -, -, front', ⟨rfl, -⟩, hwalk'⟩
        rw [hwalk] at hwalk'
        cases hwalk'
      | ok place =>
        simp only [guard_eq_ok, Except.ok.injEq, Prod.mk.injEq]
        constructor
        · rintro ⟨hdir, hlong, rfl, rfl⟩
          exact ⟨trivial, by simpa using hdir, Nat.not_lt.mp hlong, front, ⟨rfl, rfl⟩, hwalk⟩
        · rintro ⟨-, hdir, hlong, front', ⟨rfl, rfl⟩, hwalk'⟩
          obtain rfl := Except.ok.inj (hwalk.symm.trans hwalk')
          exact ⟨by simp [hdir], Nat.not_lt.mpr hlong, rfl, rfl⟩

theorem keyOf_concat {front : List String} {name : String} (hsteps : steps path = front ++ [name])
    (hwalk : t.walk (start t.home path) front = .ok key) (hdot : name ≠ ".") (hup : name ≠ "..") :
    keyOf t.home path = key ++ [name] := by
  rw [keyOf, hsteps, List.foldl_append, ← walk_eq hwalk, List.foldl_cons, List.foldl_nil,
    stepTo_name hdot hup]

/-- The places that the first steps of a path lead to. -/
def OnWay (home : Key) (path : String) (key : Key) : Prop :=
  ∃ front, front <+: steps path ∧ key = front.foldl stepTo (start home path)

theorem onWay_keyOf (home : Key) (path : String) : OnWay home path (keyOf home path) :=
  ⟨steps path, List.prefix_rfl, rfl⟩

theorem OnWay.of_parent {up : String} (hp : parent? path = some up) (h : OnWay home up key) :
    OnWay home path key := by
  obtain ⟨hsteps, habsolute⟩ := steps_parent hp
  obtain ⟨front, hfront, rfl⟩ := h
  exact ⟨front, hfront.trans hsteps, by rw [start, start, habsolute]⟩

theorem makeDirectory_edits (h : t.makeDirectory path = .ok t') :
    Edits (OnWay t.home path) written t t' := by
  rw [makeDirectory, bind_eq_ok] at h
  obtain ⟨⟨key, name⟩, hnew, h⟩ := h
  obtain ⟨-, -, -, front, hsteps, hwalk⟩ := locateNew_eq_ok.mp hnew
  obtain ⟨hfree, h⟩ := guard_eq_ok.mp h
  simp only [Bool.or_eq_true, decide_eq_true_eq, not_or, Bool.not_eq_true,
    Option.isSome_eq_false_iff, Option.isNone_iff_eq_none] at hfree
  obtain rfl := Except.ok.inj h
  rw [← keyOf_concat hsteps hwalk hfree.1.1 hfree.1.2] at hfree ⊢
  exact .directory .refl hfree.2 (onWay_keyOf t.home path)

/-- A step that makes a directory or finds one. -/
theorem ensureDirectory_edits (t : Tree) (path : String) :
    Edits (OnWay t.home path) written t (t.ensureDirectory path).1 := by
  unfold ensureDirectory
  split
  · next made hm => exact makeDirectory_edits hm
  · exact .refl

theorem makeDirectoriesUpTo_edits (bound : Nat) (t : Tree) (path : String) :
    Edits (OnWay t.home path) written t (makeDirectoriesUpTo bound t path).1 := by
  induction bound generalizing t path with
  | zero => exact .refl
  | succ bound ih =>
    unfold makeDirectoriesUpTo
    split
    · exact .refl
    · split
      · next up _ hp =>
        have habove := (ih t up).mono (fun key => OnWay.of_parent hp) fun _ => id
        split
        · next t₁ hmade =>
          rw [hmade] at habove
          have hhome : t₁.home = t.home := habove.changes.home
          exact habove.trans (hhome ▸ ensureDirectory_edits t₁ path)
        · exact habove
      · exact ensureDirectory_edits t path

theorem prepare_edits (t : Tree) (path : String) :
    Edits (OnWay t.home path) written t (t.prepare path).1 := by
  unfold prepare
  split
  · next up hp =>
    split
    · exact .refl
    · exact (makeDirectoriesUpTo_edits _ t up).mono (fun key => OnWay.of_parent hp) fun _ => id
  · exact .refl

theorem locateTarget_eq_ok (h : t.locateTarget path = .ok key) :
    endsInSlash path = false ∧ t.node? key ≠ some .directory ∧
      ∃ front name, t.locateNew path = .ok (front, name) ∧ name ≠ "." ∧ name ≠ ".." ∧
        key = front ++ [name] := by
  simp only [locateTarget, bind, Except.bind, throw, throwThe, MonadExceptOf.throw, pure,
    Except.pure] at h
  split at h
  · cases h
  · next new hnew =>
    obtain ⟨front, name⟩ := new
    obtain ⟨hname, h⟩ := guard_eq_ok.mp h
    obtain ⟨hdir, h⟩ := guard_eq_ok.mp h
    simp only [Bool.or_eq_true, decide_eq_true_eq, not_or, Bool.not_eq_true] at hname
    obtain rfl := Except.ok.inj h
    refine ⟨hname.1.1, fun hnode => hdir ?_, front, name, hnew, hname.1.2, hname.2, rfl⟩
    rw [isDirectoryAt, hnode]
    rfl

/-- A text that was written is found at its path. -/
theorem writeText_edits {content : String} (h : t.writeText path content = .ok t') :
    Edits made (· = keyOf t.home path) t t' ∧ t'.readText path = .ok content := by
  rw [writeText, bind_eq_ok] at h
  obtain ⟨key, htarget, h⟩ := h
  obtain rfl := Except.ok.inj h
  obtain ⟨hslash, hdir, place, name, hnew, hdot, hup, rfl⟩ := locateTarget_eq_ok htarget
  obtain ⟨hcheck, hplace, hlong, front, hsteps, hwalk⟩ := locateNew_eq_ok.mp hnew
  have hkey := keyOf_concat hsteps hwalk hdot hup
  have hedits : Edits made (· = keyOf t.home path) t (t.set (place ++ [name]) (.text content)) :=
    .text .refl hdir hkey.symm content
  have hchanges := hedits.changes
  have hnode : (t.set (place ++ [name]) (.text content)).node? (place ++ [name]) =
      some (.text content) := by
    have habove : ¬ (place ++ [name]).isPrefixOf t.home = true :=
      fun h => hdir (node?_above (List.isPrefixOf_iff_prefix.mp h))
    rw [node?_set, if_neg habove, if_pos rfl]
  refine ⟨hedits, readText_eq_ok.mpr ⟨place ++ [name], locate_eq_ok.mpr ⟨hcheck, ?_, ?_⟩, hnode⟩⟩
  · have hlast : (t.set (place ++ [name]) (.text content)).walk place [name] =
        .ok (place ++ [name]) := by
      have hstep := stepTo_name hdot hup place
      refine walk_cons.mpr ⟨hchanges.isDirectoryAt hplace, ⟨hlong, ?_⟩, congrArg Except.ok hstep⟩
      rw [hstep, hnode]
      rfl
    rw [hsteps]
    exact walk_append.mpr ⟨place, hchanges.walk hwalk, hlast⟩
  · rw [hslash]
    exact fun h => by cases h

/-- Writing a text makes directories on its way and leaves all but its own place as it was. -/
theorem writeFile_edits {content : String} {w : Written}
    (h : t.writeFile false path content = (t', .ok w)) :
    Edits (OnWay t.home path) (· = keyOf t.home path) t t' ∧ t'.readText path = .ok content := by
  rw [writeFile, if_neg (by simp)] at h
  split at h
  · next hholds =>
    obtain ⟨rfl, -⟩ := Prod.mk.inj h
    refine ⟨.refl, ?_⟩
    unfold holds at hholds
    split at hholds
    · next hread => rw [hread, beq_iff_eq.mp hholds]
    · cases hholds
  · have hprepare : Edits (OnWay t.home path) (· = keyOf t.home path) t (t.prepare path).1 :=
      prepare_edits t path
    split at h
    · cases (Prod.mk.inj h).2
    · next t₁ hmade =>
      rw [hmade] at hprepare
      split at h
      · next t₂ hwrite =>
        obtain ⟨rfl, -⟩ := Prod.mk.inj h
        obtain ⟨hedits, hread⟩ := writeText_edits hwrite
        have hhome : t₁.home = t.home := hprepare.changes.home
        exact ⟨hprepare.trans (hhome ▸ hedits), hread⟩
      · cases (Prod.mk.inj h).2

/-- A text that is at its path already is not written again. -/
theorem writeFile_of_held {content : String} (h : t.readText path = .ok content) :
    t.writeFile false path content = (t, .ok (.unchanged path)) := by
  have hholds : t.holds path content = true := by
    rw [holds, h]
    exact beq_self_eq_true content
  rw [writeFile, if_neg (by simp), if_pos hholds]

theorem writeFile_result {content : String} {w : Written}
    (h : t.writeFile false path content = (t', .ok w)) :
    w = .unchanged path ∨ w = .written path content.utf8ByteSize := by
  rw [writeFile, if_neg (by simp)] at h
  split at h
  · exact .inl (Except.ok.inj (Prod.mk.inj h).2).symm
  · split at h
    · cases (Prod.mk.inj h).2
    · split at h
      · exact .inr (Except.ok.inj (Prod.mk.inj h).2).symm
      · cases (Prod.mk.inj h).2

end SchemaGen.Files.Tree
