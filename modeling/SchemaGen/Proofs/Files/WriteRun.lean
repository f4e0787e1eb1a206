import SchemaGen.Proofs.Files.Write

namespace SchemaGen.Files

/-- One call of the writer. -/
structure WriteCall where
  path : String
  content : String
  dryRun : Bool := false
  deriving DecidableEq, Inhabited

abbrev WriteAnswer := Except WriteError Written

namespace Tree

variable {t t' : Tree} {made written : Key → Prop} {home key : Key} {path content : String}
  {w : WriteCall} {answer : WriteAnswer}

def call (t : Tree) (w : WriteCall) : Tree × WriteAnswer := t.writeFile w.dryRun w.path w.content

/-- Makes calls one after another, each in the tree that the ones before it leave. They are told of
with their answers. -/
def calls (t : Tree) : List WriteCall → Tree × List (WriteCall × WriteAnswer)
  | [] => (t, [])
  | w :: rest =>
    let (next, answer) := t.call w
    let (last, told) := calls next rest
    (last, (w, answer) :: told)

/-- The text that a call from a working directory puts at a place, unless it fails or is a dry run.
-/
def putText? (home key : Key) (w : WriteCall) (answer : WriteAnswer) : Option String :=
  if w.dryRun = false ∧ answer.isOk = true ∧ keyOf home w.path = key then some w.content else none

/-- The text that the last call for a place puts there. -/
def lastText? (home key : Key) (told : List (WriteCall × WriteAnswer)) : Option String :=
  (told.filterMap fun c => putText? home key c.1 c.2).getLast?

/-- What a call answers and what it leaves behind. -/
structure Settles (t : Tree) (w : WriteCall) (t' : Tree) (answer : WriteAnswer) : Prop where
  dryRun : w.dryRun = true → t' = t ∧ answer = .ok (.dryRun w.path w.content)
  unchanged_iff : w.dryRun = false →
    (answer = .ok (.unchanged w.path) ↔ t.readText w.path = .ok w.content)
  unchanged : answer = .ok (.unchanged w.path) → t' = t
  /-- The text is found at its path, and is not written again. -/
  success : w.dryRun = false → answer.isOk = true →
    (answer = .ok (.unchanged w.path) ∨ answer = .ok (.written w.path w.content.utf8ByteSize)) ∧
    t'.locate w.path = .ok (keyOf t.home w.path) ∧ t'.readText w.path = .ok w.content ∧
    t'.call w = (t', .ok (.unchanged w.path))
  failure : answer.isOk = false → ∀ key, t'.fileAt? key = t.fileAt? key

theorem Changes.fileAt? (h : Changes made written t t') (hw : ¬ written key) :
    t'.fileAt? key = t.fileAt? key := by
  rw [Tree.fileAt?, Tree.fileAt?]
  rcases h.places key with hsame | ⟨-, hnone, hdir⟩ | ⟨hwritten, -⟩
  · rw [hsame]
  · rw [hnone, hdir]
    rfl
  · exact absurd hwritten hw

theorem fileAt?_of_readText (h : t.readText path = .ok content) :
    t.locate path = .ok (keyOf t.home path) ∧
      t.fileAt? (keyOf t.home path) = some (.text content) := by
  obtain ⟨key, hlocate, hnode⟩ := readText_eq_ok.mp h
  rw [keyOf_of_locate hlocate]
  refine ⟨hlocate, ?_⟩
  rw [fileAt?, hnode]
  rfl

/-- A call that fails has made directories at most. -/
theorem writeFile_failed {e : WriteError} (h : t.writeFile false path content = (t', .error e)) :
    Edits (OnWay t.home path) (fun _ => False) t t' := by
  have hprepare : Edits (OnWay t.home path) (fun _ => False) t (t.prepare path).1 :=
    prepare_edits t path
  rw [writeFile, if_neg (by simp)] at h
  split at h
  · cases (Prod.mk.inj h).2
  · split at h
    · next hmade =>
      obtain ⟨rfl, -⟩ := Prod.mk.inj h
      rwa [hmade] at hprepare
    · next hmade =>
      split at h
      · cases (Prod.mk.inj h).2
      · obtain ⟨rfl, -⟩ := Prod.mk.inj h
        rwa [hmade] at hprepare

theorem call_dryRun (h : w.dryRun = true) : t.call w = (t, .ok (.dryRun w.path w.content)) := by
  rw [call, writeFile, if_pos h]

theorem call_of_held (hdry : w.dryRun = false) (h : t.readText w.path = .ok w.content) :
    t.call w = (t, .ok (.unchanged w.path)) := by
  rw [call, hdry]
  exact writeFile_of_held h

/-- A text is answered to be there already exactly if it is. -/
theorem call_unchanged_iff (hdry : w.dryRun = false) :
    (t.call w).2 = .ok (.unchanged w.path) ↔ t.readText w.path = .ok w.content := by
  refine ⟨fun h => ?_, fun h => by rw [call_of_held hdry h]⟩
  rw [call, hdry, writeFile, if_neg (by simp)] at h
  split at h
  · next hholds =>
    unfold holds at hholds
    split at hholds
    · next hread => rw [hread, beq_iff_eq.mp hholds]
    · cases hholds
  · split at h
    · cases h
    · split at h
      · cases h
      · cases h

/-- A call makes directories on its way and writes to its own place, the latter only if it ends
well. -/
theorem call_edits (t : Tree) (w : WriteCall) :
    Edits (OnWay t.home w.path) (fun key => key = keyOf t.home w.path ∧ (t.call w).2.isOk = true) t
      (t.call w).1 := by
  cases hdry : w.dryRun with
  | true =>
    rw [call_dryRun hdry]
    exact .refl
  | false =>
    cases hcall : t.call w with
    | mk t' answer =>
      rw [call, hdry] at hcall
      cases answer with
      | error e => exact (writeFile_failed hcall).mono (fun _ => id) fun _ => False.elim
      | ok result => exact (writeFile_edits hcall).1.mono (fun _ => id) fun _ hk => ⟨hk, rfl⟩

theorem call_settles (t : Tree) (w : WriteCall) : t.Settles w (t.call w).1 (t.call w).2 := by
  cases hdry : w.dryRun with
  | true =>
    rw [call_dryRun hdry]
    refine ⟨fun _ => ⟨rfl, rfl⟩, fun h => ?_, fun h => ?_, fun h => ?_, fun h => ?_⟩
    · cases hdry.symm.trans h
    · cases h
    · cases hdry.symm.trans h
    · cases h
  | false =>
    refine ⟨fun h => ?_, fun _ => call_unchanged_iff hdry, fun h => ?_, fun _ hok => ?_,
      fun hok => ?_⟩
    · cases hdry.symm.trans h
    · rw [call_of_held hdry ((call_unchanged_iff hdry).mp h)]
    · cases hcall : t.call w with
      | mk t' answer =>
        rw [hcall] at hok
        cases answer with
        | error e => cases hok
        | ok result =>
          rw [call, hdry] at hcall
          obtain ⟨hedits, hread⟩ := writeFile_edits hcall
          have hplace := (fileAt?_of_readText hread).1
          rw [hedits.changes.home] at hplace
          exact ⟨(writeFile_result hcall).imp (congrArg _) (congrArg _), hplace, hread,
            call_of_held hdry hread⟩
    · intro key
      refine (call_edits t w).changes.fileAt? fun hw => ?_
      rw [hok] at hw
      exact Bool.false_ne_true hw.2

/-- After a call every place holds what the call puts there, or what it held before. -/
theorem call_fileAt? (t : Tree) (w : WriteCall) (key : Key) :
    (t.call w).1.fileAt? key =
      ((putText? t.home key w (t.call w).2).map Node.text).or (t.fileAt? key) := by
  have hsettles := t.call_settles w
  have hchanges := (call_edits t w).changes
  unfold putText?
  cases hdry : w.dryRun with
  | true =>
    rw [(hsettles.dryRun hdry).1, if_neg (by simp)]
    rfl
  | false =>
    cases hok : (t.call w).2.isOk with
    | false =>
      rw [hsettles.failure hok, if_neg (by simp)]
      rfl
    | true =>
      by_cases hkey : keyOf t.home w.path = key
      · have hheld := (fileAt?_of_readText (hsettles.success hdry hok).2.2.1).2
        rw [hchanges.home, hkey] at hheld
        rw [if_pos ⟨rfl, rfl, hkey⟩]
        exact hheld
      · rw [if_neg fun h => hkey h.2.2]
        exact hchanges.fileAt? fun h => hkey h.1.symm

theorem calls_cons (t : Tree) (w : WriteCall) (rest : List WriteCall) :
    t.calls (w :: rest) =
      (((t.call w).1.calls rest).1, (w, (t.call w).2) :: ((t.call w).1.calls rest).2) :=
  rfl

theorem lastText?_cons (home key : Key) (w : WriteCall) (answer : WriteAnswer)
    (told : List (WriteCall × WriteAnswer)) :
    lastText? home key ((w, answer) :: told) =
      (lastText? home key told).or (putText? home key w answer) := by
  rw [lastText?, lastText?, List.filterMap_cons]
  cases putText? home key w answer with
  | none => rw [Option.or_none]
  | some text =>
    rw [List.getLast?_cons]
    cases (told.filterMap fun c => putText? home key c.1 c.2).getLast? <;> rfl

/-- A call of the writer changes no file but its own, and that only if it ends well; what it has
written is found, and is not written again. After any calls a file holds what the last one for it
that ended well and was no dry run has put there, and without one what it held at first. -/
theorem calls_leave (t : Tree) (ws : List WriteCall) :
    (∀ (s : Tree) w, s.Settles w (s.call w).1 (s.call w).2) ∧
    ∀ key, (t.calls ws).1.fileAt? key =
      ((lastText? t.home key (t.calls ws).2).map Node.text).or (t.fileAt? key) := by
  refine ⟨fun s w => s.call_settles w, fun key => ?_⟩
  -- what the first call puts is what the later ones find
  induction ws generalizing t with
  | nil => rfl
  | cons w rest ih =>
    have hhome : (t.call w).1.home = t.home := (call_edits t w).changes.home
    rw [calls_cons, ih, call_fileAt?, lastText?_cons, ← Option.or_assoc, hhome]
    cases lastText? t.home key ((t.call w).1.calls rest).2 <;> rfl

/-- A file in the way of a directory, and one that is no text. -/
def blocked : Tree :=
  { entries := [(["w", "a.ts"], .text "old"), (["w", "b"], .text "file"),
      (["w", "c.ts"], .binary [0xFF])]
    home := ["w"] }

/-- Two calls for one file by different ways, one that fails, a dry run, one for a place away from
the working directory, and one for the file that is no text. -/
def blockedCalls : List WriteCall :=
  [{ path := "a.ts", content := "new" }, { path := "b/a.ts", content := "below" },
    { path := "../new/../w/a.ts", content := "newer" },
    { path := "a.ts", content := "told", dryRun := true },
    { path := "/out/a.ts", content := "far" }, { path := "/w/c.ts", content := "text" }]

theorem calls_leave_blocked :
    (blocked.calls blockedCalls).1.fileAt? ["w", "a.ts"] = some (.text "newer") ∧
    (blocked.calls blockedCalls).1.fileAt? ["w", "b"] = some (.text "file") ∧
    (blocked.calls blockedCalls).1.fileAt? ["w", "b", "a.ts"] = none ∧
    (blocked.calls blockedCalls).1.fileAt? ["out", "a.ts"] = some (.text "far") ∧
    (blocked.calls blockedCalls).1.fileAt? ["w", "c.ts"] = some (.text "text") := by
  obtain ⟨-, h⟩ := calls_leave blocked blockedCalls
  rw [h, h, h, h, h]
  decide +kernel

end Tree
end SchemaGen.Files
