import SchemaGen.Proofs.Cli.Arguments
import SchemaGen.Proofs.Cli.Run

namespace SchemaGen.Cli

open Files Files.Tree

variable {α β : Type} {w : World} {kind : Option RunError → Prop}

/-- What ends a run before its time. -/
def ending : Except RunError α → Option RunError
  | .ok _ => none
  | .error e => some e

/-- A run that leaves the files as they are if it ends in one of some ways. -/
def Keeps (kind : Option RunError → Prop) (x : Run α) : Prop :=
  ∀ w, kind (ending (after x w).1) → (after x w).2.tree = w.tree

/-- A run that leaves the files as they are, however it ends. -/
def Still (x : Run α) : Prop := Keeps (fun _ => True) x

/-- What runs after one that changes nothing decides what is kept. -/
theorem Still.bind {x : Run α} {f : α → Run β} (hx : Still x) (hf : ∀ a, Keeps kind (f a)) :
    Keeps kind (x >>= f) := by
  intro w hkind
  have htree := hx w trivial
  rw [after_bind] at hkind ⊢
  generalize after x w = p at *
  obtain ⟨result, w₁⟩ := p
  cases result with
  | error e => exact htree
  | ok a => exact (hf a w₁ hkind).trans htree

theorem keeps_pure (a : α) : Keeps kind (pure a : Run α) := fun _ _ => rfl

theorem keeps_throw (e : RunError) : Keeps kind (throw e : Run α) := fun _ _ => rfl

theorem still_get : Still (get : Run World) := fun _ _ => rfl

theorem Prints.still {text : String} {x : Run Unit} (hx : Prints text x) : Still x :=
  fun w _ => by rw [hx w]

theorem still_ofExcept {ε : Type} (wrap : ε → RunError) (x : Except ε α) :
    Still (ofExcept wrap x) := by
  cases x with
  | error e => exact keeps_throw (wrap e)
  | ok a => exact keeps_pure a

theorem still_loadConfig (path : Option String) : Still (loadConfig path) :=
  still_get.bind fun _ => still_ofExcept _ _

/-- A dry run of a write changes nothing. -/
theorem still_write (g : Generated) : Still (write true g) := by
  intro w _
  rw [write, after_get_bind]
  rfl

/-- What is true of each step of a loop is true of the loop, if it is true of two runs in a row. -/
theorem forM_of_closed {p : Run Unit → Prop} {items : List α} {f : α → Run Unit}
    (hpure : p (pure ())) (hbind : ∀ x y, p x → p y → p (x >>= fun _ => y))
    (h : ∀ a ∈ items, p (f a)) : p (items.forM f) := by
  induction items with
  | nil => exact hpure
  | cons a items ih =>
    rw [List.forall_mem_cons] at h
    exact hbind _ _ h.1 (ih h.2)

theorem still_forM {items : List α} {f : α → Run Unit} (h : ∀ a ∈ items, Still (f a)) :
    Still (items.forM f) :=
  forM_of_closed (keeps_pure ()) (fun _ _ hx hy => hx.bind fun _ => hy) h

/-- The ways to end that are neither success nor a failure to write. -/
def FailsEarly (o : Option RunError) : Prop := ∃ e, o = some e ∧ ∀ fault, e ≠ .write fault

/-- A run that fails in writing only. -/
def WriteOnly (x : Run α) : Prop := ∀ w, ¬ FailsEarly (ending (after x w).1)

theorem WriteOnly.keeps {x : Run α} (h : WriteOnly x) : Keeps FailsEarly x :=
  fun w hfails => absurd hfails (h w)

theorem not_failsEarly_none : ¬ FailsEarly none := by
  rintro ⟨e, he, -⟩
  cases he

theorem not_failsEarly_write (e : WriteError) : ¬ FailsEarly (some (.write e)) := by
  rintro ⟨e', he, hne⟩
  exact hne e (Option.some.inj he).symm

theorem WriteOnly.bind {x : Run α} {f : α → Run β} (hx : WriteOnly x) (hf : ∀ a, WriteOnly (f a)) :
    WriteOnly (x >>= f) := by
  intro w
  have hfirst := hx w
  rw [after_bind]
  generalize after x w = p at *
  obtain ⟨result, w₁⟩ := p
  cases result with
  | error e => exact hfirst
  | ok a => exact hf a w₁

theorem Prints.writeOnly {text : String} {x : Run Unit} (hx : Prints text x) : WriteOnly x := by
  intro w
  rw [hx w]
  exact not_failsEarly_none

theorem writeOnly_write (dryRun : Bool) (g : Generated) : WriteOnly (write dryRun g) := by
  intro w
  rw [write, after_get_bind]
  rcases w.tree.writeFile dryRun g.output g.content with ⟨tree, result⟩
  cases result with
  | error e => exact not_failsEarly_write e
  | ok written => exact not_failsEarly_none

/-- Writing modules fails in nothing else. -/
theorem writeOnly_writes (dryRun : Bool) (modules : List Generated) :
    WriteOnly (modules.forM fun g => do tell (← write dryRun g)) :=
  forM_of_closed (fun _ => not_failsEarly_none) (fun _ _ hx hy => hx.bind fun _ => hy) fun g _ =>
    (writeOnly_write dryRun g).bind fun written => (prints_tell written).writeOnly

/-- A generation changes nothing before it writes. -/
theorem generate_keeps {input : String} {c : Config} {filter : Option String} {dryRun : Bool}
    (h : ∀ modules : List Generated,
      Keeps kind (modules.forM fun g => do tell (← write dryRun g))) :
    Keeps kind (generate input c filter dryRun) := by
  have hline (line : String) : Still (printLine line) := (prints_printLine line).still
  unfold generate
  refine (hline _).bind fun _ => still_get.bind fun w => ?_
  refine (still_ofExcept _ _).bind fun sources => (hline _).bind fun _ => (hline _).bind fun _ => ?_
  refine (still_ofExcept _ _).bind fun report => ?_
  refine (still_forM fun _ _ => hline _).bind fun _ => ?_
  refine (still_forM fun _ _ => hline _).bind fun _ => ?_
  split
  · exact keeps_throw _
  · exact (hline _).bind fun _ => h report.modules

theorem still_generate (input : String) (c : Config) (filter : Option String) :
    Still (generate input c filter true) :=
  generate_keeps fun _ => still_forM fun g _ =>
    (still_write g).bind fun written => (prints_tell written).still

theorem generate_keeps_of_failsEarly (input : String) (c : Config) (filter : Option String)
    (dryRun : Bool) : Keeps FailsEarly (generate input c filter dryRun) :=
  generate_keeps fun modules => (writeOnly_writes dryRun modules).keeps

/-- What ends the run of a command line that makes sense. -/
def failure? (args : List String) (t : Tree) : Option RunError :=
  (command? args).bind fun c => ending (after (run c) { tree := t }).1

/-- What ends a run decides its exit code and its error output. -/
theorem execute_of_command {args : List String} {c : Command} (hc : command? args = some c)
    (t : Tree) : (execute args t).tree = (after (run c) { tree := t }).2.tree ∧
      (execute args t).exitCode = ((failure? args t).map RunError.exitCode).getD 0 ∧
      (execute args t).errors = ((failure? args t).map RunError.report).getD "" := by
  rw [execute_eq hc, failure?, hc, Option.bind_some]
  generalize after (run c) { tree := t } = p
  obtain ⟨result, w⟩ := p
  cases result <;> exact ⟨rfl, rfl, rfl⟩

/-- A generation leaves the files as they are if it is a dry run, or if it fails and not in writing.
-/
theorem generate_leaves_tree {rest : List String} {t : Tree}
    (h : "--dry-run" ∈ rest ∨ ((execute ("generate" :: rest) t).exitCode ≠ 0 ∧
      ∀ e, failure? ("generate" :: rest) t ≠ some (.write e))) :
    (execute ("generate" :: rest) t).tree = t := by
  cases hc : command? ("generate" :: rest) with
  | none => rw [execute, hc]
  | some c =>
    obtain ⟨htree, hexit, -⟩ := execute_of_command hc t
    rw [htree]
    rw [hexit] at h
    rcases command?_generate hc with rfl | ⟨given, hread, rfl⟩
    · exact (prints_printLine usage).still _ trivial
    · by_cases hdry : flag given "dry-run" = true
      · have hstill : Still (run (generateOf given)) := by
          refine (still_loadConfig _).bind fun c => ?_
          rw [hdry]
          exact still_generate _ _ _
        exact hstill _ trivial
      · have hline : "--dry-run" ∉ rest := fun hm =>
          hdry (flag_of_readOptionsUpTo hread (.inr hm))
        obtain ⟨hfails, hwrite⟩ := h.resolve_left hline
        have hkeeps : Keeps FailsEarly (run (generateOf given)) :=
          (still_loadConfig _).bind fun c => generate_keeps_of_failsEarly _ _ _ _
        refine hkeeps _ ?_
        rw [failure?, hc, Option.bind_some] at hfails hwrite
        cases he : ending (after (run (generateOf given)) { tree := t }).1 with
        | none => exact absurd (by rw [he]; rfl) hfails
        | some e =>
          refine ⟨e, rfl, fun fault hfault => hwrite fault ?_⟩
          rw [he, hfault]

/-- A blank source. -/
def blank : Tree := ⟨[(["w", "a.thrift"], .text "\n")], ["w"]⟩

theorem generate_leaves_blank :
    (execute ["generate"] blank).tree = blank ∧
    (execute ["generate", "--dry-run", "--output", "out"] blank).tree = blank := by
  have hfailure : failure? ["generate"] blank = some (.generate (.blank "./a.thrift")) := by
    decide +kernel
  constructor
  · refine generate_leaves_tree (.inr ⟨by decide +kernel, fun e he => ?_⟩)
    cases hfailure.symm.trans he
  · exact generate_leaves_tree (.inl (by decide))

end SchemaGen.Cli
