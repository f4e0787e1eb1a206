import SchemaGen.Cli.Run
import SchemaGen.Proofs.Project.Generate

namespace SchemaGen.Cli

open Files Files.Tree

variable {α β : Type} {w w' : World}

/-- What a run gives from a state on. -/
def after (x : Run α) (w : World) : Except RunError α × World := x.run.run w

theorem after_pure (a : α) (w : World) : after (pure a : Run α) w = (.ok a, w) := rfl

theorem after_bind (x : Run α) (f : α → Run β) (w : World) :
    after (x >>= f) w = match after x w with
      | (.ok a, w') => after (f a) w'
      | (.error e, w') => (.error e, w') := by
  unfold after
  rw [ExceptT.run_bind, StateT.run_bind]
  generalize x.run.run w = p
  obtain ⟨result, w'⟩ := p
  cases result <;> rfl

theorem after_bind_ok {x : Run α} {f : α → Run β} {b : β} :
    after (x >>= f) w = (.ok b, w') ↔
      ∃ a w₁, after x w = (.ok a, w₁) ∧ after (f a) w₁ = (.ok b, w') := by
  rw [after_bind]
  rcases after x w with ⟨result, w₁⟩
  cases result with
  | error e => simp
  | ok a => simp

theorem after_bind_of_ok {x : Run α} {f : α → Run β} {a : α} {w₁ : World}
    (h : after x w = (.ok a, w₁)) : after (x >>= f) w = after (f a) w₁ := by
  rw [after_bind, h]

theorem after_get_bind (f : World → Run β) (w : World) : after (get >>= f) w = after (f w) w := by
  rw [after_bind]
  rfl

theorem after_throw (e : RunError) (w : World) : after (throw e : Run α) w = (.error e, w) := rfl

theorem after_ofExcept {ε : Type} {wrap : ε → RunError} {x : Except ε α} {a : α} :
    after (ofExcept wrap x) w = (.ok a, w') ↔ x = .ok a ∧ w' = w := by
  cases x with
  | error e => simp [ofExcept, after_throw]
  | ok b => simp [ofExcept, after_pure, eq_comm]

theorem after_ofExcept_bind {ε : Type} {wrap : ε → RunError} {x : Except ε α} {f : α → Run β}
    {b : β} : after (ofExcept wrap x >>= f) w = (.ok b, w') ↔
      ∃ a, x = .ok a ∧ after (f a) w = (.ok b, w') := by
  simp only [after_bind_ok, after_ofExcept]
  constructor
  · rintro ⟨a, w₁, ⟨hx, rfl⟩, hf⟩
    exact ⟨a, hx, hf⟩
  · rintro ⟨a, hx, hf⟩
    exact ⟨a, w, ⟨hx, rfl⟩, hf⟩

/-- A run that ends well, prints a text and changes nothing else. -/
def Prints (text : String) (x : Run Unit) : Prop :=
  ∀ w, after x w = (.ok (), { w with output := w.output ++ text })

theorem prints_printLine (line : String) : Prints (line ++ "\n") (printLine line) := by
  intro w
  rw [← String.append_assoc]
  rfl

theorem Prints.bind {text back : String} {x y : Run Unit} (hx : Prints text x)
    (hy : Prints back y) : Prints (text ++ back) (x >>= fun _ => y) := by
  intro w
  rw [after_bind_of_ok (hx w), hy, String.append_assoc]

theorem prints_forM {items : List α} {text : α → String} {f : α → Run Unit}
    (h : ∀ a ∈ items, Prints (text a) (f a)) :
    Prints (String.join (items.map text)) (items.forM f) := by
  induction items with
  | nil =>
    intro w
    rw [List.map_nil, String.join_nil, String.append_empty]
    rfl
  | cons a items ih =>
    rw [List.forall_mem_cons] at h
    rw [List.map_cons, String.join_cons]
    exact h.1.bind (ih h.2)

/-- What comes after printing starts from the same files. -/
theorem Prints.after_bind {text : String} {x : Run Unit} {f : Unit → Run β} {b : β}
    (hx : Prints text x) (h : after (x >>= f) w = (.ok b, w')) :
    ∃ w₁ : World, w₁.tree = w.tree ∧ after (f ()) w₁ = (.ok b, w') :=
  ⟨{ w with output := w.output ++ text }, rfl, (after_bind_of_ok (hx w)).symm.trans h⟩

/-- From given files a run prints a text and goes on as another. What it printed before does not
count. -/
def Leads (text : String) (t : Tree) (x y : Run β) : Prop :=
  ∀ w, w.tree = t → after x w = after y { w with output := w.output ++ text }

theorem Prints.leads {text : String} {x : Run Unit} (hx : Prints text x) (t : Tree)
    (f : Unit → Run β) : Leads text t (x >>= f) (f ()) :=
  fun w _ => after_bind_of_ok (hx w)

theorem Prints.leads_bind {text back : String} {t : Tree} {x : Run Unit} {f : Unit → Run β}
    {y : Run β} (hx : Prints text x) (h : Leads back t (f ()) y) :
    Leads (text ++ back) t (x >>= f) y := by
  intro w ht
  rw [hx.leads t f w ht, h { w with output := w.output ++ text } ht, String.append_assoc]

theorem leads_get {text : String} {t : Tree} {f : World → Run β} {y : Run β}
    (h : ∀ w, w.tree = t → Leads text t (f w) y) : Leads text t (get >>= f) y := by
  intro w ht
  rw [after_get_bind, h w ht w ht]

theorem leads_ofExcept {ε : Type} {wrap : ε → RunError} {x : Except ε α} {a : α} {text : String}
    {t : Tree} {f : α → Run β} {y : Run β} (hx : x = .ok a) (h : Leads text t (f a) y) :
    Leads text t (ofExcept wrap x >>= f) y := by
  intro w ht
  rw [after_bind_of_ok (after_ofExcept.mpr ⟨hx, rfl⟩), h w ht]

/-- What is told of a file that was written, or was not. -/
def reportText : Written → String
  | .written path bytes => "✓ Written " ++ toString bytes ++ " bytes to " ++ path ++ "\n"
  | .unchanged path => "✓ Unchanged " ++ path ++ "\n"
  | .dryRun path content =>
    "[dry-run] Would write to " ++ path ++ ":" ++ "\n" ++
      (rule ++ "\n" ++ (content ++ "\n" ++ (rule ++ "\n")))

theorem prints_tell (written : Written) : Prints (reportText written) (tell written) := by
  cases written with
  | written path bytes => exact prints_printLine _
  | unchanged path => exact prints_printLine _
  | dryRun path content =>
    exact (prints_printLine _).bind ((prints_printLine _).bind
      ((prints_printLine _).bind (prints_printLine _)))

theorem after_loadConfig {path : Option String} {c : Config} :
    after (loadConfig path) w = (.ok c, w') ↔ Config.load w.tree path = .ok c ∧ w' = w := by
  rw [loadConfig, after_get_bind, after_ofExcept]

theorem after_write {g : Generated} {written : Written}
    (h : after (write false g) w = (.ok written, w')) :
    w.tree.writeFile false g.output g.content = (w'.tree, .ok written) := by
  rw [write, after_get_bind] at h
  rcases hwrite : w.tree.writeFile false g.output g.content with ⟨tree, result⟩
  simp only [hwrite] at h
  obtain ⟨⟨⟩, w₁, hset, hresult⟩ := after_bind_ok.mp h
  obtain ⟨rfl, rfl⟩ := after_ofExcept.mp hresult
  obtain ⟨-, rfl⟩ := Prod.mk.inj hset
  rfl

/-- A run that writes all modules. -/
theorem after_writes {modules : List Generated}
    (h : after (modules.forM fun g => do tell (← write false g)) w = (.ok (), w')) :
    w.tree.writeAll? modules = some w'.tree := by
  induction modules generalizing w with
  | nil =>
    obtain ⟨-, rfl⟩ := Prod.mk.inj ((after_pure () w).symm.trans h)
    rfl
  | cons g rest ih =>
    obtain ⟨⟨⟩, w₁, hfirst, hrest⟩ := after_bind_ok.mp h
    obtain ⟨written, w₂, hwrite, htell⟩ := after_bind_ok.mp hfirst
    have hg := after_write hwrite
    have htree : w₂.tree = w₁.tree := by
      rw [prints_tell written w₂] at htell
      exact congrArg (·.2.tree) htell
    rw [writeAll?, hg, htree]
    exact ih hrest

/-- What may be told of a module that is at its path. -/
def Settled (g : Generated) (result : Written) : Prop :=
  result = .written g.output g.content.utf8ByteSize ∨ result = .unchanged g.output

theorem writes_cons {g : Generated} {rest : List Generated} {result : Written} {t t' : Tree}
    (h : t.writeFile false g.output g.content = (t', .ok result)) (ht : w.tree = t) :
    after ((g :: rest).forM fun g => do tell (← write false g)) w =
      after (rest.forM fun g => do tell (← write false g)) ⟨t', w.output ++ reportText result⟩ := by
  have hwrite : after (write false g) w = (.ok result, { w with tree := t' }) := by
    rw [write, after_get_bind, ht, h]
    rfl
  have hg : after (do tell (← write false g)) w =
      (.ok (), { tree := t', output := w.output ++ reportText result }) := by
    rw [after_bind_of_ok hwrite, prints_tell]
  exact after_bind_of_ok hg

/-- A run writes all modules that can be written, and tells of each. -/
theorem writes_of_writeAll? {modules : List Generated} {t t' : Tree}
    (h : t.writeAll? modules = some t') :
    ∃ results, List.Forall₂ Settled modules results ∧ ∀ w : World, w.tree = t →
      after (modules.forM fun g => do tell (← write false g)) w =
        (.ok (), ⟨t', w.output ++ String.join (results.map reportText)⟩) := by
  induction modules generalizing t with
  | nil =>
    obtain rfl := Option.some.inj h
    refine ⟨[], .nil, fun w ht => ?_⟩
    rw [List.map_nil, String.join_nil, String.append_empty, ← ht]
    rfl
  | cons g rest ih =>
    obtain ⟨t₁, result, hfirst, hrest⟩ := writeAll?_cons h
    obtain ⟨results, hresults, hafter⟩ := ih hrest
    refine ⟨result :: results, .cons (writeFile_result hfirst).symm hresults, fun w ht => ?_⟩
    rw [writes_cons hfirst ht, hafter _ rfl, List.map_cons, String.join_cons, String.append_assoc]

/-- Where all modules are at their paths a run only tells so. -/
theorem writes_of_held {modules : List Generated} {t : Tree}
    (h : ∀ g ∈ modules, t.readText g.output = .ok g.content) (ht : w.tree = t) :
    after (modules.forM fun g => do tell (← write false g)) w =
      (.ok (), ⟨t, w.output ++
        String.join (modules.map fun g => reportText (.unchanged g.output))⟩) := by
  induction modules generalizing w with
  | nil =>
    rw [List.map_nil, String.join_nil, String.append_empty, ← ht]
    rfl
  | cons g rest ih =>
    rw [List.forall_mem_cons] at h
    rw [writes_cons (writeFile_of_held h.1) ht, ih h.2 rfl, List.map_cons, String.join_cons,
      String.append_assoc]

/-- A generation that ends well has scanned its sources, converted them and written the modules. -/
theorem after_generate {input : String} {c : Config} {filter : Option String}
    (h : after (generate input c filter false) w = (.ok (), w')) :
    ∃ sources report, w.tree.scanWith input true filter = .ok sources ∧
      c.generate w.tree (w.tree.isFile input) sources = .ok report ∧ report.modules ≠ [] ∧
      w.tree.writeAll? report.modules = some w'.tree := by
  unfold generate at h
  obtain ⟨w₁, ht₁, h⟩ := (prints_printLine _).after_bind h
  rw [after_get_bind] at h
  obtain ⟨sources, hsources, h⟩ := after_ofExcept_bind.mp h
  obtain ⟨w₂, ht₂, h⟩ := (prints_printLine _).after_bind h
  obtain ⟨w₃, ht₃, h⟩ := (prints_printLine _).after_bind h
  obtain ⟨report, hreport, h⟩ := after_ofExcept_bind.mp h
  obtain ⟨w₄, ht₄, h⟩ := (prints_forM fun _ _ => prints_printLine _).after_bind h
  obtain ⟨w₅, ht₅, h⟩ := (prints_forM fun _ _ => prints_printLine _).after_bind h
  have htree : w₅.tree = w.tree := by rw [ht₅, ht₄, ht₃, ht₂, ht₁]
  rw [ht₁] at hsources hreport
  split at h
  · rw [after_bind, after_throw] at h
    cases h
  · next hne =>
    obtain ⟨w₆, ht₆, h⟩ := (prints_printLine _).after_bind h
    refine ⟨sources, report, hsources, hreport, fun hnil => hne (by rw [hnil]; rfl), ?_⟩
    rw [← htree, ← ht₆]
    exact after_writes h

/-- What a generation prints before it writes the modules. -/
def headText (sources : List Source) (report : Report) : String :=
  "Scanning for Thrift files..." ++ "\n" ++
    ("  Found " ++ toString sources.length ++ " Thrift file(s)" ++ "\n" ++
      ("Generating Zod schemas..." ++ "\n" ++
        (String.join (report.warnings.map fun w =>
            "  Warning: " ++ w.1 ++ ": " ++ w.2.message ++ "\n") ++
          (String.join (report.skipped.map fun path =>
              "  Note: " ++ path ++ " declares no structs, skipped" ++ "\n") ++
            ("  Generated " ++ toString report.schemaTotal ++ " schema(s)" ++ "\n")))))

/-- A generation whose sources are found and converted goes on to write the modules. -/
theorem generate_leads {t : Tree} {input : String} {c : Config} {filter : Option String}
    {sources : List Source} {report : Report} (hscan : t.scanWith input true filter = .ok sources)
    (hreport : c.generate t (t.isFile input) sources = .ok report) (hne : report.modules ≠ [])
    (dryRun : Bool) :
    Leads (headText sources report) t (generate input c filter dryRun)
      (report.modules.forM fun g => do tell (← write dryRun g)) := by
  have hsome : ¬ report.modules.isEmpty = true := mt List.isEmpty_iff.mp hne
  unfold generate
  refine (prints_printLine _).leads_bind (leads_get fun w ht => ?_)
  rw [ht]
  refine leads_ofExcept hscan ?_
  refine (prints_printLine _).leads_bind ((prints_printLine _).leads_bind ?_)
  refine leads_ofExcept hreport ?_
  refine (prints_forM fun _ _ => prints_printLine _).leads_bind ?_
  refine (prints_forM fun _ _ => prints_printLine _).leads_bind ?_
  rw [if_neg hsome]
  exact (prints_printLine _).leads t _

/-- A validation ends well where the module is what its source gives. -/
theorem after_validate {path input content : String} {config : Option String} {c : Config}
    (hread : w.tree.readText path = .ok content) (hconfig : Config.load w.tree config = .ok c)
    (hcontent : c.content w.tree input = .ok content) :
    (after (validate path input config) w).1 = .ok () := by
  have hhas : w.tree.has path = true := by
    obtain ⟨key, hlocate, -⟩ := readText_eq_ok.mp hread
    rw [has, hlocate]
    rfl
  obtain ⟨w₁, htree, hprint⟩ : ∃ w₁ : World, w₁.tree = w.tree ∧
      after (printLine "Validating schemas...") w = (.ok (), w₁) :=
    ⟨{ w with output := w.output ++ _ }, rfl, prints_printLine "Validating schemas..." w⟩
  rw [← htree] at hread hconfig hcontent hhas
  have hexisting : after (ofExcept .io (w₁.tree.readText path)) w₁ = (.ok content, w₁) :=
    after_ofExcept.mpr ⟨hread, rfl⟩
  have hexpected : after (ofExcept .generate (c.content w₁.tree input)) w₁ = (.ok content, w₁) :=
    after_ofExcept.mpr ⟨hcontent, rfl⟩
  rw [validate, after_bind_of_ok hprint, after_get_bind, if_neg (by simp [hhas]),
    after_bind_of_ok hexisting, after_bind_of_ok (after_loadConfig.mpr ⟨hconfig, rfl⟩),
    after_bind_of_ok hexpected, if_pos rfl]
  rfl

theorem execute_eq {args : List String} {c : Command} (hc : command? args = some c) (t : Tree) :
    execute args t = match after (run c) { tree := t } with
      | (.ok (), w) => ⟨0, w.output, "", w.tree⟩
      | (.error e, w) => ⟨e.exitCode, w.output, e.report, w.tree⟩ := by
  unfold execute
  rw [hc]
  rfl

/-- A command line that ends well is a command whose run does. -/
theorem after_run {args : List String} {t : Tree} {c : Command} (hc : command? args = some c)
    (h : (execute args t).exitCode = 0) :
    ∃ w, after (run c) { tree := t } = (.ok (), w) ∧ (execute args t).tree = w.tree := by
  rw [execute_eq hc] at h ⊢
  generalize after (run c) { tree := t } = p at *
  obtain ⟨result, w⟩ := p
  cases result with
  | ok u => exact ⟨w, rfl, rfl⟩
  | error e =>
    have hcode : e.exitCode ≠ 0 := by cases e <;> simp [RunError.exitCode]
    exact absurd h hcode

theorem exitCode_of_after {args : List String} {t : Tree} {c : Command}
    (hc : command? args = some c) (h : (after (run c) { tree := t }).1 = .ok ()) :
    (execute args t).exitCode = 0 := by
  rw [execute_eq hc]
  generalize after (run c) { tree := t } = p at *
  obtain ⟨result, w⟩ := p
  obtain rfl : result = .ok () := h
  rfl

/-- What a generation whose sources are found and converted prints and leaves, if its modules can be
written. -/
theorem execute_generation {args : List String} {input : String} {config filter : Option String}
    {overrides : Overrides} {c : Config} {t t' : Tree} {sources : List Source} {report : Report}
    {text : String}
    (hc : command? args = some (.generate input false config filter overrides))
    (hload : Config.load t config = .ok c) (hscan : t.scanWith input true filter = .ok sources)
    (hreport : (c.override overrides).generate t (t.isFile input) sources = .ok report)
    (hne : report.modules ≠ [])
    (hwrites : ∀ w : World, w.tree = t →
      after (report.modules.forM fun g => do tell (← write false g)) w =
        (.ok (), ⟨t', w.output ++ text⟩)) :
    execute args t = ⟨0, headText sources report ++ text, "", t'⟩ := by
  have hload : after (loadConfig config) { tree := t } = (.ok c, { tree := t }) :=
    after_loadConfig.mpr ⟨hload, rfl⟩
  rw [execute_eq hc, run, after_bind_of_ok hload, generate_leads hscan hreport hne false _ rfl,
    hwrites _ rfl, String.empty_append]

end SchemaGen.Cli
