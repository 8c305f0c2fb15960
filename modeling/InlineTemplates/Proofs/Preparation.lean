import InlineTemplates.Precompile
import InlineTemplates.Proofs.Requests
import InlineTemplates.Proofs.SourceRefusals

/-!
# What stops a precompilation in front of its sites

Options that are no mapping of the right shape are refused without a report. With options of the
right shape, whatever stands in them, the work in front of the first site stops only with a report
of the configuration or with what the source is refused for.
-/

namespace InlineTemplates

/-- The failures that come from a configuration. -/
inductive Error.OfConfiguration : Error → Prop
  | config (f : ConfigFault) : OfConfiguration (.report (.bare (.config f)))

namespace Options

abbrev Faults {α : Type} (x : Except Error α) : Prop := Fails x Error.OfConfiguration

theorem fault_faults {α : Type} (f : ConfigFault) : Faults (fault f : Except Error α) :=
  .error (.config f)

theorem off_faults {α : Type} {x : Except Error α} {v : Value} (h : !v.isOn) (hx : Faults x) :
    Faults (if v.isOn then .error .malformed else x) := by
  rwa [if_neg (by simpa using h)]

/-! ## Shapes -/

/-- A target that is not refused for its shape: a list or a text, or a mapping without two keys. -/
def isTarget : Value → Bool
  | .list _ | .str _ => true
  | .mapping entries => entries.length != 2
  | _ => false

/-- What can be given for the exports of one module. -/
def areTargets : Value → Bool
  | .mapping exports => exports.all fun e => isTarget e.2
  | _ => true

/-- What can be given in the place of exports: a mapping of mappings, or a value that is off. -/
def areOverrides : Value → Bool
  | .mapping modules => modules.all fun m => areTargets m.2
  | v => !v.isOn

/-- A value that can be the name of a module, whether it names one or not. -/
def isSpecifier : Value → Bool
  | .list _ | .mapping _ => false
  | _ => true

/-- What can be given for the modules that are bound besides: a list of specifiers, or a value that
is off. -/
def arePaths (v : Value) : Bool :=
  match v.items? with
  | some items => items.all isSpecifier
  | none => !v.isOn

/-- The name of a compiler's module: a text that does not start with a point unless it names a
file, or a value that is off. -/
def isCompilerPath : Value → Bool
  | .str path => isFilePath path || path.head? != some (CodePoint.scalar '.')
  | v => !v.isOn

/-- Options whose values have the shapes that are looked into. -/
structure Shaped (entries : Entries) : Prop where
  overrides : areOverrides ((entries.get? "moduleOverrides").getD .null)
  paths : arePaths ((entries.get? "modulePaths").getD .null)
  compilerPath : isCompilerPath ((entries.get? "templateCompilerPath").getD .null)

/-! ## Reading the options -/

theorem moduleOptions_faults (specifier : Text) (v : Value) :
    Faults (moduleOptions specifier v) := by
  unfold moduleOptions
  split
  · exact .ok _
  · dsimp only
    split
    · exact fault_faults _
    split
    · exact .ok _
    · exact fault_faults _
  · exact fault_faults _

theorem readModules_faults (v : Value) : Faults (readModules v) := by
  unfold readModules
  split
  · exact .ok _
  · refine (Fails.mapM fun e _ => ?_).bind fun _ _ => .ok _
    exact (moduleOptions_faults e.1 e.2).bind fun _ _ => .ok _
  · exact fault_faults _

theorem target_faults (module exported : Text) {v : Value} (h : isTarget v) :
    Faults (target module exported v) := by
  unfold target
  split
  · exact .ok _
  · exact fault_faults _
  · exact fault_faults _
  · rename_i entries
    have hlength : entries.length ≠ 2 := by simpa [isTarget] using h
    rw [if_neg hlength]
    exact fault_faults _
  · rename_i hlist hstr hmapping _
    cases v <;> simp_all [isTarget]

theorem readOverrides_faults {v : Value} (h : areOverrides v) : Faults (readOverrides v) := by
  cases v with
  | mapping modules =>
    refine Fails.mapM fun m hm => ?_
    obtain ⟨module, exports⟩ := m
    have htargets : areTargets exports := List.all_eq_true.1 h _ hm
    cases exports with
    | mapping exports =>
      refine (Fails.mapM fun e he => ?_).bind fun _ _ => .ok _
      exact (target_faults module e.1 (List.all_eq_true.1 htargets e he)).bind fun _ _ => .ok _
    | str | int | float | bool | null | list => exact fault_faults _
  | null => exact .ok _
  | str | int | float | bool | list => exact off_faults h (.ok _)

theorem readPaths_faults {v : Value} (h : arePaths v) : Faults (readPaths v) := by
  cases v with
  | str => exact fault_faults _
  | list | mapping | null => exact .ok _
  | int | float | bool => exact off_faults h (.ok _)

theorem readPaths_yields {v : Value} (h : arePaths v) :
    Yields (readPaths v) fun paths => ∀ path ∈ paths, isSpecifier path := by
  unfold readPaths
  split
  · exact nofun
  · rename_i items hitems
    exact .ok (by simpa [arePaths, hitems] using h)
  · split
    · exact nofun
    · exact .ok (by simp)

/-- Options of the right shape are read, or the report says what is wrong with them. -/
theorem ofEntries_faults {entries : Entries} (h : Shaped entries) : Faults (ofEntries entries) := by
  unfold ofEntries
  dsimp only
  split
  · exact fault_faults _
  refine (readModules_faults _).bind fun modules _ => ?_
  refine (readOverrides_faults h.overrides).bind fun overrides _ => ?_
  exact (readPaths_faults h.paths).bind fun paths _ => .ok _

theorem ofEntries_yields {entries : Entries} (h : Shaped entries) :
    Yields (ofEntries entries) fun o =>
      (∀ v ∈ o.modulePaths, isSpecifier v) ∧ isCompilerPath o.compilerPath := by
  intro o ho
  unfold ofEntries at ho
  dsimp only at ho
  split at ho
  · cases ho
  obtain ⟨modules, -, ho⟩ := bind_eq_ok.1 ho
  obtain ⟨overrides, -, ho⟩ := bind_eq_ok.1 ho
  obtain ⟨paths, hpaths, ho⟩ := bind_eq_ok.1 ho
  cases ho
  exact ⟨readPaths_yields h.paths _ hpaths, h.compilerPath⟩

/-! ## The modules and the compiler -/

variable {o : Options}

theorem moduleName?_faults {v : Value} (h : isSpecifier v) : Faults (moduleName? v) := by
  cases v with
  | list | mapping => cases h
  | str | int | float | bool | null => exact .ok _

theorem configuredModules_faults (h : ∀ v ∈ o.modulePaths, isSpecifier v) :
    Faults o.configuredModules :=
  (Fails.mapM fun v hv => moduleName?_faults (h v hv)).bind fun _ _ => .ok _

theorem loadCompiler_faults (known : List (Text × CompilerModule)) {path : Text}
    (h : isCompilerPath (.str path)) : Faults (loadCompiler known path) := by
  unfold loadCompiler
  split
  · exact fault_faults _
  rename_i hfile
  have hpoint : path.head? ≠ some (CodePoint.scalar '.') := by
    simpa [isCompilerPath, hfile] using h
  rw [if_neg hpoint]
  split
  · exact .ok _
  all_goals exact fault_faults _

theorem compiler_faults (known : List (Text × CompilerModule)) (given : Option Compiler)
    (h : isCompilerPath o.compilerPath) : Faults (o.compiler known given) := by
  obtain ⟨path, _, _, _, _, value⟩ := o
  have h : isCompilerPath path := h
  refine iteInduction (fun _ => fault_faults _) fun _ => ?_
  dsimp only
  split
  · exact .ok _
  · exact loadCompiler_faults known h
  · -- no text stands here that is not empty
    refine off_faults ?_ (fault_faults _)
    rename_i hnone
    match path, h with
    | .str [], _ => rfl
    | .str (c :: path), _ => exact absurd rfl (hnone c path)
    | .null, _ => rfl
    | .int _, h | .float _, h | .bool _, h | .list _, h | .mapping _, h => exact h
  · exact fault_faults _

end Options

theorem Precompiler.ofOptions_faults {o : Options} (known : List (Text × CompilerModule))
    (given : Option Compiler) (hpaths : ∀ v ∈ o.modulePaths, Options.isSpecifier v)
    (hcompiler : Options.isCompilerPath o.compilerPath) :
    Options.Faults (Precompiler.ofOptions known given o) :=
  (Options.compiler_faults known given hcompiler).bind fun _ _ =>
    (Options.configuredModules_faults hpaths).bind fun _ _ => .ok _

/-! ## In front of the first site -/

/-- With options of the right shape, whatever is wrong with them, with the source or with the
compiler is reported, but for the name of an import; a failure of another kind comes from the
program that was read. -/
theorem error_of_precompile {known : List (Text × CompilerModule)} {given : Option Compiler}
    {entries : Entries} {source : Text} {file : Option Text} {e : Error}
    (hshape : Options.Shaped entries)
    (h : (precompile known given entries source file).result = .error e) :
    e.OfConfiguration ∨ e.OfSource ∨ ∃ (p : Precompiler) (program : Node),
      Node.readProgram source file = .ok program ∧
        (p.transform program ⟨some source, file⟩).result = .error e := by
  unfold precompile at h
  dsimp only at h
  split at h
  · rename_i e' hprepared
    obtain rfl : e' = e := Except.error.inj h
    rcases bind_eq_error.1 hprepared with ho | ⟨o, ho, hprepared⟩
    · exact .inl (Options.ofEntries_faults hshape _ ho)
    rcases bind_eq_error.1 hprepared with hread | ⟨program, hread, hprepared⟩
    · exact .inr (.inl (Node.readProgram_refuses source file _ hread))
    obtain ⟨hpaths, hcompiler⟩ := Options.ofEntries_yields hshape o ho
    have hfaults := Precompiler.ofOptions_faults known given hpaths hcompiler
    exact .inl (hfaults.bind (fun _ _ => .ok _) _ hprepared)
  · rename_i p program hprepared
    obtain ⟨o, -, hprepared⟩ := bind_eq_ok.1 hprepared
    obtain ⟨program', hread, hprepared⟩ := bind_eq_ok.1 hprepared
    obtain ⟨p', -, hprepared⟩ := bind_eq_ok.1 hprepared
    cases hprepared
    refine .inr (.inr ⟨p, program, hread, ?_⟩)
    cases hresult : (p.transform program ⟨some source, file⟩).result with
    | error e' => simpa [Precompiler.Outcome.printed, hresult, Except.map] using h
    | ok n => simp [Precompiler.Outcome.printed, hresult, Except.map] at h

end InlineTemplates
