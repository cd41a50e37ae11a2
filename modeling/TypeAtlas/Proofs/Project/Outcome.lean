import TypeAtlas.Command.Run

/-! What loading a project ends in, whatever the files are. Options, inputs and errors go together
in three ways, and the status of the command tells whether there are inputs. -/

namespace TypeAtlas

namespace Project

/-- The ways in which options, inputs and errors of a project go together. -/
inductive Outcome : Project → Prop
  /-- The project or a configuration cannot be used. -/
  | failed {error : Diagnostic} (code : error.code ∈ [6064, 5083, 5014, 18000]) :
    Outcome { options := none, fileNames := [], errors := [error] }
  | found {options : CompilerOptions} {fileNames : List String} (nonempty : fileNames ≠ []) :
    Outcome { options := some options, fileNames, errors := [] }
  | noInputs {options : CompilerOptions} {error : Diagnostic} (code : error.code = 18003) :
    Outcome { options := some options, fileNames := [], errors := [error] }

theorem outcome_of_configFault (start : String) (fault : ConfigFault) :
    Outcome (Project.failed (fault.diagnostic start)) := by
  refine .failed ?_
  cases fault with
  | unreadable => exact .tail _ (.head _)
  | malformed => exact .tail _ (.tail _ (.head _))
  | circular => exact .tail _ (.tail _ (.tail _ (.head _)))
  | noDirectory => exact .tail _ (.head _)

theorem outcome_ofConfig (c : Config) (path directory : String) (t : FileTree) :
    Outcome (ofConfig c path directory t) := by
  unfold ofConfig
  cases c.inputs directory t with
  | nil => exact .noInputs rfl
  | cons fileName rest => exact .found (List.cons_ne_nil fileName rest)

theorem outcome_loadWith (find : String → Except FileFault FileTree)
    (loadConfig : String → Except LoadError Config) (path : String) :
    Outcome (loadWith find loadConfig path) := by
  unfold loadWith
  split
  · exact .failed (.head _)
  · dsimp only
    split
    · exact outcome_of_configFault _ _
    · split
      · exact outcome_ofConfig ..
      · exact outcome_ofConfig ..

theorem Outcome.errors_eq_nil_iff {p : Project} (h : Outcome p) :
    p.errors = [] ↔ p.fileNames ≠ [] := by
  cases h with
  | failed => simp
  | found hne => simpa using hne
  | noInputs => simp

theorem Outcome.status_report {p : Project} (h : Outcome p) (json colored : Bool) :
    (p.report json colored).status = Report.success ↔ p.fileNames ≠ [] := by
  rw [← h.errors_eq_nil_iff]
  cases herrors : p.errors with
  | nil => simp [report, herrors]
  | cons => simp [report, herrors, Report.hasErrors, Report.success]

/-- Whatever is found at the paths and however configurations are loaded, a project has one of the
three outcomes. The command that lists its inputs always answers, and with success exactly if there
are inputs, as text and as JSON. -/
theorem outcome_and_status (find : String → Except FileFault FileTree)
    (loadConfig : String → Except LoadError Config) (path : String) :
    Outcome (loadWith find loadConfig path) ∧
    (∀ json colored, ((loadWith find loadConfig path).report json colored).status =
        Report.success ↔ (loadWith find loadConfig path).fileNames ≠ []) ∧
    ∀ (files : Files) (json colored : Bool),
      ∃ r, Command.run files colored (.config path json) = .ok r ∧ Outcome (load files path) ∧
        (r.status = Report.success ↔ (load files path).fileNames ≠ []) := by
  have h := outcome_loadWith find loadConfig path
  refine ⟨h, h.status_report, fun files json colored => ⟨_, rfl, ?_⟩⟩
  have hload := outcome_loadWith files.find files.loadConfig path
  exact ⟨hload, hload.status_report json colored⟩

end Project

end TypeAtlas
