import Mathlib
import ModuleDocs.CommandLine.Compile
import ModuleDocs.Proofs.Compile.Batch
import ModuleDocs.Proofs.Config.Failures
import ModuleDocs.Proofs.Container.Append

/-!
# A configuration that stops the compiler

The compiler reports an error of its configuration and ends with exit code 2.  The configuration
stops it just if the file that is looked for is unaccountable (`Config.IsUnaccountable`), since
nothing behind the configuration fails as it does: `compile_stops_iff_unaccountable`.
-/

namespace ModuleDocs.CommandLine

open Result

/-- The failure is not one of the configuration. -/
def Failure.IsBehindConfig (e : Failure) : Prop := ∀ f, e ≠ .config f

variable {host : Host} {fs : FileSystem} {a : CompileArguments} {config : Config}

theorem compileUnit_failsWith {options : CompileOptions} (source : Path) :
    FailsWith Failure.IsBehindConfig (compileUnit host a options fs source).1 := by
  unfold compileUnit
  split
  · exact FailsWith.error nofun
  split
  · split
    · exact FailsWith.error nofun
    · exact FailsWith.ok _
    · exact FailsWith.error nofun
  · exact FailsWith.mapError fun _ _ => nofun

theorem appendUnit_failsWith {options : CompileOptions} (source : Path) :
    FailsWith Failure.IsBehindConfig (appendUnit host a options fs source).1 := by
  unfold appendUnit
  split
  · exact FailsWith.error nofun
  split
  · exact FailsWith.mapError fun _ _ => nofun
  · split
    · exact FailsWith.error nofun
    · exact FailsWith.ok _
    · exact FailsWith.error nofun

/-- Behind the configuration nothing fails as it does. -/
theorem compileWith_failsWith :
    FailsWith Failure.IsBehindConfig (compileWith host fs a config).1 := by
  unfold compileWith
  dsimp only
  split
  · split
    · exact (appendUnit_failsWith _).map.map
    · exact FailsWith.ok _
  · split
    · exact FailsWith.error nofun
    · exact (Compile.allOf_failsWith fun fs source => compileUnit_failsWith source).map

/-- Only looking for the configuration fails as a configuration does. -/
theorem compile_fails_iff {line : List Text} (ha : CompileArguments.ofLine line = .ok a)
    (hblank : a.config ≠ .blank) : (∃ f, (compile host fs line).1 = .error (.config f)) ↔
      Config.Escapes (Config.find fs a.config.value? fs.workingDirectory) := by
  unfold compile
  rw [ha]
  dsimp only
  rw [if_neg hblank]
  cases Config.find fs a.config.value? fs.workingDirectory with
  | ok config =>
    refine iff_of_false ?_ (Config.not_escapes_ok config)
    rintro ⟨f, hf⟩
    exact compileWith_failsWith _ hf f rfl
  | error f =>
    cases f with
    | config e => exact iff_of_false (by simp) (Config.not_escapes_config e)
    | file e => exact iff_of_true ⟨_, rfl⟩ (Config.escapes_file e)
    | integer e => exact iff_of_true ⟨_, rfl⟩ (Config.escapes_integer e)

theorem exitCode_outcomeOfConfigError (a : CompileArguments) (e : ConfigError) :
    (outcomeOfConfigError a e).exitCode = 2 := by
  unfold outcomeOfConfigError
  dsimp only
  split
  · rfl
  · rfl

/-- Loading a configuration, and looking for one, ends with a configuration or with an error of it
and not otherwise, unless the path cannot be given to the system or is too long, the bytes are not
UTF-8, or more digits stand in a row than an integer may have.  In these cases its configuration
stops the compiler; an error of the configuration is reported, with exit code 2. -/
theorem compile_stops_iff_unaccountable (host : Host) (fs : FileSystem) :
    (∀ p, Config.Escapes (Config.load fs p) ↔
      ¬ p.IsNameable ∨ fs.HoldsNoText p ∨ Config.HoldsLongInteger fs p) ∧
    (∀ explicit? directory, Config.Escapes (Config.find fs explicit? directory) ↔
      Config.IsUnaccountable fs (Config.sought explicit? directory)) ∧
    (∀ p, Config.HoldsLongInteger fs p →
      ∃ source, fs.readText p = .ok source ∧ Json.HasLongRun source) ∧
    ∀ line a, CompileArguments.ofLine line = .ok a → a.config ≠ .blank →
      ((∃ f, (compile host fs line).1 = .error (.config f)) ↔
        Config.IsUnaccountable fs (Config.sought a.config.value? fs.workingDirectory)) ∧
      ∀ e, Config.find fs a.config.value? fs.workingDirectory = .error (.config e) →
        compile host fs line = (.ok (outcomeOfConfigError a e), fs) ∧
          (outcomeOfConfigError a e).exitCode = 2 := by
  refine ⟨fun p => Config.load_escapes_iff, fun _ _ => Config.find_escapes_iff, ?_, ?_⟩
  · rintro p ⟨source, error, position, hsource, herror⟩
    exact ⟨source, hsource, Json.hasLongRun_of_read herror⟩
  · intro line a ha hblank
    refine ⟨(compile_fails_iff ha hblank).trans Config.find_escapes_iff, fun e he => ⟨?_, ?_⟩⟩
    · unfold compile
      rw [ha]
      dsimp only
      rw [if_neg hblank, he]
    · exact exitCode_outcomeOfConfigError a e

/-! ## Configurations that are refused, and some about which nothing is said -/

/-- A file system with one configuration file. -/
def configFile (data : Bytes) : FileSystem :=
  (FileSystem.empty ⟨.single, []⟩).put [FileName.encode "c.json"] (.file data)

def configLine : List Text := ["--config", "c.json", "m.src"]

def configArguments : CompileArguments :=
  { CompileArguments.none with
    sources := [Path.parse "m.src"], config := .value (Path.parse "c.json") }

theorem ofLine_configLine : CompileArguments.ofLine configLine = .ok configArguments := by cbv

/-- A name that no file can have. -/
def longName : Text := List.replicate 300 (CodePoint.ofChar 'a')

theorem isTooLong_longName (data : Bytes) :
    (configFile data).IsTooLong ⟨.relative, [longName]⟩ := by
  have hlength : 300 ≤ (FileName.encode longName).length := by
    have hletters : longName.length = 300 := List.length_replicate
    rw [← hletters]
    exact FileName.length_le_length_encode longName
  have hdots : FileName.encode longName ≠ [0x2E, 0x2E] := by
    intro hsame
    rw [hsame] at hlength
    simp at hlength
  refine ⟨Path.isNameable_iff.2 ?_, Or.inr ⟨[], _, [], [], rfl, rfl, rfl, hdots, ?_⟩⟩
  · intro name hname
    rw [List.mem_singleton.1 hname, longName, List.all_replicate]
    decide
  · unfold FileSystem.maxName
    omega

/-- The compiler reports an object that is not closed, and is stopped by a byte that is not
UTF-8.  A path with a zero in it stops the loading of a file, and a long one the looking for it. -/
theorem compile_stops_iff_unaccountable_configFile :
    compile Container.looseHost (configFile [0x7B]) configLine
      = (.ok (outcomeOfConfigError configArguments
          (.badJson (Path.parse "c.json") .expectingName 1)), configFile [0x7B]) ∧
    (outcomeOfConfigError configArguments
      (.badJson (Path.parse "c.json") .expectingName 1)).exitCode = 2 ∧
    (∃ f, (compile Container.looseHost (configFile [0xFF]) configLine).1 = .error (.config f)) ∧
    Config.Escapes (Config.load (configFile [0xFF]) (Path.parse [0x61, 0, 0x62])) ∧
    Config.Escapes (Config.find (configFile [0xFF]) (some ⟨.relative, [longName]⟩)
      ⟨.single, []⟩) := by
  have hset : configArguments.config ≠ .blank := nofun
  have hopen : Config.find (configFile [0x7B]) configArguments.config.value?
      (configFile [0x7B]).workingDirectory
        = .error (.config (.badJson (Path.parse "c.json") .expectingName 1)) := by cbv
  have hread : (configFile [0xFF]).read (Path.parse "c.json") = .ok [0xFF] := by cbv
  have hbytes : ¬ Utf8.IsTabular [0xFF] := by
    rw [Utf8.isTabular_iff_decode]
    rintro ⟨t, ht⟩
    have hfault : (Utf8.decode [0xFF]).isOk = false := by cbv
    rw [ht] at hfault
    cases hfault
  have hzero : ¬ (Path.parse [0x61, 0, 0x62]).IsNameable := fun h => absurd h.noZero (by decide)
  obtain ⟨-, -, -, hreports⟩ :=
    compile_stops_iff_unaccountable Container.looseHost (configFile [0x7B])
  obtain ⟨hload, hfind, -, hstops⟩ :=
    compile_stops_iff_unaccountable Container.looseHost (configFile [0xFF])
  obtain ⟨hreported, hexit⟩ := (hreports _ _ ofLine_configLine hset).2 _ hopen
  refine ⟨hreported, hexit, (hstops _ _ ofLine_configLine hset).1.2 ?_,
    (hload _).2 (Or.inl hzero), (hfind _ _).2 (Or.inl (isTooLong_longName _))⟩
  exact Or.inr (Or.inl ⟨[0xFF], hread, hbytes⟩)

end ModuleDocs.CommandLine
