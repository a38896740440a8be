import Mathlib
import ModuleDocs.Config
import ModuleDocs.Proofs.File.TooLong
import ModuleDocs.Proofs.Json.Integers
import ModuleDocs.Proofs.Text.Sequences

/-!
# Failures that are no error of the configuration

Whatever is wrong with a configuration file that was read is an error of the configuration, and so
is what the system says against reading it.  `load_escapes_iff` and `find_escapes_iff` list what is
left: paths that cannot be given to the system or are too long, bytes that are not UTF-8, and
integers of too many digits.
-/

namespace ModuleDocs

open Result

/-! ## Text files -/

namespace FileSystem

variable {fs : FileSystem} {p : Path}

theorem readText_eq_file_iff {e : FileError} :
    fs.readText p = .error (.file e) ↔ fs.read p = .error e := by
  unfold readText
  cases fs.read p with
  | error e' => simp [Except.mapError, bind, Except.bind]
  | ok data =>
    cases hdata : Utf8.decode data <;>
      simp [Except.mapError, bind, Except.bind, pure, Except.pure, hdata]

/-- The path names a file whose bytes are not UTF-8. -/
def HoldsNoText (fs : FileSystem) (p : Path) : Prop :=
  ∃ data, fs.read p = .ok data ∧ ¬ Utf8.IsTabular data

theorem readText_eq_notUtf8_iff :
    (∃ e, fs.readText p = .error (.notUtf8 e)) ↔ fs.HoldsNoText p := by
  unfold readText HoldsNoText
  cases fs.read p with
  | error e' => simp [Except.mapError, bind, Except.bind]
  | ok data =>
    cases hdata : Utf8.decode data <;>
      simp [Except.mapError, bind, Except.bind, pure, Except.pure, hdata, Utf8.isTabular_iff_decode]

theorem exists_read_of_readText {source : Text} (h : fs.readText p = .ok source) :
    ∃ data, fs.read p = .ok data := by
  obtain ⟨data, hread, -⟩ := bind_eq_ok_iff.1 h
  exact ⟨data, mapError_eq_ok_iff.1 hread⟩

end FileSystem

namespace Config

open FileSystem

/-- The failure is an error of the configuration. -/
def Failure.IsConfig (f : Failure) : Prop := ∃ e, f = .config e

/-- The step stops with a failure of another kind. -/
def Escapes {α : Type} (x : Except Failure α) : Prop := ∃ f, x = .error f ∧ ¬ f.IsConfig

/-- The path names a file of text in which an integer has too many digits. -/
def HoldsLongInteger (fs : FileSystem) (p : Path) : Prop :=
  ∃ source error position, fs.readText p = .ok source ∧
    Json.read source = .error ⟨.integer error, position⟩

variable {α : Type} {fs : FileSystem} {p : Path}

theorem not_escapes_ok (a : α) : ¬ Escapes (.ok a : Except Failure α) := by
  rintro ⟨f, hf, -⟩
  cases hf

theorem not_escapes_config (e : ConfigError) :
    ¬ Escapes (.error (.config e) : Except Failure α) := by
  rintro ⟨f, hf, hconfig⟩
  cases hf
  exact hconfig ⟨e, rfl⟩

theorem escapes_file (e : TextFileError) : Escapes (.error (.file e) : Except Failure α) :=
  ⟨_, rfl, nofun⟩

theorem escapes_integer (e : Decimal.TooLong) :
    Escapes (.error (.integer e) : Except Failure α) :=
  ⟨_, rfl, nofun⟩

/-- What is made of a text stops the program only for an integer of too many digits. -/
theorem load_escapes_iff_of_readText {source : Text} (h : fs.readText p = .ok source) :
    Escapes (load fs p) ↔ HoldsLongInteger fs p := by
  unfold load HoldsLongInteger
  rw [h]
  dsimp only
  cases hread : Json.read source with
  | ok data =>
    refine iff_of_false ?_ ?_
    · rintro ⟨f, hf, hconfig⟩
      obtain ⟨e, -, rfl⟩ := mapError_eq_error_iff.1 hf
      exact hconfig ⟨e, rfl⟩
    · rintro ⟨source', error, position, hsource, herror⟩
      cases hsource
      cases hread.symm.trans herror
  | error e =>
    obtain ⟨cause, position⟩ := e
    cases cause with
    | integer error =>
      exact iff_of_true (escapes_integer error) ⟨source, error, position, rfl, hread⟩
    | _ =>
      refine iff_of_false (not_escapes_config _) ?_
      rintro ⟨source', error, position, hsource, herror⟩
      cases hsource
      cases hread.symm.trans herror

/-- A configuration file stops the program with another failure just if its path cannot be given
to the system, its bytes are not UTF-8 or an integer in it has too many digits. -/
theorem load_escapes_iff :
    Escapes (load fs p) ↔ ¬ p.IsNameable ∨ fs.HoldsNoText p ∨ HoldsLongInteger fs p := by
  cases htext : fs.readText p with
  | ok source =>
    obtain ⟨data, hread⟩ := exists_read_of_readText htext
    have hnameable : ¬ ¬ p.IsNameable := not_not.2 (isNameable_of_exists (exists_of_read hread))
    have hlegible : ¬ fs.HoldsNoText p := by
      rw [← readText_eq_notUtf8_iff]
      rintro ⟨e, he⟩
      cases htext.symm.trans he
    rw [load_escapes_iff_of_readText htext, or_iff_right hnameable, or_iff_right hlegible]
  | error e =>
    have hlong : ¬ HoldsLongInteger fs p := by
      rintro ⟨source, error, position, hsource, -⟩
      cases htext.symm.trans hsource
    rw [or_iff_left hlong, ← readText_eq_notUtf8_iff, ← read_escapes_iff fs p]
    unfold load
    rw [htext]
    cases e with
    | notUtf8 e => exact iff_of_true (escapes_file _) (Or.inr ⟨e, rfl⟩)
    | file e =>
      have hread := readText_eq_file_iff.1 htext
      by_cases hos : e.IsOs
      · obtain ⟨cause, t, target?, rfl⟩ := hos
        refine iff_of_false (not_escapes_config _) ?_
        rintro (⟨e', he', hos⟩ | ⟨e', he'⟩)
        · cases hread.symm.trans he'
          exact hos (isOs_os _ _ _)
        · cases he'
      · refine iff_of_true ?_ (Or.inl ⟨e, hread, hos⟩)
        cases e with
        | os cause t target? => exact absurd (isOs_os _ _ _) hos
        | unencodable run => exact escapes_file _
        | nullByte => exact escapes_file _
        | noName t => exact escapes_file _

/-! ## Looking for the file -/

/-- The file that is looked for: the one given, or else the usual one in a directory. -/
def sought (explicit? : Option Path) (directory : Path) : Path :=
  explicit?.getD (directory.join (Path.parse fileName))

/-- A path about which there is no error of the configuration to give: it is too long, or it leads
to bytes that are not UTF-8 or to an integer of too many digits. -/
def IsUnaccountable (fs : FileSystem) (p : Path) : Prop :=
  fs.IsTooLong p ∨ fs.HoldsNoText p ∨ HoldsLongInteger fs p

/-- The file is loaded if it is there. -/
theorem find_eq (fs : FileSystem) (explicit? : Option Path) (directory : Path) :
    find fs explicit? directory = (do
      let there ← (fs.exists_ (sought explicit? directory)).mapError fun e => .file (.file e)
      if there then load fs (sought explicit? directory)
      else
        match explicit? with
        | some p => .error (.config (.missing p))
        | none => .ok default) := by
  cases explicit? with
  | some p => rfl
  | none => rfl

/-- What stops the loading of a file that can be named is in the file, and so the file is there. -/
theorem exists_of_holds (h : fs.HoldsNoText p ∨ HoldsLongInteger fs p) :
    fs.exists_ p = .ok true := by
  rcases h with ⟨data, hread, -⟩ | ⟨source, error, position, hsource, -⟩
  · exact exists_of_read hread
  · obtain ⟨data, hread⟩ := exists_read_of_readText hsource
    exact exists_of_read hread

/-- Looking for a configuration stops the program with another failure just if the file that is
looked for is unaccountable. -/
theorem find_escapes_iff {explicit? : Option Path} {directory : Path} :
    Escapes (find fs explicit? directory) ↔ IsUnaccountable fs (sought explicit? directory) := by
  rw [find_eq, IsUnaccountable, ← exists_fails_iff]
  generalize sought explicit? directory = p
  cases hexists : fs.exists_ p with
  | error e => exact iff_of_true (escapes_file _) (Or.inl ⟨e, rfl⟩)
  | ok there =>
    rw [or_iff_right (not_fails_ok there)]
    cases there with
    | true =>
      change Escapes (load fs p) ↔ _
      rw [load_escapes_iff, or_iff_right (not_not.2 (isNameable_of_exists hexists))]
    | false =>
      refine iff_of_false ?_ fun h => ?_
      · cases explicit? with
        | some p => exact not_escapes_config _
        | none => exact not_escapes_ok _
      · cases hexists.symm.trans (exists_of_holds h)

end Config

end ModuleDocs
