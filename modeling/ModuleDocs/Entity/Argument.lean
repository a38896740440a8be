import ModuleDocs.Entity
import ModuleDocs.Text.Digit
import ModuleDocs.Text.Quoted

/-!
# Entities on a command line

An argument names an entity as `name/arity` for a function, with the name of
another kind and a colon in front for an entity of that kind, or not at all for
the module.  The arity stands behind the last slash.
-/

namespace ModuleDocs

/-- Why an argument names no entity. -/
inductive ArgumentError where
  | unknownKind (name : Text)
  | nameArityExpected (argument : Text)
  /-- Digits of which one is no decimal digit. -/
  | notANumber (digits : Text)
  | tooLong (error : Decimal.TooLong)
deriving DecidableEq, Repr

/-- The number of code points to which quoted digits are cut in messages. -/
def maxQuotedLength : Nat := 200

def ArgumentError.message : ArgumentError → Text
  | .unknownKind name => ("unknown entity kind '" : Text) ++ name ++ ("'" : Text)
  | .nameArityExpected argument =>
    ("expected name/arity, got '" : Text) ++ argument ++ ("'" : Text)
  | .notANumber digits =>
    ("invalid literal for int() with base 10: " : Text) ++ digits.quoted.take maxQuotedLength
  | .tooLong error => error.message

namespace EntityRef

/-- The number of arguments that digits write. -/
def readArity (digits : Text) : Except ArgumentError Int := do
  (Decimal.allow digits.decimalLength).mapError .tooLong
  match Text.toNat? digits with
  | some n => return n
  | none => .error (.notANumber digits)

/-- The entity of a kind that `name/arity` names. -/
def ofNameArity (kind : EntityKind) (argument : Text) : Except ArgumentError EntityRef :=
  match Text.splitLast? '/' argument with
  | none => .error (.nameArityExpected argument)
  | some (name, arity) =>
    if name.isEmpty || arity.isEmpty || ! arity.all (·.isAnyDigit) then
      .error (.nameArityExpected argument)
    else
      return ⟨kind, name, ← readArity arity⟩

/-- The entity that an argument names in a module. -/
def ofArgument (argument? : Option Text) (module : Text) : Except ArgumentError EntityRef :=
  let argument := argument?.getD []
  if argument.isEmpty then .ok (ofModule module)
  else
    match Text.splitFirst? ':' argument with
    | none => ofNameArity .function argument
    | some (kindName, rest) =>
      match EntityKind.ofName? kindName with
      | none => .error (.unknownKind kindName)
      | some .module => .ok (ofModule (if rest.isEmpty then module else rest))
      | some kind => ofNameArity kind rest

end EntityRef

end ModuleDocs
