import ModuleDocs.Text.Digit
import ModuleDocs.Text.Quoted

/-!
# Arguments of a command line

A command has options and positionals, and reads the words of a command line from
the left into settings.  An option is named by its full name, by the beginning of a
long name that no other option has, or with further one letter options and a value
in one word.  Behind a word `--` there are no options; in one word with an option it
stands for a value that is left blank.

The positionals in front of an option are read as far as they go, before the option
is; so a positional that may take several words takes words that stand together.

`Command.read` gives the settings and the words that nothing takes.
-/

namespace ModuleDocs

/-- Why a command line is not followed. -/
inductive Stop where
  | help (command : Text)
  | misuse (command message : Text)
deriving DecidableEq, Repr

/-- What a command line says about a setting. -/
inductive Setting (α : Type) where
  | absent
  /-- The option came with a blank value. -/
  | blank
  | value (a : α)
deriving DecidableEq, Repr

namespace Setting

variable {α : Type}

/-- The setting that an option with a value or a blank gives. -/
def ofValue (a? : Option α) : Setting α :=
  match a? with
  | some a => .value a
  | none => .blank

def value? : Setting α → Option α
  | .value a => some a
  | _ => none

end Setting

/-- What an option does to the settings. -/
inductive Effect (σ : Type) where
  | help
  | flag (apply : σ → σ)
  /-- Takes a value, which may be left blank, or says what is wrong with it. -/
  | value (apply : Option Text → σ → Except Text σ)

/-- An option with its names, of which the long ones have two minus signs. -/
structure Switch (σ : Type) where
  names : List Text
  effect : Effect σ

/-- How many words a positional takes. -/
inductive Extent where
  | one
  | atMostOne
  | oneOrMore
  /-- All that are left, also options. -/
  | rest
deriving DecidableEq, Repr

structure Positional (σ : Type) where
  name : Text
  extent : Extent
  apply : List Text → σ → Except Stop σ

structure Command (σ : Type) where
  name : Text
  switches : List (Switch σ)
  positionals : List (Positional σ)

/-- An option in a command line, under the name that it has there, and the text that
stands in one word with it. -/
structure Hit (σ : Type) where
  switch : Switch σ
  spelling : Text
  attached? : Option Text

/-- A word of a command line. -/
inductive Word (σ : Type) where
  | plain (t : Text)
  | separator
  | option (t : Text) (hit? : Option (Hit σ))

namespace Word

variable {σ : Type}

def text : Word σ → Text
  | .plain t => t
  | .separator => "--"
  | .option t _ => t

def isOption : Word σ → Bool
  | .option .. => true
  | _ => false

def isSeparator : Word σ → Bool
  | .separator => true
  | _ => false

end Word

def isMinus (c : CodePoint) : Bool := c = '-'

/-- A negative number, with or without a decimal point.  A line feed may follow. -/
def isNegativeNumber (t : Text) : Bool :=
  let allDigits (t : Text) : Bool := t.all fun c => c.decimalValue?.isSome
  let body := if t.getLast? = some (CodePoint.ofChar '\n') then t.dropLast else t
  match body with
  | [] => false
  | c :: digits =>
    isMinus c &&
      match Text.splitFirst? '.' digits with
      | none => ! digits.isEmpty && allDigits digits
      | some (whole, fraction) => allDigits whole && ! fraction.isEmpty && allDigits fraction

namespace Switch

variable {σ : Type}

/-- The name of an option in messages. -/
def display (s : Switch σ) : Text := Text.join "/" s.names

def takesValue (s : Switch σ) : Bool :=
  match s.effect with
  | .value _ => true
  | _ => false

end Switch

namespace Command

variable {σ : Type}

def misuse {α : Type} (c : Command σ) (message : Text) : Except Stop α :=
  .error (.misuse c.name message)

/-- An error about one argument. -/
def badArgument {α : Type} (c : Command σ) (argument message : Text) : Except Stop α :=
  c.misuse (("argument " : Text) ++ argument ++ (": " : Text) ++ message)

/-! ## Words -/

/-- The options under each of their names. -/
def named (c : Command σ) : List (Text × Switch σ) :=
  c.switches.flatMap fun s => s.names.map fun name => (name, s)

/-- The option of a full name. -/
def switch? (c : Command σ) (name : Text) : Option (Switch σ) :=
  (c.named.find? fun n => n.1 = name).map (·.2)

/-- The options that a word with minus signs in front may mean, when it is no full name. -/
def candidates (c : Command σ) (t : Text) : List (Hit σ) :=
  if (t.drop 1).head?.any isMinus then
    let (start, attached?) :=
      match Text.splitFirst? '=' t with
      | some (before, after) => (before, some after)
      | none => (t, none)
    (c.named.filter fun n => start.isPrefixOf n.1).map fun n => ⟨n.2, n.1, attached?⟩
  else
    (c.named.filter fun n => n.1 = t.take 2).map fun n => ⟨n.2, n.1, some (t.drop 2)⟩

/-- The option that a full name with an equals sign behind it means. -/
def assigned? (c : Command σ) (t : Text) : Option (Hit σ) := do
  let (before, after) ← Text.splitFirst? '=' t
  return ⟨← c.switch? before, before, some after⟩

/-- What kind a word in front of a separator is. -/
def classify (c : Command σ) (t : Text) : Except Stop (Word σ) :=
  if ! t.head?.any isMinus then .ok (.plain t)
  else
    match c.switch? t with
    | some s => .ok (.option t (some ⟨s, t, none⟩))
    | none =>
      if t.length = 1 then .ok (.plain t)
      else
        match c.assigned? t with
        | some hit => .ok (.option t (some hit))
        | none =>
          match c.candidates t with
          | [hit] => .ok (.option t (some hit))
          | [] =>
            if isNegativeNumber t || t.contains (CodePoint.ofChar ' ') then .ok (.plain t)
            else .ok (.option t none)
          | hits =>
            c.misuse (("ambiguous option: " : Text) ++ t ++ (" could match " : Text)
              ++ Text.join ", " (hits.map (·.spelling)))

/-- The words of a command line. -/
def classifyAll (c : Command σ) : List Text → Except Stop (List (Word σ))
  | [] => .ok []
  | t :: rest =>
    if t = Text.ofString "--" then .ok (.separator :: rest.map .plain)
    else do
      let word ← c.classify t
      return word :: (← classifyAll c rest)

/-! ## Positionals -/

/-- The number of words that a positional takes from the front, if it can. -/
def reach (extent : Extent) (words : List (Word σ)) : Option Nat :=
  let separators (words : List (Word σ)) : Nat := (words.takeWhile (·.isSeparator)).length
  let lead := separators words
  match extent, words.drop lead with
  | .one, .plain _ :: rest => some (lead + 1 + separators rest)
  | .atMostOne, .plain _ :: rest => some (lead + 1 + separators rest)
  | .atMostOne, _ => some lead
  | .oneOrMore, .plain _ :: rest =>
    some (lead + 1 + (rest.takeWhile (! ·.isOption)).length)
  | .rest, .plain _ :: _ => some words.length
  | _, _ => none

/-- The texts of the words of a positional, without the first separator. -/
def textsFor (extent : Extent) (words : List (Word σ)) : List Text :=
  let texts := words.map (·.text)
  if extent = .rest then texts else texts.erase "--"

/-- Reads positionals from the front of words as far as they go.  Gives the number of
words taken and the positionals left. -/
def readPositionals (words : List (Word σ)) (s : σ) :
    List (Positional σ) → Except Stop (Nat × List (Positional σ) × σ)
  | [] => .ok (0, [], s)
  | p :: rest =>
    match reach p.extent words with
    | none => .ok (0, p :: rest, s)
    | some n => do
      let s ← p.apply (textsFor p.extent (words.take n)) s
      let (more, left, s) ← readPositionals (words.drop n) s rest
      return (n + more, left, s)

/-! ## Options -/

/-- What one word comes to, behind its flags. -/
inductive Ending (σ : Type) where
  | complete
  /-- The last option takes the next word. -/
  | open (last : Switch σ)
  | value (last : Switch σ) (t : Text)

/-- Refuses text in one word with an option that takes no value. -/
def ignored {α : Type} (c : Command σ) (s : Switch σ) (t : Text) : Except Stop α :=
  c.badArgument s.display (("ignored explicit argument " : Text) ++ t.quoted)

/-- Reads the text behind an option in one word with it: the value of the option, or
further one letter options behind a one letter option that takes none. -/
def readAttached (c : Command σ) (s : Switch σ) (isLong : Bool) (flags : List (Switch σ))
    (t : Text) : Except Stop (List (Switch σ) × Ending σ) :=
  if s.takesValue then .ok (flags, .value s t)
  else
    match t with
    | [] => c.ignored s t
    | letter :: rest =>
      if isLong then c.ignored s t
      else
        match c.switch? ['-', letter] with
        | none => c.ignored s t
        | some next =>
          if ! rest.isEmpty then readAttached c next false (flags ++ [s]) rest
          else if next.takesValue then .ok (flags ++ [s], .open next)
          else .ok (flags ++ [s, next], .complete)

/-- Applies a flag. -/
def applyFlag (c : Command σ) (settings : σ) (s : Switch σ) : Except Stop σ :=
  match s.effect with
  | .help => .error (.help c.name)
  | .flag apply => .ok (apply settings)
  | .value _ => .ok settings

/-- Gives an option its value.  The separator stands for a blank. -/
def applyValue (c : Command σ) (settings : σ) (s : Switch σ) (t : Text) : Except Stop σ :=
  match s.effect with
  | .value apply =>
    match apply (if t = Text.ofString "--" then none else some t) settings with
    | .ok settings => .ok settings
    | .error message => c.badArgument s.display message
  | _ => .ok settings

/-- Reads an option with the words behind it.  Gives the settings and whether the next
word was the value. -/
def readOption (c : Command σ) (hit : Hit σ) (rest : List (Word σ)) (settings : σ) :
    Except Stop (σ × Bool) := do
  let isLong := (hit.spelling.drop 1).head?.any isMinus
  let (flags, ending) ← match hit.attached? with
    | some t => c.readAttached hit.switch isLong [] t
    | none =>
      if hit.switch.takesValue then pure ([], Ending.open hit.switch)
      else pure ([hit.switch], Ending.complete)
  match ending with
  | .complete => return (← flags.foldlM c.applyFlag settings, false)
  | .value s t => return (← c.applyValue (← flags.foldlM c.applyFlag settings) s t, false)
  | .open s =>
    match rest with
    | .plain t :: _ =>
      return (← c.applyValue (← flags.foldlM c.applyFlag settings) s t, true)
    | _ => c.badArgument s.display "expected one argument"

/-! ## Command lines -/

/-- Reads words.  Gives the settings, the words that nothing takes, and the positionals
that got none. -/
def readWords (c : Command σ) (positionals : List (Positional σ)) (settings : σ)
    (left : List Text) (words : List (Word σ)) :
    Except Stop (σ × List Text × List (Positional σ)) :=
  match words with
  | [] => do
    let (_, positionals, settings) ← readPositionals [] settings positionals
    return (settings, left, positionals)
  | .option t hit? :: rest =>
    match hit? with
    | none => readWords c positionals settings (left ++ [t]) rest
    | some hit => do
      let (settings, takesNext) ← c.readOption hit rest settings
      readWords c positionals settings left (if takesNext then rest.drop 1 else rest)
  | word :: rest => do
    let (n, positionals, settings) ← readPositionals (word :: rest) settings positionals
    if ! rest.any (·.isOption) then
      return (settings, left ++ ((word :: rest).drop n).map (·.text), positionals)
    else if 0 < n then readWords c positionals settings left (rest.drop (n - 1))
    else
      readWords c positionals settings
        (left ++ (word :: rest.takeWhile (! ·.isOption)).map (·.text))
        (rest.dropWhile (! ·.isOption))
termination_by words.length
decreasing_by
  · exact Nat.lt_succ_self _
  · split <;> simp only [List.length_cons, List.length_drop] <;> omega
  · simp only [List.length_cons, List.length_drop]
    omega
  · exact Nat.lt_succ_of_le (List.dropWhile_suffix _).length_le

/-- Reads a command line, which must give each positional that needs a word one. -/
def readKnown (c : Command σ) (settings : σ) (line : List Text) :
    Except Stop (σ × List Text) := do
  let words ← c.classifyAll line
  let (settings, left, positionals) ← c.readWords c.positionals settings [] words
  let missing := positionals.filter fun p => p.extent ≠ .atMostOne
  if missing.isEmpty then return (settings, left)
  else
    c.misuse (("the following arguments are required: " : Text)
      ++ Text.join ", " (missing.map (·.name)))

/-- Refuses words that nothing takes. -/
def refuse (c : Command σ) (left : List Text) : Except Stop Unit :=
  if left.isEmpty then .ok ()
  else c.misuse (("unrecognized arguments: " : Text) ++ Text.join " " left)

end Command

/-- The option that asks for help. -/
def helpSwitch {σ : Type} : Switch σ := ⟨["-h", "--help"], .help⟩

/-- What is wrong with a value that is none of the choices. -/
def invalidChoice (t : Text) (choices : List Text) : Text :=
  ("invalid choice: " : Text) ++ t.quoted ++ (" (choose from " : Text)
    ++ Text.join ", " (choices.map Text.quoted) ++ (")" : Text)

end ModuleDocs
