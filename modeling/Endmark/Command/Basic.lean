import Endmark.Compilation

/-!
# The command line

Options are read from the left to the right.  One that takes a value takes what follows it
after an equals sign, right away in the short form, or as the next argument; a value that
looks like an option is none.  Short options without values can be written together.
-/

namespace Endmark

/-- What can be made of a source. -/
inductive Command.Form where
  | program
  | ir
  | listing
deriving DecidableEq, Repr, Inhabited

def Command.Form.ofName? (name : String) : Option Command.Form :=
  match name with
  | "exe" => some .program
  | "ir" => some .ir
  | "asm" => some .listing
  | _ => none

/-- What the arguments ask for. -/
structure Command where
  /-- The source, or what is read from the standard input. -/
  input : Option String := none
  output : Option String := none
  library : Option String := none
  withoutLibrary : Bool := false
  form : Option Command.Form := none
  run : Bool := false
  /-- How often more notes are asked for. -/
  verbosity : Nat := 0
deriving DecidableEq, Repr, Inhabited

namespace Command

/-- Why nothing is done. -/
inductive Usage where
  | help
  | wrong
deriving DecidableEq, Repr

/-- The options with a value. -/
inductive Setting where
  | input
  | output
  | library
  | form
deriving DecidableEq, Repr

/-- The options without values. -/
inductive Switch where
  | withoutLibrary
  | run
  | verbose
  | help
deriving DecidableEq, Repr

inductive Meaning where
  | setting (s : Setting)
  | switch (s : Switch)
deriving DecidableEq, Repr

/-- What a long option means. -/
def long? (name : String) : Option Meaning :=
  match name with
  | "input" => some (.setting .input)
  | "output" => some (.setting .output)
  | "stdlib" => some (.setting .library)
  | "emit" => some (.setting .form)
  | "no-stdlib" => some (.switch .withoutLibrary)
  | "run" => some (.switch .run)
  | "verbose" => some (.switch .verbose)
  | "help" | "version" => some (.switch .help)
  | _ => none

/-- What a letter means. -/
def short? (letter : Char) : Option Meaning :=
  match letter with
  | 'i' => some (.setting .input)
  | 'o' => some (.setting .output)
  | 'v' => some (.switch .verbose)
  | 'h' | 'V' => some (.switch .help)
  | _ => none

/-- Can the argument be the value of an option before it? -/
def isValue (arg : String) : Bool :=
  !arg.startsWith "-" || arg == "-"

def onePath (held : Option String) (value : String) : Except Usage (Option String) :=
  if held.isSome || value.isEmpty then .error .wrong else .ok (some value)

/-- Sets an option with a value, which can be done once. -/
def set (c : Command) (s : Setting) (value : String) : Except Usage Command :=
  match s with
  | .input => (onePath c.input value).map fun v => { c with input := v }
  | .output => (onePath c.output value).map fun v => { c with output := v }
  | .library => (onePath c.library value).map fun v => { c with library := v }
  | .form =>
    match c.form, Form.ofName? value with
    | none, some form => .ok { c with form := some form }
    | _, _ => .error .wrong

/-- Turns a switch on; those that say how much can be given again. -/
def turnOn (c : Command) : Switch → Except Usage Command
  | .withoutLibrary =>
    if c.withoutLibrary then .error .wrong else .ok { c with withoutLibrary := true }
  | .run => if c.run then .error .wrong else .ok { c with run := true }
  | .verbose => .ok { c with verbosity := c.verbosity + 1 }
  | .help => .error .help

/-- Reads short options that are written together.  Gives the one that still needs a value, if
there is one. -/
def letters (c : Command) : List Char → Except Usage (Command × Option Setting)
  | [] => .ok (c, none)
  | letter :: rest =>
    match short? letter with
    | none => .error .wrong
    | some (.switch s) => do
      let c ← c.turnOn s
      letters c rest
    | some (.setting s) =>
      match rest with
      | [] => .ok (c, some s)
      | '=' :: value => (c.set s (String.ofList value)).map (·, none)
      | value => (c.set s (String.ofList value)).map (·, none)

/-- Reads a long option without its dashes. -/
def word (c : Command) (text : List Char) : Except Usage (Command × Option Setting) :=
  match Text.cut? '=' text with
  | some (name, value) =>
    match long? (String.ofList name) with
    | some (.setting s) => (c.set s (String.ofList value)).map (·, none)
    | _ => .error .wrong
  | none =>
    match long? (String.ofList text) with
    | some (.setting s) => .ok (c, some s)
    | some (.switch s) => (c.turnOn s).map (·, none)
    | none => .error .wrong

/-- Reads an argument.  A setting may wait for the next one. -/
def argument (c : Command) (arg : String) : Except Usage (Command × Option Setting) :=
  match arg.toList with
  | '-' :: '-' :: text => c.word text
  | ['-'] => .error .wrong
  | '-' :: text => c.letters text
  | _ => .error .wrong

/-- Reads arguments.  `pending` is the option that still needs a value.  Two dashes end the
options, and nothing may follow them. -/
def arguments (c : Command) (pending : Option Setting) : List String → Except Usage Command
  | [] => if pending.isSome then .error .wrong else .ok c
  | arg :: rest =>
    match pending with
    | some s =>
      if isValue arg then do
        let c ← c.set s arg
        arguments c none rest
      else
        .error .wrong
    | none =>
      if arg = "--" then
        if rest.isEmpty then .ok c else .error .wrong
      else do
        let (c, pending) ← c.argument arg
        arguments c pending rest

/-- Reads the command line.  A library cannot be both given and left out. -/
def parse (args : List String) : Except Usage Command := do
  let c ← arguments {} none args
  if c.library.isSome && c.withoutLibrary then throw .wrong else return c

/-- Where the units of the library come from. -/
def libraryRoot (c : Command) : Compilation.LibraryRoot :=
  if c.withoutLibrary then .none
  else
    match c.library with
    | some root => .folder root
    | none => .bundled

end Command

end Endmark
