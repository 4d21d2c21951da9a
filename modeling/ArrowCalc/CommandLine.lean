import ArrowCalc.CommandLine.Basic

/-!
# Arguments

The outermost layer: from the arguments to the options of `Options.run`. It stands for a library
that reads command lines, and covers the forms that the program documents: a path, and a mode as
`-m NAME`, `-mNAME`, `-m=NAME`, `--mode NAME` or `--mode=NAME`, each at most once and in any order.
Behind `--` everything is a path. What has the shape of an option is never taken for the name behind
`-m`.

The texts of help, version and usage are this file's own.
-/

namespace ArrowCalc

namespace CommandLine

/-- How the program is called. -/
def usage : String := "Usage: arrowcalc [PATH] [-m lex|eval|compile|ast]"

/-- The arguments read so far. -/
structure Arguments where
  path : Option String
  mode : Option String
deriving DecidableEq

namespace Arguments

/-- Reading goes on, or ends the program with a response. -/
abbrev Step := Except Response Arguments

/-- No arguments. -/
def empty : Arguments := ⟨none, none⟩

/-- Ends the program, since the arguments do not fit together. -/
def refuse : Step := .error (.stop 2 usage)

/-- Sets the mode, which may be done once. -/
def setMode (a : Arguments) (name : String) : Step :=
  if a.mode.isSome then refuse else .ok { a with mode := name }

/-- Sets the path, which may be done once. -/
def setPath (a : Arguments) (path : String) : Step :=
  if a.path.isSome ∨ path = "" then refuse else .ok { a with path := path }

/-- Whether an argument has the shape of an option. A dash alone is a path. -/
def isOption (arg : String) : Bool :=
  match arg.toList with
  | '-' :: _ :: _ => true
  | _ => false

/-- Takes a single argument: a mode written together with its option, a question about the program,
or a path. -/
def setSingle (a : Arguments) (arg : String) : Step :=
  match arg.toList with
  | '-' :: '-' :: 'm' :: 'o' :: 'd' :: 'e' :: '=' :: name => a.setMode (String.ofList name)
  | '-' :: 'm' :: '=' :: name => a.setMode (String.ofList name)
  | '-' :: 'm' :: name => a.setMode (String.ofList name)
  | '-' :: 'h' :: _ => .error (.out (usage ++ "\n"))
  | '-' :: 'V' :: _ => .error (.out "arrowcalc\n")
  | _ =>
    if arg = "--help" then .error (.out (usage ++ "\n"))
    else if arg = "--version" then .error (.out "arrowcalc\n")
    else if isOption arg then refuse
    else a.setPath arg

/-- Reads the arguments from left to right. -/
def read (a : Arguments) : List String → Step
  | [] => .ok a
  | arg :: args =>
    if arg = "--" then args.foldlM setPath a
    else if arg = "-m" ∨ arg = "--mode" then
      match args with
      | [] => refuse
      | name :: args =>
        if isOption name then refuse else (a.setMode name).bind fun a => a.read args
    else (a.setSingle arg).bind fun a => a.read args

/-- What the arguments ask for. Without a mode this is the default one. -/
def options (a : Arguments) : Options := ⟨a.path, a.mode.getD Mode.default.name⟩

end Arguments

/-- Reads the arguments and runs the program. -/
def run (args : List String) (files : String → Except ReadFailure (List UInt8))
    (stdin : List UInt8) : Response :=
  match Arguments.empty.read args with
  | .error response => response
  | .ok a => a.options.run files stdin

end CommandLine

end ArrowCalc
