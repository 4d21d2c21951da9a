import ArrowCalc.Mode

/-!
# What the program does

With a path, the file is processed as one source. Without one, each line of the standard input is a
source of its own, read after a prompt. Output goes to the standard output, failures to the standard
error.

Everything is a function of what was asked for, the files and the input; the answer is a `Response`.
How the arguments are read is no part of it: `Options.run` starts where they have been read.
-/

namespace ArrowCalc

namespace CommandLine

/-- How deep evaluations may be nested. -/
def depthLimit : Nat := 100000

/-! ### Responses -/

/-- What is written to the standard output and the standard error, and the exit code. -/
structure Response where
  code : Nat
  stdout : String
  stderr : String
deriving DecidableEq

namespace Response

/-- Writes text to the standard output. -/
def out (text : String) : Response := ⟨0, text, ""⟩

/-- Stops with a line on the standard error. -/
def stop (code : Nat) (line : String) : Response := ⟨code, "", line ++ "\n"⟩

/-- One response after another, which is lost if the first one stops the program. -/
def followedBy (r s : Response) : Response :=
  if r.code = 0 then ⟨s.code, r.stdout ++ s.stdout, r.stderr ++ s.stderr⟩ else r

end Response

/-- Whether a text is that of a failure. -/
def isFailure (text : String) : Bool := Mode.errorMark.toList.isPrefixOf text.toList

/-- Writes a line to the standard error if it is that of a failure, else to the standard output. -/
def report (text : String) : Response :=
  if isFailure text then ⟨0, "", text ++ "\n"⟩ else .out (text ++ "\n")

/-! ### Files -/

/-- Why the text of a file is not known. -/
inductive ReadFailure where
  | missing
  | directory
  | notText
  | other (reason : String)
deriving DecidableEq

/-- What the user is told about a file that cannot be read. -/
def ReadFailure.message : ReadFailure → String
  | missing => "No such file or directory (os error 2)"
  | directory => "Is a directory (os error 21)"
  | notText => "stream did not contain valid UTF-8"
  | other reason => reason

/-- The text that bytes encode in UTF-8. -/
def decode (bytes : List UInt8) : Except ReadFailure String :=
  match String.fromUTF8? bytes.toByteArray with
  | some text => .ok text
  | none => .error .notText

/-- Processes a file, whose bytes were read under the name `path`. -/
def runFile (mode : Mode) (path : String) (content : Except ReadFailure (List UInt8)) :
    Response :=
  match content.bind decode with
  | .ok source => report (mode.render depthLimit source)
  | .error failure => .stop 1 ("Failed to read " ++ path ++ ": " ++ failure.message)

/-! ### Interaction -/

/-- What is written in front of each line. -/
def prompt : Response := .out "> "

/-- Answers one line. A line that is not text stops the program. -/
def reply (mode : Mode) (line : List UInt8) : Response :=
  match decode line with
  | .ok source => report (mode.render depthLimit source)
  | .error failure =>
    .stop 1 ("Error: Error \x7b kind: InvalidData, message: \"" ++ failure.message ++ "\" \x7d")

/-- Ends the interaction, at the end of the input. -/
def farewell : Response := .out "\n"

/-- The lines of the input, each with the line feed at its end; the last one may lack it. -/
def inputLines : List UInt8 → List (List UInt8)
  | [] => []
  | b :: bs =>
    if b = 10 then [b] :: inputLines bs
    else
      match inputLines bs with
      | [] => [[b]]
      | line :: lines => (b :: line) :: lines

/-- Nothing is left out: the lines of the input spell the input. -/
theorem flatten_inputLines (bytes : List UInt8) : (inputLines bytes).flatten = bytes := by
  fun_induction inputLines bytes with
  | case1 => rfl
  | case2 bs ih => rw [List.flatten_cons, ih]; rfl
  | case3 b bs hb hl ih => rw [hl] at ih; rw [← ih]; rfl
  | case4 b bs hb line lines hl ih => rw [hl] at ih; rw [← ih]; rfl

/-- Answers line after line. -/
def interact (mode : Mode) : List (List UInt8) → Response
  | [] => prompt.followedBy farewell
  | line :: lines => prompt.followedBy ((reply mode line).followedBy (interact mode lines))

/-! ### The whole program -/

/-- What the program is asked for: perhaps a file to process, and the name of a mode. -/
structure Options where
  path : Option String
  mode : String
deriving DecidableEq

/-- Runs the program with the files it can read and its standard input, which is not touched if a
file is given. -/
def Options.run (o : Options) (files : String → Except ReadFailure (List UInt8))
    (stdin : List UInt8) : Response :=
  match o.path with
  | some path => runFile (Mode.ofName o.mode) path (files path)
  | none => interact (Mode.ofName o.mode) (inputLines stdin)

end CommandLine

end ArrowCalc
