/-! # Arguments

A command line names a command and what it works on. Options may stand before the command and after
it; what is given after it counts first. Words are read from left to right and the first one that
decides, a request for help or a word out of place, ends the reading. -/

namespace Lox.CommandLine

/-- What can be done with a source. -/
inductive Action where
  | tokenize
  | parse (json : Bool)
  | evaluate
  | run
deriving DecidableEq, Repr

/-- What the program is to do: work on a file, or run lines from a prompt. -/
inductive Command where
  | file (name : String) (action : Action)
  | prompt
deriving DecidableEq, Repr

/-- What a command line asks for. -/
inductive Invocation where
  | help
  | version
  | usageError
  /-- A command, and the file to log to if there is to be a log. -/
  | command (log : Option String) (c : Command)
deriving DecidableEq, Repr

/-- The words that name a command. -/
inductive Verb where
  | tokenize | parse | evaluate | run
deriving DecidableEq, Repr

def Verb.ofWord? : String → Option Verb
  | "tokenize" => some tokenize
  | "parse" => some parse
  | "evaluate" => some evaluate
  | "run" => some run
  | _ => none

/-- The shapes of words. -/
inductive Word where
  /-- Two dashes: no option and no command follows. -/
  | separator
  | long (name : String) (value : Option String)
  | short (first : Char)
  | plain
deriving DecidableEq, Repr

def Word.ofString (s : String) : Word :=
  match s.toList with
  | ['-', '-'] => separator
  | '-' :: '-' :: rest =>
    let name := String.ofList (rest.takeWhile (· != '='))
    match rest.dropWhile (· != '=') with
    | [] => long name none
    | _ :: value => long name (some (String.ofList value))
  | '-' :: first :: _ => short first
  | _ => plain

/-- What has been given before the command, or after it. -/
structure Given where
  log : Bool
  logFile : Option String
  json : Bool
  file : Option String
  /-- The next word is the value of an option. -/
  awaitsValue : Bool
  /-- The last value is refused, which shows when the next word is read. -/
  refused : Bool

def Given.nothing : Given := ⟨false, none, false, none, false, false⟩

/-- The name of the log file: it may be given once, and may not be empty. -/
def Given.admitsLogFile (given : Given) (name : String) : Bool :=
  !name.isEmpty && given.logFile.isNone

/-- Reads the word after an option that takes a value. -/
def takeValue (given : Given) (word : String) : Except Invocation Given :=
  if Word.ofString word = .plain then
    .ok { given with
      awaitsValue := false, logFile := some word, refused := !given.admitsLogFile word }
  else .error .usageError

/-- Reads an option before the command (`verb` is nothing) or after it. -/
def readOption (verb : Option Verb) (given : Given) (word : Word) : Except Invocation Given :=
  match word with
  | .long "log-file" none => .ok { given with awaitsValue := true }
  | .long "log-file" (some name) =>
    if given.admitsLogFile name then .ok { given with logFile := some name }
    else .error .usageError
  | .long "log" none => if given.log then .error .usageError else .ok { given with log := true }
  | .long "help" none | .short 'h' => .error .help
  | .long "version" none | .short 'V' => .error (if verb.isNone then .version else .usageError)
  | .long "json" none =>
    if verb = some .parse ∧ !given.json then .ok { given with json := true }
    else .error .usageError
  | _ => .error .usageError

/-- The words after `help`: at most one, the name of a command. -/
def helpFor : List String → Invocation
  | [] => .help
  | [word] => if (Verb.ofWord? word).isSome ∨ word = "help" then .help else .usageError
  | _ => .usageError

/-- The action of a verb. -/
def actionOf (verb : Verb) (given : Given) : Action :=
  match verb with
  | .tokenize => .tokenize
  | .parse => .parse given.json
  | .evaluate => .evaluate
  | .run => .run

/-- The command that a verb and what stands after it make. Only `run` goes without a file. -/
def commandOf (verb : Verb) (given : Given) : Option Command :=
  match given.file, verb with
  | some name, _ => some (.file name (actionOf verb given))
  | none, .run => some .prompt
  | none, _ => none

/-- The invocation, once all words are read. -/
def conclude (before : Given) (verb : Verb) (after : Given) : Invocation :=
  if after.awaitsValue || after.refused then .usageError
  else
    match commandOf verb after with
    | none => .usageError
    | some c =>
      let logFile := (after.logFile.or before.logFile).getD "app.log"
      .command (if before.log || after.log then some logFile else none) c

/-- Takes a file name, of which there may be one. -/
def takeFile (given : Given) (name : String) : Except Invocation Given :=
  if name.isEmpty || given.file.isSome then .error .usageError
  else .ok { given with file := some name }

/-- Reads a word after the command. -/
def readWord (verb : Verb) (given : Given) (word : String) : Except Invocation Given :=
  if given.awaitsValue then takeValue given word
  else if given.refused then .error .usageError
  else
    match Word.ofString word with
    | .plain => takeFile given word
    | option => readOption (some verb) given option

/-- Reads the words after the command. Behind the separator stand file names only. -/
def readAfter (before : Given) (verb : Verb) (given : Given) : List String → Invocation
  | [] => conclude before verb given
  | word :: rest =>
    if word = "--" ∧ !given.awaitsValue ∧ !given.refused then
      match rest.foldlM takeFile given with
      | .ok given => conclude before verb given
      | .error i => i
    else
      match readWord verb given word with
      | .ok given => readAfter before verb given rest
      | .error i => i

/-- Reads the words up to the command. Help on a command is given whatever the last value was. -/
def readBefore (given : Given) : List String → Invocation
  | [] => .usageError
  | word :: rest =>
    if given.awaitsValue then
      match takeValue given word with
      | .ok given => readBefore given rest
      | .error i => i
    else if word = "help" then helpFor rest
    else if given.refused then .usageError
    else
      match Verb.ofWord? word with
      | some verb => readAfter given verb .nothing rest
      | none =>
        match readOption none given (.ofString word) with
        | .ok given => readBefore given rest
        | .error i => i

/-- What the words of a command line ask for. -/
def Invocation.ofWords (words : List String) : Invocation := readBefore .nothing words

end Lox.CommandLine
