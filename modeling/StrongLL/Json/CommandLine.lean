import StrongLL.Json.Grammar

/-!
# StrongLL.Json.CommandLine

Checking JSON files: every file that is no JSON document is reported, and trees and events are
printed if asked for.

* `Options`    — what the arguments ask for.
* `FileReport` — what is printed about one file.
* `Report`     — what is printed in all, and whether a file failed.
-/

namespace StrongLL

namespace Json

structure Options where
  files : List String := []
  showTree : Bool := false
  /-- Events of a level are printed if it was asked for that often. -/
  verbosity : Nat := 0
deriving DecidableEq, Repr

namespace Options

def flag (o : Options) : Char → Option Options
  | 't' => some { o with showTree := true }
  | 'v' => some { o with verbosity := o.verbosity + 1 }
  | _ => none

/-- Single letters after one hyphen may be bundled; everything else is a file. -/
def argument (o : Options) (arg : String) : Option Options :=
  match arg.toList with
  | ['-'] => some { o with files := o.files ++ [arg] }
  | '-' :: '-' :: _ => if arg = "--tree" then some { o with showTree := true } else none
  | '-' :: letters => letters.foldlM flag o
  | _ => some { o with files := o.files ++ [arg] }

/-- At least one file has to be named. -/
def read? (args : List String) : Option Options :=
  (args.foldlM argument {}).filter (!·.files.isEmpty)

end Options

/-- What is known of a file: its text, or why it cannot be read. -/
abbrev FileContent := Except String String

def noSuchFile : FileContent := .error "No such file or directory (os error 2)"

def notUnicode : FileContent := .error "stream did not contain valid UTF-8"

/-- Lines to print, and whether the file is a JSON document. -/
structure FileReport where
  failed : Bool
  output : List String
  errors : List String
deriving DecidableEq, Repr

def eventLines (o : Options) (events : List Event) : List String :=
  (events.filter (·.level.rank ≤ o.verbosity)).map fun e => e.level.label ++ " - " ++ e.text

/-- A line per node, indented by two blanks for each tree around it. -/
def treeLines (p : Parser) (depth : Nat) : TreeNode → List String
  | .token t => [indent ++ p.vocabulary.name t.kind ++ " " ++ t.image]
  | .tree rule children => (indent ++ p.ruleName rule) :: treesLines (depth + 1) children
where
  indent : String := String.ofList (List.replicate (2 * depth) ' ')
  treesLines (depth : Nat) : List TreeNode → List String
    | [] => []
    | n :: rest => treeLines p depth n ++ treesLines depth rest

def fileReport (r : Reader) (o : Options) (path : String) : FileContent → FileReport
  | .error reason =>
    ⟨true, [], eventLines o [⟨.debug, "parsing " ++ path⟩] ++ [path ++ ": " ++ reason]⟩
  | .ok text =>
    let events := ⟨.debug, "parsing " ++ path⟩ :: r.readEvents text
    match r.read text with
    | .error e =>
      ⟨true, [], eventLines o events ++ [path ++ ": " ++ e.message r.parser.mismatchNames]⟩
    | .ok tree =>
      let counted : Event := ⟨.info, s!"{path}: {tree.tokenCount} tokens"⟩
      ⟨false, if o.showTree then treeLines r.parser 0 tree.node else [],
        eventLines o (events ++ [counted])⟩

structure Report where
  status : Nat
  output : List String
  errors : List String
deriving DecidableEq, Repr

namespace Report

def usage : Report := ⟨1, [], ["usage: json [-t] [-v]... FILE..."]⟩

def ofFiles (o : Options) (files : List (String × FileContent)) : Report :=
  match Reader.build {} with
  | .error e => ⟨2, [], ["error: " ++ e.message (draft {}).names]⟩
  | .ok r =>
    let reports := files.map fun (path, content) => fileReport r o path content
    ⟨if reports.any (·.failed) then 1 else 0, reports.flatMap (·.output),
      eventLines o (Reader.buildEvents {}) ++ reports.flatMap (·.errors)⟩

/-- The text of lines, each with its line feed. -/
def linesText (lines : List String) : String := String.join (lines.map (· ++ "\n"))

end Report

end Json

end StrongLL
