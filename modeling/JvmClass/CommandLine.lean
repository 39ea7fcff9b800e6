import JvmClass.FileTree
import JvmClass.Verify.Verifier

/-!
The command line tool.  It verifies one class file, or all those in a directory, and prints a
verdict for each.  In a directory a class is named by the path of its file, without the extension;
a file by itself is named by an option, or else by its own name, so that any class of that simple
name will do.  All bytes are put in the repository before the first class is verified.
-/

namespace JvmClass

structure Arguments where
  className? : Option String
  newestMajor? : Option UInt16
  skipsFlow : Bool
  path : String
  deriving DecidableEq, Repr

inductive Argument where
  | className (name : String)
  | newestMajor (major : UInt16)
  | skipFlow
  | path (text : String)
  deriving DecidableEq, Repr

/-- What is to be verified: one file, known by its file name, or files by their paths in a
directory. -/
inductive Target where
  | file (fileName : String) (bytes : List UInt8)
  | directory (files : List (String × List UInt8))

structure Report where
  text : String
  status : UInt8
  deriving DecidableEq, Repr

namespace Argument

/-- A version number: digits, perhaps behind a sign, of a number that fits into two bytes. -/
def readMajor? (text : String) : Option UInt16 := do
  let (negative, digits) := match text.toList with
    | '-' :: cs => (true, cs)
    | '+' :: cs => (false, cs)
    | cs => (false, cs)
  guard (!digits.isEmpty && digits.all (·.isDigit))
  let n := digits.foldl (fun n c => n * 10 + (c.toNat - '0'.toNat)) 0
  guard (n ≤ 0xFFFF && (!negative || n == 0))
  return n.toUInt16

def withValue? (option value : String) : Option Argument :=
  match option with
  | "--class" => some (className value)
  | "--max-major-version" => newestMajor <$> readMajor? value
  | _ => none

def startsWithDash (text : String) : Bool := text.toList.head? == some '-'

/-- The arguments in order.  The value of an option follows a sign of equality or is the next
argument, and then it may not look like an option; two dashes end the options. -/
def readAll? : List String → Option (List Argument)
  | [] => some []
  | "--" :: rest => some (rest.map path)
  | "--skip-dataflow" :: rest => (skipFlow :: ·) <$> readAll? rest
  | text :: rest =>
    if !startsWithDash text || text == "-" then (path text :: ·) <$> readAll? rest
    else
      match text.toList.span (· != '=') with
      | (option, _ :: value) => do
        let a ← withValue? (String.ofList option) (String.ofList value)
        return a :: (← readAll? rest)
      | (_, []) =>
        match rest with
        | [] => none
        | value :: rest => do
          guard (!startsWithDash value || value == "-")
          let a ← withValue? text value
          return a :: (← readAll? rest)

end Argument

namespace Arguments

def atMostOne? {α : Type} : List α → Option (Option α)
  | [] => some none
  | [a] => some (some a)
  | _ => none

/-- No option may stand twice, and there has to be one path. -/
def parse? (args : List String) : Option Arguments := do
  let all ← Argument.readAll? args
  let className? ← atMostOne? (all.filterMap fun | .className n => some n | _ => none)
  let newestMajor? ← atMostOne? (all.filterMap fun | .newestMajor n => some n | _ => none)
  let skip? ← atMostOne? (all.filter (· == .skipFlow))
  let path ← (← atMostOne? (all.filterMap fun | .path p => some p | _ => none))
  guard (path != "")
  return ⟨className?, newestMajor?, skip?.isSome, path⟩

def settings (a : Arguments) : Settings :=
  ⟨a.newestMajor?.getD Settings.standard.newestMajor, !a.skipsFlow⟩

end Arguments

namespace Target

/-- A file name up to its last dot, and what stands behind it.  A dot at the front of a name does
not count. -/
def splitExtension (name : List Char) : List Char × Option (List Char) :=
  match name.reverse.span (· != '.') with
  | (extension, _ :: before) =>
    if before.isEmpty then (name, none) else (before.reverse, some extension.reverse)
  | (_, []) => (name, none)

def stem (fileName : String) : String := String.ofList (splitExtension fileName.toList).1

/-- A file name after its extension is taken away, and then the dot in front of that.  Two dots
alone are no file name, so they stay. -/
def withoutExtension (name : List Char) : List Char :=
  match splitExtension name with
  | (['.'], some _) => ['.', '.']
  | (stem, _) => stem

def components (path : List Char) : Route :=
  (Name.segments path).filter (!FileTree.staysPut ·)

/-- What a path leads to in a tree of files.  A path that leads nowhere counts as an empty
directory. -/
def ofTree (t : FileTree) (path : String) : Target :=
  match t.follow? [] (Name.segments path.toList) with
  | none => directory []
  | some here =>
    match t.file? here with
    | some bytes => file (String.ofList (here.getLastD [])) bytes
    | none =>
      directory ((t.below here).map fun (route, bytes) =>
        ("/".intercalate (route.map String.ofList), bytes))

def className? (path : String) : Option String := do
  let parts := components path.toList
  let last ← parts.getLast?
  guard ((splitExtension last).2 == some "class".toList)
  return "/".intercalate ((parts.dropLast ++ [withoutExtension last]).map String.ofList)

def classes (className? : Option String) : Target → List (String × List UInt8)
  | file fileName bytes => [(className?.getD (stem fileName), bytes)]
  | directory files =>
    files.filterMap fun (path, bytes) => (Target.className? path).map (·, bytes)

end Target

namespace Report

def badArguments : Report := ⟨"", 2⟩

def haltStatus : UInt8 := 101

def line (name : String) (v : Verdict) : String :=
  match v with
  | .accepted => s!" - {name} [OK]\n"
  | .rejected why => s!" - {name} [REJECTED] {why.message}\n"

def verdicts (settings : Settings) : List String → Repository → List (String × Verdict) × Option Halt
  | [], _ => ([], none)
  | name :: names, r =>
    match Verifier.verify ⟨r, .named name settings⟩ with
    | .error h => ([], some h)
    | .ok (v, s) =>
      match verdicts settings names s.repository with
      | (vs, h?) => ((name, v) :: vs, h?)

/-- A line for each class; the status says whether all are accepted. -/
def ofClasses (settings : Settings) (classes : List (String × List UInt8)) : Report :=
  let r := classes.foldl (fun r (name, bytes) => r.add name bytes) Repository.empty
  let (vs, h?) := verdicts settings (classes.map (·.1)) r
  let status := if h?.isSome then haltStatus else if vs.all (·.2.isAccepted) then 0 else 1
  ⟨String.join (vs.map fun (name, v) => line name v), status⟩

def ofTarget (a : Arguments) (t : Target) : Report := ofClasses a.settings (t.classes a.className?)

end Report

end JvmClass
