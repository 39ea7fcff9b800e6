import JvmClass.Name

/-!
Trees of files: the files under one root, by the names on the way to them.  A directory is there
when a file is below it, and the root always is.  A path is followed name by name.  Every step
starts from a directory, the steps that stay or lead up included, so a path through a file, or
through something that is not there, leads nowhere.
-/

namespace JvmClass

abbrev Route := List (List Char)

structure FileTree where
  files : List (Route × List UInt8)

namespace FileTree

def empty : FileTree := ⟨[]⟩

def staysPut (name : List Char) : Bool := name == [] || name == ['.']

/-- Where one name leads.  Two dots lead up, and nothing is above the root. -/
def step? (here : Route) (name : List Char) : Option Route :=
  if staysPut name then some here
  else if name = ['.', '.'] then
    match here with
    | [] => none
    | _ :: _ => some here.dropLast
  else some (here ++ [name])

/-- The route that a path spells, with the steps up and those that stay worked out. -/
def routeOf (path : String) : Route :=
  (Name.segments path.toList).foldl (fun here name => (step? here name).getD here) []

def insert (path : String) (bytes : List UInt8) (t : FileTree) : FileTree :=
  ⟨t.files.filter (·.1 != routeOf path) ++ [(routeOf path, bytes)]⟩

def ofList (files : List (String × List UInt8)) : FileTree :=
  files.foldl (fun t (path, bytes) => t.insert path bytes) empty

def file? (t : FileTree) (here : Route) : Option (List UInt8) :=
  (t.files.find? (·.1 == here)).map (·.2)

def below (t : FileTree) (here : Route) : List (Route × List UInt8) :=
  t.files.filterMap fun (route, bytes) =>
    if here.isPrefixOf route && here.length < route.length then
      some (route.drop here.length, bytes)
    else none

def isDirectory (t : FileTree) (here : Route) : Bool := here.isEmpty || !(t.below here).isEmpty

/-- Where names lead from a place, one after the other.  The last of them need not be there. -/
def follow? (t : FileTree) (here : Route) : Route → Option Route
  | [] => some here
  | name :: names =>
    if t.isDirectory here then (step? here name).bind fun here => t.follow? here names else none

end FileTree

end JvmClass
