import Birokrasi.Table
import Birokrasi.Text.Split
import Birokrasi.Value.Fault

/-!
# Files

A folder of files, some of which may lie in folders inside it. Files are named by the folders that
lead to them.
-/

namespace Birokrasi

open Birokrasi.Text

abbrev Files := Table String Bytes

namespace Files

inductive Place where
  | file (name : String)
  | folder
  /-- Nothing, in a folder that exists. -/
  | free (name : String)
  /-- Nothing, and no folder either. -/
  | nowhere
  /-- The path leads through a file. -/
  | throughFile
  | tooLong
  | outside

/-- The steps of a path: names between slashes, with those left out that stay in place. A step
upwards takes the last one back; `none` if it leaves the folder. -/
def steps? (path : String) : Option (List String) :=
  (splitOn '/' path.toList).foldl (fun done step => do
    let done ← done
    if step.isEmpty || step = ['.'] then return done
    else if step = ['.', '.'] then
      match done with
      | [] => none
      | _ :: rest => return rest
    else return String.ofList step :: done) (some [])
  |>.map List.reverse

def hasFolder (files : Files) (name : String) : Bool :=
  files.any fun e => startsWith e.1.toList (name.toList ++ ['/'])

/-- The first step of a way that is no folder, as a place. -/
def obstacle? (files : Files) : (before : List String) → List String → Option Place
  | _, [] | _, [_] => none
  | before, step :: rest =>
    let name := "/".intercalate (before ++ [step])
    if files.has name then some .throughFile
    else if hasFolder files name then obstacle? files (before ++ [step]) rest
    else some .nowhere

def nameLimit : Nat := 255

def locate (files : Files) (path : String) : Place :=
  if path.isEmpty then .nowhere
  else
    match steps? path with
    | none => .outside
    | some [] => .folder
    | some way =>
      if path.toList.head? = some '/' then .nowhere
      else
        match obstacle? files [] way with
        | some place => place
        | none =>
          let name := "/".intercalate way
          if way.any fun s => nameLimit < (encodeUtf8 s).length then .tooLong
          else if files.has name then
            if path.toList.getLast? = some '/' then .throughFile else .file name
          else if hasFolder files name then .folder
          else if path.toList.getLast? = some '/' then .nowhere
          else .free name

def Place.fault (path : String) : Place → Fault
  | .folder | .outside => .isDirectory path
  | .throughFile => .notDirectory path
  | .tooLong => .nameTooLong path
  | .file _ | .free _ | .nowhere => .noSuchFile path

def checkPath (path : String) : Except Fault Unit :=
  if path.toList.contains '\x00' then .error .embeddedZero else .ok ()

def read (files : Files) (path : String) : Except Fault Bytes := do
  checkPath path
  match files.locate path with
  | .file name => return (files.get? name).getD []
  | place => throw (place.fault path)

def present (files : Files) (path : String) : Bool :=
  match files.locate path with
  | .file _ | .folder | .outside => true
  | _ => false

def write (files : Files) (path : String) (bytes : Bytes) : Except Fault Files := do
  checkPath path
  match files.locate path with
  | .file name | .free name => return files.put name bytes
  | place => throw (place.fault path)

def readText (files : Files) (path : String) : Except Fault String := do
  match textOfFile (← files.read path) with
  | .ok s => return s
  | .error e => throw (.notText e)

def writeText (files : Files) (path text : String) : Except Fault Files :=
  files.write path (encodeUtf8 text)

end Files

end Birokrasi
