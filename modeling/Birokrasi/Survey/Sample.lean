import Birokrasi.Decimal.Read
import Birokrasi.Digest.Sha256
import Birokrasi.Value.Number

/-!
# Samples and their fingerprints

A sample is what a workload gives back. Its fingerprint is the digest of a text in which equal
results are written alike: a list like a tuple, a double in six significant digits, the entries of
a record and the members of a set in the order of their fingerprints. The text is meant for samples of
at most 2000 items that do not lie deep inside one another: how larger ones are shortened is not
described here, and their fingerprints are others.
-/

namespace Birokrasi.Survey

open Birokrasi.Text (Bytes encodeUtf8)

inductive Sample where
  | none
  | truth (b : Bool)
  | whole (n : Int)
  | real (x : Float)
  | complex (re im : Float)
  | text (s : String)
  | octets (growing : Bool) (bytes : Bytes)
  | list (items : List Sample)
  | tuple (items : List Sample)
  | set (frozen : Bool) (members : List Sample)
  | record (entries : List (Sample × Sample))
  /-- A value of a named type that is made of named fields. -/
  | node (kind : String) (fields : List (String × Sample))
  /-- A value of a named type of which only the type is looked at. -/
  | object (home kind : String)

namespace Sample

instance : Inhabited Sample := ⟨.none⟩

def typeName : Sample → String
  | .none => "NoneType"
  | .truth _ => "bool"
  | .whole _ => "int"
  | .real _ => "float"
  | .complex .. => "complex"
  | .text _ => "str"
  | .octets growing _ => if growing then "bytearray" else "bytes"
  | .list _ => "list"
  | .tuple _ => "tuple"
  | .set frozen _ => if frozen then "frozenset" else "set"
  | .record _ => "dict"
  | .node kind _ => kind
  | .object _ kind => kind

/-- A double rounded to six significant digits, without the sign of a zero. -/
def rounded (x : Float) : Float :=
  match Decimal.readFloat? (Decimal.shownBrief x).toList with
  | some y => if y == 0.0 then 0.0 else y
  | Option.none => x

def realText (x : Float) : String := Decimal.shown (rounded x)

/-- Fingerprints in their order, each with what it belongs to. -/
def inOrder (marked : List (String × Bytes)) : List (String × Bytes) :=
  marked.mergeSort fun x y => decide (x.1 ≤ y.1)

def head (letter : String) (count : Nat) : Bytes :=
  encodeUtf8 (letter ++ Decimal.intText count)

mutual

/-- The bytes whose digest is the fingerprint. -/
def written : Sample → Bytes
  | .none => encodeUtf8 "None"
  | .truth b => encodeUtf8 (if b then "True" else "False")
  | .whole n => encodeUtf8 (Decimal.intText n)
  | .real x => encodeUtf8 (realText x)
  | .complex re im => encodeUtf8 ("c" ++ realText re ++ realText im)
  | .text s => encodeUtf8 ("s" ++ s)
  | .octets _ bytes => encodeUtf8 "s" ++ bytes
  | .list items => head "L" items.length ++ writtenItems items
  | .tuple items => head "L" items.length ++ writtenItems items
  | .set _ members =>
    head "S" members.length ++
      (inOrder (markedMembers members)).flatMap fun m => encodeUtf8 m.1
  | .record entries =>
    head "D" entries.length ++ (inOrder (markedEntries entries)).flatMap Prod.snd
  | .node _ fields =>
    head "D" fields.length ++ (inOrder (markedFields fields)).flatMap Prod.snd
  | .object home kind => encodeUtf8 ("<" ++ home ++ "." ++ kind ++ ">")

def writtenItems : List Sample → Bytes
  | [] => []
  | v :: rest => written v ++ writtenItems rest

def markedMembers : List Sample → List (String × Bytes)
  | [] => []
  | v :: rest =>
    let w := written v
    (Digest.digestText w, w) :: markedMembers rest

def markedEntries : List (Sample × Sample) → List (String × Bytes)
  | [] => []
  | (k, v) :: rest =>
    let w := written k
    (Digest.digestText w, w ++ written v) :: markedEntries rest

def markedFields : List (String × Sample) → List (String × Bytes)
  | [] => []
  | (name, v) :: rest =>
    let w := encodeUtf8 ("s" ++ name)
    (Digest.digestText w, w ++ written v) :: markedFields rest

end

def fingerprint (v : Sample) : String := Digest.digestText v.written

/-! ## Equality of members -/

def number? : Sample → Option Number
  | .truth b => some (.int (if b then 1 else 0))
  | .whole n => some (.int n)
  | .real x => some (.float x)
  | _ => Option.none

mutual

/-- Whether two samples count as one member of a set, or as one key of a record. -/
def same : Sample → Sample → Bool
  | .none, .none => true
  | .text s, .text t => s == t
  | .octets _ x, .octets _ y => x == y
  | .tuple xs, .tuple ys => sameItems xs ys
  | x, y =>
    match x.number?, y.number? with
    | some m, some n => m.equal n
    | _, _ => false

def sameItems : List Sample → List Sample → Bool
  | [], [] => true
  | x :: xs, y :: ys => same x y && sameItems xs ys
  | _, _ => false

end

def setOf (frozen : Bool) (members : List Sample) : Sample :=
  .set frozen (members.foldl (fun kept v => if kept.any (same v) then kept else kept ++ [v]) [])

def putEntry (k v : Sample) : List (Sample × Sample) → List (Sample × Sample)
  | [] => [(k, v)]
  | e :: rest => if same k e.1 then (e.1, v) :: rest else e :: putEntry k v rest

/-- A record of the given entries, a later one in place of an earlier one of the same key. -/
def recordOf (entries : List (Sample × Sample)) : Sample :=
  .record (entries.foldl (fun kept e => putEntry e.1 e.2 kept) [])

def shown : Sample → String
  | .none => "None"
  | .truth b => if b then "True" else "False"
  | .whole n => Decimal.intText n
  | .real x => Decimal.shown x
  | .text s => s
  | v => v.typeName

end Sample

end Birokrasi.Survey
