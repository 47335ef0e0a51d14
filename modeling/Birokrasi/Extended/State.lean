import Birokrasi.Extended.Store
import Birokrasi.Files
import Birokrasi.Json.Write
import Birokrasi.Random.Source
import Birokrasi.Value.Convert

/-!
# The extended language: state

A project as in the classic language, with variables, functions, shared containers, files, databases and
the web: `HambaRuntime` of the second version.
-/

namespace Birokrasi.Extended

structure Function where
  params : List String
  body : Array String

/-! ## Services -/

structure Replies where
  rows : List (List Value) := []
  rowCount : Value := .int (-1)
  failure : Option String := none

inductive Connection where
  /-- A database in memory, which no statement is ever sent to. -/
  | memory
  | remote (replies : Replies)

inductive WebReply where
  | page (status : Value) (body : String) (headers : Table String String)
  | failure (text : String)

inductive Request where
  | connect (target : String)
  | execute (query : String)
  | commit
  | closeCursor
  | closeConnection
  | get (url : String)
  | post (url : String) (data : Value)

def webPatience : Nat := 10

/-- A request in words, without the data that is sent along. -/
def Request.text : Request → String
  | .connect target => "connect " ++ target
  | .execute query => "execute " ++ query
  | .commit => "commit"
  | .closeCursor => "cursor.close"
  | .closeConnection => "close"
  | .get url => "GET " ++ url ++ " " ++ toString webPatience
  | .post url _ => "POST " ++ url ++ " " ++ toString webPatience

/-! ## Failures -/

inductive Failure where
  | fault (f : Fault)
  | unknownStatement (line : String)
  | atLine (line : Nat) (message : String)
  | functionForm
  | functionWithoutEnd (name : String)
  | notIterable
  | loopForm
  | unknownLoop
  | unknownFunction (name : String)
  | argumentCount (name : String) (wanted given : Nat)
  | badAssignment (line : String)
  | notAnArray (name : String)
  | notAContainer (name : String)
  | indexOutside (index : Int)
  | keyMissing (key : String)
  | unboundName (name : String)
  | objectForm (pair : String)
  | builtinArguments (name : String) (wanted : Nat)
  | lengthKind
  | firstNotArray
  | cannotEvaluate (text : String)
  | badOperation (text : String)
  | unknownOperator (sign : String)
  | unclosed (text : String)
  | percentRange
  | cannotWrite (reason : String)
  | cannotRead (reason : String)
  | cannotConnect (reason : String)
  | notConnected (name : String)
  | cannotQuery (reason : String)
  | noWeb
  | requestFailed (reason : String)
  /-- The evaluation was cut off before it came to an end. -/
  | unfinished

def Failure.message : Failure → String
  | .fault f => f.message
  | .unknownStatement line => "Syntax tidak dikenali: " ++ line
  | .atLine line message => "Error pada baris " ++ toString line ++ ": " ++ message
  | .functionForm => "Format fungsi salah. Gunakan: fungsi nama(param1, param2)"
  | .functionWithoutEnd name => "Function " ++ name ++ " tidak memiliki 'akhir'"
  | .notIterable => "'dalam' membutuhkan array/list"
  | .loopForm => "Format loop salah"
  | .unknownLoop => "Format loop tidak valid"
  | .unknownFunction name => "Function '" ++ name ++ "' tidak ditemukan"
  | .argumentCount name wanted given =>
    "Function " ++ name ++ " butuh " ++ toString wanted ++ " parameter, diberikan " ++ toString given
  | .badAssignment line => "Assignment tidak valid: " ++ line
  | .notAnArray name => name ++ " bukan array"
  | .notAContainer name => name ++ " bukan array atau object"
  | .indexOutside index => "Index " ++ Decimal.intText index ++ " di luar jangkauan"
  | .keyMissing key => "Key '" ++ key ++ "' tidak ditemukan"
  | .unboundName name => "Variable '" ++ name ++ "' tidak ditemukan"
  | .objectForm pair => "Format object salah: " ++ pair
  | .builtinArguments name wanted => name ++ "() butuh " ++ toString wanted ++ " parameter"
  | .lengthKind => "panjang() hanya untuk string/array/object"
  | .firstNotArray => "Parameter pertama harus array"
  | .cannotEvaluate text => "Tidak dapat mengevaluasi: " ++ text
  | .badOperation text => "Operasi binary tidak valid: " ++ text
  | .unknownOperator sign => "Operator tidak dikenal: " ++ sign
  | .unclosed text => "Unclosed parentheses in: " ++ text
  | .percentRange => "Persentase korupsi harus 0-100"
  | .cannotWrite reason => "Gagal menulis file: " ++ reason
  | .cannotRead reason => "Gagal membaca file: " ++ reason
  | .cannotConnect reason => "Gagal koneksi database: " ++ reason
  | .notConnected name => "Database '" ++ name ++ "' tidak terhubung"
  | .cannotQuery reason => "Gagal menjalankan query: " ++ reason
  | .noWeb => "Library 'requests' tidak terinstall"
  | .requestFailed reason => "HTTP request gagal: " ++ reason
  | .unfinished => "unfinished"

/-! ## State -/

structure State where
  budget : Value := .int 1000000000
  status : String := "Direncanakan"
  progress : Value := .int 0
  «variables» : Table String Value := []
  functions : Table String Function := []
  store : Store := #[]
  reports : List String := []
  finished : Bool := false
  /-- A loop is being left. -/
  breaking : Bool := false
  /-- A loop goes on with its next round. -/
  continuing : Bool := false
  /-- A function is being left. -/
  returning : Bool := false
  /-- What the function left last gave back. -/
  result : Value := .none
  connections : Table String Connection := []
  server : Option Replies := none
  web : Option WebReply := none
  files : Files := []
  requests : Array Request := #[]
  chance : Source
  printed : Array String := #[]
  waits : Array Value := #[]

/-- An action on the state, which keeps the changes made before a failure. -/
abbrev Run := ExceptT Failure (StateM State)

def ofFault {α : Type} (r : Except Fault α) : Run α :=
  match r with
  | .ok a => pure a
  | .error f => throw (.fault f)

def report (text : String) : Run Unit :=
  modify fun s => { s with reports := text :: s.reports, printed := s.printed.push (text ++ "\n") }

def State.output (s : State) : String := "\n".intercalate s.reports.reverse

def wait (time : Value) : Run Unit := do
  ofFault time.waitable
  modify fun s => { s with waits := s.waits.push time }

def draw {α : Type} (f : Source → α × Source) : Run α := do
  let s ← get
  let (a, chance) := f s.chance
  set { s with chance }
  return a

def request (r : Request) : Run Unit := modify fun s => { s with requests := s.requests.push r }

/-! ## Conversions -/

def figureOf (v : Value) : Value := .float (v.asFloat.toOption.getD 0.0)

def State.shown (s : State) (v : Value) : String := (s.store.view v).shown

/-- The text of a value in reports: containers are written as JSON. -/
def State.textOf (s : State) (v : Value) : Except Fault String :=
  match v with
  | .none => .ok "kosong"
  | .bool b => .ok (if b then "benar" else "salah")
  | .listRef _ | .recordRef _ => Json.write false (s.store.view v)
  | v => .ok (s.shown v)

def textOf (v : Value) : Run String := do ofFault ((← get).textOf v)

def floatOf (v : Value) : Run Float := ofFault v.asFloat

def indexOf (v : Value) : Run Int := do ofFault (Number.intOfFloat (← floatOf v))

/-! ## Variables -/

/-- Gives a name a value. The figures of the project are kept as doubles and as a text. -/
def State.assign (s : State) (name : String) (v : Value) : State :=
  if name = "anggaran" then { s with budget := figureOf v }
  else if name = "status_proyek" then { s with status := s.shown v }
  else if name = "progress" then { s with progress := figureOf v }
  else { s with «variables» := s.variables.put name v }

def State.lookup (s : State) (name : String) : Except Failure Value :=
  if name = "anggaran" then .ok s.budget
  else if name = "status_proyek" then .ok (.text s.status)
  else if name = "progress" then .ok s.progress
  else
    match s.variables.get? name with
    | some v => .ok v
    | none => .error (.unboundName name)

def assign (name : String) (v : Value) : Run Unit := modify (·.assign name v)

def lookup (name : String) : Run Value := do
  match (← get).lookup name with
  | .ok v => return v
  | .error e => throw e

def newList (items : Array Value) : Run Value := do
  let s ← get
  let (v, store) := s.store.newList items
  set { s with store }
  return v

def newRecord (entries : List (Value × Value)) : Run Value := do
  let s ← get
  let (v, store) := s.store.newRecord entries
  set { s with store }
  return v

def intern (v : Value) : Run Value := do
  let s ← get
  let (v, store) := s.store.intern v
  set { s with store }
  return v

end Birokrasi.Extended
