import Birokrasi.Extended.Expression
import Birokrasi.Json.Read

/-!
# The extended language: services

The commands that reach outside of a program: files, databases and the web (`_handle_file_operation`,
`_handle_db_operation`, `_handle_http_operation`). A service is its replies: a server and the web say
what they are given to say. A database in memory is opened and closed, and no statement is carried out on
it.
-/

namespace Birokrasi.Extended

open Birokrasi.Text

def evaluateText (call : Caller) (expr : List Char) : Run String := do
  textOf (← evaluate call expr)

/-! ## Files -/

def writeFile (path content : String) : Run Unit := do
  let s ← get
  match s.files.writeText path content with
  | .error f => throw (.cannotWrite f.message)
  | .ok files =>
    set { s with files }
    report ("✅ File ditulis: " ++ path)

def readFile (target path : String) : Run Unit := do
  match (← get).files.readText path with
  | .error f => throw (.cannotRead f.message)
  | .ok content =>
    assign target (.text content)
    report ("✅ File dibaca: " ++ path)

/-- Executes a command on files. A line that is none does nothing. -/
def fileCommand (call : Caller) (line : List Char) : Run Unit := do
  match (afterName? "tulisFile" line).bind twoArguments? with
  | some (path, content) =>
    let path ← evaluateText call path
    let content ← evaluateText call content
    writeFile path content
  | none =>
    match setTo? "bacaFile" line with
    | some (target, rest) =>
      match shortest? ')' rest with
      | some path => readFile (String.ofList target) (← evaluateText call path)
      | none => pure ()
    | none => pure ()

/-! ## Databases -/

/-- Opens a connection of a kind under a name. A database in memory is taken for an empty one, whatever
its path is. -/
def connect (name kind target : String) : Run Unit := do
  let keep := fun (c : Connection) (product : String) => do
    modify fun s => { s with connections := s.connections.put name c }
    report ("✅ Terhubung ke " ++ product ++ ": " ++ name)
  if kind = "sqlite" then keep .memory "SQLite"
  else if kind = "mysql" then
    match (← get).server with
    | none => throw (.cannotConnect "mysql-connector-python tidak terinstall")
    | some replies =>
      request (.connect target)
      match replies.failure with
      | some reason => throw (.cannotConnect reason)
      | none => keep (.remote replies) "MySQL"
  else throw (.cannotConnect ("Tipe database tidak didukung: " ++ kind))

/-- Whether a character is a letter of a keyword, in either case. The long s and the t with a
diaeresis are cases of their letters. -/
def isCaseOf (letter c : Char) : Bool :=
  c.toUpper = letter || (letter = 'S' && c = 'ſ') || (letter = 'T' && c = 'ẗ')

def asksForRows (query : String) : Bool :=
  let start := (trimStart query.toList).take 6
  start.length = 6 && (List.zipWith isCaseOf "SELECT".toList start).all id

/-- Runs a query and sets a variable to the rows or to the number of rows changed. A database in memory
has none and changes none. -/
def query (target name text : String) : Run Unit := do
  match (← get).connections.get? name with
  | none => throw (.notConnected name)
  | some connection =>
    let replies ←
      match connection with
      | .memory => pure {}
      | .remote replies =>
        request (.execute text)
        match replies.failure with
        | some reason => throw (.cannotQuery reason)
        | none => pure replies
    if asksForRows text then assign target (← intern (.list (replies.rows.map .tuple)))
    else
      request .commit
      assign target replies.rowCount
    request .closeCursor
    report ("✅ Query dijalankan: " ++ target)

def disconnect (name : String) : Run Unit := do
  match (← get).connections.get? name with
  | none => pure ()
  | some connection =>
    match connection with
    | .memory => pure ()
    | .remote _ => request .closeConnection
    modify fun s => { s with connections := s.connections.erase name }
    report ("✅ Koneksi ditutup: " ++ name)

def databaseCommand (call : Caller) (line : List Char) : Run Unit := do
  match (afterName? "sambungDB" line).bind threeArguments? with
  | some (name, kind, target) =>
    let name ← evaluateText call name
    let kind ← evaluateText call kind
    let target ← evaluateText call target
    connect name kind target
  | none =>
    match (setTo? "queryDB" line).bind fun (target, rest) =>
      (twoArguments? rest).map fun args => (target, args) with
    | some (target, name, text) =>
      let name ← evaluateText call name
      let text ← evaluateText call text
      query (String.ofList target) name text
    | none =>
      match argument? "tutupDB" line with
      | some name => disconnect (← evaluateText call name)
      | none => pure ()

/-! ## The web -/

/-- The record of a page: its status, its text, and its contents if it is JSON. -/
def pageRecord (status : Value) (body : String) (headers : Table String String) : Run Value := do
  let contents ←
    if occursIn "application/json".toList ((headers.get? "content-type").getD "").toList then
      match Json.read body with
      | .ok v => pure v
      | .error e => throw (.requestFailed e.message)
    else pure .none
  intern (.record [(.text "status", status), (.text "body", .text body), (.text "json", contents)])

def fetch (target method url : String) (sent : Request) (web : WebReply) : Run Unit := do
  request sent
  match web with
  | .failure reason => throw (.requestFailed reason)
  | .page status body headers =>
    assign target (← pageRecord status body headers)
    report ("✅ HTTP " ++ method ++ ": " ++ url ++ " - Status " ++ (← get).shown status)

def webCommand (call : Caller) (line : List Char) : Run Unit := do
  match (← get).web with
  | none => throw .noWeb
  | some web =>
    match (setTo? "httpGet" line).bind fun (target, rest) =>
      (shortest? ')' rest).map fun url => (target, url) with
    | some (target, url) =>
      let url ← evaluateText call url
      fetch (String.ofList target) "GET" url (.get url) web
    | none =>
      match (setTo? "httpPost" line).bind fun (target, rest) =>
        (twoArguments? rest).map fun args => (target, args) with
      | some (target, url, data) =>
        let url ← evaluateText call url
        let data ← evaluate call data
        fetch (String.ofList target) "POST" url (.post url ((← get).store.view data)) web
      | none => pure ()

end Birokrasi.Extended
