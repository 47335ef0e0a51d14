import Birokrasi.Value.Fault

/-!
# The structured language: syntax

Programs of the structured language as trees (`Node` and its kinds). A statement keeps the number of the
line that it starts on; expressions are kept as texts, because their meaning is found only when they are
evaluated.
-/

namespace Birokrasi.Structured

inductive Stmt where
  /-- Statements in a scope of their own. -/
  | block (line : Nat) (body : List Stmt)
  /-- Statements, and others that take over when one of the first fails. -/
  | attempt (line : Nat) (body recovery : List Stmt)
  /-- A meeting: statements repeated a number of times. -/
  | meeting (line : Nat) (count : String) (body : List Stmt)
  | procedure (line : Nat) (name : String) (body : List Stmt)
  | call (line : Nat) (name : String)
  | assign (line : Nat) (name expr : String)
  | report (line : Nat) (expr : String)
  | embezzle (line : Nat) (percent : String)
  | stall (line : Nat) (info : String)
  | branch (line : Nat) (condition : String) (body otherwise : List Stmt)
  | unknown (line : Nat)

structure Program where
  body : List Stmt

namespace Stmt

def line : Stmt → Nat
  | block n _ | attempt n _ _ | meeting n _ _ | procedure n _ _ | call n _ | assign n _ _
  | report n _ | embezzle n _ | stall n _ | branch n _ _ _ | unknown n => n

def title : Stmt → String
  | block .. => "Block"
  | attempt .. => "TryCatch"
  | meeting .. => "RapatLoop"
  | procedure .. => "ProcDef"
  | call .. => "ProcCall"
  | assign .. => "SetStmt"
  | report .. => "PrintStmt"
  | embezzle .. => "KorupsiStmt"
  | stall .. => "MangkrakStmt"
  | branch .. => "IfStmt"
  | unknown .. => "Node"

end Stmt

inductive Failure where
  | fault (f : Fault)
  | unknownStatement (line : Nat) (text : String)
  | unknownNode (line : Nat)
  | cannotEvaluate (text : String)
  | unboundName (name : String)
  | unknownProcedure (name : String)
  | fundsExhausted
  | stalled
  | stepLimit
  /-- The evaluation was cut off before it came to an end. -/
  | unfinished

def Failure.message : Failure → String
  | fault f => f.message
  | unknownStatement line text =>
    "Syntax tidak dikenali (baris " ++ toString line ++ "): " ++ text
  | unknownNode line => "Node tidak dikenali: Node(line=" ++ toString line ++ ")"
  | cannotEvaluate text => "Tidak dapat mengevaluasi: " ++ text
  | unboundName name => "Variable '" ++ name ++ "' tidak ditemukan"
  | unknownProcedure name => "Prosedur '" ++ name ++ "' tidak ditemukan"
  | fundsExhausted => "Dana habis akibat korupsi"
  | stalled => "Proyek mangkrak terlalu lama"
  | stepLimit => "Batas langkah terlampaui"
  | unfinished => "unfinished"

/-- Whether an `attempt` takes the failure over: those of the language itself, not those of
values. -/
def Failure.recoverable : Failure → Bool
  | fault _ | unfinished => false
  | _ => true

end Birokrasi.Structured
