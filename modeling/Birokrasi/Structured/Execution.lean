import Birokrasi.Structured.Expression

/-!
# The structured language: execution

The effect of statements on the state (`Evaluator`). Nothing bounds the depth of calls, so that execution
takes a depth at which it gives up; loops and sequences are bounded by themselves.
-/

namespace Birokrasi.Structured

def times (act : Run Unit) : Nat → Run Unit
  | 0 => pure ()
  | n + 1 => do
    act
    times act n

def traceLine (line : Nat) (title : String) : String :=
  "[TRACE L" ++ toString line ++ "] " ++ title

def trace (line : Nat) (title : String) : Run Unit := do
  if (← get).settings.trace then print (traceLine line title)

def evaluateFloat (expr : String) : Run Float := do
  let v ← evaluate expr
  Run.ofExcept (ofFault v.asFloat)

/-- Executes a statement, to at most the given depth. -/
def execute : (depth : Nat) → Stmt → Run Unit
  | 0, _ => throw .unfinished
  | depth + 1, stmt => do
    trace stmt.line stmt.title
    match stmt with
    | .block _ body =>
      modify State.push
      -- A failure leaves the scope open, also where it is taken over by an attempt outside.
      body.forM (execute depth)
      modify State.pop
    | .assign _ name expr =>
      tick
      let v ← evaluate expr
      modify (·.set name v)
      advance (.float 0.5)
    | .report _ expr =>
      tick
      let v ← evaluate expr
      print (reportText v)
    | .embezzle _ expr =>
      tick
      let percent ← evaluateFloat expr
      let amount ← Structured.embezzle (.float percent)
      let whole ← Run.ofExcept (ofFault (Number.intOfFloat amount))
      print ("💰 Korupsi " ++ Decimal.shown percent ++ "%: Rp " ++ Decimal.intGrouped whole)
    | .stall _ info =>
      tick
      let v ← evaluate info
      print ("⏳ Proyek Mangkrak: " ++ v.shown)
      throw .stalled
    | .meeting _ count body =>
      tick
      let n ← evaluateFloat count
      -- The count is cut off towards zero, and there is no session for one below one.
      let n ← Run.ofExcept (ofFault (Number.intOfFloat n))
      times (body.forM (execute depth)) n.toNat
    | .procedure _ name body =>
      modify fun s => { s with procedures := s.procedures.put name body }
    | .call _ name =>
      match (← get).procedures.get? name with
      | none => throw (.unknownProcedure name)
      | some body =>
        modify State.push
        body.forM (execute depth)
        modify State.pop
    | .attempt _ body recovery =>
      tryCatch (body.forM (execute depth)) fun e => do
        if e.recoverable then
          print ("⚠️  Exception: " ++ e.message)
          recovery.forM (execute depth)
        else throw e
    | .branch _ condition body otherwise =>
      tick
      let v ← evaluate condition
      (if v.truthy then body else otherwise).forM (execute depth)
    | .unknown line => throw (.unknownNode line)

def Program.run (depth : Nat) (p : Program) : Run Unit := do
  trace 1 "Program"
  p.body.forM (execute depth)

def depthLimit : Nat := 100000

end Birokrasi.Structured
