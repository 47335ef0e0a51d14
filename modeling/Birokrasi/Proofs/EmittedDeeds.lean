import Birokrasi.Proofs.Building
import Birokrasi.Structured.Parser

/-!
# What of a program is emitted

Assignments, reports, embezzlements, stalls and meetings each have an operation of their own, which no
expression has. The operations of a program that has been read are those of its statements outside
attempts and procedures, one for each and in their order; what is in an attempt or a procedure has none,
and nothing says so (`emitted_deeds`).
-/

namespace Birokrasi.Bytecode

open Birokrasi.Structured (Stmt Program)
open Birokrasi.Text

/-- What a statement does that has an operation of its own. -/
inductive Deed where
  | assign
  | report
  | embezzle
  | stall
  | meeting
  deriving DecidableEq

/-- The operation of a deed. -/
def Deed.op : Deed → Opcode
  | .assign => .store
  | .report => .print
  | .embezzle => .embezzle
  | .stall => .stall
  | .meeting => .meeting

/-- The deed of an operation. -/
def deed? : Opcode → Option Deed
  | .store => some .assign
  | .print => some .report
  | .embezzle => some .embezzle
  | .stall => some .stall
  | .meeting => some .meeting
  | _ => none

theorem deed?_eq_some {op : Opcode} {d : Deed} : deed? op = some d ↔ op = d.op := by
  cases op <;> cases d <;> decide

/-! ## Deeds of instructions -/

/-- The deeds that instructions do, in their order. -/
def deedsDone (is : List Instr) : List Deed := is.filterMap fun i => deed? i.op

theorem deedsDone_append {is js : List Instr} {ds es : List Deed} (h : deedsDone is = ds)
    (h' : deedsDone js = es) : deedsDone (is ++ js) = ds ++ es := by
  rw [← h, ← h']
  exact List.filterMap_append

theorem deedsDone_singleton (op : Opcode) (operand : Nat) :
    deedsDone [⟨op, operand⟩] = (deed? op).toList := by
  unfold deedsDone
  rw [List.filterMap_cons]
  cases deed? op <;> rfl

theorem count_deedsDone (d : Deed) (is : List Instr) :
    (deedsDone is).count d = is.countP fun i => i.op = d.op := by
  unfold deedsDone
  rw [List.count, List.countP_filterMap]
  apply List.countP_congr
  intro i _
  cases hd : deed? i.op with
  | none =>
    have hop : i.op ≠ d.op := fun h => by simp [deed?_eq_some.2 h] at hd
    simp [hop]
  | some d' =>
    have hop : i.op = d'.op := deed?_eq_some.1 hd
    have hiff : d' = d ↔ i.op = d.op := by
      rw [← deed?_eq_some, hd, Option.some.injEq]
    simp [hiff]

/-- A step of compiling whose instructions do these deeds, whatever has been pooled. -/
def Doing (act : Emit (List Instr)) (ds : List Deed) : Prop := ∀ b, deedsDone (act.run b).1 = ds

theorem doing_pooled {op : Opcode} (hop : Instr.alwaysWide op) (f : Nat → Nat) (ids : Emit Nat) :
    Doing (do emit op (f (← ids))) (deed? op).toList := by
  intro b
  obtain ⟨i, b₁, hid⟩ : ∃ i b₁, ids.run b = (i, b₁) := ⟨_, _, rfl⟩
  rw [run_emit_pooled op hop f hid]
  exact deedsDone_singleton op (f i)

theorem doing_emitString (s : String) : Doing (emitString s) [] :=
  doing_pooled rfl (· ||| stringMark) (stringId s)

theorem deed?_of_operator? {s left right : List Char} {op : Opcode}
    (h : operator? s = some (op, left, right)) : deed? op = none := by
  have hall : ∀ o ∈ operators, deed? o.2 = none := by decide
  obtain ⟨sign, ho, -⟩ := exists_sign_of_operator? h
  exact hall _ ho

/-- An expression does nothing but calculate. -/
theorem doing_compileExpr (text : List Char) : Doing (compileExpr text) [] := by
  fun_induction compileExpr text with
  | case1 text s hquoted => exact doing_emitString _
  | case2 text s hquoted v hnumeral => exact doing_pooled rfl id (constantId v)
  | case3 text s hquoted hnumeral hvariable => exact doing_pooled rfl id (slotOf _)
  | case4 text s hquoted hnumeral hvariable op left right hop _ _ hleft hright =>
    have hdone : deedsDone [⟨op, 0⟩] = [] := by
      rw [deedsDone_singleton, deed?_of_operator? hop]
      rfl
    exact fun b => deedsDone_append (deedsDone_append (hleft b) (hright _)) hdone
  | case5 => exact fun _ => rfl

/-! ## Deeds of programs -/

mutual

/-- The deeds of a statement and of those in it, each with a mark that it stands in an attempt or a
procedure. The deeds of a body come before that of its meeting. -/
def stmtDeeds (aside : Bool) : Stmt → List (Bool × Deed)
  | .block _ body => bodyDeeds aside body
  | .attempt _ body recovery => bodyDeeds true body ++ bodyDeeds true recovery
  | .meeting _ _ body => bodyDeeds aside body ++ [(aside, .meeting)]
  | .procedure _ _ body => bodyDeeds true body
  | .assign .. => [(aside, .assign)]
  | .report .. => [(aside, .report)]
  | .embezzle .. => [(aside, .embezzle)]
  | .stall .. => [(aside, .stall)]
  | .branch _ _ body otherwise => bodyDeeds aside body ++ bodyDeeds aside otherwise
  | .call .. | .unknown _ => []

def bodyDeeds (aside : Bool) : List Stmt → List (Bool × Deed)
  | [] => []
  | s :: rest => stmtDeeds aside s ++ bodyDeeds aside rest

end

/-- The deeds that stand in an attempt or a procedure (`aside`), or in none. -/
def deedsWhere (aside : Bool) (marked : List (Bool × Deed)) : List Deed :=
  (marked.filter fun e => e.1 = aside).map Prod.snd

@[simp] theorem deedsWhere_append (aside : Bool) (l l' : List (Bool × Deed)) :
    deedsWhere aside (l ++ l') = deedsWhere aside l ++ deedsWhere aside l' := by
  simp [deedsWhere]

theorem count_deedsWhere (d : Deed) (marked : List (Bool × Deed)) :
    (deedsWhere false marked).count d + (deedsWhere true marked).count d =
      (marked.map Prod.snd).count d := by
  induction marked with
  | nil => rfl
  | cons e rest ih =>
    obtain ⟨aside, d'⟩ := e
    cases aside with
    | false =>
      simp only [deedsWhere, List.filter_cons] at ih ⊢
      simp only [decide_true, if_true, List.map_cons, List.count_cons, Bool.false_eq_true, decide_false,
        if_false]
      omega
    | true =>
      simp only [deedsWhere, List.filter_cons] at ih ⊢
      simp only [decide_true, if_true, List.map_cons, List.count_cons, Bool.true_eq_false, decide_false,
        Bool.false_eq_true, if_false]
      omega

mutual

theorem deedsWhere_stmt_aside : (s : Stmt) → deedsWhere false (stmtDeeds true s) = []
  | .block _ body => by
    rw [stmtDeeds]
    exact deedsWhere_body_aside body
  | .attempt _ body recovery => by
    rw [stmtDeeds, deedsWhere_append, deedsWhere_body_aside body, deedsWhere_body_aside recovery]
    rfl
  | .meeting _ _ body => by
    rw [stmtDeeds, deedsWhere_append, deedsWhere_body_aside body]
    rfl
  | .procedure _ _ body => by
    rw [stmtDeeds]
    exact deedsWhere_body_aside body
  | .branch _ _ body otherwise => by
    rw [stmtDeeds, deedsWhere_append, deedsWhere_body_aside body, deedsWhere_body_aside otherwise]
    rfl
  | .assign .. | .report .. | .embezzle .. | .stall .. | .call .. | .unknown _ => by
    rw [stmtDeeds]
    rfl

theorem deedsWhere_body_aside : (body : List Stmt) → deedsWhere false (bodyDeeds true body) = []
  | [] => by
    rw [bodyDeeds]
    rfl
  | s :: rest => by
    rw [bodyDeeds, deedsWhere_append, deedsWhere_stmt_aside s, deedsWhere_body_aside rest]
    rfl

end

/-! ## Programs that have been read -/

mutual

/-- No branch has statements for the case that its condition does not hold. -/
def OneSided : Stmt → Prop
  | .block _ body | .meeting _ _ body | .procedure _ _ body => AllOneSided body
  | .attempt _ body recovery => AllOneSided body ∧ AllOneSided recovery
  | .branch _ _ body otherwise => AllOneSided body ∧ otherwise = []
  | .assign .. | .report .. | .embezzle .. | .stall .. | .call .. | .unknown _ => True

def AllOneSided : List Stmt → Prop
  | [] => True
  | s :: rest => OneSided s ∧ AllOneSided rest

end

theorem allOneSided_iff {body : List Stmt} : AllOneSided body ↔ ∀ s ∈ body, OneSided s := by
  induction body with
  | nil => simp [AllOneSided]
  | cons s rest ih => simp [AllOneSided, ih]

theorem AllOneSided.reverse {body : List Stmt} (h : AllOneSided body) :
    AllOneSided body.reverse := by
  rw [allOneSided_iff] at h ⊢
  intro s hs
  exact h s (List.mem_reverse.1 hs)

end Birokrasi.Bytecode

namespace Birokrasi.Structured

open Birokrasi.Bytecode (OneSided AllOneSided)

/-- What a header already holds is one-sided. -/
def Header.OneSided : Header → Prop
  | .recovery _ body => AllOneSided body
  | _ => True

theorem Header.OneSided.close {header : Header} {body : List Stmt} (h : header.OneSided)
    (hbody : AllOneSided body) : Bytecode.OneSided (header.close body) := by
  cases header with
  | block => simpa [Header.close, Bytecode.OneSided] using hbody
  | attempt => simpa [Header.close, Bytecode.OneSided, AllOneSided] using hbody
  | recovery _ first =>
    simp only [Header.close, Bytecode.OneSided]
    exact ⟨h, hbody⟩
  | meeting => simpa [Header.close, Bytecode.OneSided] using hbody
  | procedure => simpa [Header.close, Bytecode.OneSided] using hbody
  | branch => simpa [Header.close, Bytecode.OneSided] using hbody

/-- All that a reader has read is one-sided. -/
structure Reader.OneSided (r : Reader) : Prop where
  current : AllOneSided r.current
  pending : ∀ e ∈ r.pending, e.1.OneSided ∧ AllOneSided e.2

/-- What a line adds is one-sided. -/
def LineKind.OneSided : LineKind → Prop
  | .blank => True
  | .opening header => header.OneSided
  | .simple s => Bytecode.OneSided s

theorem LineKind.oneSided_ofLine {n : Nat} {line : String} {kind : LineKind}
    (h : LineKind.ofLine n line = .ok kind) : kind.OneSided := by
  unfold LineKind.ofLine at h
  dsimp only at h
  repeat' split at h
  all_goals cases h
  all_goals simp [LineKind.OneSided, Header.OneSided, Bytecode.OneSided]

theorem Reader.OneSided.leave {r : Reader} (h : r.OneSided) : r.leave.OneSided := by
  unfold Reader.leave
  have hbody := h.current.reverse
  split
  · exact h
  next line outside rest hp =>
    have hpending := List.forall_mem_cons.1 (hp ▸ h.pending)
    exact ⟨trivial, List.forall_mem_cons.2 ⟨⟨hbody, hpending.1.2⟩, hpending.2⟩⟩
  next header outside rest hp =>
    have hpending := List.forall_mem_cons.1 (hp ▸ h.pending)
    exact ⟨⟨hpending.1.1.close hbody, hpending.1.2⟩, hpending.2⟩

theorem Reader.OneSided.feed {r r' : Reader} {n : Nat} {line : String} (h : r.OneSided)
    (hfeed : r.feed n line = .ok r') : r'.OneSided := by
  unfold Reader.feed at hfeed
  by_cases hend : r.isTerminator line
  · rw [if_pos hend] at hfeed
    cases hfeed
    exact h.leave
  · rw [if_neg hend] at hfeed
    cases hkind : LineKind.ofLine n line with
    | error e => simp [hkind] at hfeed
    | ok kind =>
      rw [hkind] at hfeed
      have hside := LineKind.oneSided_ofLine hkind
      cases kind with
      | blank =>
        cases hfeed
        exact h
      | opening header =>
        cases hfeed
        exact ⟨trivial, List.forall_mem_cons.2 ⟨⟨hside, h.current⟩, h.pending⟩⟩
      | simple s =>
        cases hfeed
        exact ⟨⟨hside, h.current⟩, h.pending⟩

theorem Reader.OneSided.feedAll {r r' : Reader} {n : Nat} {lines : List String} (h : r.OneSided)
    (hfeed : r.feedAll n lines = .ok r') : r'.OneSided := by
  induction lines generalizing r n with
  | nil =>
    cases hfeed
    exact h
  | cons line rest ih =>
    unfold Reader.feedAll at hfeed
    cases hline : r.feed n line with
    | error e => simp [hline] at hfeed
    | ok r₁ =>
      rw [hline] at hfeed
      exact ih (h.feed hline) hfeed

theorem allOneSided_closeAll {current : List Stmt} {pending : List (Header × List Stmt)}
    (hcurrent : AllOneSided current) (hpending : ∀ e ∈ pending, e.1.OneSided ∧ AllOneSided e.2) :
    AllOneSided (Reader.closeAll current pending) := by
  induction pending generalizing current with
  | nil => exact hcurrent.reverse
  | cons e rest ih =>
    rw [List.forall_mem_cons] at hpending
    obtain ⟨⟨hheader, houtside⟩, hrest⟩ := hpending
    exact ih ⟨hheader.close hcurrent.reverse, houtside⟩ hrest

theorem allOneSided_of_ofLines {lines : List String} {p : Program}
    (h : Program.ofLines lines = .ok p) : AllOneSided p.body := by
  unfold Program.ofLines at h
  cases hread : Reader.feedAll {} 1 lines with
  | error e => simp [hread] at h
  | ok r =>
    rw [hread] at h
    cases h
    have hempty : Reader.OneSided {} := ⟨trivial, by simp⟩
    have hr := hempty.feedAll hread
    exact allOneSided_closeAll hr.current hr.pending

end Birokrasi.Structured

namespace Birokrasi.Bytecode

open Birokrasi.Structured (Stmt Program allOneSided_of_ofLines)

/-! ## Compiling -/

mutual

/-- Compiling emits the deeds outside attempts and procedures, in their order. -/
theorem doing_compileStmt : (s : Stmt) → OneSided s →
    Doing (compileStmt s) (deedsWhere false (stmtDeeds false s))
  | .block _ body, h => by
    rw [OneSided] at h
    rw [compileStmt, stmtDeeds]
    exact doing_compileBody body h
  | .assign _ name expr, _ => fun b => by
    rw [compileStmt, stmtDeeds]
    exact deedsDone_append (doing_compileExpr expr.toList b) (doing_pooled rfl id (slotOf name) _)
  | .report _ expr, _ => fun b => by
    rw [compileStmt, stmtDeeds]
    exact deedsDone_append (doing_compileExpr expr.toList b) (deedsDone_singleton .print 0)
  | .embezzle _ percent, _ => fun b => by
    rw [compileStmt, stmtDeeds]
    exact deedsDone_append (doing_compileExpr percent.toList b) (deedsDone_singleton .embezzle 0)
  | .stall _ info, _ => fun b => by
    rw [compileStmt, stmtDeeds]
    exact deedsDone_append (doing_emitString info b) (deedsDone_singleton .stall 0)
  | .meeting _ count body, h => fun b => by
    rw [OneSided] at h
    rw [compileStmt, stmtDeeds, deedsWhere_append]
    have hcount := doing_compileExpr count.toList b
    exact deedsDone_append (deedsDone_append hcount (doing_compileBody body h _))
      (deedsDone_singleton .meeting _)
  | .branch _ condition body otherwise, h => fun b => by
    rw [OneSided] at h
    obtain ⟨hbody, rfl⟩ := h
    rw [compileStmt, stmtDeeds, deedsWhere_append]
    have hcondition := doing_compileExpr condition.toList b
    refine Eq.trans ?_ (List.append_nil _).symm
    exact deedsDone_append (deedsDone_append hcondition (deedsDone_singleton .jumpIfFalse _))
      (doing_compileBody body hbody _)
  | .attempt _ body recovery, _ => fun b => by
    rw [compileStmt, stmtDeeds, deedsWhere_append, deedsWhere_body_aside, deedsWhere_body_aside]
    rfl
  | .procedure _ _ body, _ => fun b => by
    rw [compileStmt, stmtDeeds, deedsWhere_body_aside]
    rfl
  | .call .., _ => fun b => by
    rw [compileStmt, stmtDeeds]
    rfl
  | .unknown _, _ => fun b => by
    rw [compileStmt, stmtDeeds]
    rfl

theorem doing_compileBody : (body : List Stmt) → AllOneSided body →
    Doing (compileBody body) (deedsWhere false (bodyDeeds false body))
  | [], _ => fun b => by
    rw [compileBody, bodyDeeds]
    rfl
  | s :: rest, h => fun b => by
    rw [AllOneSided] at h
    rw [compileBody, bodyDeeds, deedsWhere_append]
    exact deedsDone_append (doing_compileStmt s h.1 b) (doing_compileBody rest h.2 _)

end

/-- In the instructions of a program that has been read, the operations of deeds are those of its
statements outside attempts and procedures, in their order. Of each kind there are fewer than statements
of that kind, by as many as stand in an attempt or a procedure; so the numbers are the same exactly if
none does. -/
theorem emitted_deeds {lines : List String} {p : Program} (h : Program.ofLines lines = .ok p) :
    let is := (instructions p).1
    let marked := bodyDeeds false p.body
    (compile p).code = assemble is ∧
    deedsDone is = deedsWhere false marked ∧
    (∀ d : Deed, (is.countP fun i => i.op = d.op) + (deedsWhere true marked).count d =
      (marked.map Prod.snd).count d) ∧
    ((∀ d : Deed, (is.countP fun i => i.op = d.op) = (marked.map Prod.snd).count d) ↔
      ∀ e ∈ marked, e.1 = false) := by
  intro is marked
  have hdone : deedsDone is = deedsWhere false marked := by
    have hbody := doing_compileBody p.body (allOneSided_of_ofLines h) {}
    exact (deedsDone_append hbody (deedsDone_singleton .finish 0)).trans (List.append_nil _)
  have hcount (d : Deed) : (is.countP fun i => i.op = d.op) + (deedsWhere true marked).count d =
      (marked.map Prod.snd).count d := by
    rw [← count_deedsDone, hdone]
    exact count_deedsWhere d marked
  refine ⟨rfl, hdone, hcount, ?_⟩
  constructor
  · intro heq e he
    obtain ⟨aside, d⟩ := e
    cases aside with
    | false => rfl
    | true =>
      have hmem : d ∈ deedsWhere true marked :=
        List.mem_map.2 ⟨(true, d), List.mem_filter.2 ⟨he, rfl⟩, rfl⟩
      have hpos := List.count_pos_iff.2 hmem
      have hsum := hcount d
      have hsame := heq d
      omega
  · intro hnone d
    have hempty : deedsWhere true marked = [] := by
      unfold deedsWhere
      rw [List.map_eq_nil_iff, List.filter_eq_nil_iff]
      intro e he
      simp [hnone e he]
    have hsum := hcount d
    rw [hempty, List.count_nil] at hsum
    omega

/-- A meeting in a branch, and deeds in a procedure and in both halves of an attempt. -/
def concealing : Program where
  body :=
    [.assign 1 "x" "1",
      .branch 2 "x == 1" [.meeting 3 "2" [.report 4 "x"]] [],
      .procedure 7 "p" [.report 8 "2", .assign 9 "x" "3"],
      .attempt 11 [.block 12 [.embezzle 13 "5"]] [.stall 16 "macet", .report 17 "x"]]

def concealingLines : List String :=
  ["set x = 1", "jika x == 1", "Rapat(2)", "lapor x", "selesaiRapat", "akhir", "prosedur p()",
    "lapor 2", "set x = 3", "akhirProsedur", "coba", "mulai", "Korupsi(5)", "akhir", "jikaGagal",
    "Mangkrak(macet)", "lapor x", "akhirCoba"]

theorem emitted_deeds_concealing :
    Program.ofLines concealingLines = .ok concealing ∧
    deedsDone (instructions concealing).1 = [.assign, .report, .meeting] ∧
    ((instructions concealing).1.countP fun i => i.op = .print) + 2 = 3 := by
  have hread : Program.ofLines concealingLines = .ok concealing := rfl
  obtain ⟨-, hdone, hcount, -⟩ := emitted_deeds hread
  exact ⟨hread, hdone, hcount .report⟩

/-- A report in an attempt is not emitted. -/
def attempted : Program where
  body := [.attempt 1 [.report 2 "1"] []]

theorem report_not_emitted :
    Program.ofLines ["coba", "lapor 1", "jikaGagal", "akhirCoba"] = .ok attempted ∧
    ((instructions attempted).1.countP fun i => i.op = .print) = 0 ∧
    ((bodyDeeds false attempted.body).map Prod.snd).count .report = 1 :=
  ⟨rfl, by decide +kernel, by decide +kernel⟩

end Birokrasi.Bytecode
