import Birokrasi.Proofs.NestedLines

/-!
# Marks

Four marks of the state say that something is being left: the program, a loop, a round of a loop or a
function. Of all that a program does, only a few statements, the rounds of loops and calls touch them, and
only the definition of a function touches the functions (`Framed`). So a property of the marks holds after
any block if these few keep it (`Lasting.keeps_executeBlock`). What is being left executes nothing, not
even in the functions that an expression calls (`keeps_callFunction_of_leaving`).
-/

namespace Birokrasi.Extended

open Birokrasi.Text
open Birokrasi.Project
open Birokrasi.Extended.Tree (inTurn runLine)

/-- What is being left. -/
structure Marks where
  finished : Bool
  breaking : Bool
  continuing : Bool
  returning : Bool

/-- The marks of a state. -/
def State.marks (s : State) : Marks := ⟨s.finished, s.breaking, s.continuing, s.returning⟩

theorem State.leaving_of_finished {s : State} (h : s.finished = true) : s.leaving = true := by
  rw [State.leaving, h, Bool.true_or, Bool.true_or, Bool.true_or]

theorem State.leaving_of_continuing {s : State} (h : s.continuing = true) : s.leaving = true := by
  rw [State.leaving, h, Bool.or_true, Bool.true_or]

theorem State.leaving_of_returning {s : State} (h : s.returning = true) : s.leaving = true := by
  rw [State.leaving, h, Bool.or_true]

theorem State.marks_of_not_leaving {s : State} (h : s.leaving = false) :
    s.marks = ⟨false, false, false, false⟩ := by
  simp only [State.leaving, Bool.or_eq_false_iff] at h
  obtain ⟨⟨⟨hfinished, hbreaking⟩, hcontinuing⟩, hreturning⟩ := h
  rw [State.marks, hfinished, hbreaking, hcontinuing, hreturning]

/-- A property of the marks and the functions. -/
def Framed (P : State → Prop) : Prop :=
  ∀ ⦃s t : State⦄, t.marks = s.marks → t.functions = s.functions → P s → P t

theorem framed_marks (m : Marks) : Framed fun s => s.marks = m := fun _ _ hmarks _ h => hmarks.trans h

theorem framed_finished : Framed fun s => s.finished = true := fun _ _ hmarks _ h =>
  (congrArg Marks.finished hmarks).trans h

theorem framed_continuing : Framed fun s => s.continuing = true := fun _ _ hmarks _ h =>
  (congrArg Marks.continuing hmarks).trans h

theorem framed_returning : Framed fun s => s.returning = true := fun _ _ hmarks _ h =>
  (congrArg Marks.returning hmarks).trans h

/-! ## Commands -/

section Frame

variable {P : State → Prop}

theorem keeps_ofFault {α : Type} (r : Except Fault α) : Keeps P (ofFault r) := by
  cases r with
  | ok a => exact .pure a
  | error f => exact .throw _

theorem keeps_floatOf (v : Value) : Keeps P (floatOf v) := keeps_ofFault _

theorem keeps_indexOf (v : Value) : Keeps P (indexOf v) :=
  (keeps_floatOf v).bind fun _ => keeps_ofFault _

theorem keeps_textOf (v : Value) : Keeps P (textOf v) := .get fun _ _ => keeps_ofFault _

theorem keeps_lookup (name : String) : Keeps P (lookup name) := by
  refine .get fun s _ => ?_
  cases s.lookup name with
  | ok v => exact .pure v
  | error e => exact .throw e

variable (hP : Framed P)

include hP

/-- An action that touches neither. -/
theorem Framed.keeps {α : Type} {x : Run α}
    (h : ∀ s, (x.run.run s).2.marks = s.marks ∧ (x.run.run s).2.functions = s.functions) : Keeps P x :=
  fun s hs => hP (h s).1 (h s).2 hs

theorem Framed.keeps_report (text : String) : Keeps P (report text) :=
  hP.keeps fun _ => ⟨rfl, rfl⟩

theorem Framed.keeps_request (r : Request) : Keeps P (request r) :=
  hP.keeps fun _ => ⟨rfl, rfl⟩

theorem Framed.keeps_wait (time : Value) : Keeps P (wait time) :=
  (keeps_ofFault _).bind fun _ => hP.keeps fun _ => ⟨rfl, rfl⟩

theorem Framed.keeps_draw {α : Type} (f : Source → α × Source) : Keeps P (draw f) :=
  hP.keeps fun _ => ⟨rfl, rfl⟩

theorem Framed.keeps_assign (name : String) (v : Value) : Keeps P (assign name v) := by
  refine hP.keeps fun s => ?_
  show (s.assign name v).marks = s.marks ∧ (s.assign name v).functions = s.functions
  unfold State.assign
  repeat' split
  all_goals exact ⟨rfl, rfl⟩

theorem Framed.keeps_newList (items : Array Value) : Keeps P (newList items) :=
  hP.keeps fun _ => ⟨rfl, rfl⟩

theorem Framed.keeps_newRecord (entries : List (Value × Value)) : Keeps P (newRecord entries) :=
  hP.keeps fun _ => ⟨rfl, rfl⟩

theorem Framed.keeps_intern (v : Value) : Keeps P (intern v) :=
  hP.keeps fun _ => ⟨rfl, rfl⟩

theorem Framed.keeps_setBudget (v : Value) : Keeps P (setBudget v) := by
  refine .bind (hP.keeps fun _ => ⟨rfl, rfl⟩) fun _ => ?_
  exact (keeps_ofFault _).bind fun _ => hP.keeps fun _ => ⟨rfl, rfl⟩

theorem Framed.keeps_stall (ms : Float) : Keeps P (stall ms) := by
  refine (hP.keeps_report _).bind fun _ => (hP.keeps_wait _).bind fun _ => ?_
  refine (hP.keeps_draw _).bind fun u => .ite ?_ (.pure _)
  refine (hP.keeps_draw _).bind fun disaster => (hP.keeps_report _).bind fun _ => ?_
  refine (hP.keeps_draw _).bind fun cost => .get fun s _ => ?_
  exact (keeps_ofFault _).bind fun v => hP.keeps_setBudget v

theorem Framed.keeps_embezzle (percent : Float) : Keeps P (embezzle percent) := by
  refine .ite (fun _ hs => hs) ((hP.keeps_draw _).bind fun actual => ?_)
  refine .get fun s _ => (keeps_ofFault _).bind fun amount => .get fun t _ => ?_
  refine (keeps_ofFault _).bind fun rest => (hP.keeps_setBudget rest).bind fun _ => ?_
  refine (keeps_ofFault _).bind fun text => (hP.keeps_report _).bind fun _ => .get fun u _ => ?_
  exact (keeps_ofFault _).bind fun text => hP.keeps_report _

theorem Framed.keeps_meet : Keeps P meet := by
  refine (Keeps.forM hP.keeps_report _).bind fun _ => .bind (.forIn (fun i _ => ?_) _ _) fun _ =>
    hP.keeps_report _
  exact (hP.keeps_report _).bind fun _ => (hP.keeps_wait _).bind fun _ => .pure _

theorem Framed.keeps_assignItem (name : String) (container : Value) (index : Int) (v : Value) :
    Keeps P (assignItem name container index v) := by
  unfold assignItem
  split
  · refine .get fun s _ => .ite (fun _ hs => hs) ?_
    exact hP.keeps fun _ => ⟨rfl, rfl⟩
  · exact .throw _

theorem Framed.keeps_builtin (b : Builtin) (args : List Value) : Keeps P (b.apply args) := by
  unfold Builtin.apply
  split
  · refine .get fun s _ => ?_
    split
    · exact .pure _
    · exact .throw _
  · exact .pure _
  · exact (keeps_floatOf _).bind fun _ => .pure _
  · exact (keeps_textOf _).bind fun _ => .pure _
  · exact .bind (hP.keeps fun _ => ⟨rfl, rfl⟩) fun _ => .pure _
  · refine (keeps_indexOf _).bind fun index => .get fun s _ => .bind ?_ fun item => ?_
    · unfold Builtin.itemAt
      split
      · exact .pure _
      · exact .throw _
    · exact .bind (hP.keeps fun _ => ⟨rfl, rfl⟩) fun _ => .pure _
  · exact .throw _
  · exact .throw _
  · exact .throw _

theorem Framed.keeps_operator (op : Operator) (l r : Value) : Keeps P (op.apply l r) := by
  have hfloats : ∀ f, Keeps P (Operator.onFloats f l r) := fun f =>
    (keeps_floatOf l).bind fun _ => (keeps_floatOf r).bind fun _ => (keeps_ofFault _).bind fun _ => .pure _
  have hcomparing : ∀ c, Keeps P (Operator.comparing c l r) := fun c =>
    (keeps_floatOf l).bind fun _ => (keeps_floatOf r).bind fun _ => .pure _
  refine .get fun s _ => ?_
  cases op with
  | equal | notEqual | and | or => exact .pure _
  | lessEq | greaterEq | less | greater => exact hcomparing _
  | minus | times | «over» | modulo => exact hfloats _
  | plus => exact (keeps_ofFault _).bind fun _ => .bind (hP.keeps fun _ => ⟨rfl, rfl⟩) fun _ => .pure _

omit hP in
theorem keeps_access (name : String) (container key : Value) : Keeps P (access name container key) := by
  unfold access
  split
  · refine (keeps_indexOf key).bind fun index => .get fun s _ => ?_
    unfold Builtin.itemAt
    split
    · exact .pure _
    · exact .throw _
  · refine .get fun s _ => .get fun t _ => ?_
    split
    · exact .pure _
    · exact .throw _
  · exact .throw _

end Frame

/-! ## Expressions -/

section Expressions

variable {P : State → Prop} {call : Caller}

theorem known_of_call? {known : String → Bool} {e : List Char} {name : String} {args : List (List Char)}
    (h : call? known e = .ok (some (.function name, args))) : known name = true := by
  unfold call? at h
  split at h
  · cases h
  next word rest _ =>
    split at h
    · cases h
    next inner _ =>
      obtain ⟨c, hc, heq⟩ := Option.map_eq_some_iff.1 (Except.ok.inj h)
      obtain ⟨rfl, -⟩ := Prod.mk.inj heq
      unfold callee? at hc
      split at hc
      · cases hc
      · split at hc
        next hknown =>
          cases hc
          exact hknown
        · cases hc

/-- Only functions of the program can touch the marks while an expression is evaluated. -/
theorem Framed.keeps_evaluate (hP : Framed P)
    (hcall : ∀ s name, P s → s.functions.has name = true → ∀ vs, Keeps P (call name vs))
    (text : List Char) : Keeps P (evaluate call text) := by
  have htrim := length_trim_le text
  rw [evaluate]
  split
  · exact .pure _
  next items hl =>
    refine .bind (.mapM (fun ⟨item, hitem⟩ => ?_) _) fun vs => hP.keeps_newList _
    have := length_lt_of_literal?_list hl hitem
    exact hP.keeps_evaluate hcall item
  next pairs hl =>
    refine .bind (.foldlM (fun entries ⟨pair, hpair⟩ => ?_) _ _) fun es => hP.keeps_newRecord es
    have := length_lt_of_literal?_record hl hpair
    dsimp only
    split
    · exact .throw _
    next key value hc =>
      have := length_cut?_lt hc (by simp)
      refine (hP.keeps_evaluate hcall key).bind fun k => (hP.keeps_evaluate hcall value).bind fun v => ?_
      exact .get fun _ _ => .pure _
  · refine .get fun s hs => ?_
    dsimp only
    split
    · exact .throw _
    next callee args hc =>
      have hargs : ∀ arg ∈ args, Keeps P (evaluate call arg) := by
        intro arg harg
        have := length_lt_of_call? hc harg
        exact hP.keeps_evaluate hcall arg
      refine .bind (.mapM (fun ⟨arg, harg⟩ => hargs arg harg) _) fun vs => ?_
      cases callee with
      | builtin b => exact hP.keeps_builtin b vs
      | function name => exact hcall s name hs (known_of_call? hc) vs
    · split
      next name key hd =>
        have := length_lt_of_compound_access hd
        refine (keeps_lookup name).bind fun container => (hP.keeps_evaluate hcall key).bind fun k => ?_
        exact keeps_access name container k
      · exact .pure _
      · exact keeps_lookup _
      next op left right hd =>
        have := length_lt_of_compound_operation hd
        refine (hP.keeps_evaluate hcall left).bind fun l => ?_
        exact (hP.keeps_evaluate hcall right).bind fun r => hP.keeps_operator op l r
      · exact .throw _
termination_by text.length

variable (hP : Framed P)
  (hcall : ∀ s name, P s → s.functions.has name = true → ∀ vs, Keeps P (call name vs))

include hP hcall

theorem Framed.keeps_evaluateText (expr : List Char) : Keeps P (evaluateText call expr) :=
  (hP.keeps_evaluate hcall expr).bind fun v => keeps_textOf v

theorem Framed.keeps_holds (condition : List Char) : Keeps P (holds call condition) :=
  (hP.keeps_evaluate hcall condition).bind fun _ => .get fun _ _ => .pure _

/-! ## Commands with expressions -/

theorem Framed.keeps_fileCommand (line : List Char) : Keeps P (fileCommand call line) := by
  unfold fileCommand
  split
  next path content _ =>
    refine (hP.keeps_evaluateText hcall path).bind fun p => ?_
    refine (hP.keeps_evaluateText hcall content).bind fun c => .get fun s hs => ?_
    split
    · exact .throw _
    next files _ => exact .bind (.set (@hP s _ rfl rfl hs)) fun _ => hP.keeps_report _
  · split
    next target rest _ =>
      split
      next path _ =>
        refine (hP.keeps_evaluateText hcall path).bind fun p => .get fun s hs => ?_
        split
        · exact .throw _
        · exact (hP.keeps_assign _ _).bind fun _ => hP.keeps_report _
      · exact .pure _
    · exact .pure _

omit hcall in
theorem Framed.keeps_connect (name kind target : String) : Keeps P (connect name kind target) := by
  have hkeep : ∀ (c : Connection) (product : String), Keeps P (do
      modify fun s => { s with connections := s.connections.put name c }
      report ("✅ Terhubung ke " ++ product ++ ": " ++ name) : Run Unit) := fun c product =>
    .bind (hP.keeps fun _ => ⟨rfl, rfl⟩) fun _ => hP.keeps_report _
  unfold connect
  refine .ite (hkeep _ _) (.ite (.get fun s _ => ?_) (.throw _))
  split
  · exact .throw _
  · refine (hP.keeps_request _).bind fun _ => ?_
    split
    · exact .throw _
    · exact hkeep _ _

omit hcall in
theorem Framed.keeps_query (target name text : String) : Keeps P (query target name text) := by
  have hclose : Keeps P (do request .closeCursor; report ("✅ Query dijalankan: " ++ target) : Run Unit) :=
    (hP.keeps_request _).bind fun _ => hP.keeps_report _
  have hrest : ∀ replies : Replies, Keeps P (do
      if asksForRows text then assign target (← intern (.list (replies.rows.map .tuple)))
      else
        request .commit
        assign target replies.rowCount
      request .closeCursor
      report ("✅ Query dijalankan: " ++ target) : Run Unit) := by
    intro replies
    refine .ite ?_ ?_
    · exact (hP.keeps_intern _).bind fun v => (hP.keeps_assign _ v).bind fun _ => hclose
    · exact (hP.keeps_request _).bind fun _ => (hP.keeps_assign _ _).bind fun _ => hclose
  refine .get fun s _ => ?_
  split
  · exact .throw _
  next connection _ =>
    cases connection with
    | memory => exact .bind (.pure _) hrest
    | remote replies =>
      refine (hP.keeps_request _).bind fun _ => ?_
      cases replies.failure with
      | some reason => exact .bind (.throw _) hrest
      | none => exact .bind (.pure _) hrest

omit hcall in
theorem Framed.keeps_disconnect (name : String) : Keeps P (disconnect name) := by
  have hrest : Keeps P (do
      modify fun s => { s with connections := s.connections.erase name }
      report ("✅ Koneksi ditutup: " ++ name) : Run Unit) :=
    .bind (hP.keeps fun _ => ⟨rfl, rfl⟩) fun _ => hP.keeps_report _
  refine .get fun s _ => ?_
  split
  · exact .pure _
  · split
    · exact hrest
    · exact (hP.keeps_request _).bind fun _ => hrest

theorem Framed.keeps_databaseCommand (line : List Char) : Keeps P (databaseCommand call line) := by
  unfold databaseCommand
  split
  next name kind target _ =>
    refine (hP.keeps_evaluateText hcall name).bind fun n => ?_
    refine (hP.keeps_evaluateText hcall kind).bind fun k => ?_
    exact (hP.keeps_evaluateText hcall target).bind fun t => hP.keeps_connect n k t
  · split
    next target name text _ =>
      refine (hP.keeps_evaluateText hcall name).bind fun n => ?_
      exact (hP.keeps_evaluateText hcall text).bind fun t => hP.keeps_query _ n t
    · split
      next name _ => exact (hP.keeps_evaluateText hcall name).bind fun n => hP.keeps_disconnect n
      · exact .pure _

omit hcall in
theorem Framed.keeps_pageRecord (status : Value) (body : String) (headers : Table String String) :
    Keeps P (pageRecord status body headers) := by
  refine .ite ?_ (.bind (.pure _) fun _ => hP.keeps_intern _)
  split
  · exact .bind (.pure _) fun _ => hP.keeps_intern _
  · exact .bind (.throw _) fun _ => hP.keeps_intern _

omit hcall in
theorem Framed.keeps_fetch (target method url : String) (sent : Request) (web : WebReply) :
    Keeps P (fetch target method url sent web) := by
  refine (hP.keeps_request _).bind fun _ => ?_
  split
  · exact .throw _
  · refine (hP.keeps_pageRecord _ _ _).bind fun v => (hP.keeps_assign _ v).bind fun _ => ?_
    exact .get fun s _ => hP.keeps_report _

theorem Framed.keeps_webCommand (line : List Char) : Keeps P (webCommand call line) := by
  refine .get fun s _ => ?_
  split
  · exact .throw _
  · split
    next target url _ => exact (hP.keeps_evaluateText hcall url).bind fun u => hP.keeps_fetch _ _ u _ _
    · split
      next target url data _ =>
        refine (hP.keeps_evaluateText hcall url).bind fun u => ?_
        refine (hP.keeps_evaluate hcall data).bind fun d => .get fun t _ => ?_
        exact hP.keeps_fetch _ _ u _ _
      · exact .pure _

theorem Framed.keeps_assignLine (line : List Char) : Keeps P (assignLine call line) := by
  unfold assignLine
  split
  · exact .throw _
  next front expr _ =>
    dsimp only
    split
    next name key _ =>
      refine (keeps_lookup _).bind fun container => (hP.keeps_evaluate hcall key).bind fun k => ?_
      refine (keeps_indexOf k).bind fun index => (hP.keeps_evaluate hcall expr).bind fun v => ?_
      exact hP.keeps_assignItem _ container index v
    · exact (hP.keeps_evaluate hcall expr).bind fun v => hP.keeps_assign _ v

theorem Framed.keeps_executeCall (line : List Char) : Keeps P (executeCall call line) := by
  unfold executeCall
  split
  · exact .pure _
  next name rest _ =>
    refine .get fun s hs => ?_
    split
    next hname =>
      split
      · exact .throw _
      next args _ =>
        refine .bind (.mapM (hP.keeps_evaluate hcall) _) fun vs => ?_
        exact (hcall s _ hs hname vs).bind fun _ => .pure _
    · exact .ite ((hP.keeps_evaluate hcall line).bind fun _ => .pure _) (.pure _)

end Expressions

/-! ## Blocks -/

/-- A property that is kept by all that touches the marks or the functions. A loop or a round is only
marked as being left where nothing else is being left. -/
structure Lasting (P : State → Prop) : Prop where
  framed : Framed P
  defines : ∀ s name f, P s → P { s with functions := s.functions.put name f }
  breaks : ∀ s, s.leaving = false → P s → P { s with breaking := true }
  continues : ∀ s, s.leaving = false → P s → P { s with continuing := true }
  returns : ∀ s b, P s → P { s with returning := b }
  finishes : ∀ s, P s → P { s with finished := true }
  unmarks : ∀ s, P s → P { s with breaking := false, continuing := false }
  unbreaks : ∀ s, P s → P { s with breaking := false }

/-- A loop and a round of it are not marked as being left at once. -/
theorem lasting_exclusive : Lasting fun s => (s.breaking && s.continuing) = false where
  framed _ _ hmarks _ h := (congrArg (fun m : Marks => m.breaking && m.continuing) hmarks).trans h
  defines _ _ _ h := h
  breaks _ hs _ := congrArg Marks.continuing (State.marks_of_not_leaving hs)
  continues s hs _ := by
    have hbreaking : s.breaking = false := congrArg Marks.breaking (State.marks_of_not_leaving hs)
    show (s.breaking && true) = false
    rw [hbreaking, Bool.false_and]
  returns _ _ h := h
  finishes _ h := h
  unmarks _ _ := rfl
  unbreaks _ _ := rfl

section Blocks

variable {P : State → Prop} {call : Caller} (h : Lasting P)

include h

theorem Lasting.keeps_finish : Keeps P finish := by
  refine .bind (h.framed.keeps fun _ => ⟨rfl, rfl⟩) fun _ => .get fun s _ => ?_
  refine (keeps_ofFault _).bind fun budget => (Keeps.forM h.framed.keeps_report _).bind fun _ => ?_
  exact .modify h.finishes

theorem Lasting.keeps_define (lines : Array String) (i : Nat) : Keeps P (define lines i) := by
  unfold define
  split
  · exact .throw _
  · refine .ite (fun _ hs => hs) (.modify fun s => h.defines s _ _)

variable (hcall : ∀ name vs, Keeps P (call name vs))

include hcall

theorem Lasting.executeLine (line : List Char) {s : State} (hs : s.leaving = false) (hPs : P s) :
    P ((executeLine call line).run.run s).2 := by
  have hknown : ∀ s name, P s → s.functions.has name = true → ∀ vs, Keeps P (call name vs) :=
    fun _ name _ _ => hcall name
  have hreturn : ∀ v : Value,
      Keeps P (modify fun s : State => { s with result := v, returning := true } : Run Unit) := fun v =>
    .modify fun t ht => @h.framed { t with returning := true } _ rfl rfl (h.returns t true ht)
  unfold Extended.executeLine
  refine Keeps.iteAt (((h.framed.keeps_evaluate hknown _).bind hreturn) s hPs) ?_
  refine Keeps.iteAt (h.breaks s hs hPs) (Keeps.iteAt (h.continues s hs hPs) ?_)
  refine Keeps.ite ?_ ?_ s hPs
  · exact (h.framed.keeps_evaluateText hknown _).bind fun text => h.framed.keeps_report text
  · split
    · refine (h.framed.keeps_evaluate hknown _).bind fun v => (keeps_floatOf v).bind fun ms => ?_
      exact h.framed.keeps_stall ms
    · refine (h.framed.keeps_evaluate hknown _).bind fun v => (keeps_floatOf v).bind fun p => ?_
      exact h.framed.keeps_embezzle p
    · refine .ite h.framed.keeps_meet (.ite h.keeps_finish ?_)
      refine .ite (h.framed.keeps_fileCommand hknown _) ?_
      refine .ite (h.framed.keeps_databaseCommand hknown _) ?_
      refine .ite (h.framed.keeps_webCommand hknown _) ?_
      refine (h.framed.keeps_executeCall hknown _).bind fun called => .ite (.pure _) ?_
      exact .ite (h.framed.keeps_assignLine hknown _) (.throw _)

theorem Lasting.executeNumbered (n : Nat) (line : List Char) {s : State} (hs : s.leaving = false)
    (hPs : P s) : P ((executeNumbered call n line).run.run s).2 := by
  refine Keeps.tryCatch (h.executeLine hcall line hs hPs) fun e => ?_
  split
  · exact .throw _
  · exact .throw _

omit hcall in
theorem Lasting.keeps_playRound {body : Run Unit} (hbody : Keeps P body) : Keeps P (playRound body) := by
  refine .bind (.modify h.unmarks) fun _ => hbody.bind fun _ => .get fun s _ => .ite ?_ (.pure _)
  exact .bind (.modify h.unbreaks) fun _ => .pure _

omit hcall in
theorem Lasting.keeps_whileLoop {condition : Run Bool} {body : Run Unit} (hcondition : Keeps P condition)
    (hbody : Keeps P body) (rounds : Nat) : Keeps P (whileLoop condition body rounds) := by
  induction rounds with
  | zero => exact hcondition.bind fun _ => h.framed.keeps_report _
  | succ rounds ih =>
    refine hcondition.bind fun b => .ite ?_ (.pure _)
    exact (h.keeps_playRound hbody).bind fun left => .ite (.pure _) ih

omit hcall in
theorem Lasting.keeps_itemLoop {body : Run Unit} (hbody : Keeps P body) (name : String) (cell : Nat)
    (rounds i : Nat) : Keeps P (itemLoop name cell body rounds i) := by
  induction rounds generalizing i with
  | zero => exact .throw _
  | succ rounds ih =>
    refine .get fun s _ => ?_
    split
    · exact .pure _
    · refine (h.framed.keeps_assign name _).bind fun _ => (h.keeps_playRound hbody).bind fun left => ?_
      exact .ite (.pure _) (ih _)

omit hcall in
theorem Lasting.keeps_rangeLoop {body : Run Unit} (hbody : Keeps P body) (name : String) (last : Float)
    (rounds : Nat) (current : Float) : Keeps P (rangeLoop name last body rounds current) := by
  induction rounds generalizing current with
  | zero => exact .throw _
  | succ rounds ih =>
    refine .ite ?_ (.pure _)
    refine (h.framed.keeps_assign name _).bind fun _ => (h.keeps_playRound hbody).bind fun left => ?_
    exact .ite (.pure _) (ih _)

theorem Lasting.keeps_countedLoop {body : Run Unit} (hbody : Keeps P body) (header : LoopHeader) :
    Keeps P (countedLoop call header body) := by
  have heval : ∀ expr, Keeps P (evaluate call expr) :=
    h.framed.keeps_evaluate fun _ name _ _ => hcall name
  unfold countedLoop
  split
  · refine (heval _).bind fun v => ?_
    split
    · exact h.keeps_itemLoop hbody _ _ _ _
    · exact .throw _
  · refine (heval _).bind fun v => (keeps_floatOf v).bind fun first => ?_
    refine (heval _).bind fun w => (keeps_floatOf w).bind fun last => ?_
    exact h.keeps_rangeLoop hbody _ _ _ _
  · exact .throw _
  · exact .throw _

theorem Lasting.keeps_executeBranch {lines : Array String} {i : Nat}
    (hblock : ∀ j stop, i < j → Keeps P (executeBlock call lines j stop)) (done : Bool) :
    Keeps P (executeBranch call lines i done) := by
  rw [executeBranch]
  split
  next hi =>
    have hnext : ∀ k done, i < k → Keeps P (executeBranch call lines k done) := fun k done hk =>
      Lasting.keeps_executeBranch (fun j stop hj => hblock j stop (Nat.lt_trans hk hj)) done
    have hbranch := le_blockEnd branchWords (show i + 1 ≤ lines.size from hi)
    have hclose := le_blockEnd [closingWord] (show i + 1 ≤ lines.size from hi)
    have hbody := fun stop => hblock (i + 1) stop (Nat.lt_succ_self i)
    split
    next expr _ =>
      refine (h.framed.keeps_holds (fun _ name _ _ => hcall name) expr).bind fun b => ?_
      exact .ite ((hbody _).bind fun _ => hnext _ _ hbranch) (hnext _ _ hbranch)
    · exact .ite ((hbody _).bind fun _ => hnext _ _ hclose) (hnext _ _ hclose)
    · exact .pure _
    · exact hnext _ _ (Nat.lt_succ_self i)
  · exact .pure _
termination_by lines.size - i

theorem Lasting.statementAt {lines : Array String} {i : Nat}
    (hblock : ∀ j stop, i < j → Keeps P (executeBlock call lines j stop)) {s : State}
    (hs : s.leaving = false) (hPs : P s) : P ((statementAt call lines i).run.run s).2 := by
  have hbody := hblock (i + 1) (blockEnd lines (i + 1) [closingWord]) (Nat.lt_succ_self i)
  have hholds := h.framed.keeps_holds (fun _ name _ _ => hcall name)
  unfold Extended.statementAt runLine
  dsimp only
  split
  · exact h.keeps_define lines i s hPs
  · split
    · exact h.keeps_executeBranch hcall hblock false s hPs
    · split
      · exact h.keeps_whileLoop (hholds _) hbody _ s hPs
      · split
        · exact h.keeps_countedLoop hcall hbody _ s hPs
        · split
          · exact hPs
          · exact h.executeNumbered hcall _ _ hs hPs

theorem Lasting.keeps_executeBlock (lines : Array String) (i stop : Nat) :
    Keeps P (executeBlock call lines i stop) := by
  by_cases hi : i < lines.size ∧ i < stop
  · have hblock : ∀ j stop, i < j → Keeps P (executeBlock call lines j stop) := fun j stop hj =>
      Lasting.keeps_executeBlock lines j stop
    rw [executeBlock_of_lt hi.1 hi.2]
    intro s hPs
    unfold inTurn
    rw [run_get_bind]
    cases hs : s.leaving with
    | true => exact hPs
    | false =>
      rw [if_neg Bool.false_ne_true]
      exact Keeps.after (h.statementAt hcall hblock hs hPs) fun _ => hblock _ _ (lt_nextLine hi.1)
  · rw [executeBlock, dif_neg hi]
    exact .pure _
termination_by lines.size - i

end Blocks

/-! ## Calls -/

/-- A call keeps what the body of a function keeps. -/
theorem keeps_callFunction_succ {P : State → Prop} (hP : Framed P)
    (hreturn : ∀ s b, P s → P { s with returning := b }) {depth : Nat}
    (hblock : ∀ lines i stop, Keeps P (executeBlock (callFunction depth) lines i stop)) (name : String)
    (args : List Value) : Keeps P (callFunction (depth + 1) name args) := by
  unfold callFunction
  refine .get fun s _ => ?_
  split
  · exact .throw _
  next f _ =>
    dsimp only
    split
    · exact fun _ hs => hs
    · refine .get fun t _ => ?_
      have hbefore : ∀ u : State, P u → P { u with returning := false, result := .none } := fun u hu =>
        @hP { u with returning := false } _ rfl rfl (hreturn u false hu)
      have hafter : ∀ u : State, P u → P { u with «variables» := t.variables, returning := false } :=
        fun u hu => @hP { u with returning := false } _ rfl rfl (hreturn u false hu)
      refine .bind (.modify hbefore) fun _ => ?_
      refine .bind (.forM (fun (p : String × Value) => hP.keeps_assign p.1 p.2) _) fun _ => ?_
      refine (hblock _ _ _).bind fun _ => .get fun u _ => ?_
      exact .bind (.modify hafter) fun _ => .pure _

theorem Lasting.keeps_callFunction {P : State → Prop} (h : Lasting P) (depth : Nat) (name : String)
    (args : List Value) : Keeps P (callFunction depth name args) := by
  induction depth generalizing name args with
  | zero => exact .throw _
  | succ depth ih =>
    exact keeps_callFunction_succ h.framed h.returns (h.keeps_executeBlock ih) name args

/-- While the program, a loop or a round is being left, functions do nothing. -/
theorem keeps_callFunction_of_leaving {P : State → Prop} (hP : Framed P)
    (hreturn : ∀ s b, P s → P { s with returning := b }) (hleaving : ∀ s, P s → s.leaving = true)
    (depth : Nat) (name : String) (args : List Value) : Keeps P (callFunction depth name args) := by
  cases depth with
  | zero => exact .throw _
  | succ depth =>
    refine keeps_callFunction_succ hP hreturn (fun lines i stop s hs => ?_) name args
    rw [executeBlock_of_leaving (hleaving s hs)]
    exact hs

end Birokrasi.Extended
