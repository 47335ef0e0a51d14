import Birokrasi.Proofs.ArgumentLists
import Birokrasi.Proofs.ExpressionForms
import Birokrasi.Proofs.Marks

/-!
# Operands of sums

An operand is a quoted text, a name, an item of a container or a function of another operand. It is
written in one way only, and what is looked for in it to cut an expression is found in the text quoted
there and nowhere else (`cut?_written`). An item and a call are recognised from the front, whatever follows
them (`evaluate_item`, `evaluate_call`), and the evaluation of an operand leaves the state as it is
(`keeps_written`).
-/

namespace Birokrasi.Extended

open Birokrasi.Text

/-! ## Operands -/

/-- The functions that take a value for a number or a text. -/
def Builtin.measures : List Builtin := [.length, .number, .text]

/-- What a sum is written of: a text without quotes inside, a name, an item with an integer as its key, or
a function of an operand. -/
inductive Operand where
  | text (q : Char) (content : List Char) (quote : q = '"' ∨ q = '\'')
    (valid : '"' ∉ content ∧ '\'' ∉ content)
  | name (name : List Char) (valid : isName name = true)
  | item (name key : List Char) (valid : isName name = true ∧ isInteger key = true)
  | call (f : Builtin) (arg : Operand) (valid : f ∈ Builtin.measures)

namespace Operand

/-- An operand as it is written. -/
def written : Operand → List Char
  | text q a _ _ => q :: (a ++ [q])
  | name n _ => n
  | item n k _ => n ++ '[' :: (k ++ [']'])
  | call f arg _ => f.name.toList ++ '(' :: (arg.written ++ [')'])

/-- The text that is quoted in an operand. -/
def content : Operand → List Char
  | text _ a _ _ => a
  | call _ arg _ => arg.content
  | _ => []

/-- What stands before it. -/
def opening : Operand → List Char
  | text q _ _ _ => [q]
  | call f arg _ => f.name.toList ++ '(' :: arg.opening
  | l => l.written

/-- What stands behind it. -/
def closing : Operand → List Char
  | text q _ _ _ => [q]
  | call _ arg _ => arg.closing ++ [')']
  | _ => []

/-- The quote that an operand begins and ends with. -/
def quote? : Operand → Option Char
  | text q _ _ _ => some q
  | _ => none

/-- Whether an operand ends with a parenthesis. -/
def isCall : Operand → Bool
  | call _ _ _ => true
  | _ => false

end Operand

variable {op : Operator} {c : Char} {s lead tail : List Char} {l r : Operand} {call : Caller}

/-! ## Quotes -/

section Quotes

variable {q : Char} (hq : q = '"' ∨ q = '\'')
include hq

theorem isWord_quote : isWord q = false := by
  rcases hq with rfl | rfl <;> decide +kernel

theorem isBlank_quote : isBlank q = false := by
  rcases hq with rfl | rfl <;> decide

theorem not_mem_of_quote (hs : '"' ∉ s ∧ '\'' ∉ s) : q ∉ s := by
  rcases hq with rfl | rfl
  · exact hs.1
  · exact hs.2

end Quotes

/-! ## Where an operator is found -/

theorem isWord_of_mem_name (f : Builtin) : ∀ c ∈ f.name.toList, isWord c = true := by
  have hall : f.name.toList.all isWord = true := by cases f <;> decide +kernel
  exact List.all_eq_true.1 hall

theorem solid_of_name (f : Builtin) : Solid f.name.toList := fun c hc => .inl (isWord_of_mem_name f c hc)

theorem not_mem_sign (hop : op ∈ Operator.weak ++ [.plus])
    (hc : c ∈ ['"', '\'', '(', ')', '[', ']']) : c ∉ op.sign.toList := by
  have hsigns : (Operator.weak ++ [Operator.plus]).all (fun op =>
      ['"', '\'', '(', ')', '[', ']'].all fun c => !op.sign.toList.contains c) = true := by decide
  simpa using List.all_eq_true.1 (List.all_eq_true.1 hsigns op hop) c hc

theorem cut?_ends (hop : op ∈ Operator.weak ++ [.plus]) (hblanks : (lead ++ tail).Sublist [' '])
    (hs : Solid s) : cut? op.sign.toList (lead ++ s) = none ∧ cut? op.sign.toList tail = none := by
  have hlead : (lead ++ []).Sublist [' '] := (by simp : (lead ++ []).Sublist (lead ++ tail)).trans hblanks
  have htail : ([] ++ tail).Sublist [' '] := (by simp : ([] ++ tail).Sublist (lead ++ tail)).trans hblanks
  exact ⟨by simpa using cut?_blank_solid hop hlead hs, cut?_blank_solid hop htail solid_nil⟩

/-- The sign of a weak operator or of a sum is found in an operand exactly where it is found in the text
quoted there, with a blank at one of the ends or not. -/
theorem cut?_written (hop : op ∈ Operator.weak ++ [.plus]) (l : Operand) (lead tail : List Char)
    (hblanks : (lead ++ tail).Sublist [' ']) :
    cut? op.sign.toList (lead ++ l.written ++ tail) = (cut? op.sign.toList l.content).map
      fun sides => (lead ++ l.opening ++ sides.1, sides.2 ++ l.closing ++ tail) := by
  have hquote {q : Char} (hq : q = '"' ∨ q = '\'') : q ∉ op.sign.toList :=
    not_mem_sign hop (by rcases hq with rfl | rfl <;> decide)
  have hparen : '(' ∉ op.sign.toList ∧ ')' ∉ op.sign.toList :=
    ⟨not_mem_sign hop (by decide), not_mem_sign hop (by decide)⟩
  have hbracket : '[' ∉ op.sign.toList ∧ ']' ∉ op.sign.toList :=
    ⟨not_mem_sign hop (by decide), not_mem_sign hop (by decide)⟩
  have hnil : cut? op.sign.toList [] = none := cut?_solid hop solid_nil
  induction l generalizing lead tail with
  | name n hn =>
    rw [Operand.written, cut?_blank_solid hop hblanks (solid_of_isName hn)]
    simp [Operand.content, hnil]
  | text q a hq ha =>
    obtain ⟨hlead, htail⟩ := cut?_ends hop hblanks solid_nil
    have htext : lead ++ (Operand.text q a hq ha).written ++ tail =
        (lead ++ []) ++ q :: (a ++ q :: tail) := by
      simp [Operand.written]
    rw [htext, cut?_append_cons (hquote hq), hlead, cut?_append_cons (hquote hq), htail]
    cases hcut : cut? op.sign.toList a <;> simp [Operand.content, hcut, Operand.opening, Operand.closing]
  | item n k h =>
    obtain ⟨hlead, htail⟩ := cut?_ends hop hblanks (solid_of_isName h.1)
    have htext : lead ++ (Operand.item n k h).written ++ tail =
        (lead ++ n) ++ '[' :: (k ++ ']' :: tail) := by
      simp [Operand.written]
    rw [htext, cut?_append_cons_eq_none hbracket.1 hlead
      (cut?_append_cons_eq_none hbracket.2 (cut?_solid hop (solid_of_isInteger h.2)) htail)]
    simp [Operand.content, hnil]
  | call f arg hf ih =>
    obtain ⟨hlead, htail⟩ := cut?_ends hop hblanks (solid_of_name f)
    have htext : lead ++ (Operand.call f arg hf).written ++ tail =
        (lead ++ f.name.toList) ++ '(' :: (arg.written ++ ')' :: tail) := by
      simp [Operand.written]
    have harg := ih [] [] (List.nil_sublist _)
    rw [List.append_nil, List.nil_append] at harg
    rw [htext, cut?_append_cons hparen.1, hlead, cut?_append_cons hparen.2, htail, harg]
    cases hcut : cut? op.sign.toList arg.content <;>
      simp [Operand.content, hcut, Operand.opening, Operand.closing]

/-! ## What an operand begins and ends with -/

theorem isName_ne_nil (h : isName s = true) : s ≠ [] := by
  rintro rfl
  cases h

theorem exists_head?_of_word (hne : s ≠ []) (hs : ∀ c ∈ s, isWord c = true) (t : List Char) :
    ∃ c, (s ++ t).head? = some c ∧ isWord c = true := by
  obtain ⟨c, s, rfl⟩ := List.exists_cons_of_ne_nil hne
  exact ⟨c, rfl, hs c List.mem_cons_self⟩

theorem name_ne_nil (f : Builtin) : f.name.toList ≠ [] := by
  cases f <;> decide

/-- An operand begins with its quote or, if it has none, with a character of a word. -/
theorem head?_written (l : Operand) (t : List Char) :
    ∃ c, (l.written ++ t).head? = some c ∧
      (l.quote? = some c ∨ l.quote? = none ∧ isWord c = true) := by
  cases l with
  | text q a hq ha => exact ⟨q, rfl, .inl rfl⟩
  | name n hn =>
    obtain ⟨c, hc, hword⟩ := exists_head?_of_word (isName_ne_nil hn) (isWord_of_isName hn) t
    exact ⟨c, hc, .inr ⟨rfl, hword⟩⟩
  | item n k h =>
    obtain ⟨c, hc, hword⟩ :=
      exists_head?_of_word (isName_ne_nil h.1) (isWord_of_isName h.1) ('[' :: (k ++ [']']) ++ t)
    exact ⟨c, by rwa [Operand.written, List.append_assoc], .inr ⟨rfl, hword⟩⟩
  | call f arg hf =>
    obtain ⟨c, hc, hword⟩ :=
      exists_head?_of_word (name_ne_nil f) (isWord_of_mem_name f) ('(' :: (arg.written ++ [')']) ++ t)
    exact ⟨c, by rwa [Operand.written, List.append_assoc], .inr ⟨rfl, hword⟩⟩

theorem getLast?_call (f : Builtin) (arg : Operand) (hf : f ∈ Builtin.measures) :
    (Operand.call f arg hf).written.getLast? = some ')' := by
  rw [Operand.written, ← List.cons_append, ← List.append_assoc, List.getLast?_concat]

/-- An operand ends with its quote, with a bracket, or with a character of a word. -/
theorem getLast?_written (l : Operand) :
    ∃ c, l.written.getLast? = some c ∧ (l.quote? = some c ∨ l.quote? = none ∧ c ∉ ['"', '\'']) ∧
      isBlank c = false ∧ (c = ')' → l.isCall = true) := by
  cases l with
  | text q a hq ha =>
    have hlast : ((q :: a) ++ [q]).getLast? = some q := List.getLast?_concat
    refine ⟨q, hlast, .inl rfl, isBlank_quote hq, ?_⟩
    rintro rfl
    exact absurd hq (by decide)
  | name n hn =>
    have hword := isWord_of_isName hn _ (List.getLast_mem (isName_ne_nil hn))
    refine ⟨n.getLast (isName_ne_nil hn), List.getLast?_eq_some_getLast _, .inr ⟨rfl, fun hmem => ?_⟩,
      isBlank_eq_false_of_isWord hword, fun heq => ?_⟩
    · have hsolid := solid_of_isName hn
      exact hsolid.not_mem_of_all (by decide +kernel) _ hmem (List.getLast_mem (isName_ne_nil hn))
    · rw [heq] at hword
      cases hword
  | item n k h =>
    have hlast : (n ++ '[' :: (k ++ [']'])).getLast? = some ']' := by
      rw [← List.cons_append, ← List.append_assoc, List.getLast?_concat]
    exact ⟨']', hlast, .inr ⟨rfl, by decide⟩, by decide, nofun⟩
  | call f arg hf =>
    exact ⟨')', getLast?_call f arg hf, .inr ⟨rfl, by decide⟩, by decide, fun _ => rfl⟩

theorem written_ne_nil (l : Operand) : l.written ≠ [] := by
  obtain ⟨c, hc, -⟩ := getLast?_written l
  intro hnil
  rw [hnil] at hc
  cases hc

theorem trim_written (l : Operand) : trim l.written = l.written := by
  obtain ⟨c, hhead, hc⟩ := head?_written l []
  obtain ⟨d, hlast, -, hd, -⟩ := getLast?_written l
  rw [List.append_nil] at hhead
  refine trim_eq_self_iff.2 ⟨?_, by rw [hlast]; exact hd⟩
  rw [hhead]
  rcases hc with hquote | ⟨-, hword⟩
  · cases l with
    | text q a hq ha =>
      cases hquote
      exact isBlank_quote hq
    | _ => cases hquote
  · exact isBlank_eq_false_of_isWord hword

/-! ## How operands are evaluated -/

theorem between?_enclosed (q : Char) (a : List Char) : between? q q (q :: (a ++ [q])) = some a := by
  have hlast : ((q :: a) ++ [q]).getLast? = some q := List.getLast?_concat
  rw [between?, if_pos ⟨rfl, hlast⟩, List.dropLast_concat]

/-- What begins and ends with the same quote is one text. -/
theorem literal?_enclosed {q : Char} (hq : q = '"' ∨ q = '\'') (a : List Char) :
    literal? (q :: (a ++ [q])) = some (.value (.text (String.ofList a))) := by
  rcases hq with rfl | rfl
  · rw [literal?, between?_enclosed]
  · rw [literal?, between?_enclosed, between?_of_head (by simp)]

theorem evaluate_text {q : Char} {a : List Char} (hq : q = '"' ∨ q = '\'')
    (ha : '"' ∉ a ∧ '\'' ∉ a) :
    evaluate call (Operand.text q a hq ha).written = pure (.text (String.ofList a)) := by
  refine evaluate_of_value ?_
  rw [trim_written, Operand.written, literal?_enclosed hq]

/-- What begins with a word and goes on is no literal. -/
theorem literal?_of_word (hne : s ≠ []) (hs : ∀ c ∈ s, isWord c = true) (hc : isWord c = false)
    (t : List Char) : literal? (s ++ c :: t) = none := by
  obtain ⟨d, hhead, hd⟩ := exists_head?_of_word hne hs (c :: t)
  have hbetween (first last : Char) (hfirst : isWord first = false) :
      between? first last (s ++ c :: t) = none := by
    refine between?_of_head ?_
    rw [hhead]
    rintro ⟨⟩
    rw [hd] at hfirst
    cases hfirst
  exact literal?_eq_none (hbetween _ _ (by decide +kernel)) (hbetween _ _ (by decide +kernel))
    (hbetween _ _ (by decide +kernel)) (hbetween _ _ (by decide +kernel)) (by simp) hc

theorem uptoInLine?_append {stop : Char} {k : List Char} (hk : ∀ c ∈ k, c ≠ stop ∧ c ≠ '\n')
    (t : List Char) : uptoInLine? stop (k ++ stop :: t) = some k := by
  induction k with
  | nil => exact if_pos rfl
  | cons d k ih =>
    obtain ⟨⟨hstop, hline⟩, hk⟩ := List.forall_mem_cons.1 hk
    rw [List.cons_append, uptoInLine?, if_neg hstop, if_neg hline, ih hk]
    rfl

theorem shortest?_append {stop : Char} {k : List Char} (hne : k ≠ [])
    (hk : ∀ c ∈ k, c ≠ stop ∧ c ≠ '\n') (t : List Char) :
    shortest? stop (k ++ stop :: t) = some k := by
  obtain ⟨d, k, rfl⟩ := List.exists_cons_of_ne_nil hne
  obtain ⟨⟨-, hline⟩, hk⟩ := List.forall_mem_cons.1 hk
  rw [List.cons_append, shortest?, if_neg hline, uptoInLine?_append hk]
  rfl

theorem isInteger_ne_nil (h : isInteger s = true) : s ≠ [] := by
  rintro rfl
  cases h

/-- An item is taken for itself wherever it stands at the front. -/
theorem evaluate_item {n k : List Char} (h : isName n = true ∧ isInteger k = true) (t : List Char)
    (ht : trim (n ++ '[' :: (k ++ ']' :: t)) = n ++ '[' :: (k ++ ']' :: t)) :
    evaluate call (n ++ '[' :: (k ++ ']' :: t)) = (do
      let container ← lookup (String.ofList n)
      let key ← evaluate call k
      access (String.ofList n) container key) := by
  have hword : word? (n ++ '[' :: (k ++ ']' :: t)) = some (n, '[' :: (k ++ ']' :: t)) :=
    word?_append (isName_ne_nil h.1) (isWord_of_isName h.1) (by decide +kernel)
  have hliteral : literal? (n ++ '[' :: (k ++ ']' :: t)) = none :=
    literal?_of_word (isName_ne_nil h.1) (isWord_of_isName h.1) (by decide +kernel) _
  have hcall : ∀ known, call? known (n ++ '[' :: (k ++ ']' :: t)) = .ok none := by
    refine call?_eq_none fun _ name rest hopen => ?_
    cases hword.symm.trans hopen
  have hkey : ∀ c ∈ k, c ≠ ']' ∧ c ≠ '\n' := by
    intro c hc
    constructor
    all_goals
      rintro rfl
      exact (solid_of_isInteger h.2).not_mem (by decide +kernel) (by decide) hc
  have hindexed : indexed? (n ++ '[' :: (k ++ ']' :: t)) = some (n, k) := by
    rw [indexed?, hword]
    simp only
    rw [shortest?_append (isInteger_ne_nil h.2) hkey]
    rfl
  rw [← ht] at hliteral hindexed
  rw [evaluate_of_compound hliteral (by rwa [ht]), evaluateCompound, compound, hindexed]

theorem ofName?_name (f : Builtin) : Builtin.ofName? f.name = some f := by
  cases f <;> decide

theorem Solid.bracketed {inside : Bool} (hs : Solid s) : Bracketed inside s :=
  .of_ordinary fun c hc hmem => hs.not_mem_of_all (by decide +kernel) c hmem hc

theorem bracketed_written (l : Operand) {inside : Bool} : Bracketed inside l.written := by
  induction l generalizing inside with
  | text q a hq ha => exact .quoted hq (not_mem_of_quote hq ha) .nil
  | name n hn => exact (solid_of_isName hn).bracketed
  | item n k h =>
    exact (solid_of_isName h.1).bracketed.append
      (.group (by decide) (solid_of_isInteger h.2).bracketed .nil)
  | call f arg hf ih => exact (solid_of_name f).bracketed.append (.group (by decide) ih .nil)

theorem splitArguments_written (l : Operand) : splitArguments l.written = [l.written] := by
  let arg : Argument :=
    { text := l.written, bracketed := bracketed_written l, ne_nil := written_ne_nil l,
      trimmed := trim_written l }
  have hlisted : listed [arg] = l.written := by simp [listed, Argument.written, arg]
  rw [← hlisted, splitArguments_listed]
  simp [arg, hlisted]

/-- A call of a function that every program has is taken for itself if what follows it ends with a
parenthesis. -/
theorem evaluate_call (f : Builtin) (arg : Operand) (t : List Char)
    (ht : trim (f.name.toList ++ '(' :: (arg.written ++ ')' :: t)) =
      f.name.toList ++ '(' :: (arg.written ++ ')' :: t))
    (hlast : (f.name.toList ++ '(' :: (arg.written ++ ')' :: t)).getLast? = some ')') :
    evaluate call (f.name.toList ++ '(' :: (arg.written ++ ')' :: t)) =
      (do f.apply [← evaluate call arg.written]) := by
  have hword : word? (f.name.toList ++ '(' :: (arg.written ++ ')' :: t)) =
      some (f.name.toList, '(' :: (arg.written ++ ')' :: t)) :=
    word?_append (name_ne_nil f) (isWord_of_mem_name f) (by decide +kernel)
  have hliteral : literal? (f.name.toList ++ '(' :: (arg.written ++ ')' :: t)) = none :=
    literal?_of_word (name_ne_nil f) (isWord_of_mem_name f) (by decide +kernel) _
  have hclosing : uptoClosing none 0 (arg.written ++ ')' :: t) = some arg.written := by
    have hbracketed : Bracketed false arg.written := bracketed_written arg
    rw [uptoClosing_append hbracketed, uptoClosing_last, Option.map_some, List.append_nil]
  have hcall (known : String → Bool) : call? known (f.name.toList ++ '(' :: (arg.written ++ ')' :: t)) =
      .ok (some (.builtin f, [arg.written])) := by
    rw [call?, callHead?, if_pos hlast, hword]
    simp only
    rw [hclosing, callee?, String.ofList_toList, ofName?_name]
    exact congrArg (fun args => Except.ok (some (Callee.builtin f, args))) (splitArguments_written arg)
  rw [← ht] at hliteral
  rw [evaluate_of_builtin hliteral (by rwa [ht])]
  simp

theorem evaluate_written_item {n k : List Char} (h : isName n = true ∧ isInteger k = true) :
    evaluate call (Operand.item n k h).written = (do
      let container ← lookup (String.ofList n)
      let key ← evaluate call k
      access (String.ofList n) container key) :=
  evaluate_item h [] (trim_written (.item n k h))

theorem evaluate_written_call (f : Builtin) (arg : Operand) (hf : f ∈ Builtin.measures) :
    evaluate call (Operand.call f arg hf).written = (do f.apply [← evaluate call arg.written]) :=
  evaluate_call f arg [] (trim_written (.call f arg hf)) (getLast?_call f arg hf)

/-! ## The state is kept -/

variable {P : State → Prop}

/-- An integer is not cut: its minus sign is at the front. -/
theorem operation?_of_isInteger (h : isInteger s = true) : operation? s = none := by
  have hsolid := solid_of_isInteger h
  have hrest (hhead : s.head? ≠ some '-') : '-' ∉ s := by
    rw [isInteger, Bool.and_eq_true, if_neg hhead] at h
    intro hmem
    cases List.all_eq_true.1 h.2 '-' hmem
  have hmarks : [Operator.times, .«over», .modulo].all (fun op =>
      op.sign.toList.any fun c => !isWord c && c != '-') = true := by decide +kernel
  have hall : ∀ op : Operator, op ∈ Operator.weak ++ [.plus] ∨ op = .minus ∨
      op ∈ [Operator.times, .«over», .modulo] := by
    intro op
    cases op <;> decide
  rw [operation?, List.findSome?_eq_none_iff]
  intro op _
  rw [Option.map_eq_none_iff, Operator.sides?]
  split
  next => rfl
  next hfront =>
    rcases hall op with hop | rfl | hop
    · exact cut?_solid hop hsolid
    · have hhead : s.head? ≠ some '-' := by simpa using hfront
      exact cut?_eq_none List.mem_cons_self (hrest hhead)
    · obtain ⟨c, hc, hout⟩ := List.any_eq_true.1 (List.all_eq_true.1 hmarks op hop)
      simp only [Bool.and_eq_true, Bool.not_eq_true', bne_iff_ne] at hout
      exact cut?_eq_none hc (hsolid.not_mem hout.1 hout.2)

/-- Of a name or of a number there is nothing to evaluate first. -/
theorem keeps_solid (hs : Solid s) (h : isName s = true ∨ operation? s = none) :
    Keeps P (evaluate call s) := by
  have hnot : ∀ c ∈ ['"', '\'', '[', '\x7b', '('], c ∉ s := hs.not_mem_of_all (by decide +kernel)
  have hliteral : literal? (trim s) = none ∨ ∃ v, literal? (trim s) = some (.value v) := by
    rw [hs.trim_eq, literal?, between?_of_not_mem (hnot _ (by decide)),
      between?_of_not_mem (hnot _ (by decide)), between?_of_not_mem (hnot _ (by decide)),
      between?_of_not_mem (hnot _ (by decide))]
    dsimp only
    repeat' split
    · exact .inr ⟨_, rfl⟩
    · exact .inr ⟨_, rfl⟩
    · exact .inr ⟨_, rfl⟩
    · exact .inl rfl
  rcases hliteral with hnone | ⟨v, hv⟩
  · have hcall : ∀ known, call? known (trim s) = .ok none := by
      rw [hs.trim_eq]
      exact call?_of_no_parenthesis (hnot _ (by decide))
    rw [evaluate_of_compound hnone hcall, hs.trim_eq, evaluateCompound, compound,
      indexed?_eq_none (hnot _ (by decide))]
    dsimp only
    cases number? s with
    | some v => exact .pure v
    | none =>
      cases hname : isName s with
      | true => exact keeps_lookup _
      | false =>
        rw [h.resolve_left (by simp [hname])]
        exact .throw _
  · rw [evaluate_of_value hv]
    exact .pure v

theorem keeps_measure {f : Builtin} (hf : f ∈ Builtin.measures) (v : Value) : Keeps P (f.apply [v]) := by
  simp only [Builtin.measures, List.mem_cons, List.not_mem_nil, or_false] at hf
  rcases hf with rfl | rfl | rfl
  · refine .get fun s _ => ?_
    split
    · exact .pure _
    · exact .throw _
  · exact (keeps_floatOf v).bind fun _ => .pure _
  · exact (keeps_textOf v).bind fun _ => .pure _

/-- The evaluation of an operand leaves the state as it is. -/
theorem keeps_written (l : Operand) : Keeps P (evaluate call l.written) := by
  induction l with
  | text q a hq ha =>
    rw [evaluate_text]
    exact .pure _
  | name n hn => exact keeps_solid (solid_of_isName hn) (.inl hn)
  | item n k h =>
    rw [evaluate_written_item]
    refine (keeps_lookup _).bind fun container => ?_
    refine (keeps_solid (solid_of_isInteger h.2) (.inr (operation?_of_isInteger h.2))).bind fun key => ?_
    exact keeps_access _ _ _
  | call f arg hf ih =>
    rw [evaluate_written_call]
    exact ih.bind fun v => keeps_measure hf v

end Birokrasi.Extended
