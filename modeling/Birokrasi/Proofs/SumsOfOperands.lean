import Birokrasi.Proofs.Operands

/-!
# Sums of two operands

A sum of two operands, `l + r`, is an expression like others and is taken for the first form that it looks
like. So it is not always read as a sum (`Operand.reading`). Two texts with the same quotes around them are
one text; an item in front, or a call in front of a call, is all that is seen; and an operator that stands
inside of quotes is found there, before the plus between the operands or instead of it.

The main statement is `sum_of_operands`: what a sum comes to in each of these readings. If it is read as a
sum, it comes to the sum of the values of the operands; if it is one text or is torn apart, it never does.
-/

namespace Birokrasi.Extended

open Birokrasi.Text

/-! ## How a sum is read -/

namespace Operand

/-- A sum as it is written. -/
def sum (l r : Operand) : List Char := l.written ++ ' ' :: '+' :: ' ' :: r.written

/-- Whether a sum looks like an operation. It looks like one text if it begins and ends with the same quote,
and like its first operand if this is an item, or a call and the sum ends with a parenthesis. -/
def apart : Operand → Operand → Bool
  | text q _ _ _, text q' _ _ _ => q ≠ q'
  | item _ _ _, _ => false
  | call _ _ _, call _ _ _ => false
  | _, _ => true

/-- Whether the sign of an operator that binds weaker than a sum stands in one of the quoted texts. -/
def weakInside (l r : Operand) : Bool :=
  Operator.weak.any fun op => occursIn op.sign.toList l.content || occursIn op.sign.toList r.content

/-- What a sum is taken for. -/
inductive Reading where
  /-- One text, from the first quote to the last one. -/
  | quoted (whole : List Char)
  /-- The first operand alone. -/
  | first
  /-- The sum of the two operands. -/
  | sum
  /-- The empty text, to which the value of what follows the first plus inside of quotes is added. -/
  | resumed (rest : List Char)
  /-- An operation whose operator stands inside of quotes. -/
  | torn

/-- What a sum that looks like an operation is taken for. -/
def cutReading (l r : Operand) : Reading :=
  if weakInside l r then .torn
  else
    match cut? ['+'] l.content, l with
    | none, _ => .sum
    | some (before, rest), text q _ _ _ =>
      if before.all isBlank then .resumed (rest ++ q :: ' ' :: '+' :: ' ' :: r.written) else .torn
    | some _, _ => .torn

/-- What a sum is taken for. -/
def reading (l r : Operand) : Reading :=
  match l, r with
  | text q a _ _, text q' b _ _ =>
    if q = q' then .quoted (a ++ q :: ' ' :: '+' :: ' ' :: q :: b) else cutReading l r
  | item _ _ _, _ => .first
  | call _ _ _, call _ _ _ => .first
  | _, _ => cutReading l r

theorem reading_of_apart {l r : Operand} (h : apart l r = true) : reading l r = cutReading l r := by
  unfold reading
  split
  next => exact if_neg (of_decide_eq_true h)
  next => cases h
  next => cases h
  next => rfl

end Operand

variable {op : Operator} {c : Char} {s left right : List Char} {l r : Operand} {call : Caller}

/-! ## Where an operator is found -/

/-- What is found in a sum of two operands is found in one of the texts quoted there. -/
theorem cut?_sum (hop : op ∈ Operator.weak) (l r : Operand) :
    cut? op.sign.toList (l.sum r) =
      ((cut? op.sign.toList l.content).map fun sides =>
        (l.opening ++ sides.1, sides.2 ++ l.closing ++ ' ' :: '+' :: ' ' :: r.written)).or
      ((cut? op.sign.toList r.content).map fun sides =>
        (l.written ++ ' ' :: '+' :: ' ' :: (r.opening ++ sides.1), sides.2 ++ r.closing)) := by
  have hplus : '+' ∉ op.sign.toList := by
    have hall : ∀ op ∈ Operator.weak, '+' ∉ op.sign.toList := by decide
    exact hall op hop
  have hmem : op ∈ Operator.weak ++ [.plus] := List.mem_append_left _ hop
  have htext : l.sum r = ([] ++ l.written ++ [' ']) ++ '+' :: ([' '] ++ r.written ++ []) := by
    simp [Operand.sum]
  rw [htext, cut?_append_cons hplus, cut?_written hmem l [] [' '] (.refl _),
    cut?_written hmem r [' '] [] (.refl _)]
  simp [Function.comp_def]

/-- A plus is found in the first operand, if the text quoted there holds one, or else behind it. -/
theorem cut?_plus_sum (l r : Operand) :
    cut? ['+'] (l.sum r) =
      some (match cut? ['+'] l.content with
        | some sides => (l.opening ++ sides.1, sides.2 ++ l.closing ++ ' ' :: '+' :: ' ' :: r.written)
        | none => (l.written ++ [' '], ' ' :: r.written)) := by
  have hop : Operator.plus ∈ Operator.weak ++ [.plus] := by decide
  have hl := cut?_written hop l [] [] (List.nil_sublist _)
  have hr : cut? ['+'] ('+' :: ' ' :: r.written) = some ([], ' ' :: r.written) :=
    cut?_append List.not_mem_nil
  rw [List.append_nil, List.nil_append] at hl
  rw [Operand.sum, cut?_append_cons (by decide), hr]
  simp only [show Operator.plus.sign.toList = ['+'] from rfl] at hl
  rw [hl]
  cases cut? ['+'] l.content <;> simp

/-! ## What a sum is not taken for -/

theorem trim_sum (l r : Operand) : trim (l.sum r) = l.sum r := by
  have htrim := trim_append (written_ne_nil l) (written_ne_nil r) (trim_written l) (trim_written r)
    [' ', '+', ' ']
  simpa [Operand.sum] using htrim

theorem blank_mem_sum (l r : Operand) : ' ' ∈ l.sum r := by
  simp [Operand.sum]

theorem getLast?_sum (l r : Operand) : (l.sum r).getLast? = r.written.getLast? := by
  have htext : l.sum r = (l.written ++ [' ', '+', ' ']) ++ r.written := by simp [Operand.sum]
  rw [htext, List.getLast?_append, Option.or_of_isSome (by simp [written_ne_nil])]

theorem mem_of_quote? (h : l.quote? = some c) : c ∈ ['"', '\''] := by
  cases l with
  | text q a hq ha =>
    cases h
    simpa using hq
  | _ => cases h

theorem quote?_ne_of_apart (h : l.apart r = true) (hl : l.quote? = some c) : r.quote? ≠ some c := by
  cases l with
  | text q a hq ha =>
    cases r with
    | text q' b hq' hb =>
      have hne : q ≠ q' := of_decide_eq_true h
      intro hr
      cases hl
      cases hr
      exact hne rfl
    | _ => nofun
  | _ => cases hl

theorem literal?_sum (h : l.apart r = true) : literal? (l.sum r) = none := by
  obtain ⟨c, hhead, hc⟩ := head?_written l (' ' :: '+' :: ' ' :: r.written)
  obtain ⟨d, hlast, hd, -⟩ := getLast?_written r
  have hfirst (first last : Char) (hword : isWord first = false) (hne : l.quote? ≠ some first) :
      between? first last (l.sum r) = none := by
    refine between?_of_head fun heq => ?_
    cases hhead.symm.trans heq
    rcases hc with hquote | ⟨-, hc⟩
    · exact hne hquote
    · rw [hc] at hword
      cases hword
  have hquote (q : Char) (hq : q ∈ ['"', '\'']) (hword : isWord q = false) :
      between? q q (l.sum r) = none := by
    by_cases hl : l.quote? = some q
    · refine between?_of_last fun heq => ?_
      rw [getLast?_sum, hlast] at heq
      cases heq
      rcases hd with hr | ⟨-, hd⟩
      · exact quote?_ne_of_apart h hl hr
      · exact hd hq
    · exact hfirst q q hword hl
  have hbracket (first last : Char) (hword : isWord first = false) (hne : first ∉ ['"', '\'']) :
      between? first last (l.sum r) = none :=
    hfirst first last hword fun hl => hne (mem_of_quote? hl)
  exact literal?_eq_none (hquote _ (by decide) (by decide +kernel))
    (hquote _ (by decide) (by decide +kernel)) (hbracket _ _ (by decide +kernel) (by decide))
    (hbracket _ _ (by decide +kernel) (by decide))
    (blank_mem_sum l r) (by decide +kernel)

/-- Behind the word at the front of such a sum stands no bracket, and a parenthesis only if it is a call. -/
theorem word?_sum (h : l.apart r = true) {name rest : List Char}
    (hword : word? (l.sum r) = some (name, c :: rest)) : c ≠ '[' ∧ (c = '(' → l.isCall = true) := by
  cases l with
  | text q a hq ha =>
    have hnone : word? ((Operand.text q a hq ha).sum r) = none :=
      word?_eq_none (isWord_quote hq)
    cases hnone.symm.trans hword
  | name n hn =>
    have hblank : word? ((Operand.name n hn).sum r) = some (n, ' ' :: '+' :: ' ' :: r.written) :=
      word?_append (isName_ne_nil hn) (isWord_of_isName hn) (by decide +kernel)
    cases hblank.symm.trans hword
    exact ⟨by decide, nofun⟩
  | item n k hn => cases h
  | call f arg hf =>
    have hopen : word? ((Operand.call f arg hf).sum r) =
        some (f.name.toList, '(' :: (arg.written ++ [')']) ++ ' ' :: '+' :: ' ' :: r.written) := by
      rw [Operand.sum, Operand.written, List.append_assoc]
      exact word?_append (name_ne_nil f) (isWord_of_mem_name f) (by decide +kernel)
    cases hopen.symm.trans hword
    exact ⟨by decide, fun _ => rfl⟩

theorem call?_sum (h : l.apart r = true) : ∀ known, call? known (l.sum r) = .ok none := by
  refine call?_eq_none fun hlast name rest hword => ?_
  have hl := (word?_sum h hword).2 rfl
  obtain ⟨d, hd, -, -, hr⟩ := getLast?_written r
  rw [getLast?_sum, hd] at hlast
  cases hlast
  specialize hr rfl
  cases l with
  | call f arg hf =>
    cases r with
    | call g arg' hg => cases h
    | _ => cases hr
  | _ => cases hl

theorem indexed?_sum (h : l.apart r = true) : indexed? (l.sum r) = none :=
  indexed?_of_word fun _ _ hword => (word?_sum h hword).1 rfl

/-- A sum that looks like an operation is cut where an operator is found first. -/
theorem evaluate_sum_of_operation (h : l.apart r = true)
    (hoperation : operation? (l.sum r) = some (op, left, right)) :
    evaluate call (l.sum r) = (do
      let x ← evaluate call left
      let y ← evaluate call right
      op.apply x y) := by
  have htrim := trim_sum l r
  refine evaluate_of_operation ?_ ?_ ?_ (c := ' ') ?_ (by decide) (by decide +kernel) ?_
  · rw [htrim]
    exact literal?_sum h
  · rw [htrim]
    exact call?_sum h
  · rw [htrim]
    exact indexed?_sum h
  · rw [htrim]
    exact blank_mem_sum l r
  · rw [htrim, hoperation]

/-! ## What an operation comes to -/

theorem yields_ofFault {α : Type} (r : Except Fault α) : Yields (fun a => r = .ok a) (ofFault r) := by
  cases r with
  | error f => exact .throw _
  | ok a => exact .pure rfl

/-- The kinds of values that are calculated with. -/
def numberKinds : List Kind := [.bool, .int, .float]

/-- An operation other than a sum comes to a number, or to a truth value. -/
theorem yields_number (hop : op ≠ .plus) (x y : Value) :
    Yields (fun v => v.kind ∈ numberKinds) (op.apply x y) := by
  have hfloats (f : Number → Number → Except Fault Number) :
      Yields (fun v => v.kind ∈ numberKinds) (Operator.onFloats f x y) := by
    refine .bind_any fun a => .bind_any fun b => .bind_any fun n => .pure ?_
    cases n <;> simp [Value.ofNumber, Value.kind, numberKinds]
  have hcomparing (c : Value.Comparison) :
      Yields (fun v => v.kind ∈ numberKinds) (Operator.comparing c x y) :=
    .bind_any fun a => .bind_any fun b => .pure List.mem_cons_self
  refine .bind_any fun s => ?_
  cases op with
  | plus => exact absurd rfl hop
  | equal | notEqual | and | or => exact .pure List.mem_cons_self
  | lessEq | greaterEq | less | greater => exact hcomparing _
  | minus | times | «over» | modulo => exact hfloats _

/-- An operation that binds weaker than a sum comes to a truth value. -/
theorem yields_bool (hop : op ∈ Operator.weak) (x y : Value) :
    Yields (fun v => v.kind = .bool) (op.apply x y) := by
  have hcomparing (c : Value.Comparison) : Yields (fun v => v.kind = .bool) (Operator.comparing c x y) :=
    .bind_any fun a => .bind_any fun b => .pure rfl
  refine .bind_any fun s => ?_
  cases op with
  | equal | notEqual | and | or => exact .pure rfl
  | lessEq | greaterEq | less | greater => exact hcomparing _
  | plus | minus | times | «over» | modulo => cases (by decide : ¬ _ ∈ Operator.weak) hop

/-- What kinds a sum and its first operand can have: the same one, or numbers. -/
def SumKinds (first whole : Kind) : Prop :=
  first ∈ [.text, .list, .tuple] ∧ whole = first ∨ first ∈ numberKinds ∧ whole ∈ [.int, .float]

namespace SumKinds

variable {first whole : Kind}

theorem of_number (h : SumKinds first whole) (hfirst : first ∈ numberKinds) : whole ∈ [.int, .float] := by
  have hdisjoint : ∀ k ∈ numberKinds, k ∉ [Kind.text, .list, .tuple] := by decide
  rcases h with ⟨hmem, -⟩ | ⟨-, hmem⟩
  · exact absurd hmem (hdisjoint first hfirst)
  · exact hmem

theorem of_text (h : SumKinds .text whole) : whole = .text := by
  rcases h with ⟨-, heq⟩ | ⟨hmem, -⟩
  · exact heq
  · exact absurd hmem (by decide)

theorem not_bool : ¬ SumKinds first .bool := by
  rintro (⟨hmem, rfl⟩ | ⟨-, hmem⟩)
  · exact absurd hmem (by decide)
  · exact absurd hmem (by decide)

end SumKinds

theorem kind_of_number {x : Value} {m : Number} (h : x.number? = some m) : x.kind ∈ numberKinds := by
  cases x with
  | bool | int | float => simp [Value.kind, numberKinds]
  | _ => cases h

theorem sumKinds_of_add {x y z : Value} (h : x.add y = .ok z) : SumKinds x.kind z.kind := by
  unfold Value.add at h
  split at h
  · cases h
    exact .inl ⟨by simp [Value.kind], rfl⟩
  · cases h
    exact .inl ⟨by simp [Value.kind], rfl⟩
  · cases h
    exact .inl ⟨by simp [Value.kind], rfl⟩
  · split at h
    · cases h
    · cases h
    · cases h
    · unfold Value.numeric at h
      split at h
      next m n hm hn =>
        obtain ⟨k, -, hk⟩ := bind_eq_ok.1 h
        cases hk
        exact .inr ⟨kind_of_number hm, by cases k <;> simp [Value.ofNumber, Value.kind]⟩
      next => cases h

theorem yields_sumKinds (x y : Value) :
    Yields (fun z => SumKinds x.kind z.kind) (Operator.plus.apply x y) := by
  refine .bind_any fun s => .bind (yields_ofFault _) fun (v, store) hadd => .bind_any fun _ => .pure ?_
  unfold Store.add at hadd
  split at hadd
  next =>
    cases hadd
    exact .inl ⟨by simp [Value.kind], rfl⟩
  next =>
    obtain ⟨z, hz, heq⟩ := bind_eq_ok.1 hadd
    cases heq
    exact sumKinds_of_add hz

/-! ## Quotes that are not closed -/

variable {q : Char} {f u before rest : List Char}

section UnclosedText

variable (hq : q = '"' ∨ q = '\'') (hquotes : '"' ∉ u ∧ '\'' ∉ u) (hblank : u.all isBlank = false)
include hq hquotes hblank

/-- A quote with something behind it that does not close it is no text, and nothing else. -/
theorem literal?_unclosed : literal? (q :: trimEnd u) = none := by
  have hlast : (q :: trimEnd u).getLast? ≠ some q := by
    obtain ⟨c, hc, hcblank⟩ := List.all_eq_false.1 hblank
    have hmem : c ∈ trimEnd u := by
      rw [trimEnd, List.mem_reverse]
      exact mem_dropWhile_isBlank (List.mem_reverse.2 hc) (by simpa using hcblank)
    obtain ⟨w, d, hw⟩ := (List.eq_nil_or_concat (trimEnd u)).resolve_left (List.ne_nil_of_mem hmem)
    rw [hw, List.concat_eq_append, ← List.cons_append, List.getLast?_concat]
    rintro ⟨⟩
    exact not_mem_of_quote hq hquotes (trimEnd_subset u (by simp [hw]))
  have hquote (first : Char) : between? first first (q :: trimEnd u) = none := by
    by_cases hfirst : q = first
    · exact between?_of_last (hfirst ▸ hlast)
    · exact between?_of_head fun heq => hfirst (Option.some.inj heq)
  have hbracket (first last : Char) (hne : first ∉ ['"', '\'']) :
      between? first last (q :: trimEnd u) = none := by
    refine between?_of_head fun heq => hne ?_
    cases heq
    simpa using hq
  exact literal?_eq_none (hquote _) (hquote _) (hbracket _ _ (by decide)) (hbracket _ _ (by decide))
    List.mem_cons_self (isWord_quote hq)

/-- It comes to a number, if to anything: without a plus in it, it is cut at another operator. -/
theorem yields_unclosed_text (hplus : '+' ∉ u) :
    Yields (fun v => v.kind ∈ numberKinds) (evaluate call (q :: u)) := by
  have htrim : trim (q :: u) = q :: trimEnd u :=
    trim_append_cons (l := []) (isBlank_quote hq) (isBlank_quote hq)
  have hliteral : literal? (trim (q :: u)) = none := by
    rw [htrim]
    exact literal?_unclosed hq hquotes hblank
  have hnoword (name rest : List Char) : word? (trim (q :: u)) ≠ some (name, rest) := by
    rw [htrim, word?_eq_none (isWord_quote hq)]
    intro h
    cases h
  rw [evaluate_eq_operation hliteral (call?_eq_none fun _ name rest => hnoword name _)
    (indexed?_of_word fun name rest => hnoword name _) (c := q) (by simp [htrim])
    (by rcases hq with rfl | rfl <;> decide) (isWord_quote hq)]
  split
  next op left right hoperation =>
    refine .bind_any fun x => .bind_any fun y => yields_number ?_ x y
    rintro rfl
    have hnot : '+' ∉ q :: trimEnd u := by
      have hne : '+' ≠ q := by rcases hq with rfl | rfl <;> decide
      exact fun h => (List.mem_cons.1 h).elim hne fun h => hplus (trimEnd_subset u h)
    have hcut := cut?_of_operation? hoperation
    rw [htrim] at hcut
    cases (cut?_eq_none (by decide) hnot).symm.trans hcut
  next => exact .throw _

end UnclosedText

section UnclosedCall

variable (hne : f ≠ []) (hf : ∀ c ∈ f, isWord c = true)
include hf

/-- An operator is found in a call only behind the parenthesis. -/
theorem cut?_call (op : Operator) (u : List Char) :
    cut? op.sign.toList (f ++ '(' :: u) =
      (cut? op.sign.toList u).map fun sides => (f ++ '(' :: sides.1, sides.2) := by
  have hopen : '(' ∉ op.sign.toList := by cases op <;> decide
  have hmark : op.sign.toList.any (fun c => !isWord c) = true := by cases op <;> decide +kernel
  obtain ⟨c, hc, hcword⟩ := List.any_eq_true.1 hmark
  have hcf : c ∉ f := fun h => by simp [hf c h] at hcword
  exact cut?_append_cons_of_none hopen (cut?_eq_none hc hcf)

include hne

theorem trim_call (u : List Char) : trim (f ++ '(' :: u) = f ++ '(' :: trimEnd u := by
  obtain ⟨d, hhead, hd⟩ := exists_head?_of_word hne hf ('(' :: u)
  refine trim_append_cons ?_ (by decide)
  rw [hhead]
  exact isBlank_eq_false_of_isWord hd

/-- A call that is not closed comes to nothing, wherever it is cut: the operator stands behind the
parenthesis, so that the left side is not closed either. -/
theorem yields_unclosed_call (hu : uptoClosing none 0 u = none) :
    Yields (fun _ => False) (evaluate call (f ++ '(' :: u)) := by
  induction hn : u.length using Nat.strongRecOn generalizing u with
  | ind n ih =>
    obtain ⟨v, hv⟩ := trimEnd_prefix u
    have hu' : uptoClosing none 0 (trimEnd u) = none := uptoClosing_eq_none v (by rwa [hv])
    have htrim := trim_call hne hf u
    have hliteral : literal? (trim (f ++ '(' :: u)) = none := by
      rw [htrim]
      exact literal?_of_word hne hf (by decide +kernel) _
    have hword : word? (trim (f ++ '(' :: u)) = some (f, '(' :: trimEnd u) := by
      rw [htrim]
      exact word?_append hne hf (by decide +kernel)
    by_cases hlast : (trim (f ++ '(' :: u)).getLast? = some ')'
    · have hcall (known : String → Bool) : call? known (trim (f ++ '(' :: u)) =
          .error (.unclosed (String.ofList (trim (f ++ '(' :: u)))) := by
        rw [call?, callHead?, if_pos hlast, hword]
        simp only
        rw [hu']
      rw [evaluate_of_unclosed hliteral hcall]
      exact .throw _
    · have hindexed : indexed? (trim (f ++ '(' :: u)) = none := by
        refine indexed?_of_word fun name rest h => ?_
        cases hword.symm.trans h
      rw [evaluate_eq_operation hliteral (call?_eq_none fun h => absurd h hlast) hindexed (c := '(')
        (by simp [htrim]) (by decide) (by decide +kernel)]
      split
      next op left right hoperation =>
        have hcut := cut?_of_operation? hoperation
        rw [htrim, cut?_call hf] at hcut
        obtain ⟨⟨p, w⟩, hsides, heq⟩ := Option.map_eq_some_iff.1 hcut
        cases heq
        have hsplit := cut?_eq_some hsides
        have hp : uptoClosing none 0 p = none := by
          refine uptoClosing_eq_none (op.sign.toList ++ w) ?_
          rwa [← List.append_assoc, ← hsplit]
        have hlength : p.length < n := by
          have hle := congrArg List.length hv
          have hlt := (length_cut?_lt hsides op.sign_toList_ne_nil).1
          rw [List.length_append] at hle
          omega
        exact .bind (ih _ hlength hp rfl) fun _ h => h.elim
      next => exact .throw _

end UnclosedCall

/-- What stands in front of a quoted text leaves its quote open. -/
theorem uptoClosing_opening {depth : Nat} (l : Operand) (hl : l.content ≠ [])
    (hquotes : '"' ∉ u ∧ '\'' ∉ u) : uptoClosing none depth (l.opening ++ u) = none := by
  induction l generalizing depth with
  | text q a hq ha =>
    obtain ⟨hplain, hquote⟩ := isPlain_quote hq
    rw [Operand.opening, List.singleton_append, uptoClosing_hidden hplain, hquote,
      uptoClosing_quoted (not_mem_of_quote hq hquotes)]
    rfl
  | name n hn => exact absurd rfl hl
  | item n k h => exact absurd rfl hl
  | call f arg hf ih =>
    have hname : Bracketed false f.name.toList := (solid_of_name f).bracketed
    rw [Operand.opening, List.append_assoc, uptoClosing_append hname, List.cons_append, uptoClosing_open,
      ih hl]
    rfl

/-! ## The readings -/

theorem content_valid (l : Operand) : '"' ∉ l.content ∧ '\'' ∉ l.content := by
  induction l with
  | text q a hq ha => exact ha
  | call f arg hf ih => exact ih
  | _ => exact ⟨List.not_mem_nil, List.not_mem_nil⟩

/-- The sum is never what is returned. -/
def Misses (m sum : Run Value) : Prop := ∀ s z t t', sum.run.run s = (.ok z, t) → m.run.run s ≠ (.ok z, t')

theorem Misses.of_yields {Q R : Value → Prop} {m sum : Run Value} (hm : Yields Q m) (hsum : Yields R sum)
    (h : ∀ v, Q v → ¬ R v) : Misses m sum :=
  fun s z t t' hz hm' => h z (hm s z t' hm') (hsum s z t hz)

theorem occurs_iff (hop : op ∈ Operator.weak) (l r : Operand) :
    (cut? op.sign.toList (l.sum r)).isSome =
      (occursIn op.sign.toList l.content || occursIn op.sign.toList r.content) := by
  rw [cut?_sum hop, Option.isSome_or, Option.isSome_map, Option.isSome_map, occursIn, occursIn]

theorem sides?_of_weak (hop : op ∈ Operator.weak) (e : List Char) :
    op.sides? e = cut? op.sign.toList e := by
  have hne : op ≠ .minus := by
    rintro rfl
    exact absurd hop (by decide)
  simp [Operator.sides?, hne]

/-- An operator inside of quotes that binds weaker than the sum is found before it. -/
theorem operation?_of_weakInside (hweak : l.weakInside r = true) :
    ∃ op left right, op ∈ Operator.weak ∧ operation? (l.sum r) = some (op, left, right) := by
  obtain ⟨op, hop, hoccurs⟩ := List.any_eq_true.1 hweak
  rw [← occurs_iff hop, ← sides?_of_weak hop] at hoccurs
  have hsome : (Operator.weak.findSome? fun op =>
      (op.sides? (l.sum r)).map fun sides => (op, sides)).isSome :=
    List.findSome?_isSome_iff.2 ⟨op, hop, by rwa [Option.isSome_map]⟩
  obtain ⟨⟨first, left, right⟩, hfirst⟩ := Option.isSome_iff_exists.1 hsome
  obtain ⟨op', hop', h'⟩ := List.exists_of_findSome?_eq_some hfirst
  obtain ⟨sides, -, heq⟩ := Option.map_eq_some_iff.1 h'
  cases heq
  refine ⟨first, left, right, hop', ?_⟩
  rw [operation?, Operator.all_eq_weak, List.findSome?_append, hfirst, Option.some_or]

/-- If there is none, the sum is cut at its first plus. -/
theorem operation?_sum (hweak : l.weakInside r = false)
    (hcut : cut? ['+'] (l.sum r) = some (left, right)) :
    operation? (l.sum r) = some (.plus, left, right) := by
  refine operation?_of_first Operator.all_eq_weak (fun op hop => ?_) hcut
  have hoccurs := List.any_eq_false.1 hweak op hop
  rw [← occurs_iff hop] at hoccurs
  simpa using hoccurs

/-- A truth value is no sum. -/
theorem misses_of_weakInside (h : l.apart r = true) (hweak : l.weakInside r = true) (x y : Value) :
    Misses (evaluate call (l.sum r)) (Operator.plus.apply x y) := by
  obtain ⟨op, left, right, hop, hoperation⟩ := operation?_of_weakInside hweak
  have hbool : Yields (fun v => v.kind = .bool) (evaluate call (l.sum r)) := by
    rw [evaluate_sum_of_operation h hoperation]
    exact .bind_any fun a => .bind_any fun b => yields_bool hop a b
  refine .of_yields hbool (yields_sumKinds x y) fun v hv hkinds => ?_
  rw [hv] at hkinds
  exact hkinds.not_bool

section Plus

variable (h : l.apart r = true) (hweak : l.weakInside r = false)
include h hweak

theorem evaluate_sum (hplus : cut? ['+'] l.content = none) :
    evaluate call (l.sum r) = (do
      let x ← evaluate call l.written
      let y ← evaluate call r.written
      Operator.plus.apply x y) := by
  have hcut := cut?_plus_sum l r
  rw [hplus] at hcut
  rw [evaluate_sum_of_operation h (operation?_sum hweak hcut), evaluate_append_blank, evaluate_blank_cons]

/-- With a plus inside of quotes in the first operand, the sum is cut there. -/
theorem evaluate_sum_inside (hplus : cut? ['+'] l.content = some (before, rest)) :
    evaluate call (l.sum r) = (do
      let x ← evaluate call (l.opening ++ before)
      let y ← evaluate call (rest ++ l.closing ++ ' ' :: '+' :: ' ' :: r.written)
      Operator.plus.apply x y) := by
  have hcut := cut?_plus_sum l r
  rw [hplus] at hcut
  rw [evaluate_sum_of_operation h (operation?_sum hweak hcut)]

end Plus

/-- What stands in front of a plus inside of quotes has no quotes and no plus. -/
theorem before_valid (hplus : cut? ['+'] l.content = some (before, rest)) :
    ('"' ∉ before ∧ '\'' ∉ before) ∧ '+' ∉ before := by
  have hsplit := cut?_eq_some hplus
  have hmem (c : Char) (hc : c ∈ before) : c ∈ l.content := by
    rw [hsplit]
    simp [hc]
  obtain ⟨hdouble, hsingle⟩ := content_valid l
  exact ⟨⟨fun h => hdouble (hmem _ h), fun h => hsingle (hmem _ h)⟩, not_mem_of_cut? hplus⟩

/-- A call that is cut inside of its quotes comes to nothing. -/
theorem misses_of_call {f : Builtin} {arg : Operand} {hf : f ∈ Builtin.measures}
    (h : (Operand.call f arg hf).apart r = true) (hweak : (Operand.call f arg hf).weakInside r = false)
    (hplus : cut? ['+'] arg.content = some (before, rest)) (x y : Value) :
    Misses (evaluate call ((Operand.call f arg hf).sum r)) (Operator.plus.apply x y) := by
  have hcontent : arg.content ≠ [] := by
    intro hnil
    rw [hnil] at hplus
    cases hplus
  have hunclosed : uptoClosing none 0 (arg.opening ++ before) = none :=
    uptoClosing_opening arg hcontent (before_valid hplus).1
  have hnothing : Yields (fun _ => False) (evaluate call ((Operand.call f arg hf).sum r)) := by
    rw [evaluate_sum_inside h hweak hplus, Operand.opening, List.append_assoc]
    exact .bind (yields_unclosed_call (name_ne_nil f) (isWord_of_mem_name f) hunclosed) fun _ h => h.elim
  exact .of_yields hnothing (yields_sumKinds x y) fun _ h => h.elim

section Texts

variable {a : List Char} {hq : q = '"' ∨ q = '\''} {ha : '"' ∉ a ∧ '\'' ∉ a}
  (h : (Operand.text q a hq ha).apart r = true) (hweak : (Operand.text q a hq ha).weakInside r = false)
  (hplus : cut? ['+'] a = some (before, rest))
include h hweak hplus

/-- A text that is cut inside of its quotes comes to a number if there is anything before the plus. -/
theorem misses_of_text (hblank : before.all isBlank = false) (y : Value) :
    Misses (evaluate call ((Operand.text q a hq ha).sum r))
      (Operator.plus.apply (.text (String.ofList a)) y) := by
  obtain ⟨hquotes, hnot⟩ := before_valid (l := .text q a hq ha) hplus
  have hnumber : Yields (fun v => v.kind ∈ [.int, .float])
      (evaluate call ((Operand.text q a hq ha).sum r)) := by
    rw [evaluate_sum_inside h hweak hplus]
    refine .bind (yields_unclosed_text hq hquotes hblank hnot) fun x hx => .bind_any fun w => ?_
    exact (yields_sumKinds x w).imp fun z hz => hz.of_number hx
  refine .of_yields hnumber (yields_sumKinds _ y) fun v hv hkinds => ?_
  rw [hkinds.of_text] at hv
  exact absurd hv (by decide)

/-- With nothing before the plus, what stands before it is the empty text. -/
theorem evaluate_resumed (hblank : before.all isBlank = true) :
    evaluate call ((Operand.text q a hq ha).sum r) = (do
      let v ← evaluate call (rest ++ q :: ' ' :: '+' :: ' ' :: r.written)
      Operator.plus.apply (.text "") v) := by
  have hempty : evaluate call (q :: before) = pure (.text "") := by
    have hquote : trim [q] = [q] := trim_eq_self (List.forall_mem_singleton.2 (isBlank_quote hq))
    have htrim : trim ([] ++ [q] ++ before) = [q] := trim_between nofun hquote rfl hblank
    refine evaluate_of_value ?_
    rw [List.nil_append, List.singleton_append] at htrim
    rw [htrim]
    rcases hq with rfl | rfl <;> rfl
  rw [evaluate_sum_inside h hweak hplus, Operand.opening, List.singleton_append, hempty, pure_bind,
    Operand.closing, List.append_assoc, List.singleton_append]

end Texts

/-! ## Sums that are read as less than that -/

/-- A sum that begins and ends with the same quote is one text. -/
theorem evaluate_quoted {a b : List Char} (hq : q = '"' ∨ q = '\'') (ha : '"' ∉ a ∧ '\'' ∉ a)
    (hb : '"' ∉ b ∧ '\'' ∉ b) :
    evaluate call ((Operand.text q a hq ha).sum (.text q b hq hb)) =
      pure (.text (String.ofList (a ++ q :: ' ' :: '+' :: ' ' :: q :: b))) := by
  have htext : (Operand.text q a hq ha).sum (.text q b hq hb) =
      q :: ((a ++ q :: ' ' :: '+' :: ' ' :: q :: b) ++ [q]) := by
    simp [Operand.sum, Operand.written]
  refine evaluate_of_value ?_
  rw [trim_sum, htext, literal?_enclosed hq]

/-- Two texts are joined without what stands between them. -/
theorem misses_of_quoted (a b between : List Char) (hne : between ≠ []) :
    Misses (pure (.text (String.ofList (a ++ between ++ b))))
      (Operator.plus.apply (.text (String.ofList a)) (.text (String.ofList b))) := by
  intro s z t t' hsum hone
  cases hsum
  have heq := Value.text.inj (Except.ok.inj (congrArg Prod.fst hone))
  have hlength := congrArg (fun w : String => w.toList.length) heq
  have hpos := List.length_pos_iff.2 hne
  simp only [String.toList_append, String.toList_ofList, List.length_append] at hlength
  omega

theorem evaluate_sum_item {n k : List Char} {h : isName n = true ∧ isInteger k = true} :
    evaluate call ((Operand.item n k h).sum r) = evaluate call (Operand.item n k h).written := by
  have htext : (Operand.item n k h).sum r = n ++ '[' :: (k ++ ']' :: ' ' :: '+' :: ' ' :: r.written) := by
    simp [Operand.sum, Operand.written]
  have htrim := trim_sum (.item n k h) r
  rw [htext] at htrim ⊢
  rw [evaluate_item h _ htrim, evaluate_written_item]

theorem evaluate_sum_calls (f g : Builtin) (arg arg' : Operand) (hf : f ∈ Builtin.measures)
    (hg : g ∈ Builtin.measures) :
    evaluate call ((Operand.call f arg hf).sum (.call g arg' hg)) =
      evaluate call (Operand.call f arg hf).written := by
  have htext : (Operand.call f arg hf).sum (.call g arg' hg) =
      f.name.toList ++ '(' ::
        (arg.written ++ ')' :: ' ' :: '+' :: ' ' :: (Operand.call g arg' hg).written) := by
    simp [Operand.sum, Operand.written]
  have htrim := trim_sum (.call f arg hf) (.call g arg' hg)
  have hlast := getLast?_sum (.call f arg hf) (.call g arg' hg)
  rw [getLast?_call] at hlast
  rw [htext] at htrim hlast ⊢
  rw [evaluate_call f arg _ htrim hlast, evaluate_written_call]

/-! ## What a sum comes to -/

theorem run_written {st : State} {x : Value} (hx : ((evaluate call l.written).run.run st).1 = .ok x) :
    (evaluate call l.written).run.run st = (.ok x, st) := by
  have hkeeps : ((evaluate call l.written).run.run st).2 = st := keeps_written (P := (· = st)) l st rfl
  exact Prod.ext hx hkeeps

/-- What a sum comes to in a state in which its operands come to `x` and `y`, by its reading. -/
def Operand.Reading.Gives (call : Caller) (st : State) (x y : Value) (sum : Run Value) :
    Operand.Reading → Prop
  | quoted whole =>
    sum.run.run st = (.ok (.text (String.ofList whole)), st) ∧ Misses sum (Operator.plus.apply x y)
  | first => sum.run.run st = (.ok x, st)
  | Reading.sum => sum.run.run st = (Operator.plus.apply x y).run.run st
  | resumed rest =>
    sum.run.run st = (do Operator.plus.apply (.text "") (← evaluate call rest)).run.run st
  | torn => Misses sum (Operator.plus.apply x y)

section Outcome

variable {st : State} {x y : Value}

theorem gives_cutReading (hapart : l.apart r = true)
    (hl : (evaluate call l.written).run.run st = (.ok x, st))
    (hr : (evaluate call r.written).run.run st = (.ok y, st)) :
    (l.cutReading r).Gives call st x y (evaluate call (l.sum r)) := by
  unfold Operand.cutReading
  cases hweak : l.weakInside r with
  | true => exact misses_of_weakInside hapart hweak x y
  | false =>
    rw [if_neg Bool.false_ne_true]
    cases hplus : cut? ['+'] l.content with
    | none =>
      show (evaluate call (l.sum r)).run.run st = (Operator.plus.apply x y).run.run st
      rw [evaluate_sum hapart hweak hplus, run_bind_of_ok _ hl, run_bind_of_ok _ hr]
    | some sides =>
      obtain ⟨before, rest⟩ := sides
      cases l with
      | name n hn => cases hplus
      | item n k h => cases hplus
      | call f arg hf => exact misses_of_call hapart hweak hplus x y
      | text q a hq ha =>
        rw [evaluate_text] at hl
        cases hl
        cases hblank : before.all isBlank with
        | true =>
          show Operand.Reading.Gives call st _ y _ (if before.all isBlank then _ else _)
          rw [if_pos hblank]
          exact congrArg (fun m : Run Value => m.run.run st) (evaluate_resumed hapart hweak hplus hblank)
        | false =>
          show Operand.Reading.Gives call st _ y _ (if before.all isBlank then _ else _)
          rw [if_neg (by simp [hblank])]
          exact misses_of_text hapart hweak hplus hblank y

theorem gives_quoted {a b : List Char} (hq : q = '"' ∨ q = '\'') (ha : '"' ∉ a ∧ '\'' ∉ a)
    (hb : '"' ∉ b ∧ '\'' ∉ b) :
    Operand.Reading.Gives call st (.text (String.ofList a)) (.text (String.ofList b))
      (evaluate call ((Operand.text q a hq ha).sum (.text q b hq hb)))
      (.quoted (a ++ q :: ' ' :: '+' :: ' ' :: q :: b)) := by
  rw [evaluate_quoted]
  refine ⟨rfl, ?_⟩
  have hmisses := misses_of_quoted a b [q, ' ', '+', ' ', q] nofun
  rwa [List.append_assoc] at hmisses

end Outcome

/-- A sum of two operands that come to `x` and `y` in a state. Only if it is read as a sum it always comes
to `x + y`. -/
theorem sum_of_operands (call : Caller) (st : State) (l r : Operand) (x y : Value)
    (hx : ((evaluate call l.written).run.run st).1 = .ok x)
    (hy : ((evaluate call r.written).run.run st).1 = .ok y) :
    (l.reading r).Gives call st x y (evaluate call (l.sum r)) := by
  have hl := run_written hx
  have hr := run_written hy
  cases hapart : l.apart r with
  | true =>
    rw [Operand.reading_of_apart hapart]
    exact gives_cutReading hapart hl hr
  | false =>
    cases l with
    | name n hn => cases hapart
    | item n k h =>
      show (evaluate call ((Operand.item n k h).sum r)).run.run st = (.ok x, st)
      rw [evaluate_sum_item, hl]
    | call f arg hf =>
      cases r with
      | call g arg' hg =>
        show (evaluate call ((Operand.call f arg hf).sum (.call g arg' hg))).run.run st = (.ok x, st)
        rw [evaluate_sum_calls, hl]
      | _ => cases hapart
    | text q a hq ha =>
      cases r with
      | text q' b hq' hb =>
        obtain rfl : q = q' := by simpa [Operand.apart] using hapart
        rw [evaluate_text] at hl hr
        cases hl
        cases hr
        rw [Operand.reading, if_pos rfl]
        exact gives_quoted hq ha hb
      | _ => cases hapart

/-- A text and a name are read as a sum. -/
theorem sum_of_operands_status :
    let st : State := { chance := .steady }
    let l : Operand := .text '"' ['a'] (.inl rfl) (by decide)
    let r : Operand := .name "status_proyek".toList (by decide +kernel)
    String.ofList (l.sum r) = "\"a\" + status_proyek" ∧
      (evaluate Extended.call (l.sum r)).run.run st = (.ok (.text "aDirencanakan"), st) := by
  intro st l r
  have hy : evaluate Extended.call r.written = lookup "status_proyek" :=
    evaluate_of_compound rfl (call?_of_no_parenthesis (by decide))
  exact ⟨rfl, sum_of_operands Extended.call st l r (.text "a") (.text "Direncanakan")
    (by rw [evaluate_text]; rfl) (by rw [hy]; rfl)⟩

/-- Two texts with the same quotes are one, and of two calls the second one is lost. -/
theorem sum_of_operands_lost :
    (evaluate Extended.call "\"a\"".toList = pure (.text "a") ∧
      evaluate Extended.call "\"b\"".toList = pure (.text "b") ∧
      evaluate Extended.call "\"a\" + \"b\"".toList = pure (.text "a\" + \"b") ∧
      Operator.plus.apply (.text "a") (.text "b") = pure (.text "ab")) ∧
    (evaluate Extended.call "panjang(\"ab\")".toList = pure (.int 2) ∧
      evaluate Extended.call "panjang(\"c\")".toList = pure (.int 1) ∧
      evaluate Extended.call "panjang(\"ab\") + panjang(\"c\")".toList = pure (.int 2) ∧
      Operator.plus.apply (.int 2) (.int 1) = pure (.int 3)) := by
  have hlength (a : List Char) (ha : '"' ∉ a ∧ '\'' ∉ a) :
      evaluate Extended.call (Operand.call .length (.text '"' a (.inl rfl) ha) (by decide)).written =
        pure (.int (String.ofList a).length) := by
    rw [evaluate_written_call, evaluate_text, pure_bind]
    rfl
  refine ⟨⟨evaluate_of_value rfl, evaluate_of_value rfl, evaluate_of_value rfl, rfl⟩, ?_, ?_, ?_, rfl⟩
  · exact hlength ['a', 'b'] (by decide)
  · exact hlength ['c'] (by decide)
  · have hfirst := hlength ['a', 'b'] (by decide)
    rwa [← evaluate_sum_calls .length .length _ (.text '"' ['c'] (.inl rfl) (by decide)) _
      (by decide)] at hfirst

end Birokrasi.Extended
