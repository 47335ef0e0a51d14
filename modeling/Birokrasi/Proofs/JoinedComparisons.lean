import Mathlib.Data.Fintype.Basic
import Mathlib.Tactic.FinCases
import Birokrasi.Proofs.ExpressionForms

/-!
# Joined comparisons

Comparisons of integers and names, joined by `dan` or by `atau`. One would read them as comparisons first,
and join what these say. The evaluator reads them the other way round: a joiner binds stronger than every
comparison, so the last side of a comparison is joined with the first side of the next one, and what
is left are comparisons of such `Side`s. These bind in the order in which they are looked for, each of
them to the right (`reading`).

The main statement is `joined_comparisons`: this is what comparisons come to, and whatever comparisons
are joined, there are integers for which it is the opposite of what all of them say.
-/

namespace Birokrasi.Extended

open Birokrasi.Text

/-! ## How comparisons are written -/

/-- The operators that compare, in the order in which they are looked for. -/
inductive Comparator where
  | equal | notEqual | lessEq | greaterEq | less | greater
  deriving DecidableEq

namespace Comparator

def operator : Comparator → Operator
  | equal => .equal
  | notEqual => .notEqual
  | lessEq => .lessEq
  | greaterEq => .greaterEq
  | less => .less
  | greater => .greater

def sign (o : Comparator) : List Char := o.operator.sign.toList

def all : List Comparator := [equal, notEqual, lessEq, greaterEq, less, greater]

end Comparator

/-- The operators that join. -/
inductive Joiner where
  | and | or

namespace Joiner

def operator : Joiner → Operator
  | and => .and
  | or => .or

def word : Joiner → List Char
  | and => "dan".toList
  | or => "atau".toList

def sign (j : Joiner) : List Char := j.operator.sign.toList

theorem sign_eq (j : Joiner) : j.sign = ' ' :: (j.word ++ [' ']) := by
  cases j <;> rfl

theorem isWord_of_mem_word (j : Joiner) : j.word.all isWord = true := by
  cases j <;> decide +kernel

end Joiner

/-- What is compared: an integer or a name. -/
structure Term where
  text : List Char
  valid : isInteger text || isName text

/-- Two terms with a comparison between them. -/
structure Comparison where
  left : Term
  comparator : Comparator
  right : Term

/-- A comparison as it is written. -/
def Comparison.text (c : Comparison) : List Char :=
  c.left.text ++ ' ' :: (c.comparator.sign ++ ' ' :: c.right.text)

/-- Comparisons as they are written with a joiner between them. -/
def joined (j : Joiner) (cs : List Comparison) : List Char :=
  j.sign.intercalate (cs.map Comparison.text)

/-! ## How they are read -/

/-- What stands between two comparators: a term, or two terms that are joined. -/
inductive Side where
  | one (x : Term)
  | two (x y : Term)

/-- The comparators from a comparison on, each with the side behind it. -/
def links : Comparison → List Comparison → List (Comparator × Side)
  | c, [] => [(c.comparator, .one c.right)]
  | c, d :: cs => (c.comparator, .two c.right d.left) :: links d cs

/-- Which comparators are applied to what. -/
inductive Reading (α : Type) where
  | leaf (x : α)
  | node (o : Comparator) (left right : Reading α)

variable {α β : Type}

/-- What stands before the first occurrence of a comparator, the side behind it and the rest. -/
def cutAt (o : Comparator) : List (Comparator × α) →
    Option (List (Comparator × α) × α × List (Comparator × α))
  | [] => none
  | (p, x) :: rest =>
    if p = o then some ([], x, rest)
    else (cutAt o rest).map fun (before, y, after) => ((p, x) :: before, y, after)

theorem cutAt_eq_some {o : Comparator} {links before after : List (Comparator × α)} {y : α}
    (h : cutAt o links = some (before, y, after)) :
    links = before ++ (o, y) :: after ∧ ∀ l ∈ before, l.1 ≠ o := by
  induction links generalizing before with
  | nil => cases h
  | cons l rest ih =>
    obtain ⟨p, x⟩ := l
    rw [cutAt] at h
    split at h
    next hp =>
      cases h
      exact ⟨by rw [hp]; rfl, nofun⟩
    next hp =>
      obtain ⟨⟨before', y', after'⟩, hcut, heq⟩ := Option.map_eq_some_iff.1 h
      cases heq
      obtain ⟨rfl, hbefore⟩ := ih hcut
      refine ⟨rfl, fun l hl => ?_⟩
      rcases List.mem_cons.1 hl with rfl | hl
      · exact hp
      · exact hbefore l hl

theorem cutAt_eq_none {o : Comparator} {links : List (Comparator × α)} (h : cutAt o links = none) :
    ∀ l ∈ links, l.1 ≠ o := by
  induction links with
  | nil => nofun
  | cons l rest ih =>
    rw [cutAt] at h
    split at h
    next => cases h
    next hl => exact List.forall_mem_cons.2 ⟨hl, ih (Option.map_eq_none_iff.1 h)⟩

/-- The reading of sides with comparators between them. Each comparator of the list binds weaker than those
after it, and to the right. -/
def reading : List Comparator → α → List (Comparator × α) → Reading α
  | [], x, _ => .leaf x
  | o :: os, x, links =>
    match _h : cutAt o links with
    | none => reading os x links
    | some (before, y, after) => .node o (reading os x before) (reading (o :: os) y after)
termination_by os _ links => (os.length, links.length)
decreasing_by
  · exact Prod.Lex.left _ _ (Nat.lt_succ_self _)
  · exact Prod.Lex.left _ _ (Nat.lt_succ_self _)
  · refine Prod.Lex.right _ ?_
    rw [(cutAt_eq_some _h).1]
    simp
    omega

/-- What a reading comes to, with the sides evaluated in order. -/
def Reading.run (f : α → Run Value) : Reading α → Run Value
  | leaf x => f x
  | node o l r => do
    let x ← l.run f
    let y ← r.run f
    o.operator.apply x y

/-- The value of a side. -/
def Side.evaluate (call : Caller) (j : Joiner) : Side → Run Value
  | one x => Extended.evaluate call x.text
  | two x y => do
    let l ← Extended.evaluate call x.text
    let r ← Extended.evaluate call y.text
    j.operator.apply l r

variable {j : Joiner} {x y : Term} {g h : Side} {o p : Comparator} {c : Char}
  {ls before after : List (Comparator × Side)} {call : Caller} {expr : List Char}

/-! ## Characters of terms -/

theorem Term.solid (x : Term) : Solid x.text :=
  (Bool.or_eq_true_iff.1 x.valid).elim solid_of_isInteger solid_of_isName

theorem Term.ne_nil (x : Term) : x.text ≠ [] := by
  intro hnil
  have hvalid := x.valid
  rw [hnil] at hvalid
  cases hvalid

theorem Term.blank_not_mem (x : Term) : ' ' ∉ x.text := x.solid.not_mem (by decide +kernel) (by decide)

/-! ## Comparisons as sides and comparators -/

/-- A side as it is written. -/
def Side.text (j : Joiner) : Side → List Char
  | one x => x.text
  | two x y => x.text ++ j.sign ++ y.text

/-- Sides as they are written with comparators between them. -/
def linked (j : Joiner) : Side → List (Comparator × Side) → List Char
  | g, [] => g.text j
  | g, (o, h) :: ls => g.text j ++ ' ' :: (o.sign ++ ' ' :: linked j h ls)

theorem linked_append (j : Joiner) (g h : Side) (o : Comparator) (before after : List (Comparator × Side)) :
    linked j g (before ++ (o, h) :: after) =
      linked j g before ++ ' ' :: (o.sign ++ ' ' :: linked j h after) := by
  induction before generalizing g with
  | nil => rfl
  | cons l before ih => simp [linked, ih]

theorem joined_cons_cons (j : Joiner) (c d : Comparison) (cs : List Comparison) :
    joined j (c :: d :: cs) = c.text ++ j.sign ++ joined j (d :: cs) := by
  simp [joined, List.intercalate]

/-- Joined comparisons are sides with comparators between them. -/
theorem joined_eq (j : Joiner) (c : Comparison) (cs : List Comparison) :
    joined j (c :: cs) = linked j (.one c.left) (links c cs) := by
  induction cs generalizing c with
  | nil => simp [joined, links, linked, Comparison.text, Side.text, List.intercalate]
  | cons d cs ih =>
    have hlinked : linked j (.two c.right d.left) (links d cs) =
        c.right.text ++ j.sign ++ linked j (.one d.left) (links d cs) := by
      cases cs <;> simp [links, linked, Side.text]
    rw [joined_cons_cons, ih, links, linked, hlinked]
    simp [Comparison.text, Side.text]

/-! ## Characters and blanks -/

theorem Side.trim_text (j : Joiner) (g : Side) : g.text j ≠ [] ∧ trim (g.text j) = g.text j := by
  cases g with
  | one x => exact ⟨x.ne_nil, x.solid.trim_eq⟩
  | two x y =>
    exact ⟨by simp [text, x.ne_nil], trim_append x.ne_nil y.ne_nil x.solid.trim_eq y.solid.trim_eq _⟩

theorem trim_linked (j : Joiner) (g : Side) (ls : List (Comparator × Side)) :
    linked j g ls ≠ [] ∧ trim (linked j g ls) = linked j g ls := by
  obtain ⟨hne, htrim⟩ := g.trim_text j
  induction ls generalizing g with
  | nil => exact ⟨hne, htrim⟩
  | cons l ls ih =>
    obtain ⟨hne', htrim'⟩ := l.2.trim_text j
    obtain ⟨hrest, hrest'⟩ := ih l.2 hne' htrim'
    have happend := trim_append hne hrest htrim hrest' (' ' :: (l.1.sign ++ [' ']))
    refine ⟨by simp [linked, hne], ?_⟩
    simpa [linked] using happend

/-- A side is made of characters of words, minus signs and blanks. -/
theorem Side.mem_text (hc : c ∈ g.text j) : isWord c = true ∨ c = '-' ∨ c = ' ' := by
  have hterm (x : Term) (hx : c ∈ x.text) : isWord c = true ∨ c = '-' ∨ c = ' ' :=
    (x.solid c hx).imp_right .inl
  cases g with
  | one x => exact hterm x hc
  | two x y =>
    simp only [text, j.sign_eq, List.mem_append, List.mem_cons, List.not_mem_nil, or_false] at hc
    rcases hc with (hx | hblank | hword | hblank) | hy
    · exact hterm x hx
    · exact .inr (.inr hblank)
    · exact .inl (List.all_eq_true.1 j.isWord_of_mem_word c hword)
    · exact .inr (.inr hblank)
    · exact hterm y hy

theorem Side.not_mem_text (g : Side) (hword : isWord c = false) (hminus : c ≠ '-') (hblank : c ≠ ' ') :
    c ∉ g.text j := by
  intro hc
  rcases g.mem_text hc with h | h | h
  · rw [h] at hword
    cases hword
  · exact hminus h
  · exact hblank h

theorem Comparator.not_mem_sign (o : Comparator) (hc : c ∉ ['=', '!', '<', '>']) : c ∉ o.sign := by
  have hmarks : o.sign ⊆ ['=', '!', '<', '>'] := by cases o <;> decide
  exact fun h => hc (hmarks h)

/-- A character that belongs to no side and no comparator. -/
theorem not_mem_linked (hword : isWord c = false) (hminus : c ≠ '-') (hblank : c ≠ ' ')
    (hmarks : c ∉ ['=', '!', '<', '>']) : c ∉ linked j g ls := by
  induction ls generalizing g with
  | nil => exact g.not_mem_text hword hminus hblank
  | cons l ls ih =>
    have hside : c ∉ g.text j := g.not_mem_text hword hminus hblank
    simp [linked, hside, hblank, l.1.not_mem_sign hmarks, ih]

/-! ## Where a comparator is found -/

/-- A comparator starts with a character that no side holds. -/
theorem Comparator.exists_sign_eq (o : Comparator) :
    ∃ mark tail, o.sign = mark :: tail ∧ isWord mark = false ∧ mark ≠ '-' ∧ mark ≠ ' ' := by
  cases o <;> exact ⟨_, _, rfl, by decide +kernel, by decide, by decide⟩

theorem Comparator.blank_not_mem (o : Comparator) : ' ' ∉ o.sign := by
  cases o <;> decide

/-- No comparator is found in one that is looked for later. -/
theorem pairwise_all : Comparator.all.Pairwise fun p q => cut? p.sign q.sign = none := by
  decide

theorem cut?_side (o : Comparator) (g : Side) : cut? o.sign (g.text j) = none := by
  obtain ⟨mark, tail, hsign, hword, hminus, hblank⟩ := o.exists_sign_eq
  have hmem : mark ∈ o.sign := by simp [hsign]
  exact cut?_eq_none hmem (g.not_mem_text hword hminus hblank)

theorem cut?_linked (hls : ∀ l ∈ ls, cut? o.sign l.1.sign = none) :
    cut? o.sign (linked j g ls) = none := by
  induction ls generalizing g with
  | nil => exact cut?_side o g
  | cons l ls ih =>
    obtain ⟨hl, hls⟩ := List.forall_mem_cons.1 hls
    exact cut?_append_cons_eq_none o.blank_not_mem (cut?_side o g)
      (cut?_append_cons_eq_none o.blank_not_mem hl (ih hls))

theorem cut?_linked_append (hbefore : ∀ l ∈ before, cut? o.sign l.1.sign = none) :
    cut? o.sign (linked j g (before ++ (o, h) :: after)) =
      some (linked j g before ++ [' '], ' ' :: linked j h after) := by
  obtain ⟨mark, tail, hsign, -⟩ := o.exists_sign_eq
  have hfound : cut? o.sign (o.sign ++ ' ' :: linked j h after) = some ([], ' ' :: linked j h after) := by
    rw [hsign]
    exact cut?_append List.not_mem_nil
  rw [linked_append, cut?_append_cons_of_none o.blank_not_mem (cut?_linked hbefore), hfound]
  simp

/-! ## Evaluation -/

theorem operator_all :
    Operator.all = Comparator.all.map Comparator.operator ++
      [.and, .or, .plus, .minus, .times, .«over», .modulo] := rfl

theorem Comparator.sides? (o : Comparator) (s : List Char) : o.operator.sides? s = cut? o.sign s := by
  cases o <;> rfl

/-- Sides and comparators are cut at the comparator that is looked for first. -/
theorem operation?_linked {done os : List Comparator} (hall : Comparator.all = done ++ o :: os)
    (hbefore : ∀ l ∈ before, l.1 ∈ os) (hafter : ∀ l ∈ after, l.1 ∈ o :: os) :
    operation? (linked j g (before ++ (o, h) :: after)) =
      some (o.operator, linked j g before ++ [' '], ' ' :: linked j h after) := by
  have hpairwise := pairwise_all
  rw [hall, List.pairwise_append, List.pairwise_cons] at hpairwise
  obtain ⟨-, ⟨hlater, -⟩, hearlier⟩ := hpairwise
  have hoperators : Operator.all = done.map Comparator.operator ++ o.operator ::
      (os.map Comparator.operator ++ [.and, .or, .plus, .minus, .times, .«over», .modulo]) := by
    rw [operator_all, hall]
    simp
  refine operation?_of_first hoperators ?_ ?_
  · intro q hq
    obtain ⟨p, hp, rfl⟩ := List.mem_map.1 hq
    refine cut?_linked fun l hl => hearlier p hp l.1 ?_
    rcases List.mem_append.1 hl with hl | hl
    · exact List.mem_cons_of_mem _ (hbefore l hl)
    · rcases List.mem_cons.1 hl with rfl | hl
      · exact List.mem_cons_self
      · exact hafter l hl
  · rw [o.sides?]
    exact cut?_linked_append fun l hl => hlater l.1 (hbefore l hl)

/-- A text of sides that is cut at an operator has no other form. -/
theorem evaluate_linked_of_operation {op : Operator} {left right : List Char}
    (ht : trim expr = linked j g ls) (hblank : ' ' ∈ linked j g ls)
    (hoperation : operation? (linked j g ls) = some (op, left, right)) :
    evaluate call expr = (do
      let l ← evaluate call left
      let r ← evaluate call right
      op.apply l r) := by
  have hnot : ∀ d ∈ ['"', '\'', '[', '\x7b', '('], d ∉ linked j g ls := by
    have hmarks : ['"', '\'', '[', '\x7b', '('].all (fun d =>
        !isWord d && d != '-' && d != ' ' && !(['=', '!', '<', '>'].contains d)) = true := by decide +kernel
    intro d hd
    have hout := List.all_eq_true.1 hmarks d hd
    simp only [Bool.and_eq_true, Bool.not_eq_true', bne_iff_ne] at hout
    exact not_mem_linked hout.1.1.1 hout.1.1.2 hout.1.2 (by simpa using hout.2)
  have hliteral : literal? (trim expr) = none := by
    rw [ht]
    refine literal?_eq_none (between?_of_not_mem (hnot _ ?_)) (between?_of_not_mem (hnot _ ?_))
      (between?_of_not_mem (hnot _ ?_)) (between?_of_not_mem (hnot _ ?_)) hblank (by decide +kernel)
    all_goals decide
  refine evaluate_of_operation hliteral ?_ ?_ (ht ▸ hblank) (by decide) (by decide +kernel) ?_
  · intro known
    rw [ht]
    exact call?_of_no_parenthesis (hnot _ (by decide)) known
  · rw [ht]
    exact indexed?_eq_none (hnot _ (by decide))
  · rw [ht, hoperation]

/-- The word for a conjunction needs a blank on either side, and there is one word only between two
terms. -/
theorem cut?_and_two_or (x y : Term) :
    cut? Operator.and.sign.toList ((Side.two x y).text .or) = none := by
  have htext : (Side.two x y).text .or =
      x.text ++ ([' ', 'a'] ++ 't' :: (['a'] ++ 'u' :: ' ' :: y.text)) := by
    simp [Side.text, Joiner.sign, Joiner.operator, Operator.sign]
  have hbehind : cut? Operator.and.sign.toList ([' '] ++ y.text ++ []) = none :=
    cut?_blank_solid (by decide) (.refl _) y.solid
  rw [List.append_nil] at hbehind
  rw [htext]
  refine cut?_append_of_notMem_left x.blank_not_mem ?_
  refine cut?_append_cons_eq_none (by decide) (by decide) ?_
  exact cut?_append_cons_eq_none (by decide) (by decide) hbehind

/-- Two terms are cut at what joins them. -/
theorem operation?_two (j : Joiner) (x y : Term) :
    operation? ((Side.two x y).text j) = some (j.operator, x.text, y.text) := by
  have hcomparators : ∀ q ∈ Comparator.all.map Comparator.operator,
      cut? q.sign.toList ((Side.two x y).text j) = none := by
    intro q hq
    obtain ⟨o, -, rfl⟩ := List.mem_map.1 hq
    exact cut?_side o (.two x y)
  cases j with
  | and => exact operation?_of_first operator_all hcomparators (cut?_append x.blank_not_mem)
  | or =>
    have hall : Operator.all = (Comparator.all.map Comparator.operator ++ [.and]) ++
        .or :: [.plus, .minus, .times, .«over», .modulo] := rfl
    refine operation?_of_first hall ?_ (cut?_append x.blank_not_mem)
    intro q hq
    rcases List.mem_append.1 hq with hq | hq
    · exact hcomparators q hq
    · rw [List.mem_singleton.1 hq]
      exact cut?_and_two_or x y

theorem evaluate_side (ht : trim expr = g.text j) : evaluate call expr = g.evaluate call j := by
  cases g with
  | one x => rw [← evaluate_trim, ht, Side.text, Side.evaluate]
  | two x y =>
    have hlinked : trim expr = linked j (.two x y) [] := ht
    have hblank : ' ' ∈ linked j (.two x y) [] := by simp [linked, Side.text, j.sign_eq]
    exact evaluate_linked_of_operation hlinked hblank (operation?_two j x y)

/-- Sides with comparators between them come to what their reading comes to. -/
theorem evaluate_linked {os : List Comparator} (hos : ∃ done, Comparator.all = done ++ os)
    (hls : ∀ l ∈ ls, l.1 ∈ os) (ht : trim expr = linked j g ls) :
    evaluate call expr = (reading os g ls).run (Side.evaluate call j) := by
  fun_induction reading os g ls generalizing expr with
  | case1 g ls =>
    have hnil : ls = [] := List.eq_nil_iff_forall_not_mem.2 fun l hl => List.not_mem_nil (hls l hl)
    rw [hnil] at ht
    exact evaluate_side ht
  | case2 o os g ls hcut ih =>
    obtain ⟨done, hall⟩ := hos
    refine ih ⟨done ++ [o], by simpa using hall⟩ (fun l hl => ?_) ht
    exact (List.mem_cons.1 (hls l hl)).resolve_left (cutAt_eq_none hcut l hl)
  | case3 o os g ls before h after hcut ihl ihr =>
    obtain ⟨rfl, hne⟩ := cutAt_eq_some hcut
    obtain ⟨done, hall⟩ := hos
    rw [List.forall_mem_append, List.forall_mem_cons] at hls
    obtain ⟨hbefore, -, hafter⟩ := hls
    have hbefore' : ∀ l ∈ before, l.1 ∈ os := fun l hl =>
      (List.mem_cons.1 (hbefore l hl)).resolve_left (hne l hl)
    have hblank : ' ' ∈ linked j g (before ++ (o, h) :: after) := by simp [linked_append]
    have hl : trim (linked j g before ++ [' ']) = linked j g before := by
      rw [trim_append_blank, (trim_linked j g before).2]
    have hr : trim (' ' :: linked j h after) = linked j h after := (trim_linked j h after).2
    rw [evaluate_linked_of_operation ht hblank (operation?_linked hall hbefore' hafter), Reading.run,
      ihl ⟨done ++ [o], by simpa using hall⟩ hbefore' hl, ihr ⟨done, hall⟩ hafter hr]

theorem Comparator.mem_all (o : Comparator) : o ∈ Comparator.all := by
  cases o <;> decide

theorem evaluate_joined (call : Caller) (j : Joiner) (c : Comparison) (cs : List Comparison) :
    evaluate call (joined j (c :: cs)) =
      (reading Comparator.all (.one c.left) (links c cs)).run (Side.evaluate call j) := by
  refine evaluate_linked ⟨[], rfl⟩ (fun l _ => l.1.mem_all) ?_
  rw [joined_eq]
  exact (trim_linked j _ _).2

/-- A comparison alone. -/
theorem evaluate_comparison (call : Caller) (c : Comparison) :
    evaluate call c.text = (do
      let l ← evaluate call c.left.text
      let r ← evaluate call c.right.text
      c.comparator.operator.apply l r) := by
  have htrim : trim c.text = c.text := (trim_linked .and (.one c.left) [(c.comparator, .one c.right)]).2
  obtain ⟨done, os, hall⟩ := List.append_of_mem c.comparator.mem_all
  have hoperation := operation?_linked (j := .and) (g := .one c.left) (h := .one c.right) hall
    (List.forall_mem_nil _) (List.forall_mem_nil _)
  rw [evaluate_linked_of_operation htrim (by simp [linked]) hoperation, evaluate_append_blank,
    evaluate_blank_cons]
  rfl

/-! ## The reading of values -/

theorem reading_of_none {os : List Comparator} {x : α} {ls : List (Comparator × α)}
    (h : cutAt o ls = none) : reading (o :: os) x ls = reading os x ls := by
  rw [reading]
  split
  next => rfl
  next hcut => cases h.symm.trans hcut

theorem reading_of_some {os : List Comparator} {x y : α} {ls before after : List (Comparator × α)}
    (h : cutAt o ls = some (before, y, after)) :
    reading (o :: os) x ls = .node o (reading os x before) (reading (o :: os) y after) := by
  rw [reading]
  split
  next hcut => cases h.symm.trans hcut
  next hcut =>
    cases h.symm.trans hcut
    rfl

theorem cutAt_map (f : α → β) (o : Comparator) (ls : List (Comparator × α)) :
    cutAt o (ls.map (Prod.map id f)) = (cutAt o ls).map fun (before, y, after) =>
      (before.map (Prod.map id f), f y, after.map (Prod.map id f)) := by
  induction ls with
  | nil => rfl
  | cons l ls ih =>
    rw [List.map_cons, Prod.map, cutAt, cutAt, id]
    split
    · rfl
    · rw [ih, Option.map_map, Option.map_map]
      rfl

/-- The sides may be evaluated before they are read. -/
theorem run_reading (f : α → Run Value) (os : List Comparator) (x : α) (ls : List (Comparator × α)) :
    (reading os x ls).run f = (reading os (f x) (ls.map (Prod.map id f))).run id := by
  fun_induction reading os x ls with
  | case1 x ls =>
    rw [reading]
    rfl
  | case2 o os x ls hcut ih =>
    have hcut' : cutAt o (ls.map (Prod.map id f)) = none := by rw [cutAt_map, hcut, Option.map_none]
    rw [ih, reading_of_none hcut']
  | case3 o os x ls before y after hcut ihl ihr =>
    have hcut' : cutAt o (ls.map (Prod.map id f)) =
        some (before.map (Prod.map id f), f y, after.map (Prod.map id f)) := by
      rw [cutAt_map, hcut, Option.map_some]
    rw [reading_of_some hcut', Reading.run, Reading.run, ihl, ihr]

/-! ## Comparisons of numbers -/

/-- What a comparator says of two numbers. -/
def Comparator.compare (o : Comparator) (v w : Value) : Except Fault Bool :=
  let onFloats (c : Value.Comparison) : Except Fault Bool := do
    let x ← v.asFloat
    let y ← w.asFloat
    return c.onNumbers (.float x) (.float y)
  match o with
  | equal => pure (v.equal w)
  | notEqual => pure (!v.equal w)
  | lessEq => onFloats .lessEq
  | greaterEq => onFloats .greaterEq
  | less => onFloats .less
  | greater => onFloats .greater

theorem Store.view_of_number {v : Value} (s : Store) (hv : v.number?.isSome) : s.view v = v := by
  rw [Store.view, Store.viewWithin]
  all_goals
    intros
    subst_vars
    cases hv

theorem Store.equal_of_numbers {v w : Value} (s : Store) (hv : v.number?.isSome) (hw : w.number?.isSome) :
    s.equal v w = v.equal w := by
  rw [Store.equal, s.view_of_number hv, s.view_of_number hw]

theorem comparing_eq {v w : Value} {b : Bool} {c : Value.Comparison}
    (h : (do
      let x ← v.asFloat
      let y ← w.asFloat
      return c.onNumbers (.float x) (.float y) : Except Fault Bool) = .ok b) :
    Operator.comparing c v w = pure (.bool b) := by
  obtain ⟨x, hx, h⟩ := bind_eq_ok.1 h
  obtain ⟨y, hy, h⟩ := bind_eq_ok.1 h
  cases h
  rw [Operator.comparing, floatOf, floatOf, hx, hy]
  rfl

theorem Comparator.apply_of_compare {v w : Value} {b : Bool} (hv : v.number?.isSome)
    (hw : w.number?.isSome) (h : o.compare v w = .ok b) : o.operator.apply v w = pure (.bool b) := by
  have hequal (s : State) : s.store.equal v w = v.equal w := s.store.equal_of_numbers hv hw
  funext s
  cases o with
  | equal =>
    cases h
    exact congrArg (fun t => (Except.ok (Value.bool t), s)) (hequal s)
  | notEqual =>
    cases h
    exact congrArg (fun t => (Except.ok (Value.bool !t), s)) (hequal s)
  | _ => exact congrFun (comparing_eq h) s

/-- The values that sides are given here. -/
def plain : List Value := [.int 2, .bool true, .bool false]

def IsPlain (m : Run Value) : Prop := ∃ v ∈ plain, m = pure v

theorem isPlain_two : IsPlain (pure (.int 2)) := ⟨.int 2, List.mem_cons_self, rfl⟩

theorem isPlain_bool (b : Bool) : IsPlain (pure (.bool b)) :=
  ⟨.bool b, by cases b <;> simp [plain], rfl⟩

/-- A comparison of two such values is a truth value. -/
theorem exists_apply_eq {v w : Value} (o : Comparator) (hv : v ∈ plain) (hw : w ∈ plain) :
    ∃ b, o.operator.apply v w = pure (.bool b) := by
  have hnumber : ∀ v ∈ plain, v.number?.isSome = true := by decide
  have hcompare : ∀ v ∈ plain, ∀ w ∈ plain, ∀ o ∈ Comparator.all, (o.compare v w).isOk = true := by
    decide +kernel
  have hok := hcompare v hv w hw o o.mem_all
  cases hb : o.compare v w with
  | error e => simp [hb, Except.isOk, Except.toBool] at hok
  | ok b => exact ⟨b, Comparator.apply_of_compare (hnumber v hv) (hnumber w hw) hb⟩

/-- A reading of such values comes to such a value, and to a truth value if anything is compared. -/
theorem run_reading_of_plain {os : List Comparator} {x : Run Value} {ls : List (Comparator × Run Value)}
    (hx : IsPlain x) (hls : ∀ l ∈ ls, l.1 ∈ os ∧ IsPlain l.2) :
    IsPlain ((reading os x ls).run id) ∧
      (ls ≠ [] → ∃ b, (reading os x ls).run id = pure (.bool b)) := by
  fun_induction reading os x ls with
  | case1 x ls =>
    refine ⟨hx, fun hne => ?_⟩
    obtain ⟨l, hl⟩ := List.exists_mem_of_ne_nil ls hne
    cases (hls l hl).1
  | case2 o os x ls hcut ih =>
    refine ih hx fun l hl => ⟨?_, (hls l hl).2⟩
    exact (List.mem_cons.1 (hls l hl).1).resolve_left (cutAt_eq_none hcut l hl)
  | case3 o os x ls before y after hcut ihl ihr =>
    obtain ⟨rfl, hne⟩ := cutAt_eq_some hcut
    rw [List.forall_mem_append, List.forall_mem_cons] at hls
    obtain ⟨hbefore, ⟨-, hy⟩, hafter⟩ := hls
    obtain ⟨⟨v, hv, hl⟩, -⟩ := ihl hx fun l hl =>
      ⟨(List.mem_cons.1 (hbefore l hl).1).resolve_left (hne l hl), (hbefore l hl).2⟩
    obtain ⟨⟨w, hw, hr⟩, -⟩ := ihr hy hafter
    obtain ⟨b, hb⟩ := exists_apply_eq o hv hw
    have hrun : ((Reading.node o (reading os x before) (reading (o :: os) y after)).run id) =
        pure (.bool b) := by
      rw [Reading.run, hl, hr, pure_bind, pure_bind, hb]
    rw [hrun]
    exact ⟨isPlain_bool b, fun _ => ⟨b, rfl⟩⟩

/-! ## Comparisons that say the opposite -/

/-- A number of one digit. -/
def Term.digit (d : Fin 10) : Term where
  text := [Nat.digitChar d]
  valid := by
    revert d
    decide

theorem evaluate_digit (call : Caller) (d : Fin 10) :
    evaluate call (Term.digit d).text = pure (.int d) := by
  have hliteral : literal? (trim (Term.digit d).text) = none := by fin_cases d <;> rfl
  have hcompound : compound (trim (Term.digit d).text) = .value (.int d) := by fin_cases d <;> rfl
  have hopen : '(' ∉ trim (Term.digit d).text := by
    rw [(Term.digit d).solid.trim_eq]
    exact (Term.digit d).solid.not_mem (by decide +kernel) (by decide)
  rw [evaluate_of_compound hliteral (call?_of_no_parenthesis hopen), evaluateCompound, hcompound]

namespace Comparator

/-- The comparator for the two sides in the other order. -/
def mirror : Comparator → Comparator
  | lessEq => greaterEq
  | greaterEq => lessEq
  | less => greater
  | greater => less
  | o => o

/-- A number of which a comparator with 2 before it says what is wanted. -/
def partner (t : Bool) : Comparator → Fin 10
  | equal => if t then 2 else 1
  | notEqual => if t then 1 else 2
  | lessEq => if t then 2 else 1
  | greaterEq => if t then 2 else 3
  | less => if t then 3 else 2
  | greater => if t then 1 else 2

theorem partner_ne_zero (t : Bool) (o : Comparator) : o.partner t ≠ 0 := by
  cases o <;> cases t <;> decide

theorem apply_partner (t : Bool) (o : Comparator) :
    o.operator.apply (.int 2) (.int (o.partner t)) = pure (.bool t) := by
  refine apply_of_compare rfl rfl ?_
  cases o <;> cases t <;> rfl

theorem apply_mirror_partner (t : Bool) (o : Comparator) :
    o.operator.apply (.int (o.mirror.partner t)) (.int 2) = pure (.bool t) := by
  refine apply_of_compare rfl rfl ?_
  cases o <;> cases t <;> rfl

end Comparator

theorem Joiner.apply_digits (j : Joiner) {d e : Fin 10} (hd : d ≠ 0) (he : e ≠ 0) :
    j.operator.apply (.int d) (.int e) = pure (.bool true) := by
  have htruthy (s : Store) (d : Fin 10) (hd : d ≠ 0) : s.truthy (.int d) = true := by
    have hne : (d : Nat) ≠ 0 := fun h => hd (Fin.ext h)
    exact bne_iff_ne.2 (by omega)
  funext s
  cases j with
  | and =>
    refine congrArg (fun t => (Except.ok (Value.bool t), s)) ?_
    rw [htruthy _ d hd, htruthy _ e he, Bool.and_self]
  | or =>
    refine congrArg (fun t => (Except.ok (Value.bool t), s)) ?_
    rw [htruthy _ d hd, Bool.true_or]

/-- A comparison that says what is wanted. It has 2 in front unless it is the last one, which has it
at the end. -/
def comparisonOf (t : Bool) (o : Comparator) : (behind : List Comparator) → Comparison
  | [] => ⟨.digit (o.mirror.partner t), o, .digit 2⟩
  | _ :: _ => ⟨.digit 2, o, .digit (o.partner t)⟩

def comparisonsOf (t : Bool) : List Comparator → List Comparison
  | [] => []
  | o :: os => comparisonOf t o os :: comparisonsOf t os

theorem map_comparisonsOf (t : Bool) (os : List Comparator) :
    (comparisonsOf t os).map Comparison.comparator = os := by
  induction os with
  | nil => rfl
  | cons o os ih =>
    have hfirst : (comparisonOf t o os).comparator = o := by cases os <;> rfl
    rw [comparisonsOf, List.map_cons, hfirst, ih]

theorem evaluate_comparisonOf (call : Caller) (t : Bool) (o : Comparator) (os : List Comparator) :
    evaluate call (comparisonOf t o os).text = pure (.bool t) := by
  rw [evaluate_comparison]
  cases os with
  | nil =>
    rw [comparisonOf, evaluate_digit, evaluate_digit, pure_bind, pure_bind]
    exact o.apply_mirror_partner t
  | cons p os =>
    rw [comparisonOf, evaluate_digit, evaluate_digit, pure_bind, pure_bind]
    exact o.apply_partner t

theorem evaluate_of_mem_comparisonsOf {t : Bool} {os : List Comparator} (call : Caller) :
    ∀ c ∈ comparisonsOf t os, evaluate call c.text = pure (.bool t) := by
  induction os with
  | nil => nofun
  | cons o os ih => exact List.forall_mem_cons.2 ⟨evaluate_comparisonOf call t o os, ih⟩

/-- The comparators with the values of the sides behind them, if all terms count as true. -/
def plainLinks (o : Comparator) : List Comparator → List (Comparator × Run Value)
  | [] => [(o, pure (.int 2))]
  | p :: os => (o, pure (.bool true)) :: plainLinks p os

theorem isPlain_plainLinks (o : Comparator) (os : List Comparator) :
    ∀ l ∈ plainLinks o os, l.1 ∈ Comparator.all ∧ IsPlain l.2 := by
  induction os generalizing o with
  | nil => exact List.forall_mem_singleton.2 ⟨o.mem_all, isPlain_two⟩
  | cons p os ih => exact List.forall_mem_cons.2 ⟨⟨o.mem_all, isPlain_bool true⟩, ih p⟩

theorem exists_run_plainLinks (o : Comparator) (os : List Comparator) :
    ∃ b, (reading Comparator.all (pure (.int 2)) (plainLinks o os)).run id = pure (.bool b) := by
  have hne : plainLinks o os ≠ [] := by cases os <;> simp [plainLinks]
  exact (run_reading_of_plain isPlain_two (isPlain_plainLinks o os)).2 hne

theorem map_links_comparisonsOf (call : Caller) (j : Joiner) (t : Bool) (o : Comparator)
    (os : List Comparator) :
    (links (comparisonOf t o os) (comparisonsOf t os)).map (Prod.map id (Side.evaluate call j)) =
      plainLinks o os := by
  induction os generalizing o with
  | nil => simp [comparisonsOf, links, comparisonOf, Side.evaluate, evaluate_digit, plainLinks]
  | cons p os ih =>
    obtain ⟨d, hd, hleft⟩ : ∃ d : Fin 10, d ≠ 0 ∧ (comparisonOf t p os).left = .digit d := by
      cases os with
      | nil => exact ⟨_, p.mirror.partner_ne_zero t, rfl⟩
      | cons => exact ⟨2, by decide, rfl⟩
    have hside : Side.evaluate call j (.two (.digit (o.partner t)) (.digit d)) = pure (.bool true) := by
      rw [Side.evaluate, evaluate_digit, evaluate_digit, pure_bind, pure_bind]
      exact j.apply_digits (o.partner_ne_zero t) hd
    rw [comparisonsOf, links, List.map_cons, ih, hleft, plainLinks]
    exact congrArg (fun m => (o, m) :: plainLinks p os) hside

/-- Whatever comparisons are joined, they are read as comparisons of joined terms. With the same
comparators there are integers of which this says the opposite of what every comparison says. -/
theorem joined_comparisons (j : Joiner) (c d : Comparison) (cs : List Comparison) :
    (∀ call, evaluate call (joined j (c :: d :: cs)) =
      (reading Comparator.all (.one c.left) (links c (d :: cs))).run (Side.evaluate call j)) ∧
    ∃ (others : List Comparison) (b : Bool),
      others.map Comparison.comparator = (c :: d :: cs).map Comparison.comparator ∧
      ∀ call, evaluate call (joined j others) = pure (.bool b) ∧
        ∀ e ∈ others, evaluate call e.text = pure (.bool !b) := by
  refine ⟨fun call => evaluate_joined call j c (d :: cs), ?_⟩
  generalize hos : (d :: cs).map Comparison.comparator = os
  obtain ⟨b, hb⟩ := exists_run_plainLinks c.comparator os
  refine ⟨comparisonsOf (!b) (c.comparator :: os), b, ?_, fun call => ⟨?_, ?_⟩⟩
  · rw [map_comparisonsOf, List.map_cons, hos]
  · have hleft : Side.evaluate call j (.one (comparisonOf (!b) c.comparator os).left) = pure (.int 2) := by
      rw [← hos]
      exact evaluate_digit call 2
    rw [comparisonsOf, evaluate_joined, run_reading, hleft, map_links_comparisonsOf, hb]
  · exact evaluate_of_mem_comparisonsOf call

/-- A conjunction of comparisons that hold, which does not hold, and a disjunction with a comparison that
holds, which does not hold either. -/
theorem joined_comparisons_misread :
    (evaluate Extended.call "1 == 1".toList = pure (.bool true) ∧
      evaluate Extended.call "2 == 2".toList = pure (.bool true) ∧
      evaluate Extended.call "1 == 1 dan 2 == 2".toList = pure (.bool false)) ∧
    (evaluate Extended.call "1 == 2 atau 3 == 3".toList = pure (.bool false) ∧
      evaluate Extended.call "3 == 3".toList = pure (.bool true)) := by
  have hequal (d e : Fin 10) : evaluate Extended.call (Comparison.text ⟨.digit d, .equal, .digit e⟩) =
      pure (.bool ((Value.int d).equal (.int e))) := by
    rw [evaluate_comparison, evaluate_digit, evaluate_digit, pure_bind, pure_bind]
    exact Comparator.apply_of_compare rfl rfl rfl
  have hreading (x y z : Side) : reading Comparator.all x [(.equal, y), (.equal, z)] =
      .node .equal (.leaf x) (.node .equal (.leaf y) (.leaf z)) := by
    simp [reading, cutAt, Comparator.all]
  have hjoined (j : Joiner) (d e f g : Fin 10) (he : e ≠ 0) (hf : f ≠ 0) :
      evaluate Extended.call
          (joined j [⟨.digit d, .equal, .digit e⟩, ⟨.digit f, .equal, .digit g⟩]) =
        pure (.bool ((Value.int d).equal (.bool ((Value.bool true).equal (.int g))))) := by
    rw [evaluate_joined, links, links, hreading]
    simp only [Reading.run, Side.evaluate, evaluate_digit, pure_bind, j.apply_digits he hf]
    rw [Comparator.apply_of_compare rfl rfl rfl, pure_bind]
    exact Comparator.apply_of_compare rfl rfl rfl
  exact ⟨⟨hequal 1 1, hequal 2 2, hjoined .and 1 1 2 2 (by decide) (by decide)⟩,
    hjoined .or 1 2 3 3 (by decide) (by decide), hequal 3 3⟩

end Birokrasi.Extended
