import Mathlib.Data.List.Chain

/-!
# Expressions without brackets

An expression is a chain: operands with operators between them. Which operator is applied to what is
said by a tree. The usual rules allow one tree only (`eq_usual`): comparisons bind weakest, then sums,
then products, and operators that bind alike are applied from the left. Cutting a chain at the first of
the operators that come first in a fixed order gives another tree (`Chain.reading`).

Both trees grow by the same rule, an operator after the other; they differ in which operators stay above
a new one. The two have the same value if the operators are `Regular` (`value_reading`).
-/

namespace Birokrasi.Calculation

/-! ## Operators -/

inductive Operator where
  | add | sub | mul | div | eq | lt | gt
  deriving DecidableEq

namespace Operator

/-- How strongly an operator binds. -/
def level : Operator → Nat
  | eq | lt | gt => 0
  | add | sub => 1
  | mul | div => 2

/-- The place of an operator in the order in which they are looked for. -/
def rank : Operator → Nat
  | add => 0
  | sub => 1
  | mul => 2
  | div => 3
  | eq => 4
  | lt => 5
  | gt => 6

/-- What an operator makes of two integers; division rounds down, and there is none by zero. -/
def apply : Operator → Int → Int → Option Int
  | add, a, b => some (a + b)
  | sub, a, b => some (a - b)
  | mul, a, b => some (a * b)
  | div, a, b => if b = 0 then none else some (a.fdiv b)
  | eq, a, b => some (if a = b then 1 else 0)
  | lt, a, b => some (if a < b then 1 else 0)
  | gt, a, b => some (if b < a then 1 else 0)

/-- An operator on values that there may not be. -/
def on (o : Operator) (a b : Option Int) : Option Int := do o.apply (← a) (← b)

/-- An operator of the same strength that may be applied first. -/
structure Absorbs (o q : Operator) : Prop where
  level : q.level = o.level
  assoc : ∀ a b c, q.on (o.on a b) c = o.on a (q.on b c)

theorem level_le_two (p : Operator) : p.level ≤ 2 := by
  cases p <;> decide

theorem level_le_of_rank_le {o p : Operator} (h : o.rank ≤ p.rank) (hp : 0 < p.level) :
    o.level ≤ p.level := by
  revert h hp
  cases o <;> cases p <;> decide

theorem add_absorbs_add : Absorbs add add where
  level := rfl
  assoc a b c := by cases a <;> cases b <;> cases c <;> simp [on, apply, Int.add_assoc]

theorem add_absorbs_sub : Absorbs add sub where
  level := rfl
  assoc a b c := by cases a <;> cases b <;> cases c <;> simp [on, apply, Int.add_sub_assoc]

theorem mul_absorbs_mul : Absorbs mul mul where
  level := rfl
  assoc a b c := by cases a <;> cases b <;> cases c <;> simp [on, apply, Int.mul_assoc]

end Operator

/-! ## Chains and trees -/

/-- Operands with operators between them. -/
structure Chain (α : Type) where
  first : α
  rest : List (Operator × α) := []

inductive Tree (α : Type) where
  | leaf (x : α)
  | node (o : Operator) (left right : Tree α)

variable {α : Type} {x : α} {o : Operator} {c l r : Chain α} {t : Tree α}

namespace Chain

def ops (c : Chain α) : List Operator := c.rest.map Prod.fst

def operands (c : Chain α) : List α := c.first :: c.rest.map Prod.snd

/-- Two chains with an operator between them. -/
def join (l : Chain α) (o : Operator) (r : Chain α) : Chain α :=
  ⟨l.first, l.rest ++ (o, r.first) :: r.rest⟩

@[simp] theorem ops_join : (l.join o r).ops = l.ops ++ o :: r.ops := by
  simp [ops, join]

@[simp] theorem operands_join : (l.join o r).operands = l.operands ++ r.operands := by
  simp [operands, join]

theorem join_assoc (c l r : Chain α) (o q : Operator) :
    c.join o (l.join q r) = (c.join o l).join q r := by
  simp [join]

theorem length_lt_join (l : Chain α) (o : Operator) (r : Chain α) :
    l.ops.length < (l.join o r).ops.length ∧ r.ops.length < (l.join o r).ops.length := by
  simp only [ops_join, List.length_append, List.length_cons]
  omega

def map {β : Type} (f : α → β) (c : Chain α) : Chain β :=
  ⟨f c.first, c.rest.map fun s => (s.1, f s.2)⟩

@[simp] theorem ops_map {β : Type} (f : α → β) : (c.map f).ops = c.ops := by
  simp [ops, map, Function.comp_def]

@[simp] theorem operands_map {β : Type} (f : α → β) : (c.map f).operands = c.operands.map f := by
  simp [operands, map, Function.comp_def]

/-- Cutting a chain where its operators are cut. -/
theorem exists_join {as bs : List Operator} (h : c.ops = as ++ o :: bs) :
    ∃ l r : Chain α, c = l.join o r ∧ l.ops = as ∧ r.ops = bs := by
  obtain ⟨first, rest⟩ := c
  obtain ⟨before, after, rfl, hbefore, hafter⟩ := List.map_eq_append_iff.1 h
  obtain ⟨⟨p, y⟩, rest, rfl, rfl, hrest⟩ := List.map_eq_cons_iff.1 hafter
  exact ⟨⟨first, before⟩, ⟨y, rest⟩, rfl, hbefore, hrest⟩

end Chain

namespace Tree

/-- The operands and operators of a tree, from the left. -/
def chain : Tree α → Chain α
  | leaf x => ⟨x, []⟩
  | node o l r => l.chain.join o r.chain

/-- The operator that is applied last. -/
def root? : Tree α → Option Operator
  | leaf _ => none
  | node o _ _ => some o

/-- The value of a tree, if there is one. -/
def value (v : α → Int) : Tree α → Option Int
  | leaf x => some (v x)
  | node o l r => o.on (l.value v) (r.value v)

/-- The trees of the usual rules: to the left of an operator there is none that binds weaker, to its
right only such as bind stronger. -/
inductive Usual : Tree α → Prop
  | leaf (x : α) : Usual (leaf x)
  | node {o : Operator} {l r : Tree α} : Usual l → Usual r → (∀ p ∈ l.root?, o.level ≤ p.level) →
      (∀ p ∈ r.root?, o.level < p.level) → Usual (node o l r)

/-- A tree with one more operator and operand at its right. The operators on its right side stay above
the new one as long as `stays` says so. -/
def extend (stays : Operator → Operator → Bool) (o : Operator) (x : α) : Tree α → Tree α
  | leaf y => node o (leaf y) (leaf x)
  | node p l r => if stays p o then node p l (r.extend stays o x) else node o (node p l r) (leaf x)

def grow (stays : Operator → Operator → Bool) (t : Tree α) : List (Operator × α) → Tree α
  | [] => t
  | (o, x) :: rest => (t.extend stays o x).grow stays rest

def map {β : Type} (f : α → β) : Tree α → Tree β
  | leaf x => leaf (f x)
  | node o l r => node o (l.map f) (r.map f)

end Tree

/-- The tree that a chain grows to. -/
def Chain.tree (stays : Operator → Operator → Bool) (c : Chain α) : Tree α :=
  (Tree.leaf c.first).grow stays c.rest

/-- The tree of the usual rules. -/
def Chain.usual (c : Chain α) : Tree α := c.tree fun p o => p.level < o.level

/-- The tree of cutting at the operators in their order. -/
def Chain.reading (c : Chain α) : Tree α := c.tree fun p o => p.rank ≤ o.rank

/-! ## How trees grow -/

section Growth

variable {stays : Operator → Operator → Bool}

theorem chain_extend (t : Tree α) (o : Operator) (x : α) :
    (t.extend stays o x).chain = ⟨t.chain.first, t.chain.rest ++ [(o, x)]⟩ := by
  induction t with
  | leaf y => rfl
  | node p l r _ ih =>
    rw [Tree.extend]
    split
    · simp [Tree.chain, Chain.join, ih]
    · rfl

theorem chain_grow (rest : List (Operator × α)) (t : Tree α) :
    (t.grow stays rest).chain = ⟨t.chain.first, t.chain.rest ++ rest⟩ := by
  induction rest generalizing t with
  | nil => rw [Tree.grow, List.append_nil]
  | cons s rest ih => rw [Tree.grow, ih, chain_extend, List.append_assoc, List.singleton_append]

/-- The operands and operators of the tree of a chain are those of the chain. -/
theorem chain_tree (c : Chain α) : (c.tree stays).chain = c := chain_grow c.rest (.leaf c.first)

/-- The shape of a tree is that of the operators. -/
theorem tree_map {β : Type} (f : α → β) (c : Chain α) :
    (c.map f).tree stays = (c.tree stays).map f := by
  have hextend (t : Tree α) (o : Operator) (x : α) :
      (t.map f).extend stays o (f x) = (t.extend stays o x).map f := by
    induction t with
    | leaf y => rfl
    | node p l r _ ih =>
      simp only [Tree.map, Tree.extend, ih]
      split
      · rfl
      · rfl
  have hgrow (rest : List (Operator × α)) (t : Tree α) :
      (t.map f).grow stays (rest.map fun s => (s.1, f s.2)) = (t.grow stays rest).map f := by
    induction rest generalizing t with
    | nil => rfl
    | cons s rest ih => rw [List.map_cons, Tree.grow, hextend, ih, Tree.grow]
  exact hgrow c.rest (.leaf c.first)

theorem value_map {β : Type} (f : α → β) (v : β → Int) (t : Tree α) :
    (t.map f).value v = t.value (v ∘ f) := by
  induction t with
  | leaf x => rfl
  | node o l r hl hr => rw [Tree.map, Tree.value, hl, hr, Tree.value]

theorem grow_append (before after : List (Operator × α)) (t : Tree α) :
    t.grow stays (before ++ after) = (t.grow stays before).grow stays after := by
  induction before generalizing t with
  | nil => rfl
  | cons s before ih => exact ih _

theorem mem_ops_of_root? {p : Operator} (h : p ∈ t.root?) : p ∈ t.chain.ops := by
  cases t with
  | leaf x => cases h
  | node o l r =>
    cases h
    simp [Tree.chain]

theorem extend_of_root (h : ∀ p ∈ t.root?, stays p o = false) :
    t.extend stays o x = .node o t (.leaf x) := by
  cases t with
  | leaf y => rfl
  | node p l r => rw [Tree.extend, h p rfl, if_neg Bool.false_ne_true]

theorem grow_node {left right : Tree α} (rest : List (Operator × α)) (h : ∀ s ∈ rest, stays o s.1 = true) :
    (Tree.node o left right).grow stays rest = .node o left (right.grow stays rest) := by
  induction rest generalizing right with
  | nil => rfl
  | cons s rest ih =>
    rw [Tree.grow, Tree.extend, h s List.mem_cons_self, if_pos rfl, Tree.grow]
    exact ih fun s hs => h s (List.mem_cons_of_mem _ hs)

/-- The tree of a chain is cut at the operator that is above all others. -/
theorem tree_join (hl : ∀ p ∈ l.ops, stays p o = false) (hr : ∀ q ∈ r.ops, stays o q = true) :
    (l.join o r).tree stays = .node o (l.tree stays) (r.tree stays) := by
  have hroot : ∀ p ∈ (l.tree stays).root?, stays p o = false := by
    intro p hp
    have hops := mem_ops_of_root? hp
    rw [chain_tree] at hops
    exact hl p hops
  have hgrown : (l.join o r).tree stays =
      ((l.tree stays).extend stays o r.first).grow stays r.rest :=
    grow_append l.rest ((o, r.first) :: r.rest) (.leaf l.first)
  rw [hgrown, extend_of_root hroot, grow_node]
  · rfl
  · exact fun s hs => hr s.1 (List.mem_map_of_mem hs)

end Growth

/-! ## The usual rules -/

theorem root?_extend {stays : Operator → Operator → Bool} {q : Operator}
    (h : q ∈ (t.extend stays o x).root?) : q ∈ t.root? ∨ q = o := by
  cases t with
  | leaf y =>
    cases h
    exact .inr rfl
  | node p l r =>
    rw [Tree.extend] at h
    split at h
    · cases h
      exact .inl rfl
    · cases h
      exact .inr rfl

theorem Tree.Usual.extend (h : t.Usual) (o : Operator) (x : α) :
    (t.extend (fun p o => p.level < o.level) o x).Usual := by
  induction h with
  | leaf y => exact .node (.leaf y) (.leaf x) nofun nofun
  | @node p l r hl hr hpl hpr _ ihr =>
    rw [Tree.extend]
    split
    next hlt =>
      refine .node hl ihr hpl fun q hq => ?_
      rcases root?_extend hq with hq | rfl
      · exact hpr q hq
      · exact of_decide_eq_true hlt
    next hle =>
      refine .node (.node hl hr hpl hpr) (.leaf x) (fun q hq => ?_) nofun
      cases hq
      rw [decide_eq_true_eq] at hle
      omega

theorem Tree.Usual.grow (h : t.Usual) (rest : List (Operator × α)) :
    (t.grow (fun p o => p.level < o.level) rest).Usual := by
  induction rest generalizing t with
  | nil => exact h
  | cons s rest ih => exact ih (h.extend s.1 s.2)

theorem usual_usual (c : Chain α) : c.usual.Usual := Tree.Usual.grow (.leaf c.first) c.rest

/-- No operator of a usual tree binds weaker than the one above all. -/
theorem Tree.Usual.level_le (h : t.Usual) {p q : Operator} (hq : q ∈ t.root?) (hp : p ∈ t.chain.ops) :
    q.level ≤ p.level := by
  induction h generalizing q with
  | leaf y => cases hq
  | @node o l r _ _ hol hor ihl ihr =>
    cases hq
    simp only [Tree.chain, Chain.ops_join, List.mem_append, List.mem_cons] at hp
    rcases hp with hp | rfl | hp
    · cases l with
      | leaf y => cases hp
      | node s _ _ => exact Nat.le_trans (hol s rfl) (ihl rfl hp)
    · exact Nat.le_refl _
    · cases r with
      | leaf y => cases hp
      | node s _ _ => exact Nat.le_trans (Nat.le_of_lt (hor s rfl)) (ihr rfl hp)

/-- The usual rules leave one tree. -/
theorem eq_usual (h : t.Usual) : t = t.chain.usual := by
  induction h with
  | leaf y => rfl
  | @node o l r hl hr hol hor ihl ihr =>
    have hleft : ∀ p ∈ l.chain.ops, decide (p.level < o.level) = false := by
      intro p hp
      cases l with
      | leaf y => cases hp
      | node s _ _ =>
        have hs := hol s rfl
        have hle := hl.level_le rfl hp
        exact decide_eq_false (by omega)
    have hright : ∀ q ∈ r.chain.ops, decide (o.level < q.level) = true := by
      intro q hq
      cases r with
      | leaf y => cases hq
      | node s _ _ =>
        have hs := hor s rfl
        have hle := hr.level_le rfl hq
        exact decide_eq_true (by omega)
    rw [Tree.chain, Chain.usual, tree_join hleft hright]
    exact congr (congrArg _ ihl) ihr

theorem usual_join (hl : ∀ p ∈ l.ops, o.level ≤ p.level) (hr : ∀ q ∈ r.ops, o.level < q.level) :
    (l.join o r).usual = .node o l.usual r.usual :=
  tree_join (fun p hp => decide_eq_false (Nat.not_lt.2 (hl p hp))) fun q hq => decide_eq_true (hr q hq)

theorem reading_join (hl : ∀ p ∈ l.ops, o.rank < p.rank) (hr : ∀ q ∈ r.ops, o.rank ≤ q.rank) :
    (l.join o r).reading = .node o l.reading r.reading :=
  tree_join (fun p hp => decide_eq_false (Nat.not_le.2 (hl p hp))) fun q hq => decide_eq_true (hr q hq)

/-! ## Regular operators -/

/-- No two minus signs without a plus between them. -/
abbrev Signed (ops : List Operator) : Prop :=
  (ops.filter (·.level = 1)).IsChain fun p q => ¬ (p = .sub ∧ q = .sub)

/-- A division only where a product begins. -/
abbrev Divided (ops : List Operator) : Prop := ops.IsChain fun p q => q = .div → p.level = 1

/-- Operators of arithmetic with these two properties. -/
structure Balanced (ops : List Operator) : Prop where
  arithmetic : ∀ o ∈ ops, 0 < o.level
  minus : Signed ops
  division : Divided ops

/-- Operators for which it makes no difference where a chain is cut: such operators of arithmetic, or
different comparisons against the order in which they are looked for. -/
def Regular (ops : List Operator) : Prop := Balanced ops ∨ ops.Sublist [.gt, .lt, .eq]

instance (ops : List Operator) : Decidable (Balanced ops) :=
  decidable_of_iff ((∀ o ∈ ops, 0 < o.level) ∧ Signed ops ∧ Divided ops)
    ⟨fun h => ⟨h.1, h.2.1, h.2.2⟩, fun h => ⟨h.arithmetic, h.minus, h.division⟩⟩

instance (ops : List Operator) : Decidable (Regular ops) := inferInstanceAs (Decidable (_ ∨ _))

section Regular

variable {as bs : List Operator}

theorem signed_append (h : Signed (as ++ bs)) : Signed as ∧ Signed bs := by
  rw [Signed, List.filter_append] at h
  exact ⟨h.left_of_append, h.right_of_append⟩

theorem signed_tail (h : Signed (o :: bs)) : Signed bs := (signed_append (show Signed ([o] ++ bs) from h)).2

theorem Balanced.left (h : Balanced (as ++ o :: bs)) : Balanced as where
  arithmetic p hp := h.arithmetic p (List.mem_append_left _ hp)
  minus := (signed_append h.minus).1
  division := h.division.left_of_append

theorem Balanced.right (h : Balanced (as ++ o :: bs)) : Balanced (o :: bs) where
  arithmetic p hp := h.arithmetic p (List.mem_append_right _ hp)
  minus := (signed_append h.minus).2
  division := h.division.right_of_append

theorem Balanced.tail (h : Balanced (o :: bs)) : Balanced bs where
  arithmetic p hp := h.arithmetic p (List.mem_cons_of_mem _ hp)
  minus := signed_tail h.minus
  division := h.division.tail

/-- After a minus sign there is none without a plus. -/
theorem sub_not_mem (h : Signed (.sub :: bs)) (hadd : .add ∉ bs) : .sub ∉ bs := by
  intro hsub
  rw [Signed, List.filter_cons_of_pos (by decide)] at h
  cases hsums : bs.filter (·.level = 1) with
  | nil =>
    have hmem : Operator.sub ∈ bs.filter (·.level = 1) := List.mem_filter.2 ⟨hsub, by decide⟩
    rw [hsums] at hmem
    cases hmem
  | cons q rest =>
    have hq : q ∈ bs.filter (·.level = 1) := by
      rw [hsums]
      exact List.mem_cons_self
    obtain ⟨hmem, hlevel⟩ := List.mem_filter.1 hq
    have hqsub : q = .sub := by
      cases q with
      | sub => rfl
      | add => exact absurd hmem hadd
      | _ => exact absurd hlevel (by decide)
    rw [hsums] at h
    exact (List.isChain_cons_cons.1 h).1 ⟨rfl, hqsub⟩

/-- After a product or a quotient there is no division in the same product. -/
theorem div_not_mem (h : Divided (o :: bs)) (ho : o.level = 2)
    (hbs : ∀ q ∈ bs, q.level = 2) : .div ∉ bs := by
  induction bs generalizing o with
  | nil => exact List.not_mem_nil
  | cons q bs ih =>
    have hq := hbs q List.mem_cons_self
    intro hmem
    rcases List.mem_cons.1 hmem with hdiv | hmem
    · have hone := (List.isChain_cons_cons.1 h).1 hdiv.symm
      omega
    · exact ih (List.isChain_cons_cons.1 h).2 hq (fun p hp => hbs p (List.mem_cons_of_mem _ hp)) hmem

theorem Balanced.absorbs (h : Balanced (o :: bs)) (hbs : ∀ q ∈ bs, o.rank ≤ q.rank) {q : Operator}
    (hq : q ∈ bs) (hlevel : o.level = q.level) : o.Absorbs q := by
  have hproduct : o.level = 2 → .div ∉ bs := by
    intro ho
    refine div_not_mem h.division ho fun p hp => ?_
    have hle := Operator.level_le_of_rank_le (hbs p hp) (h.tail.arithmetic p hp)
    have hmost := p.level_le_two
    omega
  have hrank := hbs q hq
  cases o with
  | add =>
    cases q with
    | add => exact Operator.add_absorbs_add
    | sub => exact Operator.add_absorbs_sub
    | _ => cases hlevel
  | sub =>
    have hadd : Operator.add ∉ bs := fun hmem => absurd (hbs _ hmem) (by decide)
    cases q with
    | add => exact absurd hrank (by decide)
    | sub => exact absurd hq (sub_not_mem h.minus hadd)
    | _ => cases hlevel
  | mul =>
    cases q with
    | mul => exact Operator.mul_absorbs_mul
    | div => exact absurd hq (hproduct rfl)
    | _ => cases hlevel
  | div =>
    cases q with
    | mul => exact absurd hrank (by decide)
    | div => exact absurd hq (hproduct rfl)
    | _ => cases hlevel
  | _ => exact absurd (h.arithmetic _ List.mem_cons_self) (by decide)

/-- Where regular operators are cut, nothing that binds weaker is on either side, and what binds alike
on the right side may be applied first. -/
theorem Regular.cut (h : Regular (as ++ o :: bs)) (has : ∀ p ∈ as, o.rank < p.rank)
    (hbs : ∀ q ∈ bs, o.rank ≤ q.rank) :
    (∀ p ∈ as, o.level ≤ p.level) ∧ (∀ q ∈ bs, o.level < q.level ∨ o.Absorbs q) ∧
      Regular as ∧ Regular bs := by
  rcases h with h | h
  · have hleft := h.left.arithmetic
    have hright := h.right.tail.arithmetic
    refine ⟨fun p hp => ?_, fun q hq => ?_, .inl h.left, .inl h.right.tail⟩
    · exact Operator.level_le_of_rank_le (Nat.le_of_lt (has p hp)) (hleft p hp)
    · rcases Nat.lt_or_eq_of_le (Operator.level_le_of_rank_le (hbs q hq) (hright q hq)) with hlt | heq
      · exact .inl hlt
      · exact .inr (h.right.absorbs hbs hq heq)
  · -- The ranks of comparisons go down, so nothing is left on the right side.
    have hdown : (as ++ o :: bs).Pairwise fun p q => q.rank < p.rank := .sublist h (by decide)
    have hlevel : o.level = 0 := by
      have hmem : o ∈ [Operator.gt, .lt, .eq] := h.subset (by simp)
      revert hmem
      cases o <;> decide
    have hnil : bs = [] := by
      refine List.eq_nil_iff_forall_not_mem.2 fun q hq => ?_
      have hlt := (List.pairwise_cons.1 (List.pairwise_append.1 hdown).2.1).1 q hq
      have hle := hbs q hq
      omega
    subst hnil
    refine ⟨fun p _ => by omega, nofun, .inr ?_, .inr (List.nil_sublist _)⟩
    exact (List.sublist_append_left as _).trans h

end Regular

/-! ## Values -/

/-- The last operator with a property. -/
theorem exists_last_cut {P : Operator → Prop} [DecidablePred P] {ops : List Operator}
    (h : ∃ q ∈ ops, P q) :
    ∃ as q bs, ops = as ++ q :: bs ∧ P q ∧ ∀ p ∈ bs, ¬ P p := by
  induction ops with
  | nil => simp at h
  | cons p ops ih =>
    by_cases hrest : ∃ q ∈ ops, P q
    · obtain ⟨as, q, bs, rfl, hq, hbs⟩ := ih hrest
      exact ⟨p :: as, q, bs, rfl, hq, hbs⟩
    · have hp : P p := by simpa [hrest] using h
      exact ⟨[], p, ops, rfl, hp, fun q hq hP => hrest ⟨q, hq, hP⟩⟩

/-- The first of the operators that are looked for first. -/
theorem exists_first_cut {ops : List Operator} (h : ops ≠ []) :
    ∃ as o bs, ops = as ++ o :: bs ∧ (∀ p ∈ as, o.rank < p.rank) ∧ ∀ q ∈ bs, o.rank ≤ q.rank := by
  induction ops with
  | nil => exact absurd rfl h
  | cons p ops ih =>
    by_cases hnil : ops = []
    · subst hnil
      exact ⟨[], p, [], rfl, nofun, nofun⟩
    · obtain ⟨as, o, bs, rfl, has, hbs⟩ := ih hnil
      by_cases hp : o.rank < p.rank
      · refine ⟨p :: as, o, bs, rfl, fun q hq => ?_, hbs⟩
        rcases List.mem_cons.1 hq with rfl | hq
        · exact hp
        · exact has q hq
      · refine ⟨[], p, as ++ o :: bs, rfl, nofun, fun q hq => ?_⟩
        rcases List.mem_append.1 hq with hq | hq
        · have hlt := has q hq
          omega
        · rcases List.mem_cons.1 hq with rfl | hq
          · omega
          · have hle := hbs q hq
            omega

/-- Induction along the cuts of a list of operators. -/
theorem cut_induction {P : List Operator → Prop} (nil : P [])
    (cut : ∀ as o bs, (∀ p ∈ as, o.rank < p.rank) → (∀ q ∈ bs, o.rank ≤ q.rank) → P as → P bs →
      P (as ++ o :: bs))
    (ops : List Operator) : P ops := by
  induction hn : ops.length using Nat.strongRecOn generalizing ops with
  | ind n ih =>
    subst hn
    by_cases hnil : ops = []
    · exact hnil ▸ nil
    · obtain ⟨as, o, bs, rfl, has, hbs⟩ := exists_first_cut hnil
      rw [List.length_append, List.length_cons] at ih
      exact cut as o bs has hbs (ih _ (by omega) as rfl) (ih _ (by omega) bs rfl)

section Values

variable {v : α → Int}

/-- The usual value of two chains with an operator between them, if the operators that bind alike to its
right may be applied first. -/
theorem value_usual_join (hl : ∀ p ∈ l.ops, o.level ≤ p.level)
    (hr : ∀ q ∈ r.ops, o.level < q.level ∨ o.Absorbs q) :
    (l.join o r).usual.value v = o.on (l.usual.value v) (r.usual.value v) := by
  -- The last operator that binds alike is the one above all others, on both sides.
  induction hn : r.ops.length using Nat.strongRecOn generalizing r with
  | ind n ih =>
    subst hn
    by_cases hlike : ∃ q ∈ r.ops, q.level = o.level
    · obtain ⟨as, q, bs, hcut, hq, hbs⟩ := exists_last_cut hlike
      obtain ⟨r₁, r₂, rfl, rfl, rfl⟩ := Chain.exists_join hcut
      have hside : ∀ p ∈ r₁.ops, o.level ≤ p.level := by
        intro p hp
        rcases hr p (by simp [hp]) with hlt | habs
        · exact Nat.le_of_lt hlt
        · exact Nat.le_of_eq habs.level.symm
      have hstrong : ∀ p ∈ r₂.ops, q.level < p.level := by
        intro p hp
        have hne := hbs p hp
        rcases hr p (by simp [hp]) with hlt | habs
        · omega
        · exact absurd habs.level hne
      have hfirst := ih r₁.ops.length (Chain.length_lt_join r₁ q r₂).1
        (fun p hp => hr p (by simp [hp])) rfl
      have habsorbs : o.Absorbs q := by
        rcases hr q (by simp) with hlt | habs
        · omega
        · exact habs
      rw [Chain.join_assoc, usual_join _ hstrong, usual_join _ hstrong, Tree.value, Tree.value, hfirst,
        habsorbs.assoc]
      · exact fun p hp => hq ▸ hside p hp
      · intro p hp
        rw [Chain.ops_join, List.mem_append, List.mem_cons] at hp
        rw [hq]
        rcases hp with hp | rfl | hp
        · exact hl p hp
        · exact Nat.le_refl _
        · exact hside p hp
    · rw [usual_join hl, Tree.value]
      intro q hq
      rcases hr q hq with hlt | habs
      · exact hlt
      · exact absurd ⟨q, hq, habs.level⟩ hlike

theorem Chain.rest_eq_nil (h : c.ops = []) : c.rest = [] := List.map_eq_nil_iff.1 h

/-- Where the operators are regular, cutting gives the usual value. -/
theorem value_reading (h : Regular c.ops) : c.reading.value v = c.usual.value v := by
  induction hops : c.ops using cut_induction generalizing c with
  | nil =>
    unfold Chain.reading Chain.usual Chain.tree
    rw [Chain.rest_eq_nil hops]
    rfl
  | cut as o bs has hbs ihl ihr =>
    obtain ⟨l, r, rfl, rfl, rfl⟩ := Chain.exists_join hops
    rw [Chain.ops_join] at h
    obtain ⟨hl, hr, hregl, hregr⟩ := h.cut has hbs
    rw [reading_join has hbs, Tree.value, ihl hregl rfl, ihr hregr rfl, value_usual_join hl hr]

end Values

end Birokrasi.Calculation
