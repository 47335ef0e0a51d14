import Birokrasi.Extended.Execution
import Birokrasi.Proofs.Cutting
import Birokrasi.Proofs.Outcome

/-!
# Expressions without calls

What an expression is taken for decides how it is evaluated, and its parts are made of its own characters.
So an expression without an opening parenthesis has no call in any of its parts, and what it comes to does
not depend on how functions are called (`evaluate_of_no_call`).
-/

namespace Birokrasi.Extended

open Birokrasi.Text

/-! ## Forms -/

section Forms

variable {call : Caller} {text : List Char}

theorem evaluate_of_value {v : Value} (h : literal? (trim text) = some (.value v)) :
    evaluate call text = pure v := by
  rw [evaluate]
  split
  next w hw =>
    rw [hw] at h
    cases h
    rfl
  all_goals
    rename_i hl
    rw [hl] at h
    cases h

theorem evaluate_of_list {items : List (List Char)} (h : literal? (trim text) = some (.list items)) :
    evaluate call text = (do newList (← items.mapM (evaluate call)).toArray) := by
  rw [evaluate]
  split
  case h_2 items' hl =>
    rw [hl] at h
    cases h
    rw [List.mapM_subtype fun _ _ => rfl, List.unattach_attach]
  all_goals
    rename_i hl
    rw [hl] at h
    cases h

/-- Adds a pair to the entries of a record. -/
def evaluatePair (call : Caller) (entries : List (Value × Value)) (pair : List Char) :
    Run (List (Value × Value)) := do
  match cut? [':'] pair with
  | none => throw (.objectForm (String.ofList pair))
  | some (key, value) =>
    let k ← evaluate call key
    let v ← evaluate call value
    return Store.putEntry (.text ((← get).shown k)) v entries

theorem evaluate_of_record {pairs : List (List Char)}
    (h : literal? (trim text) = some (.record pairs)) :
    evaluate call text = (do newRecord (← pairs.foldlM (evaluatePair call) [])) := by
  rw [evaluate]
  split
  case h_3 pairs' hl =>
    rw [hl] at h
    cases h
    rw [List.foldlM_subtype (g := evaluatePair call), List.unattach_attach]
    intro entries pair _
    unfold evaluatePair
    dsimp only
    split
    next hc => rw [hc]
    next key value hc => rw [hc]
  all_goals
    rename_i hl
    rw [hl] at h
    cases h

/-- Evaluates what is neither a literal nor a call. -/
def evaluateCompound (call : Caller) (e : List Char) : Run Value := do
  match compound e with
  | .access name key =>
    let container ← lookup name
    let k ← evaluate call key
    access name container k
  | .value v => return v
  | .name name => lookup name
  | .operation op left right =>
    let l ← evaluate call left
    let r ← evaluate call right
    op.apply l r
  | .unreadable => throw (.cannotEvaluate (String.ofList e))

/-- Evaluates what is no literal, once it is known which call it is taken for. -/
def evaluateTaken (call : Caller) (e : List Char) :
    Except Failure (Option (Callee × List (List Char))) → Run Value
  | .error failure => throw failure
  | .ok (some (callee, args)) => do
    let vs ← args.mapM (evaluate call)
    match callee with
    | .builtin b => b.apply vs
    | .function name => call name vs
  | .ok none => evaluateCompound call e

theorem evaluate_of_no_literal (h : literal? (trim text) = none) :
    evaluate call text =
      (do evaluateTaken call (trim text) (call? (← get).functions.has (trim text))) := by
  rw [evaluate]
  split
  case h_4 hl =>
    refine bind_congr fun s => ?_
    dsimp only
    split
    next hc => rw [hc, evaluateTaken]
    next callee args hc =>
      rw [hc, List.mapM_subtype fun _ _ => rfl, List.unattach_attach]
      rfl
    next hc =>
      rw [hc, evaluateTaken, evaluateCompound]
      split
      all_goals
        rename_i hd
        rw [hd]
  all_goals
    rename_i hl
    rw [hl] at h
    cases h

/-- What a text is taken for may be the same whatever functions the program has. -/
theorem evaluate_of_taken {taken : Except Failure (Option (Callee × List (List Char)))}
    (h : literal? (trim text) = none) (hcall : ∀ known, call? known (trim text) = taken) :
    evaluate call text = evaluateTaken call (trim text) taken := by
  rw [evaluate_of_no_literal h]
  simp only [hcall]
  rfl

theorem evaluate_of_compound (h : literal? (trim text) = none)
    (hcall : ∀ known, call? known (trim text) = .ok none) :
    evaluate call text = evaluateCompound call (trim text) :=
  evaluate_of_taken h hcall

/-- A call without its closing parenthesis. -/
theorem evaluate_of_unclosed {e : Failure} (h : literal? (trim text) = none)
    (hcall : ∀ known, call? known (trim text) = .error e) : evaluate call text = throw e :=
  evaluate_of_taken h hcall

/-- A call of a function that every program has. -/
theorem evaluate_of_builtin {b : Builtin} {args : List (List Char)} (h : literal? (trim text) = none)
    (hcall : ∀ known, call? known (trim text) = .ok (some (.builtin b, args))) :
    evaluate call text = (do b.apply (← args.mapM (evaluate call))) :=
  evaluate_of_taken h hcall

end Forms

/-! ## Parts -/

section Parts

variable {s t e p : List Char}

theorem between?_subset {first last : Char} (h : between? first last s = some t) : t ⊆ s := by
  cases s with
  | nil => cases h
  | cons c rest =>
    dsimp only [between?] at h
    split at h
    · cases h
      exact List.subset_cons_of_subset c (List.dropLast_subset rest)
    · cases h

theorem word?_subset {name rest : List Char} (h : word? s = some (name, rest)) : rest ⊆ s := by
  unfold word? at h
  dsimp only at h
  split at h
  · cases h
  · cases h
    exact (List.dropWhile_suffix isWord).subset

theorem uptoInLine?_subset {stop : Char} (h : uptoInLine? stop s = some t) : t ⊆ s := by
  induction s generalizing t with
  | nil => cases h
  | cons c s ih =>
    unfold uptoInLine? at h
    split at h
    · cases h
      exact List.nil_subset _
    · split at h
      · cases h
      · obtain ⟨u, hu, rfl⟩ := Option.map_eq_some_iff.1 h
        exact List.cons_subset_cons c (ih hu)

theorem indexed?_subset {name key : List Char} (h : indexed? s = some (name, key)) : key ⊆ s := by
  unfold indexed? at h
  split at h
  next word rest hword =>
    obtain ⟨k, hk, heq⟩ := Option.map_eq_some_iff.1 h
    cases heq
    have hrest : rest ⊆ s := List.Subset.trans (List.subset_cons_self '[' rest) (word?_subset hword)
    cases rest with
    | nil => cases hk
    | cons c rest =>
      dsimp only [shortest?] at hk
      split at hk
      · cases hk
      · obtain ⟨u, hu, rfl⟩ := Option.map_eq_some_iff.1 hk
        exact List.Subset.trans (List.cons_subset_cons c (uptoInLine?_subset hu)) hrest
  · cases h

theorem cutAtCommas_subset {quote : Option Char} {depth : Int}
    (h : p ∈ (cutAtCommas quote depth s).1 :: (cutAtCommas quote depth s).2) : p ⊆ s := by
  induction s generalizing quote depth p with
  | nil =>
    obtain rfl := List.mem_singleton.1 h
    exact List.nil_subset _
  | cons c rest ih =>
    have hcons : ∀ (quote : Option Char) (depth : Int),
        p ∈ (c :: (cutAtCommas quote depth rest).1) :: (cutAtCommas quote depth rest).2 →
        p ⊆ c :: rest := by
      intro quote depth hp
      rcases List.mem_cons.1 hp with rfl | hp
      · exact List.cons_subset_cons c (ih List.mem_cons_self)
      · exact List.subset_cons_of_subset c (ih (List.mem_cons_of_mem _ hp))
    unfold cutAtCommas at h
    split at h
    · split at h
      · rcases List.mem_cons.1 h with rfl | h
        · exact List.nil_subset _
        · exact List.subset_cons_of_subset c (ih h)
      · exact hcons _ _ h
    · exact hcons _ _ h

theorem withoutBlankLast_subset {ps : List (List Char)} (hps : ∀ q ∈ ps, q ⊆ s)
    (h : p ∈ withoutBlankLast ps) : p ⊆ s := by
  have htrim : ∀ q ∈ ps, trim q ⊆ s := fun q hq _ hc => hps q hq (mem_of_mem_trim hc)
  induction ps with
  | nil => cases h
  | cons q rest ih =>
    obtain ⟨hq, hrest⟩ := List.forall_mem_cons.1 hps
    obtain ⟨hqt, hrestt⟩ := List.forall_mem_cons.1 htrim
    cases rest with
    | nil =>
      unfold withoutBlankLast at h
      split at h
      · cases h
      · obtain rfl := List.mem_singleton.1 h
        exact hqt
    | cons r rest =>
      unfold withoutBlankLast at h
      rcases List.mem_cons.1 h with rfl | h
      · exact hqt
      · exact ih hrest h hrestt

theorem splitArguments_subset (h : p ∈ splitArguments s) : p ⊆ s :=
  withoutBlankLast_subset (fun _ hq => cutAtCommas_subset hq) h

theorem literal?_list_subset {items : List (List Char)} (h : literal? e = some (.list items))
    (hp : p ∈ items) : p ⊆ e := by
  simp only [literal?] at h
  repeat' split at h
  all_goals try simp at h
  next inner hi =>
    subst h
    exact fun _ hc => between?_subset hi (mem_of_mem_trim (splitArguments_subset hp hc))

theorem literal?_record_subset {pairs : List (List Char)} (h : literal? e = some (.record pairs))
    (hp : p ∈ pairs) : p ⊆ e := by
  simp only [literal?] at h
  repeat' split at h
  all_goals try simp at h
  next inner _ hi =>
    subst h
    exact fun _ hc => between?_subset hi (mem_of_mem_trim (splitArguments_subset hp hc))

theorem cut?_subset {sep left right : List Char} (h : cut? sep s = some (left, right)) :
    left ⊆ s ∧ right ⊆ s := by
  rw [cut?_eq_some h, List.append_assoc]
  exact ⟨List.subset_append_left _ _,
    List.subset_append_of_subset_right _ (List.subset_append_right _ _)⟩

theorem compound_access_subset {name : String} {key : List Char}
    (h : compound e = .access name key) : key ⊆ e := by
  simp only [compound] at h
  repeat' split at h
  all_goals try simp at h
  next hi =>
    obtain ⟨_, rfl⟩ := h
    exact indexed?_subset hi

theorem compound_operation_subset {op : Operator} {left right : List Char}
    (h : compound e = .operation op left right) : left ⊆ e ∧ right ⊆ e := by
  simp only [compound] at h
  repeat' split at h
  all_goals try simp at h
  next ho =>
    obtain ⟨rfl, rfl, rfl⟩ := h
    obtain ⟨op', _, ho⟩ := List.exists_of_findSome?_eq_some ho
    obtain ⟨sides, hs, heq⟩ := Option.map_eq_some_iff.1 ho
    cases heq
    unfold Operator.sides? at hs
    split at hs
    · cases hs
    · exact cut?_subset hs

/-- A call has an opening parenthesis. -/
theorem call?_of_no_parenthesis (h : '(' ∉ e) (known : String → Bool) : call? known e = .ok none := by
  have hhead : callHead? e = none := by
    unfold callHead?
    split
    · split
      next name rest hword => exact absurd (word?_subset hword List.mem_cons_self) h
      · rfl
    · rfl
  rw [call?, hhead]

end Parts

/-! ## Headers of loops -/

section Headers

variable {s line first last : List Char}

theorem after?_subset {lead : List Char} (h : after? lead s = some last) : last ⊆ s := by
  rw [eq_append_of_after? h]
  exact List.subset_append_right lead last

theorem trimStart_subset (s : List Char) : trimStart s ⊆ s := (List.dropWhile_suffix isBlank).subset

theorem afterRangeWord?_subset (h : afterRangeWord? s = some last) : last ⊆ s := by
  obtain ⟨-, -, h⟩ := Option.bind_eq_some_iff.1 h
  obtain ⟨rest, hrest, h⟩ := Option.bind_eq_some_iff.1 h
  obtain ⟨-, -, h⟩ := Option.bind_eq_some_iff.1 h
  obtain ⟨-, -, hlast⟩ := Option.bind_eq_some_iff.1 h
  cases hlast
  calc
    trimStart rest ⊆ rest := trimStart_subset rest
    _ ⊆ trimStart s := after?_subset hrest
    _ ⊆ s := trimStart_subset s

theorem cutRange?_subset (h : cutRange? s = some (first, last)) : first ⊆ s ∧ last ⊆ s := by
  induction s generalizing first last with
  | nil => cases h
  | cons c s ih =>
    unfold cutRange? at h
    split at h
    next last' hlast =>
      cases h
      exact ⟨List.cons_subset_cons c (List.nil_subset s),
        List.subset_cons_of_subset c (afterRangeWord?_subset hlast)⟩
    · obtain ⟨⟨first', last'⟩, hrest, heq⟩ := Option.map_eq_some_iff.1 h
      cases heq
      obtain ⟨hfirst, hlast⟩ := ih hrest
      exact ⟨List.cons_subset_cons c hfirst, List.subset_cons_of_subset c hlast⟩

theorem exists_of_skipping? {α : Type} {next : List Char → Option α} {a : α} {n : Nat}
    (h : skipping? next s n = some a) : ∃ k, next (s.drop k) = some a := by
  induction n with
  | zero => exact ⟨0, h⟩
  | succ n ih =>
    unfold skipping? at h
    split at h
    next b hb =>
      cases h
      exact ⟨n + 1, hb⟩
    · exact ih h

theorem range?_subset {name : String} (h : range? line = some (name, first, last)) :
    first ⊆ line ∧ last ⊆ line := by
  obtain ⟨rest, hrest, h⟩ := Option.bind_eq_some_iff.1 h
  obtain ⟨⟨word, rest'⟩, hword, h⟩ := Option.bind_eq_some_iff.1 h
  obtain ⟨-, -, h⟩ := Option.bind_eq_some_iff.1 h
  obtain ⟨rest'', hdari, h⟩ := Option.bind_eq_some_iff.1 h
  obtain ⟨-, -, h⟩ := Option.bind_eq_some_iff.1 h
  obtain ⟨⟨first', last'⟩, hskip, heq⟩ := Option.bind_eq_some_iff.1 h
  cases heq
  obtain ⟨k, hcut⟩ := exists_of_skipping? hskip
  have hline : (rest''.drop 1).drop k ⊆ line := calc
    (rest''.drop 1).drop k ⊆ rest''.drop 1 := List.drop_subset k _
    _ ⊆ rest'' := List.drop_subset 1 rest''
    _ ⊆ trimStart rest' := after?_subset hdari
    _ ⊆ rest' := trimStart_subset rest'
    _ ⊆ trimStart rest := word?_subset hword
    _ ⊆ rest := trimStart_subset rest
    _ ⊆ line := after?_subset hrest
  obtain ⟨hfirst, hlast⟩ := cutRange?_subset hcut
  exact ⟨List.Subset.trans hfirst hline, List.Subset.trans hlast hline⟩

end Headers

/-! ## Evaluation -/

theorem mapM_congr {f g : List Char → Run Value} {l : List (List Char)} (h : ∀ a ∈ l, f a = g a) :
    l.mapM f = l.mapM g := by
  induction l with
  | nil => rfl
  | cons a l ih =>
    obtain ⟨ha, hl⟩ := List.forall_mem_cons.1 h
    rw [List.mapM_cons, List.mapM_cons, ha, ih hl]

theorem foldlM_congr {β : Type} {f g : β → List Char → Run β} {l : List (List Char)}
    (h : ∀ a ∈ l, ∀ b, f b a = g b a) (b : β) : l.foldlM f b = l.foldlM g b := by
  induction l generalizing b with
  | nil => rfl
  | cons a l ih =>
    obtain ⟨ha, hl⟩ := List.forall_mem_cons.1 h
    rw [List.foldlM_cons, List.foldlM_cons, ha]
    exact congrArg _ (funext fun b' => ih hl b')

section Agreement

variable {call call' : Caller} {e pair : List Char}

theorem evaluateCompound_congr
    (h : ∀ part, part.length < e.length → part ⊆ e → evaluate call part = evaluate call' part) :
    evaluateCompound call e = evaluateCompound call' e := by
  unfold evaluateCompound
  cases hcomp : compound e with
  | access name key =>
    dsimp only
    rw [h key (length_lt_of_compound_access hcomp) (compound_access_subset hcomp)]
  | operation op left right =>
    obtain ⟨hleft, hright⟩ := length_lt_of_compound_operation hcomp
    obtain ⟨hleft', hright'⟩ := compound_operation_subset hcomp
    dsimp only
    rw [h left hleft hleft', h right hright hright']
  | value v => rfl
  | name name => rfl
  | unreadable => rfl

theorem evaluatePair_congr
    (h : ∀ part, part.length < pair.length → part ⊆ pair → evaluate call part = evaluate call' part)
    (entries : List (Value × Value)) :
    evaluatePair call entries pair = evaluatePair call' entries pair := by
  unfold evaluatePair
  cases hcut : cut? [':'] pair with
  | none => rfl
  | some sides =>
    obtain ⟨key, value⟩ := sides
    obtain ⟨hkey, hvalue⟩ := cut?_subset hcut
    obtain ⟨hkeyLen, hvalueLen⟩ := length_cut?_lt hcut (by simp)
    dsimp only
    rw [h key hkeyLen hkey, h value hvalueLen hvalue]

end Agreement

/-- An expression without an opening parenthesis comes to the same however functions are called. -/
theorem evaluate_of_no_call {text : List Char} (h : '(' ∉ text) (call call' : Caller) :
    evaluate call text = evaluate call' text := by
  -- on the length of the text, for its parts are shorter and made of its characters
  have ih : ∀ part : List Char, part.length < (trim text).length → part ⊆ trim text →
      evaluate call part = evaluate call' part := by
    intro part hshort hpart
    have hlen : part.length < text.length := Nat.lt_of_lt_of_le hshort (length_trim_le text)
    exact evaluate_of_no_call (fun hc => h (mem_of_mem_trim (hpart hc))) call call'
  cases hlit : literal? (trim text) with
  | none =>
    have hcall := call?_of_no_parenthesis fun hc => h (mem_of_mem_trim hc)
    rw [evaluate_of_compound hlit hcall, evaluate_of_compound hlit hcall, evaluateCompound_congr ih]
  | some l =>
    cases l with
    | value v => rw [evaluate_of_value hlit, evaluate_of_value hlit]
    | list items =>
      have hitems : items.mapM (evaluate call) = items.mapM (evaluate call') :=
        mapM_congr fun item hitem =>
          ih item (length_lt_of_literal?_list hlit hitem) (literal?_list_subset hlit hitem)
      rw [evaluate_of_list hlit, evaluate_of_list hlit, hitems]
    | record pairs =>
      have hpairs : ∀ entries,
          pairs.foldlM (evaluatePair call) entries = pairs.foldlM (evaluatePair call') entries := by
        refine foldlM_congr fun pair hpair => evaluatePair_congr fun part hshort hpart => ?_
        exact ih part (Nat.lt_trans hshort (length_lt_of_literal?_record hlit hpair))
          (List.Subset.trans hpart (literal?_record_subset hlit hpair))
      rw [evaluate_of_record hlit, evaluate_of_record hlit, hpairs]
termination_by text.length

end Birokrasi.Extended
