/-!
# Outcomes in sequence

How a calculation that may fail goes on: `bind_eq_ok` takes a sequence that comes to an end apart
into its two parts, and `run_bind_eq_ok` does so for actions on a state. An action whose first part
is known goes on with the second (`run_bind_of_ok`, `run_bind_of_error`).

An action `Keeps` a property of states if it holds afterwards too, also after a failure. It `Leads` from
one property to another if that one holds after a value, and to a third one that holds after a failure.
It `Yields` a property of values if every value that it returns has it.
Two outcomes are `Matched` if both are the same value, or both are failures, and their states are related.
-/

namespace Birokrasi

variable {ε α β : Type}

@[simp] theorem ok_bind (a : α) (f : α → Except ε β) : (Except.ok a >>= f) = f a := rfl

@[simp] theorem error_bind (e : ε) (f : α → Except ε β) :
    ((Except.error e : Except ε α) >>= f) = .error e := rfl

theorem bind_eq_ok {x : Except ε α} {f : α → Except ε β} {b : β} :
    (x >>= f) = .ok b ↔ ∃ a, x = .ok a ∧ f a = .ok b := by
  cases x with
  | error e => simp
  | ok a => simp

section Actions

variable {σ : Type} {x : ExceptT ε (StateM σ) α} {s s' : σ}

theorem run_bind_of_ok {a : α} (f : α → ExceptT ε (StateM σ) β) (h : x.run.run s = (.ok a, s')) :
    (x >>= f).run.run s = (f a).run.run s' := by
  rw [ExceptT.run_bind, StateT.run_bind, h]
  rfl

theorem run_bind_of_error {e : ε} (f : α → ExceptT ε (StateM σ) β)
    (h : x.run.run s = (.error e, s')) : (x >>= f).run.run s = (.error e, s') := by
  rw [ExceptT.run_bind, StateT.run_bind, h]
  rfl

theorem run_tryCatch_of_ok {a : α} (f : ε → ExceptT ε (StateM σ) α) (h : x.run.run s = (.ok a, s')) :
    (tryCatch x f).run.run s = (.ok a, s') := by
  show (ExceptT.tryCatch x f).run.run s = _
  unfold ExceptT.tryCatch
  rw [ExceptT.run_mk, StateT.run_bind, show StateT.run x s = _ from h]
  rfl

theorem run_tryCatch_of_error {e : ε} (f : ε → ExceptT ε (StateM σ) α)
    (h : x.run.run s = (.error e, s')) : (tryCatch x f).run.run s = (f e).run.run s' := by
  show (ExceptT.tryCatch x f).run.run s = _
  unfold ExceptT.tryCatch
  rw [ExceptT.run_mk, StateT.run_bind, show StateT.run x s = _ from h]
  rfl

theorem run_get_bind (f : σ → ExceptT ε (StateM σ) β) (s : σ) :
    (get >>= f).run.run s = (f s).run.run s := rfl

theorem run_set_bind (f : Unit → ExceptT ε (StateM σ) β) (s s' : σ) :
    ((set s' : ExceptT ε (StateM σ) Unit) >>= f).run.run s = (f ()).run.run s' := rfl

theorem run_modify_bind (u : σ → σ) (f : Unit → ExceptT ε (StateM σ) β) (s : σ) :
    ((modify u : ExceptT ε (StateM σ) Unit) >>= f).run.run s = (f ()).run.run (u s) := rfl

/-- An action on a state comes to an end if its parts do, one after the other. -/
theorem run_bind_eq_ok {f : α → ExceptT ε (StateM σ) β} {b : β} :
    (x >>= f).run.run s = (.ok b, s') ↔
      ∃ a s₁, x.run.run s = (.ok a, s₁) ∧ (f a).run.run s₁ = (.ok b, s') := by
  rw [ExceptT.run_bind, StateT.run_bind]
  constructor
  · intro h
    cases hx : x.run.run s with
    | mk r s₁ =>
      rw [hx] at h
      cases r with
      | error e => cases congrArg Prod.fst h
      | ok a => exact ⟨a, s₁, rfl, h⟩
  · rintro ⟨a, s₁, hx, hf⟩
    rw [hx]
    exact hf

end Actions

/-! ## What an action keeps -/

/-- The property holds after the action, whatever it comes to, if it held before. -/
def Keeps {σ : Type} (P : σ → Prop) (x : ExceptT ε (StateM σ) α) : Prop :=
  ∀ s, P s → P (x.run.run s).2

namespace Keeps

variable {σ : Type} {P : σ → Prop}

theorem of_run {x : ExceptT ε (StateM σ) α} {r : Except ε α} {s s' : σ} (h : Keeps P x)
    (hrun : x.run.run s = (r, s')) (hs : P s) : P s' := by
  have hafter := h s hs
  rw [hrun] at hafter
  exact hafter

theorem pure (a : α) : Keeps P (pure a : ExceptT ε (StateM σ) α) := fun _ h => h

theorem throw (e : ε) : Keeps P (throw e : ExceptT ε (StateM σ) α) := fun _ h => h

theorem modify {f : σ → σ} (h : ∀ s, P s → P (f s)) :
    Keeps P (modify f : ExceptT ε (StateM σ) Unit) := h

theorem set {s : σ} (h : P s) : Keeps P (set s : ExceptT ε (StateM σ) Unit) :=
  fun _ _ => h

/-- What holds after a first part holds after the whole, if what follows keeps it. -/
theorem after {x : ExceptT ε (StateM σ) α} {f : α → ExceptT ε (StateM σ) β} {s : σ}
    (h : P (x.run.run s).2) (hf : ∀ a, Keeps P (f a)) : P ((x >>= f).run.run s).2 := by
  cases hrun : x.run.run s with
  | mk r s' =>
    rw [hrun] at h
    cases r with
    | error e =>
      rw [run_bind_of_error f hrun]
      exact h
    | ok a =>
      rw [run_bind_of_ok f hrun]
      exact hf a s' h

theorem bind {x : ExceptT ε (StateM σ) α} {f : α → ExceptT ε (StateM σ) β} (h : Keeps P x)
    (hf : ∀ a, Keeps P (f a)) : Keeps P (x >>= f) :=
  fun s hs => after (h s hs) hf

/-- What is looked up is a state with the property. -/
theorem get {f : σ → ExceptT ε (StateM σ) β} (h : ∀ s, P s → Keeps P (f s)) :
    Keeps P (get >>= f) :=
  fun s hs => h s hs s hs

theorem iteAt {c : Prop} [Decidable c] {x y : ExceptT ε (StateM σ) α} {s : σ} (hx : P (x.run.run s).2)
    (hy : P (y.run.run s).2) : P ((if c then x else y).run.run s).2 := by
  split
  · exact hx
  · exact hy

theorem ite {c : Prop} [Decidable c] {x y : ExceptT ε (StateM σ) α} (hx : Keeps P x)
    (hy : Keeps P y) : Keeps P (if c then x else y) :=
  fun s hs => iteAt (hx s hs) (hy s hs)

theorem forM {f : α → ExceptT ε (StateM σ) PUnit} (h : ∀ a, Keeps P (f a)) :
    (items : List α) → Keeps P (items.forM f)
  | [] => .pure _
  | a :: rest => (h a).bind fun _ => forM h rest

theorem forIn {f : α → β → ExceptT ε (StateM σ) (ForInStep β)} (h : ∀ a b, Keeps P (f a b))
    (items : List α) (b : β) : Keeps P (forIn items b f) := by
  induction items generalizing b with
  | nil =>
    rw [List.forIn_nil]
    exact .pure b
  | cons a rest ih =>
    rw [List.forIn_cons]
    refine (h a b).bind fun step => ?_
    cases step with
    | done b' => exact .pure b'
    | yield b' => exact ih b'

theorem mapM {f : α → ExceptT ε (StateM σ) β} (h : ∀ a, Keeps P (f a)) (items : List α) :
    Keeps P (items.mapM f) := by
  induction items with
  | nil =>
    rw [List.mapM_nil]
    exact .pure []
  | cons a rest ih =>
    rw [List.mapM_cons]
    exact (h a).bind fun b => ih.bind fun bs => .pure (b :: bs)

theorem foldlM {f : β → α → ExceptT ε (StateM σ) β} (h : ∀ b a, Keeps P (f b a)) (items : List α)
    (b : β) : Keeps P (items.foldlM f b) := by
  induction items generalizing b with
  | nil => exact .pure b
  | cons a rest ih =>
    rw [List.foldlM_cons]
    exact (h b a).bind fun b' => ih b'

theorem tryCatch {x : ExceptT ε (StateM σ) α} {f : ε → ExceptT ε (StateM σ) α} {s : σ}
    (h : P (x.run.run s).2) (hf : ∀ e, Keeps P (f e)) : P ((tryCatch x f).run.run s).2 := by
  cases hrun : x.run.run s with
  | mk r t =>
    rw [hrun] at h
    cases r with
    | ok a =>
      rw [run_tryCatch_of_ok f hrun]
      exact h
    | error e =>
      rw [run_tryCatch_of_error f hrun]
      exact hf e t h

end Keeps

/-! ## What an action leads to -/

/-- `Q` holds after a value, and `E` after a failure. -/
def Ends {σ : Type} (Q : σ → Prop) (E : ε → σ → Prop) : Except ε α × σ → Prop
  | (.ok _, s) => Q s
  | (.error e, s) => E e s

/-- From states with `P` the action leads to states with `Q`, or to failures with `E`. -/
def Leads {σ : Type} (P Q : σ → Prop) (E : ε → σ → Prop) (x : ExceptT ε (StateM σ) α) : Prop :=
  ∀ s, P s → Ends Q E (x.run.run s)

theorem Ends.imp {σ : Type} {Q Q' : σ → Prop} {E E' : ε → σ → Prop} {u : Except ε α × σ}
    (h : Ends Q E u) (hQ : ∀ s, Q s → Q' s) (hE : ∀ e s, E e s → E' e s) : Ends Q' E' u := by
  obtain ⟨e | a, s⟩ := u
  · exact hE e s h
  · exact hQ s h

theorem Ends.state {σ : Type} {Q : σ → Prop} {u : Except ε α × σ} (h : Ends Q (fun _ => Q) u) :
    Q u.2 := by
  obtain ⟨e | a, s⟩ := u <;> exact h

namespace Leads

variable {σ : Type} {P Q R : σ → Prop} {E : ε → σ → Prop}

theorem pure (a : α) : Leads P P E (pure a : ExceptT ε (StateM σ) α) := fun _ h => h

theorem throw {e : ε} (h : ∀ s, P s → E e s) : Leads P Q E (throw e : ExceptT ε (StateM σ) α) := h

theorem modify {f : σ → σ} (h : ∀ s, P s → Q (f s)) :
    Leads P Q E (modify f : ExceptT ε (StateM σ) Unit) := h

theorem bind {x : ExceptT ε (StateM σ) α} {f : α → ExceptT ε (StateM σ) β} (h : Leads P Q E x)
    (hf : ∀ a, Leads Q R E (f a)) : Leads P R E (x >>= f) := by
  intro s hs
  have hx := h s hs
  cases hrun : x.run.run s with
  | mk r s' =>
    rw [hrun] at hx
    cases r with
    | error e =>
      rw [run_bind_of_error f hrun]
      exact hx
    | ok a =>
      rw [run_bind_of_ok f hrun]
      exact hf a s' hx

theorem get {f : σ → ExceptT ε (StateM σ) β} (h : ∀ s, P s → Leads P Q E (f s)) :
    Leads P Q E (get >>= f) :=
  fun s hs => h s hs s hs

theorem imp_error {x : ExceptT ε (StateM σ) α} {E' : ε → σ → Prop} (h : Leads P Q E x)
    (hE : ∀ e s, E e s → E' e s) : Leads P Q E' x :=
  fun s hs => (h s hs).imp (fun _ hQ => hQ) hE

theorem ite {c : Prop} [Decidable c] {x y : ExceptT ε (StateM σ) α} (hx : Leads P Q E x)
    (hy : Leads P Q E y) : Leads P Q E (if c then x else y) := by
  split
  · exact hx
  · exact hy

theorem forM {f : α → ExceptT ε (StateM σ) PUnit} (h : ∀ a, Leads P P E (f a)) :
    (items : List α) → Leads P P E (items.forM f)
  | [] => .pure _
  | a :: rest => (h a).bind fun _ => forM h rest

end Leads

/-! ## What an action returns -/

/-- Whatever the action returns has the property. -/
def Yields {σ : Type} (Q : α → Prop) (x : ExceptT ε (StateM σ) α) : Prop :=
  ∀ s a s', x.run.run s = (.ok a, s') → Q a

namespace Yields

variable {σ : Type} {Q Q' : α → Prop} {R : β → Prop} {x : ExceptT ε (StateM σ) α}
  {f : α → ExceptT ε (StateM σ) β}

theorem imp (h : Yields Q x) (hQ : ∀ a, Q a → Q' a) : Yields Q' x :=
  fun s a s' ha => hQ a (h s a s' ha)

theorem pure {a : α} (h : Q a) : Yields Q (pure a : ExceptT ε (StateM σ) α) := by
  rintro s b s' ⟨⟩
  exact h

theorem throw (e : ε) : Yields Q (throw e : ExceptT ε (StateM σ) α) := by
  intro s a s' h
  cases congrArg Prod.fst h

theorem bind (hx : Yields Q x) (hf : ∀ a, Q a → Yields R (f a)) : Yields R (x >>= f) := by
  intro s b s' h
  obtain ⟨a, s₁, ha, hb⟩ := run_bind_eq_ok.1 h
  exact hf a (hx s a s₁ ha) s₁ b s' hb

/-- Nothing needs to be known of the first part if the second one yields the property anyway. -/
theorem bind_any (hf : ∀ a, Yields R (f a)) : Yields R (x >>= f) := by
  have hx : Yields (fun _ => True) x := fun _ _ _ _ => trivial
  exact hx.bind fun a _ => hf a

end Yields

/-! ## Two outcomes -/

/-- Two outcomes with the same value in states related by `S`, or two failures in states related by
`E`. -/
inductive Matched {ε ε' σ τ α : Type} (E : ε → ε' → σ → τ → Prop) (S : σ → τ → Prop) :
    Except ε α × σ → Except ε' α × τ → Prop where
  | ok (a : α) {s : σ} {t : τ} : S s t → Matched E S (.ok a, s) (.ok a, t)
  | error (e : ε) (e' : ε') {s : σ} {t : τ} : E e e' s t → Matched E S (.error e, s) (.error e', t)

theorem Matched.rel {ε ε' σ τ α : Type} {S : σ → τ → Prop} {u : Except ε α × σ}
    {v : Except ε' α × τ} (h : Matched (fun _ _ => S) S u v) : S u.2 v.2 := by
  cases h with
  | ok a h => exact h
  | error e e' h => exact h

end Birokrasi
