import Birokrasi.Proofs.CutFiles

/-!
# Saves that fail

A save that fails leaves what it has written by then. It always fails where a number should be written,
and the loader wants a number there: writing and reading a draft `Mirrors` each other part by part, and
when the writer stops, the reader is at the end of the file and fails. So nothing that a failed save
leaves can be loaded, and a save fails for the drafts that do not fit and for no others
(`failed_save_not_loadable`).
-/

namespace Birokrasi.Text

theorem surrogates?_eq_none_iff (t : LooseText) (position : Nat) :
    surrogates? position t = none ↔ ¬ ∃ n, .surrogate n ∈ t := by
  induction t generalizing position with
  | nil => simp [surrogates?]
  | cons c rest ih =>
    cases c with
    | char c => simpa [surrogates?] using ih (position + 1)
    | surrogate n => simp [surrogates?]

end Birokrasi.Text

namespace Birokrasi.Bytecode

open Birokrasi.Text

/-! ## Writers and their readers -/

theorem Reads.rejects_bind {α β : Type} {r : Reader α} {f : α → Reader β} {bs p : Bytes} {a : α}
    (h : Reads r bs a) (h' : Rejects (f a) p) : Rejects (r >>= f) (bs ++ p) := by
  obtain ⟨e, he⟩ := h'
  exact ⟨e, by rw [StateT.run_bind, h p]; exact he⟩

/-- A writer and a reader of what it writes. When the writer succeeds, the reader takes what has been
written and makes something of the kind `P` of it, and when it fails, the reader rejects what has been
written by then. -/
def Mirrors {α : Type} (w : Writer Unit) (r : Reader α) (P : α → Prop) : Prop :=
  ∀ parts, ∃ bs, (w.run.run parts).2.reverse.flatten = parts.reverse.flatten ++ bs ∧
    match (w.run.run parts).1 with
    | .ok _ => ∃ a, P a ∧ Reads r bs a
    | .error _ => Rejects r bs

namespace Mirrors

variable {α β : Type} {w w' : Writer Unit} {r : Reader α} {f : α → Reader β} {P : α → Prop}
  {Q : β → Prop}

theorem seq (h : Mirrors w r P) (h' : ∀ a, P a → Mirrors w' (f a) Q) :
    Mirrors (do w; w') (r >>= f) Q := by
  intro parts
  obtain ⟨bs, hbs, hr⟩ := h parts
  rw [ExceptT.run_bind, StateT.run_bind]
  cases hw : w.run.run parts with
  | mk result mid =>
    rw [hw] at hbs hr
    cases result with
    | error e =>
      -- The first writer has stopped, and its reader with it.
      exact ⟨bs, hbs, hr.bind f⟩
    | ok u =>
      obtain ⟨a, ha, hreads⟩ := hr
      obtain ⟨bs', hbs', hr'⟩ := h' a ha mid
      refine ⟨bs ++ bs', ?_, ?_⟩
      · rw [← List.append_assoc, ← hbs]
        exact hbs'
      · show match (w'.run.run mid).1 with
          | .ok _ => ∃ b, Q b ∧ Reads (r >>= f) (bs ++ bs') b
          | .error _ => Rejects (r >>= f) (bs ++ bs')
        cases hw' : (w'.run.run mid).1 with
        | error e =>
          rw [hw'] at hr'
          exact hreads.rejects_bind hr'
        | ok u =>
          rw [hw'] at hr'
          obtain ⟨b, hb, hreads'⟩ := hr'
          exact ⟨b, hb, hreads.bind hreads'⟩

/-- Writing nothing goes with reading nothing. -/
theorem done {a : α} (ha : P a) : Mirrors (Pure.pure ()) (Pure.pure a) P := by
  intro parts
  exact ⟨[], (List.append_nil _).symm, a, ha, .pure a⟩

/-- What has been read may be made into something else. -/
theorem map (h : Mirrors w r P) (h' : ∀ a, P a → ∃ b, Q b ∧ f a = Pure.pure b) :
    Mirrors w (r >>= f) Q := by
  rw [← bind_pure_unit (x := w)]
  refine h.seq fun a ha => ?_
  obtain ⟨b, hb, hf⟩ := h' a ha
  rw [hf]
  exact done hb

theorem bytes (bs : Bytes) : Mirrors (Writer.bytes bs) (Reader.bytes bs.length) (· = bs) := by
  intro parts
  obtain ⟨parts', hrun, hbs⟩ := Writes.bytes bs parts
  rw [hrun]
  exact ⟨bs, hbs, bs, rfl, .bytes bs⟩

/-- A number that is not written is not there to be read. -/
theorem number {c : Prop} [Decidable c] (size : Nat) {n : Nat} (hsize : 0 < size)
    (h : c → n < 256 ^ size) (e : WriteError) :
    Mirrors (if c then Writer.bytes (littleEndian size n) else throw e) (Reader.number size)
      (· = n) := by
  intro parts
  by_cases hc : c
  · rw [if_pos hc]
    obtain ⟨parts', hrun, hbs⟩ := Writes.bytes (littleEndian size n) parts
    rw [hrun]
    exact ⟨_, hbs, n, rfl, .number size (h hc)⟩
  · rw [if_neg hc]
    exact ⟨[], (List.append_nil _).symm, rejects_number hsize⟩

theorem short (n : Nat) : Mirrors (Writer.short n) (Reader.number 2) (· = n) :=
  number 2 (by decide) (fun h => h) .shortRange

theorem integer (n : Int) :
    Mirrors (do Writer.bytes (Writer.tag 'I'); Writer.long n) Reader.constant fun _ => True := by
  have hn : (n % 0x10000000000000000).toNat < 256 ^ 8 := by omega
  refine (bytes (Writer.tag 'I')).seq ?_
  rintro _ rfl
  rw [if_pos rfl]
  exact (number 8 (by decide) (fun _ => hn) .longRange).map fun n _ => ⟨_, trivial, rfl⟩

theorem text (t : LooseText) : Mirrors (Writer.text t) Reader.text fun _ => True := by
  rw [Writer.text, encodeLoose]
  cases ht : surrogates? 0 t with
  | some e =>
    intro parts
    exact ⟨[], (List.append_nil _).symm, rejects_text_nil⟩
  | none =>
    obtain ⟨s, rfl⟩ := exists_eq_ofString ht
    rw [flatMap_bytes_ofString]
    refine (short _).seq ?_
    rintro _ rfl
    refine (bytes _).map ?_
    rintro _ rfl
    exact ⟨s, trivial, by rw [decodeUtf8_encodeUtf8]⟩

theorem constant (k : DraftConstant) :
    Mirrors (Writer.constant k) Reader.constant fun _ => True := by
  cases k with
  | none => exact (bytes (Writer.tag 'N')).map (by rintro _ rfl; exact ⟨.none, trivial, rfl⟩)
  | bool b => exact integer _
  | int n => exact integer n
  | float bits =>
    refine (bytes (Writer.tag 'F')).seq ?_
    rintro _ rfl
    rw [if_neg (by decide), if_pos rfl]
    have hbits := number (c := True) 8 (by decide) (fun _ => bits.toNat_lt) .longRange
    rw [if_pos trivial] at hbits
    exact hbits.map fun n _ => ⟨_, trivial, rfl⟩
  | text t =>
    refine (bytes (Writer.tag 'S')).seq ?_
    rintro _ rfl
    rw [if_neg (by decide), if_neg (by decide), if_pos rfl]
    exact (text t).map fun s _ => ⟨_, trivial, rfl⟩

theorem forM {γ : Type} {f : γ → Writer Unit} {one : Reader α}
    (h : ∀ c, Mirrors (f c) one fun _ => True) (items : List γ) (done : List α) :
    Mirrors (items.forM f) (Reader.many one items.length done) fun _ => True := by
  induction items generalizing done with
  | nil => exact Mirrors.done trivial
  | cons c rest ih => exact (h c).seq fun a _ => ih (a :: done)

/-- A draft that cannot be written leaves bytes that cannot be read. -/
theorem draft (d : Draft) : Mirrors (Writer.draft d) Reader.content fun _ => True := by
  refine (bytes magic).seq ?_
  rintro _ rfl
  rw [if_neg (by simp)]
  refine (short fileVersion).seq fun version _ => ?_
  refine (number 4 (by decide) (fun h => h) .wordRange).seq ?_
  rintro _ rfl
  refine (bytes d.code).seq fun code _ => ?_
  refine (short d.constants.length).seq ?_
  rintro _ rfl
  refine (forM constant d.constants []).seq fun constants _ => ?_
  refine (short d.strings.length).seq ?_
  rintro _ rfl
  exact (forM text d.strings []).map fun strings _ => ⟨_, trivial, rfl⟩

end Mirrors

theorem rejects_write {d : Draft} {e : WriteError} (h : d.write.1 = .error e) :
    Rejects Reader.content d.write.2 := by
  obtain ⟨bs, hbs, hr⟩ := Mirrors.draft d []
  have hresult : ((Writer.draft d).run.run []).1 = .error e := h
  rw [hresult] at hr
  have hfile : d.write.2 = bs := hbs
  rwa [hfile]

theorem Draft.save_eq_error {d : Draft} {e : WriteError} : d.save = .error e ↔ d.write.1 = .error e := by
  unfold Draft.save
  cases hw : d.write with
  | mk result bytes =>
    cases result with
    | ok u => simp
    | error e' => simp

/-! ## Drafts that cannot be written -/

theorem not_writable_iff (t : LooseText) :
    ¬ Writable t ↔ (∃ n, .surrogate n ∈ t) ∨ 65535 < (t.flatMap CodePoint.bytes).length := by
  rw [Writable, surrogates?_eq_none_iff, not_and_or, not_not, not_le]

/-- A constant that cannot be written is an integer or a text. -/
theorem DraftConstant.not_fits_iff (k : DraftConstant) :
    ¬ k.Fits ↔
      (∃ n, k = .int n ∧ (n < -2 ^ 63 ∨ 2 ^ 63 ≤ n)) ∨ ∃ t, k = .text t ∧ ¬ Writable t := by
  cases k with
  | none | bool | float => simp [DraftConstant.Fits]
  | int n =>
    simp only [DraftConstant.Fits, DraftConstant.int.injEq, exists_eq_left', reduceCtorEq, false_and,
      exists_false, or_false]
    omega
  | text t => simp [DraftConstant.Fits]

theorem Draft.not_fits_iff (d : Draft) :
    ¬ d.Fits ↔ 2 ^ 32 ≤ d.code.length ∨ 65535 < d.constants.length ∨ 65535 < d.strings.length ∨
      (∃ n, .int n ∈ d.constants ∧ (n < -2 ^ 63 ∨ 2 ^ 63 ≤ n)) ∨
      ∃ t, (.text t ∈ d.constants ∨ t ∈ d.strings) ∧ ¬ Writable t := by
  constructor
  · intro h
    by_contra hno
    simp only [not_or, not_exists, not_and, not_not, not_le, not_lt] at hno
    obtain ⟨hcode, hconstants, hstrings, hints, htexts⟩ := hno
    refine h ⟨hcode, hconstants, fun k hk => ?_, hstrings, fun t ht => htexts t (.inr ht)⟩
    by_contra hfits
    rcases k.not_fits_iff.1 hfits with ⟨n, rfl, hn⟩ | ⟨t, rfl, ht⟩
    · have := hints n hk
      omega
    · exact ht (htexts t (.inl hk))
  · rintro (hcode | hconstants | hstrings | ⟨n, hn, hrange⟩ | ⟨t, ht, hbad⟩) hfits
    · exact absurd hfits.code (not_lt.2 hcode)
    · exact absurd hfits.constants (not_le.2 hconstants)
    · exact absurd hfits.strings (not_le.2 hstrings)
    · exact (DraftConstant.int n).not_fits_iff.2 (.inl ⟨n, rfl, hrange⟩) (hfits.each _ hn)
    · exact hbad (ht.elim (hfits.each (.text t)) (hfits.short t))

theorem Draft.exists_save_error_iff (d : Draft) : (∃ e, d.save = .error e) ↔ ¬ d.Fits := by
  rw [← d.exists_save_iff]
  cases d.save with
  | error e => simp
  | ok file => simp

/-- A save fails if the code has `2 ^ 32` bytes or more, if there are more than 65535 constants or texts,
if an integer has more than sixty-four bits, or if a text has a surrogate or more than 65535 bytes, and in
no other case. What it has written by then does not load. -/
theorem failed_save_not_loadable (d : Draft) :
    ((∃ e, d.save = .error e) ↔
      2 ^ 32 ≤ d.code.length ∨ 65535 < d.constants.length ∨ 65535 < d.strings.length ∨
      (∃ n, .int n ∈ d.constants ∧ (n < -2 ^ 63 ∨ 2 ^ 63 ≤ n)) ∨
      ∃ t, (.text t ∈ d.constants ∨ t ∈ d.strings) ∧
        ((∃ n, .surrogate n ∈ t) ∨ 65535 < (t.flatMap CodePoint.bytes).length)) ∧
    ∀ e, d.save = .error e →
      (∃ e', Content.load d.write.2 = .error e') ∧ ∃ e', Image.load d.write.2 = .error e' := by
  refine ⟨?_, fun e he => ?_⟩
  · rw [d.exists_save_error_iff, d.not_fits_iff]
    simp only [not_writable_iff]
  · obtain ⟨e', he'⟩ := rejects_write (Draft.save_eq_error.1 he)
    have hload : Content.load d.write.2 = .error e' := by
      rw [Content.load, StateT.run'_eq, he']
      rfl
    exact ⟨⟨e', hload⟩, e', by rw [Image.load, hload]; rfl⟩

/-- A draft with a surrogate between two texts that can be written. -/
def brokenDraft : Draft where
  code := [0x0B]
  constants := [.int 7, .bool true]
  strings := [.ofString "dana", [.char 'a', .surrogate 0], .ofString "rapat"]

/-- What is left of the broken draft ends after its first text, and does not load. -/
theorem failed_save_not_loadable_broken :
    brokenDraft.save = .error (.notEncodable ⟨0, 1, 1⟩) ∧
    brokenDraft.write.2 =
      Content.front ⟨[0x0B], [.int 7, .int 1], ["dana", "", "rapat"], 0⟩ ++ textBytes "dana" ∧
    (∃ e', Content.load brokenDraft.write.2 = .error e') ∧
      ∃ e', Image.load brokenDraft.write.2 = .error e' := by
  have hsave : brokenDraft.save = .error (.notEncodable ⟨0, 1, 1⟩) := rfl
  exact ⟨hsave, by decide, (failed_save_not_loadable brokenDraft).2 _ hsave⟩

end Birokrasi.Bytecode
