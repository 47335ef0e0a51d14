import Birokrasi.Bytecode.File
import Birokrasi.Proofs.Outcome
import Birokrasi.Proofs.Utf8
import Mathlib

/-!
# Files hold what was written to them

`Content.bytes` is what the file of a content looks like. A writer that succeeds writes these bytes
(`Writes`), and the reader takes them off the front of a file and leaves the rest alone (`Reads`).
Writing succeeds for what fits into a file and for nothing else (`save_of_fits`, `fits_of_save`). A
content that has been read fits into a file again (`fits_of_load`), whatever else the file held.
-/

namespace Birokrasi.Bytecode

open Birokrasi.Text

/-! ## Bytes -/

/-- The bytes of a text, after their number. -/
def textBytes (s : String) : Bytes := littleEndian 2 (encodeUtf8 s).length ++ encodeUtf8 s

/-- The bytes of a constant, after the letter of its kind. -/
def Constant.bytes : Constant → Bytes
  | .none => Writer.tag 'N'
  | .int n => Writer.tag 'I' ++ littleEndian 8 (n % 2 ^ 64).toNat
  | .float bits => Writer.tag 'F' ++ littleEndian 8 bits.toNat
  | .text s => Writer.tag 'S' ++ textBytes s

/-- The bytes of a content. -/
def Content.bytes (c : Content) : Bytes :=
  magic ++ littleEndian 2 fileVersion ++ littleEndian 4 c.code.length ++ c.code ++
    littleEndian 2 c.constants.length ++ c.constants.flatMap Constant.bytes ++
    littleEndian 2 c.strings.length ++ c.strings.flatMap textBytes

/-- A text whose number of bytes has sixteen bits. -/
def ShortText (s : String) : Prop := (encodeUtf8 s).length ≤ 65535

/-- A constant that a file can hold. -/
def Constant.Fits : Constant → Prop
  | .int n => -2 ^ 63 ≤ n ∧ n < 2 ^ 63
  | .text s => ShortText s
  | .none | .float _ => True

instance (s : String) : Decidable (ShortText s) := inferInstanceAs (Decidable (_ ≤ _))

instance : (k : Constant) → Decidable k.Fits
  | .int _ => inferInstanceAs (Decidable (_ ∧ _))
  | .text s => inferInstanceAs (Decidable (ShortText s))
  | .none | .float _ => .isTrue trivial

/-- A content that a file can hold. -/
structure Content.Fits (c : Content) : Prop where
  code : c.code.length < 2 ^ 32
  constants : c.constants.length ≤ 65535
  each : ∀ k ∈ c.constants, k.Fits
  strings : c.strings.length ≤ 65535
  short : ∀ s ∈ c.strings, ShortText s

/-! ## Writing -/

/-- A writer that succeeds and writes the given bytes. -/
def Writes (w : Writer Unit) (bs : Bytes) : Prop :=
  ∀ parts, ∃ parts', w.run.run parts = (.ok (), parts') ∧
    parts'.reverse.flatten = parts.reverse.flatten ++ bs

theorem Writes.bytes (bs : Bytes) : Writes (Writer.bytes bs) bs := by
  intro parts
  exact ⟨bs :: parts, rfl, by simp⟩

theorem Writes.seq {w w' : Writer Unit} {bs bs' : Bytes} (h : Writes w bs) (h' : Writes w' bs') :
    Writes (do w; w') (bs ++ bs') := by
  intro parts
  obtain ⟨mid, hm, hbs⟩ := h parts
  obtain ⟨last, hl, hbs'⟩ := h' mid
  refine ⟨last, ?_, by rw [hbs', hbs, List.append_assoc]⟩
  rw [ExceptT.run_bind, StateT.run_bind, hm]
  exact hl

theorem Writes.short {n : Nat} (h : n ≤ 65535) : Writes (Writer.short n) (littleEndian 2 n) := by
  rw [Writer.short, if_pos (by omega)]
  exact .bytes _

theorem Writes.word {n : Nat} (h : n < 2 ^ 32) : Writes (Writer.word n) (littleEndian 4 n) := by
  rw [Writer.word, if_pos (by omega)]
  exact .bytes _

theorem Writes.long {n : Int} (h : -2 ^ 63 ≤ n ∧ n < 2 ^ 63) :
    Writes (Writer.long n) (littleEndian 8 (n % 2 ^ 64).toNat) := by
  rw [Writer.long, if_pos (by omega)]
  exact .bytes _

theorem writer_text_ofString (s : String) :
    Writer.text (.ofString s) =
      (do Writer.short (encodeUtf8 s).length; Writer.bytes (encodeUtf8 s)) := by
  rw [Writer.text, encodeLoose_ofString]

theorem Writes.text {s : String} (h : ShortText s) :
    Writes (Writer.text (.ofString s)) (textBytes s) := by
  rw [writer_text_ofString]
  exact .seq (.short h) (.bytes _)

theorem Writes.constant {k : Constant} (h : k.Fits) :
    Writes (Writer.constant (.ofConstant k)) k.bytes := by
  cases k with
  | none => exact .bytes _
  | int n => exact .seq (.bytes _) (.long h)
  | float bits => exact .seq (.bytes _) (.bytes _)
  | text s => exact .seq (.bytes _) (.text h)

theorem Writes.forM {α β : Type} {f : β → Writer Unit} {draft : α → β} {g : α → Bytes}
    {items : List α} (h : ∀ a ∈ items, Writes (f (draft a)) (g a)) :
    Writes ((items.map draft).forM f) (items.flatMap g) := by
  induction items with
  | nil => exact fun parts => ⟨parts, rfl, by simp⟩
  | cons a rest ih =>
    exact .seq (h a (by simp)) (ih fun b hb => h b (by simp [hb]))

/-- A content that fits is written as its bytes. -/
theorem Writes.content {c : Content} (h : c.Fits) : Writes (Writer.draft c.draft) c.bytes := by
  have hconstants : (c.constants.map DraftConstant.ofConstant).length ≤ 65535 := by
    rw [List.length_map]
    exact h.constants
  have hstrings : (c.strings.map LooseText.ofString).length ≤ 65535 := by
    rw [List.length_map]
    exact h.strings
  simp only [Content.bytes, List.append_assoc]
  refine .seq (.bytes _) (.seq (.short (by decide)) (.seq (.word h.code) (.seq (.bytes _) ?_)))
  rw [← List.length_map DraftConstant.ofConstant, ← List.length_map LooseText.ofString]
  refine .seq (.short hconstants) (.seq (.forM fun k hk => .constant (h.each k hk)) ?_)
  exact .seq (.short hstrings) (.forM fun s hs => .text (h.short s hs))

theorem save_of_fits {c : Content} (h : c.Fits) : c.save = .ok c.bytes := by
  obtain ⟨parts, hw, hbs⟩ := Writes.content h []
  simp only [Content.save, Draft.save, Draft.write, hw, hbs]
  rfl

/-! ## What can be written -/

/-- A text that can be written: it has bytes, and their number has sixteen bits. -/
def Writable (t : LooseText) : Prop :=
  surrogates? 0 t = none ∧ (t.flatMap CodePoint.bytes).length ≤ 65535

/-- A constant that can be written. -/
def DraftConstant.Fits : DraftConstant → Prop
  | .int n => -2 ^ 63 ≤ n ∧ n < 2 ^ 63
  | .text t => Writable t
  | .none | .bool _ | .float _ => True

/-- A draft that can be written. -/
structure Draft.Fits (d : Draft) : Prop where
  code : d.code.length < 2 ^ 32
  constants : d.constants.length ≤ 65535
  each : ∀ k ∈ d.constants, k.Fits
  strings : d.strings.length ≤ 65535
  short : ∀ t ∈ d.strings, Writable t

theorem writable_ofString (s : String) : Writable (.ofString s) ↔ ShortText s := by
  rw [Writable, surrogates?_ofString, flatMap_bytes_ofString, ShortText]
  exact and_iff_right rfl

theorem fits_ofConstant (k : Constant) : (DraftConstant.ofConstant k).Fits ↔ k.Fits := by
  cases k with
  | none | float => exact Iff.rfl
  | int n => exact Iff.rfl
  | text s => exact writable_ofString s

theorem Content.fits_of_draft {c : Content} (h : c.draft.Fits) : c.Fits where
  code := h.code
  constants := by simpa [Content.draft] using h.constants
  each k hk := (fits_ofConstant k).1 (h.each _ (List.mem_map_of_mem hk))
  strings := by simpa [Content.draft] using h.strings
  short s hs := (writable_ofString s).1 (h.short _ (List.mem_map_of_mem hs))

/-- A writer that succeeds exactly if this is the case. -/
def Demands (w : Writer Unit) (Q : Prop) : Prop :=
  ∀ parts, (∃ parts', w.run.run parts = (.ok (), parts')) ↔ Q

namespace Demands

theorem bytes (bs : Bytes) : Demands (Writer.bytes bs) True :=
  fun parts => ⟨fun _ => trivial, fun _ => ⟨bs :: parts, rfl⟩⟩

theorem seq {w w' : Writer Unit} {Q Q' : Prop} (h : Demands w Q) (h' : Demands w' Q') :
    Demands (do w; w') (Q ∧ Q') := by
  intro parts
  constructor
  · rintro ⟨parts', hrun⟩
    obtain ⟨_, mid, hw, hw'⟩ := run_bind_eq_ok.1 hrun
    exact ⟨(h parts).1 ⟨mid, hw⟩, (h' mid).1 ⟨parts', hw'⟩⟩
  · rintro ⟨hq, hq'⟩
    obtain ⟨mid, hw⟩ := (h parts).2 hq
    obtain ⟨last, hw'⟩ := (h' mid).2 hq'
    exact ⟨last, run_bind_eq_ok.2 ⟨(), mid, hw, hw'⟩⟩

theorem congr {w : Writer Unit} {Q Q' : Prop} (h : Demands w Q) (hq : Q ↔ Q') : Demands w Q' :=
  fun parts => (h parts).trans hq

theorem throw (e : WriteError) : Demands (throw e) False := by
  intro parts
  refine ⟨?_, False.elim⟩
  rintro ⟨parts', hrun⟩
  cases congrArg Prod.fst hrun

theorem ite {c : Prop} [Decidable c] (bs : Bytes) (e : WriteError) :
    Demands (if c then Writer.bytes bs else MonadExcept.throw e) c := by
  by_cases hc : c
  · rw [if_pos hc]
    exact (bytes bs).congr (iff_of_true trivial hc)
  · rw [if_neg hc]
    exact (throw e).congr (iff_of_false id hc)

theorem text (t : LooseText) : Demands (Writer.text t) (Writable t) := by
  rw [Writer.text, encodeLoose, Writable]
  cases surrogates? 0 t with
  | some e => exact (throw _).congr (by simp)
  | none => exact ((ite _ .shortRange).seq (bytes _)).congr (by simp [Nat.lt_succ_iff])

theorem constant (k : DraftConstant) : Demands (Writer.constant k) k.Fits := by
  cases k with
  | none => exact bytes _
  | bool b => exact ((bytes _).seq (ite _ .longRange)).congr (by cases b <;> simp [DraftConstant.Fits])
  | int n => exact ((bytes _).seq (ite _ .longRange)).congr (iff_of_eq (true_and _))
  | float bits => exact ((bytes _).seq (bytes _)).congr (iff_of_eq (true_and _))
  | text t => exact ((bytes _).seq (text t)).congr (iff_of_eq (true_and _))

theorem forM {α : Type} {f : α → Writer Unit} {Q : α → Prop} (h : ∀ a, Demands (f a) (Q a)) :
    (items : List α) → Demands (items.forM f) (∀ a ∈ items, Q a)
  | [] => fun parts => ⟨fun _ => nofun, fun _ => ⟨parts, rfl⟩⟩
  | a :: rest => ((h a).seq (forM h rest)).congr List.forall_mem_cons.symm

/-- A draft can be written exactly if it fits. -/
theorem draft (d : Draft) : Demands (Writer.draft d) d.Fits := by
  refine congr (seq (bytes _) (seq (ite _ .shortRange) (seq (ite _ .wordRange) (seq (bytes _)
    (seq (ite _ .shortRange) (seq (forM constant _) (seq (ite _ .shortRange) (forM text _)))))))) ?_
  constructor
  · rintro ⟨-, -, hcode, -, hconstants, heach, hstrings, hshort⟩
    exact ⟨hcode, Nat.le_of_lt_succ hconstants, heach, Nat.le_of_lt_succ hstrings, hshort⟩
  · intro h
    exact ⟨trivial, by decide, h.code, trivial, Nat.lt_succ_of_le h.constants, h.each,
      Nat.lt_succ_of_le h.strings, h.short⟩

end Demands

theorem Draft.exists_save_iff (d : Draft) : (∃ file, d.save = .ok file) ↔ d.Fits := by
  rw [← Demands.draft d []]
  unfold Draft.save Draft.write
  cases (Writer.draft d).run.run [] with
  | mk r parts =>
    cases r with
    | error e =>
      refine iff_of_false ?_ ?_
      · rintro ⟨file, h⟩
        cases h
      · rintro ⟨parts', hrun⟩
        cases congrArg Prod.fst hrun
    | ok u => exact iff_of_true ⟨_, rfl⟩ ⟨_, rfl⟩

theorem fits_of_save {c : Content} {file : Bytes} (h : c.save = .ok file) : c.Fits :=
  Content.fits_of_draft (c.draft.exists_save_iff.1 ⟨file, h⟩)

/-! ## Reading -/

/-- A reader that takes the given bytes off the front and makes `a` of them. -/
def Reads {α : Type} (r : Reader α) (bs : Bytes) (a : α) : Prop :=
  ∀ rest, r.run (bs ++ rest) = .ok (a, rest)

theorem Reads.pure {α : Type} (a : α) : Reads (Pure.pure a) [] a := fun _ => rfl

theorem Reads.bind {α β : Type} {r : Reader α} {f : α → Reader β} {bs bs' : Bytes} {a : α} {b : β}
    (h : Reads r bs a) (h' : Reads (f a) bs' b) : Reads (r >>= f) (bs ++ bs') b := by
  intro rest
  rw [List.append_assoc, StateT.run_bind, h, ok_bind]
  exact h' rest

theorem Reads.bytes (bs : Bytes) : Reads (Reader.bytes bs.length) bs bs := by
  intro rest
  simp [Reader.bytes]
  rfl

theorem Reads.number (size : Nat) {n : Nat} (h : n < 256 ^ size) :
    Reads (Reader.number size) (littleEndian size n) n := by
  intro rest
  have hr := Reads.bytes (littleEndian size n) rest
  rw [length_littleEndian] at hr
  rw [Reader.number, StateT.run_bind, hr, ok_bind, if_pos (length_littleEndian size n),
    ofLittleEndian_littleEndian size n h]
  rfl

theorem Reads.text {s : String} (h : ShortText s) : Reads Reader.text (textBytes s) s := by
  refine .bind (.number 2 (by rw [ShortText] at h; omega)) ?_
  intro rest
  rw [StateT.run_bind, Reads.bytes, ok_bind, decodeUtf8_encodeUtf8]
  rfl

theorem signed_emod {n : Int} (h : -2 ^ 63 ≤ n ∧ n < 2 ^ 63) :
    Reader.signed (n % 2 ^ 64).toNat = n := by
  rw [Reader.signed]
  split <;> omega

theorem Reads.map {α β : Type} {r : Reader α} {bs : Bytes} {a : α} (f : α → β) (h : Reads r bs a) :
    Reads (do return f (← r)) bs (f a) := by
  rw [← List.append_nil bs]
  exact h.bind (.pure (f a))

theorem Reads.constant {k : Constant} (h : k.Fits) : Reads Reader.constant k.bytes k := by
  cases k with
  | none => exact Reads.bind (.bytes (Writer.tag 'N')) (.pure _)
  | int n =>
    refine .bind (.bytes (Writer.tag 'I')) ?_
    rw [if_pos rfl]
    have hn : (n % 2 ^ 64).toNat < 256 ^ 8 := by omega
    have := Reads.map (fun n => Constant.int (Reader.signed n)) (.number 8 hn)
    rwa [signed_emod h] at this
  | float bits =>
    refine .bind (.bytes (Writer.tag 'F')) ?_
    rw [if_neg (by decide), if_pos rfl]
    have := Reads.map (fun n => Constant.float n.toUInt64) (.number 8 bits.toNat_lt)
    rwa [Nat.toUInt64_eq, UInt64.ofNat_toNat] at this
  | text s =>
    refine .bind (.bytes (Writer.tag 'S')) ?_
    rw [if_neg (by decide), if_neg (by decide), if_pos rfl]
    exact .map Constant.text (.text h)

theorem Reads.many {α : Type} {one : Reader α} {g : α → Bytes} {items : List α}
    (h : ∀ a ∈ items, Reads one (g a) a) (done : List α) :
    Reads (Reader.many one items.length done) (items.flatMap g) (done.reverse ++ items) := by
  induction items generalizing done with
  | nil =>
    rw [List.append_nil]
    exact .pure _
  | cons a rest ih =>
    rw [List.flatMap_cons, List.length_cons, Reader.many,
      show done.reverse ++ a :: rest = (a :: done).reverse ++ rest by simp]
    exact .bind (h a (by simp)) (ih (fun b hb => h b (by simp [hb])) _)

/-- The bytes of a content that fits are read as the content. -/
theorem Reads.content {c : Content} (h : c.Fits) :
    Reads Reader.content c.bytes { c with version := fileVersion } := by
  simp only [Content.bytes, List.append_assoc]
  have hcode : c.code.length < 256 ^ 4 := by have := h.code; omega
  have hconstants : c.constants.length < 256 ^ 2 := by have := h.constants; omega
  have hstrings : c.strings.length < 256 ^ 2 := by have := h.strings; omega
  refine .bind (.bytes magic) ?_
  rw [if_neg (by simp)]
  refine .bind (.number 2 (show fileVersion < 256 ^ 2 by decide)) ?_
  refine .bind (.number 4 hcode) (.bind (.bytes c.code) ?_)
  refine .bind (.number 2 hconstants) ?_
  refine .bind (Reads.many (fun k hk => .constant (h.each k hk)) []) ?_
  refine .bind (.number 2 hstrings) ?_
  rw [← List.append_nil (c.strings.flatMap textBytes)]
  exact .bind (Reads.many (fun s hs => .text (h.short s hs)) []) (.pure _)

theorem load_eq_ok_iff {file : Bytes} {c : Content} :
    Content.load file = .ok c ↔ ∃ rest, Reader.content.run file = .ok (c, rest) := by
  rw [Content.load, StateT.run'_eq]
  cases Reader.content.run file with
  | error e => simp [Functor.map, Except.map]
  | ok out =>
    constructor
    · intro h
      obtain rfl := Except.ok.inj h
      exact ⟨out.2, rfl⟩
    · rintro ⟨rest, h⟩
      obtain rfl := Except.ok.inj h
      rfl

theorem load_bytes {c : Content} (h : c.Fits) :
    Content.load c.bytes = .ok { c with version := fileVersion } := by
  have hr := Reads.content h []
  rw [List.append_nil] at hr
  exact load_eq_ok_iff.2 ⟨[], hr⟩

/-! ## What has been read fits -/

/-- Whatever a reader returns has a property. -/
def Returns {α : Type} (r : Reader α) (P : α → Prop) : Prop :=
  ∀ bs a rest, r.run bs = .ok (a, rest) → P a

theorem Returns.bind {α β : Type} {r : Reader α} {f : α → Reader β} {P : α → Prop} {Q : β → Prop}
    (h : Returns r P) (h' : ∀ a, P a → Returns (f a) Q) : Returns (r >>= f) Q := by
  intro bs b rest hr
  rw [StateT.run_bind] at hr
  obtain ⟨⟨a, mid⟩, ha, hb⟩ := bind_eq_ok.1 hr
  exact h' a (h bs a mid ha) mid b rest hb

theorem Returns.pure {α : Type} {a : α} {P : α → Prop} (h : P a) : Returns (Pure.pure a) P := by
  intro bs b rest hr
  obtain ⟨rfl, -⟩ := Prod.mk.inj (Except.ok.inj hr)
  exact h

theorem Returns.throw {α : Type} {e : ReadError} {P : α → Prop} :
    Returns (throw e : Reader α) P := by
  intro bs a rest hr
  cases hr

theorem Returns.bytes (count : Nat) : Returns (Reader.bytes count) (·.length ≤ count) := by
  intro bs a rest hr
  obtain ⟨rfl, -⟩ := Prod.mk.inj (Except.ok.inj hr)
  simp only [List.length_take]
  omega

theorem ofLittleEndian_lt (bs : Bytes) : ofLittleEndian bs < 256 ^ bs.length := by
  induction bs with
  | nil => decide
  | cons b rest ih =>
    have := b.toNat_lt
    rw [ofLittleEndian, List.length_cons, Nat.pow_succ]
    omega

theorem Returns.number (size : Nat) : Returns (Reader.number size) (· < 256 ^ size) := by
  refine .bind (.bytes size) fun bs _ => ?_
  split
  next hl => exact .pure (hl ▸ ofLittleEndian_lt bs)
  next => exact .throw

theorem Returns.text : Returns Reader.text ShortText := by
  refine .bind (.number 2) fun size hsize => .bind (.bytes size) fun bs hbs => ?_
  split
  next s hs =>
    refine .pure ?_
    rw [ShortText, encodeUtf8_of_decodeUtf8 hs]
    omega
  next => exact .throw

theorem signed_range {n : Nat} (h : n < 256 ^ 8) :
    -2 ^ 63 ≤ Reader.signed n ∧ Reader.signed n < 2 ^ 63 := by
  rw [Reader.signed]
  split <;> omega

theorem Returns.constant : Returns Reader.constant Constant.Fits := by
  refine .bind (.bytes 1) fun first _ => ?_
  split_ifs
  · exact .bind (.number 8) fun n hn => .pure (signed_range hn)
  · exact .bind (.number 8) fun n _ => .pure trivial
  · exact .bind .text fun s hs => .pure hs
  · exact .pure trivial

theorem Returns.many {α : Type} {one : Reader α} {P : α → Prop} (h : Returns one P) (count : Nat)
    {done : List α} (hd : ∀ a ∈ done, P a) :
    Returns (Reader.many one count done)
      fun items => items.length = count + done.length ∧ ∀ a ∈ items, P a := by
  induction count generalizing done with
  | zero => exact .pure ⟨by simp, by simpa using hd⟩
  | succ count ih =>
    refine .bind h fun a ha => ?_
    have hd' : ∀ x ∈ a :: done, P x := by simpa [ha] using hd
    simpa [Nat.add_assoc, Nat.add_comm 1] using ih hd'

theorem Returns.content : Returns Reader.content Content.Fits := by
  refine .bind (.bytes 4) fun first _ => ?_
  split_ifs
  · exact .bind (Returns.throw (P := fun _ => False)) fun _ h => h.elim
  refine .bind (.number 2) fun version _ => .bind (.number 4) fun size hsize => ?_
  refine .bind (.bytes size) fun code hcode => .bind (.number 2) fun count hcount => ?_
  refine .bind (.many .constant count (by simp)) fun constants hconstants => ?_
  refine .bind (.number 2) fun count' hcount' => ?_
  refine .bind (.many .text count' (by simp)) fun strings hstrings => .pure ?_
  simp only [List.length_nil, Nat.add_zero] at hconstants hstrings
  exact ⟨by simp only; omega, by simp only; omega, hconstants.2, by simp only; omega, hstrings.2⟩

/-- What has been loaded can be saved. -/
theorem fits_of_load {file : Bytes} {c : Content} (h : Content.load file = .ok c) : c.Fits := by
  obtain ⟨rest, hr⟩ := load_eq_ok_iff.1 h
  exact Returns.content file c rest hr

/-! ## Images -/

/-- The constant that a file holds for a value. The truth values are written as integers, and a value
that is no number and no text as nothing. -/
def Constant.ofValue : Value → Constant
  | .float x => .float x.toBits
  | .text s => .text s
  | v =>
    match v.int? with
    | some n => .int n
    | Option.none => .none

/-- What the file of an image holds. -/
def Image.content (i : Image) : Content where
  code := i.code
  constants := i.constants.map .ofValue
  strings := i.strings
  version := i.version

theorem writer_constant_ofValue (v : Value) :
    Writer.constant (.ofValue v) = Writer.constant (.ofConstant (.ofValue v)) := by
  cases v with
  | _ => rfl

/-- An image is written as what its file will hold. -/
theorem Image.save_eq_save_content (i : Image) : i.save = i.content.save := by
  have hconstants : (i.draft.constants.forM Writer.constant : Writer Unit) =
      i.content.draft.constants.forM Writer.constant := by
    show (i.constants.map DraftConstant.ofValue).forM Writer.constant =
      ((i.constants.map Constant.ofValue).map DraftConstant.ofConstant).forM Writer.constant
    induction i.constants with
    | nil => rfl
    | cons v vs ih =>
      show (do Writer.constant (.ofValue v); (vs.map DraftConstant.ofValue).forM Writer.constant) = _
      rw [writer_constant_ofValue, ih]
      rfl
  have hwriter : Writer.draft i.draft = Writer.draft i.content.draft := by
    unfold Writer.draft
    rw [hconstants]
    simp only [Image.draft, Image.content, Content.draft, List.length_map]
  rw [Image.save, Content.save, Draft.save, Draft.save, Draft.write, Draft.write, hwriter]

/-- A value that is the same after it has been in a file. -/
def Storable : Value → Prop
  | .none | .float _ => True
  | .int n => -2 ^ 63 ≤ n ∧ n < 2 ^ 63
  | .text s => ShortText s
  | _ => False

theorem value_ofValue {v : Value} (h : Storable v) :
    (Constant.ofValue v).value = v ∧ (Constant.ofValue v).Fits := by
  cases v with
  | none => exact ⟨rfl, trivial⟩
  | int n => exact ⟨rfl, h⟩
  | float x => exact ⟨congrArg Value.float (Float.ofBits_toBits x), trivial⟩
  | text s => exact ⟨rfl, h⟩
  | _ => exact h.elim

theorem storable_value {k : Constant} (h : k.Fits) : Storable k.value := by
  cases k with
  | none | float => trivial
  | int n => exact h
  | text s => exact h

/-- An image that is the same after it has been in a file, but for its slots and its version. -/
structure Image.Storable (i : Image) : Prop where
  code : i.code.length < 2 ^ 32
  constants : i.constants.length ≤ 65535
  each : ∀ v ∈ i.constants, Bytecode.Storable v
  strings : i.strings.length ≤ 65535
  short : ∀ s ∈ i.strings, ShortText s

theorem Image.Storable.fits {i : Image} (h : i.Storable) : i.content.Fits where
  code := h.code
  constants := by simpa [Image.content] using h.constants
  each k hk := by
    obtain ⟨v, hv, rfl⟩ := List.mem_map.1 hk
    exact (value_ofValue (h.each v hv)).2
  strings := h.strings
  short := h.short

theorem Image.Storable.image_content {i : Image} (h : i.Storable) :
    i.content.image = { i with slots := [] } := by
  have hmap : (i.constants.map Constant.ofValue).map Constant.value = i.constants := by
    rw [List.map_map]
    exact (List.map_congr_left fun v hv => (value_ofValue (h.each v hv)).1).trans (List.map_id _)
  simp only [Image.content, Content.image, hmap]

theorem Content.Fits.storable {c : Content} (h : c.Fits) : c.image.Storable where
  code := h.code
  constants := by simpa [Content.image] using h.constants
  each v hv := by
    obtain ⟨k, hk, rfl⟩ := List.mem_map.1 hv
    exact storable_value (h.each k hk)
  strings := h.strings
  short := h.short

theorem Image.load_eq_ok {file : Bytes} {i : Image} :
    Image.load file = .ok i ↔ ∃ c, Content.load file = .ok c ∧ c.image = i := by
  rw [Image.load]
  cases Content.load file with
  | error e => simp [Except.map]
  | ok c => simp [Except.map]

/-! ## The round trip -/

theorem load_save_content {c : Content} (h : c.Fits) :
    ∃ file, c.save = .ok file ∧ Content.load file = .ok { c with version := 3 } :=
  ⟨c.bytes, save_of_fits h, load_bytes h⟩

theorem load_save_image {i : Image} (h : i.Storable) :
    ∃ file, i.save = .ok file ∧ Image.load file = .ok { i with slots := [], version := 3 } := by
  obtain ⟨file, hs, hl⟩ := load_save_content h.fits
  refine ⟨file, i.save_eq_save_content.trans hs, Image.load_eq_ok.2 ⟨_, hl, ?_⟩⟩
  exact congrArg (fun j : Image => { j with version := 3 }) h.image_content

/-- What fits into a file is saved and loads again as it was, in the version of files and without
slots. What has been loaded, from whatever file, fits. -/
theorem file_round_trip :
    (∀ c : Content, c.Fits →
      ∃ file, c.save = .ok file ∧ Content.load file = .ok { c with version := 3 }) ∧
    (∀ i : Image, i.Storable →
      ∃ file, i.save = .ok file ∧ Image.load file = .ok { i with slots := [], version := 3 }) ∧
    (∀ (file : Bytes) (c : Content), Content.load file = .ok c →
      ∃ again, c.save = .ok again ∧ Content.load again = .ok { c with version := 3 }) ∧
    (∀ (file : Bytes) (i : Image), Image.load file = .ok i →
      ∃ again, i.save = .ok again ∧ Image.load again = .ok { i with version := 3 }) := by
  refine ⟨fun c => load_save_content, fun i => load_save_image,
    fun file c h => load_save_content (fits_of_load h), fun file i h => ?_⟩
  obtain ⟨c, hc, rfl⟩ := Image.load_eq_ok.1 h
  exact load_save_image (fits_of_load hc).storable

/-- A content with a constant of every kind, one of them a double that is no number. -/
def mixedContent : Content where
  code := [0x01, 0x02, 0x00, 0xFF]
  constants := [.none, .int (-5), .float 0x7FF0000000000001, .text "rapat é"]
  strings := ["", "dana"]

/-- A file in another version, with a constant of an unknown kind and with bytes after its end. -/
def foreignFile : Bytes :=
  magic ++ [9, 0] ++ [1, 0, 0, 0] ++ [0xFF] ++ [1, 0] ++ Writer.tag 'X' ++ [0, 0] ++ [7, 7]

theorem file_round_trip_mixed :
    (mixedContent.Fits ∧ ∃ file, mixedContent.save = .ok file ∧
      Content.load file = .ok { mixedContent with version := 3 }) ∧
    (Content.load foreignFile = .ok ⟨[0xFF], [.none], [], 9⟩ ∧
      ∃ again, Content.save ⟨[0xFF], [.none], [], 9⟩ = .ok again ∧
        Content.load again = .ok ⟨[0xFF], [.none], [], 3⟩) := by
  have hfits : mixedContent.Fits :=
    ⟨by decide, by decide, by decide, by decide, by decide⟩
  have hload : Content.load foreignFile = .ok ⟨[0xFF], [.none], [], 9⟩ := rfl
  exact ⟨⟨hfits, file_round_trip.1 _ hfits⟩, hload, file_round_trip.2.2.1 _ _ hload⟩

end Birokrasi.Bytecode
