import Birokrasi.Proofs.FileRoundTrip

/-!
# Files that are cut off

A reader takes what is there: code, texts and constants may come out short without a failure. Only a
number that is cut off is refused, and there is one behind everything but the last text. So what a reader
makes of bytes that lack some at the end (`OnCuts`) is a failure for every part of a file except the last
one, and the file as a whole loads exactly if it is cut off in its last text, between two characters
(`load_of_cut`).
-/

namespace Birokrasi.Text

/-- A text that lacks some characters of another at the end. -/
def Shortened (t s : String) : Prop := t.toList <+: s.toList ∧ t ≠ s

/-- Bytes at the front of a text that are a text are the front of the text. -/
theorem toList_prefix_of_encodeUtf8 {t s : String} (h : encodeUtf8 t <+: encodeUtf8 s) :
    t.toList <+: s.toList := by
  obtain ⟨rest, hrest⟩ := h
  have hall := feed_flatMap s.toList [] 0
  rw [show s.toList.flatMap encodeChar = encodeUtf8 t ++ rest from hrest.symm, encodeUtf8,
    List.foldlM_append, feed_flatMap, ok_bind] at hall
  -- After the bytes of `t` no character is open, so the rest are those of whole characters.
  obtain ⟨more, hmore, -⟩ := eq_flatMap_of_feed rfl hall
  refine ⟨more, ?_⟩
  have hreverse := congrArg List.reverse hmore
  simpa using hreverse.symm

end Birokrasi.Text

namespace Birokrasi.Bytecode

open Birokrasi.Text

/-! ## Bytes that lack some at the end -/

/-- Bytes that lack some of others at the end. -/
def Cut (p bs : Bytes) : Prop := p <+: bs ∧ p.length < bs.length

theorem Cut.append {p a b : Bytes} (h : Cut p (a ++ b)) :
    Cut p a ∨ ∃ q, p = a ++ q ∧ Cut q b := by
  obtain ⟨⟨tail, htail⟩, hlen⟩ := h
  rcases List.append_eq_append_iff.1 htail with ⟨mid, rfl, rfl⟩ | ⟨mid, rfl, rfl⟩
  · -- A cut between the parts counts to the second one.
    cases mid with
    | nil =>
      refine .inr ⟨[], by simp, List.nil_prefix, ?_⟩
      simpa using hlen
    | cons x mid => exact .inl ⟨List.prefix_append _ _, by simp⟩
  · refine .inr ⟨mid, rfl, List.prefix_append _ _, ?_⟩
    simp only [List.length_append] at hlen ⊢
    omega

theorem cut_of_ne {p bs : Bytes} (h : p <+: bs) (hne : p ≠ bs) : Cut p bs := by
  refine ⟨h, Nat.lt_of_le_of_ne h.length_le fun hlen => hne ?_⟩
  exact h.eq_of_length hlen

theorem not_cut_nil {p : Bytes} : ¬ Cut p [] := fun h => absurd h.2 (Nat.not_lt_zero _)

/-! ## Readers at the end of a file -/

section Readers

variable {α β : Type} {r : Reader α} {f : α → Reader β} {p bs bs' : Bytes} {a : α}

/-- A reader that fails on these bytes. -/
def Rejects (r : Reader α) (p : Bytes) : Prop := ∃ e, r.run p = .error e

/-- A reader that leaves none of these bytes, unless it fails. -/
def UsesUp (r : Reader α) (p : Bytes) : Prop := ∀ a rest, r.run p = .ok (a, rest) → rest = []

theorem Rejects.bind (h : Rejects r p) (f : α → Reader β) : Rejects (r >>= f) p := by
  obtain ⟨e, he⟩ := h
  exact ⟨e, by rw [StateT.run_bind, he]; rfl⟩

theorem Rejects.usesUp (h : Rejects r p) : UsesUp r p := by
  obtain ⟨e, he⟩ := h
  intro a rest hr
  cases he.symm.trans hr

/-- What follows a reader that leaves nothing starts at the end of the file. -/
theorem UsesUp.rejects_bind (h : UsesUp r p) (hf : ∀ a, Rejects (f a) []) : Rejects (r >>= f) p := by
  cases hr : r.run p with
  | error e => exact Rejects.bind ⟨e, hr⟩ f
  | ok out =>
    obtain ⟨a, rest⟩ := out
    obtain rfl := h a rest hr
    obtain ⟨e, he⟩ := hf a
    exact ⟨e, by rw [StateT.run_bind, hr]; exact he⟩

theorem UsesUp.bind (h : UsesUp r p) (hf : ∀ a, UsesUp (f a) []) : UsesUp (r >>= f) p := by
  intro b rest hr
  rw [StateT.run_bind] at hr
  obtain ⟨⟨a, mid⟩, ha, hb⟩ := bind_eq_ok.1 hr
  obtain rfl := h a mid ha
  exact hf a b rest hb

theorem UsesUp.pure (a : α) : UsesUp (Pure.pure a) [] := by
  intro b rest hr
  exact (Prod.mk.inj (Except.ok.inj hr)).2.symm

theorem rejects_throw (e : ReadError) (p : Bytes) : Rejects (throw e : Reader α) p := ⟨e, rfl⟩

theorem run_bytes (count : Nat) (p : Bytes) :
    (Reader.bytes count).run p = .ok (p.take count, p.drop count) := rfl

theorem usesUp_bytes {count : Nat} (h : p.length ≤ count) : UsesUp (Reader.bytes count) p := by
  intro a rest hr
  rw [run_bytes, List.drop_eq_nil_of_le h] at hr
  exact (Prod.mk.inj (Except.ok.inj hr)).2.symm

/-- A number that is cut off is refused. -/
theorem rejects_number {size : Nat} (h : p.length < size) : Rejects (Reader.number size) p := by
  refine ⟨.cutOff size, ?_⟩
  rw [Reader.number, StateT.run_bind, run_bytes, ok_bind, if_neg]
  · rfl
  · rw [List.length_take]
    omega

theorem rejects_cut_number {size n : Nat} (h : Cut p (littleEndian size n)) :
    Rejects (Reader.number size) p := by
  have hlen := h.2
  rw [length_littleEndian] at hlen
  exact rejects_number hlen

theorem rejects_text_nil : Rejects Reader.text [] :=
  (rejects_number (by decide)).bind _

theorem usesUp_constant_nil : UsesUp Reader.constant [] := by
  intro a rest hr
  exact (Prod.mk.inj (Except.ok.inj hr)).2.symm

theorem usesUp_many_nil {one : Reader α} (h : UsesUp one []) (count : Nat) (done : List α) :
    UsesUp (Reader.many one count done) [] := by
  induction count generalizing done with
  | zero => exact .pure _
  | succ count ih => exact h.bind fun a => ih _

/-! ## Readers of bytes that lack some at the end -/

/-- What a reader makes of any bytes that lack some of `bs` at the end: it leaves nothing, and makes
those things of them that `S` says. -/
def OnCuts (r : Reader α) (bs : Bytes) (S : Bytes → α → Prop) : Prop :=
  ∀ p, Cut p bs → ∀ a rest, r.run p = .ok (a, rest) ↔ rest = [] ∧ S p a

/-- The same, after other bytes. -/
def Behind (front : Bytes) (S : Bytes → α → Prop) (p : Bytes) (a : α) : Prop :=
  ∃ q, p = front ++ q ∧ S q a

theorem behind_append (S : Bytes → α → Prop) :
    Behind (bs ++ bs') S = Behind bs (Behind bs' S) := by
  funext p a
  refine propext ⟨?_, ?_⟩
  · rintro ⟨q, rfl, h⟩
    exact ⟨bs' ++ q, by simp, q, rfl, h⟩
  · rintro ⟨_, rfl, q, rfl, h⟩
    exact ⟨q, by simp, h⟩

theorem OnCuts.usesUp {S : Bytes → α → Prop} (h : OnCuts r bs S) (hp : Cut p bs) : UsesUp r p :=
  fun a rest hr => ((h p hp a rest).1 hr).1

theorem OnCuts.congr {S S' : Bytes → α → Prop} (h : OnCuts r bs S) (hs : ∀ p a, S p a ↔ S' p a) :
    OnCuts r bs S' :=
  fun p hp a rest => (h p hp a rest).trans (and_congr_right fun _ => hs p a)

theorem OnCuts.map {S : Bytes → α → Prop} (h : OnCuts r bs S) (g : α → β) :
    OnCuts (do return g (← r)) bs fun p b => ∃ a, S p a ∧ b = g a := by
  intro p hp b rest
  rw [StateT.run_bind, bind_eq_ok]
  constructor
  · rintro ⟨⟨a, left⟩, ha, hb⟩
    obtain ⟨rfl, rfl⟩ := Prod.mk.inj (Except.ok.inj hb)
    obtain ⟨hleft, hs⟩ := (h p hp a left).1 ha
    exact ⟨hleft, a, hs, rfl⟩
  · rintro ⟨rfl, a, hs, rfl⟩
    exact ⟨(a, []), (h p hp a []).2 ⟨rfl, hs⟩, rfl⟩

/-- A reader of some bytes, and another one after it. If there is not enough for the first, the second
one is at the end of the file, and has to fail there. -/
theorem OnCuts.bind {S : Bytes → β → Prop} (hr : Reads r bs a)
    (hcut : ∀ p, Cut p bs → Rejects (r >>= f) p) (hf : OnCuts (f a) bs' S) :
    OnCuts (r >>= f) (bs ++ bs') (Behind bs S) := by
  intro p hp b rest
  rcases hp.append with hp | ⟨q, rfl, hq⟩
  · obtain ⟨e, he⟩ := hcut p hp
    rw [he]
    refine iff_of_false (fun h => by cases h) ?_
    rintro ⟨-, q, rfl, -⟩
    have hlen := hp.2
    rw [List.length_append] at hlen
    omega
  · rw [StateT.run_bind, hr q, ok_bind]
    refine (hf q hq b rest).trans (and_congr_right fun _ => ⟨fun h => ⟨q, rfl, h⟩, ?_⟩)
    rintro ⟨q', heq, h⟩
    rwa [List.append_cancel_left heq]

theorem OnCuts.number {S : Bytes → β → Prop} {f : Nat → Reader β} (size : Nat) {n : Nat}
    (h : n < 256 ^ size) (hf : OnCuts (f n) bs' S) :
    OnCuts (Reader.number size >>= f) (littleEndian size n ++ bs')
      (Behind (littleEndian size n) S) :=
  .bind (.number size h) (fun _ hp => (rejects_cut_number hp).bind f) hf

end Readers

/-- A text that is cut off is read as far as it goes, if it ends between two characters. -/
theorem OnCuts.text {s : String} (h : ShortText s) :
    OnCuts Reader.text (textBytes s)
      (Behind (littleEndian 2 (encodeUtf8 s).length) fun q t => q = encodeUtf8 t) := by
  refine .number 2 (by rw [ShortText] at h; omega) ?_
  intro q hq t rest
  have hlen := hq.2
  rw [StateT.run_bind, run_bytes, ok_bind, List.take_of_length_le (by omega),
    List.drop_eq_nil_of_le (by omega)]
  cases hd : decodeUtf8 q with
  | error e =>
    refine iff_of_false (fun hr => by cases hr) ?_
    rintro ⟨-, rfl⟩
    rw [decodeUtf8_encodeUtf8] at hd
    cases hd
  | ok u =>
    have hu : q = encodeUtf8 u := (encodeUtf8_of_decodeUtf8 hd).symm
    constructor
    · intro hr
      obtain ⟨rfl, rfl⟩ := Prod.mk.inj (Except.ok.inj hr)
      exact ⟨rfl, hu⟩
    · rintro ⟨rfl, rfl⟩
      rw [decodeUtf8_encodeUtf8] at hd
      obtain rfl := Except.ok.inj hd
      rfl

/-- Texts of which the last one is cut off between two characters, and what is read of them. -/
def CutText (strings : List String) (p : Bytes) (items : List String) : Prop :=
  ∃ init last t, strings = init ++ [last] ∧ items = init ++ [t] ∧
    p = init.flatMap textBytes ++ (littleEndian 2 (encodeUtf8 last).length ++ encodeUtf8 t)

theorem OnCuts.texts {strings : List String} (h : ∀ s ∈ strings, ShortText s) (done : List String) :
    OnCuts (Reader.many Reader.text strings.length done) (strings.flatMap textBytes)
      fun p items => ∃ read, CutText strings p read ∧ items = done.reverse ++ read := by
  induction strings generalizing done with
  | nil => exact fun p hp => absurd hp not_cut_nil
  | cons s rest ih =>
    have hs := h s (by simp)
    cases rest with
    | nil =>
      -- After the last text the file may end.
      rw [List.flatMap_singleton]
      refine ((OnCuts.text hs).map fun t => (t :: done).reverse).congr fun p items => ?_
      constructor
      · rintro ⟨t, ⟨q, rfl, rfl⟩, rfl⟩
        exact ⟨[t], ⟨[], s, t, rfl, rfl, rfl⟩, by simp⟩
      · rintro ⟨_, ⟨init, last, t, hinit, rfl, rfl⟩, rfl⟩
        obtain ⟨rfl, rfl⟩ : init = [] ∧ last = s := by simpa [List.singleton_eq_append_iff] using hinit
        exact ⟨t, ⟨_, rfl, rfl⟩, by simp⟩
    | cons s' rest =>
      -- Before another text the file may not end: the length of that one is missing.
      have hcut (p : Bytes) (hp : Cut p (textBytes s)) : Rejects
          (Reader.text >>= fun t => Reader.many Reader.text (s' :: rest).length (t :: done)) p :=
        ((OnCuts.text hs).usesUp hp).rejects_bind fun t => rejects_text_nil.bind _
      have hrest := ih (fun t ht => h t (by simp [ht])) (s :: done)
      refine (OnCuts.bind (.text hs) hcut hrest).congr fun p items => ?_
      constructor
      · rintro ⟨_, rfl, _, ⟨init, last, t, hinit, rfl, rfl⟩, rfl⟩
        exact ⟨s :: init ++ [t], ⟨s :: init, last, t, by simp [hinit], rfl, by simp⟩, by simp⟩
      · rintro ⟨_, ⟨init, last, t, hinit, rfl, rfl⟩, rfl⟩
        cases init with
        | nil => cases hinit
        | cons x init =>
          obtain ⟨rfl, htail⟩ := List.cons.inj hinit
          exact ⟨_, by simp, init ++ [t], ⟨init, last, t, htail, rfl, rfl⟩, by simp⟩

/-! ## Constants and contents -/

/-- Readers of two parts leave nothing of bytes that lack some at the end, if neither does alone. -/
theorem usesUp_bind_of_cut {α β : Type} {r : Reader α} {f : α → Reader β} {p bs bs' : Bytes} {a : α}
    (hr : Reads r bs a) (hcut : ∀ q, Cut q bs → UsesUp (r >>= f) q)
    (hf : ∀ q, Cut q bs' → UsesUp (f a) q) (hp : Cut p (bs ++ bs')) : UsesUp (r >>= f) p := by
  rcases hp.append with hp | ⟨q, rfl, hq⟩
  · exact hcut p hp
  · intro b rest hb
    rw [StateT.run_bind, hr q, ok_bind] at hb
    exact hf q hq b rest hb

theorem eq_nil_of_cut_tag {p : Bytes} {c : Char} (h : Cut p (Writer.tag c)) : p = [] :=
  List.length_eq_zero_iff.1 (Nat.lt_one_iff.1 h.2)

theorem usesUp_constant {k : Constant} (h : k.Fits) {p : Bytes} (hp : Cut p k.bytes) :
    UsesUp Reader.constant p := by
  have htag (c : Char) (q : Bytes) (hq : Cut q (Writer.tag c)) : UsesUp Reader.constant q := by
    rw [eq_nil_of_cut_tag hq]
    exact usesUp_constant_nil
  cases k with
  | none => exact htag 'N' p hp
  | int n =>
    refine usesUp_bind_of_cut (.bytes (Writer.tag 'I')) (htag 'I') (fun q hq => ?_) hp
    exact ((rejects_cut_number hq).bind _).usesUp
  | float bits =>
    refine usesUp_bind_of_cut (.bytes (Writer.tag 'F')) (htag 'F') (fun q hq => ?_) hp
    exact ((rejects_cut_number hq).bind _).usesUp
  | text s =>
    refine usesUp_bind_of_cut (.bytes (Writer.tag 'S')) (htag 'S') (fun q hq => ?_) hp
    exact ((OnCuts.text h).usesUp hq).bind fun t => .pure _

theorem usesUp_many {α : Type} {one : Reader α} {g : α → Bytes} (hnil : UsesUp one [])
    {items : List α} (h : ∀ a ∈ items, Reads one (g a) a ∧ ∀ q, Cut q (g a) → UsesUp one q)
    (done : List α) {p : Bytes} (hp : Cut p (items.flatMap g)) :
    UsesUp (Reader.many one items.length done) p := by
  induction items generalizing done p with
  | nil => exact absurd hp not_cut_nil
  | cons a rest ih =>
    obtain ⟨hr, hcut⟩ := h a (by simp)
    refine usesUp_bind_of_cut hr (fun q hq => (hcut q hq).bind fun b => usesUp_many_nil hnil _ _)
      (fun q hq => ih (fun b hb => h b (by simp [hb])) _ hq) hp

/-- The bytes of a content in front of its texts. -/
def Content.front (c : Content) : Bytes :=
  magic ++ littleEndian 2 fileVersion ++ littleEndian 4 c.code.length ++ c.code ++
    littleEndian 2 c.constants.length ++ c.constants.flatMap Constant.bytes ++
    littleEndian 2 c.strings.length

/-- A file that is cut off can be read only if the last text is cut off. -/
theorem OnCuts.content {c : Content} (h : c.Fits) :
    OnCuts Reader.content c.bytes (Behind c.front fun q d =>
      ∃ items, CutText c.strings q items ∧ d = { c with strings := items, version := fileVersion }) := by
  have hcode : c.code.length < 256 ^ 4 := by have := h.code; omega
  have hconstants : c.constants.length < 256 ^ 2 := by have := h.constants; omega
  have hstrings : c.strings.length < 256 ^ 2 := by have := h.strings; omega
  have htwo (β : Type) (f : Nat → Reader β) : Rejects (Reader.number 2 >>= f) [] :=
    (rejects_number (by decide)).bind f
  simp only [Content.bytes, Content.front, List.append_assoc, behind_append]
  refine .bind (.bytes magic) (fun p hp => (usesUp_bytes hp.2.le).rejects_bind fun first => ?_) ?_
  · split_ifs
    · exact (rejects_throw _ _).bind _
    · exact htwo _ _
  rw [if_neg (by simp)]
  refine .number 2 (show fileVersion < 256 ^ 2 by decide) (.number 4 hcode ?_)
  refine .bind (.bytes c.code) (fun p hp => (usesUp_bytes hp.2.le).rejects_bind fun code => htwo _ _) ?_
  refine .number 2 hconstants ?_
  refine .bind (Reads.many (fun k hk => .constant (h.each k hk)) []) (fun p hp => ?_) ?_
  · refine (usesUp_many usesUp_constant_nil (fun k hk => ⟨.constant (h.each k hk), fun q => ?_⟩) []
      hp).rejects_bind fun constants => htwo _ _
    exact usesUp_constant (h.each k hk)
  refine .number 2 hstrings ?_
  refine ((OnCuts.texts h.short []).map _).congr fun q d => ?_
  simp

/-! ## Loading a file that is cut off -/

/-- A file of which `p` lacks some characters at the end of the last text, so that `t` is left of it. -/
def LacksEnd (strings : List String) (file p : Bytes) (t : String) : Prop :=
  ∃ init last front, strings = init ++ [last] ∧ file = front ++ encodeUtf8 last ∧
    p = front ++ encodeUtf8 t ∧ Shortened t last

theorem Content.bytes_of_last {c : Content} {init : List String} {last : String}
    (h : c.strings = init ++ [last]) :
    c.bytes = (c.front ++ init.flatMap textBytes ++ littleEndian 2 (encodeUtf8 last).length) ++
      encodeUtf8 last := by
  have hbytes : c.bytes = c.front ++ c.strings.flatMap textBytes := rfl
  rw [hbytes, h, List.flatMap_append, List.flatMap_singleton, textBytes]
  simp only [List.append_assoc]

theorem shortened_of_cut {front : Bytes} {t last : String}
    (h : Cut (front ++ encodeUtf8 t) (front ++ encodeUtf8 last)) : Shortened t last := by
  refine ⟨toList_prefix_of_encodeUtf8 ((List.prefix_append_right_inj front).1 h.1), ?_⟩
  rintro rfl
  exact absurd h.2 (Nat.lt_irrefl _)

/-- What is left of a file can be read exactly if only the last text is cut off. -/
theorem load_cut_bytes {c : Content} (h : c.Fits) {p : Bytes} (hp : Cut p c.bytes) (d : Content) :
    Content.load p = .ok d ↔ ∃ t, LacksEnd c.strings c.bytes p t ∧
      d = { c with strings := c.strings.dropLast ++ [t], version := 3 } := by
  simp only [load_eq_ok_iff, OnCuts.content h p hp]
  constructor
  · rintro ⟨-, -, q, rfl, items, ⟨init, last, t, hstrings, rfl, rfl⟩, rfl⟩
    rw [← List.append_assoc, ← List.append_assoc, Content.bytes_of_last hstrings] at hp
    refine ⟨t, ⟨init, last, _, hstrings, Content.bytes_of_last hstrings, ?_, shortened_of_cut hp⟩, ?_⟩
    · simp only [List.append_assoc]
    · rw [hstrings, List.dropLast_concat]
      rfl
  · rintro ⟨t, ⟨init, last, front, hstrings, hfile, rfl, -⟩, rfl⟩
    have hfront := List.append_cancel_right (hfile.symm.trans (Content.bytes_of_last hstrings))
    refine ⟨[], rfl, init.flatMap textBytes ++ (littleEndian 2 (encodeUtf8 last).length ++ encodeUtf8 t),
      ?_, init ++ [t], ⟨init, last, t, hstrings, rfl, rfl⟩, ?_⟩
    · rw [hfront]
      simp only [List.append_assoc]
    · rw [hstrings, List.dropLast_concat]
      rfl

/-- What a value is after it has been in a file. -/
def stored (v : Value) : Value := (Constant.ofValue v).value

theorem Image.load_cut_bytes {i : Image} (h : i.content.Fits) {p : Bytes}
    (hp : Cut p i.content.bytes) (j : Image) :
    Image.load p = .ok j ↔ ∃ t, LacksEnd i.strings i.content.bytes p t ∧
      j = { i with
        constants := i.constants.map stored
        strings := i.strings.dropLast ++ [t]
        slots := []
        version := 3 } := by
  simp only [Image.load_eq_ok, Bytecode.load_cut_bytes h hp]
  have himage (t : String) :
      Content.image ⟨i.code, i.constants.map .ofValue, i.strings.dropLast ++ [t], 3⟩ =
        ⟨i.code, i.constants.map stored, i.strings.dropLast ++ [t], [], 3⟩ := by
    simp [Content.image, stored]
  constructor
  · rintro ⟨_, ⟨t, ht, rfl⟩, rfl⟩
    exact ⟨t, ht, himage t⟩
  · rintro ⟨t, ht, rfl⟩
    exact ⟨_, ⟨t, ht, rfl⟩, himage t⟩

/-- A result that is `.ok` exactly in some cases is an error exactly in the others. -/
theorem exists_error_iff {ε α β : Type} {r : Except ε α} {P : β → Prop} {f : β → α}
    (h : ∀ a, r = .ok a ↔ ∃ b, P b ∧ a = f b) :
    ((∃ e, r = .error e) ↔ ¬ ∃ b, P b) ∧ ∀ b, P b → r = .ok (f b) := by
  refine ⟨?_, fun b hb => (h (f b)).2 ⟨b, hb, rfl⟩⟩
  cases r with
  | error e =>
    refine iff_of_true ⟨e, rfl⟩ ?_
    rintro ⟨b, hb⟩
    cases (h (f b)).2 ⟨b, hb, rfl⟩
  | ok a =>
    obtain ⟨b, hb, -⟩ := (h a).1 rfl
    refine iff_of_false ?_ (not_not_intro ⟨b, hb⟩)
    rintro ⟨e, he⟩
    cases he

theorem eq_bytes_of_save {c : Content} {file : Bytes} (h : c.save = .ok file) : file = c.bytes :=
  Except.ok.inj (h.symm.trans (save_of_fits (fits_of_save h)))

/-- A file that is cut off does not load, with one exception: if it is cut off in the last text, between
two characters, it loads as what was saved, with the characters of that text that are left. -/
theorem load_of_cut :
    (∀ (c : Content) (file p : Bytes), c.save = .ok file → p <+: file → p ≠ file →
      ((∃ e, Content.load p = .error e) ↔ ¬ ∃ t, LacksEnd c.strings file p t) ∧
      ∀ t, LacksEnd c.strings file p t →
        Content.load p = .ok { c with strings := c.strings.dropLast ++ [t], version := 3 }) ∧
    (∀ (i : Image) (file p : Bytes), i.save = .ok file → p <+: file → p ≠ file →
      ((∃ e, Image.load p = .error e) ↔ ¬ ∃ t, LacksEnd i.strings file p t) ∧
      ∀ t, LacksEnd i.strings file p t →
        Image.load p = .ok { i with
          constants := i.constants.map stored
          strings := i.strings.dropLast ++ [t]
          slots := []
          version := 3 }) ∧
    (∀ v, Storable v → stored v = v) ∧ ∀ b, stored (.bool b) = .int (if b then 1 else 0) := by
  refine ⟨fun c file p hs hp hne => ?_, fun i file p hs hp hne => ?_,
    fun v hv => (value_ofValue hv).1, fun b => ?_⟩
  · obtain rfl := eq_bytes_of_save hs
    exact exists_error_iff (load_cut_bytes (fits_of_save hs) (cut_of_ne hp hne))
  · rw [Image.save_eq_save_content] at hs
    obtain rfl := eq_bytes_of_save hs
    exact exists_error_iff (Image.load_cut_bytes (fits_of_save hs) (cut_of_ne hp hne))
  · cases b <;> rfl

/-- A content whose last text ends in a character of two bytes and one of one byte. -/
def agendaContent : Content where
  code := [0x0B]
  constants := [.int 7, .text "rapat"]
  strings := ["dana", "é!"]

/-- Without its last byte the file of the agenda loads, and without the two last bytes it does not. -/
theorem load_of_cut_agenda :
    agendaContent.save = .ok agendaContent.bytes ∧
    (LacksEnd agendaContent.strings agendaContent.bytes agendaContent.bytes.dropLast "é" ∧
      Content.load agendaContent.bytes.dropLast =
        .ok ⟨[0x0B], [.int 7, .text "rapat"], ["dana", "é"], 3⟩) ∧
    ((∃ e, Content.load agendaContent.bytes.dropLast.dropLast = .error e) ∧
      ¬ ∃ t, LacksEnd agendaContent.strings agendaContent.bytes
        agendaContent.bytes.dropLast.dropLast t) := by
  have hsave : agendaContent.save = .ok agendaContent.bytes :=
    save_of_fits ⟨by decide, by decide, by decide, by decide, by decide⟩
  have hends : LacksEnd agendaContent.strings agendaContent.bytes agendaContent.bytes.dropLast "é" :=
    ⟨["dana"], "é!", agendaContent.bytes.take 40, rfl, rfl, rfl, by decide, by decide⟩
  have hone := load_of_cut.1 agendaContent _ agendaContent.bytes.dropLast hsave
    (List.dropLast_prefix _) (by decide)
  have htwo := load_of_cut.1 agendaContent _ agendaContent.bytes.dropLast.dropLast hsave
    ((List.dropLast_prefix _).trans (List.dropLast_prefix _)) (by decide)
  have herror : ∃ e, Content.load agendaContent.bytes.dropLast.dropLast = .error e := ⟨_, rfl⟩
  exact ⟨hsave, ⟨hends, hone.2 "é" hends⟩, herror, htwo.1.1 herror⟩

end Birokrasi.Bytecode
