import Birokrasi.Proofs.Outcome
import Birokrasi.Text.Utf8
import Mathlib.Tactic.IntervalCases
import Mathlib.Tactic.SplitIfs

/-!
# Strict UTF-8 loses nothing

`decodeUtf8_encodeUtf8`: the bytes of a text read back as the text. `encodeUtf8_of_decodeUtf8`: bytes
that are read as a text are the bytes of that text, so that a text has one spelling only.

A character that the reader has open is closed by some bytes, which spell a number (`Closes`). The
reader follows this relation byte by byte, and `encodeChar` is its only solution for a character.
-/

namespace Birokrasi.Text

/-! ## Bytes and characters as numbers -/

theorem toNat_toUInt8 {n : Nat} (h : n < 256) : n.toUInt8.toNat = n := by
  simp [Nat.mod_eq_of_lt h]

theorem toUInt8_of_toNat {n : Nat} {b : UInt8} (h : n = b.toNat) : n.toUInt8 = b := by
  subst h
  simp

theorem char_bounds (c : Char) :
    c.toNat < 0xD800 ∨ 0xDFFF < c.toNat ∧ c.toNat < 0x110000 := by
  have := c.valid
  simpa [UInt32.isValidChar, Nat.isValidChar] using this

theorem toNat_ofNat_of_bounds {n : Nat} (h : n < 0xD800 ∨ 0xDFFF < n ∧ n < 0x110000) :
    (Char.ofNat n).toNat = n := by
  have hv : n.isValidChar := h
  rw [Char.ofNat, dif_pos hv]
  rfl

/-! ## Open characters -/

/-- The bytes that an open character still lacks, and the number that it then stands for. -/
def Utf8Open.Closes : Utf8Open → Bytes → Nat → Prop
  | o, [], n => o.missing = 0 ∧ n = o.value
  | o, b :: rest, n =>
    0 < o.missing ∧ o.low ≤ b.toNat ∧ b.toNat ≤ o.high ∧
      Closes ⟨o.missing - 1, 0x80, 0xBF, o.value * 0x40 + (b.toNat - 0x80)⟩ rest n

theorem feed_first {b : UInt8} {o : Utf8Open} (ho : Utf8Open.ofFirst b.toNat = some o)
    (chars : List Char) (position : Nat) :
    Utf8Reader.feed ⟨chars, position, none⟩ b =
      .ok (if o.missing = 0 then ⟨Char.ofNat o.value :: chars, position + 1, none⟩
        else ⟨chars, position + 1, some (b, 1, o)⟩) := by
  simp only [Utf8Reader.feed, ho]
  split <;> rfl

theorem feed_next {b first : UInt8} {o : Utf8Open} {count : Nat} (hl : o.low ≤ b.toNat)
    (hh : b.toNat ≤ o.high) (chars : List Char) (position : Nat) :
    Utf8Reader.feed ⟨chars, position, some (first, count, o)⟩ b =
      .ok (if o.missing ≤ 1 then
          ⟨Char.ofNat (o.value * 0x40 + (b.toNat - 0x80)) :: chars, position + 1, none⟩
        else
          ⟨chars, position + 1, some (first, count + 1,
            ⟨o.missing - 1, 0x80, 0xBF, o.value * 0x40 + (b.toNat - 0x80)⟩)⟩) := by
  simp only [Utf8Reader.feed, hl, hh, decide_true, Bool.and_true, if_true]
  split <;> rfl

theorem feed_closes {bs : Bytes} {o : Utf8Open} {n : Nat} (hm : o.missing ≠ 0) (h : o.Closes bs n)
    (first : UInt8) (count : Nat) (chars : List Char) (position : Nat) :
    bs.foldlM Utf8Reader.feed ⟨chars, position, some (first, count, o)⟩ =
      .ok ⟨Char.ofNat n :: chars, position + bs.length, none⟩ := by
  induction bs generalizing o count position with
  | nil => exact absurd h.1 hm
  | cons b rest ih =>
    obtain ⟨-, hl, hh, hr⟩ := h
    rw [List.foldlM_cons, feed_next hl hh, ok_bind]
    by_cases hlast : o.missing ≤ 1
    · rw [if_pos hlast]
      cases rest with
      | nil =>
        rw [hr.2]
        rfl
      | cons b' rest' =>
        have : 0 < o.missing - 1 := hr.1
        omega
    · rw [if_neg hlast]
      have hpos : position + (b :: rest).length = position + 1 + rest.length := by
        simp only [List.length_cons]
        omega
      rw [hpos]
      exact ih (by simp only; omega) hr _ _

theorem closes_zero {o : Utf8Open} {bs : Bytes} {n : Nat} (hm : o.missing = 0)
    (h : o.Closes bs n) : bs = [] ∧ n = o.value := by
  cases bs with
  | nil => exact ⟨rfl, h.2⟩
  | cons b rest => exact absurd h.1 (by omega)

theorem closes_cons {o : Utf8Open} {bs : Bytes} {n : Nat} (hm : o.missing ≠ 0)
    (h : o.Closes bs n) :
    ∃ b rest, bs = b :: rest ∧ o.low ≤ b.toNat ∧ b.toNat ≤ o.high ∧
      (⟨o.missing - 1, 0x80, 0xBF, o.value * 0x40 + (b.toNat - 0x80)⟩ : Utf8Open).Closes rest n := by
  cases bs with
  | nil => exact absurd h.1 hm
  | cons b rest => exact ⟨b, rest, rfl, h.2.1, h.2.2.1, h.2.2.2⟩

/-- A reading that ends between two characters closes the one that is open. -/
theorem closes_of_feed {bs : Bytes} {o : Utf8Open} (hm : o.missing ≠ 0) {first : UInt8} {count : Nat}
    {chars : List Char} {position : Nat} {r : Utf8Reader} (hr : r.current = none)
    (h : bs.foldlM Utf8Reader.feed ⟨chars, position, some (first, count, o)⟩ = .ok r) :
    ∃ front rest n, bs = front ++ rest ∧ o.Closes front n ∧
      rest.foldlM Utf8Reader.feed
        ⟨Char.ofNat n :: chars, position + front.length, none⟩ = .ok r := by
  induction bs generalizing o count position with
  | nil =>
    simp only [List.foldlM_nil, pure, Except.pure, Except.ok.injEq] at h
    subst h
    simp at hr
  | cons b rest ih =>
    rw [List.foldlM_cons] at h
    by_cases hb : o.low ≤ b.toNat ∧ b.toNat ≤ o.high
    · rw [feed_next hb.1 hb.2, ok_bind] at h
      by_cases hlast : o.missing ≤ 1
      · rw [if_pos hlast] at h
        exact ⟨[b], rest, _, rfl, ⟨by omega, hb.1, hb.2, by simp; omega, rfl⟩, h⟩
      · rw [if_neg hlast] at h
        obtain ⟨front, tail, n, rfl, hc, ht⟩ := ih (by simp; omega) h
        refine ⟨b :: front, tail, n, rfl, ⟨by omega, hb.1, hb.2, hc⟩, ?_⟩
        rw [List.length_cons, Nat.add_comm front.length, ← Nat.add_assoc]
        exact ht
    · have he : (decide (o.low ≤ b.toNat) && decide (b.toNat ≤ o.high)) = false := by
        simpa using hb
      simp [Utf8Reader.feed, he] at h

/-! ## Characters -/

/-- What the first byte of a character says of the others: how many there are, and between which
bounds the second one lies. -/
theorem ofFirst_eq_some {b : Nat} {o : Utf8Open} (h : Utf8Open.ofFirst b = some o) :
    (o.missing = 0 ∧ b = o.value ∧ b < 0x80) ∨
    (o.missing = 1 ∧ b = 0xC0 + o.value ∧ 2 ≤ o.value ∧ o.value < 0x20 ∧ o.low = 0x80 ∧
      o.high = 0xBF) ∨
    (o.missing = 2 ∧ b = 0xE0 + o.value ∧ o.value < 0x10 ∧ 0x80 ≤ o.low ∧ o.high ≤ 0xBF ∧
      (o.value = 0 → 0xA0 ≤ o.low) ∧ (o.value = 0xD → o.high ≤ 0x9F)) ∨
    (o.missing = 3 ∧ b = 0xF0 + o.value ∧ o.value < 5 ∧ 0x80 ≤ o.low ∧ o.high ≤ 0xBF ∧
      (o.value = 0 → 0x90 ≤ o.low) ∧ (o.value = 4 → o.high ≤ 0x8F)) := by
  simp only [Utf8Open.ofFirst, Bool.and_eq_true, decide_eq_true_eq] at h
  split_ifs at h
  all_goals obtain rfl := Option.some.inj h
  all_goals simp
  all_goals omega

theorem ofFirst_two {m : Nat} (hl : 2 ≤ m) (hh : m < 0x20) :
    Utf8Open.ofFirst (0xC0 + m) = some ⟨1, 0x80, 0xBF, m⟩ := by
  rw [Utf8Open.ofFirst, if_neg (by omega), if_pos (by simp; omega)]
  simp

theorem ofFirst_three {m : Nat} (hh : m < 0x10) :
    Utf8Open.ofFirst (0xE0 + m) =
      some ⟨2, if m = 0 then 0xA0 else 0x80, if m = 0xD then 0x9F else 0xBF, m⟩ := by
  interval_cases m <;> rfl

theorem ofFirst_four {m : Nat} (hh : m < 5) :
    Utf8Open.ofFirst (0xF0 + m) =
      some ⟨3, if m = 0 then 0x90 else 0x80, if m = 4 then 0x8F else 0xBF, m⟩ := by
  interval_cases m <;> rfl

/-- The bytes of a character are one that opens it and others that close it. -/
theorem encodeChar_closes (c : Char) :
    ∃ b rest o, encodeChar c = b :: rest ∧ Utf8Open.ofFirst b.toNat = some o ∧
      o.Closes rest c.toNat := by
  have hc := char_bounds c
  generalize hn : c.toNat = n at hc ⊢
  have byte {m : Nat} (hm : m < 256) : m.toUInt8.toNat = m := toNat_toUInt8 hm
  have low := byte (show 0x80 + n % 0x40 < 256 by omega)
  have mid := byte (show 0x80 + n / 0x40 % 0x40 < 256 by omega)
  by_cases h1 : n < 0x80
  · refine ⟨n.toUInt8, [], ⟨0, 0, 0, n⟩, by simp [encodeChar, hn, h1], ?_, rfl, rfl⟩
    simp [Utf8Open.ofFirst, byte (show n < 256 by omega), h1]
  by_cases h2 : n < 0x800
  · have first := byte (show 0xC0 + n / 0x40 < 256 by omega)
    refine ⟨(0xC0 + n / 0x40).toUInt8, [(0x80 + n % 0x40).toUInt8], _,
      by simp [encodeChar, hn, h1, h2], by rw [first]; exact ofFirst_two (by omega) (by omega), ?_⟩
    simp only [Utf8Open.Closes, low, true_and]
    omega
  by_cases h3 : n < 0x10000
  · have first := byte (show 0xE0 + n / 0x1000 < 256 by omega)
    refine ⟨(0xE0 + n / 0x1000).toUInt8,
      [(0x80 + n / 0x40 % 0x40).toUInt8, (0x80 + n % 0x40).toUInt8], _,
      by simp [encodeChar, hn, h1, h2, h3], by rw [first]; exact ofFirst_three (by omega), ?_⟩
    simp only [Utf8Open.Closes, low, mid, true_and]
    split_ifs <;> omega
  · have first := byte (show 0xF0 + n / 0x40000 < 256 by omega)
    have high := byte (show 0x80 + n / 0x1000 % 0x40 < 256 by omega)
    refine ⟨(0xF0 + n / 0x40000).toUInt8, [(0x80 + n / 0x1000 % 0x40).toUInt8,
      (0x80 + n / 0x40 % 0x40).toUInt8, (0x80 + n % 0x40).toUInt8], _,
      by simp [encodeChar, hn, h1, h2, h3], by rw [first]; exact ofFirst_four (by omega), ?_⟩
    simp only [Utf8Open.Closes, low, mid, high, true_and]
    split_ifs <;> omega

theorem encodeChar_one {b : UInt8} (h : b.toNat < 0x80) :
    encodeChar (Char.ofNat b.toNat) = [b] := by
  have hn : (Char.ofNat b.toNat).toNat = b.toNat := toNat_ofNat_of_bounds (by omega)
  simp only [encodeChar, hn, if_pos h, toUInt8_of_toNat rfl]

theorem encodeChar_two {b b₁ : UInt8} {n : Nat} (hl : 0x80 ≤ n) (hh : n < 0x800)
    (hb : 0xC0 + n / 0x40 = b.toNat) (hb₁ : 0x80 + n % 0x40 = b₁.toNat) :
    encodeChar (Char.ofNat n) = [b, b₁] := by
  have hn : (Char.ofNat n).toNat = n := toNat_ofNat_of_bounds (by omega)
  simp only [encodeChar, hn, if_neg (Nat.not_lt.2 hl), if_pos hh, toUInt8_of_toNat hb,
    toUInt8_of_toNat hb₁]

theorem encodeChar_three {b b₁ b₂ : UInt8} {n : Nat} (hl : 0x800 ≤ n) (hh : n < 0x10000)
    (hs : n < 0xD800 ∨ 0xDFFF < n) (hb : 0xE0 + n / 0x1000 = b.toNat)
    (hb₁ : 0x80 + n / 0x40 % 0x40 = b₁.toNat) (hb₂ : 0x80 + n % 0x40 = b₂.toNat) :
    encodeChar (Char.ofNat n) = [b, b₁, b₂] := by
  have hn : (Char.ofNat n).toNat = n := toNat_ofNat_of_bounds (by omega)
  simp only [encodeChar, hn, if_neg (show ¬n < 0x80 by omega), if_neg (Nat.not_lt.2 hl), if_pos hh,
    toUInt8_of_toNat hb, toUInt8_of_toNat hb₁, toUInt8_of_toNat hb₂]

theorem encodeChar_four {b b₁ b₂ b₃ : UInt8} {n : Nat} (hl : 0x10000 ≤ n) (hh : n < 0x110000)
    (hb : 0xF0 + n / 0x40000 = b.toNat) (hb₁ : 0x80 + n / 0x1000 % 0x40 = b₁.toNat)
    (hb₂ : 0x80 + n / 0x40 % 0x40 = b₂.toNat) (hb₃ : 0x80 + n % 0x40 = b₃.toNat) :
    encodeChar (Char.ofNat n) = [b, b₁, b₂, b₃] := by
  have hn : (Char.ofNat n).toNat = n := toNat_ofNat_of_bounds (by omega)
  simp only [encodeChar, hn, if_neg (show ¬n < 0x80 by omega), if_neg (show ¬n < 0x800 by omega),
    if_neg (Nat.not_lt.2 hl), toUInt8_of_toNat hb, toUInt8_of_toNat hb₁, toUInt8_of_toNat hb₂,
    toUInt8_of_toNat hb₃]

/-- Bytes that open and close a character are its bytes. -/
theorem encodeChar_of_closes {b : UInt8} {rest : Bytes} {o : Utf8Open} {n : Nat}
    (ho : Utf8Open.ofFirst b.toNat = some o) (h : o.Closes rest n) :
    encodeChar (Char.ofNat n) = b :: rest := by
  -- the number of bytes that are missing says how often `Closes` has to be opened
  obtain ⟨hm, hb, hlt⟩ | ⟨hm, hb, hv, hv', hlow, hhigh⟩ | ⟨hm, hb, hv, hlow, hhigh, hfirst, hlast⟩ |
    ⟨hm, hb, hv, hlow, hhigh, hfirst, hlast⟩ := ofFirst_eq_some ho
  · obtain ⟨rfl, rfl⟩ := closes_zero hm h
    rw [← hb]
    exact encodeChar_one hlt
  · obtain ⟨b₁, tail, rfl, hl, hh, ht⟩ := closes_cons (by omega) h
    obtain ⟨rfl, hn⟩ := closes_zero (by simp only; omega) ht
    simp only at hn
    exact encodeChar_two (by omega) (by omega) (by omega) (by omega)
  · obtain ⟨b₁, tail, rfl, hl, hh, ht⟩ := closes_cons (by omega) h
    obtain ⟨b₂, tail, rfl, hl₂, hh₂, ht⟩ := closes_cons (by simp only; omega) ht
    obtain ⟨rfl, hn⟩ := closes_zero (by simp only; omega) ht
    simp only at hl₂ hh₂ hn
    exact encodeChar_three (by omega) (by omega) (by omega) (by omega) (by omega) (by omega)
  · obtain ⟨b₁, tail, rfl, hl, hh, ht⟩ := closes_cons (by omega) h
    obtain ⟨b₂, tail, rfl, hl₂, hh₂, ht⟩ := closes_cons (by simp only; omega) ht
    obtain ⟨b₃, tail, rfl, hl₃, hh₃, ht⟩ := closes_cons (by simp only; omega) ht
    obtain ⟨rfl, hn⟩ := closes_zero (by simp only; omega) ht
    simp only at hl₂ hh₂ hl₃ hh₃ hn
    exact encodeChar_four (by omega) (by omega) (by omega) (by omega) (by omega) (by omega)

/-! ## Texts -/

theorem feed_encodeChar (c : Char) (chars : List Char) (position : Nat) :
    (encodeChar c).foldlM Utf8Reader.feed ⟨chars, position, none⟩ =
      .ok ⟨c :: chars, position + (encodeChar c).length, none⟩ := by
  obtain ⟨b, rest, o, he, ho, hc⟩ := encodeChar_closes c
  rw [he, List.foldlM_cons, feed_first ho, ok_bind]
  by_cases hm : o.missing = 0
  · obtain ⟨rfl, hv⟩ := closes_zero hm hc
    rw [if_pos hm, ← hv, Char.ofNat_toNat]
    rfl
  · rw [if_neg hm, feed_closes hm hc, Char.ofNat_toNat, List.length_cons, Nat.add_assoc,
      Nat.add_comm 1]

theorem feed_flatMap (cs chars : List Char) (position : Nat) :
    (cs.flatMap encodeChar).foldlM Utf8Reader.feed ⟨chars, position, none⟩ =
      .ok ⟨cs.reverse ++ chars, position + (cs.flatMap encodeChar).length, none⟩ := by
  induction cs generalizing chars position with
  | nil => rfl
  | cons c cs ih =>
    rw [List.flatMap_cons, List.foldlM_append, feed_encodeChar, ok_bind, ih]
    simp [Nat.add_assoc]

/-- The bytes of a text read back as the text. -/
theorem decodeUtf8_encodeUtf8 (s : String) : decodeUtf8 (encodeUtf8 s) = .ok s := by
  have h := feed_flatMap s.toList [] 0
  simp only [decodeUtf8, encodeUtf8]
  rw [show ({} : Utf8Reader) = ⟨[], 0, none⟩ from rfl, h]
  simp [pure, Except.pure]

/-- A reading that starts and ends between two characters has read the bytes of characters. -/
theorem eq_flatMap_of_feed {bs : Bytes} {chars : List Char} {position : Nat} {r : Utf8Reader}
    (hr : r.current = none) (h : bs.foldlM Utf8Reader.feed ⟨chars, position, none⟩ = .ok r) :
    ∃ cs : List Char, r.chars = cs.reverse ++ chars ∧ bs = cs.flatMap encodeChar := by
  -- a character takes at least one byte, so that the rest is shorter
  induction hl : bs.length using Nat.strongRecOn generalizing bs chars position with
  | ind size ih =>
    cases bs with
    | nil =>
      obtain rfl := Except.ok.inj h
      exact ⟨[], rfl, rfl⟩
    | cons b bs =>
      rw [List.foldlM_cons] at h
      cases ho : Utf8Open.ofFirst b.toNat with
      | none => simp [Utf8Reader.feed, ho] at h
      | some o =>
        rw [feed_first ho, ok_bind] at h
        obtain ⟨front, rest, n, hsplit, hc, ht⟩ : ∃ front rest n, bs = front ++ rest ∧
            o.Closes front n ∧ rest.foldlM Utf8Reader.feed
              ⟨Char.ofNat n :: chars, position + 1 + front.length, none⟩ = .ok r := by
          by_cases hm : o.missing = 0
          · rw [if_pos hm] at h
            exact ⟨[], bs, o.value, rfl, ⟨hm, rfl⟩, h⟩
          · rw [if_neg hm] at h
            exact closes_of_feed hm hr h
        have hshort : rest.length < size := by
          rw [← hl, hsplit, List.length_cons, List.length_append]
          omega
        obtain ⟨cs, hcs, hrest⟩ := ih rest.length hshort ht rfl
        refine ⟨Char.ofNat n :: cs, by simp [hcs], ?_⟩
        rw [List.flatMap_cons, encodeChar_of_closes ho hc, hsplit, hrest]
        rfl

/-- Bytes that are read as a text are the bytes of that text. -/
theorem encodeUtf8_of_decodeUtf8 {bs : Bytes} {s : String} (h : decodeUtf8 bs = .ok s) :
    encodeUtf8 s = bs := by
  obtain ⟨r, hr, h⟩ := bind_eq_ok.1 h
  cases hc : r.current with
  | some o => simp [hc, throw, throwThe, MonadExceptOf.throw] at h
  | none =>
    obtain ⟨cs, hcs, hbs⟩ := eq_flatMap_of_feed hc hr
    simp only [hc, pure, Except.pure, Except.ok.injEq] at h
    rw [← h, hbs, encodeUtf8]
    simp [hcs]

/-! ## Texts without surrogates -/

theorem surrogates?_ofString (s : String) (position : Nat) :
    surrogates? position (.ofString s) = none := by
  rw [LooseText.ofString]
  induction s.toList generalizing position with
  | nil => rfl
  | cons c cs ih => exact ih (position + 1)

/-- A text without surrogates is a string. -/
theorem exists_eq_ofString {t : LooseText} {position : Nat} (h : surrogates? position t = none) :
    ∃ s : String, t = .ofString s := by
  induction t generalizing position with
  | nil => exact ⟨"", rfl⟩
  | cons c t ih =>
    cases c with
    | char c =>
      obtain ⟨s, rfl⟩ := ih h
      exact ⟨String.ofList (c :: s.toList), by simp [LooseText.ofString]⟩
    | surrogate n => cases h

@[simp] theorem flatMap_bytes_ofString (s : String) :
    (LooseText.ofString s).flatMap CodePoint.bytes = encodeUtf8 s := by
  rw [LooseText.ofString, List.flatMap_map]
  rfl

theorem encodeLoose_ofString (s : String) : encodeLoose (.ofString s) = .ok (encodeUtf8 s) := by
  rw [encodeLoose, surrogates?_ofString, flatMap_bytes_ofString]

end Birokrasi.Text
