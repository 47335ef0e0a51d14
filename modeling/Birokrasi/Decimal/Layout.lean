import Birokrasi.Decimal.Digits

/-!
# Numbers as text

How digits are laid out: positionally or with an exponent, with a fixed number of places, and with
commas between thousands.
-/

namespace Birokrasi.Decimal

/-- The decisions of a layout: the exponents from `lowest` to below `limit` are written positionally,
and a whole number keeps a point and a zero or not. -/
structure Layout where
  lowest : Int
  limit : Int
  keepPoint : Bool

/-- Numbers of the languages: positional from 0.0001 to below 10^16, and always with a point. -/
def plain : Layout := ⟨-4, 16, true⟩

/-- Numbers in six digits: positional from 0.0001 to below 10^6, and whole ones without a point. -/
def brief : Layout := ⟨-4, 6, false⟩

def zeros (n : Nat) : List Char := List.replicate n '0'

def exponentText (e : Int) : List Char :=
  let ds := natDigits e.natAbs
  (if e < 0 then '-' else '+') :: (zeros (2 - ds.length) ++ ds)

/-- Digits with a point after the first `whole` of them, which may be more or fewer than there are. -/
def positional (keepPoint : Bool) (digits : List Char) (exponent : Int) : List Char :=
  if exponent < 0 then '0' :: '.' :: (zeros (-exponent - 1).toNat ++ digits)
  else
    let whole := exponent.toNat + 1
    let front := digits.take whole ++ zeros (whole - digits.length)
    match digits.drop whole with
    | [] => if keepPoint then front ++ ['.', '0'] else front
    | rest => front ++ '.' :: rest

def exponential (digits : List Char) (exponent : Int) : List Char :=
  match digits with
  | [] => []
  | [d] => d :: 'e' :: exponentText exponent
  | d :: rest => d :: '.' :: (rest ++ 'e' :: exponentText exponent)

def Layout.write (l : Layout) (d : Digits) : List Char :=
  if l.lowest ≤ d.exponent && d.exponent < l.limit then
    positional l.keepPoint d.digits d.exponent
  else exponential d.digits d.exponent

def signed (negative : Bool) (s : List Char) : String :=
  String.ofList (if negative then '-' :: s else s)

def shown (x : Float) : String :=
  match Binary.ofFloat x with
  | .nan => "nan"
  | .infinite negative => signed negative "inf".toList
  | .finite negative m e =>
    if m = 0 then signed negative "0.0".toList
    else signed negative (plain.write (shortest m e))

def shownBrief (x : Float) : String :=
  match Binary.ofFloat x with
  | .nan => "nan"
  | .infinite negative => signed negative "inf".toList
  | .finite negative m e =>
    if m = 0 then signed negative "0".toList
    else
      let (n, d) := scaled m e
      signed negative (brief.write (significant 6 n d))

def grouped (digits : List Char) : List Char :=
  let rec go : List Char → Nat → List Char
    | [], _ => []
    | c :: rest, n => if n = 3 then ',' :: c :: go rest 1 else c :: go rest (n + 1)
  (go digits.reverse 0).reverse

/-- A double with a fixed number of places; the whole part with commas if asked for. The sign stays
also before a zero. -/
def fixed (count : Nat) (commas : Bool) (x : Float) : String :=
  match Binary.ofFloat x with
  | .nan => "nan"
  | .infinite negative => signed negative "inf".toList
  | .finite negative m e =>
    let (n, d) := scaled m e
    let units := places count n d
    let whole := natDigits (units / Nat.pow 10 count)
    let whole := if commas then grouped whole else whole
    if count = 0 then signed negative whole
    else
      let part := natDigits (units % Nat.pow 10 count)
      signed negative (whole ++ '.' :: (zeros (count - part.length) ++ part))

/-- An integer in decimal, however many digits it has: the limit on digits holds where a text is read. -/
def intText (n : Int) : String := signed (n < 0) (natDigits n.natAbs)

def intGrouped (n : Int) : String := signed (n < 0) (grouped (natDigits n.natAbs))

def padded (width n : Nat) : String :=
  let ds := natDigits n
  String.ofList (zeros (width - ds.length) ++ ds)

/-- An integer in at least `width` characters, the sign counted, with zeros in front of the
digits. -/
def paddedInt (width : Nat) (n : Int) : String :=
  if n < 0 then "-" ++ padded (width - 1) n.natAbs else padded width n.natAbs

def paddedHex (width : Nat) (n : Int) : String :=
  let ds := (Nat.toDigits 16 n.natAbs).map Char.toUpper
  let sign := if n < 0 then ['-'] else []
  String.ofList (sign ++ zeros (width - sign.length - ds.length) ++ ds)

def paddedText (width : Nat) (s : String) : String :=
  s ++ String.ofList (List.replicate (width - s.length) ' ')

end Birokrasi.Decimal
